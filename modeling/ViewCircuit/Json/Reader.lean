import ViewCircuit.Json

/-! Reading JSON text. Arrays and objects have a value when at most 127 of them are nested. -/
namespace ViewCircuit.Json

def isBlank (c : Char) : Bool := c == ' ' || c == '\n' || c == '\t' || c == '\r'

def skipBlank (cs : List Char) : List Char := cs.dropWhile isBlank

/-- A literal word at the front of the input. -/
def word? : List Char → List Char → Option (List Char)
  | [], cs => some cs
  | w :: ws, c :: cs => if w = c then word? ws cs else none
  | _ :: _, [] => none

def hexDigit? (c : Char) : Option Nat :=
  if c.isDigit then some (c.toNat - 48)
  else if 'a' ≤ c ∧ c ≤ 'f' then some (c.toNat - 87)
  else if 'A' ≤ c ∧ c ≤ 'F' then some (c.toNat - 55)
  else none

def hex4? (a b c d : Char) : Option Nat := do
  return (((← hexDigit? a) * 16 + (← hexDigit? b)) * 16 + (← hexDigit? c)) * 16 + (← hexDigit? d)

def plainEscape? : Char → Option Char
  | '\"' => some '\"'
  | '\\' => some '\\'
  | '/' => some '/'
  | 'b' => some '\x08'
  | 'f' => some '\x0c'
  | 'n' => some '\n'
  | 'r' => some '\r'
  | 't' => some '\t'
  | _ => none

/-- The codes of the characters up to the closing quote. An escape gives one unit of 16 bits. -/
def codes? : List Char → (done : List Nat) → Option (List Nat × List Char)
  | [], _ => none
  | '\"' :: rest, done => some (done.reverse, rest)
  | '\\' :: 'u' :: a :: b :: c :: d :: rest, done =>
    match hex4? a b c d with
    | some unit => codes? rest (unit :: done)
    | none => none
  | '\\' :: c :: rest, done =>
    match plainEscape? c with
    | some c => codes? rest (c.toNat :: done)
    | none => none
  | c :: rest, done => if c.toNat < 32 ∨ c = '\\' then none else codes? rest (c.toNat :: done)

def isHigh (code : Nat) : Bool := 0xd800 ≤ code && code ≤ 0xdbff
def isLow (code : Nat) : Bool := 0xdc00 ≤ code && code ≤ 0xdfff

/-- The text of the codes. Two halves of a surrogate pair are one character, a single half is
none. -/
def text? : List Nat → (done : List Char) → Option String
  | [], done => some (String.ofList done.reverse)
  | high :: low :: rest, done =>
    if isHigh high && isLow low then
      text? rest (Char.ofNat (0x10000 + (high - 0xd800) * 1024 + (low - 0xdc00)) :: done)
    else if isHigh high || isLow high then none
    else text? (low :: rest) (Char.ofNat high :: done)
  | [code], done =>
    if isHigh code || isLow code then none
    else some (String.ofList (Char.ofNat code :: done).reverse)

/-- A string after its opening quote; the text is `none` when the codes give none. -/
def string? (cs : List Char) : Option (Option String × List Char) :=
  (codes? cs []).map fun (codes, rest) => (text? codes [], rest)

def digitsValue (cs : List Char) : Nat := cs.foldl (fun n c => 10 * n + (c.toNat - 48)) 0

/-- Leading digits: a single zero, or a run that does not start with zero. -/
def wholeDigits? (cs : List Char) : Option (List Char × List Char) :=
  match cs with
  | '0' :: rest => if (rest.head?.map Char.isDigit).getD false then none else some (['0'], rest)
  | c :: _ =>
    if c.isDigit then some (cs.takeWhile Char.isDigit, cs.dropWhile Char.isDigit) else none
  | [] => none

/-- Digits after a mark; at least one. -/
def someDigits? (cs : List Char) : Option (List Char × List Char) :=
  let run := cs.takeWhile Char.isDigit
  if run.isEmpty then none else some (run, cs.dropWhile Char.isDigit)

def fraction? : List Char → Option (List Char × List Char)
  | '.' :: rest => someDigits? rest
  | cs => some ([], cs)

/-- The exponent part, if there is one. -/
def exponent? : List Char → Option (Option Int × List Char)
  | c :: rest =>
    if c = 'e' ∨ c = 'E' then
      let (negative, rest) := match rest with
        | '-' :: r => (true, r)
        | '+' :: r => (false, r)
        | r => (false, r)
      (someDigits? rest).map fun (ds, rest) =>
        let n : Int := digitsValue ds
        (some (if negative then -n else n), rest)
    else some (none, c :: rest)
  | [] => some (none, [])

def number? (cs : List Char) : Option (Number × List Char) := do
  let (negative, cs) := match cs with
    | '-' :: r => (true, r)
    | r => (false, r)
  let (whole, cs) ← wholeDigits? cs
  let (frac, cs) ← fraction? cs
  let (exp, cs) ← exponent? cs
  let digits := digitsValue (whole ++ frac)
  if frac.isEmpty && exp.isNone && !(negative && digits == 0) then
    return (.int (if negative then -digits else digits), cs)
  else return (.dec negative digits (exp.getD 0 - frac.length), cs)

/-- A value without brackets. -/
def scalar? : List Char → Option (Json × List Char)
  | 'n' :: rest => (word? "ull".toList rest).map (.null, ·)
  | 't' :: rest => (word? "rue".toList rest).map (.bool true, ·)
  | 'f' :: rest => (word? "alse".toList rest).map (.bool false, ·)
  | '\"' :: rest => (string? rest).map fun (s, rest) => ((s.map Json.str).getD .unreadable, rest)
  | cs => (number? cs).map fun (n, rest) =>
    (if n.double?.isSome then .num n else .unreadable, rest)

/-- The name of a member and the colon after it. -/
def name? (cs : List Char) : Option (Option String × List Char) :=
  match skipBlank cs with
  | '\"' :: rest =>
    match string? rest with
    | some (name, rest) =>
      match skipBlank rest with
      | ':' :: rest => some (name, rest)
      | _ => none
    | none => none
  | _ => none

/-- Passes over one value, however deep it is nested. `brackets` are those open so far, with the
innermost first and `true` for a brace; `ended` tells that a value in them just ended. -/
def pass? : (fuel : Nat) → (ended : Bool) → (brackets : List Bool) → List Char →
    Option (List Char)
  | 0, _, _, _ => none
  | _ + 1, true, [], cs => some cs
  | fuel + 1, true, brace :: outer, cs =>
    match skipBlank cs, brace with
    | ',' :: rest, false => pass? fuel false (brace :: outer) rest
    | ',' :: rest, true =>
      match name? rest with
      | some (_, rest) => pass? fuel false (brace :: outer) rest
      | none => none
    | ']' :: rest, false => pass? fuel true outer rest
    | '\x7d' :: rest, true => pass? fuel true outer rest
    | _, _ => none
  | fuel + 1, false, brackets, cs =>
    match skipBlank cs with
    | '[' :: rest =>
      match skipBlank rest with
      | ']' :: rest => pass? fuel true brackets rest
      | rest => pass? fuel false (false :: brackets) rest
    | '\x7b' :: rest =>
      match skipBlank rest with
      | '\x7d' :: rest => pass? fuel true brackets rest
      | rest =>
        match name? rest with
        | some (_, rest) => pass? fuel false (true :: brackets) rest
        | none => none
    | cs =>
      match scalar? cs with
      | some (_, rest) => pass? fuel true brackets rest
      | none => none

/-- An object, if all its names have a text. -/
def object (members : List (Option String × Json)) : Json :=
  match members.mapM fun (name, j) => name.map (·, j) with
  | some members => .obj members
  | none => .unreadable

mutual
/-- One value; `fuel` bounds the calls. Brackets are read `depth` deep and passed over below. -/
def value? : (fuel depth : Nat) → List Char → Option (Json × List Char)
  | 0, _, _ => none
  | fuel + 1, depth, cs =>
    match skipBlank cs, depth with
    | '[' :: rest, 0 => (pass? (rest.length + 2) false [] ('[' :: rest)).map (.unreadable, ·)
    | '\x7b' :: rest, 0 => (pass? (rest.length + 2) false [] ('\x7b' :: rest)).map (.unreadable, ·)
    | '[' :: rest, depth + 1 =>
      match skipBlank rest with
      | ']' :: rest => some (.arr [], rest)
      | rest => (items? fuel depth rest).map fun (xs, rest) => (.arr xs, rest)
    | '\x7b' :: rest, depth + 1 =>
      match skipBlank rest with
      | '\x7d' :: rest => some (.obj [], rest)
      | rest => (members? fuel depth rest).map fun (ms, rest) => (object ms, rest)
    | cs, _ => scalar? cs
/-- The items of an array up to its closing bracket. -/
def items? : (fuel depth : Nat) → List Char → Option (List Json × List Char)
  | 0, _, _ => none
  | fuel + 1, depth, cs => do
    let (j, rest) ← value? fuel depth cs
    match skipBlank rest with
    | ',' :: rest => do
      let (js, rest) ← items? fuel depth rest
      return (j :: js, rest)
    | ']' :: rest => return ([j], rest)
    | _ => none
/-- The members of an object up to its closing brace. -/
def members? : (fuel depth : Nat) → List Char → Option (List (Option String × Json) × List Char)
  | 0, _, _ => none
  | fuel + 1, depth, cs => do
    let (name, rest) ← name? cs
    let (j, rest) ← value? fuel depth rest
    match skipBlank rest with
    | ',' :: rest => do
      let (ms, rest) ← members? fuel depth rest
      return ((name, j) :: ms, rest)
    | '\x7d' :: rest => return ([(name, j)], rest)
    | _ => none
end

/-- A whole text as one value, parts of which may be unreadable. -/
def read? (text : String) : Option Json := do
  let cs := text.toList
  let (j, rest) ← value? (2 * cs.length + 2) 127 cs
  if (skipBlank rest).isEmpty then some j else none

/-- A whole text as one value that can be read throughout. -/
def parse? (text : String) : Option Json := (read? text).filter isReadable

end ViewCircuit.Json
