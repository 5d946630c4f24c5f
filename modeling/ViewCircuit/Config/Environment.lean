import ViewCircuit.Config.Setting
import ViewCircuit.Text.Blank
import ViewCircuit.Text.Escape

/-! Settings given by variables of the environment. -/
namespace ViewCircuit.Environment

open ViewCircuit.Text (escape? isPlain trim)

/-- Why text is not read as a value. -/
inductive Fault where
  /-- It is none, and so it stands for itself. -/
  | malformed
  /-- Quoted text would be cut inside a character. Nothing can be loaded then. -/
  | torn
  deriving DecidableEq, Repr

def isBlank (c : Char) : Bool := c == ' ' || c == '\t' || c == '\n' || c == '\r' || c == '\x0c'

def skipBlank (cs : List Char) : List Char := cs.dropWhile isBlank

def word? : List Char → List Char → Option (List Char)
  | [], cs => some cs
  | w :: ws, c :: cs => if w = c then word? ws cs else none
  | _ :: _, [] => none

def isSeparator (c : Char) : Bool :=
  c == ',' || c == '[' || c == ']' || c == '\x7b' || c == '\x7d'

def isKeyChar (c : Char) : Bool := c.isAlphanum || c == '_' || c == '-'

/-- The inside of quoted text up to its closing quote, with the escapes as they are written. -/
def inside? : List Char → (done : List Char) → Option (List Char × List Char)
  | [], _ => none
  | '\"' :: rest, done => some (done.reverse, rest)
  | '\\' :: c :: rest, done => inside? rest (c :: '\\' :: done)
  | c :: rest, done => inside? rest (c :: done)

/-- The characters that escapes and plain characters stand for. -/
def unescape? : (fuel : Nat) → List Char → Option (List Char)
  | _, [] => some []
  | 0, _ => none
  | fuel + 1, '\\' :: rest => do
    let (c, rest) ← escape? rest
    return c :: (← unescape? fuel rest)
  | fuel + 1, c :: rest =>
    if isPlain c then (unescape? fuel rest).map (c :: ·) else none

/-- The characters in the first `n` bytes, when the last of these ends a character. -/
def firstBytes? : (n : Nat) → List Char → Option (List Char)
  | 0, _ => some []
  | _ + 1, [] => none
  | n + 1, c :: rest =>
    if c.utf8Size ≤ n + 1 then (firstBytes? (n + 1 - c.utf8Size) rest).map (c :: ·) else none

/-- The text that the inside of quotes stands for. Before the first escape it is kept for as many
bytes as it has characters, which is all of it when these are ASCII. -/
def unquote (cs : List Char) : Except Fault (List Char) :=
  let front := cs.takeWhile (· != '\\')
  let rest := cs.dropWhile (· != '\\')
  if !front.all isPlain then .error .malformed
  else if rest.isEmpty then .ok front
  else
    match firstBytes? front.length front, unescape? rest.length rest with
    | none, _ => .error .torn
    | some _, none => .error .malformed
    | some front, some rest => .ok (front ++ rest)

/-- Quoted text after its opening quote. -/
def quoted (cs : List Char) : Except Fault (String × List Char) :=
  match inside? cs [] with
  | none => .error .malformed
  | some (body, rest) => do return (String.ofList (← unquote body), rest)

def digits (cs : List Char) : Nat := cs.foldl (fun n c => 10 * n + (c.toNat - 48)) 0

def isDigits (cs : List Char) : Bool := !cs.isEmpty && cs.all Char.isDigit

def isInteger : List Char → Bool
  | '-' :: ds => isDigits ds && digits ds ≤ 1 <<< 63
  | '+' :: ds => isDigits ds && digits ds < 1 <<< 64
  | ds => isDigits ds && digits ds < 1 <<< 64

def unsigned : List Char → List Char
  | '-' :: rest | '+' :: rest => rest
  | cs => cs

/-- A number with a point. Digits may be missing on one side of it. -/
def isFraction (cs : List Char) : Bool :=
  let body := unsigned cs
  let rest := body.dropWhile Char.isDigit
  match rest with
  | '.' :: rest =>
    let exponent := rest.dropWhile Char.isDigit
    (!(body.takeWhile Char.isDigit).isEmpty || !(rest.takeWhile Char.isDigit).isEmpty) &&
      match exponent with
      | [] => true
      | c :: e => (c == 'e' || c == 'E') && isDigits (unsigned e)
  | _ => false

def bare (cs : List Char) : Setting :=
  if isFraction cs || isInteger cs then .number else .text (String.ofList cs)

/-- The key of an entry: in quotes, or letters, digits, `_` and `-`. -/
def key : List Char → Except Fault (String × List Char)
  | '\"' :: rest => quoted rest
  | cs =>
    let name := cs.takeWhile isKeyChar
    if name.isEmpty then .error .malformed else .ok (String.ofList name, cs.dropWhile isKeyChar)

mutual
def value : (fuel : Nat) → List Char → Except Fault (Setting × List Char)
  | 0, _ => .error .malformed
  | fuel + 1, cs => do
    let cs := skipBlank cs
    let (v, rest) ← match word? "true".toList cs, word? "false".toList cs, cs with
      | some rest, _, _ => .ok (Setting.flag true, rest)
      | _, some rest, _ => .ok (Setting.flag false, rest)
      | _, _, '\x7b' :: rest => (entries fuel rest).map fun (es, rest) =>
          (.table (es.foldl (fun done e => Setting.put done e.1 e.2) []), rest)
      | _, _, '[' :: rest => (items fuel rest).map fun (vs, rest) => (.list vs, rest)
      | _, _, '\"' :: rest => (quoted rest).map fun (s, rest) => (.text s, rest)
      | _, _, '\'' :: c :: '\'' :: rest => .ok (.text (String.ofList [c]), rest)
      | _, _, '\'' :: _ => .error .malformed
      | _, _, cs =>
        .ok (bare (trim (cs.takeWhile (!isSeparator ·))), cs.dropWhile (!isSeparator ·))
    return (v, skipBlank rest)
/-- The items of a list up to its closing bracket, which may follow a comma. -/
def items : (fuel : Nat) → List Char → Except Fault (List Setting × List Char)
  | 0, _ => .error .malformed
  | _, ']' :: rest => .ok ([], rest)
  | fuel + 1, cs => do
    let (v, rest) ← value fuel cs
    match rest with
    | ',' :: rest => (items fuel rest).map fun (vs, rest) => (v :: vs, rest)
    | ']' :: rest => return ([v], rest)
    | _ => .error .malformed
/-- The entries of a table up to its closing brace, which may follow a comma. -/
def entries : (fuel : Nat) → List Char → Except Fault (List (String × Setting) × List Char)
  | 0, _ => .error .malformed
  | _, '\x7d' :: rest => .ok ([], rest)
  | fuel + 1, cs => do
    let (name, rest) ← key (skipBlank cs)
    match skipBlank rest with
    | '=' :: rest => do
      let (v, rest) ← value fuel rest
      match rest with
      | ',' :: rest => (entries fuel rest).map fun (es, rest) => ((name, v) :: es, rest)
      | '\x7d' :: rest => return ([(name, v)], rest)
      | _ => .error .malformed
    | _ => .error .malformed
end

/-- What the value of a variable sets: all of it read as one value, or else its text. -/
def setting (text : String) : Except Fault Setting :=
  let cs := text.toList
  match value (2 * cs.length + 2) cs with
  | .ok (v, []) => .ok v
  | .error .torn => .error .torn
  | _ => .ok (.text text)

/-- The start of the names that are looked at, in any case. -/
def namePrefix : List Char := "DELTAPLAN_".toList

/-- The key that a name stands for: two underscores divide its parts. Blanks around the name and
around the key are no part of them. -/
def path? (name : String) : Option (List String) := do
  let rest ← word? (namePrefix.map Char.toLower) ((trim name.toList).map Char.toLower)
  let parts := (String.ofList (trim rest)).splitOn "__" |>.flatMap (·.splitOn ".")
  if parts.any String.isEmpty then none else some parts

def nested (value : Setting) : List String → Setting
  | [] => value
  | key :: path => .table [(key, nested value path)]

/-- The settings of all variables, later ones over earlier ones. -/
def settings (environment : List (String × String)) : Except Fault Setting :=
  environment.foldlM (fun done (name, text) =>
    match path? name with
    | some path => do return (nested (← setting text) path).onto done
    | none => return done) Setting.empty

end ViewCircuit.Environment
