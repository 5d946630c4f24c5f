import ViewCircuit.Config.Setting
import ViewCircuit.Double
import ViewCircuit.Text.Escape

/-! The strings, numbers and keys of TOML text. -/
namespace ViewCircuit.Toml

open ViewCircuit.Text (escape? hexDigit? isPlain)

def isBlank (c : Char) : Bool := c == ' ' || c == '\t'

def skipBlank (cs : List Char) : List Char := cs.dropWhile isBlank

def newline? : List Char → Option (List Char)
  | '\n' :: rest => some rest
  | '\r' :: '\n' :: rest => some rest
  | _ => none

/-- A basic string after its opening quote. -/
def basic? : (fuel : Nat) → List Char → Option (List Char × List Char)
  | 0, _ => none
  | fuel + 1, cs =>
    match cs with
    | '\"' :: rest => some ([], rest)
    | '\\' :: rest => do
      let (c, rest) ← escape? rest
      let (body, rest) ← basic? fuel rest
      return (c :: body, rest)
    | c :: rest =>
      if isPlain c then (basic? fuel rest).map fun (body, rest) => (c :: body, rest) else none
    | [] => none

/-- A literal string after its opening quote. -/
def literal? (cs : List Char) : Option (List Char × List Char) :=
  let inside (c : Char) := isPlain c && c != '\''
  match cs.dropWhile inside with
  | '\'' :: rest => some (cs.takeWhile inside, rest)
  | _ => none

/-- Passes over blanks and line ends. -/
def skipLines : List Char → List Char
  | '\r' :: '\n' :: rest => skipLines rest
  | c :: rest => if isBlank c || c == '\n' then skipLines rest else c :: rest
  | [] => []

/-- What follows a backslash that ends its line. -/
def joinLines? (cs : List Char) : Option (List Char) :=
  (newline? (skipBlank cs)).map skipLines

/-- A string over several lines after its opening quotes. Up to two quotes may stand together, also
before the closing three. -/
def lines? (quote : Char) : (fuel : Nat) → List Char → Option (List Char × List Char)
  | 0, _ => none
  | fuel + 1, cs =>
    let run := (cs.takeWhile (· == quote)).length
    if 3 ≤ run then
      if run ≤ 5 then some (List.replicate (run - 3) quote, cs.drop run) else none
    else
      let more (c : Char) (rest : List Char) : Option (List Char × List Char) :=
        (lines? quote fuel rest).map fun (body, rest) => (c :: body, rest)
      match newline? cs, cs with
      | some rest, _ => more '\n' rest
      | none, [] => none
      | none, c :: rest =>
        if quote = '\"' ∧ c = '\\' then
          match joinLines? rest with
          | some rest => lines? quote fuel rest
          | none => do
            let (c, rest) ← escape? rest
            more c rest
        else if isPlain c then more c rest
        else none

/-- A string of any of the four forms. -/
def string? (cs : List Char) : Option (String × List Char) := do
  let (body, rest) ← match cs with
    | '\"' :: '\"' :: '\"' :: rest => lines? '\"' (rest.length + 1) ((newline? rest).getD rest)
    | '\'' :: '\'' :: '\'' :: rest => lines? '\'' (rest.length + 1) ((newline? rest).getD rest)
    | '\"' :: rest => basic? (rest.length + 1) rest
    | '\'' :: rest => literal? rest
    | _ => none
  return (String.ofList body, rest)

def isBareKeyChar (c : Char) : Bool := c.isAlphanum || c == '_' || c == '-'

/-- One part of a key: bare or in quotes on one line. -/
def simpleKey? (cs : List Char) : Option (String × List Char) :=
  match cs with
  | '\"' :: rest => (basic? (rest.length + 1) rest).map fun (k, rest) => (String.ofList k, rest)
  | '\'' :: rest => (literal? rest).map fun (k, rest) => (String.ofList k, rest)
  | _ =>
    let bare := cs.takeWhile isBareKeyChar
    if bare.isEmpty then none else some (String.ofList bare, cs.dropWhile isBareKeyChar)

/-- At most so many parts of a key, divided by dots. -/
def keyParts? : (most : Nat) → List Char → Option (List String × List Char)
  | 0, _ => none
  | most + 1, cs => do
    let (part, rest) ← simpleKey? (skipBlank cs)
    match skipBlank rest with
    | '.' :: rest => do
      let (parts, rest) ← keyParts? most rest
      return (part :: parts, rest)
    | rest => return ([part], rest)

def key? (cs : List Char) : Option (List String × List Char) := keyParts? 79 cs

/-- Digits, with single underscores between them, as a number. -/
def digits? (base : Nat) (cs : List Char) : Option Nat :=
  let groups := cs.splitOn '_'
  if groups.any List.isEmpty then none
  else groups.flatten.foldlM (fun n c => do
    let d ← hexDigit? c
    if d < base then some (base * n + d) else none) 0

def unsigned : List Char → Bool × List Char
  | '-' :: rest => (true, rest)
  | '+' :: rest => (false, rest)
  | cs => (false, cs)

/-- A whole decimal number: no zero in front of other digits. -/
def whole? (cs : List Char) : Option Nat :=
  match cs with
  | '0' :: _ :: _ => none
  | _ => digits? 10 cs

def isInteger (cs : List Char) : Bool :=
  match cs with
  | '0' :: 'x' :: ds => (digits? 16 ds).any fun n => n < 1 <<< 63
  | '0' :: 'o' :: ds => (digits? 8 ds).any fun n => n < 1 <<< 63
  | '0' :: 'b' :: ds => (digits? 2 ds).any fun n => n < 1 <<< 63
  | _ =>
    let (negative, ds) := unsigned cs
    (whole? ds).any fun n => n < 1 <<< 63 || (negative && n == 1 <<< 63)

/-- The digits of a number with a point or an exponent, and the power of ten they stand for. -/
def decimal? (body : List Char) : Option (Nat × Int) := do
  let isExponent (c : Char) := c == 'e' || c == 'E'
  let mantissa := body.takeWhile (!isExponent ·)
  let exponent := body.dropWhile (!isExponent ·)
  let whole := mantissa.takeWhile (· != '.')
  let fraction := mantissa.dropWhile (· != '.')
  if exponent.isEmpty && fraction.isEmpty then none
  let _ ← whole? whole
  let places ← match fraction with
    | [] => some []
    | _ :: ds => (digits? 10 ds).map fun _ => ds.filter Char.isDigit
  let power ← match exponent with
    | [] => some 0
    | _ :: ds =>
      let (negative, ds) := unsigned ds
      (digits? 10 ds).map fun n => if negative then -(n : Int) else n
  return (← digits? 10 (whole ++ places), power - places.length)

/-- A float. One above all doubles is refused, one below all is not. -/
def isFloat (cs : List Char) : Bool :=
  let (negative, body) := unsigned cs
  body == "inf".toList || body == "nan".toList ||
    (decimal? body).any fun (digits, power) =>
      negative || (Double.ofDecimal? false digits power).isSome

/-- A value written as one word. -/
def word? (cs : List Char) : Option Setting :=
  if cs == "true".toList then some (.flag true)
  else if cs == "false".toList then some (.flag false)
  else if isInteger cs || isFloat cs then some .number
  else none

def isWordChar (c : Char) : Bool := c.isAlphanum || c == '_' || c == '+' || c == '-' || c == '.'

end ViewCircuit.Toml
