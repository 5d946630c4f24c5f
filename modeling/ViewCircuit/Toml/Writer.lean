/-! Text as a TOML string, in the first of four forms that needs no escapes. -/
namespace ViewCircuit.Toml

inductive Quoting where
  | basic | literal | basicLines | literalLines
  deriving DecidableEq, Repr

def Quoting.mark : Quoting → List Char
  | .basic => ['\"']
  | .literal => ['\'']
  | .basicLines => ['\"', '\"', '\"']
  | .literalLines => ['\'', '\'', '\'']

/-- Controls that no form holds as they are. -/
def isControl (c : Char) : Bool :=
  (c.toNat < 32 && c != '\t' && c != '\n') || c.toNat == 127

/-- The longest run of a character, given the run just before the text. -/
def longestRun (q : Char) : (run : Nat) → List Char → Nat
  | run, [] => run
  | run, c :: rest =>
    if c = q then longestRun q (run + 1) rest else max run (longestRun q 0 rest)

/-- The form a text is written in. -/
def quoting (cs : List Char) : Quoting :=
  let controls := cs.any isControl
  let escapes := controls || cs.contains '\\'
  let lines := cs.contains '\n'
  let doubles := longestRun '\"' 0 cs
  let singles := longestRun '\'' 0 cs
  if !escapes && doubles == 0 && !lines then .basic
  else if !controls && singles == 0 && !lines then .literal
  else if !escapes && doubles ≤ 2 then .basicLines
  else if !controls && singles ≤ 2 then .literalLines
  else if lines then .basicLines
  else .basic

def hexDigits (n : Nat) : List Char :=
  let ds := (Nat.toDigits 16 n).map Char.toUpper
  List.replicate (4 - ds.length) '0' ++ ds

def escapeChar (lines : Bool) (c : Char) : List Char :=
  match c with
  | '\x08' => ['\\', 'b']
  | '\t' => ['\\', 't']
  | '\n' => if lines then ['\n'] else ['\\', 'n']
  | '\x0c' => ['\\', 'f']
  | '\r' => ['\\', 'r']
  | '\\' => ['\\', '\\']
  | c => if isControl c then '\\' :: 'u' :: hexDigits c.toNat else [c]

/-- The inside of a basic string. Over several lines two quotes may stand together. -/
def escape (lines : Bool) : (run : Nat) → List Char → List Char
  | _, [] => []
  | run, c :: rest =>
    if c = '\"' then
      if lines && run < 2 then c :: escape lines (run + 1) rest
      else '\\' :: c :: escape lines 0 rest
    else escapeChar lines c ++ escape lines 0 rest

def string (s : String) : String :=
  let cs := s.toList
  let form := quoting cs
  let body := match form with
    | .basic => escape false 0 cs
    | .basicLines => escape true 0 cs
    | .literal | .literalLines => cs
  let start := match form with
    | .basicLines | .literalLines => if cs.contains '\n' then ['\n'] else []
    | _ => []
  String.ofList (form.mark ++ start ++ body ++ form.mark)

end ViewCircuit.Toml
