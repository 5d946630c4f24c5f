import ViewCircuit.Json

/-! Writing JSON text, on one line or indented by two blanks. What has no value is written as
`null`. -/
namespace ViewCircuit.Json

def hex4 (n : Nat) : List Char :=
  let ds := Nat.toDigits 16 n
  List.replicate (4 - ds.length) '0' ++ ds

def writeChar (c : Char) : List Char :=
  match c with
  | '\"' => ['\\', '\"']
  | '\\' => ['\\', '\\']
  | '\n' => ['\\', 'n']
  | '\r' => ['\\', 'r']
  | '\t' => ['\\', 't']
  | '\x08' => ['\\', 'b']
  | '\x0c' => ['\\', 'f']
  | c => if c.toNat < 32 then ['\\', 'u'] ++ hex4 c.toNat else [c]

def writeString (s : String) : String :=
  String.ofList ('\"' :: (s.toList.flatMap writeChar ++ ['\"']))

def writeNumber : Number → String
  | .int i => toString i
  | .dec negative digits exponent =>
    (if negative then "-" else "") ++ toString digits ++ "e" ++ toString exponent

mutual
def compact : Json → String
  | .null | .unreadable => "null"
  | .bool b => if b then "true" else "false"
  | .num n => writeNumber n
  | .str s => writeString s
  | .arr items => "[" ++ String.intercalate "," (compactItems items) ++ "]"
  | .obj members => "\x7b" ++ String.intercalate "," (compactMembers members) ++ "\x7d"
def compactItems : List Json → List String
  | [] => []
  | j :: rest => j.compact :: compactItems rest
def compactMembers : List (String × Json) → List String
  | [] => []
  | (k, j) :: rest => (writeString k ++ ":" ++ j.compact) :: compactMembers rest
end

def indent (n : Nat) : String := String.ofList (List.replicate (2 * n) ' ')

/-- Parts on lines of their own between two brackets; nothing between them when there are none. -/
def bracketed (level : Nat) (opening closing : String) (parts : List String) : String :=
  if parts.isEmpty then opening ++ closing
  else
    opening ++ "\n" ++ String.intercalate ",\n" (parts.map (indent (level + 1) ++ ·)) ++ "\n" ++
      indent level ++ closing

mutual
def pretty (level : Nat) : Json → String
  | .arr items => bracketed level "[" "]" (prettyItems (level + 1) items)
  | .obj members => bracketed level "\x7b" "\x7d" (prettyMembers (level + 1) members)
  | .null | .unreadable => "null"
  | .bool b => if b then "true" else "false"
  | .num n => writeNumber n
  | .str s => writeString s
def prettyItems (level : Nat) : List Json → List String
  | [] => []
  | j :: rest => j.pretty level :: prettyItems level rest
def prettyMembers (level : Nat) : List (String × Json) → List String
  | [] => []
  | (k, j) :: rest => (writeString k ++ ": " ++ j.pretty level) :: prettyMembers level rest
end

end ViewCircuit.Json
