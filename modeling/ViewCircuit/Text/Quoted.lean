import ViewCircuit.Text.Unprinted

/-! Quoted text: printable characters stand for themselves, all others are escaped. -/
namespace ViewCircuit.Text

/-- One character inside double quotes. -/
def quoteChar (c : Char) : List Char :=
  match c with
  | '\"' => ['\\', '\"']
  | '\\' => ['\\', '\\']
  | '\n' => ['\\', 'n']
  | '\r' => ['\\', 'r']
  | '\t' => ['\\', 't']
  | c =>
    if c.toNat = 0 then ['\\', '0']
    else if isUnprinted c then "\\u\x7b".toList ++ Nat.toDigits 16 c.toNat ++ "\x7d".toList
    else [c]

def quoted (s : String) : String :=
  String.ofList ('\"' :: (s.toList.flatMap quoteChar ++ ['\"']))

end ViewCircuit.Text
