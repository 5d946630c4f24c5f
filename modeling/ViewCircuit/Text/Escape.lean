/-! Escapes in quoted text: a backslash before a letter, a quote, or the digits of a code point. -/
namespace ViewCircuit.Text

def hexDigit? (c : Char) : Option Nat :=
  if c.isDigit then some (c.toNat - 48)
  else if 'a' ≤ c ∧ c ≤ 'f' then some (c.toNat - 87)
  else if 'A' ≤ c ∧ c ≤ 'F' then some (c.toNat - 55)
  else none

/-- The character with the code point that the digits give. -/
def codePoint? (digits : List Char) : Option Char := do
  let n ← digits.foldlM (fun n d => do return 16 * n + (← hexDigit? d)) 0
  if n < 0xd800 ∨ (0xdfff < n ∧ n < 0x110000) then some (Char.ofNat n) else none

def plainEscape? : Char → Option Char
  | 'b' => some '\x08'
  | 't' => some '\t'
  | 'n' => some '\n'
  | 'f' => some '\x0c'
  | 'r' => some '\r'
  | '\"' => some '\"'
  | '\\' => some '\\'
  | _ => none

/-- An escape after its backslash. -/
def escape? : List Char → Option (Char × List Char)
  | 'u' :: rest => do
    if rest.length < 4 then none else return (← codePoint? (rest.take 4), rest.drop 4)
  | 'U' :: rest => do
    if rest.length < 8 then none else return (← codePoint? (rest.take 8), rest.drop 8)
  | c :: rest => do return (← plainEscape? c, rest)
  | [] => none

/-- Characters that may stand in quoted text as they are. -/
def isPlain (c : Char) : Bool := c == '\t' || (32 ≤ c.toNat && c.toNat != 127)

end ViewCircuit.Text
