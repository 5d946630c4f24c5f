import ViewCircuit.Text.Quoted

/-! Structural text of data: constructor names with their fields, all on one line. -/
namespace ViewCircuit.Text

def listed (items : List String) : String := "[" ++ String.intercalate ", " items ++ "]"

/-- A constructor with positional parts. -/
def applied (name : String) (part : String) : String := name ++ "(" ++ part ++ ")"

/-- A constructor with named fields. -/
def record (name : String) (fields : List (String × String)) : String :=
  name ++ " \x7b " ++ String.intercalate ", " (fields.map fun f => f.1 ++ ": " ++ f.2) ++ " \x7d"

def flag (b : Bool) : String := if b then "true" else "false"

def naturals (ns : List Nat) : String := listed (ns.map toString)

end ViewCircuit.Text
