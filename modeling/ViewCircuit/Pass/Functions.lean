import ViewCircuit.Circuit.Rebuild
import ViewCircuit.Expr.Normal

/-! Normalizing the expression of every operator. -/
namespace ViewCircuit

namespace Functions

/-- Operators whose expression stays are kept. -/
def visit (r : Rebuild) (op : Operator) : Compile Rebuild := do
  match op.kind.function? with
  | none => r.copy op
  | some function =>
    let normal ← function.normalize
    if !normal.changed then r.copy op
    else
      let rewired ← r.rewire op
      let result ← rewired.withFunction normal.value
      Compile.ofExcept (r.emitAs op result)

end Functions

def Circuit.normalizeFunctions (c : Circuit) : Compile Circuit := c.rebuild Functions.visit

end ViewCircuit
