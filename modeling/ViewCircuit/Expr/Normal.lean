import ViewCircuit.Expr.Reduce
import ViewCircuit.Expr.Simplify

/-! Reducing an expression and then simplifying it. -/
namespace ViewCircuit

def Expr.normalize (e : Expr) : Compile (Reduct Expr) := do
  let reduced ← e.reduce
  let simplified := reduced.value.simplify
  return ⟨simplified.value, reduced.changed || simplified.changed, reduced.fired + simplified.fired⟩

end ViewCircuit
