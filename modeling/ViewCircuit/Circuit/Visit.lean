import ViewCircuit.Circuit

/-! Walking over the operators of a circuit in declaration order. -/
namespace ViewCircuit

/-- What is done at the ends of a circuit and at its operators, over a state. An operator's
`leave` is skipped when its `enter` says so. -/
structure Visitor (σ : Type) where
  start : Circuit → σ → σ
  enter : Operator → σ → Bool × σ
  leave : Operator → σ → σ
  finish : Circuit → σ → σ

def Visitor.operator {σ : Type} (v : Visitor σ) (s : σ) (op : Operator) : σ :=
  let (inside, s) := v.enter op s
  if inside then v.leave op s else s

def Circuit.accept {σ : Type} (c : Circuit) (v : Visitor σ) (s : σ) : σ :=
  v.finish c (c.operators.foldl v.operator (v.start c s))

/-- The events of a walk, in order; operations in `skipped` are not left. -/
def Visitor.trace (skipped : List String) : Visitor (List String) where
  start c events := events ++ ["begin " ++ c.name]
  enter op events := (!skipped.contains op.operation, events ++ ["pre " ++ op.name])
  leave op events := events ++ ["post " ++ op.name]
  finish c events := events ++ ["end " ++ c.name]

end ViewCircuit
