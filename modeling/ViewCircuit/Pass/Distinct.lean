import ViewCircuit.Circuit.Rebuild

/-! Moving distincts towards the sinks, where they meet and collapse. -/
namespace ViewCircuit

/-- Inputs of operators of which all, and at least one, have a property and a single input. -/
def inputsUnder? (property : OperatorKind → Bool) (ops : List Operator) : Option (List Operator) :=
  if !ops.isEmpty && ops.all (fun op => property op.kind) then ops.mapM Operator.input? else none

namespace DistinctElision

/-- Operators through which a distinct below can be dropped when a distinct follows. -/
def isPullable : OperatorKind → Bool
  | .map _ | .filter _ | .join _ | .sum => true
  | _ => false

/-- A distinct of a distinct is the inner one. A distinct of an operator over distincts only reads
a copy of that operator over what is below them. -/
def visitDistinct (r : Rebuild) (op : Operator) : Compile Rebuild := do
  match op.input?.map r.mapped with
  | none => r.copy op
  | some input =>
    if input.kind.isDistinct then return r.replace op input
    else
      match if isPullable input.kind then inputsUnder? (·.isDistinct) input.inputs else none with
      | none => r.copy op
      | some inner =>
        let stripped ← input.duplicate inner
        let r ← Compile.ofExcept (r.emit stripped)
        let result ← op.withInputs [stripped]
        Compile.ofExcept (r.emitAs op result)

/-- Puts an operator below the distincts that it reads, and one distinct after it. -/
def pushBelow (r : Rebuild) (op : Operator) (inner : List Operator) : Compile Rebuild := do
  let moved ← op.withInputs inner
  let r ← Compile.ofExcept (r.emit moved)
  let distinct ← Operator.distinct moved
  Compile.ofExcept (r.emitAs op distinct)

def visit (r : Rebuild) (op : Operator) : Compile Rebuild :=
  match op.kind with
  | .distinct => visitDistinct r op
  | .filter _ | .join _ =>
    match inputsUnder? (·.isDistinct) (r.mappedInputs op) with
    | some inner => pushBelow r op inner
    | none => r.copy op
  | _ => r.copy op

end DistinctElision

def Circuit.elideDistincts (c : Circuit) : Compile Circuit := c.rebuild DistinctElision.visit

end ViewCircuit
