import ViewCircuit.Pass.Distinct
import ViewCircuit.Pass.Live

/-! Circuits over changes: integrals after the sources and differences before the sinks, integrals
moved forward, and integrals cancelled against differences. -/
namespace ViewCircuit

namespace Boundary

/-- Each input of a sink, differentiated. -/
def differences : Rebuild → List Operator → Compile (Rebuild × List Operator)
  | r, [] => return (r, [])
  | r, input :: rest => do
    let delta ← Operator.differentiate input
    let r ← Compile.ofExcept (r.emit delta)
    let (r, deltas) ← differences r rest
    return (r, delta :: deltas)

def visit (r : Rebuild) (op : Operator) : Compile Rebuild := do
  match op.kind with
  | .source _ =>
    let r ← Compile.ofExcept (r.emit op)
    let integral ← Operator.integrate op
    Compile.ofExcept (r.emitAs op integral)
  | .sink _ =>
    let (r, deltas) ← differences r (r.mappedInputs op)
    let sink ← op.withInputs deltas
    Compile.ofExcept (r.emitAs op sink)
  | _ => r.copy op

end Boundary

/-- Changes come in and go out, and whole relations flow between. -/
def Circuit.incrementalize (c : Circuit) : Compile Circuit := c.rebuild Boundary.visit

namespace Integral

/-- Emits an operator over changes and its integral, which stands for `old`. -/
def emitIntegrated (r : Rebuild) (old delta : Operator) : Compile Rebuild := do
  let r ← Compile.ofExcept (r.emit delta)
  let integral ← Operator.integrate delta
  Compile.ofExcept (r.emitAs old integral)

def single (inputs : List Operator) : Compile Operator :=
  match inputs with
  | [input] => return input
  | _ => throw (.invariant .inputCount)

/-- An operator over integrals only becomes the integral of an operator over changes. Linear
operators and joins read the changes; distincts and aggregates need the integral itself; a window
stays whole and its changes are taken. -/
def push (r : Rebuild) (op : Operator) (integrals deltas : List Operator) : Compile Rebuild := do
  match op.kind with
  | .distinct => emitIntegrated r op (← Operator.incrementalDistinct (← single integrals))
  | .aggregate fold =>
    emitIntegrated r op (← Operator.incrementalAggregate (← single integrals) fold)
  | .windowAggregate .. =>
    let whole ← r.rewire op
    let r ← Compile.ofExcept (r.emit whole)
    emitIntegrated r op (← Operator.differentiate whole)
  | .join function =>
    match deltas with
    | [left, right] => emitIntegrated r op (← Operator.incrementalJoin left right function)
    | _ => throw (.invariant .inputCount)
  | kind => if kind.isLinear then emitIntegrated r op (← op.withInputs deltas) else r.copy op

def visit (r : Rebuild) (op : Operator) : Compile Rebuild :=
  let inputs := r.mappedInputs op
  match inputsUnder? (·.isIntegrate) inputs with
  | some deltas => push r op inputs deltas
  | none => r.copy op

end Integral

/-- Moves integrals towards the sinks. -/
def Circuit.pushIntegrals (c : Circuit) : Compile Circuit := c.rebuild Integral.visit

namespace Cancel

/-- The difference of an integral is what was integrated. -/
def visit (r : Rebuild) (op : Operator) : Compile Rebuild := do
  match op.kind, op.input?.map r.mapped with
  | .differentiate, some input =>
    match input.kind, input.input? with
    | .integrate, some inner => return r.replace op inner
    | _, _ => r.copy op
  | _, _ => r.copy op

end Cancel

/-- Cancels integrals against differences and removes the integrals nobody reads any more. -/
def Circuit.cancelIntegrals (c : Circuit) : Compile Circuit := do
  let cancelled ← c.rebuild Cancel.visit
  cancelled.prune

end ViewCircuit
