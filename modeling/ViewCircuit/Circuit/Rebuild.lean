import ViewCircuit.Circuit
import ViewCircuit.Operator.Build

/-! Building a circuit anew from another one, operator by operator. -/
namespace ViewCircuit

/-- The circuit so far, and what stands for the operators that were replaced. -/
structure Rebuild where
  result : Circuit
  replaced : List (String × Operator)

namespace Rebuild

def start (c : Circuit) : Rebuild :=
  ⟨{ Circuit.empty c.name with declarations := c.declarations }, []⟩

/-- What now stands for an operator. -/
def mapped (r : Rebuild) (op : Operator) : Operator := (r.replaced.lookup op.name).getD op

def mappedInputs (r : Rebuild) (op : Operator) : List Operator := op.inputs.map r.mapped

/-- The operator over what now stands for its inputs. -/
def rewire (r : Rebuild) (op : Operator) : Compile Operator := op.withInputs (r.mappedInputs op)

def emit (r : Rebuild) (op : Operator) : Except CompileError Rebuild := do
  return { r with result := ← r.result.add op }

/-- Readers of `old` read `new` from here on. -/
def replace (r : Rebuild) (old new : Operator) : Rebuild :=
  { r with replaced := (old.name, new) :: r.replaced }

/-- Emits an operator that from here on stands for `old`. -/
def emitAs (r : Rebuild) (old new : Operator) : Except CompileError Rebuild := do
  return (← r.emit new).replace old new

/-- Keeps an operator, over what now stands for its inputs. -/
def copy (r : Rebuild) (op : Operator) : Compile Rebuild := do
  let rewired ← r.rewire op
  Compile.ofExcept (r.emitAs op rewired)

end Rebuild

/-- Visits every operator in declaration order. When the same nodes come out, so does the
circuit. -/
def Circuit.rebuild (c : Circuit) (visit : Rebuild → Operator → Compile Rebuild) :
    Compile Circuit := do
  let r ← c.operators.foldlM visit (Rebuild.start c)
  return if r.result.sameOperators c then c else r.result

end ViewCircuit
