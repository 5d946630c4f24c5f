import ViewCircuit.Circuit.Rebuild
import ViewCircuit.Circuit.Visit

/-! Live operators: the sources, and all that a sink reads through a chain of inputs. -/
namespace ViewCircuit

mutual
/-- Adds the streams below an operator to those already reached, the last input first. -/
def Operator.reach : Operator → List String → List String
  | ⟨_, name, _, inputs, _, _⟩, reached =>
    if reached.contains name then reached else Operator.reachAll inputs (name :: reached)
def Operator.reachAll : List Operator → List String → List String
  | [], reached => reached
  | op :: ops, reached => op.reach (Operator.reachAll ops reached)
end

namespace Circuit

/-- Sources are live by themselves, a sink with all below it. -/
def liveVisitor : Visitor (List String) where
  start _ reached := reached
  enter op reached :=
    (false,
      match op.kind with
      | .source _ => if reached.contains op.name then reached else op.name :: reached
      | .sink _ => op.reach reached
      | _ => reached)
  leave _ reached := reached
  finish _ reached := reached

/-- Names of the live streams, each once. -/
def live (c : Circuit) : List String := c.accept liveVisitor []

/-- Keeps the operators whose streams are listed. -/
def compact (c : Circuit) (kept : List String) : Compile Circuit :=
  c.rebuild fun r op => if kept.contains op.name then r.copy op else return r

/-- Removes what is not live. -/
def prune (c : Circuit) : Compile Circuit := do
  let live := c.live
  if live.length = c.size then return c else c.compact live

end Circuit
end ViewCircuit
