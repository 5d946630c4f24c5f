import ViewCircuit.Error
import ViewCircuit.Names

/-! What one compilation carries along: the names it has drawn and the operators it has numbered. -/
namespace ViewCircuit

structure Context where
  names : Names
  /-- The number of the next operator. -/
  nextId : Nat

def Context.empty : Context := ⟨.empty, 0⟩

/-- A step of a compilation. What it drew from the context stays drawn when it fails. -/
abbrev Compile (α : Type) := ExceptT CompileError (StateM Context) α

namespace Compile

variable {α : Type}

/-- A check or construction that does not use the context. -/
def ofExcept (r : Except CompileError α) : Compile α := fun ctx => (r, ctx)

/-- Draws the name of a new stream. -/
def freshStream : Compile String := fun ctx =>
  let (name, names) := ctx.names.fresh "stream"
  (.ok name, { ctx with names })

/-- Draws the number of a new operator. -/
def freshId : Compile Nat := fun ctx => (.ok ctx.nextId, { ctx with nextId := ctx.nextId + 1 })

end Compile
end ViewCircuit
