import ViewCircuit.Expr

/-! Free variables, collected in one walk over an expression with one stack of bound names. -/
namespace ViewCircuit

/-- The names that are bound where the walk is, the latest last, and the free ones met so far. How
often a name was met makes no difference to anyone. -/
structure Collector where
  bound : List String
  found : List String

namespace Collector

/-- How many names are bound. -/
def mark : StateM Collector Nat := return (← get).bound.length

/-- Binds names until the stack is cut back. -/
def extend (names : List String) : StateM Collector Unit :=
  modify fun c => { c with bound := c.bound ++ names }

/-- Cuts the stack back to an earlier mark. -/
def truncate (mark : Nat) : StateM Collector Unit :=
  modify fun c => { c with bound := c.bound.take mark }

/-- Meets an occurrence of a variable. -/
def meet (name : String) : StateM Collector Unit :=
  modify fun c => if c.bound.contains name then c else { c with found := c.found ++ [name] }

end Collector

open Collector (mark extend truncate meet)

namespace Expr

mutual
/-- Meets every variable of the expression; the stack is cut back behind every binder. -/
def collect : Expr → StateM Collector Unit
  | ⟨.var name, _⟩ => meet name
  | ⟨.literal (.zset rows), _⟩ => collectRows rows
  | ⟨.literal (.vec items), _⟩ => collectAll items
  | ⟨.literal _, _⟩ => return
  | ⟨.field e _, _⟩ | ⟨.unary _ e, _⟩ | ⟨.cast e, _⟩ | ⟨.isNull e, _⟩ | ⟨.borrow e, _⟩
  | ⟨.deref e, _⟩ | ⟨.some e, _⟩ => e.collect
  | ⟨.binary _ left right, _⟩ => do
    left.collect
    right.collect
  | ⟨.apply function args, _⟩ => do
    function.collect
    collectAll args
  | ⟨.call _ es, _⟩ | ⟨.tuple es, _⟩ | ⟨.rawTuple es, _⟩ | ⟨.struct _ es, _⟩ => collectAll es
  | ⟨.closure params body, _⟩ => do
    let before ← mark
    extend (params.map Param.name)
    body.collect
    truncate before
  | ⟨.block body, _⟩ => do
    let before ← mark
    collectBlock body
    truncate before
  | ⟨.ite condition yes no, _⟩ => do
    condition.collect
    yes.collect
    no.collect
  | ⟨.cases scrutinee arms, _⟩ => do
    scrutinee.collect
    collectArms arms
  | ⟨.range start stop _, _⟩ => do
    collectOption start
    collectOption stop
  | ⟨.fold zero increment post, _⟩ => do
    zero.collect
    increment.collect
    post.collect
def collectAll : List Expr → StateM Collector Unit
  | [] => return
  | e :: es => do
    e.collect
    collectAll es
def collectOption : Option Expr → StateM Collector Unit
  | none => return
  | some e => e.collect
def collectRows : List (Expr × Int) → StateM Collector Unit
  | [] => return
  | (e, _) :: rows => do
    e.collect
    collectRows rows
def collectArms : List (Pattern × Expr) → StateM Collector Unit
  | [] => return
  | (p, e) :: arms => do
    let before ← mark
    extend p.bindings
    e.collect
    truncate before
    collectArms arms
/-- What a block binds stays on the stack until the end of the block. -/
def collectBlock : Block → StateM Collector Unit
  | .done result => collectOption result
  | .bind name _ _ init rest => do
    collectOption init
    extend [name]
    collectBlock rest
  | .exec e rest => do
    e.collect
    collectBlock rest
end

/-- The free variables of an expression. -/
def freeVariables (e : Expr) : List String := (e.collect.run ⟨[], []⟩).2.found

end Expr
end ViewCircuit
