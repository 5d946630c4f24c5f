import ViewCircuit.Context
import ViewCircuit.Scope
import ViewCircuit.Expr.BottomUp
import ViewCircuit.Expr.Build
import ViewCircuit.Expr.Depth

/-! Inlining the applications of literal closures, without capturing variables of the arguments. -/
namespace ViewCircuit

structure Reducer where
  names : Names
  scopes : Scopes

abbrev Reduce (α : Type) := ExceptT CompileError (StateM Reducer) α

namespace Reduce

variable {α : Type}

def onScopes (f : Scopes → Except CompileError Scopes) : Reduce Unit := fun s =>
  match f s.scopes with
  | .ok scopes => (.ok (), { s with scopes })
  | .error e => (.error e, s)

/-- Runs a step and hands out how it ended. -/
def attempt (act : Reduce α) : Reduce (Except CompileError α) := fun s =>
  let (r, s) := act s
  (.ok r, s)

def ofExcept (r : Except CompileError α) : Reduce α := fun s => (r, s)

def openScope : Reduce Unit := onScopes fun s => .ok s.push

def closeScope : Reduce Unit := onScopes Scopes.pop

/-- Runs a step in a scope of its own, which is closed also when the step fails. -/
def inScope (act : Reduce α) : Reduce α := do
  openScope
  let r ← attempt act
  closeScope
  ofExcept r

/-- Runs a step with no scope open and brings the open ones back afterwards. -/
def unscoped (act : Reduce α) : Reduce α := do
  let outer := (← get).scopes
  onScopes fun _ => .ok .empty
  let r ← attempt act
  onScopes fun _ => .ok outer
  ofExcept r

/-- Draws names of a stem until one is not blocked; after one draw for each blocked name and one
more, some draw was not. -/
def freshOutside (stem : String) (blocked : List String) : Reduce String := fun s =>
  let start := s.names.issued stem
  let tries := (List.range (blocked.length + 1)).map fun i => start + i
  let n := (tries.find? fun i => !blocked.contains (Names.nth stem i)).getD (start + blocked.length)
  (.ok (Names.nth stem n), { s with names := s.names.setIssued stem (n + 1) })

/-- Binds a name in the innermost scope and tells what the binder is now called. It is renamed when
it would capture; the new name is outside `avoid`, the free variables of the binder's body. -/
def bindName (name : String) (avoid : List String) : Reduce String := do
  let scopes := (← get).scopes
  if scopes.wouldCapture name then
    let fresh ← freshOutside (name ++ "_") (avoid ++ scopes.taken)
    onScopes fun s => s.rename name fresh
    return fresh
  else
    onScopes fun s => s.tombstone name
    return name

def bindNames (names avoid : List String) : Reduce (List String) :=
  names.mapM fun name => bindName name avoid

open Reduct (map₂ map₃ kept rebuild)

/-- A variable under the open scopes. -/
def occurrence (e : Expr) (name : String) : Reduce (Reduct Expr) := do
  match (← get).scopes.lookup? name with
  | some (.replace r) => return ⟨r, true, 0⟩
  | some (.rename fresh) => return ⟨Expr.var fresh e.ty, true, 0⟩
  | some .shadow | none => return kept e

section Parts

variable (f : Expr → Reduce (Reduct Expr))

def all : List Expr → Reduce (Reduct (List Expr))
  | [] => return kept []
  | e :: es => return map₂ List.cons (← f e) (← all es)

def option : Option Expr → Reduce (Reduct (Option Expr))
  | none => return kept none
  | some e => return (← f e).map some

def rows : List (Expr × Int) → Reduce (Reduct (List (Expr × Int)))
  | [] => return kept []
  | (e, w) :: rest => return map₂ (fun e rest => (e, w) :: rest) (← f e) (← rows rest)

/-- The rest of a block; each name is bound after its initial value is done. -/
def block (avoid : List String) : Block → Reduce (Reduct Block)
  | .done result => return (← option f result).map .done
  | .bind name ty mutable init rest => do
    let init ← option f init
    let bound ← bindName name avoid
    let head : Reduct (Option Expr) := { init with changed := init.changed || bound != name }
    return map₂ (.bind bound ty mutable) head (← block avoid rest)
  | .exec e rest => return map₂ .exec (← f e) (← block avoid rest)

/-- One arm in a scope of its own. A name bound twice by the pattern follows its last binding. -/
def arm (p : Pattern) (body : Expr) : Reduce (Reduct (Pattern × Expr)) := inScope do
  let names := p.bindings
  let bound ← bindNames names body.freeVariables
  let renames := (names.zip bound).reverse.filter fun (old, new) => old != new
  let body ← f body
  let pattern := p.rename fun name => (renames.lookup name).getD name
  return { body.map fun e => (pattern, e) with
    changed := body.changed || !renames.isEmpty || p.hasNaN }

def arms : List (Pattern × Expr) → Reduce (Reduct (List (Pattern × Expr)))
  | [] => return kept []
  | (p, body) :: rest => return map₂ List.cons (← arm f p body) (← arms rest)

/-- A closure under the open scopes. Its scope is closed when the body fails, and left open by a
parameter that cannot be bound. -/
def closure (e : Expr) (params : List Param) (body : Expr) : Reduce (Reduct Expr) := do
  openScope
  let names := params.map Param.name
  let bound ← bindNames names body.freeVariables
  let outcome ← attempt (f body)
  closeScope
  let body ← ofExcept outcome
  let renamed := params.zipWith (fun p name => ⟨name, p.ty⟩) bound
  return rebuild e { body.map (.closure renamed) with changed := body.changed || bound != names }

def substituteAll (params : List Param) (args : List Expr) : Reduce Unit :=
  (params.zip args).forM fun (p, arg) => onScopes fun s => s.substitute p.name arg

/-- The body of a closure with its parameters bound to arguments that are done. The scope of the
parameters is closed when the body fails, and left open by an argument that cannot be
substituted. -/
def inline (params : List Param) (body : Expr) (args : List Expr) : Reduce (Reduct Expr) :=
  if params.length ≠ args.length then throw (.construction (.arity params.length args.length))
  else do
    openScope
    substituteAll params args
    let outcome ← attempt (f body)
    closeScope
    ofExcept outcome

/-- An application: arguments first. A literal closure is inlined in place; one that the function
only became is already closed over the open scopes, so it is inlined without them. -/
def application (e function : Expr) (args : List Expr) : Reduce (Reduct Expr) := do
  let args ← all f args
  let inlined (r : Reduct Expr) : Reduct Expr := ⟨r.value, true, r.fired + args.fired + 1⟩
  match function.closure? with
  | some (params, body) => return inlined (← inline f params body args.value)
  | none =>
    let function ← f function
    match function.value.closure? with
    | some (params, body) => return inlined (← unscoped (inline f params body args.value))
    | none => return rebuild e (map₂ .apply function args)

/-- One level: `f` does the parts. -/
def node (e : Expr) : Reduce (Reduct Expr) := do
  match e.form with
  | .var name => occurrence e name
  | .apply function args => application f e function args
  | .closure params body => closure f e params body
  | .block body => return rebuild e ((← inScope (block f e.freeVariables body)).map .block)
  | .cases scrutinee as => return rebuild e (map₂ .cases (← f scrutinee) (← arms f as))
  | .literal (.zset rs) => return rebuild e ((← rows f rs).map fun rs => .literal (.zset rs))
  | .literal (.vec items) => return rebuild e ((← all f items).map fun is => .literal (.vec is))
  | .literal _ => return kept e
  | .field base index => return rebuild e ((← f base).map fun b => .field b index)
  | .unary op operand => return rebuild e ((← f operand).map (.unary op))
  | .binary op left right => return rebuild e (map₂ (.binary op) (← f left) (← f right))
  | .call function args => return rebuild e ((← all f args).map (.call function))
  | .tuple fields => return rebuild e ((← all f fields).map .tuple)
  | .rawTuple fields => return rebuild e ((← all f fields).map .rawTuple)
  | .struct name fields => return rebuild e ((← all f fields).map (.struct name))
  | .ite condition yes no => return rebuild e (map₃ .ite (← f condition) (← f yes) (← f no))
  | .cast operand => return rebuild e ((← f operand).map .cast)
  | .isNull operand => return rebuild e ((← f operand).map .isNull)
  | .borrow operand => return rebuild e ((← f operand).map .borrow)
  | .deref operand => return rebuild e ((← f operand).map .deref)
  | .range start stop inclusive =>
    return rebuild e
      (map₂ (fun s e => .range s e inclusive) (← option f start) (← option f stop))
  | .some operand => return rebuild e ((← f operand).map .some)
  | .fold zero increment post => return rebuild e (map₃ .fold (← f zero) (← f increment) (← f post))

end Parts

/-- Reduces under the open scopes. Fuel bounds the nesting of calls, because inlining can go on
for ever on expressions that are not simply typed. -/
def expr : Nat → Expr → Reduce (Reduct Expr)
  | 0, _ => throw .exhausted
  | fuel + 1, e => node (expr fuel) e

/-- A whole reduction; every scope it opened must be closed again. -/
def whole (fuel : Nat) (e : Expr) : Reduce (Reduct Expr) := do
  let r ← expr fuel e
  ofExcept (← get).scopes.mustBeEmpty
  return r

end Reduce

/-- How deep calls may nest in a reduction. Its depth is enough for an expression in which only
literal closures are applied, since inlining one goes on in a part of the expression; the rest is
for functions that become closures on the way. -/
def reductionFuel (e : Expr) : Nat := e.depth + 4000

/-- Reduces in a compilation, drawing fresh names from its context. -/
def Expr.reduce (e : Expr) : Compile (Reduct Expr) := fun ctx =>
  let (r, s) := (Reduce.whole (reductionFuel e) e).run ⟨ctx.names, .empty⟩
  (r, { ctx with names := s.names })

end ViewCircuit
