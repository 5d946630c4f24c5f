import ViewCircuit.Expr

/-! Changing an expression from the leaves up, keeping every part that no rule touched. -/
namespace ViewCircuit

mutual
/-- A NaN in a pattern differs from itself, so a pattern with one never counts as kept. -/
def Pattern.hasNaN : Pattern → Bool
  | .literal (.float x) => x.isNaN
  | .tuple items => Pattern.anyNaN items
  | .some inner => inner.hasNaN
  | _ => false
def Pattern.anyNaN : List Pattern → Bool
  | [] => false
  | p :: ps => p.hasNaN || Pattern.anyNaN ps
end

/-- What rules made of a part: its new value, whether it is a new node, and how many rules
were applied. -/
structure Reduct (α : Type) where
  value : α
  changed : Bool
  fired : Nat

namespace Reduct

variable {α β γ δ : Type}

def kept (a : α) : Reduct α := ⟨a, false, 0⟩

def map (f : α → β) (r : Reduct α) : Reduct β := ⟨f r.value, r.changed, r.fired⟩

def map₂ (f : α → β → γ) (r : Reduct α) (s : Reduct β) : Reduct γ :=
  ⟨f r.value s.value, r.changed || s.changed, r.fired + s.fired⟩

def map₃ (f : α → β → γ → δ) (r : Reduct α) (s : Reduct β) (t : Reduct γ) : Reduct δ :=
  ⟨f r.value s.value t.value, r.changed || s.changed || t.changed, r.fired + s.fired + t.fired⟩

/-- A node with a new form when a part changed, the node itself otherwise. The type stays. -/
def rebuild (e : Expr) (r : Reduct Form) : Reduct Expr :=
  if r.changed then ⟨⟨r.value, e.ty⟩, true, r.fired⟩ else ⟨e, false, r.fired⟩

/-- Applies a rule at a node whose parts are done. -/
def settle (rule : Expr → Option Expr) (r : Reduct Expr) : Reduct Expr :=
  match rule r.value with
  | some e => ⟨e, true, r.fired + 1⟩
  | none => r

@[simp] theorem ty_rebuild (e : Expr) (r : Reduct Form) : (rebuild e r).value.ty = e.ty := by
  unfold rebuild; split <;> rfl

end Reduct

namespace Expr

open Reduct

mutual
/-- Changes the parts, then the node. -/
def bottomUp (rule : Expr → Option Expr) : Expr → Reduct Expr
  | ⟨form, ty⟩ => settle rule (rebuild ⟨form, ty⟩ (bottomUpForm rule form))

def bottomUpForm (rule : Expr → Option Expr) : Form → Reduct Form
  | .literal (.zset rows) => (bottomUpRows rule rows).map fun rows => .literal (.zset rows)
  | .literal (.vec items) => (bottomUpAll rule items).map fun items => .literal (.vec items)
  | .literal value => kept (.literal value)
  | .var name => kept (.var name)
  | .field base index => (bottomUp rule base).map fun b => .field b index
  | .unary op operand => (bottomUp rule operand).map (.unary op)
  | .binary op left right => map₂ (.binary op) (bottomUp rule left) (bottomUp rule right)
  | .apply function args => map₂ .apply (bottomUp rule function) (bottomUpAll rule args)
  | .call function args => (bottomUpAll rule args).map (.call function)
  | .closure params body => (bottomUp rule body).map (.closure params)
  | .tuple fields => (bottomUpAll rule fields).map .tuple
  | .rawTuple fields => (bottomUpAll rule fields).map .rawTuple
  | .struct name fields => (bottomUpAll rule fields).map (.struct name)
  | .block body => (bottomUpBlock rule body).map .block
  | .ite condition yes no =>
    map₃ .ite (bottomUp rule condition) (bottomUp rule yes) (bottomUp rule no)
  | .cases scrutinee arms => map₂ .cases (bottomUp rule scrutinee) (bottomUpArms rule arms)
  | .cast operand => (bottomUp rule operand).map .cast
  | .isNull operand => (bottomUp rule operand).map .isNull
  | .borrow operand => (bottomUp rule operand).map .borrow
  | .deref operand => (bottomUp rule operand).map .deref
  | .range start stop inclusive =>
    map₂ (fun s e => .range s e inclusive) (bottomUpOption rule start) (bottomUpOption rule stop)
  | .some operand => (bottomUp rule operand).map .some
  | .fold zero increment post =>
    map₃ .fold (bottomUp rule zero) (bottomUp rule increment) (bottomUp rule post)

def bottomUpAll (rule : Expr → Option Expr) : List Expr → Reduct (List Expr)
  | [] => kept []
  | e :: es => map₂ List.cons (bottomUp rule e) (bottomUpAll rule es)

def bottomUpOption (rule : Expr → Option Expr) : Option Expr → Reduct (Option Expr)
  | none => kept none
  | some e => (bottomUp rule e).map some

def bottomUpRows (rule : Expr → Option Expr) : List (Expr × Int) → Reduct (List (Expr × Int))
  | [] => kept []
  | (e, w) :: rows => map₂ (fun e rows => (e, w) :: rows) (bottomUp rule e) (bottomUpRows rule rows)

def bottomUpArms (rule : Expr → Option Expr) :
    List (Pattern × Expr) → Reduct (List (Pattern × Expr))
  | [] => kept []
  | (p, e) :: arms =>
    let arm : Reduct (Pattern × Expr) := (bottomUp rule e).map fun e => (p, e)
    map₂ List.cons { arm with changed := arm.changed || p.hasNaN } (bottomUpArms rule arms)

def bottomUpBlock (rule : Expr → Option Expr) : Block → Reduct Block
  | .done result => (bottomUpOption rule result).map .done
  | .bind name ty mutable init rest =>
    map₂ (.bind name ty mutable) (bottomUpOption rule init) (bottomUpBlock rule rest)
  | .exec e rest => map₂ .exec (bottomUp rule e) (bottomUpBlock rule rest)
end

/-- Replaces variable occurrences, bound or free; binders are left alone. -/
def replaceVars (f : String → Ty → Option Expr) (e : Expr) : Reduct Expr :=
  e.bottomUp fun e =>
    match e.form with
    | .var name => f name e.ty
    | _ => none

end Expr
end ViewCircuit
