import ViewCircuit.Proofs.Binding

/-! The stack of scopes against a record of all that was done to it. The record loses nothing while
a scope is open. A scope only keeps what each name was bound to last, spread over three collections
that exclude one another, and answers alike. -/
namespace ViewCircuit

open List (Forall₂)

/-- What can be done to a stack of scopes. -/
inductive ScopeOp where
  | push
  | pop
  | substitute (name : String) (replacement : Expr)
  | tombstone (name : String)
  | rename (name fresh : String)

namespace Scopes

def perform (Δ : Scopes) : ScopeOp → Except CompileError Scopes
  | .push => .ok Δ.push
  | .pop => Δ.pop
  | .substitute name replacement => Δ.substitute name replacement
  | .tombstone name => Δ.tombstone name
  | .rename name fresh => Δ.rename name fresh

/-- An operation that fails leaves the stack as it was. -/
def after (Δ : Scopes) (op : ScopeOp) : Scopes :=
  match Δ.perform op with
  | .ok next => next
  | .error _ => Δ

/-- The stack after a sequence of operations. -/
def run (ops : List ScopeOp) : Scopes := ops.foldl after empty

end Scopes

/-- All bindings that were made in a scope, the latest first. -/
abbrev ScopeLog := List (String × Binding)

/-- A binder of that name would catch a variable: one that is free in something that was substituted
in the scope, or one that stands for a binder of the scope since its last change. -/
def ScopeLog.Catches (log : ScopeLog) (n : String) : Prop :=
  (∃ y e, (y, Binding.replace e) ∈ log ∧ n ∈ e.free) ∨ ∃ y, log.lookup y = some (.rename n)

/-- Logs of the open scopes, innermost first, after one more operation. While no scope is open there
is nothing to close and nowhere to write. -/
def ScopeOp.record (logs : List ScopeLog) : ScopeOp → List ScopeLog
  | .push => [] :: logs
  | .pop => logs.tail
  | .substitute name replacement => logs.modifyHead ((name, .replace replacement) :: ·)
  | .tombstone name => logs.modifyHead ((name, .shadow) :: ·)
  | .rename name fresh => logs.modifyHead ((name, .rename fresh) :: ·)

/-- The logs of the scopes that a sequence of operations leaves open. -/
def openLogs (ops : List ScopeOp) : List ScopeLog := ops.foldl ScopeOp.record []

/-- The scope says of each name what the log says last, in one collection only, and knows what is
free in all that the log ever substituted. -/
structure Scope.Records (scope : Scope) (log : ScopeLog) : Prop where
  lookup : ∀ x, scope.binding? x = log.lookup x
  exclusive : scope.Exclusive
  free : ∀ n, n ∈ scope.free ↔ ∃ y e, (y, Binding.replace e) ∈ log ∧ n ∈ e.free

namespace Scope.Records

variable {scope : Scope} {log : ScopeLog} {name : String}

theorem empty : Records .empty [] := ⟨fun _ => rfl, exclusive_empty, by simp [Scope.empty]⟩

/-- A new binding takes the place of every earlier one of its name. -/
theorem bind (h : scope.Records log) (name : String) (b : Binding) :
    Records (scope.set name b) ((name, b) :: log) where
  lookup x := by
    rw [binding?_set, lookup_cons_eq, h.lookup]
  exclusive := h.exclusive.set name b
  free n := by
    rw [mem_free_set, h.free]
    constructor
    · rintro (⟨e, rfl, hn⟩ | ⟨y, e, hmem, hn⟩)
      · exact ⟨name, e, List.mem_cons_self, hn⟩
      · exact ⟨y, e, List.mem_cons_of_mem _ hmem, hn⟩
    · rintro ⟨y, e, hmem, hn⟩
      rcases List.mem_cons.1 hmem with heq | hmem
      · exact .inl ⟨e, (Prod.mk.inj heq).2.symm, hn⟩
      · exact .inr ⟨y, e, hmem, hn⟩

/-- Replacements count for good, renamed binders until the name is bound anew. -/
theorem catches_iff (h : scope.Records log) {n : String} : scope.catches n ↔ log.Catches n := by
  rw [Scope.catches_iff, h.free, ScopeLog.Catches]
  refine or_congr Iff.rfl (exists_congr fun y => ?_)
  rw [← h.exclusive.binding?_eq_some, h.lookup]

end Scope.Records

section Run

variable {Δ : Scopes} {logs : List ScopeLog}

/-- Each scope keeps to its log through every operation. -/
theorem records_after (h : Forall₂ Scope.Records Δ.stack logs) (op : ScopeOp) :
    Forall₂ Scope.Records (Δ.after op).stack (op.record logs) := by
  obtain ⟨stack⟩ := Δ
  cases op with
  | push => exact .cons .empty h
  | pop =>
    cases h with
    | nil => exact .nil
    | cons _ hrest => exact hrest
  | substitute name replacement =>
    cases h with
    | nil => exact .nil
    | cons htop hrest => exact .cons (htop.bind name (.replace replacement)) hrest
  | tombstone name =>
    cases h with
    | nil => exact .nil
    | cons htop hrest => exact .cons (htop.bind name .shadow) hrest
  | rename name fresh =>
    cases h with
    | nil => exact .nil
    | cons htop hrest => exact .cons (htop.bind name (.rename fresh)) hrest

theorem records_run (ops : List ScopeOp) :
    Forall₂ Scope.Records (Scopes.run ops).stack (openLogs ops) := by
  have hfold : ∀ (Δ : Scopes) (logs : List ScopeLog), Forall₂ Scope.Records Δ.stack logs →
      Forall₂ Scope.Records (ops.foldl Scopes.after Δ).stack (ops.foldl ScopeOp.record logs) := by
    induction ops with
    | nil => exact fun _ _ h => h
    | cons op ops ih => exact fun Δ logs h => ih _ _ (records_after h op)
  exact hfold .empty [] .nil

theorem exclusive_of_records (h : Forall₂ Scope.Records Δ.stack logs) :
    ∀ scope ∈ Δ.stack, scope.Exclusive := by
  generalize Δ.stack = stack at h
  induction h with
  | nil => exact List.forall_mem_nil _
  | cons htop _ ih => exact List.forall_mem_cons.2 ⟨htop.exclusive, ih⟩

theorem lookup?_of_records (h : Forall₂ Scope.Records Δ.stack logs) (name : String) :
    Δ.lookup? name = logs.findSome? (List.lookup name) := by
  unfold Scopes.lookup?
  generalize Δ.stack = stack at h
  induction h with
  | nil => rfl
  | cons htop _ ih => rw [List.findSome?_cons, List.findSome?_cons, htop.lookup, ih]

theorem wouldCapture_of_records (h : Forall₂ Scope.Records Δ.stack logs) {n : String} :
    Δ.wouldCapture n ↔ ∃ log ∈ logs, log.Catches n := by
  unfold Scopes.wouldCapture
  generalize Δ.stack = stack at h
  induction h with
  | nil => simp
  | cons htop _ ih =>
    rw [List.any_cons, Bool.or_eq_true, ih, htop.catches_iff]
    exact (List.exists_mem_cons_iff (fun log : ScopeLog => log.Catches n) _ _).symm

end Run

/-- Through every sequence of operations, a name is answered by the last binding that the innermost
open scope with one made of it. A binder would capture a variable when its name is free in anything
that was substituted in an open scope, or is what some name of an open scope was last renamed to.
Both hold because the collections of a scope exclude one another: it has no two bindings of a
name. -/
theorem run_answers (ops : List ScopeOp) :
    (∀ name, (Scopes.run ops).lookup? name = (openLogs ops).findSome? (List.lookup name)) ∧
      (∀ n, (Scopes.run ops).wouldCapture n ↔ ∃ log ∈ openLogs ops,
        (∃ y e, (y, Binding.replace e) ∈ log ∧ n ∈ e.free) ∨
          ∃ y, log.lookup y = some (.rename n)) ∧
      ∀ scope ∈ (Scopes.run ops).stack, ∀ x b c, scope.Has x b → scope.Has x c → b = c :=
  ⟨lookup?_of_records (records_run ops), fun _ => wouldCapture_of_records (records_run ops),
    exclusive_of_records (records_run ops)⟩

/-- A replacement counts even after its name was bound anew. -/
example : (Scopes.run [.push, .substitute "x" (Expr.var "y" Ty.int32), .tombstone "x"]).wouldCapture
    "y" = true := by decide

end ViewCircuit
