import ViewCircuit.Operator
import ViewCircuit.Proofs.ZSet

/-! What operators compute: over whole relations, and over streams of Z-sets step by step. -/
namespace ViewCircuit

open scoped Classical

/-- What the functions, folds, frames and constants of a circuit compute. -/
structure Meaning where
  row : Expr → Val → Val
  keep : Expr → Val → Prop
  /-- The row of a join, from the key and the two values. -/
  pair : Expr → Val → Val → Val → Val
  /-- A fold over the values of one key. -/
  fold : Expr → ZSet → Val
  /-- A fold over the rows of a collection in the frame around a key. -/
  frame : Expr → Expr → ZSet → Val → Val
  constant : Expr → ZSet

noncomputable section

/-- Relations by name. -/
abbrev Tables := String → ZSet

/-- One Z-set for each step. -/
abbrev Stream := ℕ → ZSet

/-- What an operator over whole relations makes of its inputs. -/
def OperatorKind.contents (M : Meaning) (tables : Tables) (kind : OperatorKind)
    (inputs : List ZSet) : ZSet :=
  match kind, inputs with
  | .source table, _ => tables table
  | .map f, [x] | .index f, [x] => x.mapRows (M.row f)
  | .filter f, [x] => x.keepRows (M.keep f)
  | .join f, [x, y] => ZSet.join (M.pair f) x y
  | .aggregate f, [x] => x.perKey fun k => M.fold f (x.group k)
  | .windowAggregate w f, [x] => x.perKey (M.frame w f x)
  | .distinct, [x] => x.distinct
  | .sum, xs => xs.sum
  | .subtract, [x, y] => x - y
  | .negate, [x] => -x
  | .constant e, _ => M.constant e
  | .noop, [x] | .sink _, [x] => x
  | _, _ => 0

/-- Running sum. -/
def integral (x : Stream) : Stream := fun n => ∑ i ∈ Finset.range (n + 1), x i

/-- Change since the step before; nothing comes before the first step. -/
def change (x : Stream) : Stream
  | 0 => x 0
  | n + 1 => x (n + 1) - x n

/-- What an operator makes of its inputs over time. Operators without memory treat every step
alone. -/
def OperatorKind.stream (M : Meaning) (batches : ℕ → Tables) (kind : OperatorKind)
    (inputs : List Stream) : Stream :=
  match kind, inputs with
  | .integrate, [x] => integral x
  | .differentiate, [x] => change x
  | .incrementalDistinct, [x] => change fun n => (x n).distinct
  | .incrementalAggregate f, [x] =>
    change fun n => OperatorKind.contents M (batches n) (.aggregate f) [x n]
  | .incrementalJoin f, [x, y] =>
    change fun n => ZSet.join (M.pair f) (integral x n) (integral y n)
  | kind, xs => fun n => kind.contents M (batches n) (xs.map fun x => x n)

namespace Operator

mutual
/-- The relation of an operator when the sources hold `tables`. -/
def contents (M : Meaning) (tables : Tables) : Operator → ZSet
  | ⟨_, _, kind, inputs, _, _⟩ => kind.contents M tables (contentsAll M tables inputs)
def contentsAll (M : Meaning) (tables : Tables) : List Operator → List ZSet
  | [] => []
  | op :: ops => contents M tables op :: contentsAll M tables ops
end

mutual
/-- The stream of an operator when the sources take in `batches`. -/
def stream (M : Meaning) (batches : ℕ → Tables) : Operator → Stream
  | ⟨_, _, kind, inputs, _, _⟩ => kind.stream M batches (streamAll M batches inputs)
def streamAll (M : Meaning) (batches : ℕ → Tables) : List Operator → List Stream
  | [] => []
  | op :: ops => stream M batches op :: streamAll M batches ops
end

end Operator

/-- The tables after a step: all batches so far, taken together. -/
def accumulated (batches : ℕ → Tables) (n : ℕ) : Tables := fun table =>
  integral (fun i => batches i table) n

end

variable {M : Meaning} {batches : ℕ → Tables}

namespace Operator

theorem contentsAll_eq (tables : Tables) (ops : List Operator) :
    contentsAll M tables ops = ops.map (contents M tables) := by
  induction ops with
  | nil => rfl
  | cons op ops ih => simp [contentsAll, ih]

theorem contents_eq (tables : Tables) (op : Operator) :
    op.contents M tables = op.kind.contents M tables (op.inputs.map (contents M tables)) := by
  cases op
  simp [contents, contentsAll_eq]

theorem streamAll_eq (ops : List Operator) :
    streamAll M batches ops = ops.map (stream M batches) := by
  induction ops with
  | nil => rfl
  | cons op ops ih => simp [streamAll, ih]

theorem stream_eq (op : Operator) :
    op.stream M batches = op.kind.stream M batches (op.inputs.map (stream M batches)) := by
  cases op
  simp [stream, streamAll_eq]

end Operator

@[simp] theorem integral_change (x : Stream) : integral (change x) = x := by
  funext n
  induction n with
  | zero => simp [integral, change]
  | succ n ih =>
    rw [integral, Finset.sum_range_succ, ← integral, ih]
    simp [change]

@[simp] theorem change_integral (x : Stream) : change (integral x) = x := by
  funext n
  cases n with
  | zero => simp [change, integral]
  | succ n =>
    simp only [change, integral]
    rw [Finset.sum_range_succ _ (n + 1)]
    exact add_sub_cancel_left _ _

/-- Additive operations commute with running sums. -/
theorem integral_map (f : ZSet →+ ZSet) (x : Stream) :
    (integral fun n => f (x n)) = fun n => f (integral x n) := by
  funext n
  simp [integral]

theorem integral_sum (xs : List Stream) :
    (integral fun n => (xs.map fun x => x n).sum) =
      fun n => ((xs.map integral).map fun x => x n).sum := by
  funext n
  induction xs with
  | nil => simp [integral]
  | cons x xs ih =>
    simp only [List.map_cons, List.sum_cons, ← ih]
    simp [integral, Finset.sum_add_distrib]

theorem integral_sub (x y : Stream) :
    (integral fun n => x n - y n) = fun n => integral x n - integral y n := by
  funext n
  simp [integral]

end ViewCircuit
