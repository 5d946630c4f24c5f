import ViewCircuit.Proofs.Rebuild
import ViewCircuit.Proofs.Stream

/-! Running a circuit step by step, with a value for every stream and a memory for every operator
that has one. On an ordered circuit every operator puts out the stream that it denotes. -/
namespace ViewCircuit

open scoped Classical

noncomputable section

/-- What operators hold between two steps, by stream: nothing, a collection, or one for each input
of a join. -/
abbrev Memory := String → ZSet × ZSet

/-- What an operator puts out in one step, and what it holds after it. -/
def OperatorKind.step (M : Meaning) (tables : Tables) (kind : OperatorKind) (held : ZSet × ZSet)
    (inputs : List ZSet) : ZSet × (ZSet × ZSet) :=
  match kind, inputs with
  | .integrate, [x] => (held.1 + x, held.1 + x, 0)
  | .differentiate, [x] => (x - held.1, x, 0)
  | .incrementalDistinct, [x] => (x.distinct - held.1.distinct, x, 0)
  | .incrementalAggregate f, [x] =>
    let rows := OperatorKind.contents M tables (.aggregate f)
    (rows [x] - rows [held.1], x, 0)
  | .incrementalJoin f, [x, y] =>
    let rows := ZSet.join (M.pair f)
    (rows (held.1 + x) (held.2 + y) - rows held.1 held.2, held.1 + x, held.2 + y)
  | kind, xs => (kind.contents M tables xs, held)

/-- A step under way: what the streams of the operators so far hold, and the memory. -/
structure Progress where
  values : String → ZSet
  memory : Memory

/-- An operator takes its turn, on what the streams that it reads hold. -/
def Progress.turn (M : Meaning) (tables : Tables) (s : Progress) (op : Operator) : Progress :=
  let out := op.kind.step M tables (s.memory op.name) (op.inputs.map fun i => s.values i.name)
  ⟨Function.update s.values op.name out.1, Function.update s.memory op.name out.2⟩

namespace Circuit

/-- Every operator takes its turn, in the order of the circuit. -/
def step (M : Meaning) (tables : Tables) (c : Circuit) (memory : Memory) : Progress :=
  c.operators.foldl (Progress.turn M tables) ⟨fun _ => 0, memory⟩

/-- What is held before a step, from a start with nothing. -/
def memory (M : Meaning) (batches : ℕ → Tables) (c : Circuit) : ℕ → Memory
  | 0 => fun _ => (0, 0)
  | n + 1 => (c.step M (batches n) (c.memory M batches n)).memory

/-- What every sink puts out in a step of a run, with its view. -/
def outputs (M : Meaning) (batches : ℕ → Tables) (c : Circuit) (n : ℕ) :
    List (OperatorKind × ZSet) :=
  c.sinks.map fun op => (op.kind, (c.step M (batches n) (c.memory M batches n)).values op.name)

end Circuit

/-- What came in the step before. -/
def delay (x : Stream) : Stream
  | 0 => 0
  | n + 1 => x n

/-- What an operator holds before a step, when its inputs are streams. -/
def OperatorKind.held (kind : OperatorKind) (inputs : List Stream) (n : ℕ) : ZSet × ZSet :=
  match kind, inputs with
  | .integrate, [x] => (delay (integral x) n, 0)
  | .differentiate, [x] | .incrementalDistinct, [x] | .incrementalAggregate _, [x] =>
    (delay x n, 0)
  | .incrementalJoin _, [x, y] => (delay (integral x) n, delay (integral y) n)
  | _, _ => (0, 0)

end

section Streams

variable (x y : Stream) (n : ℕ)

@[simp] theorem delay_succ : delay x (n + 1) = x n := rfl

theorem change_eq_delay : change x n = x n - delay x n := by
  cases n <;> simp [change, delay]

theorem integral_eq_delay : delay (integral x) n + x n = integral x n := by
  cases n with
  | zero => simp [integral, delay]
  | succ n => exact (Finset.sum_range_succ _ _).symm

theorem delay_map (f : ZSet → ZSet) (h : f 0 = 0) : delay (fun n => f (x n)) n = f (delay x n) := by
  cases n with
  | zero => exact h.symm
  | succ n => rfl

theorem delay_map₂ (f : ZSet → ZSet → ZSet) (h : f 0 0 = 0) :
    delay (fun n => f (x n) (y n)) n = f (delay x n) (delay y n) := by
  cases n with
  | zero => exact h.symm
  | succ n => rfl

end Streams

variable {M : Meaning} {batches : ℕ → Tables}

/-- One step of an operator that holds what it should gives the element of its stream, and leaves
what it should hold next. -/
theorem OperatorKind.step_eq (kind : OperatorKind) (xs : List Stream) (n : ℕ) :
    kind.step M (batches n) (kind.held xs n) (xs.map fun x => x n) =
      (kind.stream M batches xs n, kind.held xs (n + 1)) := by
  rcases xs with _ | ⟨x, _ | ⟨y, _ | ⟨z, xs⟩⟩⟩
  case nil => cases kind <;> rfl
  case cons.cons.cons => cases kind <;> rfl
  case cons.nil =>
    cases kind with
    | integrate => simp [step, held, OperatorKind.stream, integral_eq_delay]
    | differentiate => simp [step, held, OperatorKind.stream, change_eq_delay]
    | incrementalDistinct =>
      have hrows := delay_map x n ZSet.distinct ZSet.distinct_zero
      simp [step, held, OperatorKind.stream, change_eq_delay, hrows]
    | incrementalAggregate f =>
      have hrows := delay_map x n (fun x => x.perKey fun k => M.fold f (x.group k))
        (by simp [ZSet.perKey, ZSet.keys])
      simp [step, held, OperatorKind.stream, OperatorKind.contents, change_eq_delay, hrows]
    | _ => rfl
  case cons.cons.nil =>
    cases kind with
    | incrementalJoin f =>
      have hrows := delay_map₂ (integral x) (integral y) n (ZSet.join (M.pair f))
        (by simp [ZSet.join])
      simp [step, held, OperatorKind.stream, change_eq_delay, hrows, integral_eq_delay]
    | _ => rfl

namespace Circuit

variable {c : Circuit}

/-- The turns of the operators so far gave them the elements of their streams. -/
structure Stepping (M : Meaning) (batches : ℕ → Tables) (n : ℕ) (done rest : List Operator)
    (s : Progress) : Prop where
  values : ∀ op ∈ done, s.values op.name = op.stream M batches n
  next : ∀ op ∈ done, s.memory op.name = op.kind.held (op.inputs.map (Operator.stream M batches))
    (n + 1)
  held : ∀ op ∈ rest, s.memory op.name = op.kind.held (op.inputs.map (Operator.stream M batches)) n

theorem Stepping.turn {n : ℕ} {done rest : List Operator} {op : Operator} {s : Progress}
    (h : Stepping M batches n done (op :: rest) s)
    (hnames : ((done ++ op :: rest).map Operator.name).Nodup) (hin : ∀ i ∈ op.inputs, i ∈ done) :
    Stepping M batches n (done ++ [op]) rest (s.turn M (batches n) op) := by
  have hdone : ∀ x ∈ done, x.name ≠ op.name := Operator.name_ne_of_split hnames rfl
  have hrest : ∀ x ∈ rest, x.name ≠ op.name := by
    rw [List.map_append, List.map_cons, List.nodup_middle, List.nodup_cons] at hnames
    intro x hx hname
    exact hnames.1 (hname ▸ List.mem_append_right _ (List.mem_map_of_mem hx))
  have hinputs : (op.inputs.map fun i => s.values i.name) =
      (op.inputs.map (Operator.stream M batches)).map fun x => x n := by
    rw [List.map_map]
    exact List.map_congr_left fun i hi => h.values i (hin i hi)
  have hout : op.kind.step M (batches n) (s.memory op.name)
      (op.inputs.map fun i => s.values i.name) = (op.stream M batches n,
        op.kind.held (op.inputs.map (Operator.stream M batches)) (n + 1)) := by
    rw [h.held op List.mem_cons_self, hinputs, OperatorKind.step_eq, Operator.stream_eq]
  unfold Progress.turn
  rw [hout]
  constructor
  case values =>
    rw [List.forall_mem_append, List.forall_mem_singleton]
    exact ⟨fun x hx => by simp [hdone x hx, h.values x hx], by simp⟩
  case next =>
    rw [List.forall_mem_append, List.forall_mem_singleton]
    exact ⟨fun x hx => by simp [hdone x hx, h.next x hx], by simp⟩
  case held =>
    exact fun x hx => by simp [hrest x hx, h.held x (List.mem_cons_of_mem _ hx)]

variable (hc : c.Ordered)

include hc

/-- A step of a circuit whose operators hold what they should. -/
theorem Ordered.stepping {n : ℕ} {memory : Memory} (h : ∀ op ∈ c.operators,
      memory op.name = op.kind.held (op.inputs.map (Operator.stream M batches)) n) :
    Stepping M batches n c.operators [] (c.step M (batches n) memory) := by
  suffices hrun : ∀ (done rest : List Operator) (s : Progress), c.operators = done ++ rest →
      Stepping M batches n done rest s →
      Stepping M batches n c.operators [] (rest.foldl (Progress.turn M (batches n)) s) from
    hrun [] c.operators _ rfl ⟨by simp, by simp, h⟩
  intro done rest
  induction rest generalizing done with
  | nil =>
    intro s hsplit h
    rw [List.append_nil] at hsplit
    rwa [hsplit]
  | cons op rest ih =>
    intro s hsplit h
    exact ih (done ++ [op]) _ (by simp [hsplit])
      (h.turn (hsplit ▸ hc.names) (hc.earlier done op rest hsplit))

/-- Before every step of a run the operators hold what they should. -/
theorem Ordered.memory_eq (n : ℕ) : ∀ op ∈ c.operators, c.memory M batches n op.name =
    op.kind.held (op.inputs.map (Operator.stream M batches)) n := by
  induction n with
  | zero =>
    intro op _
    rw [memory]
    generalize op.inputs.map (Operator.stream M batches) = xs
    rcases xs with _ | ⟨x, _ | ⟨y, _ | ⟨z, xs⟩⟩⟩ <;> cases op.kind <;> rfl
  | succ n ih => exact (hc.stepping ih).next

/-- In every step of a run of any length, the sinks put out the elements of their streams. -/
theorem Ordered.outputs_eq (n : ℕ) :
    c.outputs M batches n = c.sinks.map fun op => (op.kind, op.stream M batches n) := by
  refine List.map_congr_left fun op hop => ?_
  rw [(hc.stepping (hc.memory_eq n)).values op (by simp [operators, hop])]

end Circuit

end ViewCircuit
