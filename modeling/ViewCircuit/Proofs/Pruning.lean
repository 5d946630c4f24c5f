import Mathlib
import ViewCircuit.Proofs.Liveness
import ViewCircuit.Proofs.Run

/-! Removing what is not live, as a whole: the walk with a work list ends, just the live operators
are left, every run puts out what it did, and a second time nothing is removed. -/
namespace ViewCircuit

/-- A walk under way with a list of pending operators, the one put there last in front. -/
structure Sweep where
  pending : List Operator
  reached : List String

namespace Sweep

/-- Takes an operator off the list, and puts its inputs there when it was not reached before. -/
def next? : Sweep → Option Sweep
  | ⟨[], _⟩ => none
  | ⟨op :: pending, reached⟩ =>
    if reached.contains op.name then some ⟨pending, reached⟩
    else some ⟨op.inputs.reverse ++ pending, op.name :: reached⟩

/-- After finitely many steps nothing is pending, and these streams were reached. -/
inductive Ends : Sweep → List String → Prop
  | stop {s : Sweep} : s.next? = none → Ends s s.reached
  | step {s s' : Sweep} {reached : List String} : s.next? = some s' → Ends s' reached →
      Ends s reached

mutual
/-- A pending operator is dealt with, and all below it, before those that were pending already. -/
theorem ends_reach : ∀ (op : Operator) (pending : List Operator) {reached out : List String},
    Ends ⟨pending, op.reach reached⟩ out → Ends ⟨op :: pending, reached⟩ out
  | ⟨id, name, kind, inputs, ty, m⟩, pending, reached, out, h => by
    rw [Operator.reach] at h
    split at h
    · rename_i hmem
      exact .step (by rw [next?, if_pos hmem]) h
    · rename_i hnew
      exact .step (by rw [next?, if_neg hnew]) (ends_reachAll inputs pending h)
theorem ends_reachAll : ∀ (ops pending : List Operator) {reached out : List String},
    Ends ⟨pending, Operator.reachAll ops reached⟩ out → Ends ⟨ops.reverse ++ pending, reached⟩ out
  | [], _, _, _, h => h
  | op :: ops, pending, reached, out, h => by
    rw [Operator.reachAll] at h
    rw [List.reverse_cons, List.append_assoc]
    exact ends_reachAll ops (op :: pending) (ends_reach op pending h)
end

end Sweep

namespace Circuit

open scoped Classical

variable {c : Circuit}

/-- In an ordered circuit, the walk below an operator ends, whatever was reached before, and finds
the streams that it records. The analysis lists the streams of the sources, the sinks and the
operators that feed a sink, each once. Removing the others never fails, keeps those operators as
they are, in their order, and what every sink puts out in a run of any length; a second time it
gives the same circuit back. -/
theorem Ordered.prune_exact (hc : c.Ordered) :
    (∀ (op : Operator) (reached : List String), Sweep.Ends ⟨[op], reached⟩ (op.reach reached)) ∧
      c.live.Nodup ∧
      (∀ stream, stream ∈ c.live ↔ ∃ op ∈ c.operators, op.name = stream ∧ c.Live op) ∧
      ∃ c' : Circuit, (∀ ctx, c.prune ctx = (.ok c', ctx)) ∧
        c'.operators = c.operators.filter (fun op => c.Live op) ∧
        c'.name = c.name ∧ c'.declarations = c.declarations ∧
        c'.sources = c.sources ∧ c'.sinks = c.sinks ∧
        (∀ M batches n, c'.outputs M batches n = c.outputs M batches n) ∧
        ∀ ctx, c'.prune ctx = (.ok c', ctx) := by
  have hcovered := hc.covered_live
  obtain ⟨hnodup, hsound⟩ := hc.live_sound
  have hrest : (c.restrict c.live).Ordered := hc.restrict hcovered
  refine ⟨fun op reached => Sweep.ends_reach op [] (.stop rfl), hnodup, fun stream => ?_,
    c.restrict c.live, hc.prune_eq, ?_, rfl, rfl, rfl, rfl, fun M batches n => ?_,
    hrest.prune_self hc.live_restrict⟩
  · constructor
    · exact hsound stream
    · rintro ⟨op, hop, rfl, hlive⟩
      exact (hc.mem_live_iff hop).2 hlive
  · rw [hcovered.operators_restrict hc.sectioned]
    refine List.filter_congr fun op hop => ?_
    rw [Bool.eq_iff_iff, List.contains_iff_mem, hc.mem_live_iff hop, decide_eq_true_iff]
  · rw [hrest.outputs_eq, hc.outputs_eq]
    rfl

namespace Shared

def table : Operator :=
  ⟨0, Names.nth "stream" 0, .source "T", [], Ty.zset (Ty.tuple [Ty.int32]), true⟩

/-- A table that no view needs. -/
def spare : Operator := ⟨1, Names.nth "stream" 1, .source "S", [], table.ty, true⟩

def once : Operator := ⟨2, Names.nth "stream" 2, .distinct, [table], table.ty, false⟩

/-- Reads the distinct rows twice. -/
def twice : Operator := ⟨3, Names.nth "stream" 3, .sum, [once, once], table.ty, true⟩

/-- Read by nothing. -/
def negated : Operator := ⟨4, Names.nth "stream" 4, .negate, [twice], table.ty, true⟩

def view : Operator := ⟨5, Names.nth "stream" 5, .sink "V", [twice], table.ty, true⟩

/-- A view of the other one. -/
def again : Operator := ⟨6, Names.nth "stream" 6, .sink "W", [view], table.ty, true⟩

def circuit : Circuit := ⟨"c", [], [table, spare], [once, twice, negated], [view, again]⟩

theorem ordered : circuit.Ordered where
  sectioned := ⟨by simp [circuit, table, spare, OperatorKind.isSource],
    by simp [circuit, once, twice, negated, OperatorKind.isSource, OperatorKind.isSink],
    by simp [circuit, view, again, OperatorKind.isSink]⟩
  names := by decide +kernel
  earlier :=
    ((((((Operator.readsEarlier_nil.concat table (by simp [table])).concat spare
      (by simp [spare])).concat once (by simp [once])).concat twice (by simp [twice])).concat
      negated (by simp [negated])).concat view (by simp [view])).concat again (by simp [again])

/-- The circuit without the operator that nothing reads. -/
def remaining : Circuit := ⟨"c", [], [table, spare], [once, twice], [view, again]⟩

/-- The operator that nothing reads is removed; the table that no view needs stays. -/
theorem prune_circuit : circuit.prune .empty = (.ok remaining, .empty) ∧
    (∀ M batches n, remaining.outputs M batches n = circuit.outputs M batches n) ∧
    ∀ ctx, remaining.prune ctx = (.ok remaining, ctx) := by
  obtain ⟨-, -, -, c', hprune, -, -, -, -, -, houtputs, hagain⟩ := ordered.prune_exact
  have hrun : circuit.prune .empty = (.ok remaining, .empty) := by cbv
  obtain rfl : c' = remaining := by
    have h := (hprune .empty).symm.trans hrun
    cases h
    rfl
  exact ⟨hrun, houtputs, hagain⟩

end Shared

end Circuit
end ViewCircuit
