import ViewCircuit.Proofs.Complete
import ViewCircuit.Proofs.Idempotent
import ViewCircuit.Proofs.Nonnegative

/-! Moving distincts reaches a fixpoint in one run. Everything that a visit emits rests when all
that was emitted before does, and copied sinks rest, so nothing can be moved in the new circuit and
a second run keeps every operator. -/
namespace ViewCircuit

namespace Operator

/-- All that the operator reads are distincts. -/
def ReadsDistincts (op : Operator) : Prop := ∀ i ∈ op.inputs, i.kind = .distinct

theorem rests_of_isSink {op : Operator} (h : op.kind.isSink) : op.Rests := by
  unfold Rests
  cases hk : op.kind <;> first | trivial | (rw [hk] at h; cases h)

/-- When no inputs can be taken from below distincts, an operator that reads something reads more
than distincts. -/
theorem not_readsDistincts {op : Operator} (hop : op.Checked) (hpull : op.kind.isSource = false)
    (hconstant : op.kind.isConstant = false) (hinputs : ∀ i ∈ op.inputs, i.Checked)
    (h : inputsUnder? (·.isDistinct) op.inputs = none) : ¬ op.ReadsDistincts := by
  intro hall
  have hne : op.inputs ≠ [] := by simpa using hop.inputs_ne_nil hpull hconstant
  have hsome : (inputsUnder? (·.isDistinct) op.inputs).isSome := by
    refine inputsUnder?_isSome hne fun i hi => ?_
    have hkind := hall i hi
    obtain ⟨j, hj, -⟩ := OperatorKind.Typed.keeps_inputs (hinputs i hi) (by rw [hkind]; rfl)
    exact ⟨isDistinct_iff.2 hkind, j, hj⟩
  rw [h] at hsome
  cases hsome

variable {op i : Operator} (hop : op.Checked) (hinputs : ∀ i ∈ op.inputs, i.Checked)
  (hrests : op.Rests)

include hop hinputs hrests

theorem Rests.join {f : Expr} (hkind : op.kind = .join f) : ¬ op.ReadsDistincts := by
  unfold Rests at hrests
  rw [hkind] at hrests
  exact not_readsDistincts hop (by rw [hkind]; rfl) (by rw [hkind]; rfl) hinputs hrests

theorem Rests.filter {p : Expr} (hkind : op.kind = .filter p) (hi : i ∈ op.inputs) :
    i.kind ≠ .distinct := by
  unfold Rests at hrests
  rw [hkind] at hrests
  have hmore := not_readsDistincts hop (by rw [hkind]; rfl) (by rw [hkind]; rfl) hinputs hrests
  rw [Checked, hkind] at hop
  obtain ⟨j, hj⟩ := hop.filter_inputs
  rw [hj, List.mem_singleton] at hi
  rw [ReadsDistincts, hj, List.forall_mem_singleton] at hmore
  exact hi ▸ hmore

omit hop hinputs in
theorem Rests.distinct (hkind : op.kind = .distinct) (hi : i ∈ op.inputs)
    (hchecked : i.Checked) (hinputs : ∀ j ∈ i.inputs, j.Checked) :
    i.kind ≠ .distinct ∧ (DistinctElision.isPullable i.kind → ¬ i.ReadsDistincts) := by
  unfold Rests at hrests
  rw [hkind] at hrests
  obtain ⟨hdistinct, hnone⟩ := hrests i hi
  refine ⟨fun h => by simp [h, OperatorKind.isDistinct] at hdistinct, fun hpull => ?_⟩
  refine not_readsDistincts hchecked ?_ ?_ hinputs (hnone hpull) <;>
    cases hk : i.kind <;> rw [hk] at hpull <;> first | rfl | cases hpull

end Operator

namespace Circuit

variable {c : Circuit} {ctx : Context}

/-- One run leaves an assembled circuit with nothing to move. -/
theorem Assembled.ends_elideDistincts_rests (hc : c.Assembled ctx) :
    Compile.Ends c.elideDistincts ctx fun c' ctx' =>
      c'.Assembled ctx' ∧ ∀ op ∈ c'.operators, op.Rests := by
  have hsinkless := hc.wellFormed_sinkless
  have hbase : Compile.Ends (c.sinkless.operators.foldlM DistinctElision.visit (.start c)) ctx
      fun r ctx' => Rebuild.Sound c.sinkless ctx (fun _ _ => True) c.sinkless.operators
        c.sinkless.operators r ctx' ∧ ∀ op ∈ r.result.operators, op.Rests := by
    refine Compile.Ends.foldlM (fun done r ctx' =>
      Rebuild.Sound c.sinkless ctx (fun _ _ => True) done done r ctx' ∧
        ∀ op ∈ r.result.operators, op.Rests) _ (fun done op rest r ctx' hsplit h => ?_)
      ⟨Rebuild.sound_start hsinkless, by simp [Rebuild.start, empty, operators]⟩
    have hends := DistinctElision.ends_visit hsinkless hsplit h.1 fun _ _ => trivial
    have hvisits := DistinctElision.yields_visit h.1 hsinkless hsplit
    refine (hends.and hvisits).mono fun r' ctx'' h' => ?_
    obtain ⟨hsound, emitted, new, hvisited, rfl⟩ := h'
    refine ⟨hsound, fun x hx => (Rebuild.mem_turn.1 hx).elim ?_ (h.2 x)⟩
    exact hvisited.rests h.1 hsinkless hsplit h.2 x
  have hcopied := hc.ends_sinks (fun _ _ => True) hbase
    (fun r op hop => DistinctElision.visit_of_isSink hop r) (fun _ _ h => h)
    fun _ _ _ _ _ => trivial
  unfold elideDistincts rebuild
  rw [Compile.ends_bind]
  refine hcopied.mono fun r ctx' hr => ?_
  obtain ⟨base, hbase, h⟩ := hr
  have hrests : ∀ op ∈ r.result.operators, op.Rests := fun op hop =>
    (h.added op hop).elim (hbase op) Operator.rests_of_isSink
  rw [Compile.ends_pure]
  split
  · rename_i hsame
    have hops : r.result.operators = c.operators := Operator.eq_of_allSame h.nodes
      (fun a ha => List.mem_append_right _ ha) (fun a ha => List.mem_append_left _ ha) hsame
    exact ⟨hc.mono h.later, hops ▸ hrests⟩
  · exact ⟨h.assembled, hrests⟩

/-- On an assembled circuit, moving distincts succeeds. In its result no distinct reads a distinct,
or a map, filter, join or sum that reads distincts only; no filter reads a distinct, and no join
reads two. A second run gives the same circuit, in any context. -/
theorem Assembled.elideDistincts_settles (hc : c.Assembled ctx) :
    Compile.Ends c.elideDistincts ctx fun c' _ =>
      (∀ op ∈ c'.operators, op.kind = .distinct → ∀ i ∈ op.inputs,
        i.kind ≠ .distinct ∧ (DistinctElision.isPullable i.kind → ¬ i.ReadsDistincts)) ∧
      (∀ op ∈ c'.operators, ∀ p, op.kind = .filter p → ∀ i ∈ op.inputs, i.kind ≠ .distinct) ∧
      (∀ op ∈ c'.operators, ∀ f, op.kind = .join f → ¬ op.ReadsDistincts) ∧
      ∀ ctx'', c'.elideDistincts ctx'' = (.ok c', ctx'') := by
  refine hc.ends_elideDistincts_rests.mono fun c' ctx' h => ?_
  obtain ⟨hc', hrests⟩ := h
  have hmem : ∀ op ∈ c'.operators, ∀ i ∈ op.inputs, i ∈ c'.operators :=
    fun op hop i hi => hc'.earlier.mem hop hi
  have hinputs : ∀ op ∈ c'.operators, ∀ i ∈ op.inputs, i.Checked :=
    fun op hop i hi => hc'.checked i (hmem op hop i hi)
  refine ⟨fun op hop hkind i hi => ?_, fun op hop p hkind i hi => ?_, fun op hop f hkind => ?_,
    hc'.elideDistincts_self hrests⟩
  · exact (hrests op hop).distinct hkind hi (hinputs op hop i hi)
      (hinputs i (hmem op hop i hi))
  · exact (hrests op hop).filter (hc'.checked op hop) (hinputs op hop) hkind hi
  · exact (hrests op hop).join (hc'.checked op hop) (hinputs op hop) hkind

namespace Purchases

/-- The join of two distincts becomes a distinct of a join, below a view and a view of that view,
and then nothing is left to move. -/
theorem elide_settles : circuit.Assembled (drawn 6) ∧
    Compile.Ends circuit.elideDistincts (drawn 6) fun c' _ =>
      c'.sinks = [mergedView, mergedCopied] ∧
      ∀ ctx, c'.elideDistincts ctx = (.ok c', ctx) := by
  refine ⟨assembled, ?_⟩
  have hsinks := (Compile.ends_of_map elide_circuit).yields
  refine (assembled.elideDistincts_settles.and hsinks).mono fun c' _ h => ?_
  exact ⟨h.2, h.1.2.2.2⟩

end Purchases

end Circuit
end ViewCircuit
