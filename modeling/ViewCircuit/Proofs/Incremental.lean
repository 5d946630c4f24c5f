import ViewCircuit.Pass
import ViewCircuit.Proofs.Liveness
import ViewCircuit.Proofs.Stream

/-! Circuits over changes. Fed with batches of changes, the sinks of an incremental circuit put out
the changes of what the sinks of the whole-relation circuit hold on the tables so far. -/
namespace ViewCircuit

namespace OperatorKind

/-- Operators over whole relations, which keep no state. -/
def isWhole : OperatorKind → Bool
  | .integrate | .differentiate | .incrementalDistinct | .incrementalJoin _
  | .incrementalAggregate _ => false
  | _ => true

variable {M : Meaning} {batches : ℕ → Tables}

/-- Only sources read tables. -/
theorem contents_of_not_source {kind : OperatorKind} (h : kind.isSource = false)
    (tables tables' : Tables) (xs : List ZSet) :
    kind.contents M tables xs = kind.contents M tables' xs := by
  unfold contents
  split <;> simp_all [isSource]

theorem stream_of_isWhole {kind : OperatorKind} (h : kind.isWhole) (xs : List Stream) :
    kind.stream M batches xs = fun n => kind.contents M (batches n) (xs.map fun x => x n) := by
  unfold stream
  split <;> simp_all [isWhole]

/-- A linear operator over running sums gives the running sum of what it makes of the changes. -/
theorem stream_map_integral {kind : OperatorKind} (h : kind.isLinear) (xs : List Stream) :
    kind.stream M batches (xs.map integral) = integral (kind.stream M batches xs) := by
  have hwhole : kind.isWhole := by cases kind <;> simp_all [isLinear, isWhole]
  have hzero : (integral fun _ => (0 : ZSet)) = fun _ => 0 := by
    funext n
    simp [integral]
  rw [stream_of_isWhole hwhole, stream_of_isWhole hwhole]
  cases kind with
  | sum => exact (integral_sum xs).symm
  | map f | index f =>
    rcases xs with _ | ⟨x, _ | ⟨y, ys⟩⟩
    · exact hzero.symm
    · exact (integral_map (ZSet.mapRows (M.row f)) x).symm
    · exact hzero.symm
  | filter f =>
    rcases xs with _ | ⟨x, _ | ⟨y, ys⟩⟩
    · exact hzero.symm
    · exact (integral_map (ZSet.keepRows (M.keep f)) x).symm
    · exact hzero.symm
  | negate =>
    rcases xs with _ | ⟨x, _ | ⟨y, ys⟩⟩
    · exact hzero.symm
    · exact (integral_map (-AddMonoidHom.id ZSet) x).symm
    · exact hzero.symm
  | noop =>
    rcases xs with _ | ⟨x, _ | ⟨y, ys⟩⟩
    · exact hzero.symm
    · rfl
    · exact hzero.symm
  | subtract =>
    rcases xs with _ | ⟨x, _ | ⟨y, _ | ⟨z, zs⟩⟩⟩
    · exact hzero.symm
    · exact hzero.symm
    · exact (integral_sub x y).symm
    · exact hzero.symm
  | _ => cases h

end OperatorKind

variable {M : Meaning} {batches : ℕ → Tables} {c : Circuit} {ctx₀ ctx : Context}
  {done rest : List Operator} {r : Rebuild} {op : Operator}

section Boundary

/-- What a relation of the circuit holds after each step, or how it changes if it is put out. -/
noncomputable def boundary (M : Meaning) (batches : ℕ → Tables) (op : Operator) : Stream :=
  let whole : Stream := fun n => op.contents M (accumulated batches n)
  if op.kind.isSink then change whole else whole

/-- The operator computes at each step what another one holds on the tables so far. -/
def OverBatches (M : Meaning) (batches : ℕ → Tables) (op op' : Operator) : Prop :=
  op'.stream M batches = boundary M batches op

theorem boundary_of_not_sink (h : op.kind.isSink = false) :
    boundary M batches op = fun n => op.contents M (accumulated batches n) := by
  simp [boundary, h]

theorem boundary_of_sink (h : op.kind.isSink) :
    boundary M batches op = change fun n => op.contents M (accumulated batches n) := by
  simp [boundary, h]

open Rebuild

/-- Every input is differentiated. -/
theorem ends_differences (M : Meaning) (batches : ℕ → Tables) (inputs : List Operator)
    {Sem : Operator → Operator → Prop} {r : Rebuild} {ctx : Context}
    (h : Sound c ctx₀ Sem done done r ctx)
    (hin : ∀ i ∈ inputs, r.Readable i) :
    Compile.Ends (Boundary.differences r inputs) ctx fun out ctx' =>
      Sound c ctx₀ Sem done done out.1 ctx' ∧ (∀ i, r.Readable i → out.1.Readable i) ∧
      (∀ i ∈ out.2, out.1.Readable i) ∧
      List.Forall₂ (fun delta i => delta.ty = i.ty ∧
        delta.stream M batches = change (i.stream M batches)) out.2 inputs := by
  induction inputs generalizing r ctx with
  | nil =>
    rw [Boundary.differences, Compile.ends_pure]
    exact ⟨h, fun _ hi => hi, by simp, .nil⟩
  | cons input inputs ih =>
    have hread := hin input List.mem_cons_self
    have hcoll : input.ty.isCollection := (h.wellFormed.checked input hread.1).isCollection
    rw [Boundary.differences, Compile.ends_bind]
    refine (Operator.ends_unary hcoll).mono fun delta ctx₁ hmade => ?_
    have hnosink : delta.kind.isSink = false := by rw [hmade.kind]; rfl
    obtain ⟨hemit, hsound⟩ := h.emitNew hmade.toNew (hmade.checked (.keeps rfl hcoll))
      (by simpa [hmade.inputs] using hread) hnosink
    rw [Compile.ends_bind, Compile.ends_ofExcept, hemit]
    refine ⟨_, rfl, ?_⟩
    rw [Compile.ends_bind]
    refine (ih hsound fun i hi => (hin i (List.mem_cons_of_mem _ hi)).extend).mono ?_
    rintro ⟨r', deltas⟩ ctx₂ ⟨hsound', hkeep, hdeltas, hstreams⟩
    rw [Compile.ends_pure]
    refine ⟨hsound', fun i hi => hkeep i hi.extend, ?_, .cons ⟨hmade.ty, ?_⟩ hstreams⟩
    · intro i hi
      rcases List.mem_cons.1 hi with rfl | hi
      · exact hkeep _ (readable_extend_self hnosink)
      · exact hdeltas i hi
    · rw [Operator.stream_eq, hmade.kind, hmade.inputs]
      rfl

theorem ends_boundary_visit (hc : c.WellFormed ctx₀) (hwhole : ∀ op ∈ c.operators, op.kind.isWhole)
    (hsplit : c.operators = done ++ op :: rest)
    (h : Sound c ctx₀ (OverBatches M batches) done done r ctx) :
    Compile.Ends (Boundary.visit r op) ctx
      (Sound c ctx₀ (OverBatches M batches) (done ++ [op]) (done ++ [op])) := by
  have hop : op ∈ c.operators := by simp [hsplit]
  have hchecked := hc.checked op hop
  unfold Operator.Checked at hchecked
  unfold Boundary.visit
  split
  · rename_i table hkind
    rw [hkind] at hchecked
    have hnone : op.inputs = [] := List.map_eq_nil_iff.1 hchecked.source_inputs
    have hnosink : op.kind.isSink = false := by rw [hkind]; rfl
    obtain ⟨hemit, hsound⟩ := h.emitKept hc hsplit
      (⟨rfl, rfl, rfl, rfl, rfl, .inl ⟨rfl, rfl⟩⟩ : op.Rewired op.inputs ctx op ctx) rfl
      (by simp [hnone]) hnosink
    rw [Compile.ends_bind, Compile.ends_ofExcept, hemit]
    refine ⟨_, rfl, hsound.ends_keeping hc hsplit (fun _ hx => hx) rfl
      (readable_extend_self hnosink) rfl hnosink ?_⟩
    intro op' hkind' hinputs'
    have hsource : op.stream M batches = fun n => batches n table := by
      rw [Operator.stream_eq, hkind]
      rfl
    unfold OverBatches
    rw [Operator.stream_eq, hkind', hinputs', boundary_of_not_sink hnosink]
    funext n
    rw [Operator.contents_eq, hkind]
    simp [OperatorKind.stream, OperatorKind.contents, accumulated, hsource]
  · rename_i view hkind
    have hsink : op.kind.isSink := by rw [hkind]; rfl
    rw [hkind] at hchecked
    obtain ⟨i, hi⟩ := hchecked.sink_inputs
    have hnosink : i.kind.isSink = false := hc.readsNoSink op hop i (by simp [hi])
    have hmapped : r.mappedInputs op = [r.mapped i] := by simp [mappedInputs, hi]
    rw [Compile.ends_bind]
    refine (ends_differences M batches _ h (h.readable_mappedInputs hc hsplit)).mono ?_
    rintro ⟨r', deltas⟩ ctx₁ ⟨hsound, _, hdeltas, hstreams⟩
    rw [hmapped] at hstreams
    obtain ⟨delta, rfl, hty, hstream⟩ : ∃ delta, deltas = [delta] ∧ delta.ty = (r.mapped i).ty ∧
        delta.stream M batches = change ((r.mapped i).stream M batches) := by
      cases hstreams with
      | cons hdelta hnil =>
        cases hnil
        exact ⟨_, rfl, hdelta⟩
    have hstands := h.stands_input hc hsplit (i := i) (by simp [hi])
    have htys : [delta].map Operator.ty = op.inputs.map Operator.ty := by
      simp [hi, hty, hstands.ty]
    rw [Compile.ends_bind]
    refine (hsound.toGrown.ends_withInputs hc hsplit htys hdeltas).mono fun op' ctx₂ hre => ?_
    rw [Compile.ends_ofExcept]
    refine hsound.emitAs_kept hc hsplit hre htys hdeltas ?_
    have hi' : (r.mapped i).stream M batches = _ := hstands.sem
    unfold OverBatches
    rw [Operator.stream_eq, hre.kind, hre.inputs, hkind, boundary_of_sink hsink]
    have hcontents : ∀ n, op.contents M (accumulated batches n) =
        i.contents M (accumulated batches n) := by
      intro n
      rw [Operator.contents_eq, hkind, hi]
      rfl
    simp only [hcontents]
    rw [← boundary_of_not_sink hnosink, ← hi', ← hstream]
    rfl
  · rename_i hnosource hnosink
    refine h.ends_copy hc hsplit fun op' hkind' hinputs' => ?_
    have hsource : op.kind.isSource = false := by
      cases hk : op.kind <;> simp_all [OperatorKind.isSource]
    have hsink : op.kind.isSink = false := by
      cases hk : op.kind <;> simp_all [OperatorKind.isSink]
    unfold OverBatches
    rw [Operator.stream_eq, hkind', hinputs', boundary_of_not_sink hsink,
      OperatorKind.stream_of_isWhole (hwhole op hop)]
    funext n
    rw [Operator.contents_eq, OperatorKind.contents_of_not_source hsource _ (accumulated batches n)]
    congr 1
    unfold mappedInputs
    rw [List.map_map, List.map_map]
    refine List.map_congr_left fun i hi => ?_
    have hi' : (r.mapped i).stream M batches = _ := (h.stands_input hc hsplit hi).sem
    simp only [Function.comp_apply, hi']
    rw [boundary_of_not_sink (hc.readsNoSink op hop i hi)]

end Boundary

/-- Both operators compute the same stream. -/
def SameStream (M : Meaning) (batches : ℕ → Tables) (op op' : Operator) : Prop :=
  op'.stream M batches = op.stream M batches

namespace Rebuild

section Streams

variable (h : Sound c ctx₀ (SameStream M batches) done done r ctx) (hc : c.WellFormed ctx₀)
  (hsplit : c.operators = done ++ op :: rest)

include h hc hsplit

/-- The next operator computes what it would over what stands for its inputs. -/
theorem Sound.stream_mappedInputs : op.stream M batches =
    op.kind.stream M batches ((r.mappedInputs op).map (Operator.stream M batches)) := by
  rw [Operator.stream_eq, mappedInputs, List.map_map]
  congr 1
  exact List.map_congr_left fun i hi => (h.stands_input hc hsplit hi).sem.symm

theorem Sound.ends_copy_stream :
    Compile.Ends (r.copy op) ctx
      (Sound c ctx₀ (SameStream M batches) (done ++ [op]) (done ++ [op])) := by
  refine h.ends_copy hc hsplit fun op' hkind hinputs => ?_
  unfold SameStream
  rw [Operator.stream_eq, hkind, hinputs, h.stream_mappedInputs hc hsplit]

end Streams

/-- Integrals and what they integrate: the types agree, and the streams are running sums. -/
theorem Grown.integrals (M : Meaning) (batches : ℕ → Tables) {seen : List Operator}
    (h : Grown c ctx₀ seen r ctx)
    {integrals deltas : List Operator} (hread : ∀ i ∈ integrals, r.Readable i)
    (hunder : List.Forall₂ (fun op i => op.kind.isIntegrate ∧ op.inputs = [i]) integrals deltas) :
    (∀ i ∈ deltas, r.Readable i) ∧ deltas.map Operator.ty = integrals.map Operator.ty ∧
      integrals.map (Operator.stream M batches) =
        (deltas.map (Operator.stream M batches)).map integral := by
  induction hunder with
  | nil => simp
  | @cons whole delta _ _ hhead _ ih =>
    obtain ⟨hreads, htys, hstreams⟩ := ih fun i hi => hread i (List.mem_cons_of_mem _ hi)
    have hwhole := hread whole List.mem_cons_self
    have hkind : whole.kind = .integrate := by
      cases hk : whole.kind <;> simp_all [OperatorKind.isIntegrate]
    have hty : delta.ty = whole.ty := by
      have hchecked := h.wellFormed.checked whole hwhole.1
      rw [Operator.Checked, hkind, hhead.2] at hchecked
      exact hchecked.integrate_ty
    have hstream : whole.stream M batches = integral (delta.stream M batches) := by
      rw [Operator.stream_eq, hkind, hhead.2]
      rfl
    refine ⟨?_, by simp [hty, htys], by simp [hstream, hstreams]⟩
    intro i hi
    rcases List.mem_cons.1 hi with rfl | hi
    · exact h.readable_input hwhole.1 (by simp [hhead.2])
    · exact hreads i hi

/-- Emits an operator over changes with a stream of its own, and its integral. -/
theorem Sound.ends_emitIntegrated_new {Sem : Operator → Operator → Prop} {seen : List Operator}
    {kind : OperatorKind} {inputs : List Operator} {delta : Operator} {ctx' : Context}
    (h : Sound c ctx₀ Sem seen done r ctx) (hc : c.WellFormed ctx₀)
    (hsplit : c.operators = done ++ op :: rest) (hseen : ∀ x ∈ seen, x ∈ done ++ [op])
    (hmade : Operator.Made kind inputs op.ty ctx delta ctx')
    (htyped : kind.Typed (inputs.map Operator.ty) op.ty) (hread : ∀ i ∈ inputs, r.Readable i)
    (hnosink : kind.isSink = false) (hsink : op.kind.isSink = false)
    (hsem : ∀ op' : Operator, op'.kind = .integrate → op'.inputs = [delta] → Sem op op') :
    Compile.Ends (Integral.emitIntegrated r op delta) ctx'
      (Sound c ctx₀ Sem (done ++ [op]) (done ++ [op])) := by
  have hdelta : delta.kind.isSink = false := by rw [hmade.kind, hnosink]
  obtain ⟨hemit, hsound⟩ := h.emitNew hmade.toNew (hmade.checked htyped)
    (by rw [hmade.inputs]; exact hread) hdelta
  unfold Integral.emitIntegrated
  rw [Compile.ends_bind, Compile.ends_ofExcept, hemit]
  exact ⟨_, rfl, hsound.ends_keeping hc hsplit hseen rfl (readable_extend_self hdelta) hmade.ty
    hsink hsem⟩

end Rebuild

section Push

open Rebuild

/-- The integral of a change stream that an operator's stream is the sum of. -/
theorem sameStream_integrate {delta op' : Operator}
    (hdelta : integral (delta.stream M batches) = op.stream M batches)
    (hkind : op'.kind = .integrate) (hinputs : op'.inputs = [delta]) :
    SameStream M batches op op' := by
  unfold SameStream
  rw [Operator.stream_eq, hkind, hinputs]
  exact hdelta

section Kinds

variable (hc : c.WellFormed ctx₀) (hsplit : c.operators = done ++ op :: rest)
  (h : Sound c ctx₀ (SameStream M batches) done done r ctx)

include hc hsplit h

/-- The next operator fits what stands for its inputs. -/
theorem typed_mappedInputs : op.kind.Typed ((r.mappedInputs op).map Operator.ty) op.ty := by
  rw [h.mappedInputs_ty hc hsplit]
  exact hc.checked op (by simp [hsplit])

/-- A new operator over changes is emitted, whose integral is the stream of the next operator. -/
theorem ends_emitIntegrated_stream {kind : OperatorKind} {inputs : List Operator}
    {delta : Operator} {ctx' : Context} (hmade : Operator.Made kind inputs op.ty ctx delta ctx')
    (htyped : kind.Typed (inputs.map Operator.ty) op.ty) (hread : ∀ i ∈ inputs, r.Readable i)
    (hnosink : kind.isSink = false) (hsink : op.kind.isSink = false)
    (hstream : integral (kind.stream M batches (inputs.map (Operator.stream M batches))) =
      op.stream M batches) :
    Compile.Ends (Integral.emitIntegrated r op delta) ctx'
      (Sound c ctx₀ (SameStream M batches) (done ++ [op]) (done ++ [op])) := by
  refine h.ends_emitIntegrated_new hc hsplit (fun _ hx => List.mem_append_left _ hx) hmade htyped
    hread hnosink hsink fun op' hkind hinputs => sameStream_integrate ?_ hkind hinputs
  rw [Operator.stream_eq, hmade.kind, hmade.inputs]
  exact hstream

theorem ends_push_distinct (hkind : op.kind = .distinct) :
    Compile.Ends (do
      Integral.emitIntegrated r op
        (← Operator.incrementalDistinct (← Integral.single (r.mappedInputs op)))) ctx
      (Sound c ctx₀ (SameStream M batches) (done ++ [op]) (done ++ [op])) := by
  have htyped := typed_mappedInputs hc hsplit h
  have hread := h.readable_mappedInputs hc hsplit
  have hstream := h.stream_mappedInputs hc hsplit
  obtain ⟨whole, hwhole, hty⟩ := htyped.keeps_inputs (by rw [hkind]; rfl)
  rw [hwhole, hkind] at htyped hstream
  rw [hwhole] at hread ⊢
  simp only [Integral.single, Compile.ends_bind, Compile.ends_pure]
  refine (Operator.ends_unary (hty ▸ htyped.isCollection)).mono fun delta ctx' hmade => ?_
  have hdelta : OperatorKind.incrementalDistinct.Typed ([whole].map Operator.ty) op.ty := by
    rw [List.map_singleton, hty]
    exact .keeps rfl htyped.isCollection
  refine ends_emitIntegrated_stream hc hsplit h (hty ▸ hmade) hdelta hread rfl
    (by rw [hkind]; rfl) ?_
  rw [hstream]
  exact integral_change fun n => (whole.stream M batches n).distinct

theorem ends_push_aggregate {fold : Expr} (hkind : op.kind = .aggregate fold) :
    Compile.Ends (do
      Integral.emitIntegrated r op
        (← Operator.incrementalAggregate (← Integral.single (r.mappedInputs op)) fold)) ctx
      (Sound c ctx₀ (SameStream M batches) (done ++ [op]) (done ++ [op])) := by
  have htyped := typed_mappedInputs hc hsplit h
  have hread := h.readable_mappedInputs hc hsplit
  have hstream := h.stream_mappedInputs hc hsplit
  rw [hkind] at htyped hstream
  obtain ⟨whole, hwhole⟩ := htyped.aggregate_inputs
  rw [hwhole] at htyped hread hstream ⊢
  simp only [Integral.single, Compile.ends_bind, Compile.ends_pure]
  refine (Operator.ends_incrementalAggregate htyped).mono fun delta ctx' hmade => ?_
  refine ends_emitIntegrated_stream hc hsplit h hmade (.incrementalAggregate htyped) hread rfl
    (by rw [hkind]; rfl) ?_
  rw [hstream]
  exact integral_change fun n =>
    OperatorKind.contents M (batches n) (.aggregate fold) [whole.stream M batches n]

theorem ends_push_window {window fold : Expr} (hkind : op.kind = .windowAggregate window fold) :
    Compile.Ends (do
      let whole ← r.rewire op
      let r ← Compile.ofExcept (r.emit whole)
      Integral.emitIntegrated r op (← Operator.differentiate whole)) ctx
      (Sound c ctx₀ (SameStream M batches) (done ++ [op]) (done ++ [op])) := by
  have hnosink : op.kind.isSink = false := by rw [hkind]; rfl
  have hcoll : op.ty.isCollection := (hc.checked op (by simp [hsplit])).isCollection
  rw [Compile.ends_bind]
  refine (h.ends_rewire hc hsplit).mono fun whole ctx₁ hre => ?_
  have hwhole : whole.kind.isSink = false := by rw [hre.kind, hnosink]
  obtain ⟨hemit, hsound⟩ := h.emitKept hc hsplit hre (h.mappedInputs_ty hc hsplit)
    (h.readable_mappedInputs hc hsplit) hnosink
  rw [Compile.ends_bind, Compile.ends_ofExcept, hemit]
  refine ⟨_, rfl, ?_⟩
  rw [Compile.ends_bind]
  refine (Operator.ends_unary (hre.ty ▸ hcoll)).mono fun delta ctx₂ hmade => ?_
  rw [hre.ty] at hmade
  refine hsound.ends_emitIntegrated_new hc hsplit (fun _ hx => hx) hmade ?_ ?_ rfl hnosink
    fun op' hkind' hinputs' => sameStream_integrate ?_ hkind' hinputs'
  · rw [List.map_singleton, hre.ty]
    exact .keeps rfl hcoll
  · simpa using readable_extend_self hwhole
  · have hdelta : delta.stream M batches = change (whole.stream M batches) := by
      rw [Operator.stream_eq, hmade.kind, hmade.inputs]
      rfl
    rw [hdelta, integral_change, Operator.stream_eq, hre.kind, hre.inputs,
      h.stream_mappedInputs hc hsplit]

section Deltas

variable {deltas : List Operator} (hdeltas : ∀ i ∈ deltas, r.Readable i)
  (hdeltaTys : deltas.map Operator.ty = (r.mappedInputs op).map Operator.ty)
  (hstreams : (r.mappedInputs op).map (Operator.stream M batches) =
    (deltas.map (Operator.stream M batches)).map integral)

include hdeltas hdeltaTys hstreams

theorem ends_push_join {f : Expr} (hkind : op.kind = .join f) :
    Compile.Ends (match deltas with
      | [left, right] => do
        Integral.emitIntegrated r op (← Operator.incrementalJoin left right f)
      | _ => throw (.invariant .inputCount)) ctx
      (Sound c ctx₀ (SameStream M batches) (done ++ [op]) (done ++ [op])) := by
  have htyped := typed_mappedInputs hc hsplit h
  have hstream := h.stream_mappedInputs hc hsplit
  rw [← hdeltaTys, hkind] at htyped
  rw [hkind, hstreams] at hstream
  obtain ⟨left, right, rfl⟩ := htyped.join_inputs
  dsimp only
  rw [Compile.ends_bind]
  refine (Operator.ends_incrementalJoin htyped).mono fun delta ctx' hmade => ?_
  refine ends_emitIntegrated_stream hc hsplit h hmade (.incrementalJoin htyped) hdeltas rfl
    (by rw [hkind]; rfl) ?_
  rw [hstream]
  exact integral_change fun n =>
    ZSet.join (M.pair f) (integral (left.stream M batches) n) (integral (right.stream M batches) n)

theorem ends_push_linear (hlinear : op.kind.isLinear) :
    Compile.Ends (do Integral.emitIntegrated r op (← op.withInputs deltas)) ctx
      (Sound c ctx₀ (SameStream M batches) (done ++ [op]) (done ++ [op])) := by
  have hnosink : op.kind.isSink = false := by
    cases hk : op.kind <;> simp_all [OperatorKind.isLinear, OperatorKind.isSink]
  have htys := hdeltaTys.trans (h.mappedInputs_ty hc hsplit)
  rw [Compile.ends_bind]
  refine (h.toGrown.ends_withInputs hc hsplit htys hdeltas).mono fun delta ctx' hre => ?_
  obtain ⟨hemit, hsound⟩ := h.emitKept hc hsplit hre htys hdeltas hnosink
  unfold Integral.emitIntegrated
  rw [Compile.ends_bind, Compile.ends_ofExcept, hemit]
  refine ⟨_, rfl, hsound.ends_keeping hc hsplit (fun _ hx => hx) rfl
    (readable_extend_self (by rw [hre.kind, hnosink])) hre.ty hnosink
    fun op' hkind hinputs => sameStream_integrate ?_ hkind hinputs⟩
  rw [h.stream_mappedInputs hc hsplit, hstreams, OperatorKind.stream_map_integral hlinear,
    Operator.stream_eq, hre.kind, hre.inputs]

end Deltas

/-- Moving integrals past the next operator keeps every stream. -/
theorem ends_integral_visit :
    Compile.Ends (Integral.visit r op) ctx
      (Sound c ctx₀ (SameStream M batches) (done ++ [op]) (done ++ [op])) := by
  unfold Integral.visit
  dsimp only
  split
  · rename_i deltas hunder
    obtain ⟨hdeltas, hdeltaTys, hstreams⟩ := h.toGrown.integrals M batches
      (h.readable_mappedInputs hc hsplit) (inputsUnder?_eq_some hunder)
    unfold Integral.push
    split
    · exact ends_push_distinct hc hsplit h ‹_›
    · exact ends_push_aggregate hc hsplit h ‹_›
    · exact ends_push_window hc hsplit h ‹_›
    · exact ends_push_join hc hsplit h hdeltas hdeltaTys hstreams ‹_›
    · split
      · exact ends_push_linear hc hsplit h hdeltas hdeltaTys hstreams ‹_›
      · exact h.ends_copy_stream hc hsplit
  · exact h.ends_copy_stream hc hsplit

/-- Cancelling the next operator against the integral it reads keeps every stream. -/
theorem ends_cancel_visit :
    Compile.Ends (Cancel.visit r op) ctx
      (Sound c ctx₀ (SameStream M batches) (done ++ [op]) (done ++ [op])) := by
  unfold Cancel.visit
  split
  · rename_i whole hkind hinput
    split
    · rename_i inner hwhole hinner
      obtain ⟨i, hi, rfl⟩ := Option.map_eq_some_iff.1 hinput
      replace hi := Operator.input?_eq_some.1 hi
      replace hinner := Operator.input?_eq_some.1 hinner
      have hread : r.Readable (r.mapped i) := h.readable_mapped hc hsplit (by simp [hi])
      have hunder : List.Forall₂ (fun op i => op.kind.isIntegrate ∧ op.inputs = [i])
          [r.mapped i] [inner] := .cons ⟨by rw [hwhole]; rfl, hinner⟩ .nil
      obtain ⟨hreads, htys, hstreams⟩ :=
        h.toGrown.integrals M batches (by simpa using hread) hunder
      have hstands : Stands (SameStream M batches) r i (r.mapped i) :=
        h.stands_input hc hsplit (by simp [hi])
      have hchecked := hc.checked op (by simp [hsplit])
      rw [Operator.Checked, hkind, hi] at hchecked
      have hnosink : op.kind.isSink = false := by rw [hkind]; rfl
      obtain ⟨j, hj, hjty⟩ := hchecked.keeps_inputs rfl
      obtain rfl : i = j := by simpa using hj
      have hty : inner.ty = op.ty := by
        calc inner.ty = (r.mapped i).ty := by simpa using htys
          _ = i.ty := hstands.ty
          _ = op.ty := hjty
      have hread' := hreads inner (by simp)
      rw [Compile.ends_pure]
      refine h.stand hc hsplit (fun _ hx => List.mem_append_left _ hx) ⟨hread'.1, hty,
        by rw [hread'.2, hnosink], fun hs => by simp [hnosink] at hs, ?_⟩ hnosink
      unfold SameStream
      rw [h.stream_mappedInputs hc hsplit, mappedInputs, hi, hkind, List.map_singleton, hstreams]
      exact (change_integral _).symm
    · exact h.ends_copy_stream hc hsplit
  · exact h.ends_copy_stream hc hsplit

end Kinds
end Push

namespace Circuit

theorem WellFormed.ends_incrementalize (M : Meaning) (batches : ℕ → Tables)
    (hc : c.WellFormed ctx) (hwhole : ∀ op ∈ c.operators, op.kind.isWhole) :
    Compile.Ends c.incrementalize ctx fun c' ctx' =>
      c'.WellFormed ctx' ∧ ctx.Extends ctx' ∧ SinksRelated (OverBatches M batches) c c' :=
  hc.ends_rebuild fun _ _ _ _ _ hsplit h => ends_boundary_visit hc hwhole hsplit h

theorem WellFormed.ends_pushIntegrals (M : Meaning) (batches : ℕ → Tables)
    (hc : c.WellFormed ctx) :
    Compile.Ends c.pushIntegrals ctx fun c' ctx' =>
      c'.WellFormed ctx' ∧ ctx.Extends ctx' ∧ SinksRelated (SameStream M batches) c c' :=
  hc.ends_rebuild fun _ _ _ _ _ hsplit h => ends_integral_visit hc hsplit h

theorem WellFormed.ends_cancelIntegrals (M : Meaning) (batches : ℕ → Tables)
    (hc : c.WellFormed ctx) :
    Compile.Ends c.cancelIntegrals ctx fun c' ctx' =>
      c'.WellFormed ctx' ∧ ctx.Extends ctx' ∧ SinksRelated (SameStream M batches) c c' := by
  unfold cancelIntegrals
  have hcancel : Compile.Ends (c.rebuild Cancel.visit) ctx fun c' ctx' =>
      c'.WellFormed ctx' ∧ ctx.Extends ctx' ∧ SinksRelated (SameStream M batches) c c' :=
    hc.ends_rebuild fun _ _ _ _ _ hsplit h => ends_cancel_visit hc hsplit h
  rw [Compile.ends_bind]
  refine hcancel.mono ?_
  rintro c₁ ctx₁ ⟨hc₁, hctx₁, hsinks₁⟩
  refine hc₁.ends_prune.mono ?_
  rintro c₂ ctx₂ ⟨hc₂, hctx₂, hsinks₂⟩
  refine ⟨hc₂, hctx₁.trans hctx₂, ?_⟩
  unfold SinksRelated
  rw [hsinks₂]
  exact hsinks₁

/-- A further circuit with the same streams puts out the same. -/
theorem SinksRelated.sameStream {c' c'' : Circuit}
    (h : SinksRelated (OverBatches M batches) c c')
    (h' : SinksRelated (SameStream M batches) c' c'') :
    SinksRelated (OverBatches M batches) c c'' := by
  unfold SinksRelated at h h' ⊢
  generalize c.sinks = as at h ⊢
  generalize c'.sinks = bs at h h'
  generalize c''.sinks = cs at h' ⊢
  induction h generalizing cs with
  | nil =>
    cases h'
    exact .nil
  | cons hab _ ih =>
    cases h' with
    | cons hbc hrest =>
      obtain ⟨hsink, hkind, hsem⟩ := hab
      exact .cons ⟨hsink, hbc.2.1.trans hkind, hbc.2.2.trans hsem⟩ (ih _ hrest)

/-- Runs one pass and then the others. -/
theorem ends_optimize_cons (post : Circuit → Context → Prop) {p : Pass} {ps : List Pass}
    (h : Compile.Ends (p.apply c) ctx fun next ctx' =>
      Compile.Ends (next.optimize ps) ctx' fun out => post out.1) :
    Compile.Ends (c.optimize (p :: ps)) ctx fun out => post out.1 := by
  rw [optimize, Compile.ends_bind]
  refine h.mono fun next ctx' hnext => ?_
  dsimp only
  rw [Compile.ends_bind]
  refine hnext.mono fun out ctx'' hout => ?_
  obtain ⟨last, stats⟩ := out
  rw [Compile.ends_pure]
  exact hout

/-- The passes that make a circuit incremental. -/
def incrementalPasses : List Pass :=
  [.incrementalize, .incrementalCleanup, .deadCode, .noIntegral]

theorem WellFormed.ends_incrementalPasses (M : Meaning) (batches : ℕ → Tables)
    (hc : c.WellFormed ctx) (hwhole : ∀ op ∈ c.operators, op.kind.isWhole) :
    Compile.Ends (c.optimize incrementalPasses) ctx fun out _ =>
      SinksRelated (OverBatches M batches) c out.1 := by
  let post : Circuit → Context → Prop := fun c' _ => SinksRelated (OverBatches M batches) c c'
  refine ends_optimize_cons post ((hc.ends_incrementalize M batches hwhole).mono ?_)
  rintro c₁ ctx₁ ⟨hc₁, -, hsinks₁⟩
  refine ends_optimize_cons post ((hc₁.ends_pushIntegrals M batches).mono ?_)
  rintro c₂ ctx₂ ⟨hc₂, -, hsinks₂⟩
  refine ends_optimize_cons post (hc₂.ends_prune.mono ?_)
  rintro c₃ ctx₃ ⟨hc₃, -, hsinks₃⟩
  refine ends_optimize_cons post ((hc₃.ends_cancelIntegrals M batches).mono ?_)
  rintro c₄ ctx₄ ⟨-, -, hsinks₄⟩
  rw [optimize, Compile.ends_pure]
  refine (hsinks₁.sameStream hsinks₂).sameStream ?_
  unfold SinksRelated at hsinks₄ ⊢
  rwa [hsinks₃] at hsinks₄

instance : Nonempty Meaning :=
  ⟨⟨fun _ v => v, fun _ _ => True, fun _ k _ _ => k, fun _ _ => Val.null, fun _ _ _ k => k,
    fun _ => 0⟩⟩

end Circuit

end ViewCircuit
