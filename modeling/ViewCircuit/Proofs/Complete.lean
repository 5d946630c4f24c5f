import ViewCircuit.Proofs.Pipeline

/-! Incremental circuits without whole relations. An operator below which no constant lies ends up
as the integral of an operator over changes, so whole relations are joined, folded or made distinct
over constants only, and differences are taken over constants and of windows only. -/
namespace ViewCircuit

namespace OperatorKind

/-- Kinds over whole relations that have a counterpart over changes. -/
def hasIncremental : OperatorKind → Bool
  | .distinct | .join _ | .aggregate _ => true
  | _ => false

def isWindow : OperatorKind → Bool
  | .windowAggregate .. => true
  | _ => false

/-- Kinds that compute a relation between the ends of a circuit. -/
def isRelation (kind : OperatorKind) : Bool := kind.isWhole && !kind.isSource && !kind.isSink

/-- Windows, and the integrals that are cancelled later. -/
def isWindowOrIntegral (kind : OperatorKind) : Bool := kind.isWindow || kind.isIntegrate

theorem isWindowOrIntegral_of_isWindow {kind : OperatorKind} (h : kind.isWindow) :
    kind.isWindowOrIntegral := by
  simp [isWindowOrIntegral, h]

theorem isPushable_of_isRelation {kind : OperatorKind} (h : kind.isRelation)
    (hconstant : kind.isConstant = false) : Integral.isPushable kind := by
  cases kind <;> simp_all [isRelation, isWhole, isSource, isSink, isConstant, isLinear,
    Integral.isPushable]

theorem isRelation_of_hasIncremental {kind : OperatorKind} (h : kind.hasIncremental) :
    kind.isRelation ∧ kind.isConstant = false := by
  cases kind <;> first | exact ⟨rfl, rfl⟩ | cases h

@[simp] theorem hasIncremental_simplified (kind : OperatorKind) :
    kind.simplified.hasIncremental = kind.hasIncremental := by cases kind <;> rfl

@[simp] theorem isWindow_simplified (kind : OperatorKind) :
    kind.simplified.isWindow = kind.isWindow := by cases kind <;> rfl

theorem simplified_eq_differentiate {kind : OperatorKind} (h : kind.simplified = .differentiate) :
    kind = .differentiate := by
  cases kind <;> first | rfl | cases h

/-- Only sources and constants read nothing. -/
theorem Typed.inputs_ne_nil {kind : OperatorKind} {inputs : List Ty} {t : Ty}
    (h : kind.Typed inputs t) (hsource : kind.isSource = false)
    (hconstant : kind.isConstant = false) : inputs ≠ [] := by
  induction h with
  | source => cases hsource
  | constant => cases hconstant
  | incrementalJoin _ ih | incrementalAggregate _ ih => exact ih rfl rfl
  | _ => simp

end OperatorKind

/-- Operators of a kind with one input each have their inputs taken. -/
theorem inputsUnder?_isSome {property : OperatorKind → Bool} {ops : List Operator} (hne : ops ≠ [])
    (h : ∀ op ∈ ops, property op.kind ∧ ∃ i, op.inputs = [i]) :
    (inputsUnder? property ops).isSome := by
  have hall : ops.all fun op => property op.kind := List.all_eq_true.2 fun op hop => (h op hop).1
  unfold inputsUnder?
  rw [if_pos (by simp [hne, hall])]
  clear hne hall
  induction ops with
  | nil => rfl
  | cons op ops ih =>
    obtain ⟨⟨-, i, hi⟩, hops⟩ := List.forall_mem_cons.1 h
    obtain ⟨is, his⟩ := Option.isSome_iff_exists.1 (ih hops)
    simp [Operator.input?_eq_some.2 hi, his]

namespace Operator

/-- A constant collection lies below the operator. -/
inductive DependsOnConstant : Operator → Prop
  | constant {op : Operator} : op.kind.isConstant → DependsOnConstant op
  | input {op i : Operator} : i ∈ op.inputs → DependsOnConstant i → DependsOnConstant op

theorem DependsOnConstant.of_not_constant {op : Operator} (h : op.DependsOnConstant)
    (hconstant : op.kind.isConstant = false) : ∃ i ∈ op.inputs, i.DependsOnConstant := by
  cases h with
  | constant hkind => simp [hconstant] at hkind
  | input hi hdepends => exact ⟨_, hi, hdepends⟩

/-- In a circuit whose operators read members, the constant is a member. -/
theorem DependsOnConstant.exists_mem {ops : List Operator} (hops : ReadsEarlier ops) {op : Operator}
    (h : op.DependsOnConstant) (hop : op ∈ ops) : ∃ x ∈ ops, x.kind.isConstant := by
  induction h with
  | constant hkind => exact ⟨_, hop, hkind⟩
  | input hi _ ih => exact ih (hops.mem hop hi)

/-- Between the ends of a circuit, relations and differences are computed from whole relations. -/
def Bounded (op : Operator) : Prop :=
  op.kind.isRelation ∨ op.kind = .differentiate →
    ∀ i ∈ op.inputs, i.kind.isIntegrate ∨ i.kind.isRelation

/-- Operators with a counterpart over changes are left over constants only, and differences also of
operators of other kinds. -/
structure Reduced (left : OperatorKind → Bool) (op : Operator) : Prop where
  whole : op.kind.hasIncremental → op.DependsOnConstant
  difference : op.kind = .differentiate → ∃ i ∈ op.inputs, left i.kind ∨ i.DependsOnConstant

/-- Nothing is asked of most kinds. -/
theorem reduced_of_kind {left : OperatorKind → Bool} {op : Operator}
    (hwhole : op.kind.hasIncremental = false) (hdifference : op.kind ≠ .differentiate) :
    op.Reduced left :=
  ⟨fun h => by simp [hwhole] at h, fun h => absurd h hdifference⟩

end Operator

section Visits

variable {c : Circuit} {ctx₀ ctx : Context} {Sem : Operator → Operator → Prop}
  {done rest emitted : List Operator} {r : Rebuild} {op op' new : Operator}

/-- What an operator depends on stays below it when its inputs are replaced. -/
theorem Operator.DependsOnConstant.over (h : op.DependsOnConstant)
    (hkind : op'.kind.isConstant = op.kind.isConstant) (hinputs : op'.inputs = r.mappedInputs op)
    (hmapped : ∀ i ∈ op.inputs, i.DependsOnConstant → (r.mapped i).DependsOnConstant) :
    op'.DependsOnConstant := by
  cases h with
  | constant hconstant => exact .constant (hkind.trans hconstant)
  | input hi hdepends =>
    exact .input (hinputs ▸ List.mem_map_of_mem hi) (hmapped _ hi hdepends)

namespace Boundary

/-- The ends of the circuit are put between changes and whole relations. -/
theorem Visited.bounded (hop : op.kind.isWhole)
    (hreads : ∀ i ∈ op.inputs, i.kind.isSink = false)
    (hmapped : ∀ i ∈ op.inputs, i.kind.isSink = false →
      (r.mapped i).kind.isIntegrate ∨ (r.mapped i).kind.isRelation)
    (h : Visited r op emitted new) :
    (∀ x ∈ emitted, x.Bounded) ∧
      (op.kind.isSink = false → new.kind.isIntegrate ∨ new.kind.isRelation) := by
  have hinputs : ∀ i ∈ r.mappedInputs op, i.kind.isIntegrate ∨ i.kind.isRelation :=
    List.forall_mem_map.2 fun i hi => hmapped i hi (hreads i hi)
  cases h with
  | source hsource hintegral =>
    have hself : op.Bounded := by
      rintro (hrelation | hkind)
      · simp [OperatorKind.isRelation, hsource] at hrelation
      · rw [hkind] at hsource
        cases hsource
    have hnew : new.Bounded := by
      rintro (hrelation | hkind)
      · rw [hintegral] at hrelation
        cases hrelation
      · rw [hintegral] at hkind
        cases hkind
    exact ⟨by simpa using ⟨hself, hnew⟩, fun _ => .inl (by rw [hintegral]; rfl)⟩
  | sink hsink hdeltas hover =>
    refine ⟨List.forall_mem_append.2 ⟨fun delta hdelta _ i hi => ?_, ?_⟩, by simp [hsink]⟩
    · obtain ⟨j, hj, -, hreads⟩ := forall₂_mem hdeltas hdelta
      rw [hreads, List.mem_singleton] at hi
      exact hi ▸ hinputs j hj
    · refine List.forall_mem_singleton.2 ?_
      rintro (hrelation | hkind)
      · simp [OperatorKind.isRelation, hover.kind, hsink] at hrelation
      · rw [hover.kind] at hkind
        rw [hkind] at hsink
        cases hsink
  | kept hsource hsink hover =>
    refine ⟨List.forall_mem_singleton.2 fun _ => hover.inputs ▸ hinputs, fun _ => .inr ?_⟩
    simp [OperatorKind.isRelation, hover.kind, hop, hsource, hsink]

end Boundary

namespace Integral

/-- An operator that could be moved and was not reads something that depends on a constant, when
whole relations are integrals away from constants. -/
theorem exists_dependsOnConstant (hsound : Rebuild.Sound c ctx₀ Sem done done r ctx)
    (hc : c.WellFormed ctx₀) (hsplit : c.operators = done ++ op :: rest)
    (hrelation : op.kind.isRelation) (hconstant : op.kind.isConstant = false)
    (hmapped : ∀ i ∈ r.mappedInputs op, i.kind.isIntegrate ∨ i.DependsOnConstant)
    (hkept : isPushable op.kind → inputsUnder? (·.isIntegrate) (r.mappedInputs op) = none) :
    ∃ i ∈ r.mappedInputs op, i.DependsOnConstant := by
  by_contra hnone
  simp only [not_exists, not_and] at hnone
  have hsource : op.kind.isSource = false := by
    simp only [OperatorKind.isRelation, Bool.and_eq_true, Bool.not_eq_true'] at hrelation
    exact hrelation.1.2
  have hne : r.mappedInputs op ≠ [] := by
    have htyped := (hc.checked op (by simp [hsplit])).inputs_ne_nil hsource hconstant
    simpa [Rebuild.mappedInputs] using htyped
  have hall : ∀ i ∈ r.mappedInputs op, i.kind.isIntegrate ∧ ∃ j, i.inputs = [j] := by
    intro i hi
    have hintegrate := (hmapped i hi).resolve_right (hnone i hi)
    have hchecked := hsound.wellFormed.checked i (hsound.readable_mappedInputs hc hsplit i hi).1
    obtain ⟨j, hj, -⟩ := OperatorKind.Typed.keeps_inputs hchecked
      (by cases hk : i.kind <;> simp_all [OperatorKind.isIntegrate, OperatorKind.keepsType])
    exact ⟨hintegrate, j, hj⟩
  have hsome : (inputsUnder? (·.isIntegrate) (r.mappedInputs op)).isSome :=
    inputsUnder?_isSome hne hall
  rw [hkept (OperatorKind.isPushable_of_isRelation hrelation hconstant)] at hsome
  cases hsome

/-- Operators over changes need no constants below them; what is left of whole relations is a window
below a difference. -/
theorem Delta.reduced {left : OperatorKind → Bool}
    (hleft : ∀ kind : OperatorKind, kind.isWindow → left kind) {delta : Operator}
    {deltas before : List Operator} (h : Delta r op deltas before delta) :
    (∀ x ∈ before, x.Reduced left) ∧ delta.Reduced left := by
  cases h with
  | distinct _ hkind | aggregate _ hkind | join _ hkind =>
    exact ⟨List.forall_mem_nil _,
      Operator.reduced_of_kind (by rw [hkind]; rfl) (by simp [hkind])⟩
  | @windowAggregate whole _ _ _ hop hover hkind hreads =>
    have hwindow : whole.kind.isWindow := by rw [hover.kind, hop]; rfl
    have hwhole : whole.Reduced left :=
      Operator.reduced_of_kind (by rw [hover.kind, hop]; rfl) (by simp [hover.kind, hop])
    refine ⟨List.forall_mem_singleton.2 hwhole, fun hdelta => ?_, fun _ => ?_⟩
    · rw [hkind] at hdelta
      cases hdelta
    · exact ⟨whole, by simp [hreads], .inl (hleft _ hwindow)⟩
  | linear hlinear hover =>
    refine ⟨List.forall_mem_nil _, Operator.reduced_of_kind ?_ ?_⟩ <;> rw [hover.kind] <;>
      cases hk : op.kind <;> simp_all [OperatorKind.isLinear, OperatorKind.hasIncremental]

/-- After a visit, a relation is an integral or depends on a constant. -/
theorem Visited.reduced (hsound : Rebuild.Sound c ctx₀ Sem done done r ctx)
    (hc : c.WellFormed ctx₀) (hsplit : c.operators = done ++ op :: rest) (hbounded : op.Bounded)
    (hmapped : ∀ i ∈ op.inputs, i.kind.isIntegrate ∨ i.kind.isRelation →
      (r.mapped i).kind.isIntegrate ∨ (r.mapped i).DependsOnConstant)
    (h : Visited r op emitted new) :
    (∀ x ∈ emitted, x.Reduced OperatorKind.isWindowOrIntegral) ∧
      (op.kind.isIntegrate ∨ op.kind.isRelation →
        new.kind.isIntegrate ∨ new.DependsOnConstant) := by
  have hinputs : op.kind.isRelation ∨ op.kind = .differentiate →
      ∀ i ∈ r.mappedInputs op, i.kind.isIntegrate ∨ i.DependsOnConstant :=
    fun hkind => List.forall_mem_map.2 fun i hi => hmapped i hi (hbounded hkind i hi)
  cases h with
  | kept hover hkept =>
    have hdepends : op.kind.isRelation → new.DependsOnConstant := by
      intro hrelation
      cases hconstant : op.kind.isConstant with
      | true => exact .constant (by rw [hover.kind, hconstant])
      | false =>
        obtain ⟨i, hi, hdepends⟩ := exists_dependsOnConstant hsound hc hsplit hrelation hconstant
          (hinputs (.inl hrelation)) hkept
        exact .input (hover.inputs ▸ hi) hdepends
    refine ⟨List.forall_mem_singleton.2 ⟨fun hwhole => ?_, fun hkind => ?_⟩, ?_⟩
    · rw [hover.kind] at hwhole
      exact hdepends (OperatorKind.isRelation_of_hasIncremental hwhole).1
    · rw [hover.kind] at hkind
      obtain ⟨i, hi, -⟩ := OperatorKind.Typed.keeps_inputs (hc.checked op (by simp [hsplit]))
        (by rw [hkind]; rfl)
      have hmem : r.mapped i ∈ r.mappedInputs op := List.mem_map_of_mem (by simp [hi])
      refine ⟨r.mapped i, hover.inputs ▸ hmem, ?_⟩
      exact (hinputs (.inr hkind) _ hmem).imp_left fun hintegrate => by
        simp [OperatorKind.isWindowOrIntegral, hintegrate]
    · rintro (hintegrate | hrelation)
      · exact .inl (by rw [hover.kind, hintegrate])
      · exact .inr (hdepends hrelation)
  | @pushed delta _ deltas before _ hdelta hintegral =>
    obtain ⟨hbefore, hdelta⟩ := hdelta.reduced fun _ => OperatorKind.isWindowOrIntegral_of_isWindow
    have hnew : new.Reduced OperatorKind.isWindowOrIntegral :=
      Operator.reduced_of_kind (by rw [hintegral]; rfl) (by simp [hintegral])
    refine ⟨List.forall_mem_append.2 ⟨hbefore, ?_⟩, fun _ => .inl (by rw [hintegral]; rfl)⟩
    simpa using ⟨hdelta, hnew⟩

end Integral

namespace Cancel

/-- The differences that are left are those of windows and those that depend on a constant. -/
theorem Visited.reduced (hop : op.Reduced OperatorKind.isWindowOrIntegral)
    (hdepends : ∀ i ∈ op.inputs, i.DependsOnConstant → (r.mapped i).DependsOnConstant)
    (hkinds : ∀ i ∈ op.inputs, i.kind ≠ .differentiate → (r.mapped i).kind = i.kind)
    (h : Visited r op emitted new) :
    (∀ x ∈ emitted, x.Reduced (·.isWindow)) ∧
      (op.DependsOnConstant → new.DependsOnConstant) ∧
      (op.kind ≠ .differentiate → new.kind = op.kind) := by
  cases h with
  | kept hover hkept =>
    have hnew : op.DependsOnConstant → new.DependsOnConstant :=
      fun h => h.over (by rw [hover.kind]) hover.inputs hdepends
    refine ⟨List.forall_mem_singleton.2 ⟨fun hwhole => ?_, fun hkind => ?_⟩, hnew,
      fun _ => hover.kind⟩
    · rw [hover.kind] at hwhole
      exact hnew (hop.whole hwhole)
    · rw [hover.kind] at hkind
      obtain ⟨i, hi, hleft⟩ := hop.difference hkind
      have hmem : r.mapped i ∈ r.mappedInputs op := List.mem_map_of_mem hi
      refine ⟨r.mapped i, hover.inputs ▸ hmem, hleft.elim (fun hleft => .inl ?_) fun h =>
        .inr (hdepends i hi h)⟩
      have hsame : (r.mapped i).kind = i.kind :=
        hkinds i hi fun hdiff => by rw [hdiff] at hleft; cases hleft
      have hnot := hkept hkind _ hmem
      rw [hsame] at hnot ⊢
      simpa [OperatorKind.isWindowOrIntegral, hnot] using hleft
  | @cancelled i inner hkind hi hintegrate hinner =>
    refine ⟨List.forall_mem_nil _, fun h => ?_, fun hne => absurd hkind hne⟩
    obtain ⟨j, hj, hdep⟩ := h.of_not_constant (by rw [hkind]; rfl)
    obtain rfl : j = i := by simpa [hi] using hj
    obtain ⟨k, hk, hdep⟩ := (hdepends j hj hdep).of_not_constant (by rw [hintegrate]; rfl)
    obtain rfl : k = new := by simpa [hinner] using hk
    exact hdep

end Cancel

namespace Functions

/-- Simplifying functions changes nothing in what operators are left. -/
theorem Visited.reduced (hop : op.Reduced (·.isWindow))
    (hdepends : ∀ i ∈ op.inputs, i.DependsOnConstant → (r.mapped i).DependsOnConstant)
    (hwindows : ∀ i ∈ op.inputs, (r.mapped i).kind.isWindow = i.kind.isWindow)
    (h : Visited r op emitted new) :
    (∀ x ∈ emitted, x.Reduced (·.isWindow)) ∧
      (op.DependsOnConstant → new.DependsOnConstant) ∧
      new.kind.isWindow = op.kind.isWindow := by
  cases h with
  | simplified hkind _ _ _ hinputs =>
    have hnew : op.DependsOnConstant → new.DependsOnConstant :=
      fun h => h.over (by simp [hkind]) hinputs hdepends
    refine ⟨List.forall_mem_singleton.2 ⟨fun hwhole => ?_, fun hdiff => ?_⟩, hnew, by simp [hkind]⟩
    · exact hnew (hop.whole (by simpa [hkind] using hwhole))
    · rw [hkind] at hdiff
      obtain ⟨i, hi, hleft⟩ := hop.difference (OperatorKind.simplified_eq_differentiate hdiff)
      refine ⟨r.mapped i, hinputs ▸ List.mem_map_of_mem hi, ?_⟩
      exact hleft.imp (fun hwindow => (hwindows i hi).trans hwindow) (hdepends i hi)

end Functions

end Visits

namespace Circuit

variable {c : Circuit} {ctx : Context} {fits : Literal → Ty → Prop} {constants : Prop}

theorem Standard.ends_bounded (h : c.Standard fits constants ctx)
    (hwhole : ∀ op ∈ c.operators, op.kind.isWhole) :
    Compile.Ends c.incrementalize ctx fun c' ctx' =>
      c'.Standard fits constants ctx' ∧ ∀ op ∈ c'.operators, op.Bounded := by
  have hc := h.wellFormed
  have hkeeps : c.Preserves ctx Boundary.Visited (Rebuild.Keeps Operator.Bounded fun op new =>
      op.kind.isSink = false → new.kind.isIntegrate ∨ new.kind.isRelation) := by
    refine hc.preserves_keeps fun Sem done op rest r ctx' emitted new hsplit _ _ hmapped hvisited =>
      ?_
    have hop : op ∈ c.operators := by simp [hsplit]
    exact hvisited.bounded (hwhole op hop) (hc.readsNoSink op hop) hmapped
  have hbounded := hc.ends_incrementalize_inv (keeps_start c) hwhole hkeeps
  exact ((h.ends_incrementalize hwhole).and hbounded.yields).mono
    fun _ _ hnew => ⟨hnew.1.1, hnew.2.members⟩

theorem Standard.ends_pushIntegrals_reduced (hfits : Admits fits)
    (h : c.Standard fits constants ctx) (hbounded : ∀ op ∈ c.operators, op.Bounded) :
    Compile.Ends c.pushIntegrals ctx fun c' ctx' => c'.Standard fits constants ctx' ∧
      ∀ op ∈ c'.operators, op.Reduced OperatorKind.isWindowOrIntegral := by
  have hc := h.wellFormed
  have hkeeps : c.Preserves ctx Integral.Visited
      (Rebuild.Keeps (Operator.Reduced OperatorKind.isWindowOrIntegral)
        fun op new => op.kind.isIntegrate ∨ op.kind.isRelation →
          new.kind.isIntegrate ∨ new.DependsOnConstant) := by
    refine hc.preserves_keeps fun Sem done op rest r ctx' emitted new hsplit hsound _ hmapped
      hvisited => ?_
    exact hvisited.reduced hsound hc hsplit (hbounded op (by simp [hsplit])) hmapped
  have hreduced := hc.ends_pushIntegrals_inv (keeps_start c) hkeeps
  have hstandard := h.ends_apply hfits (p := .incrementalCleanup) nofun nofun
  exact (hstandard.and hreduced.yields).mono fun _ _ hnew => ⟨hnew.1.1, hnew.2.members⟩

theorem Standard.ends_cancelIntegrals_reduced (h : c.Standard fits constants ctx)
    (hreduced : ∀ op ∈ c.operators, op.Reduced OperatorKind.isWindowOrIntegral) :
    Compile.Ends c.cancelIntegrals ctx fun c' ctx' =>
      c'.Standard fits constants ctx' ∧ ∀ op ∈ c'.operators, op.Reduced (·.isWindow) := by
  have hc := h.wellFormed
  have hkeeps : c.Preserves ctx Cancel.Visited (Rebuild.Keeps (Operator.Reduced (·.isWindow))
      fun op new => (op.DependsOnConstant → new.DependsOnConstant) ∧
        (op.kind ≠ .differentiate → new.kind = op.kind)) := by
    refine hc.preserves_keeps fun Sem done op rest r ctx' emitted new hsplit _ _ hmapped hvisited =>
      ?_
    exact hvisited.reduced (hreduced op (by simp [hsplit])) (fun i hi => (hmapped i hi).1)
      fun i hi => (hmapped i hi).2
  have hcancelled := hc.ends_cancel_inv (keeps_start c) hkeeps
  unfold cancelIntegrals
  rw [Compile.ends_bind]
  exact (h.ends_cancel.and hcancelled.yields).mono
    fun _ _ hnew => hnew.1.1.ends_prune_forall hnew.2.members

theorem Standard.ends_normalizeFunctions_reduced (hfits : Admits fits)
    (h : c.Standard fits constants ctx) (hreduced : ∀ op ∈ c.operators, op.Reduced (·.isWindow)) :
    Compile.Ends c.normalizeFunctions ctx fun c' ctx' =>
      c'.Standard fits constants ctx' ∧ ∀ op ∈ c'.operators, op.Reduced (·.isWindow) := by
  have hc := h.wellFormed
  have hkeeps : c.Preserves ctx Functions.Visited (Rebuild.Keeps (Operator.Reduced (·.isWindow))
      fun op new => (op.DependsOnConstant → new.DependsOnConstant) ∧
        new.kind.isWindow = op.kind.isWindow) := by
    refine hc.preserves_keeps fun Sem done op rest r ctx' emitted new hsplit _ _ hmapped hvisited =>
      ?_
    exact hvisited.reduced (hreduced op (by simp [hsplit])) (fun i hi => (hmapped i hi).1)
      fun i hi => (hmapped i hi).2
  have hnormal := hc.ends_normalizeFunctions_inv (keeps_start c) hfits
    (fun op hop => (h.kinds op hop).regular) hkeeps
  have hstandard := h.ends_apply hfits (p := .normalFunctions) nofun nofun
  exact (hstandard.and hnormal.yields).mono fun _ _ hnew => ⟨hnew.1.1, hnew.2.members⟩

/-- The passes that optimize and make incremental leave whole relations over constants only. -/
theorem Standard.ends_pipeline_reduced (hfits : Admits fits) (h : c.Standard fits constants ctx)
    (hwhole : ∀ op ∈ c.operators, op.kind.isWhole)
    (hrows : ∀ d ∈ c.operators, d.kind = .distinct → d.ty.zsetElement?.isSome)
    {config : OptimizerConfig} (hoptimize : config.optimize)
    (hincremental : config.incrementalize) :
    Compile.Ends (c.optimize config.pipeline) ctx fun out ctx' =>
      out.1.Standard fits constants ctx' ∧ ∀ op ∈ out.1.operators, op.Reduced (·.isWindow) := by
  have hpipeline : config.pipeline = .distinctElision :: .incrementalize :: .incrementalCleanup ::
      .deadCode :: .noIntegral :: if config.simplifyFunctions then [.normalFunctions] else [] := by
    simp [OptimizerConfig.pipeline, hoptimize, hincremental]
  let post (c' : Circuit) (ctx' : Context) : Prop :=
    c'.Standard fits constants ctx' ∧ ∀ op ∈ c'.operators, op.Reduced (·.isWindow)
  rw [hpipeline]
  refine ends_optimize_cons post ((h.ends_elideDistincts hwhole hrows).mono fun c₁ ctx₁ h₁ => ?_)
  refine ends_optimize_cons post ((h₁.1.ends_bounded h₁.2.2).mono fun c₂ ctx₂ h₂ => ?_)
  refine ends_optimize_cons post
    ((h₂.1.ends_pushIntegrals_reduced hfits h₂.2).mono fun c₃ ctx₃ h₃ => ?_)
  refine ends_optimize_cons post ((h₃.1.ends_prune_forall h₃.2).mono fun c₄ ctx₄ h₄ => ?_)
  refine ends_optimize_cons post
    ((h₄.1.ends_cancelIntegrals_reduced h₄.2).mono fun c₅ ctx₅ h₅ => ?_)
  cases config.simplifyFunctions with
  | false => exact (Compile.ends_pure _).2 h₅
  | true =>
    refine ends_optimize_cons post
      ((h₅.1.ends_normalizeFunctions_reduced hfits h₅.2).mono fun c₆ ctx₆ h₆ => ?_)
    exact (Compile.ends_pure _).2 h₆

end Circuit

namespace Plan

/-- The passes that optimize and make incremental succeed on the circuit of a plan, and leave whole
relations over constants only. -/
theorem ends_pipeline_reduced {p : Plan} {c : Circuit} {ctx ctx' : Context}
    (config : OptimizerConfig) (hoptimize : config.optimize) (hincremental : config.incrementalize)
    (h : p.circuit ctx = (.ok c, ctx')) :
    Compile.Ends (c.optimize config.pipeline) ctx' fun out ctx'' =>
      out.1.Standard (fun _ _ => True) p.usesConstants ctx'' ∧
      ∀ op ∈ out.1.operators, op.Reduced (·.isWindow) := by
  have himplements := implements_circuit admits_any (fun _ _ _ => trivial) h
  exact himplements.standard.ends_pipeline_reduced admits_any
    (fun op hop => (himplements.lowered op hop).whole)
    (fun d hd hkind => ((himplements.lowered d hd).distinct hkind).1) hoptimize hincremental

/-- In an incremental circuit compiled from a plan, distincts, joins and aggregates are left over
constants only, and differences over constants and of windows; a plan without literal rows and
without aggregates of all rows together has none of the former, and differences of windows only. -/
theorem compile_complete {p : Plan} {config : OptimizerConfig} {ctx ctx' : Context} {c : Circuit}
    {stats : List PassStats} (hoptimize : config.optimize) (hincremental : config.incrementalize)
    (h : p.compile config ctx = (.ok (c, stats), ctx')) :
    (∀ op ∈ c.operators, op.kind.hasIncremental → op.DependsOnConstant) ∧
    (∀ op ∈ c.operators, op.kind = .differentiate →
      (∃ i ∈ op.inputs, i.kind.isWindow) ∨ op.DependsOnConstant) ∧
    (p.usesConstants = false → ∀ op ∈ c.operators, op.kind.hasIncremental = false ∧
      (op.kind = .differentiate → ∃ i ∈ op.inputs, i.kind.isWindow)) := by
  obtain ⟨lowered, ctx₁, hlower, hrun⟩ := (Compile.bind_eq_ok _ _).1 h
  obtain ⟨hstandard, hreduced⟩ :=
    (ends_pipeline_reduced config hoptimize hincremental hlower).yields _ _ hrun
  refine ⟨fun op hop => (hreduced op hop).whole, fun op hop hkind => ?_, fun hnone op hop => ?_⟩
  · obtain ⟨i, hi, hleft⟩ := (hreduced op hop).difference hkind
    exact hleft.imp (fun hwindow => ⟨i, hi, hwindow⟩) fun hdepends => .input hi hdepends
  · have hfree : ∀ x ∈ c.operators, ¬ x.DependsOnConstant := by
      intro x hx hdepends
      obtain ⟨y, hy, hconstant⟩ := hdepends.exists_mem hstandard.wellFormed.earlier hx
      simpa [hnone] using (hstandard.kinds y hy).constant hconstant
    refine ⟨Bool.eq_false_iff.2 fun hwhole => hfree op hop ((hreduced op hop).whole hwhole),
      fun hkind => ?_⟩
    obtain ⟨i, hi, hwindow | hdepends⟩ := (hreduced op hop).difference hkind
    · exact ⟨i, hi, hwindow⟩
    · exact absurd hdepends (hfree i (hstandard.wellFormed.earlier.mem hop hi))

theorem accounts_complete : ∃ c stats ctx,
    accounts.compile .incremental Context.empty = (.ok (c, stats), ctx) ∧
    (∀ op ∈ c.operators, op.kind.hasIncremental → op.DependsOnConstant) ∧
    (∀ op ∈ c.operators, op.kind = .differentiate →
      (∃ i ∈ op.inputs, i.kind.isWindow) ∨ op.DependsOnConstant) ∧
    ∀ op ∈ c.operators, op.kind.hasIncremental = false ∧
      (op.kind = .differentiate → ∃ i ∈ op.inputs, i.kind.isWindow) := by
  obtain ⟨lowered, ctx₁, hlower⟩ := lowers_accounts
  obtain ⟨⟨c, stats⟩, ctx, hrun, -⟩ := ends_pipeline_reduced .incremental rfl rfl hlower
  have h : accounts.compile .incremental Context.empty = (.ok (c, stats), ctx) :=
    (Compile.bind_eq_ok _ _).2 ⟨lowered, ctx₁, hlower, hrun⟩
  obtain ⟨hwhole, hdifference, hnone⟩ := compile_complete rfl rfl h
  exact ⟨c, stats, ctx, h, hwhole, hdifference, hnone (by decide)⟩

end Plan

end ViewCircuit
