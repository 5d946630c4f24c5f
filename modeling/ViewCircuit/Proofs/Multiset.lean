import Mathlib
import ViewCircuit.Proofs.Conformance

/-! What the mark for multisets promises. An operator that is not marked puts out no row twice, in
the circuit of a plan and after the passes over whole relations. Two kinds of operators break the
promise: negations, whose rows have weight minus one, and filters that were moved over a multiset
and kept their mark. -/
namespace ViewCircuit

open scoped Classical

namespace ZSet

/-- Every row occurs once or not at all. -/
def IsSet (x : ZSet) : Prop := ∀ row, x row = 0 ∨ x row = 1

namespace IsSet

variable {x : ZSet}

theorem zero : IsSet 0 := fun _ => .inl rfl

theorem single (row : Val) : IsSet (Finsupp.single row 1) := by
  intro r
  rw [Finsupp.single_apply]
  split
  · exact .inr rfl
  · exact .inl rfl

theorem distinct (x : ZSet) : x.distinct.IsSet := by
  intro row
  rw [distinct_apply]
  split
  · exact .inr rfl
  · exact .inl rfl

theorem keepRows (h : x.IsSet) (p : Val → Prop) : (x.keepRows p).IsSet := by
  intro row
  rw [keepRows_apply]
  split
  · exact h row
  · exact .inl rfl

/-- Rows from different places are different, so none of them is there twice. -/
theorem sum_ofOption {s : Finset Val} {f : Val → Option Val} {w : Val → ℤ}
    (hf : ∀ a b row, f a = some row → f b = some row → a = b) (hw : ∀ a, w a = 0 ∨ w a = 1) :
    IsSet (∑ a ∈ s, ofOption (f a) (w a)) := by
  intro row
  rw [Finsupp.finsetSum_apply]
  by_cases h : ∃ a ∈ s, f a = some row
  · obtain ⟨a, ha, hrow⟩ := h
    have hother : ∀ b ∈ s, b ≠ a → ofOption (f b) (w b) row = 0 := by
      intro b _ hb
      refine Finsupp.notMem_support_iff.1 fun hmem => hb ?_
      exact hf b a row (mem_ofOption hmem) hrow
    have hone : ofOption (f a) (w a) row = w a := by simp [hrow, ofOption]
    rw [Finset.sum_eq_single_of_mem a ha hother, hone]
    exact hw a
  · refine .inl (Finset.sum_eq_zero fun a ha => Finsupp.notMem_support_iff.1 fun hmem => h ?_)
    exact ⟨a, ha, mem_ofOption hmem⟩

theorem mapSome (h : x.IsSet) {f : Val → Option Val}
    (hf : ∀ a b row, f a = some row → f b = some row → a = b) : (x.mapSome f).IsSet :=
  sum_ofOption hf h

theorem perKeySome (f : Val → Option Val) (x : ZSet) : (x.perKeySome f).IsSet := by
  refine sum_ofOption (fun k k' row hk hk' => ?_) fun _ => .inr rfl
  obtain ⟨v, -, rfl⟩ := Option.map_eq_some_iff.1 hk
  obtain ⟨v', -, hpair⟩ := Option.map_eq_some_iff.1 hk'
  exact (Val.pair_injective hpair).1.symm

end IsSet

end ZSet

section Rows

variable {E : Engine} {f : Expr} {row v : Val}

/-- A function that gets a reference gets one to the row. -/
theorem Engine.deref_argument (h : (argument f row).deref? = some v) : v = row := by
  unfold argument at h
  split at h
  · split at h
    · cases h
    · exact (Option.some.inj h).symm
  · exact (Option.some.inj h).symm

/-- The row stands at the same place of all that such a function returns. -/
theorem Expr.KeepsRow.exists_place (h : f.KeepsRow) : ∃ n : Nat, ∀ (E : Engine) row v,
    E.apply f [Engine.argument f row] = some v → ∃ vs, v = Val.tuple vs ∧ vs[n]? = some row := by
  obtain ⟨hrow⟩ := h
  rename_i p parts rowType tupleType ty
  obtain ⟨n, hn⟩ := List.mem_iff_getElem?.1 hrow
  refine ⟨n, fun E row v hv => ?_⟩
  obtain ⟨-, _, hv⟩ := Engine.apply_closure_iff.1 hv
  obtain ⟨vs, hvs, hv⟩ := (evals_head rfl).1 hv
  obtain rfl := Option.some.inj hv
  obtain ⟨w, _, hw, hderef⟩ := hvs.getElem? hn
  obtain ⟨a, ha, hderef⟩ := (evals_head_one rfl).1 hderef
  obtain ⟨hlookup, -⟩ := evals_var.1 ha
  obtain rfl : _ = a := by simpa using hlookup
  obtain rfl := Engine.deref_argument hderef
  exact ⟨vs, rfl, hw⟩

theorem Expr.KeepsRow.injective (h : f.KeepsRow) (row row' v : Val)
    (hv : E.apply f [Engine.argument f row] = some v)
    (hv' : E.apply f [Engine.argument f row'] = some v) : row = row' := by
  obtain ⟨n, hplace⟩ := h.exists_place
  obtain ⟨vs, rfl, hrow⟩ := hplace E row v hv
  obtain ⟨vs', htuple, hrow'⟩ := hplace E row' _ hv'
  cases htuple
  exact Option.some.inj (hrow.symm.trans hrow')

end Rows

namespace OperatorKind

/-- What an operator does to the weights of rows. -/
inductive Role where
  | table
  /-- Weight one for every row. -/
  | once
  /-- One row for every key. -/
  | grouped
  | filter
  /-- The rows that are read, with their weights. -/
  | passes
  | negates
  | adds
  | other
  deriving DecidableEq

def role : OperatorKind → Role
  | .source _ => .table
  | .distinct => .once
  | .aggregate _ | .windowAggregate .. => .grouped
  | .filter _ => .filter
  | .sink _ | .index _ | .noop => .passes
  | .negate => .negates
  | .sum => .adds
  | _ => .other

attribute [local simp] role

variable {kind : OperatorKind}

@[simp] theorem role_simplified (kind : OperatorKind) : kind.simplified.role = kind.role := by
  cases kind <;> rfl

theorem role_eq_table : kind.role = .table ↔ kind.isSource := by
  cases kind <;> simp [isSource]

theorem role_eq_once : kind.role = .once ↔ kind.isDistinct := by
  cases kind <;> simp [isDistinct]

theorem role_eq_negates : kind.role = .negates ↔ kind = .negate := by
  cases kind <;> simp

theorem role_eq_adds : kind.role = .adds ↔ kind = .sum := by
  cases kind <;> simp

/-- Maps, filters, joins and sums. -/
theorem role_of_isPullable (h : DistinctElision.isPullable kind) :
    kind.role = .filter ∨ kind.role = .adds ∨ kind.role = .other := by
  cases kind <;> simp_all [DistinctElision.isPullable]

theorem mark?_once (h : kind.role = .once) (inputs : List Bool) :
    kind.mark? inputs = some false := by
  cases kind <;> simp_all [mark?]

/-- Operators that put out what they read are marked as what they read. -/
theorem mark?_passes
    (h : kind.role = .filter ∨ kind.role = .passes ∨ kind.role = .negates) (inputs : List Bool) :
    kind.mark? inputs = some (inputs.any id) := by
  cases kind <;> simp_all [mark?]

theorem mark?_adds (h : kind.role = .adds ∨ kind.role = .other) (hwhole : kind.isWhole)
    (inputs : List Bool) : kind.mark? inputs = some true := by
  cases kind <;> simp_all [mark?, isWhole]

section Results

variable {E : Engine} {tables : Tables} {fits : Literal → Ty → Prop} {xs : List ZSet}

theorem isSet_results_grouped (h : kind.role = .once ∨ kind.role = .grouped) :
    (kind.results E tables xs).IsSet := by
  rcases xs with _ | ⟨x, _ | ⟨y, ys⟩⟩
  · cases kind <;> first | exact .zero | simp at h
  · cases kind with
    | distinct => exact .distinct x
    | aggregate | windowAggregate => exact .perKeySome _ x
    | _ => simp at h
  · cases kind <;> first | exact .zero | simp at h

theorem isSet_results_passes (h : kind.role = .filter ∨ kind.role = .passes)
    (hregular : kind.Regular fits) (hxs : ∀ x ∈ xs, x.IsSet) :
    (kind.results E tables xs).IsSet := by
  rcases xs with _ | ⟨x, _ | ⟨y, ys⟩⟩
  · cases kind <;> first | exact .zero | simp at h
  · have hx : x.IsSet := hxs x List.mem_cons_self
    cases kind with
    | filter => exact hx.keepRows _
    | index => exact hx.mapSome hregular.2.injective
    | sink | noop => exact hx
    | _ => simp at h
  · cases kind <;> first | exact .zero | simp at h

theorem isSet_results_negate (hxs : ∀ x ∈ xs, x.IsSet) :
    (-OperatorKind.negate.results E tables xs).IsSet := by
  rcases xs with _ | ⟨x, _ | ⟨y, ys⟩⟩
  · exact neg_zero (G := ZSet) ▸ .zero
  · exact (neg_neg x).symm ▸ hxs x List.mem_cons_self
  · exact neg_zero (G := ZSet) ▸ .zero

end Results

end OperatorKind

namespace Operator

/-- Filters that are not marked although what they read is a multiset, or is such a filter. -/
inductive Mismarked : Operator → Prop
  | reads {op i : Operator} : op.kind.role = .filter → op.isMultiset = false → i ∈ op.inputs →
      i.isMultiset → Mismarked op
  | through {op i : Operator} : op.kind.role = .filter → op.isMultiset = false → i ∈ op.inputs →
      Mismarked i → Mismarked op

/-- Operators that are not marked, and rightly so. -/
def Unmarked (op : Operator) : Prop := op.isMultiset = false ∧ ¬op.Mismarked

/-- No row is put out twice; a negation takes each away once. -/
structure OnceEach (E : Engine) (tables : Tables) (op : Operator) : Prop where
  rows : op.kind ≠ .negate → (op.results E tables).IsSet
  negated : op.kind = .negate → (-op.results E tables).IsSet

theorem onceEach_of_rows {E : Engine} {tables : Tables} {op : Operator}
    (hrole : op.kind.role ≠ .negates) (h : (op.results E tables).IsSet) : op.OnceEach E tables :=
  ⟨fun _ => h, fun hnegate => absurd (OperatorKind.role_eq_negates.2 hnegate) hrole⟩

/-- The mark agrees with the kind of the operator and with the marks of what it reads, filters
apart; nothing but sums reads negations. -/
structure Accounted (op : Operator) : Prop where
  once : op.kind.role = .once → op.isMultiset = false
  marked : op.kind.role = .adds ∨ op.kind.role = .other → op.isMultiset
  inputs : op.kind.role = .passes ∨ op.kind.role = .negates → op.isMultiset = false →
    ∀ i ∈ op.inputs, i.Unmarked
  negations : ∀ i ∈ op.inputs, i.kind.role = .negates → op.kind.role = .adds

/-- What stands for an operator is a negation only if the operator is one, and is not marked if the
operator is not. -/
structure Stays (op op' : Operator) : Prop where
  negation : op'.kind.role = .negates → op.kind.role = .negates
  unmarked : op.Unmarked → op'.Unmarked

variable {op op' : Operator} {r : Rebuild}

theorem not_mismarked (h : op.kind.role ≠ .filter) : ¬op.Mismarked := by
  rintro (⟨hfilter, -⟩ | ⟨hfilter, -⟩)
  · exact h hfilter
  · exact h hfilter

theorem Marked.inputs (h : op.Marked) (hrole : op.kind.role = .filter ∨ op.kind.role = .passes ∨
    op.kind.role = .negates) (hmark : op.isMultiset = false) :
    ∀ i ∈ op.inputs, i.isMultiset = false := by
  have hany := h _ (OperatorKind.mark?_passes hrole _)
  rw [hmark, eq_comm, List.any_map, List.any_eq_false] at hany
  simpa using hany

/-- A filter is rightly not marked if nothing that it reads is. -/
theorem unmarked_filter (hrole : op.kind.role = .filter) (hop : op.isMultiset = false) :
    op.Unmarked ↔ ∀ i ∈ op.inputs, i.Unmarked := by
  constructor
  · intro h i hi
    refine ⟨Bool.eq_false_iff.2 fun hmark => h.2 (.reads hrole hop hi hmark), fun hmis => h.2 ?_⟩
    exact .through hrole hop hi hmis
  · refine fun h => ⟨hop, ?_⟩
    rintro (⟨-, -, hi, hmark⟩ | ⟨-, -, hi, hmis⟩)
    · simp [(h _ hi).1] at hmark
    · exact (h _ hi).2 hmis

theorem unmarked_of_role (hrole : op.kind.role ≠ .filter) (hop : op.isMultiset = false) :
    op.Unmarked := ⟨hop, not_mismarked hrole⟩

/-- The operator over what stands for its inputs, of the same role and with the same mark. -/
theorem Accounted.kept (h : op.Accounted) (hrole : op'.kind.role = op.kind.role)
    (hmark : op'.isMultiset = op.isMultiset) (hinputs : op'.inputs = r.mappedInputs op)
    (hstays : ∀ i ∈ op.inputs, i.Stays (r.mapped i)) : op'.Accounted ∧ op.Stays op' := by
  have hmapped : ∀ {P : Operator → Prop}, (∀ i ∈ op.inputs, P (r.mapped i)) →
      ∀ i ∈ op'.inputs, P i := by
    intro P hP i hi
    rw [hinputs] at hi
    obtain ⟨j, hj, rfl⟩ := List.mem_map.1 hi
    exact hP j hj
  refine ⟨⟨?_, ?_, ?_, hmapped fun i hi hnegates => ?_⟩, ⟨?_, fun hop => ?_⟩⟩
  · rw [hrole, hmark]
    exact h.once
  · rw [hrole, hmark]
    exact h.marked
  · rw [hrole, hmark]
    exact fun hpasses hop => hmapped fun i hi => (hstays i hi).unmarked (h.inputs hpasses hop i hi)
  · rw [hrole]
    exact h.negations i hi ((hstays i hi).negation hnegates)
  · rw [hrole]
    exact fun hnegates => hnegates
  · have hop' : op'.isMultiset = false := hmark.trans hop.1
    by_cases hfilter : op.kind.role = .filter
    · refine (unmarked_filter (hrole.trans hfilter) hop').2 (hmapped fun i hi => ?_)
      exact (hstays i hi).unmarked ((unmarked_filter hfilter hop.1).1 hop i hi)
    · exact unmarked_of_role (hrole ▸ hfilter) hop'

/-- An operator that is moved below distincts keeps its mark. -/
theorem Accounted.moved (h : op.Accounted) (hkind : op'.kind = op.kind)
    (hmark : op'.isMultiset = op.isMultiset) (hpull : DistinctElision.isPullable op.kind)
    (hinputs : ∀ i ∈ op'.inputs, i.kind.role ≠ .negates) :
    op'.Accounted ∧ op'.kind.role ≠ .negates := by
  have hrole := OperatorKind.role_of_isPullable hpull
  rw [← hkind] at hrole
  refine ⟨⟨fun honce => ?_, ?_, fun hpasses => ?_, ?_⟩, fun hnegates => ?_⟩
  · simp [honce] at hrole
  · rw [hkind, hmark]
    exact h.marked
  · rcases hpasses with hpasses | hpasses <;> simp [hpasses] at hrole
  · exact fun i hi hnegates => absurd hnegates (hinputs i hi)
  · simp [hnegates] at hrole

theorem stays_distinct (hrole : op'.kind.role = .once) (hmark : op'.isMultiset = false) :
    op.Stays op' where
  negation hnegates := by simp [hrole] at hnegates
  unmarked _ := unmarked_of_role (by simp [hrole]) hmark

/-- A distinct over anything but a negation. -/
theorem accounted_distinct (hrole : op.kind.role = .once) (hmark : op.isMultiset = false)
    (hinputs : ∀ i ∈ op.inputs, i.kind.role ≠ .negates) : op.Accounted where
  once _ := hmark
  marked := by simp [hrole]
  inputs := by simp [hrole]
  negations i hi hnegates := absurd hnegates (hinputs i hi)

/-- What is below distincts is no negation. -/
theorem not_negates_under {ds inner : List Operator} (hds : ∀ d ∈ ds, d.Accounted)
    (h : inputsUnder? (·.isDistinct) ds = some inner) : ∀ i ∈ inner, i.kind.role ≠ .negates := by
  intro i hi hnegates
  obtain ⟨d, hd, hdistinct, hinputs⟩ := forall₂_mem (inputsUnder?_eq_some h).flip hi
  have honce : d.kind.role = .once := OperatorKind.role_eq_once.2 hdistinct
  have hadds := (hds d hd).negations i (by simp [hinputs]) hnegates
  simp [honce] at hadds

end Operator

section Passes

open Operator (Accounted Stays)

variable {c : Circuit} {ctx : Context}

/-- Moving distincts loses the mark of no operator but filters. -/
theorem DistinctElision.preserves_marks (hc : c.WellFormed ctx)
    (h : ∀ op ∈ c.operators, op.Accounted) :
    c.Preserves ctx Visited (Rebuild.Keeps Accounted Stays) := by
  refine hc.preserves_keeps fun Sem done op rest r ctx' emitted new hsplit hsound hmembers hstays
    hvisited => ?_
  have hop : op.Accounted := h op (by simp [hsplit])
  cases hvisited with
  | kept hover =>
    have hkept := hop.kept (congrArg OperatorKind.role hover.kind) hover.isMultiset hover.inputs
      hstays
    exact ⟨List.forall_mem_singleton.2 hkept.1, hkept.2⟩
  | @collapsed i hkind hi hdistinct =>
    have hmem := (hsound.stands_input hc hsplit (i := i) (by simp [hi])).mem
    have hrole := OperatorKind.role_eq_once.2 hdistinct
    exact ⟨List.forall_mem_nil _, Operator.stays_distinct hrole ((hmembers _ hmem).once hrole)⟩
  | @stripped i copy _ inner hkind hi hpull hinner hcopy hinputs hmark hover =>
    have hmem := (hsound.stands_input hc hsplit (i := i) (by simp [hi])).mem
    have honce : op.kind.role = .once := by rw [hkind]; rfl
    have hrole : new.kind.role = .once := by rw [hover.kind, honce]
    have hmark' : new.isMultiset = false := by rw [hover.isMultiset, hop.once honce]
    have hunder := Operator.not_negates_under
      (fun d hd => hmembers d (hsound.wellFormed.earlier.mem hmem hd)) hinner
    obtain ⟨hcopied, hnegates⟩ :=
      (hmembers _ hmem).moved hcopy hmark hpull (by rwa [hinputs])
    have hdistinct := Operator.accounted_distinct hrole hmark'
      (by simpa [hover.inputs] using hnegates)
    exact ⟨by simpa using ⟨hcopied, hdistinct⟩, Operator.stays_distinct hrole hmark'⟩
  | @pushed moved _ inner hpull hinner hover hnew hinputs hmark =>
    have hrole : new.kind.role = .once := by rw [hnew]; rfl
    have hunder := Operator.not_negates_under
      (fun d hd => hmembers d (hsound.readable_mappedInputs hc hsplit d hd).1) hinner
    obtain ⟨hmoved, hnegates⟩ :=
      hop.moved hover.kind hover.isMultiset hpull (by rwa [hover.inputs])
    have hdistinct := Operator.accounted_distinct hrole hmark (by simpa [hinputs] using hnegates)
    exact ⟨by simpa using ⟨hmoved, hdistinct⟩, Operator.stays_distinct hrole hmark⟩

theorem Functions.preserves_marks (hc : c.WellFormed ctx) (h : ∀ op ∈ c.operators, op.Accounted) :
    c.Preserves ctx Visited (Rebuild.Keeps Accounted Stays) := by
  refine hc.preserves_keeps fun Sem done op rest r ctx' emitted new hsplit hsound hmembers hstays
    hvisited => ?_
  have hop : op.Accounted := h op (by simp [hsplit])
  cases hvisited with
  | simplified hkind _ _ hmark hinputs =>
    have hkept := hop.kept (by rw [hkind, OperatorKind.role_simplified]) hmark hinputs hstays
    exact ⟨List.forall_mem_singleton.2 hkept.1, hkept.2⟩

end Passes

namespace Circuit

variable {c : Circuit} {ctx : Context} {fits : Literal → Ty → Prop} {constants : Prop}
  {E : Engine} {tables : Tables}

/-- Where marks are accounted for, an operator that is rightly not marked puts out no row twice. -/
theorem Standard.onceEach (h : c.Standard fits constants ctx)
    (haccounted : ∀ op ∈ c.operators, op.Accounted)
    (hsources : ∀ op ∈ c.sources, op.isMultiset = false → (op.results E tables).IsSet) :
    ∀ op ∈ c.operators, op.Unmarked → op.OnceEach E tables := by
  refine h.wellFormed.earlier.induction fun op hop ih hunmarked => ?_
  have haccount := haccounted op hop
  have hregular := (h.kinds op hop).regular
  -- Nothing but a sum reads negations, so all else reads sets.
  have hsets : (∀ i ∈ op.inputs, i.Unmarked) → op.kind.role ≠ .adds →
      ∀ x ∈ op.inputs.map (Operator.results E tables), x.IsSet := by
    intro hinputs hadds
    refine List.forall_mem_map.2 fun i hi => (ih i hi (hinputs i hi)).rows fun hnegate => ?_
    exact hadds (haccount.negations i hi (OperatorKind.role_eq_negates.2 hnegate))
  have hpassed : op.kind.role = .filter ∨ op.kind.role = .passes →
      (∀ i ∈ op.inputs, i.Unmarked) → op.OnceEach E tables := by
    intro hpasses hinputs
    have hrole : op.kind.role ≠ .negates ∧ op.kind.role ≠ .adds := by
      rcases hpasses with hrole | hrole <;> simp [hrole]
    apply Operator.onceEach_of_rows hrole.1
    rw [op.results_eq]
    exact OperatorKind.isSet_results_passes hpasses hregular (hsets hinputs hrole.2)
  cases hrole : op.kind.role with
  | table =>
    apply Operator.onceEach_of_rows (by simp [hrole])
    apply hsources op _ hunmarked.1
    rw [h.wellFormed.sectioned.sources_eq]
    exact List.mem_filter.2 ⟨hop, OperatorKind.role_eq_table.1 hrole⟩
  | once | grouped =>
    apply Operator.onceEach_of_rows (by simp [hrole])
    rw [op.results_eq]
    exact OperatorKind.isSet_results_grouped (by simp [hrole])
  | filter =>
    exact hpassed (.inl hrole) ((Operator.unmarked_filter hrole hunmarked.1).1 hunmarked)
  | passes => exact hpassed (.inr hrole) (haccount.inputs (.inl hrole) hunmarked.1)
  | negates =>
    have hinputs := haccount.inputs (.inr hrole) hunmarked.1
    have hnegate := OperatorKind.role_eq_negates.1 hrole
    refine ⟨fun hne => absurd hnegate hne, fun _ => ?_⟩
    rw [op.results_eq, hnegate]
    exact OperatorKind.isSet_results_negate (hsets hinputs (by simp [hrole]))
  | adds | other =>
    have hmarked := haccount.marked (by simp [hrole])
    rw [hunmarked.1] at hmarked
    cases hmarked

/-- In a lowered circuit a filter is marked when what it reads is. -/
theorem Lowered.not_mismarked (h : c.Lowered fits constants ctx) :
    ∀ op ∈ c.operators, ¬op.Mismarked := by
  refine h.wellFormed.earlier.induction fun op hop ih hmis => ?_
  cases hmis with
  | reads hrole hmark hi hinput =>
    have hinputs := (h.lowered op hop).marked.inputs (.inl hrole) hmark _ hi
    rw [hinputs] at hinput
    cases hinput
  | through _ _ hi hinput => exact ih _ hi hinput

theorem Lowered.accounted (h : c.Lowered fits constants ctx) :
    ∀ op ∈ c.operators, op.Accounted := by
  intro op hop
  have hlowered := h.lowered op hop
  refine ⟨fun hrole => ?_, fun hrole => ?_, fun hrole hmark i hi => ?_, fun i hi hrole => ?_⟩
  · exact hlowered.marked _ (OperatorKind.mark?_once hrole _)
  · exact hlowered.marked _ (OperatorKind.mark?_adds hrole hlowered.whole _)
  · have hinputs := hlowered.marked.inputs (.inr hrole) hmark i hi
    exact ⟨hinputs, h.not_mismarked i (h.wellFormed.earlier.mem hop hi)⟩
  · have hsum := hlowered.negations i hi (OperatorKind.role_eq_negates.1 hrole)
    exact OperatorKind.role_eq_adds.2 hsum

/-- The passes over whole relations leave every mark accounted for. -/
theorem Standard.ends_pipeline_accounted (hfits : Admits fits) (h : c.Standard fits constants ctx)
    (hwhole : ∀ op ∈ c.operators, op.kind.isWhole)
    (hrows : ∀ d ∈ c.operators, d.kind = .distinct → d.ty.zsetElement?.isSome)
    (haccounted : ∀ op ∈ c.operators, op.Accounted) {config : OptimizerConfig}
    (hconfig : config.incrementalize = false) :
    Compile.Ends (c.optimize config.pipeline) ctx fun out _ =>
      ∀ op ∈ out.1.operators, op.Accounted := by
  have helided := h.wellFormed.ends_elideDistincts_inv (keeps_start c) hrows
    (DistinctElision.preserves_marks h.wellFormed haccounted)
  apply h.ends_pipeline_forall hwhole hrows haccounted _ _ hconfig
  · exact (helided.mono fun _ _ hnew => hnew.members).yields
  · intro c' ctx' h' haccounted'
    have hnormal := h'.wellFormed.ends_normalizeFunctions_inv (keeps_start c') hfits
      (fun op hop => (h'.kinds op hop).regular)
      (Functions.preserves_marks h'.wellFormed haccounted')
    exact hnormal.mono fun _ _ hnew => hnew.members

end Circuit

namespace Plan

variable {p : Plan} {c : Circuit} {ctx ctx' : Context} {E : Engine} {tables : Tables}
  {fits : Literal → Ty → Prop}

/-- No table with a key holds a row twice. -/
def Keyed (p : Plan) (tables : Tables) : Prop :=
  ∀ t ∈ p.tables, t.primaryKey ≠ [] → (tables t.name).IsSet

theorem Implements.isSet_sources (h : Implements fits p c ctx) (hkeys : p.Keyed tables) :
    ∀ op ∈ c.sources, op.isMultiset = false → (op.results E tables).IsSet := by
  intro op hop hmark
  obtain ⟨t, ht, hkind, hkey⟩ := forall₂_mem h.keys.flip hop
  rw [op.results_eq, hkind]
  refine hkeys t ht fun hnone => ?_
  simp [hkey, hnone] at hmark

/-- In the circuit of a plan over tables that keep their keys, an operator that is not marked puts
out no row twice, and a negation takes none away twice. The passes over whole relations keep this,
except for filters that they move over a multiset. -/
theorem marks_hold (hkeys : p.Keyed tables) (h : p.circuit ctx = (.ok c, ctx')) :
    (∀ op ∈ c.operators, op.isMultiset = false → op.OnceEach E tables) ∧
    ∀ config : OptimizerConfig, config.incrementalize = false →
      Compile.Ends (c.optimize config.pipeline) ctx' fun out _ =>
        ∀ op ∈ out.1.operators, op.isMultiset = false → ¬op.Mismarked → op.OnceEach E tables := by
  have himplements := implements_circuit admits_any (fun _ _ _ => trivial) h
  have hlowered := himplements.toLowered
  have hsources := himplements.isSet_sources (E := E) hkeys
  have hwhole : ∀ op ∈ c.operators, op.kind.isWhole :=
    fun op hop => (himplements.lowered op hop).whole
  have hrows : ∀ d ∈ c.operators, d.kind = .distinct → d.ty.zsetElement?.isSome :=
    fun d hd hkind => ((himplements.lowered d hd).distinct hkind).1
  constructor
  · intro op hop hmark
    exact himplements.standard.onceEach hlowered.accounted hsources op hop
      ⟨hmark, hlowered.not_mismarked op hop⟩
  · intro config hconfig
    have haccounted := himplements.standard.ends_pipeline_accounted admits_any hwhole hrows
      hlowered.accounted hconfig
    refine ((himplements.standard.ends_pipeline admits_any hwhole hrows config).and
      haccounted.yields).mono fun out ctx'' hout => ?_
    obtain ⟨⟨hstandard, hends⟩, haccounted⟩ := hout
    intro op hop hmark hmis
    exact hstandard.onceEach haccounted (hends.sources ▸ hsources) op hop ⟨hmark, hmis⟩

theorem keyed_accounts : accounts.Keyed accountRows := by
  simp only [Keyed, accounts, List.forall_mem_cons]
  exact ⟨fun _ => .single _, fun hkey => absurd rfl hkey, List.forall_mem_nil _⟩

theorem accounts_marks_hold : ∃ c ctx, accounts.circuit Context.empty = (.ok c, ctx) ∧
    accounts.Keyed accountRows ∧
    (∀ op ∈ c.operators, op.isMultiset = false → op.OnceEach .summing accountRows) ∧
    ∀ config : OptimizerConfig, config.incrementalize = false →
      Compile.Ends (c.optimize config.pipeline) ctx fun out _ => ∀ op ∈ out.1.operators,
        op.isMultiset = false → ¬op.Mismarked → op.OnceEach .summing accountRows := by
  obtain ⟨c, ctx, h⟩ := lowers_accounts
  exact ⟨c, ctx, h, keyed_accounts, marks_hold keyed_accounts h⟩

/-- A view of readings, which have no key. -/
def readings (view : Rel) : Plan :=
  ⟨"readings", [⟨"Reading", [⟨"value", Ty.int32⟩], []⟩], [⟨"Made", view⟩]⟩

def reading : Val := Val.tuple [.atom (.int .w32 7)]

/-- The same reading, made twice. -/
noncomputable def readingRows : Tables := fun _ => Finsupp.single reading 2

def readingSource : Operator :=
  ⟨0, "stream0", .source "Reading", [], Ty.zset (Ty.tuple [Ty.int32]), true⟩

/-- The readings that are taken away. -/
def readingsTaken : Operator :=
  let rows : Ty := Ty.zset (Ty.tuple [Ty.int32])
  let distinct : Operator := ⟨2, "stream2", .distinct, [readingSource], rows, false⟩
  ⟨3, "stream3", .negate, [distinct], rows, false⟩

theorem negations_readings :
    ((readings (.minus [.scan "Reading", .scan "Reading"] false)).circuit Context.empty).1.map
      (fun c => c.operators.filter fun op => op.kind.role = .negates) = .ok [readingsTaken] := by
  cbv

/-- All readings, by a filter that was moved below a distinct. -/
def readingsMoved : Operator :=
  let all : Expr := Expr.closure [Lower.rowParam (Ty.tuple [Ty.int32])] (Expr.bool true)
  ⟨4, "stream2", .filter all, [readingSource], Ty.zset (Ty.tuple [Ty.int32]), false⟩

theorem filters_readings :
    ((readings (.filter (.distinct (.scan "Reading")) (.literal (.bool true) Ty.bool))).compile
      { simplifyFunctions := false } Context.empty).1.map
      (fun out => out.1.operators.filter fun op => op.kind.role = .filter) =
        .ok [readingsMoved] := by
  cbv

/-- Two operators that are not marked: a negation puts out weight minus one, and a filter that was
moved puts out weight two. -/
theorem readings_marks_broken :
    Compile.Ends (readings (.minus [.scan "Reading", .scan "Reading"] false)).circuit Context.empty
      (fun c _ => ∃ op ∈ c.operators,
        op.isMultiset = false ∧ op.results .summing readingRows reading = -1) ∧
    Compile.Ends
      ((readings (.filter (.distinct (.scan "Reading")) (.literal (.bool true) Ty.bool))).compile
        { simplifyFunctions := false }) Context.empty
      fun out _ => ∃ op ∈ out.1.operators,
        op.isMultiset = false ∧ op.results .summing readingRows reading = 2 := by
  constructor
  · refine (Compile.ends_of_map negations_readings).mono fun c _ hc => ⟨readingsTaken, ?_, rfl, ?_⟩
    · exact List.mem_of_mem_filter (hc ▸ List.mem_cons_self)
    · change -(ZSet.distinct (readingRows "Reading")) reading = -1
      simp [readingRows]
  · refine (Compile.ends_of_map filters_readings).mono fun c _ hc => ⟨readingsMoved, ?_, rfl, ?_⟩
    · exact List.mem_of_mem_filter (hc ▸ List.mem_cons_self)
    · have htrue : (Engine.meaning .summing).keep (Expr.closure
          [Lower.rowParam (Ty.tuple [Ty.int32])] (Expr.bool true)) reading :=
        Engine.apply_closure_iff.2 ⟨rfl, 0, evals_bool⟩
      change ZSet.keepRows _ (readingRows "Reading") reading = 2
      rw [ZSet.keepRows_apply, if_pos htrue]
      simp [readingRows]

end Plan

end ViewCircuit
