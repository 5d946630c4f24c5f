import ViewCircuit.Proofs.Rebuild
import ViewCircuit.Proofs.Stream

/-! Moving distincts towards the sinks. Every relation stays what it is, unless rows of a difference
with negative weights are taken without the distinct above it. -/
namespace ViewCircuit

open List (Forall₂)

namespace OperatorKind

/-- Operators that add up the weights of several rows. -/
def gathers : OperatorKind → Bool
  | .map _ | .sum => true
  | _ => false

/-- Operators that put out no negative weights when they read none. -/
def keepsSign : OperatorKind → Bool
  | .map _ | .filter _ | .index _ | .join _ | .sum | .noop | .sink _ => true
  | _ => false

variable {M : Meaning} {tables : Tables} {kind : OperatorKind}

theorem keepsSign_of_isPullable (h : DistinctElision.isPullable kind) : kind.keepsSign := by
  cases kind <;> first | rfl | cases h

theorem nonneg_contents (h : kind.keepsSign) {xs : List ZSet} (hxs : ∀ x ∈ xs, x.Nonneg) :
    (kind.contents M tables xs).Nonneg := by
  cases kind with
  | map f | index f =>
    match xs with
    | [] | _ :: _ :: _ => exact fun _ => le_rfl
    | [x] => exact (hxs x (by simp)).mapRows _
  | filter p =>
    match xs with
    | [] | _ :: _ :: _ => exact fun _ => le_rfl
    | [x] => exact (hxs x (by simp)).keepRows _
  | join f =>
    match xs with
    | [] | [_] | _ :: _ :: _ :: _ => exact fun _ => le_rfl
    | [x, y] => exact (hxs x (by simp)).join (hxs y (by simp)) _
  | sum => exact .listSum hxs
  | noop | sink =>
    match xs with
    | [] | _ :: _ :: _ => exact fun _ => le_rfl
    | [x] => exact hxs x (by simp)
  | _ => cases h

/-- Distincts below an operator are lost in the one that follows it. -/
theorem distinct_contents_distinct (hpull : DistinctElision.isPullable kind)
    (hjoin : ∀ f, kind ≠ .join f) {xs : List ZSet}
    (hxs : kind.gathers → ∀ x ∈ xs, x.Nonneg) :
    (kind.contents M tables (xs.map ZSet.distinct)).distinct =
      (kind.contents M tables xs).distinct := by
  cases kind with
  | map f =>
    match xs with
    | [] | _ :: _ :: _ => rfl
    | [x] => exact ZSet.distinct_mapRows_distinct (hxs rfl x (by simp)) _
  | filter p =>
    match xs with
    | [] | _ :: _ :: _ => rfl
    | [x] =>
      have hkeep := congrArg ZSet.distinct (ZSet.distinct_keepRows (M.keep p) x)
      rw [ZSet.distinct_distinct] at hkeep
      exact hkeep.symm
  | sum => exact ZSet.distinct_sum_distinct (hxs rfl)
  | join f => exact absurd rfl (hjoin f)
  | _ => cases hpull

end OperatorKind

namespace Operator

/-- The stream is read by a distinct that the operator shows through filters and distincts only. -/
inductive Beneath (x : Operator) : Operator → Prop
  | distinct {op : Operator} : op.kind = .distinct → op.inputs = [x] → Beneath x op
  | again {op i : Operator} : op.kind = .distinct → op.inputs = [i] → Beneath x i → Beneath x op
  | filter {op i : Operator} {p : Expr} : op.kind = .filter p → op.inputs = [i] → Beneath x i →
      Beneath x op

/-- A sum that takes rows away. -/
def IsDifference (op : Operator) : Prop := op.kind = .sum ∧ ∃ i ∈ op.inputs, i.kind = .negate

theorem ends_duplicate {op : Operator} {inputs : List Operator} {ctx : Context}
    (hty : inputs.map Operator.ty = op.inputs.map Operator.ty) :
    Compile.Ends (op.duplicate inputs) ctx (Made op.kind inputs op.ty ctx) := by
  unfold duplicate
  rw [checkInputs_eq_ok hty, Compile.ends_bind, Compile.ends_ofExcept]
  exact ⟨(), rfl, _, _, rfl, ⟨rfl, rfl, rfl⟩, rfl, rfl, rfl⟩

end Operator

namespace Circuit

/-- Distincts read rows, and rows of negative weight in differences only. -/
structure DistinctsReadRows (M : Meaning) (tables : Tables) (c : Circuit) : Prop where
  rows : ∀ d ∈ c.operators, d.kind = .distinct → d.ty.zsetElement?.isSome
  nonneg : ∀ d ∈ c.operators, d.kind = .distinct → ∀ i ∈ d.inputs,
    i.IsDifference ∨ (i.contents M tables).Nonneg

/-- Where a distinct reads a map or a sum over nothing but distincts, the differences below those
have no negative weights. -/
def DifferencesCovered (M : Meaning) (tables : Tables) (c : Circuit) : Prop :=
  ∀ d ∈ c.operators, d.kind = .distinct → ∀ i ∈ d.inputs, i.kind.gathers →
    (∀ j ∈ i.inputs, ∃ x, Operator.Beneath x j) →
    ∀ j ∈ i.inputs, ∀ x : Operator, x.Beneath j → x.IsDifference → (x.contents M tables).Nonneg

end Circuit

section Elided

variable (M : Meaning) (tables : Tables)

/-- What a distinct that stands for an operator reads: no negative weights, unless a difference
below the operator has them. -/
structure Settles (op op' : Operator) : Prop where
  settled : ∃ x, Operator.Beneath x op
  inner : (∀ x : Operator, x.Beneath op → x.IsDifference → (x.contents M tables).Nonneg) →
    ∀ y ∈ op'.inputs, (y.contents M tables).Nonneg

/-- The operator holds the same relation as another one. -/
structure SameRelation (op op' : Operator) : Prop where
  contents : op'.contents M tables = op.contents M tables
  settles : op'.kind.isDistinct → Settles M tables op op'

/-- The operator is a distinct, or it is of the same kind over the same relations. -/
structure Elided (op op' : Operator) : Prop extends SameRelation M tables op op' where
  inputs : op'.kind.isDistinct = false →
    op'.kind = op.kind ∧ Forall₂ (SameRelation M tables) op.inputs op'.inputs

end Elided

variable {M : Meaning} {tables : Tables} {c : Circuit} {ctx₀ ctx : Context}
  {done rest : List Operator} {r : Rebuild} {op : Operator}

theorem isDistinct_iff {kind : OperatorKind} : kind.isDistinct ↔ kind = .distinct := by
  cases kind <;> simp [OperatorKind.isDistinct]

/-- Distincts hold the distinct rows of what they read. -/
theorem contents_under_distinct (M : Meaning) (tables : Tables) {ops inner : List Operator}
    (h : Forall₂ (fun op i => op.kind.isDistinct ∧ op.inputs = [i]) ops inner) :
    ops.map (Operator.contents M tables) =
      (inner.map (Operator.contents M tables)).map ZSet.distinct := by
  induction h with
  | nil => rfl
  | @cons op i _ _ hop _ ih =>
    have hcontents : op.contents M tables = (i.contents M tables).distinct := by
      rw [Operator.contents_eq, isDistinct_iff.1 hop.1, hop.2]
      rfl
    rw [List.map_cons, List.map_cons, List.map_cons, hcontents, ih]

/-- Operators that distincts stand for show a distinct, and what those distincts read has no
negative weights unless a difference below has them. -/
theorem settled_under {js ops inner : List Operator} (hops : Forall₂ (SameRelation M tables) js ops)
    (hunder : Forall₂ (fun op i => op.kind.isDistinct ∧ op.inputs = [i]) ops inner) :
    (∀ j ∈ js, ∃ x, Operator.Beneath x j) ∧
      ((∀ j ∈ js, ∀ x : Operator, x.Beneath j → x.IsDifference → (x.contents M tables).Nonneg) →
        ∀ y ∈ inner, (y.contents M tables).Nonneg) := by
  induction hops generalizing inner with
  | nil =>
    cases hunder
    simp
  | cons hsame _ ih =>
    cases hunder with
    | cons hop hrest =>
      have hsettles := hsame.settles hop.1
      obtain ⟨hsettled, hnonneg⟩ := ih hrest
      refine ⟨List.forall_mem_cons.2 ⟨hsettles.settled, hsettled⟩, fun hall => ?_⟩
      obtain ⟨hhead, htail⟩ := List.forall_mem_cons.1 hall
      exact List.forall_mem_cons.2
        ⟨hsettles.inner hhead _ (by simp [hop.2]), hnonneg htail⟩

/-- Under distincts of one type, inner streams may be read instead. -/
theorem Rebuild.Grown.under_distinct {seen ops inner : List Operator}
    (h : Grown c ctx₀ seen r ctx) (hread : ∀ i ∈ ops, r.Readable i)
    (hunder : Forall₂ (fun op i => op.kind.isDistinct ∧ op.inputs = [i]) ops inner) :
    (∀ i ∈ inner, r.Readable i) ∧ inner.map Operator.ty = ops.map Operator.ty := by
  induction hunder with
  | nil => simp
  | @cons op i _ _ hop _ ih =>
    obtain ⟨hreads, htys⟩ := ih fun i hi => hread i (List.mem_cons_of_mem _ hi)
    have hmem := (hread op List.mem_cons_self).1
    have hchecked := h.wellFormed.checked op hmem
    obtain ⟨j, hj, hjty⟩ := OperatorKind.Typed.keeps_inputs hchecked
      (by rw [isDistinct_iff.1 hop.1]; rfl)
    obtain rfl : i = j := by simpa using hop.2.symm.trans hj
    refine ⟨?_, by simp [hjty, htys]⟩
    intro x hx
    rcases List.mem_cons.1 hx with rfl | hx
    · exact h.readable_input hmem (by simp [hop.2])
    · exact hreads x hx

/-- What shows a distinct is a collection of rows, so it is no input of a join. -/
theorem no_join_beneath (hc : c.WellFormed ctx₀) (hrows : c.DistinctsReadRows M tables)
    (hop : op ∈ c.operators) {f : Expr} {i x : Operator} (hkind : op.kind = .join f)
    (hi : i ∈ op.inputs) (hx : x.Beneath i) : False := by
  have hmem := hc.earlier.mem hop hi
  have hrow : i.ty.zsetElement?.isSome := by
    cases hx with
    | distinct hd _ | again hd _ _ => exact hrows.rows i hmem hd
    | filter hf _ _ =>
      have hchecked := hc.checked i hmem
      rw [Operator.Checked, hf] at hchecked
      exact hchecked.filter_rows
  have hchecked := hc.checked op hop
  rw [Operator.Checked, hkind] at hchecked
  have hindexed := hchecked.join_indexed i.ty (List.mem_map_of_mem hi)
  unfold Ty.zsetElement? at hrow
  unfold Ty.indexedParts? at hindexed
  split at hrow
  · rename_i hk
    simp [hk] at hindexed
  · cases hrow

namespace DistinctElision

theorem visit_of_isSink {op : Operator} (h : op.kind.isSink) (r : Rebuild) :
    visit r op = r.copy op := by
  unfold visit
  cases hk : op.kind <;> simp_all [OperatorKind.isSink]

/-- What stands for an operator after its visit: the operator over what stands for its inputs, the
distinct that a distinct reads, a distinct over a copy of what it reads, or a distinct over the
operator, both over what is below the distincts that it read. -/
inductive Outcome (r : Rebuild) (op : Operator) : Operator → Prop
  | kept {op' : Operator} : op'.kind = op.kind → op'.inputs = r.mappedInputs op → Outcome r op op'
  | collapsed {i : Operator} : op.kind = .distinct → op.inputs = [i] →
      (r.mapped i).kind.isDistinct → Outcome r op (r.mapped i)
  | stripped {i copy op' : Operator} {inner : List Operator} : op.kind = .distinct →
      op.inputs = [i] → isPullable (r.mapped i).kind →
      Forall₂ (fun op i => op.kind.isDistinct ∧ op.inputs = [i]) (r.mapped i).inputs inner →
      copy.kind = (r.mapped i).kind → copy.inputs = inner → op'.kind = .distinct →
      op'.inputs = [copy] → Outcome r op op'
  | pushed {moved op' : Operator} {inner : List Operator} :
      ((∃ p, op.kind = .filter p) ∨ ∃ f, op.kind = .join f) →
      Forall₂ (fun op i => op.kind.isDistinct ∧ op.inputs = [i]) (r.mappedInputs op) inner →
      moved.kind = op.kind → moved.inputs = inner → op'.kind = .distinct → op'.inputs = [moved] →
      Outcome r op op'

variable {Sem : Operator → Operator → Prop} (hc : c.WellFormed ctx₀)
  (hsplit : c.operators = done ++ op :: rest) (h : Rebuild.Sound c ctx₀ Sem done done r ctx)
  (hsem : ∀ op', Outcome r op op' → Sem op op')

include hc hsplit h hsem

theorem ends_copy : Compile.Ends (r.copy op) ctx
    (Rebuild.Sound c ctx₀ Sem (done ++ [op]) (done ++ [op])) :=
  h.ends_copy hc hsplit fun op' hkind hinputs => hsem op' (.kept hkind hinputs)

/-- A distinct over an operator that reads distincts only: a copy of that operator reads what is
below them. -/
theorem ends_strip {i : Operator} {inner : List Operator} (hkind : op.kind = .distinct)
    (hi : op.inputs = [i]) (hpull : isPullable (r.mapped i).kind)
    (hunder : Forall₂ (fun op i => op.kind.isDistinct ∧ op.inputs = [i]) (r.mapped i).inputs
      inner) :
    Compile.Ends (do
      let stripped ← (r.mapped i).duplicate inner
      let r ← Compile.ofExcept (r.emit stripped)
      let result ← op.withInputs [stripped]
      Compile.ofExcept (r.emitAs op result)) ctx
      (Rebuild.Sound c ctx₀ Sem (done ++ [op]) (done ++ [op])) := by
  have hstands := h.stands_input hc hsplit (i := i) (by simp [hi])
  have hnosink : (r.mapped i).kind.isSink = false :=
    (h.readable_mapped hc hsplit (by simp [hi])).2
  obtain ⟨hread, htys⟩ := h.toGrown.under_distinct
    (fun j hj => h.toGrown.readable_input hstands.mem hj) hunder
  rw [Compile.ends_bind]
  refine (Operator.ends_duplicate htys).mono fun stripped ctx₁ hmade => ?_
  have hchecked : stripped.Checked := hmade.checked (htys ▸ h.wellFormed.checked _ hstands.mem)
  obtain ⟨hemit, hsound⟩ := h.emitNew hmade.toNew hchecked (by rw [hmade.inputs]; exact hread)
    (by rw [hmade.kind, hnosink])
  rw [Compile.ends_bind, Compile.ends_ofExcept, hemit]
  refine ⟨_, rfl, ?_⟩
  have hreads : ∀ y ∈ [stripped], (r.extend stripped).Readable y := by
    simpa using Rebuild.readable_extend_self (by rw [hmade.kind, hnosink])
  have htys' : [stripped].map Operator.ty = op.inputs.map Operator.ty := by
    simp [hi, hmade.ty, hstands.ty]
  rw [Compile.ends_bind]
  refine (hsound.toGrown.ends_withInputs hc hsplit htys' hreads).mono fun result ctx₂ hre => ?_
  rw [Compile.ends_ofExcept]
  exact hsound.emitAs_kept hc hsplit hre htys' hreads (hsem result
    (.stripped hkind hi hpull hunder hmade.kind hmade.inputs (hre.kind.trans hkind) hre.inputs))

theorem ends_visitDistinct (hkind : op.kind = .distinct) :
    Compile.Ends (visitDistinct r op) ctx
      (Rebuild.Sound c ctx₀ Sem (done ++ [op]) (done ++ [op])) := by
  have hop : op ∈ c.operators := by simp [hsplit]
  have hnosink : op.kind.isSink = false := by rw [hkind]; rfl
  obtain ⟨i, hi, hty⟩ := OperatorKind.Typed.keeps_inputs (hc.checked op hop) (by rw [hkind]; rfl)
  have hinput : op.input?.map r.mapped = some (r.mapped i) := by
    rw [Operator.input?_eq_some.2 hi]
    rfl
  unfold visitDistinct
  rw [hinput]
  dsimp only
  split
  · rename_i hdistinct
    have hstands := h.stands_input hc hsplit (i := i) (by simp [hi])
    have hread := h.readable_mapped hc hsplit (i := i) (by simp [hi])
    rw [Compile.ends_pure]
    exact h.stand hc hsplit (fun _ hx => List.mem_append_left _ hx)
      ⟨hstands.mem, hstands.ty.trans hty, by rw [hread.2, hnosink],
        fun hs => by simp [hnosink] at hs, hsem _ (.collapsed hkind hi hdistinct)⟩ hnosink
  · split
    · exact ends_copy hc hsplit h hsem
    · rename_i inner hinner
      split at hinner
      · rename_i hpull
        exact ends_strip hc hsplit h hsem hkind hi hpull (inputsUnder?_eq_some hinner)
      · cases hinner

/-- A filter or join of distincts is a distinct of the filter or join. -/
theorem ends_pushBelow {inner : List Operator}
    (hkind : (∃ p, op.kind = .filter p) ∨ ∃ f, op.kind = .join f)
    (hunder : Forall₂ (fun op i => op.kind.isDistinct ∧ op.inputs = [i]) (r.mappedInputs op)
      inner) :
    Compile.Ends (pushBelow r op inner) ctx
      (Rebuild.Sound c ctx₀ Sem (done ++ [op]) (done ++ [op])) := by
  have hnosink : op.kind.isSink = false := by
    rcases hkind with ⟨_, hkind⟩ | ⟨_, hkind⟩ <;> rw [hkind] <;> rfl
  obtain ⟨hread, htys⟩ := h.toGrown.under_distinct (h.readable_mappedInputs hc hsplit) hunder
  replace htys := htys.trans (h.mappedInputs_ty hc hsplit)
  unfold pushBelow
  rw [Compile.ends_bind]
  refine (h.toGrown.ends_withInputs hc hsplit htys hread).mono fun moved ctx₁ hre => ?_
  obtain ⟨hemit, hsound⟩ := h.emitKept hc hsplit hre htys hread hnosink
  rw [Compile.ends_bind, Compile.ends_ofExcept, hemit]
  exact ⟨_, rfl, hsound.ends_keeping hc hsplit (fun _ hx => hx) rfl
    (Rebuild.readable_extend_self (by rw [hre.kind, hnosink])) hre.ty hnosink
    fun op' hkind' hinputs' => hsem op' (.pushed hkind hunder hre.kind hre.inputs hkind' hinputs')⟩

/-- A visit keeps what holds of the rebuild, if what comes of the operator is related to it. -/
theorem ends_visit : Compile.Ends (visit r op) ctx
    (Rebuild.Sound c ctx₀ Sem (done ++ [op]) (done ++ [op])) := by
  unfold visit
  split
  · exact ends_visitDistinct hc hsplit h hsem ‹_›
  · rename_i p hkind
    split
    · exact ends_pushBelow hc hsplit h hsem (.inl ⟨p, hkind⟩) (inputsUnder?_eq_some ‹_›)
    · exact ends_copy hc hsplit h hsem
  · rename_i f hkind
    split
    · exact ends_pushBelow hc hsplit h hsem (.inr ⟨f, hkind⟩) (inputsUnder?_eq_some ‹_›)
    · exact ends_copy hc hsplit h hsem
  · exact ends_copy hc hsplit h hsem

end DistinctElision

section Contents

variable {Sem : Operator → Operator → Prop} (hc : c.WellFormed ctx₀)
  (hsplit : c.operators = done ++ op :: rest) (h : Rebuild.Sound c ctx₀ Sem done done r ctx)
  (hsem : ∀ x x', Sem x x' → x'.contents M tables = x.contents M tables)

include hc hsplit h hsem

/-- When what stands for an operator holds its relation, the next operator computes its own from
what stands for its inputs. -/
theorem contents_mappedInputs : op.contents M tables =
    op.kind.contents M tables ((r.mappedInputs op).map (Operator.contents M tables)) := by
  rw [Operator.contents_eq, Rebuild.mappedInputs, List.map_map]
  congr 1
  exact List.map_congr_left fun i hi => (hsem _ _ (h.stands_input hc hsplit hi).sem).symm

theorem contents_kept {op' : Operator} (hkind : op'.kind = op.kind)
    (hinputs : op'.inputs = r.mappedInputs op) :
    op'.contents M tables = op.contents M tables := by
  rw [Operator.contents_eq, hkind, hinputs, contents_mappedInputs hc hsplit h hsem]

theorem contents_collapsed {i : Operator} (hkind : op.kind = .distinct) (hi : op.inputs = [i])
    (hdistinct : (r.mapped i).kind.isDistinct) :
    (r.mapped i).contents M tables = op.contents M tables := by
  have hstands := h.stands_input hc hsplit (i := i) (by simp [hi])
  obtain ⟨y, hy, -⟩ := OperatorKind.Typed.keeps_inputs
    (h.wellFormed.checked (r.mapped i) hstands.mem) (by rw [isDistinct_iff.1 hdistinct]; rfl)
  have hinner := contents_under_distinct M tables
    (.cons ⟨hdistinct, hy⟩ .nil : Forall₂ _ [r.mapped i] [y])
  rw [contents_mappedInputs hc hsplit h hsem, hkind, Rebuild.mappedInputs, hi, List.map_singleton,
    hinner]
  exact (List.singleton_inj.1 hinner).trans (ZSet.distinct_distinct _).symm

theorem contents_stripped {i copy op' : Operator} {inner : List Operator}
    (hkind : op.kind = .distinct) (hi : op.inputs = [i])
    (hunder : Forall₂ (fun op i => op.kind.isDistinct ∧ op.inputs = [i]) (r.mapped i).inputs inner)
    (hcopy : copy.kind = (r.mapped i).kind) (hinner : copy.inputs = inner)
    (hkind' : op'.kind = .distinct) (hinputs' : op'.inputs = [copy])
    (hdistinct : ((r.mapped i).kind.contents M tables
        ((inner.map (Operator.contents M tables)).map ZSet.distinct)).distinct =
      ((r.mapped i).kind.contents M tables (inner.map (Operator.contents M tables))).distinct) :
    op'.contents M tables = op.contents M tables := by
  rw [contents_mappedInputs hc hsplit h hsem, Operator.contents_eq, hkind', hinputs', hkind,
    Rebuild.mappedInputs, hi, List.map_singleton, List.map_singleton, List.map_singleton,
    Operator.contents_eq tables copy, hcopy, hinner, Operator.contents_eq tables (r.mapped i),
    contents_under_distinct M tables hunder]
  exact hdistinct.symm

theorem contents_pushed {moved op' : Operator} {inner : List Operator}
    (hunder : Forall₂ (fun op i => op.kind.isDistinct ∧ op.inputs = [i]) (r.mappedInputs op) inner)
    (hmoved : moved.kind = op.kind) (hinner : moved.inputs = inner)
    (hkind' : op'.kind = .distinct) (hinputs' : op'.inputs = [moved])
    (hdistinct : (op.kind.contents M tables (inner.map (Operator.contents M tables))).distinct =
      op.kind.contents M tables ((inner.map (Operator.contents M tables)).map ZSet.distinct)) :
    op'.contents M tables = op.contents M tables := by
  rw [contents_mappedInputs hc hsplit h hsem, contents_under_distinct M tables hunder, ← hdistinct,
    Operator.contents_eq, hkind', hinputs', List.map_singleton, Operator.contents_eq tables moved,
    hmoved, hinner]
  rfl

end Contents

section Visit

variable (hc : c.WellFormed ctx₀) (hsplit : c.operators = done ++ op :: rest)
  (h : Rebuild.Sound c ctx₀ (Elided M tables) done done r ctx)

/-- What stands for an operator holds the same relation. -/
theorem Elided.contents_eq (x x' : Operator) (h : Elided M tables x x') :
    x'.contents M tables = x.contents M tables := h.contents

include hc hsplit h

/-- What stands for the inputs of the next operator holds the same relations. -/
theorem sameRelation_mappedInputs :
    Forall₂ (SameRelation M tables) op.inputs (r.mappedInputs op) := by
  unfold Rebuild.mappedInputs
  rw [List.forall₂_map_right_iff, List.forall₂_same]
  exact fun i hi => (h.stands_input hc hsplit hi).sem.toSameRelation

section Facts

variable (hrows : c.DistinctsReadRows M tables)

include hrows

/-- An operator that stays, over what stands for its inputs. -/
theorem elided_kept {op' : Operator} (hkind : op'.kind = op.kind)
    (hinputs : op'.inputs = r.mappedInputs op) : Elided M tables op op' := by
  refine ⟨⟨contents_kept hc hsplit h Elided.contents_eq hkind hinputs, fun hdistinct => ?_⟩,
    fun _ => ?_⟩
  · have hop : op ∈ c.operators := by simp [hsplit]
    replace hdistinct := isDistinct_iff.1 (hkind ▸ hdistinct)
    obtain ⟨i, hi, -⟩ :=
      OperatorKind.Typed.keeps_inputs (hc.checked op hop) (by rw [hdistinct]; rfl)
    refine ⟨⟨i, .distinct hdistinct hi⟩, fun hinner y hy => ?_⟩
    rw [hinputs, Rebuild.mappedInputs, hi, List.map_singleton, List.mem_singleton] at hy
    rw [hy, (h.stands_input hc hsplit (i := i) (by simp [hi])).sem.contents]
    rcases hrows.nonneg op hop hdistinct i (by simp [hi]) with hdiff | hnonneg
    · exact hinner i (.distinct hdistinct hi) hdiff
    · exact hnonneg
  · rw [hinputs]
    exact ⟨hkind, sameRelation_mappedInputs hc hsplit h⟩

omit hrows in
/-- A distinct of a distinct is the inner one. -/
theorem elided_distinct {i : Operator} (hkind : op.kind = .distinct) (hi : op.inputs = [i])
    (hdistinct : (r.mapped i).kind.isDistinct) : Elided M tables op (r.mapped i) := by
  have hstands := h.stands_input hc hsplit (i := i) (by simp [hi])
  have hsettles := hstands.sem.settles hdistinct
  obtain ⟨x, hx⟩ := hsettles.settled
  refine ⟨⟨contents_collapsed hc hsplit h Elided.contents_eq hkind hi hdistinct, fun _ =>
    ⟨⟨x, .again hkind hi hx⟩, fun hinner => ?_⟩⟩, fun hno => ?_⟩
  · exact hsettles.inner fun x hx => hinner x (.again hkind hi hx)
  · rw [hdistinct] at hno
    cases hno

section Strip

variable (hcovered : c.DifferencesCovered M tables) (hkind : op.kind = .distinct) {i : Operator}
  (hi : op.inputs = [i]) {inner : List Operator}
  (hpull : DistinctElision.isPullable (r.mapped i).kind)
  (hunder : Forall₂ (fun op i => op.kind.isDistinct ∧ op.inputs = [i]) (r.mapped i).inputs inner)

include hi hpull hunder

omit hrows in
/-- The operator that the distinct reads was kept, over operators that show distincts. -/
theorem kept_under : (r.mapped i).kind = i.kind ∧ (∀ j ∈ i.inputs, ∃ x, Operator.Beneath x j) ∧
    ((∀ j ∈ i.inputs, ∀ x : Operator, x.Beneath j → x.IsDifference →
      (x.contents M tables).Nonneg) → ∀ y ∈ inner, (y.contents M tables).Nonneg) := by
  have hnodistinct : (r.mapped i).kind.isDistinct = false := by
    cases hk : (r.mapped i).kind <;> simp_all [DistinctElision.isPullable, OperatorKind.isDistinct]
  obtain ⟨hsame, hinputs⟩ :=
    (h.stands_input hc hsplit (i := i) (by simp [hi])).sem.inputs hnodistinct
  exact ⟨hsame, settled_under hinputs hunder⟩

theorem no_join_under (f : Expr) : (r.mapped i).kind ≠ .join f := by
  intro hf
  obtain ⟨hsame, hsettled, -⟩ := kept_under hc hsplit h hi hpull hunder
  have hop : op ∈ c.operators := by simp [hsplit]
  have hmem : i ∈ c.operators := hc.earlier.mem hop (by simp [hi])
  have hchecked := hc.checked i hmem
  rw [Operator.Checked, ← hsame, hf] at hchecked
  obtain ⟨left, right, hlr⟩ := hchecked.join_inputs
  obtain ⟨x, hx⟩ := hsettled left (by simp [hlr])
  exact no_join_beneath hc hrows hmem (hsame.symm.trans hf) (by simp [hlr]) hx

include hcovered hkind

/-- Below the distincts there are no negative weights, if the operator adds up weights or no
difference below the distinct that reads it has them. -/
theorem nonneg_inner (hcover : (r.mapped i).kind.gathers ∨
      ∀ x : Operator, x.Beneath op → x.IsDifference → (x.contents M tables).Nonneg) :
    ∀ y ∈ inner, (y.contents M tables).Nonneg := by
  have hop : op ∈ c.operators := by simp [hsplit]
  obtain ⟨hsame, hsettled, hnonneg⟩ := kept_under hc hsplit h hi hpull hunder
  have hgathered : (r.mapped i).kind.gathers → ∀ y ∈ inner, (y.contents M tables).Nonneg :=
    fun hgathers => hnonneg (hcovered op hop hkind i (by simp [hi]) (hsame ▸ hgathers) hsettled)
  rcases hcover with hgathers | hbeneath
  · exact hgathered hgathers
  · cases hk : (r.mapped i).kind with
    | map f => exact hgathered (by rw [hk]; rfl)
    | sum => exact hgathered (by rw [hk]; rfl)
    | join f => exact absurd hk (no_join_under hc hsplit h hrows hi hpull hunder f)
    | filter p =>
      have hchecked := hc.checked i (hc.earlier.mem hop (by simp [hi]))
      rw [Operator.Checked, ← hsame, hk] at hchecked
      obtain ⟨j, hj⟩ := hchecked.filter_inputs
      refine hnonneg fun j' hj' x hx => hbeneath x (.again hkind hi ?_)
      obtain rfl : j' = j := by simpa [hj] using hj'
      exact .filter (hsame.symm.trans hk) hj hx
    | _ =>
      rw [hk] at hpull
      cases hpull

/-- A distinct over a copy of what the distinct reads, over what is below the distincts there. -/
theorem elided_stripped {copy op' : Operator} (hcopy : copy.kind = (r.mapped i).kind)
    (hinner : copy.inputs = inner) (hkind' : op'.kind = .distinct)
    (hinputs' : op'.inputs = [copy]) :
    Elided M tables op op' := by
  have hjoin := no_join_under hc hsplit h hrows hi hpull hunder
  have hnonneg := nonneg_inner hc hsplit h hrows hcovered hkind hi hpull hunder
  refine ⟨⟨contents_stripped hc hsplit h Elided.contents_eq hkind hi hunder hcopy hinner hkind'
    hinputs' ?_, fun _ => ⟨⟨i, .distinct hkind hi⟩, fun hbelow y hy => ?_⟩⟩, fun hno => ?_⟩
  · exact OperatorKind.distinct_contents_distinct hpull hjoin fun hgathers =>
      List.forall_mem_map.2 (hnonneg (.inl hgathers))
  · obtain rfl : y = copy := by simpa [hinputs'] using hy
    rw [Operator.contents_eq, hcopy, hinner]
    exact OperatorKind.nonneg_contents (OperatorKind.keepsSign_of_isPullable hpull)
      (List.forall_mem_map.2 (hnonneg (.inr hbelow)))
  · rw [hkind'] at hno
    cases hno

end Strip

omit hrows in
/-- A filter of a distinct is a distinct of the filter. -/
theorem elided_pushed_filter {p : Expr} {moved op' : Operator} {inner : List Operator}
    (hkind : op.kind = .filter p)
    (hunder : Forall₂ (fun op i => op.kind.isDistinct ∧ op.inputs = [i]) (r.mappedInputs op)
      inner) (hmoved : moved.kind = op.kind) (hinner : moved.inputs = inner)
    (hkind' : op'.kind = .distinct) (hinputs' : op'.inputs = [moved]) :
    Elided M tables op op' := by
  have hchecked := hc.checked op (by simp [hsplit])
  rw [Operator.Checked, hkind] at hchecked
  obtain ⟨j, hj⟩ := hchecked.filter_inputs
  obtain ⟨hsettled, hnonneg⟩ := settled_under (sameRelation_mappedInputs hc hsplit h) hunder
  obtain ⟨y, rfl⟩ : ∃ y, inner = [y] := by
    have hlength := hunder.length_eq
    rw [Rebuild.mappedInputs, hj] at hlength
    exact List.length_eq_one_iff.1 hlength.symm
  have hfiltered : moved.contents M tables = (y.contents M tables).keepRows (M.keep p) := by
    rw [Operator.contents_eq, hmoved, hinner, hkind]
    rfl
  refine ⟨⟨contents_pushed hc hsplit h Elided.contents_eq hunder hmoved hinner hkind' hinputs' ?_,
    fun _ => ⟨?_, fun hbelow z hz => ?_⟩⟩, fun hno => ?_⟩
  · rw [hkind]
    exact ZSet.distinct_keepRows _ _
  · obtain ⟨x, hx⟩ := hsettled j (by simp [hj])
    exact ⟨x, .filter hkind hj hx⟩
  · obtain rfl : z = moved := by simpa [hinputs'] using hz
    rw [hfiltered]
    refine ZSet.Nonneg.keepRows (hnonneg (fun j' hj' x hx => hbelow x ?_) y (by simp)) _
    obtain rfl : j' = j := by simpa [hj] using hj'
    exact .filter hkind hj hx
  · rw [hkind'] at hno
    cases hno

/-- No join is pushed, for it reads no distincts. -/
theorem elided_of_outcome (hcovered : c.DifferencesCovered M tables) {op' : Operator}
    (houtcome : DistinctElision.Outcome r op op') : Elided M tables op op' := by
  cases houtcome with
  | kept hkind hinputs => exact elided_kept hc hsplit h hrows hkind hinputs
  | collapsed hkind hi hdistinct => exact elided_distinct hc hsplit h hkind hi hdistinct
  | stripped hkind hi hpull hunder hcopy hinner hkind' hinputs' =>
    exact elided_stripped hc hsplit h hrows hcovered hkind hi hpull hunder hcopy hinner hkind'
      hinputs'
  | pushed hkind hunder hmoved hinner hkind' hinputs' =>
    rcases hkind with ⟨p, hkind⟩ | ⟨f, hkind⟩
    · exact elided_pushed_filter hc hsplit h hkind hunder hmoved hinner hkind' hinputs'
    · have hop : op ∈ c.operators := by simp [hsplit]
      have hchecked := hc.checked op hop
      rw [Operator.Checked, hkind] at hchecked
      obtain ⟨left, right, hlr⟩ := hchecked.join_inputs
      obtain ⟨hsettled, -⟩ := settled_under (sameRelation_mappedInputs hc hsplit h) hunder
      obtain ⟨x, hx⟩ := hsettled left (by simp [hlr])
      exact (no_join_beneath hc hrows hop hkind (by simp [hlr]) hx).elim

/-- Moving the next distinct keeps every relation. -/
theorem ends_elision_visit (hcovered : c.DifferencesCovered M tables) :
    Compile.Ends (DistinctElision.visit r op) ctx
      (Rebuild.Sound c ctx₀ (Elided M tables) (done ++ [op]) (done ++ [op])) :=
  DistinctElision.ends_visit hc hsplit h fun _ => elided_of_outcome hc hsplit h hrows hcovered

end Facts

end Visit

namespace Circuit

/-- Moving distincts keeps what the sinks hold. -/
theorem WellFormed.ends_elideDistincts (hc : c.WellFormed ctx)
    (hrows : c.DistinctsReadRows M tables) (hcovered : c.DifferencesCovered M tables) :
    Compile.Ends c.elideDistincts ctx fun c' ctx' =>
      c'.WellFormed ctx' ∧ ctx.Extends ctx' ∧ SinksRelated (Elided M tables) c c' :=
  hc.ends_rebuild fun _ _ _ _ _ hsplit h => ends_elision_visit hc hsplit h hrows hcovered

end Circuit

end ViewCircuit
