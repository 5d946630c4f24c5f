import Mathlib.Data.Finsupp.Basic
import Mathlib.Algebra.BigOperators.Finsupp.Basic
import Mathlib.Algebra.Order.BigOperators.Group.Finset
import ViewCircuit.Proofs.Value

/-! Z-sets: rows with integer weights, of which finitely many are not zero. Mapping, filtering and
joining are additive in the weights; distinct, aggregates and windows are not. -/
namespace ViewCircuit

open scoped Classical

/-- A collection of rows with weights of any sign. -/
abbrev ZSet := Val →₀ ℤ

namespace ZSet

noncomputable section

/-- Moves the weight of every row to its image. -/
def mapRows (f : Val → Val) : ZSet →+ ZSet := Finsupp.mapDomain.addMonoidHom f

/-- Keeps the rows of a property. -/
def keepRows (p : Val → Prop) : ZSet →+ ZSet := Finsupp.filterAddHom p

/-- The joined row of two rows with equal keys, weighted by the product of their weights. -/
def joinRow (f : Val → Val → Val → Val) (l r : Val) (w : ℤ) : ZSet :=
  match l.pair?, r.pair? with
  | some (k, x), some (k', y) => if k = k' then Finsupp.single (f k x y) w else 0
  | _, _ => 0

/-- All pairs of rows with equal keys, under a function of the key and the two values. -/
def join (f : Val → Val → Val → Val) (x y : ZSet) : ZSet :=
  x.sum fun l w => y.sum fun r w' => joinRow f l r (w * w')

/-- Weight one for every row of positive weight. -/
def distinct (x : ZSet) : ZSet := x.mapRange (fun w => if 0 < w then 1 else 0) (by simp)

/-- Keys of the rows of an indexed collection. -/
def keys (x : ZSet) : Finset Val := x.support.biUnion fun row => (row.pair?.map Prod.fst).toFinset

/-- Values of one key with their weights. -/
def group (x : ZSet) (key : Val) : ZSet :=
  x.sum fun row w =>
    match row.pair? with
    | some (k, v) => if k = key then Finsupp.single v w else 0
    | none => 0

/-- One row for every key, with weight one. -/
def perKey (f : Val → Val) (x : ZSet) : ZSet := ∑ k ∈ x.keys, Finsupp.single (Val.pair k (f k)) 1

/-- No row has a negative weight. -/
def Nonneg (x : ZSet) : Prop := ∀ row, 0 ≤ x row

end

@[simp] theorem mapRows_single (f : Val → Val) (row : Val) (w : ℤ) :
    mapRows f (Finsupp.single row w) = Finsupp.single (f row) w := by
  simp [mapRows]

@[simp] theorem distinct_apply (x : ZSet) (row : Val) :
    x.distinct row = if 0 < x row then 1 else 0 := by
  simp [distinct]

@[simp] theorem distinct_single (row : Val) :
    distinct (Finsupp.single row 1) = Finsupp.single row 1 := by
  ext r
  rw [distinct_apply, Finsupp.single_apply]
  split <;> simp

@[simp] theorem distinct_zero : distinct 0 = 0 := by
  ext row
  simp

@[simp] theorem distinct_distinct (x : ZSet) : x.distinct.distinct = x.distinct := by
  ext row
  simp only [distinct_apply]
  split <;> simp_all

theorem mapRows_apply (f : Val → Val) (x : ZSet) (row : Val) :
    mapRows f x row = x.sum fun r w => if f r = row then w else 0 := by
  simp [mapRows, Finsupp.mapDomain, Finsupp.sum_apply, Finsupp.single_apply]

@[simp] theorem keepRows_apply (p : Val → Prop) (x : ZSet) (row : Val) :
    keepRows p x row = if p row then x row else 0 :=
  Finsupp.filter_apply p x row

/-- Only the sign of a weight decides, so filters and distincts can change places. -/
theorem distinct_keepRows (p : Val → Prop) (x : ZSet) :
    (keepRows p x).distinct = keepRows p x.distinct := by
  ext row
  simp only [distinct_apply, keepRows_apply]
  split <;> simp

namespace Nonneg

variable {x : ZSet}

theorem distinct (x : ZSet) : x.distinct.Nonneg := by
  intro row
  rw [distinct_apply]
  split <;> simp

theorem keepRows (h : x.Nonneg) (p : Val → Prop) : (x.keepRows p).Nonneg := by
  intro row
  rw [keepRows_apply]
  split
  · exact h row
  · exact le_rfl

theorem mapRows (h : x.Nonneg) (f : Val → Val) : (x.mapRows f).Nonneg := by
  intro row
  rw [mapRows_apply]
  refine Finset.sum_nonneg fun r _ => ?_
  beta_reduce
  split
  · exact h r
  · exact le_rfl

theorem add {y : ZSet} (hx : x.Nonneg) (hy : y.Nonneg) : (x + y).Nonneg :=
  fun row => add_nonneg (hx row) (hy row)

theorem listSum {xs : List ZSet} (h : ∀ x ∈ xs, x.Nonneg) : xs.sum.Nonneg := by
  induction xs with
  | nil => exact fun _ => le_rfl
  | cons x xs ih =>
    intro row
    rw [List.sum_cons, Finsupp.add_apply]
    exact add_nonneg (h x (by simp) row) (ih (fun y hy => h y (by simp [hy])) row)

theorem single {w : ℤ} (h : 0 ≤ w) (row : Val) : Nonneg (Finsupp.single row w) := by
  intro r
  rw [Finsupp.single_apply]
  split
  · exact h
  · exact le_rfl

theorem sum {g : Val → ℤ → ZSet} (h : ∀ r ∈ x.support, (g r (x r)).Nonneg) : Nonneg (x.sum g) := by
  intro row
  rw [Finsupp.sum_apply]
  exact Finset.sum_nonneg fun r hr => h r hr row

theorem join {y : ZSet} (hx : x.Nonneg) (hy : y.Nonneg) (f : Val → Val → Val → Val) :
    (ZSet.join f x y).Nonneg := by
  refine sum fun l _ => sum fun r _ => ?_
  unfold joinRow
  split
  · split
    · exact single (Int.mul_nonneg (hx l) (hy r)) _
    · exact fun _ => le_rfl
  · exact fun _ => le_rfl

theorem perKey (f : Val → Val) (x : ZSet) : (x.perKey f).Nonneg := by
  intro row
  rw [ZSet.perKey, Finsupp.finsetSum_apply]
  exact Finset.sum_nonneg fun k _ => single Int.one_nonneg _ row

/-- Without negative weights, a row has a source of positive weight or none at all. -/
theorem mapRows_pos (h : x.Nonneg) (f : Val → Val) (row : Val) :
    0 < x.mapRows f row ↔ ∃ r, 0 < x r ∧ f r = row := by
  have hterm : ∀ r ∈ x.support, 0 ≤ if f r = row then x r else 0 := by
    intro r _
    split
    · exact h r
    · exact le_rfl
  rw [mapRows_apply, Finsupp.sum, Finset.sum_pos_iff_of_nonneg hterm]
  constructor
  · rintro ⟨r, _, hr⟩
    split at hr
    · exact ⟨r, hr, ‹_›⟩
    · simp at hr
  · rintro ⟨r, hr, hrow⟩
    exact ⟨r, Finsupp.mem_support_iff.2 hr.ne', by simp [hrow, hr]⟩

theorem listSum_pos {xs : List ZSet} (h : ∀ x ∈ xs, x.Nonneg) (row : Val) :
    0 < xs.sum row ↔ ∃ x ∈ xs, 0 < x row := by
  induction xs with
  | nil => simp
  | cons x xs ih =>
    have hx := h x (by simp) row
    have hxs : ∀ y ∈ xs, y.Nonneg := fun y hy => h y (by simp [hy])
    have hrest := listSum hxs row
    rw [List.sum_cons, Finsupp.add_apply, List.exists_mem_cons_iff, ← ih hxs]
    omega

end Nonneg

section Support

variable {x y : ZSet} {row : Val}

theorem mem_mapRows {f : Val → Val} (h : row ∈ (x.mapRows f).support) :
    ∃ r ∈ x.support, f r = row :=
  Finset.mem_image.1 (Finsupp.mapDomain_support h)

theorem mapRows_congr {f g : Val → Val} (h : ∀ r ∈ x.support, f r = g r) :
    x.mapRows f = x.mapRows g :=
  Finsupp.mapDomain_congr h

theorem mem_keepRows {p : Val → Prop} (h : row ∈ (x.keepRows p).support) : row ∈ x.support := by
  rw [Finsupp.mem_support_iff, keepRows_apply] at h
  split at h
  · exact Finsupp.mem_support_iff.2 h
  · exact absurd rfl h

theorem keepRows_congr {p q : Val → Prop} (h : ∀ r ∈ x.support, p r ↔ q r) :
    x.keepRows p = x.keepRows q := by
  ext r
  rw [keepRows_apply, keepRows_apply]
  by_cases hr : r ∈ x.support
  · simp [h r hr]
  · simp [Finsupp.notMem_support_iff.1 hr]

theorem mem_distinct (h : row ∈ x.distinct.support) : row ∈ x.support := by
  rw [Finsupp.mem_support_iff, distinct_apply] at h
  split at h
  · exact Finsupp.mem_support_iff.2 (ne_of_gt ‹_›)
  · exact absurd rfl h

theorem mem_listSum {xs : List ZSet} (h : row ∈ xs.sum.support) : ∃ x ∈ xs, row ∈ x.support := by
  induction xs with
  | nil => simp at h
  | cons x xs ih =>
    rw [List.sum_cons] at h
    rcases Finset.mem_union.1 (Finsupp.support_add h) with hx | hxs
    · exact ⟨x, by simp, hx⟩
    · obtain ⟨y, hy, hrow⟩ := ih hxs
      exact ⟨y, by simp [hy], hrow⟩

/-- A row of a sum over a collection comes from the term of some row of it. -/
theorem mem_sum {g : Val → ℤ → ZSet} (h : row ∈ (x.sum g).support) :
    ∃ r ∈ x.support, row ∈ (g r (x r)).support := by
  have hterm := Finsupp.support_finsetSum h
  simpa using hterm

theorem join_congr {f g : Val → Val → Val → Val} (h : ∀ k a b, Val.pair k a ∈ x.support →
    Val.pair k b ∈ y.support → f k a b = g k a b) : join f x y = join g x y := by
  refine Finsupp.sum_congr fun l hl => Finsupp.sum_congr fun r hr => ?_
  unfold joinRow
  split
  · rename_i k a k' b hpl hpr
    split
    · rename_i hk
      subst hk
      rw [Val.eq_pair_of_pair? hpl] at hl
      rw [Val.eq_pair_of_pair? hpr] at hr
      rw [h k a b hl hr]
    · rfl
  · rfl

theorem mem_keys {k : Val} : k ∈ x.keys ↔ ∃ v, Val.pair k v ∈ x.support := by
  simp only [keys, Finset.mem_biUnion, Option.mem_toFinset, Option.mem_def,
    Option.map_eq_some_iff, Prod.exists]
  constructor
  · rintro ⟨r, hr, k', v, hpair, rfl⟩
    exact ⟨v, Val.eq_pair_of_pair? hpair ▸ hr⟩
  · rintro ⟨v, hv⟩
    exact ⟨_, hv, k, v, rfl, rfl⟩

theorem mem_group {k v : Val} (h : v ∈ (x.group k).support) : Val.pair k v ∈ x.support := by
  obtain ⟨r, hr, hv⟩ := mem_sum h
  split at hv
  · rename_i k' v' hpair
    split at hv
    · rename_i hk
      subst hk
      rw [Finset.mem_singleton.1 (Finsupp.support_single_subset hv), ← Val.eq_pair_of_pair? hpair]
      exact hr
    · simp at hv
  · simp at hv

theorem perKey_congr {f g : Val → Val} (h : ∀ k ∈ x.keys, f k = g k) : x.perKey f = x.perKey g :=
  Finset.sum_congr rfl fun k hk => by rw [h k hk]

end Support

theorem distinct_pos (x : ZSet) (row : Val) : 0 < x.distinct row ↔ 0 < x row := by
  rw [distinct_apply]
  split <;> simp_all

theorem distinct_congr {x y : ZSet} (h : ∀ row, 0 < x row ↔ 0 < y row) :
    x.distinct = y.distinct := by
  ext row
  simp [h row]

/-- A distinct before a map is lost in one after it, unless negative weights take rows away. -/
theorem distinct_mapRows_distinct {x : ZSet} (h : x.Nonneg) (f : Val → Val) :
    (x.distinct.mapRows f).distinct = (x.mapRows f).distinct := by
  refine distinct_congr fun row => ?_
  rw [(Nonneg.distinct x).mapRows_pos, h.mapRows_pos]
  simp only [distinct_pos]

theorem distinct_sum_distinct {xs : List ZSet} (h : ∀ x ∈ xs, x.Nonneg) :
    (xs.map distinct).sum.distinct = xs.sum.distinct := by
  refine distinct_congr fun row => ?_
  have hall : ∀ x ∈ xs.map distinct, x.Nonneg := by
    intro x hx
    obtain ⟨y, _, rfl⟩ := List.mem_map.1 hx
    exact .distinct y
  rw [Nonneg.listSum_pos hall, Nonneg.listSum_pos h]
  simp only [List.mem_map, exists_exists_and_eq_and, distinct_pos]

end ZSet
end ViewCircuit
