import Mathlib.Data.Finsupp.Pointwise
import ViewCircuit.Proofs.Positive

/-! Pairs of rows of two collections, and the rows without a partner. A join on keys makes pairs,
and a filter over pairs is a condition on them. -/
namespace ViewCircuit.ZSet

open scoped Classical

noncomputable section

/-- A row for every pair that matches, weighted by the product of both weights. -/
def pairs (p : Val → Val → Prop) (f : Val → Val → Val) (x y : ZSet) : ZSet :=
  x.sum fun l w => y.sum fun r w' => if p l r then Finsupp.single (f l r) (w * w') else 0

/-- The rows that match none of the other collection. -/
def unpaired (p : Val → Val → Prop) (x y : ZSet) : ZSet :=
  x.keepRows fun l => ¬∃ r, 0 < y r ∧ p l r

end

variable {x y : ZSet} {p q : Val → Val → Prop} {f g : Val → Val → Val} {row : Val}

theorem pairs_congr (h : ∀ l ∈ x.support, ∀ r ∈ y.support, (p l r ↔ q l r) ∧
    (p l r → f l r = g l r)) : pairs p f x y = pairs q g x y := by
  refine Finsupp.sum_congr fun l hl => Finsupp.sum_congr fun r hr => ?_
  obtain ⟨hpq, hfg⟩ := h l hl r hr
  by_cases hp : p l r
  · rw [if_pos hp, if_pos (hpq.1 hp), hfg hp]
  · rw [if_neg hp, if_neg fun hq => hp (hpq.2 hq)]

theorem mem_pairs (h : row ∈ (pairs p f x y).support) :
    ∃ l ∈ x.support, ∃ r ∈ y.support, p l r ∧ f l r = row := by
  obtain ⟨l, hl, h⟩ := mem_sum h
  obtain ⟨r, hr, h⟩ := mem_sum h
  split at h
  · exact ⟨l, hl, r, hr, ‹_›, (Finset.mem_singleton.1 (Finsupp.support_single_subset h)).symm⟩
  · simp at h

theorem mapRows_pairs (g : Val → Val) :
    (pairs p f x y).mapRows g = pairs p (fun l r => g (f l r)) x y := by
  unfold pairs
  rw [map_finsuppSum]
  refine Finsupp.sum_congr fun l _ => ?_
  rw [map_finsuppSum]
  refine Finsupp.sum_congr fun r _ => ?_
  split
  · exact mapRows_single g _ _
  · exact map_zero _

theorem of_mem_keepRows {k : Val → Prop} (h : row ∈ (x.keepRows k).support) : k row := by
  rw [Finsupp.mem_support_iff, keepRows_apply] at h
  by_contra hk
  exact h (if_neg hk)

theorem keepRows_single (k : Val → Prop) (row : Val) (w : ℤ) :
    keepRows k (Finsupp.single row w) = if k row then Finsupp.single row w else 0 := by
  ext r
  rw [keepRows_apply]
  by_cases hr : row = r
  · subst hr
    split <;> simp
  · split <;> split <;> simp [hr]

theorem keepRows_pairs (k : Val → Prop) :
    (pairs p f x y).keepRows k = pairs (fun l r => p l r ∧ k (f l r)) f x y := by
  unfold pairs
  rw [map_finsuppSum]
  refine Finsupp.sum_congr fun l _ => ?_
  rw [map_finsuppSum]
  refine Finsupp.sum_congr fun r _ => ?_
  by_cases hp : p l r
  · simp only [hp, if_true, true_and]
    exact keepRows_single k _ _
  · simp [hp]

/-- A sum over the rows of a property. -/
theorem sum_keepRows (k : Val → Prop) (x : ZSet) (h : Val → ℤ → ZSet) :
    (x.keepRows k).sum h = x.sum fun row w => if k row then h row w else 0 := by
  change (Finsupp.filter k x).sum h = _
  rw [Finsupp.sum_filter_index, Finsupp.sum, Finset.sum_ite, Finset.sum_const_zero, add_zero]
  rfl

theorem pairs_keepRows (k k' : Val → Prop) :
    pairs p f (x.keepRows k) (y.keepRows k') =
      pairs (fun l r => k l ∧ k' r ∧ p l r) f x y := by
  unfold pairs
  simp only [sum_keepRows]
  refine Finsupp.sum_congr fun l _ => ?_
  by_cases hk : k l
  · refine (if_pos hk).trans (Finsupp.sum_congr fun r _ => ?_)
    by_cases hk' : k' r
    · simp [hk, hk']
    · simp [hk']
  · simp [hk]

/-- A join by keys pairs the rows with equal keys. -/
theorem join_mapRows (f : Val → Val → Val → Val) (key key' : Val → Val) (x y : ZSet) :
    join f (x.mapRows fun l => Val.pair (key l) l) (y.mapRows fun r => Val.pair (key' r) r) =
      pairs (fun l r => key l = key' r) (fun l r => f (key l) l r) x y := by
  change (Finsupp.mapDomain _ x).sum (fun l w => (Finsupp.mapDomain _ y).sum _) = _
  rw [Finsupp.sum_mapDomain_index]
  · refine Finsupp.sum_congr fun l _ => ?_
    rw [Finsupp.sum_mapDomain_index]
    · rfl
    · simp [joinRow_zero]
    · simp [mul_add, joinRow_add]
  · simp [joinRow_zero]
  · simp [add_mul, joinRow_add]

namespace Nonneg

theorem sum_pos {g : Val → ℤ → ZSet} (h : ∀ r ∈ x.support, (g r (x r)).Nonneg) :
    0 < x.sum g row ↔ ∃ r ∈ x.support, 0 < g r (x r) row := by
  rw [Finsupp.sum_apply]
  exact Finset.sum_pos_iff_of_nonneg fun r hr => h r hr row

theorem mem_support (h : x.Nonneg) : row ∈ x.support ↔ 0 < x row := by
  rw [Finsupp.mem_support_iff]
  exact (h row).lt_iff_ne'.symm

/-- Without negative weights, a pair is there when both its rows are. -/
theorem pairs_pos (hx : x.Nonneg) (hy : y.Nonneg) :
    0 < ZSet.pairs p f x y row ↔ ∃ l r, 0 < x l ∧ 0 < y r ∧ p l r ∧ f l r = row := by
  have hterm : ∀ l r, Nonneg (if p l r then Finsupp.single (f l r) (x l * y r) else 0) := by
    intro l r
    split
    · exact single (Int.mul_nonneg (hx l) (hy r)) _
    · exact fun _ => le_rfl
  have hpos : ∀ l r, 0 < x l → 0 < y r →
      (0 < (if p l r then Finsupp.single (f l r) (x l * y r) else 0 : ZSet) row ↔
        p l r ∧ f l r = row) := by
    intro l r hl hr
    have hweight : 0 < x l * y r := Int.mul_pos hl hr
    by_cases hp : p l r
    · by_cases hrow : f l r = row
      · simp [hp, hrow, hweight]
      · simp [hp, hrow]
    · simp [hp]
  have hinner : ∀ l, 0 < (y.sum fun r w' =>
      if p l r then Finsupp.single (f l r) (x l * w') else 0) row ↔
        ∃ r ∈ y.support, 0 < (if p l r then Finsupp.single (f l r) (x l * y r) else 0 : ZSet) row :=
    fun l => sum_pos fun r _ => hterm l r
  have houter : 0 < ZSet.pairs p f x y row ↔ ∃ l ∈ x.support, 0 < (y.sum fun r w' =>
      if p l r then Finsupp.single (f l r) (x l * w') else 0) row :=
    sum_pos fun l _ => sum fun r _ => hterm l r
  rw [houter]
  simp only [hinner, hx.mem_support, hy.mem_support]
  constructor
  · rintro ⟨l, hl, r, hr, h⟩
    exact ⟨l, r, hl, hr, (hpos l r hl hr).1 h⟩
  · rintro ⟨l, r, hl, hr, h⟩
    exact ⟨l, hl, r, hr, (hpos l r hl hr).2 h⟩

end Nonneg

/-- The rows that are in no pair have no partner. -/
theorem keepRows_unpaired_left (hx : x.Nonneg) (hy : y.Nonneg) :
    (x.keepRows fun row => ¬0 < pairs p (fun l _ => l) x y row) = unpaired p x y := by
  refine keepRows_congr fun row hrow => not_congr ?_
  rw [hx.pairs_pos hy]
  constructor
  · rintro ⟨l, r, -, hr, hp, rfl⟩
    exact ⟨r, hr, hp⟩
  · rintro ⟨r, hr, hp⟩
    exact ⟨row, r, hx.mem_support.1 hrow, hr, hp, rfl⟩

theorem keepRows_unpaired_right (hx : x.Nonneg) (hy : y.Nonneg) :
    (y.keepRows fun row => ¬0 < pairs p (fun _ r => r) x y row) =
      unpaired (fun r l => p l r) y x := by
  refine keepRows_congr fun row hrow => not_congr ?_
  rw [hx.pairs_pos hy]
  constructor
  · rintro ⟨l, r, hl, -, hp, rfl⟩
    exact ⟨l, hl, hp⟩
  · rintro ⟨l, hl, hp⟩
    exact ⟨l, row, hl, hy.mem_support.1 hrow, hp, rfl⟩

/-- Rows joined with themselves as keys. -/
theorem join_keys (x y : ZSet) :
    join (fun k _ _ => k) (x.mapRows fun r => Val.pair r Val.unit)
      (y.mapRows fun r => Val.pair r Val.unit) = x * y := by
  ext row
  rw [join_keys_apply, Finsupp.mul_apply]

/-- Taking the rows of a set away leaves those that it does not hold. -/
theorem sub_mul_distinct (x z : ZSet) : x - x * z.distinct = x.keepRows fun row => ¬0 < z row := by
  ext row
  rw [Finsupp.sub_apply, Finsupp.mul_apply, keepRows_apply, distinct_apply]
  split <;> simp

end ViewCircuit.ZSet
