import ViewCircuit.Proofs.Numbers

/-! What aggregate calls mean on a collection of rows, and how each meaning changes with one more
row. Counts and sums are additive in the weights; an extremum is one of the values that are
there. -/
namespace ViewCircuit

open scoped Classical

namespace ZSet

noncomputable section

/-- Sum of all weights. -/
def size (x : ZSet) : ℤ := x.sum fun _ w => w

/-- The rows with a value other than NULL in a column. -/
def known (column : Nat) : ZSet →+ ZSet := keepRows fun row => (row.cell column).isNull = false

/-- The numbers in a column, each as often as its row is there. -/
def total (D : Domain) (column : Nat) (x : ZSet) : D.Num :=
  (x.known column).sum fun row w => D.number (row.cell column) * w

/-- The sum of a column, NULL when it has no value. -/
def sumOf (D : Domain) (column : Nat) (x : ZSet) : Val :=
  if x.known column = 0 then Val.null else D.value (x.total D column)

/-- The sum of a column divided by the number of its values. -/
def averageOf (D : Domain) (column : Nat) (x : ZSet) : Val :=
  if x.known column = 0 then Val.null
  else D.value (D.quotient (x.total D column) (x.known column).size)

end

/-- A value of a column that comes before all others in it, NULL when it has none. -/
def IsExtremum (le : Val → Val → Prop) (column : Nat) (x : ZSet) (v : Val) : Prop :=
  if x.known column = 0 then v = Val.null
  else (∃ row ∈ (x.known column).support, row.cell column = v) ∧
    ∀ row ∈ (x.known column).support, le v (row.cell column)

variable {x : ZSet} {row r : Val} {w : ℤ} {D : Domain} {column : Nat} {v : Val}
  {le : Val → Val → Prop}

@[simp] theorem size_zero : size 0 = 0 := Finsupp.sum_zero_index

@[simp] theorem size_single : size (Finsupp.single row w) = w := Finsupp.sum_single_index rfl

theorem size_add_single : size (x + Finsupp.single row w) = x.size + w := by
  unfold size
  rw [Finsupp.sum_add_index' (fun _ => rfl) (fun _ _ _ => rfl), Finsupp.sum_single_index rfl]

theorem mem_known : row ∈ (x.known column).support ↔
    row ∈ x.support ∧ (row.cell column).isNull = false := by
  rw [Finsupp.mem_support_iff, Finsupp.mem_support_iff, known, keepRows_apply]
  split <;> simp_all

theorem known_add_of_null (hnull : (row.cell column).isNull) :
    (x + Finsupp.single row w).known column = x.known column := by
  rw [map_add, known, keepRows_single, if_neg (by simp [hnull]), add_zero]

theorem known_add_of_known (hknown : (row.cell column).isNull = false) :
    (x + Finsupp.single row w).known column = x.known column + Finsupp.single row w := by
  rw [map_add, known, keepRows_single, if_pos hknown]

theorem total_add_of_null (hnull : (row.cell column).isNull) :
    (x + Finsupp.single row w).total D column = x.total D column := by
  rw [total, known_add_of_null hnull, total]

theorem total_add_of_known (hknown : (row.cell column).isNull = false) :
    (x + Finsupp.single row w).total D column =
      x.total D column + D.number (row.cell column) * w := by
  rw [total, known_add_of_known hknown, total, Finsupp.sum_add_index', Finsupp.sum_single_index]
  · rw [Int.cast_zero, mul_zero]
  · intro _
    rw [Int.cast_zero, mul_zero]
  · intro _ m n
    rw [Int.cast_add, mul_add]

theorem total_of_known_eq_zero (h : x.known column = 0) : x.total D column = 0 := by
  rw [total, h, Finsupp.sum_zero_index]

namespace Nonneg

theorem known (hx : x.Nonneg) (column : Nat) : (x.known column).Nonneg := hx.keepRows _

theorem add_single (hx : x.Nonneg) (hw : 0 < w) : (x + Finsupp.single row w).Nonneg :=
  hx.add (single hw.le row)

theorem mem_add_single (hx : x.Nonneg) (hw : 0 < w) :
    r ∈ (x + Finsupp.single row w).support ↔ r ∈ x.support ∨ r = row := by
  rw [(hx.add_single hw).mem_support, hx.mem_support, Finsupp.add_apply, Finsupp.single_apply]
  have hr := hx r
  by_cases hrow : row = r
  · rw [if_pos hrow]
    exact iff_of_true (by omega) (.inr hrow.symm)
  · rw [if_neg hrow, add_zero]
    exact ⟨.inl, fun h => h.resolve_right fun h => hrow h.symm⟩

theorem add_single_ne_zero (hx : x.Nonneg) (hw : 0 < w) : x + Finsupp.single row w ≠ 0 := by
  intro h
  have hmem : row ∈ (x + Finsupp.single row w).support := (hx.mem_add_single hw).2 (.inr rfl)
  rw [h] at hmem
  simp at hmem

/-- Rows that are there count for something. -/
theorem size_pos (hx : x.Nonneg) (h : x ≠ 0) : 0 < x.size := by
  obtain ⟨row, hrow⟩ := Finsupp.support_nonempty_iff.2 h
  exact (Finset.sum_pos_iff_of_nonneg fun r _ => hx r).2 ⟨row, hrow, hx.mem_support.1 hrow⟩

end Nonneg

theorem sumOf_zero : sumOf D column 0 = Val.null := if_pos (map_zero _)

theorem isExtremum_zero : IsExtremum le column 0 Val.null := by
  unfold IsExtremum
  rw [if_pos (map_zero _)]

theorem sumOf_add_of_null (hnull : (row.cell column).isNull) :
    (x + Finsupp.single row w).sumOf D column = x.sumOf D column := by
  rw [sumOf, known_add_of_null hnull, total_add_of_null hnull, sumOf]

theorem sumOf_add_of_known (hx : x.Nonneg) (hw : 0 < w)
    (hknown : (row.cell column).isNull = false) : (x + Finsupp.single row w).sumOf D column =
      D.value (x.total D column + D.number (row.cell column) * w) := by
  rw [sumOf, known_add_of_known hknown, if_neg ((hx.known column).add_single_ne_zero hw),
    total_add_of_known hknown]

theorem isExtremum_add_of_null (hnull : (row.cell column).isNull) :
    (x + Finsupp.single row w).IsExtremum le column v ↔ x.IsExtremum le column v := by
  unfold IsExtremum
  rw [known_add_of_null hnull]

/-- A value that comes before the one so far and before the value of a new row. -/
theorem IsExtremum.add_of_known {u : Val} (h : x.IsExtremum le column v) (hx : x.Nonneg)
    (hw : 0 < w) (hknown : (row.cell column).isNull = false)
    (hfirst : x.known column = 0 → u = row.cell column ∧ le u u)
    (hlater : x.known column ≠ 0 → (u = v ∨ u = row.cell column) ∧ le u v ∧
      le u (row.cell column)) (htrans : ∀ a b c, le a b → le b c → le a c) :
    (x + Finsupp.single row w).IsExtremum le column u := by
  have hx' := hx.known column
  have hmem : ∀ r, r ∈ ((x + Finsupp.single row w).known column).support ↔
      r ∈ (x.known column).support ∨ r = row := by
    intro r
    rw [known_add_of_known hknown]
    exact hx'.mem_add_single hw
  unfold IsExtremum at h ⊢
  rw [if_neg (known_add_of_known hknown ▸ hx'.add_single_ne_zero hw)]
  simp only [hmem]
  by_cases hnone : x.known column = 0
  · obtain ⟨rfl, hrefl⟩ := hfirst hnone
    refine ⟨⟨row, .inr rfl, rfl⟩, fun r hr => ?_⟩
    rcases hr with hr | rfl
    · simp [hnone] at hr
    · exact hrefl
  · obtain ⟨hone, hbeforeOld, hbeforeNew⟩ := hlater hnone
    rw [if_neg hnone] at h
    obtain ⟨⟨r, hr, hrv⟩, hleast⟩ := h
    refine ⟨?_, fun r' hr' => ?_⟩
    · rcases hone with rfl | rfl
      · exact ⟨r, .inl hr, hrv⟩
      · exact ⟨row, .inr rfl, rfl⟩
    · rcases hr' with hr' | rfl
      · exact htrans _ _ _ hbeforeOld (hleast r' hr')
      · exact hbeforeNew

theorem IsExtremum.isNull_iff (h : x.IsExtremum le column v) :
    v.isNull ↔ x.known column = 0 := by
  unfold IsExtremum at h
  split at h
  · rename_i hnone
    subst h
    exact iff_of_true rfl hnone
  · rename_i hsome
    obtain ⟨⟨row, hrow, rfl⟩, -⟩ := h
    rw [(mem_known.1 hrow).2]
    exact iff_of_false Bool.false_ne_true hsome

end ZSet

namespace AggregateCall

/-- The value of a call over a collection of rows, where each column has a domain of its own. -/
def Computes (domains : Nat → Domain) (call : AggregateCall) (x : ZSet) (v : Val) : Prop :=
  match call.function, call.argument with
  | .count, none => v = Val.int64 x.size
  | .count, some column => v = Val.int64 (x.known column).size
  | .sum, some column => v = x.sumOf (domains column) column
  | .avg, some column => v = x.averageOf (domains column) column
  | .min, some column => x.IsExtremum (domains column).le column v
  | .max, some column => x.IsExtremum (flip (domains column).le) column v
  | _, none => False

/-- The runtime can compute the call over columns of the types. -/
def Supported (rt : Runtime) (domains : Nat → Domain) (types : List Ty) (call : AggregateCall) :
    Prop :=
  ∀ column ∈ call.argument, ∀ t ∈ types[column]?,
    match call.function with
    | .count => True
    | .sum | .avg => rt.Exact t.kind (domains column)
    | .min => rt.Selects .min t.kind (domains column).le
    | .max => rt.Selects .max t.kind (flip (domains column).le)

/-- Every call over integers can be computed. -/
theorem supported_arithmetic {types : List Ty} {width : IntWidth}
    (h : ∀ t ∈ types, t.kind = .integer width) (call : AggregateCall) :
    call.Supported Runtime.arithmetic (fun _ => Domain.integers width) types := by
  intro column _ t ht
  have hkind := h t (List.mem_of_getElem? ht)
  cases call.function with
  | count => trivial
  | sum | avg => exact hkind ▸ Runtime.arithmetic_exact width
  | min => exact hkind ▸ Runtime.arithmetic_min width
  | max => exact hkind ▸ Runtime.arithmetic_max width

end AggregateCall

end ViewCircuit
