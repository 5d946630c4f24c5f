import Mathlib.Algebra.Ring.Int.Defs
import ViewCircuit.Proofs.Rows

/-! Numbers behind the values of a column, and their order. The laws say what a runtime makes of
them: arithmetic is exact, the functions that accumulate take NULL for nothing, and products and
quotients are strict in it. -/
namespace ViewCircuit

/-- An integer of 64 bits; weights and counts are such values. -/
def Val.int64 (i : ℤ) : Val := .atom (.int .w64 i)

/-- How the values of a column are calculated with and compared. -/
structure Domain where
  Num : Type
  [ring : CommRing Num]
  number : Val → Num
  value : Num → Val
  /-- A sum divided by a count. -/
  quotient : Num → ℤ → Num
  le : Val → Val → Prop

attribute [instance] Domain.ring

/-- The integer of a value, zero where there is none. -/
def Val.integer : Val → ℤ
  | .atom (.int _ i) => i
  | _ => 0

/-- Integers of a width; division cuts off towards zero. -/
def Domain.integers (width : IntWidth) : Domain where
  Num := ℤ
  number := Val.integer
  value i := .atom (.int width i)
  quotient := Int.tdiv
  le v w := v.integer ≤ w.integer

namespace Runtime

/-- Counts are exact, accumulation takes NULL for nothing, and a product or quotient of NULL is
NULL. -/
structure Aggregating (rt : Runtime) : Prop where
  add (m n : ℤ) : rt (.binary .add) [Val.int64 m, Val.int64 n] = some (Val.int64 (m + n))
  neutralLeft {op : BinaryOp} {s t : Ty} {p : Primitive} {w : Val} :
    Primitive.aggregate op s t = .ok p → s.mayBeNull → w.IsDatum t →
    rt (.call p.name p.result) [Val.null, w] = some w
  neutralRight {op : BinaryOp} {s t : Ty} {p : Primitive} {v : Val} :
    Primitive.aggregate op s t = .ok p → t.mayBeNull → v.IsDatum s →
    rt (.call p.name p.result) [v, Val.null] = some v
  strict {op : BinaryOp} {s t : Ty} {p : Primitive} {w : Val} : op = .mul ∨ op = .div →
    Primitive.binary op s t = .ok p → s.mayBeNull → w.IsDatum t →
    rt (.call p.name p.result) [Val.null, w] = some Val.null

/-- Values of a kind stand for numbers, weights among them, and are added, multiplied and divided
as these. -/
structure Exact (rt : Runtime) (kind : Kind) (D : Domain) : Prop where
  datum (a : D.Num) : (D.value a).IsDatum ⟨kind, false⟩
  value_number {v : Val} : v.IsDatum ⟨kind, false⟩ → D.value (D.number v) = v
  weight (w : ℤ) : kind = .integer .w64 → D.value w = Val.int64 w
  cast (w : ℤ) : kind ≠ .integer .w64 → rt (.cast ⟨kind, false⟩) [Val.int64 w] = some (D.value w)
  nativeTimes (a b : D.Num) :
    rt (.binary .mul) [D.value a, D.value b] = some (D.value (a * b))
  times {s t : Ty} {p : Primitive} (a b : D.Num) : Primitive.binary .mul s t = .ok p →
    s.kind = kind → rt (.call p.name p.result) [D.value a, D.value b] = some (D.value (a * b))
  plus {s t : Ty} {p : Primitive} (a b : D.Num) : Primitive.aggregate .add s t = .ok p →
    s.kind = kind → rt (.call p.name p.result) [D.value a, D.value b] = some (D.value (a + b))
  quotient {s t : Ty} {p : Primitive} (a : D.Num) {n : ℤ} : Primitive.binary .div s t = .ok p →
    s.kind = kind → n ≠ 0 →
    rt (.call p.name p.result) [D.value a, D.value n] = some (D.value (D.quotient a n))

/-- Of two values of a kind, the function for an extremum returns one that comes first. -/
structure Selects (rt : Runtime) (op : BinaryOp) (kind : Kind) (le : Val → Val → Prop) : Prop where
  trans {u v w : Val} : le u v → le v w → le u w
  select {s t : Ty} {p : Primitive} {v w : Val} : Primitive.aggregate op s t = .ok p →
    s.kind = kind → v.IsDatum ⟨kind, false⟩ → w.IsDatum ⟨kind, false⟩ →
    ∃ u, rt (.call p.name p.result) [v, w] = some u ∧ (u = v ∨ u = w) ∧ le u v ∧ le u w

end Runtime

theorem Val.isDatum_integer (width : IntWidth) (i : ℤ) :
    (Val.atom (.int width i)).IsDatum ⟨.integer width, false⟩ := ⟨rfl, .atom rfl⟩

theorem Val.IsDatum.eq_integer {v : Val} {width : IntWidth}
    (h : v.IsDatum ⟨.integer width, false⟩) : v = .atom (.int width v.integer) := by
  obtain ⟨-, hty⟩ := h
  cases hty with
  | @atom a _ ha =>
    cases a with
    | int w i =>
      cases ha
      rfl
    | _ => cases ha
  | tuple hts => cases hts

section Names

variable {op : BinaryOp} {s t : Ty} {p : Primitive}

/-- What a function that accumulates is called and returns. -/
theorem Primitive.aggregate_eq_ok (h : Primitive.aggregate op s t = .ok p) :
    s.isNullType = false ∧ s.kind = t.kind ∧ (op.isExtremum ∨ op = .add) ∧
      p = ⟨"agg_" ++ op.key ++ "_" ++ nullMark s ++ "_" ++ nullMark t,
        s.withNull (s.mayBeNull || t.mayBeNull)⟩ := by
  unfold Primitive.aggregate at h
  split at h
  · cases h
  · rename_i hfamily
    split at h
    · cases h
    · rename_i hop
      split at h
      · cases h
      · rename_i hshape
        cases h
        refine ⟨Family.isNullType_of_ofTy? hfamily, by simpa using hshape, ?_, rfl⟩
        simp only [Bool.not_eq_true', Bool.not_eq_false, Bool.or_eq_true, Bool.and_eq_true,
          beq_iff_eq] at hop
        exact hop.imp_right And.left

end Names

namespace Runtime

/-- The runtime as far as it calculates with integers; it never overflows. -/
def arithmetic : Runtime
  | .binary .add, [.atom (.int w a), .atom (.int _ b)] => some (.atom (.int w (a + b)))
  | .binary .mul, [.atom (.int w a), .atom (.int _ b)] => some (.atom (.int w (a * b)))
  | .cast ⟨.integer w, _⟩, [.atom (.int _ a)] => some (.atom (.int w a))
  | .call f _, [.atom .null, v] =>
    if implements "times" f || implements "div" f then some Val.null else some v
  | .call f _, [v, .atom .null] =>
    if implements "times" f || implements "div" f then some Val.null else some v
  | .call f _, [.atom (.int w a), .atom (.int _ b)] =>
    if implements "times" f then some (.atom (.int w (a * b)))
    else if implements "div" f then
      some (if b = 0 then Val.null else .atom (.int w (a.tdiv b)))
    else if implements "agg_plus" f then some (.atom (.int w (a + b)))
    else if implements "agg_min" f then some (.atom (.int w (min a b)))
    else if implements "agg_max" f then some (.atom (.int w (max a b)))
    else none
  | _, _ => none

section Laws

variable {op : BinaryOp} {s t : Ty} {p : Primitive}

theorem implements_times (h : Primitive.binary .mul s t = .ok p) : implements "times" p.name := by
  obtain ⟨-, rfl⟩ := Primitive.binary_eq_ok h
  simpa [Primitive.binaryName, BinaryOp.key, String.append_assoc] using implements_append "times" _

theorem implements_div (h : Primitive.binary .div s t = .ok p) :
    implements "div" p.name ∧ implements "times" p.name = false := by
  obtain ⟨-, rfl⟩ := Primitive.binary_eq_ok h
  constructor
  · simpa [Primitive.binaryName, BinaryOp.key, String.append_assoc] using implements_append "div" _
  · simp [implements, Primitive.binaryName, BinaryOp.key, List.isPrefixOf]

/-- Functions that accumulate are told apart from all others, and from each other. -/
theorem implements_aggregate (h : Primitive.aggregate op s t = .ok p) :
    implements "times" p.name = false ∧ implements "div" p.name = false ∧
      implements "agg_plus" p.name = (op == .add) ∧ implements "agg_min" p.name = (op == .min) ∧
      implements "agg_max" p.name = (op == .max) := by
  obtain ⟨-, -, hop, rfl⟩ := Primitive.aggregate_eq_ok h
  have hcases : op = .min ∨ op = .max ∨ op = .add := by
    cases op <;> simp_all [BinaryOp.isExtremum]
  rcases hcases with rfl | rfl | rfl <;> simp [implements, BinaryOp.key, List.isPrefixOf]

theorem arithmetic_aggregating : arithmetic.Aggregating where
  add _ _ := rfl
  neutralLeft {op s t p w} hp _ _ := by
    obtain ⟨htimes, hdiv, -⟩ := implements_aggregate hp
    simp [arithmetic, Val.null, htimes, hdiv]
  neutralRight {op s t p v} hp _ _ := by
    obtain ⟨htimes, hdiv, -⟩ := implements_aggregate hp
    unfold arithmetic Val.null
    split <;> simp_all
  strict {op s t p w} hop hp _ _ := by
    rcases hop with rfl | rfl
    · simp [arithmetic, Val.null, implements_times hp]
    · simp [arithmetic, Val.null, (implements_div hp).1]

theorem arithmetic_exact (width : IntWidth) :
    arithmetic.Exact (.integer width) (Domain.integers width) where
  datum := Val.isDatum_integer width
  value_number h := h.eq_integer.symm
  weight w hwidth := by
    cases hwidth
    rfl
  cast _ _ := rfl
  nativeTimes _ _ := rfl
  times {s t p} a b hp _ := by
    change arithmetic _ [.atom (.int width a), .atom (.int width b)] = _
    simp only [arithmetic, implements_times hp, if_true]
    rfl
  plus {s t p} a b hp _ := by
    obtain ⟨htimes, hdiv, hplus, -⟩ := implements_aggregate hp
    change arithmetic _ [.atom (.int width a), .atom (.int width b)] = _
    simp only [arithmetic, htimes, hdiv, hplus, beq_self_eq_true, Bool.false_eq_true, if_false,
      if_true]
    rfl
  quotient {s t p} a n hp _ hn := by
    obtain ⟨hdiv, htimes⟩ := implements_div hp
    change arithmetic _ [.atom (.int width a), .atom (.int width n)] = _
    simp only [arithmetic, htimes, hdiv, hn, Bool.false_eq_true, if_false, if_true]
    rfl

theorem arithmetic_min (width : IntWidth) :
    arithmetic.Selects .min (.integer width) (Domain.integers width).le where
  trans := Int.le_trans
  select {s t p v w} hp _ hv hw := by
    obtain ⟨htimes, hdiv, hplus, hmin, -⟩ := implements_aggregate hp
    rw [hv.eq_integer, hw.eq_integer]
    refine ⟨.atom (.int width (min v.integer w.integer)), ?_, ?_, ?_, ?_⟩
    · simp [arithmetic, htimes, hdiv, hplus, hmin]
    · rcases min_choice v.integer w.integer with h | h <;> simp [h]
    · exact min_le_left _ _
    · exact min_le_right _ _

theorem arithmetic_max (width : IntWidth) :
    arithmetic.Selects .max (.integer width) (flip (Domain.integers width).le) where
  trans h h' := Int.le_trans h' h
  select {s t p v w} hp _ hv hw := by
    obtain ⟨htimes, hdiv, hplus, hmin, hmax⟩ := implements_aggregate hp
    rw [hv.eq_integer, hw.eq_integer]
    refine ⟨.atom (.int width (max v.integer w.integer)), ?_, ?_, ?_, ?_⟩
    · simp [arithmetic, htimes, hdiv, hplus, hmin, hmax]
    · rcases max_choice v.integer w.integer with h | h <;> simp [h]
    · exact le_max_left _ _
    · exact le_max_right _ _

end Laws

end Runtime

end ViewCircuit
