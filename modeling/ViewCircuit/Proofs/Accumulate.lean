import ViewCircuit.Proofs.OuterJoin
import ViewCircuit.Proofs.Totals

/-! One step of an aggregate call. The slots of an accumulator hold what the call has of the rows so
far; a step over one more row keeps this, and the last step makes the value of the call. -/
namespace ViewCircuit

open List (Forall₂)
open scoped Classical
open Lower (delivers_noneOf)

section Values

variable {v : Val} {t : Ty}

theorem Val.IsDatum.widen {s : Ty} (h : v.IsDatum s) (hkind : t.kind = s.kind)
    (hnull : s.mayBeNull → t.mayBeNull) : v.IsDatum t := ⟨h.1, h.2.widen hkind hnull⟩

theorem Val.IsDatum.ofNonNull {kind : Kind} (h : v.IsDatum ⟨kind, false⟩) (hkind : t.kind = kind) :
    v.IsDatum t := h.widen hkind Bool.noConfusion

theorem Val.IsDatum.nonNull (h : v.IsDatum t) (hv : v.isNull = false) :
    v.IsDatum ⟨t.kind, false⟩ := ⟨h.1, h.2.withNull fun h => by simp [hv] at h⟩

theorem Runtime.Exact.isNull_value {rt : Runtime} {kind : Kind} {D : Domain}
    (h : rt.Exact kind D) (a : D.Num) : (D.value a).isNull = false :=
  (h.datum a).2.isNull_eq_false rfl

/-- NULL is no number. -/
theorem Runtime.Exact.isNullType {rt : Runtime} {D : Domain} (h : rt.Exact t.kind D) :
    t.isNullType = false := by
  by_contra hnull
  have hvalue := (h.datum 0).2.eq_null (by simpa [Ty.isNullType] using hnull)
  have hnot := h.isNull_value 0
  rw [hvalue] at hnot
  cases hnot

end Values

section Expressions

variable {rt : Runtime} {ρ : Env} {acc value left right e w : Expr} {op : BinaryOp}
  {u v v' : Val} {vs : List Val} {types : List Ty} {ty : Ty} {i : Nat} {k m n : ℤ}

/-- A position of a tuple. -/
theorem Expr.Delivers.field {base : Expr} (hbase : base.Delivers rt ρ (Val.tuple vs))
    (hty : base.ty = Ty.tuple types) (hv : vs[i]? = some v) (h : Expr.field base i = .ok e) :
    e.Delivers rt ρ v ∧ types[i]? = some e.ty := by
  obtain ⟨ty, hfield, rfl⟩ := field_eq_ok h
  rw [hty] at hfield
  have hrow := hbase.datum
  rw [hty] at hrow
  refine ⟨⟨(evals_head_one rfl).2 ⟨_, hbase.evals, ?_⟩, ?_⟩, hfield⟩
  · exact hv
  obtain ⟨ty', hty', hdatum⟩ := Structural.getElem? (Val.isRow_tuple.1 hrow) hv
  obtain rfl := Option.some.inj (hty'.symm.trans hfield)
  exact hdatum

theorem delivers_call {p : Primitive} (hleft : left.Delivers rt ρ v)
    (hright : right.Delivers rt ρ v') (hcall : rt (.call p.name p.result) [v, v'] = some u)
    (hu : u.IsDatum p.result) :
    (Expr.call p.name [left, right] p.result).Delivers rt ρ u := by
  refine ⟨(evals_head_two rfl).2 ⟨v, 0, v', 0, hleft.evals, hright.evals, ?_, rfl⟩, hu⟩
  have hdata : Val.allData [v, v'] := by simp [Val.allData, hleft.datum.1, hright.datum.1]
  exact Runtime.run_eq_some.2 ⟨hdata, hcall, hu.1⟩

theorem delivers_native {p : Primitive} (hop : op.isLogical = false)
    (hleft : left.Delivers rt ρ v) (hright : right.Delivers rt ρ v')
    (hrun : rt (.binary op) [v, v'] = some u) (hu : u.IsDatum p.result) :
    Expr.Delivers rt ρ ⟨.binary op left right, p.result⟩ u := by
  refine ⟨(evals_head_two rfl).2 ⟨v, 0, v', 0, hleft.evals, hright.evals, ?_, rfl⟩, hu⟩
  have hdata : Val.allData [v, v'] := by simp [Val.allData, hleft.datum.1, hright.datum.1]
  have heval : op.eval rt v v' = rt.run (.binary op) [v, v'] := by
    cases op <;> first | rfl | cases hop
  exact heval.trans (Runtime.run_eq_some.2 ⟨hdata, hrun, hu.1⟩)

/-- What a function makes of NULL and a value is the value, and of two values the combination of
both. -/
theorem delivers_accumulate (hrt : rt.Aggregating) (hacc : acc.Delivers rt ρ v)
    (hvalue : value.Delivers rt ρ v') (h : accumulate op acc value = .ok e)
    (hleft : v.isNull → u = v') (hright : v'.isNull → u = v)
    (hboth : v.isNull = false → v'.isNull = false → ∀ p,
      Primitive.aggregate op acc.ty value.ty = .ok p → acc.ty.kind = value.ty.kind →
      rt (.call p.name p.result) [v, v'] = some u ∧ u.IsDatum ⟨value.ty.kind, false⟩) :
    e.Delivers rt ρ u := by
  obtain ⟨p, hp, h⟩ := except_bind_eq_ok.1 h
  cases h
  obtain ⟨-, hkind, -, hresult⟩ := Primitive.aggregate_eq_ok hp
  have hwide : p.result.kind = acc.ty.kind ∧
      p.result.mayBeNull = (acc.ty.mayBeNull || value.ty.mayBeNull) := by
    rw [hresult]
    exact ⟨rfl, rfl⟩
  cases hv : v.isNull with
  | true =>
    obtain rfl := Val.eq_null_of_isNull hv
    obtain rfl := hleft hv
    refine delivers_call hacc hvalue
      (hrt.neutralLeft hp (hacc.datum.2.mayBeNull hv) hvalue.datum) ?_
    exact hvalue.datum.widen (hwide.1.trans hkind) fun hmay => by simp [hwide.2, hmay]
  | false =>
    cases hv' : v'.isNull with
    | true =>
      obtain rfl := Val.eq_null_of_isNull hv'
      obtain rfl := hright hv'
      refine delivers_call hacc hvalue
        (hrt.neutralRight hp (hvalue.datum.2.mayBeNull hv') hacc.datum) ?_
      exact hacc.datum.widen hwide.1 fun hmay => by simp [hwide.2, hmay]
    | false =>
      obtain ⟨hcall, hu⟩ := hboth hv hv' p hp hkind
      exact delivers_call hacc hvalue hcall (hu.ofNonNull (hwide.1.trans hkind))

section Counting

theorem kind_of_int64 {t : Ty} {p : Primitive} (h : (Val.int64 m).HasTy t)
    (hp : Primitive.binary op t ty = .ok p) : t.kind = .integer .w64 := by
  cases h with
  | atom hfits => exact hfits
  | any | user | indexed =>
    unfold Primitive.binary at hp
    cases hp

theorem delivers_counted (hrt : rt.Aggregating) (hacc : acc.Delivers rt ρ (Val.int64 m))
    (hw : w.Delivers rt ρ (Val.int64 k)) (h : Expr.binary .add acc w = .ok e) :
    e.Delivers rt ρ (Val.int64 (m + k)) ∧ e.ty.kind = .integer .w64 := by
  obtain ⟨p, hp, rfl⟩ := binary_eq_ok h
  have hkind := kind_of_int64 hacc.datum.2 hp
  obtain ⟨-, rfl⟩ := Primitive.binary_eq_ok hp
  exact ⟨delivers_native (p := ⟨_, _⟩) rfl hacc hw (hrt.add m k) ⟨rfl, .atom hkind⟩, hkind⟩

/-- A count without a column takes every row. -/
theorem delivers_countRow (hrt : rt.Aggregating) (hacc : acc.Delivers rt ρ (Val.int64 m))
    (hw : w.Delivers rt ρ (Val.int64 k)) (h : countStep acc none w = .ok e) :
    e.Delivers rt ρ (Val.int64 (m + k)) := by
  obtain ⟨counted, hcounted, h⟩ := except_bind_eq_ok.1 h
  cases h
  exact (delivers_counted hrt hacc hw hcounted).1

/-- A count of a column takes the rows in which it is not NULL. -/
theorem delivers_countKnown (hrt : rt.Aggregating) (hacc : acc.Delivers rt ρ (Val.int64 m))
    (hw : w.Delivers rt ρ (Val.int64 k)) (hvalue : value.Delivers rt ρ v)
    (h : countStep acc (some value) w = .ok e) :
    e.Delivers rt ρ (Val.int64 (if v.isNull then m else m + k)) := by
  obtain ⟨counted, hcounted, h⟩ := except_bind_eq_ok.1 h
  obtain ⟨hdelivers, hkind⟩ := delivers_counted hrt hacc hw hcounted
  dsimp only at h
  split at h
  · obtain ⟨-, hkinds, rfl⟩ := ite_eq_ok h
    have hnull : Evals rt ρ (Expr.isNull value) (Val.bool v.isNull) 0 :=
      (evals_head_one rfl).2 ⟨v, hvalue.evals, rfl⟩
    refine ⟨evals_ite.2 ⟨v.isNull, 0, 0, hnull, ?_, rfl⟩, rfl, .atom (hkinds.trans hkind)⟩
    cases v.isNull with
    | true => exact hacc.evals
    | false => exact hdelivers.evals
  · rename_i hmay
    cases h
    rw [hvalue.datum.2.isNull_eq_false (by simpa using hmay)]
    exact hdelivers

end Counting

section Summing

variable {D : Domain} {x : ZSet} {row : Val} {column : Nat}

/-- A weight or count as a number. -/
theorem delivers_weightAs (hexact : rt.Exact ty.kind D) (hw : w.Delivers rt ρ (Val.int64 k))
    (hty : w.ty = Ty.int64) :
    (weightAs w ty).Delivers rt ρ (D.value k) ∧ (weightAs w ty).ty = ty.nonNull := by
  unfold weightAs
  split
  · rename_i hsame
    have hsame := (Ty.same_iff _ _).1 hsame
    rw [hexact.weight k (congrArg Ty.kind (hsame.symm.trans hty))]
    exact ⟨hw, hsame⟩
  · rename_i hsame
    have hkind : ty.kind ≠ .integer .w64 := by
      intro hkind
      refine hsame ((Ty.same_iff _ _).2 ?_)
      rw [hty, Ty.nonNull, Ty.withNull, hkind]
      rfl
    refine ⟨⟨(evals_head_one rfl).2 ⟨_, hw.evals, ?_⟩, hexact.datum k⟩, rfl⟩
    change (Val.int64 k).cast rt ty.nonNull = _
    rw [Val.cast_eq_run rfl]
    exact Runtime.run_eq_some.2 ⟨rfl, hexact.cast k hkind, (hexact.datum k).1⟩

theorem apply_eq_combine (hleft : left.ty.isNullType = false)
    (hright : right.ty.isNullType = false) : op.apply left right = op.combine left right := by
  unfold BinaryOp.apply
  rw [hleft, hright]

/-- A value times a weight, NULL if the value is. -/
theorem delivers_product (hrt : rt.Aggregating) (hexact : rt.Exact value.ty.kind D)
    (hvalue : value.Delivers rt ρ v) (hw : w.Delivers rt ρ (D.value k))
    (hwty : w.ty = value.ty.nonNull) (h : BinaryOp.mul.apply value w = .ok e) :
    e.Delivers rt ρ (if v.isNull then Val.null else D.value (D.number v * k)) ∧
      e.ty.kind = value.ty.kind := by
  have hnumber : v.isNull = false → D.value (D.number v) = v := fun hv =>
    hexact.value_number (hvalue.datum.nonNull hv)
  rw [apply_eq_combine hexact.isNullType (hwty ▸ hexact.isNullType), BinaryOp.combine] at h
  split at h
  · rename_i hnative
    obtain ⟨p, hp, rfl⟩ := binary_eq_ok h
    obtain ⟨-, rfl⟩ := Primitive.binary_eq_ok hp
    simp only [Bool.and_eq_true, Bool.not_eq_true'] at hnative
    have hv := hvalue.datum.2.isNull_eq_false hnative.1.2
    have hrun := hexact.nativeTimes (D.number v) k
    rw [hnumber hv] at hrun
    rw [hv]
    refine ⟨delivers_native (p := ⟨_, _⟩) rfl hvalue hw hrun ?_, rfl⟩
    exact (hexact.datum _).ofNonNull rfl
  · obtain ⟨p, hp, h⟩ := except_bind_eq_ok.1 h
    cases h
    have hresult := (Primitive.binary_eq_ok hp).2
    have hkind : p.result.kind = value.ty.kind := by
      rw [hresult]
      rfl
    refine ⟨?_, hkind⟩
    cases hv : v.isNull with
    | true =>
      have hmay := hvalue.datum.2.mayBeNull hv
      obtain rfl := Val.eq_null_of_isNull hv
      refine delivers_call hvalue hw (hrt.strict (.inl rfl) hp hmay hw.datum) ⟨rfl, .atom ?_⟩
      simp [Atom.Fits, hresult, Primitive.binaryResult, BinaryOp.isComparison, hmay]
    | false =>
      have hcall := hexact.times (D.number v) k hp rfl
      rw [hnumber hv] at hcall
      exact delivers_call hvalue hw hcall ((hexact.datum _).ofNonNull hkind)

/-- A count of a column over one more row. -/
theorem delivers_knownStep (hrt : rt.Aggregating)
    (hacc : acc.Delivers rt ρ (Val.int64 (x.known column).size))
    (hvalue : value.Delivers rt ρ (row.cell column)) (hw : w.Delivers rt ρ (Val.int64 k))
    (h : countStep acc (some value) w = .ok e) :
    e.Delivers rt ρ (Val.int64 ((x + Finsupp.single row k).known column).size) := by
  have hdelivers := delivers_countKnown hrt hacc hw hvalue h
  cases hcell : (row.cell column).isNull with
  | true =>
    rw [hcell, if_pos rfl] at hdelivers
    rwa [ZSet.known_add_of_null hcell]
  | false =>
    rw [hcell, if_neg Bool.false_ne_true] at hdelivers
    rwa [ZSet.known_add_of_known hcell, ZSet.size_add_single]

/-- One more row in a sum. -/
theorem delivers_sumStep (hrt : rt.Aggregating) (hexact : rt.Exact value.ty.kind D)
    (hx : x.Nonneg) (hk : 0 < k) (hacc : acc.Delivers rt ρ (x.sumOf D column))
    (hvalue : value.Delivers rt ρ (row.cell column)) (hw : w.Delivers rt ρ (Val.int64 k))
    (hwty : w.ty = Ty.int64) (h : sumStep acc value value.ty w = .ok e) :
    e.Delivers rt ρ ((x + Finsupp.single row k).sumOf D column) := by
  obtain ⟨product, hproduct, h⟩ := except_bind_eq_ok.1 h
  obtain ⟨hweight, hweightTy⟩ := delivers_weightAs hexact hw hwty
  obtain ⟨hdelivers, hkind⟩ := delivers_product hrt hexact hvalue hweight hweightTy hproduct
  refine delivers_accumulate hrt hacc hdelivers h (fun hnone => ?_) (fun hnull => ?_)
    fun hsome hknown p hp hkinds => ?_
  · -- nothing was added so far
    have hnone : x.known column = 0 := by
      by_contra hne
      rw [ZSet.sumOf, if_neg hne, hexact.isNull_value] at hnone
      cases hnone
    cases hcell : (row.cell column).isNull with
    | true =>
      rw [ZSet.sumOf_add_of_null hcell, ZSet.sumOf, if_pos hnone]
      rfl
    | false =>
      rw [ZSet.sumOf_add_of_known hx hk hcell, ZSet.total_of_known_eq_zero hnone, zero_add]
      rfl
  · -- the row adds nothing
    cases hcell : (row.cell column).isNull with
    | true => exact ZSet.sumOf_add_of_null hcell
    | false =>
      rw [hcell, if_neg Bool.false_ne_true, hexact.isNull_value] at hnull
      cases hnull
  · have hadded : x.known column ≠ 0 := by
      intro hzero
      rw [ZSet.sumOf, if_pos hzero] at hsome
      cases hsome
    have hcell : (row.cell column).isNull = false := by
      by_contra hcell
      rw [if_pos (by simpa using hcell)] at hknown
      cases hknown
    have hplus := hexact.plus (x.total D column) (D.number (row.cell column) * k) hp
      (hkinds.trans hkind)
    rw [ZSet.sumOf_add_of_known hx hk hcell, ZSet.sumOf, if_neg hadded, hcell]
    exact ⟨hplus, (hexact.datum _).ofNonNull hkind⟩

/-- A sum over a count, NULL if there is no sum. -/
theorem delivers_average {sum count : Expr} (hrt : rt.Aggregating) (hexact : rt.Exact ty.kind D)
    (hx : x.Nonneg) (hsum : sum.Delivers rt ρ (x.sumOf D column)) (hsumTy : sum.ty = ty.nullable)
    (hcount : count.Delivers rt ρ (Val.int64 (x.known column).size))
    (hcountTy : count.ty = Ty.int64)
    (h : BinaryOp.div.apply sum (weightAs count ty) = .ok e) :
    e.Delivers rt ρ (x.averageOf D column) := by
  obtain ⟨hweight, hweightTy⟩ := delivers_weightAs hexact hcount hcountTy
  rw [apply_eq_combine (hsumTy ▸ hexact.isNullType) (hweightTy ▸ hexact.isNullType)] at h
  obtain ⟨p, hp, h⟩ := except_bind_eq_ok.1 h
  cases h
  have hresult : p.result = ty.nullable := by
    rw [(Primitive.binary_eq_ok hp).2, hsumTy]
    rfl
  unfold ZSet.averageOf
  split
  · rename_i hnone
    rw [ZSet.sumOf, if_pos hnone] at hsum
    refine delivers_call hsum hweight ?_ ⟨rfl, .atom (by rw [hresult]; rfl)⟩
    exact hrt.strict (.inr rfl) hp (by rw [hsumTy]; rfl) hweight.datum
  · rename_i hsome
    rw [ZSet.sumOf, if_neg hsome] at hsum
    refine delivers_call hsum hweight ?_ ((hexact.datum _).ofNonNull (by rw [hresult]; rfl))
    exact hexact.quotient _ hp (by rw [hsumTy]; rfl) ((hx.known column).size_pos hsome).ne'

end Summing

/-- One more row in an extremum. -/
theorem delivers_extremumStep {le : Val → Val → Prop} {x : ZSet} {row : Val} {column : Nat}
    (hrt : rt.Aggregating) (hselects : rt.Selects op value.ty.kind le) (hx : x.Nonneg) (hk : 0 < k)
    (hacc : acc.Delivers rt ρ v) (hv : x.IsExtremum le column v)
    (hvalue : value.Delivers rt ρ (row.cell column)) (h : accumulate op acc value = .ok e) :
    ∃ u, e.Delivers rt ρ u ∧ (x + Finsupp.single row k).IsExtremum le column u := by
  obtain ⟨p, hp, -⟩ := except_bind_eq_ok.1 h
  obtain ⟨-, hkind, -⟩ := Primitive.aggregate_eq_ok hp
  have hold := hv.isNull_iff
  cases hcell : (row.cell column).isNull with
  | true =>
    refine ⟨v, delivers_accumulate hrt hacc hvalue h (fun hnull => ?_) (fun _ => rfl)
      (fun _ hknown => by simp [hcell] at hknown), (ZSet.isExtremum_add_of_null hcell).2 hv⟩
    rw [Val.eq_null_of_isNull hnull, Val.eq_null_of_isNull hcell]
  | false =>
    have hnew := hvalue.datum.nonNull hcell
    cases hnone : v.isNull with
    | true =>
      refine ⟨row.cell column, delivers_accumulate hrt hacc hvalue h (fun _ => rfl)
        (fun hnull => by simp [hcell] at hnull) (fun hsome => by simp [hnone] at hsome), ?_⟩
      obtain ⟨u, -, hone, hle, -⟩ := hselects.select hp hkind hnew hnew
      obtain rfl : u = row.cell column := hone.elim id id
      exact hv.add_of_known hx hk hcell (fun _ => ⟨rfl, hle⟩)
        (fun hsome => absurd (hold.1 hnone) hsome) fun _ _ _ => hselects.trans
    | false =>
      have hbefore : v.IsDatum ⟨value.ty.kind, false⟩ := hkind ▸ hacc.datum.nonNull hnone
      obtain ⟨u, hu, hone, hleft, hright⟩ := hselects.select hp hkind hbefore hnew
      refine ⟨u, delivers_accumulate hrt hacc hvalue h (fun hnull => by simp [hnone] at hnull)
        (fun hnull => by simp [hcell] at hnull) fun _ _ p' hp' _ => ?_, ?_⟩
      · obtain rfl := Except.ok.inj (hp.symm.trans hp')
        exact ⟨hu, hone.elim (fun h => h ▸ hbefore) fun h => h ▸ hnew⟩
      · refine hv.add_of_known hx hk hcell (fun hzero => ?_) (fun _ => ⟨hone, hleft, hright⟩)
          fun _ _ _ => hselects.trans
        have hnull := hold.2 hzero
        simp [hnone] at hnull

end Expressions

/-- The order in which an extremum comes first. -/
def BinaryOp.order (op : BinaryOp) (le : Val → Val → Prop) : Val → Val → Prop :=
  match op with
  | .max => flip le
  | _ => le

namespace Accumulator

/-- The slots of an accumulator hold these values when the rows of a collection were taken. -/
def Holds (domains : Nat → Domain) (a : Accumulator) (x : ZSet) (part : List Val) : Prop :=
  match a with
  | .count none => part = [Val.int64 x.size]
  | .count (some column) => part = [Val.int64 (x.known column).size]
  | .sum column _ => part = [x.sumOf (domains column) column]
  | .extremum op column _ =>
    ∃ v, part = [v] ∧ x.IsExtremum (op.order (domains column).le) column v
  | .avg column _ => part = [x.sumOf (domains column) column, Val.int64 (x.known column).size]

/-- The value of the call of an accumulator over the rows of a collection. -/
def Computes (domains : Nat → Domain) (a : Accumulator) (x : ZSet) (v : Val) : Prop :=
  match a with
  | .avg column _ => v = x.averageOf (domains column) column
  | a => a.Holds domains x [v]

/-- The accumulator reads a column of the type that it names, and the runtime can compute it. -/
def Supported (rt : Runtime) (domains : Nat → Domain) (types : List Ty) (a : Accumulator) : Prop :=
  match a with
  | .count _ => True
  | .sum column ty | .avg column ty =>
    types[column]? = some ty ∧ rt.Exact ty.kind (domains column)
  | .extremum op column ty =>
    types[column]? = some ty ∧ rt.Selects op ty.kind (op.order (domains column).le)

/-- Expressions for the slots of an accumulator that deliver these values. -/
def Reads (rt : Runtime) (ρ : Env) (a : Accumulator) (slot : Nat → Except CompileError Expr)
    (part : List Val) : Prop :=
  ∀ i v e, part[i]? = some v → slot i = .ok e →
    e.Delivers rt ρ v ∧ (a.zero.map Expr.ty)[i]? = some e.ty

variable {rt : Runtime} {ρ : Env} {domains : Nat → Domain} {types : List Ty} {a : Accumulator}
  {x : ZSet} {part : List Val} {slot : Nat → Except CompileError Expr} {row : Val} {t w e : Expr}
  {k : ℤ}

theorem delivers_int64 (i : Int) : (Expr.int64 i).Delivers rt ρ (Val.int64 i) :=
  ⟨(evals_head rfl).2 ⟨[], evalsAll_nil.2 ⟨rfl, rfl⟩, rfl⟩, rfl, .atom rfl⟩

theorem Holds.length (h : a.Holds domains x part) : part.length = a.zero.length := by
  cases a with
  | count column => cases column <;> exact congrArg List.length h
  | sum | avg => exact congrArg List.length h
  | extremum =>
    obtain ⟨v, rfl, -⟩ := h
    rfl

theorem holds_zero (a : Accumulator) :
    ∃ part, a.Holds domains 0 part ∧ Forall₂ (Expr.Delivers rt ρ) a.zero part := by
  have hnone : ∀ ty, (Expr.noneOf ty).Delivers rt ρ Val.null := fun ty => delivers_noneOf ty
  have hcount : (Expr.int64 0).Delivers rt ρ (Val.int64 0) := delivers_int64 0
  cases a with
  | count column =>
    refine ⟨[Val.int64 0], ?_, .cons hcount .nil⟩
    cases column <;> simp [Holds]
  | sum column ty =>
    exact ⟨[Val.null], congrArg (fun v => [v]) ZSet.sumOf_zero.symm, .cons (hnone ty) .nil⟩
  | extremum op column ty =>
    exact ⟨[Val.null], ⟨Val.null, rfl, ZSet.isExtremum_zero⟩, .cons (hnone ty) .nil⟩
  | avg column ty =>
    refine ⟨[Val.null, Val.int64 0], ?_, .cons (hnone ty) (.cons hcount .nil)⟩
    simp [Holds, ZSet.sumOf_zero]

/-- The value of the call over no rows. -/
def overNothing : Accumulator → Val
  | .count _ => Val.int64 0
  | _ => Val.null

theorem computes_overNothing (a : Accumulator) : a.Computes domains 0 a.overNothing := by
  cases a with
  | count column => cases column <;> simp [Computes, Holds, overNothing]
  | sum => exact congrArg (fun v => [v]) ZSet.sumOf_zero.symm
  | extremum => exact ⟨Val.null, rfl, ZSet.isExtremum_zero⟩
  | avg => exact (if_pos (map_zero _)).symm

theorem delivers_emptyValue (a : Accumulator) (ty : Ty) :
    (a.emptyValue ty).Delivers rt ρ a.overNothing := by
  cases a with
  | count => exact delivers_int64 0
  | _ => exact delivers_noneOf ty

/-- A step takes one more row. -/
theorem Holds.step (hrt : rt.Aggregating) (hsupported : a.Supported rt domains types)
    (hholds : a.Holds domains x part) (hslot : Reads rt ρ a slot part) (hx : x.Nonneg)
    (hk : 0 < k) (ht : t.RefersTo rt ρ types row) (hw : w.Delivers rt ρ (Val.int64 k))
    (hwty : w.ty = Ty.int64) {es : List Expr} (h : a.step slot t w = .ok es) :
    ∃ part', a.Holds domains (x + Finsupp.single row k) part' ∧
      Forall₂ (Expr.Delivers rt ρ) es part' := by
  have hfield : ∀ {column ty value}, types[column]? = some ty →
      Expr.field t column = .ok value → value.ty = ty := by
    intro column ty value hty hvalue
    exact Option.some.inj ((type_of_field ht.ty hvalue).1.symm.trans hty)
  have hsum : ∀ {column ty value acc e}, types[column]? = some ty →
      rt.Exact ty.kind (domains column) →
      acc.Delivers rt ρ (x.sumOf (domains column) column) →
      Expr.field t column = .ok value → sumStep acc value ty w = .ok e →
      e.Delivers rt ρ ((x + Finsupp.single row k).sumOf (domains column) column) := by
    intro column ty value acc e hty hexact hacc hvalue he
    obtain rfl := hfield hty hvalue
    exact delivers_sumStep hrt hexact hx hk hacc (ht.field hvalue) hw hwty he
  cases a with
  | count column =>
    cases column with
    | none =>
      obtain rfl : part = _ := hholds
      obtain ⟨acc, hacc, h⟩ := except_bind_eq_ok.1 h
      obtain ⟨e, he, h⟩ := except_bind_eq_ok.1 h
      cases h
      refine ⟨_, rfl, .cons ?_ .nil⟩
      rw [ZSet.size_add_single]
      exact delivers_countRow hrt (hslot 0 _ acc rfl hacc).1 hw he
    | some column =>
      obtain rfl : part = _ := hholds
      obtain ⟨value, hvalue, h⟩ := except_bind_eq_ok.1 h
      obtain ⟨acc, hacc, h⟩ := except_bind_eq_ok.1 h
      obtain ⟨e, he, h⟩ := except_bind_eq_ok.1 h
      cases h
      exact ⟨_, rfl,
        .cons (delivers_knownStep hrt (hslot 0 _ acc rfl hacc).1 (ht.field hvalue) hw he) .nil⟩
  | sum column ty =>
    obtain rfl : part = _ := hholds
    obtain ⟨hty, hexact⟩ := hsupported
    obtain ⟨acc, hacc, h⟩ := except_bind_eq_ok.1 h
    obtain ⟨value, hvalue, h⟩ := except_bind_eq_ok.1 h
    obtain ⟨e, he, h⟩ := except_bind_eq_ok.1 h
    cases h
    exact ⟨_, rfl, .cons (hsum hty hexact (hslot 0 _ acc rfl hacc).1 hvalue he) .nil⟩
  | extremum op column ty =>
    obtain ⟨v, rfl, hv⟩ := hholds
    obtain ⟨hty, hselects⟩ := hsupported
    obtain ⟨acc, hacc, h⟩ := except_bind_eq_ok.1 h
    obtain ⟨value, hvalue, h⟩ := except_bind_eq_ok.1 h
    obtain ⟨e, he, h⟩ := except_bind_eq_ok.1 h
    cases h
    obtain rfl := hfield hty hvalue
    obtain ⟨u, hu, hextremum⟩ := delivers_extremumStep hrt hselects hx hk
      (hslot 0 _ acc rfl hacc).1 hv (ht.field hvalue) he
    exact ⟨[u], ⟨u, rfl, hextremum⟩, .cons hu .nil⟩
  | avg column ty =>
    obtain rfl : part = _ := hholds
    obtain ⟨hty, hexact⟩ := hsupported
    obtain ⟨acc, hacc, h⟩ := except_bind_eq_ok.1 h
    obtain ⟨value, hvalue, h⟩ := except_bind_eq_ok.1 h
    obtain ⟨total, htotal, h⟩ := except_bind_eq_ok.1 h
    obtain ⟨counter, hcounter, h⟩ := except_bind_eq_ok.1 h
    obtain ⟨value', hvalue', h⟩ := except_bind_eq_ok.1 h
    obtain ⟨count, hcount, h⟩ := except_bind_eq_ok.1 h
    cases h
    refine ⟨_, rfl, .cons ?_ (.cons ?_ .nil)⟩
    · exact hsum hty hexact (hslot 0 _ acc rfl hacc).1 hvalue htotal
    · exact delivers_knownStep hrt (hslot 1 _ counter rfl hcounter).1 (ht.field hvalue') hw hcount

/-- The last step makes the value of the call. -/
theorem Holds.result (hrt : rt.Aggregating) (hsupported : a.Supported rt domains types)
    (hholds : a.Holds domains x part) (hslot : Reads rt ρ a slot part) (hx : x.Nonneg)
    (h : a.result slot = .ok e) : ∃ v, a.Computes domains x v ∧ e.Delivers rt ρ v := by
  cases a with
  | count column =>
    cases column with
    | none =>
      obtain rfl : part = _ := hholds
      exact ⟨_, rfl, (hslot 0 _ e rfl h).1⟩
    | some column =>
      obtain rfl : part = _ := hholds
      exact ⟨_, rfl, (hslot 0 _ e rfl h).1⟩
  | sum column ty =>
    obtain rfl : part = _ := hholds
    exact ⟨_, rfl, (hslot 0 _ e rfl h).1⟩
  | extremum op column ty =>
    obtain ⟨v, rfl, hv⟩ := hholds
    exact ⟨v, ⟨v, rfl, hv⟩, (hslot 0 _ e rfl h).1⟩
  | avg column ty =>
    obtain rfl : part = _ := hholds
    obtain ⟨-, hexact⟩ := hsupported
    obtain ⟨sum, hsum, h⟩ := except_bind_eq_ok.1 h
    obtain ⟨count, hcount, h⟩ := except_bind_eq_ok.1 h
    obtain ⟨hsum, hsumTy⟩ := hslot 0 _ sum rfl hsum
    obtain ⟨hcount, hcountTy⟩ := hslot 1 _ count rfl hcount
    exact ⟨_, rfl, delivers_average hrt hexact hx hsum (Option.some.inj hsumTy).symm hcount
      (Option.some.inj hcountTy).symm h⟩

end Accumulator

namespace AggregateCall

variable {domains : Nat → Domain} {types : List Ty} {call : AggregateCall} {a : Accumulator}

theorem columnType_eq_ok {column : Nat} {ty : Ty} (h : call.columnType types column = .ok ty) :
    types[column]? = some ty := by
  unfold columnType at h
  split at h
  · cases h
    assumption
  · cases h

theorem required_eq_ok {column : Nat} (h : call.required = .ok column) :
    call.argument = some column := by
  unfold required at h
  split at h
  · cases h
    assumption
  · cases h

/-- An accumulator computes its call over a column that the call names. -/
theorem of_accumulator (h : call.accumulator types = .ok a) :
    (∀ rt : Runtime, call.Supported rt domains types → a.Supported rt domains types) ∧
      ∀ x v, a.Computes domains x v → call.Computes domains x v := by
  obtain ⟨function, argument, distinct⟩ := call
  cases function with
  | count =>
    cases argument with
    | none =>
      cases h
      exact ⟨fun _ _ => trivial, fun _ _ hv => List.head_eq_of_cons_eq hv⟩
    | some column =>
      obtain ⟨ty, -, h⟩ := except_bind_eq_ok.1 h
      cases h
      exact ⟨fun _ _ => trivial, fun _ _ hv => List.head_eq_of_cons_eq hv⟩
  | sum =>
    obtain ⟨column, hcolumn, h⟩ := except_bind_eq_ok.1 h
    obtain ⟨ty, hty, h⟩ := except_bind_eq_ok.1 h
    cases h
    obtain rfl := required_eq_ok hcolumn
    have hty := columnType_eq_ok hty
    exact ⟨fun _ hrt => ⟨hty, hrt column rfl ty hty⟩, fun _ _ hv => List.head_eq_of_cons_eq hv⟩
  | avg =>
    obtain ⟨column, hcolumn, h⟩ := except_bind_eq_ok.1 h
    obtain ⟨ty, hty, h⟩ := except_bind_eq_ok.1 h
    cases h
    obtain rfl := required_eq_ok hcolumn
    have hty := columnType_eq_ok hty
    exact ⟨fun _ hrt => ⟨hty, hrt column rfl ty hty⟩, fun _ _ hv => hv⟩
  | min | max =>
    obtain ⟨column, hcolumn, h⟩ := except_bind_eq_ok.1 h
    obtain ⟨ty, hty, h⟩ := except_bind_eq_ok.1 h
    cases h
    obtain rfl := required_eq_ok hcolumn
    have hty := columnType_eq_ok hty
    refine ⟨fun _ hrt => ⟨hty, hrt column rfl ty hty⟩, fun _ _ hv => ?_⟩
    obtain ⟨u, hu, hextremum⟩ := hv
    obtain rfl := List.head_eq_of_cons_eq hu
    exact hextremum

end AggregateCall

end ViewCircuit
