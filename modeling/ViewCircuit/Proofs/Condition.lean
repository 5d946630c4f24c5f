import ViewCircuit.Proofs.Positive
import ViewCircuit.Proofs.Relations

/-! Conditions over a row. A condition holds when it evaluates to true, so NULL is no more than
false; then it holds exactly when all its conjuncts do, and an equation between columns says that
their values are the same and not NULL. -/
namespace ViewCircuit

open List (Forall₂)

/-- What a runtime makes of truth values and equality: a conjunction is true of two truths only,
equality is strict in NULL and the identity on other values, and a conversion within one kind of
types keeps the value. -/
structure Runtime.Logical (rt : Runtime) : Prop where
  and {s t : Ty} {p : Primitive} {v w : Val} : Primitive.binary .and s t = .ok p →
    (rt (.call p.name p.result) [v, w] = some (Val.bool true) ↔
      v = Val.bool true ∧ w = Val.bool true)
  nativeAnd {v w : Val} : rt (.binary .and) [v, w] = some (Val.bool true) →
    v = Val.bool true ∧ w = Val.bool true
  eq {s t : Ty} {p : Primitive} {v w : Val} : Primitive.binary .eq s t = .ok p → v.HasTy s →
    w.HasTy t → (rt (.call p.name p.result) [v, w] = some (Val.bool true) ↔
      v.isNull = false ∧ v = w)
  nativeEq {s t : Ty} {p : Primitive} {v w : Val} : Primitive.binary .eq s t = .ok p →
    v.HasTy s → w.HasTy t → v.isNull = false → w.isNull = false →
    (rt (.binary .eq) [v, w] = some (Val.bool true) ↔ v = w)
  isTrue {t : Ty} {p : Primitive} {v : Val} : Primitive.unary .isTrue t = .ok p →
    (rt (.call p.name p.result) [v] = some (Val.bool true) ↔ v = Val.bool true)
  not (b : Bool) : rt (.unary .not) [Val.bool b] = some (Val.bool !b)
  cast {s t : Ty} {v : Val} : v.HasTy s → s.kind = t.kind → v.isNull = false →
    rt (.cast t) [v] = some v

/-- The expression evaluates to true. -/
def Expr.Holds (rt : Runtime) (ρ : Env) (e : Expr) : Prop := ∃ k, Evals rt ρ e (Val.bool true) k

/-- The scalar over a row evaluates to true. -/
def Scalar.Holds (rt : Runtime) (ρ : Env) (row : Expr) (s : Scalar) : Prop :=
  ∃ e, s.toExpr row = .ok e ∧ e.Holds rt ρ

variable {rt : Runtime} {ρ : Env} {Γ : TyEnv} {row left right e : Expr} {v w : Val} {k l : Nat}

theorem Runtime.run_eq_some {i : Instruction} {vs : List Val} :
    rt.run i vs = some v ↔ Val.allData vs ∧ rt i vs = some v ∧ v.isData := by
  unfold Runtime.run
  split <;> simp_all [Option.filter_eq_some_iff]

theorem Val.cast_eq_run {t : Ty} (hv : v.isNull = false) : v.cast rt t = rt.run (.cast t) [v] := by
  simp [Val.cast, hv]

section Null

/-- Data always is of some type. -/
theorem Val.exists_hasTy : ∀ v : Val, v.isData → ∃ t, v.HasTy t
  | .atom .null, _ => ⟨Ty.null, .atom rfl⟩
  | .node .ref [v], h => by
    obtain ⟨t, ht⟩ := exists_hasTy v (by simpa [isData, allData] using h)
    exact ⟨Ty.ref t, .ref ht⟩
  | .atom (.bool _), _ | .atom (.int ..), _ | .atom (.float _), _ | .atom (.double _), _
  | .atom (.decimal ..), _ | .atom (.string _), _ | .atom (.date _), _ | .atom (.timestamp _), _
  | .atom (.interval _), _ | .atom (.usize _), _ | .node .ref [], _ | .node .ref (_ :: _ :: _), _
  | .node .tuple _, _ | .node .vec _, _ | .node (.zset _) _, _ | .node (.range ..) _, _
  | .node .fold _, _ => ⟨Ty.any, .any rfl nofun⟩

theorem Ty.isNullType_iff {t : Ty} : t.isNullType ↔ t.kind = .null := by
  unfold isNullType
  split <;> simp_all

theorem Ty.isNullType_congr {s t : Ty} (h : s.kind = t.kind) : s.isNullType = t.isNullType := by
  unfold isNullType
  rw [h]

theorem Ty.kind_of_isBool {t : Ty} (h : t.isBool) : t.kind = .bool := by
  unfold isBool at h
  split at h
  · assumption
  · cases h

@[simp] theorem Ty.isNullType_withNull (t : Ty) (n : Bool) :
    (t.withNull n).isNullType = t.isNullType := rfl
@[simp] theorem Ty.isNullType_nullable (t : Ty) : t.nullable.isNullType = t.isNullType := rfl
@[simp] theorem Ty.isNullType_nonNull (t : Ty) : t.nonNull.isNullType = t.isNullType := rfl

/-- NULL is all there is of its own type. -/
theorem Val.HasTy.eq_null {t : Ty} (h : v.HasTy t) (ht : t.isNullType) : v = Val.null := by
  rw [Ty.isNullType_iff] at ht
  cases h with
  | @atom a _ ha => cases a <;> simp_all [Atom.Fits, Val.null]
  | tuple hts => simp [Ty.tupleFields?, ht] at hts
  | _ => cases ht

theorem Val.cast_null {t : Ty} (h : Val.null.cast rt t = some v) : v = Val.null := by
  have hnull : (if t.mayBeNull then some Val.null else none) = some v := h
  split at hnull
  · exact (Option.some.inj hnull).symm
  · cases hnull

/-- Whatever is converted to the type of NULL is NULL. -/
theorem Val.cast_nullType (hrt : rt.Typed) {t : Ty} (ht : t.isNullType)
    (h : v.cast rt t = some w) : w = Val.null := by
  by_cases hv : v.isNull
  · obtain rfl := Val.eq_null_of_isNull hv
    exact Val.cast_null h
  · have hrun := h
    rw [Val.cast_eq_run (by simpa using hv), Runtime.run_eq_some] at hrun
    obtain ⟨s, hs⟩ := v.exists_hasTy (by simpa [Val.allData] using hrun.1)
    exact (hs.cast hrt h).eq_null ht

theorem Family.isNullType_of_ofTy? {t : Ty} {family : Family} (h : Family.ofTy? t = some family) :
    t.isNullType = false := by
  unfold Family.ofTy? at h
  unfold Ty.isNullType
  split at h <;> simp_all

/-- What a function for a binary operator is called and returns. -/
theorem Primitive.binary_eq_ok {op : BinaryOp} {s t : Ty} {p : Primitive}
    (h : Primitive.binary op s t = .ok p) : s.isNullType = false ∧
      p = ⟨Primitive.binaryName op s t, Primitive.binaryResult op s t⟩ := by
  unfold Primitive.binary at h
  split at h
  · cases h
  · rename_i hfamily
    split at h
    · cases h
    · split at h
      · cases h
      · cases h
        exact ⟨Family.isNullType_of_ofTy? hfamily, rfl⟩

theorem Primitive.unary_eq_ok {op : UnaryPrimitive} {t : Ty} {p : Primitive}
    (h : Primitive.unary op t = .ok p) : t.isNullType = false ∧
      p = ⟨op.key ++ "_" ++ Primitive.operandName t ++ "_",
        if op.isPredicate then Ty.bool else t⟩ := by
  unfold Primitive.unary at h
  split at h
  · cases h
  · rename_i hfamily
    split at h
    · cases h
    · cases h
      exact ⟨Family.isNullType_of_ofTy? hfamily, rfl⟩

theorem Primitive.isNullType_binary {op : BinaryOp} {s t : Ty} {p : Primitive}
    (h : Primitive.binary op s t = .ok p) : p.result.isNullType = false := by
  obtain ⟨hs, rfl⟩ := Primitive.binary_eq_ok h
  unfold Primitive.binaryResult
  dsimp only
  split
  · rfl
  · split
    · rfl
    · split <;> exact hs

theorem Primitive.isNullType_unary {op : UnaryPrimitive} {t : Ty} {p : Primitive}
    (h : Primitive.unary op t = .ok p) : p.result.isNullType = false := by
  obtain ⟨ht, rfl⟩ := Primitive.unary_eq_ok h
  dsimp only
  split
  · rfl
  · exact ht

theorem isNullType_callUnary {op : UnaryPrimitive} (h : callUnary op left = .ok e) :
    e.ty.isNullType = false := by
  obtain ⟨p, hp, h⟩ := except_bind_eq_ok.1 h
  cases h
  exact Primitive.isNullType_unary hp

theorem isNullType_unary {op : UnaryOp} (h : Expr.unary op left = .ok e) :
    e.ty.isNullType = false := by
  obtain ⟨hsig, rfl⟩ := unary_eq_ok h
  cases hsig with
  | not ht =>
    unfold Ty.isNullType
    rw [Ty.kind_of_isBool ht]
  | neg ht =>
    unfold Ty.isNumeric at ht
    unfold Ty.isNullType
    split at ht <;> simp_all

theorem isNullType_combine {op : BinaryOp} (h : op.combine left right = .ok e) :
    e.ty.isNullType = false := by
  unfold BinaryOp.combine at h
  split at h
  · obtain ⟨p, hp, rfl⟩ := binary_eq_ok h
    exact Primitive.isNullType_binary hp
  · obtain ⟨p, hp, h⟩ := except_bind_eq_ok.1 h
    cases h
    exact Primitive.isNullType_binary hp

/-- Except for negation, which keeps an untyped NULL, unary operators have a type of their own. -/
theorem isNullType_sqlUnary {op : SqlUnary} (h : op.apply left = .ok e) :
    e.ty.isNullType = false ∨ e = left := by
  have htruth : (if left.ty.isNullType then Expr.cast left Ty.bool.nullable else
      left).ty.isNullType = false := by
    split
    · rfl
    · simpa using ‹¬left.ty.isNullType = true›
  cases op with
  | isNull =>
    cases h
    exact .inl rfl
  | isNotNull =>
    simp only [SqlUnary.apply] at h
    exact .inl (isNullType_unary h)
  | neg =>
    simp only [SqlUnary.apply] at h
    split at h
    · cases h
      exact .inr rfl
    · split at h
      · exact .inl (isNullType_callUnary h)
      · exact .inl (isNullType_unary h)
  | isTrue | isNotFalse =>
    simp only [SqlUnary.apply] at h
    generalize (if left.ty.isNullType then Expr.cast left Ty.bool.nullable else left) = truth
      at h htruth
    split at h
    · exact .inl (isNullType_callUnary h)
    · cases h
      exact .inl htruth
  | not | isFalse | isNotTrue =>
    simp only [SqlUnary.apply] at h
    generalize (if left.ty.isNullType then Expr.cast left Ty.bool.nullable else left) = truth
      at h htruth
    split at h
    · exact .inl (isNullType_callUnary h)
    · exact .inl (isNullType_unary h)

theorem isNullType_commonShape {es : List Expr} {shape : Option Ty} {nullable : Bool} {s : Ty}
    {n : Bool} (h : commonShape es shape nullable = .ok (some s, n))
    (hshape : ∀ t ∈ shape, t.isNullType = false) : s.isNullType = false := by
  fun_induction commonShape es shape nullable with
  | case1 shape nullable =>
    cases h
    exact hshape s rfl
  | case2 shape nullable e es he ih => exact ih h hshape
  | case3 nullable e es he ih =>
    refine ih h fun t ht => ?_
    cases ht
    simpa using he
  | case4 nullable e es he s hs ih => exact ih h hshape
  | case5 => cases h

theorem isNullType_coerce {t : Ty} (ht : t.isNullType = false) (h : coerce t left = .ok e) :
    e.ty.isNullType = false := by
  unfold coerce at h
  split at h
  · cases h
    exact ht
  · rename_i hleft
    split at h
    · obtain ⟨-, rfl⟩ := someOf_eq_ok h
      simpa using hleft
    · cases h
      simpa using hleft

theorem isNullType_caseChain {t : Ty} (ht : t.isNullType = false) {branches : List (Expr × Expr)}
    (h : caseChain t branches left = .ok e) : e.ty.isNullType = false := by
  cases branches with
  | nil => exact isNullType_coerce ht h
  | cons branch rest =>
    obtain ⟨no, -, h⟩ := except_bind_eq_ok.1 h
    obtain ⟨yes, hyes, h⟩ := except_bind_eq_ok.1 h
    obtain ⟨-, -, rfl⟩ := ite_eq_ok h
    simpa using isNullType_coerce ht hyes

theorem Value.isNullType_of_literal {value : Value} {t : Ty} {literal : Literal}
    (h : value.literal t = .ok literal) : t.isNullType = false := by
  by_contra hnull
  have hkind : t.kind = .null := Ty.isNullType_iff.1 (by simpa using hnull)
  unfold Value.literal at h
  rw [hkind] at h
  cases value <;> cases h

theorem evals_null {t : Ty} (h : Evals rt ρ (Expr.literal .null t) v k) : v = Val.null := by
  obtain ⟨_, -, hv⟩ := (evals_head rfl).1 h
  exact (Option.some.inj hv).symm

/-- A scalar without a type of its own is NULL. -/
theorem Scalar.eq_null (hrt : rt.Typed) (hrow : WellTyped Γ row) (hρ : EnvTyped Γ ρ) :
    ∀ (s : Scalar) {e : Expr} {v : Val} {k : Nat}, s.toExpr row = .ok e → e.ty.isNullType →
      Evals rt ρ e v k → v = Val.null
  | .column index, e, v, k, h, hnull, hv => by
    have hcolumn : WellTyped Γ e := .field hrow (by simpa only [toExpr] using h)
    exact (hcolumn.hasTy hrt hρ hv).eq_null hnull
  | .literal value ty, e, v, k, h, hnull, hv => by
    simp only [toExpr, Value.toExpr] at h
    split at h
    · cases h
      exact evals_null hv
    · obtain ⟨literal, hliteral, h⟩ := except_bind_eq_ok.1 h
      have hkind := Value.isNullType_of_literal hliteral
      split at h
      · obtain ⟨-, rfl⟩ := someOf_eq_ok h
        exact absurd hnull (by simp [Expr.literal, hkind])
      · cases h
        exact absurd hnull (by simp [Expr.literal, hkind])
  | .unary op operand, e, v, k, h, hnull, hv => by
    obtain ⟨o, ho, h⟩ := except_bind_eq_ok.1 h
    rcases isNullType_sqlUnary h with htyped | rfl
    · simp [htyped] at hnull
    · exact eq_null hrt hrow hρ operand ho hnull hv
  | .binary op left right, e, v, k, h, hnull, hv => by
    obtain ⟨l, hl, h⟩ := except_bind_eq_ok.1 h
    obtain ⟨r, hr, h⟩ := except_bind_eq_ok.1 h
    unfold BinaryOp.apply at h
    split at h
    · cases h
      exact evals_null hv
    all_goals
      have htyped := isNullType_combine h
      simp [htyped] at hnull
  | .cast operand ty, e, v, k, h, hnull, hv => by
    obtain ⟨o, ho, h⟩ := except_bind_eq_ok.1 h
    obtain rfl := Except.ok.inj h
    by_cases hsame : o.ty.same ty
    · rw [if_pos hsame] at hnull hv
      exact eq_null hrt hrow hρ operand ho hnull hv
    · rw [if_neg hsame] at hnull hv
      obtain ⟨_, hparts, hcast⟩ := (evals_head rfl).1 hv
      obtain ⟨u, _, _, _, -, hrest, rfl, -⟩ := evalsAll_cons.1 hparts
      obtain ⟨rfl, -⟩ := evalsAll_nil.1 hrest
      exact Val.cast_nullType hrt hnull hcast
  | .case branches otherwise, e, v, k, h, hnull, hv => by
    obtain ⟨bs, -, h⟩ := except_bind_eq_ok.1 h
    obtain ⟨o, -, h⟩ := except_bind_eq_ok.1 h
    obtain ⟨⟨shape, nullable⟩, hshape, h⟩ := except_bind_eq_ok.1 h
    cases shape with
    | none =>
      cases h
      exact evals_null hv
    | some shape =>
      have hkind := isNullType_commonShape hshape (by simp)
      have htyped := isNullType_caseChain (t := shape.withNull nullable) hkind h
      simp [htyped] at hnull

end Null

section Truth

theorem holds_bool (b : Bool) : (Expr.bool b).Holds rt ρ ↔ b = true := by
  constructor
  · rintro ⟨k, h⟩
    obtain ⟨_, -, hv⟩ := (evals_head rfl).1 h
    simpa [Head.combine, Expr.bool, Expr.literal, Literal.atom?, Val.bool] using hv
  · rintro rfl
    exact ⟨0, (evals_head rfl).2 ⟨[], evalsAll_nil.2 ⟨rfl, rfl⟩, rfl⟩⟩

/-- What only evaluates to NULL does not hold. -/
theorem not_holds_of_null (h : ∀ v k, Evals rt ρ e v k → v = Val.null) : ¬e.Holds rt ρ := by
  rintro ⟨k, hk⟩
  cases h _ k hk

/-- A conjunction holds when both sides do. -/
theorem holds_binary_and (hlogic : rt.Logical) (h : Expr.binary .and left right = .ok e) :
    e.Holds rt ρ ↔ left.Holds rt ρ ∧ right.Holds rt ρ := by
  obtain ⟨p, -, rfl⟩ := binary_eq_ok h
  constructor
  · rintro ⟨k, hk⟩
    obtain ⟨v, l, w, m, hv, hw, hand, -⟩ := (evals_head_two rfl).1 hk
    have hand : BinaryOp.and.eval rt v w = some (Val.bool true) := hand
    obtain ⟨rfl, rfl⟩ : v = Val.bool true ∧ w = Val.bool true := by
      unfold BinaryOp.eval at hand
      split at hand
      · simpa [Val.bool] using hand
      · simp_all
      · exact hlogic.nativeAnd (Runtime.run_eq_some.1 hand).2.1
    exact ⟨⟨l, hv⟩, m, hw⟩
  · rintro ⟨⟨l, hv⟩, m, hw⟩
    exact ⟨l + m, (evals_head_two rfl).2 ⟨_, l, _, m, hv, hw, rfl, rfl⟩⟩

theorem holds_combine_and (hlogic : rt.Logical) (h : BinaryOp.and.combine left right = .ok e) :
    e.Holds rt ρ ↔ left.Holds rt ρ ∧ right.Holds rt ρ := by
  unfold BinaryOp.combine at h
  split at h
  · exact holds_binary_and hlogic h
  · obtain ⟨p, hp, h⟩ := except_bind_eq_ok.1 h
    cases h
    constructor
    · rintro ⟨k, hk⟩
      obtain ⟨v, l, w, m, hv, hw, hand, -⟩ := (evals_head_two rfl).1 hk
      obtain ⟨rfl, rfl⟩ := (hlogic.and hp).1 (Runtime.run_eq_some.1 hand).2.1
      exact ⟨⟨l, hv⟩, m, hw⟩
    · rintro ⟨⟨l, hv⟩, m, hw⟩
      refine ⟨l + m, (evals_head_two rfl).2 ⟨_, l, _, m, hv, hw, ?_, rfl⟩⟩
      exact Runtime.run_eq_some.2 ⟨rfl, (hlogic.and hp).2 ⟨rfl, rfl⟩, rfl⟩

/-- An untyped NULL that is converted stays NULL. -/
theorem null_of_cast {t : Ty} (h : ∀ v k, Evals rt ρ left v k → v = Val.null) :
    ∀ v k, Evals rt ρ (Expr.cast left t) v k → v = Val.null := by
  intro v k hv
  obtain ⟨u, hu, hcast⟩ := (evals_head_one rfl).1 hv
  obtain rfl := h u k hu
  exact Val.cast_null hcast

theorem holds_apply_and (hlogic : rt.Logical) (h : BinaryOp.and.apply left right = .ok e)
    (hleft : left.ty.isNullType → ∀ v k, Evals rt ρ left v k → v = Val.null)
    (hright : right.ty.isNullType → ∀ v k, Evals rt ρ right v k → v = Val.null) :
    e.Holds rt ρ ↔ left.Holds rt ρ ∧ right.Holds rt ρ := by
  unfold BinaryOp.apply at h
  split at h
  · rename_i hl hr
    cases h
    exact iff_of_false (not_holds_of_null fun _ _ => evals_null)
      fun hboth => not_holds_of_null (hleft hl) hboth.1
  · rename_i hl hr
    rw [holds_combine_and hlogic h]
    exact iff_of_false (fun hboth => not_holds_of_null (null_of_cast (hleft hl)) hboth.1)
      fun hboth => not_holds_of_null (hleft hl) hboth.1
  · rename_i hl hr
    rw [holds_combine_and hlogic h]
    exact iff_of_false (fun hboth => not_holds_of_null (null_of_cast (hright hr)) hboth.2)
      fun hboth => not_holds_of_null (hright hr) hboth.2
  · exact holds_combine_and hlogic h

/-- An equation of two values of one kind holds when they are the same and not NULL. -/
theorem holds_apply_eq (hlogic : rt.Logical) (h : BinaryOp.eq.apply left right = .ok e)
    (hkind : left.ty.kind = right.ty.kind) (hv : Evals rt ρ left v k) (hw : Evals rt ρ right w l)
    (hvty : v.HasTy left.ty) (hwty : w.HasTy right.ty) (hvdata : v.isData) (hwdata : w.isData) :
    e.Holds rt ρ ↔ v.isNull = false ∧ v = w := by
  have hsame := Ty.isNullType_congr hkind
  have hcombined : ∀ {t : Ty} {head : Head} {e : Expr}, e.ty = t →
      e.form.head? = some (head, [left, right]) →
      (e.Holds rt ρ ↔ head.combine rt t [v, w] = some (Val.bool true)) := by
    rintro t head e rfl hform
    constructor
    · rintro ⟨n, hn⟩
      obtain ⟨v', _, w', _, hv', hw', heq, -⟩ := (evals_head_two hform).1 hn
      rwa [(hv.unique hv').1, (hw.unique hw').1]
    · intro heq
      exact ⟨k + l, (evals_head_two hform).2 ⟨v, k, w, l, hv, hw, heq, rfl⟩⟩
  have hdata : Val.allData [v, w] := by simp [Val.allData, hvdata, hwdata]
  unfold BinaryOp.apply at h
  split at h
  · rename_i hl hr
    cases h
    obtain rfl := hvty.eq_null hl
    exact iff_of_false (not_holds_of_null fun _ _ => evals_null) fun hboth => by cases hboth.1
  · simp_all
  · simp_all
  · unfold BinaryOp.combine at h
    split at h
    · rename_i hnative
      obtain ⟨p, hp, rfl⟩ := binary_eq_ok h
      simp only [Bool.and_eq_true, Bool.not_eq_true'] at hnative
      have hvnull := hvty.isNull_eq_false hnative.1.2
      have hwnull := hwty.isNull_eq_false hnative.2
      rw [hcombined rfl rfl]
      change rt.run (.binary .eq) [v, w] = _ ↔ _
      rw [Runtime.run_eq_some, hlogic.nativeEq hp hvty hwty hvnull hwnull]
      simp [hdata, hvnull, Val.isData, Val.bool]
    · obtain ⟨p, hp, h⟩ := except_bind_eq_ok.1 h
      cases h
      rw [hcombined rfl rfl]
      change rt.run (.call p.name p.result) [v, w] = _ ↔ _
      rw [Runtime.run_eq_some, hlogic.eq hp hvty hwty]
      simp [hdata, Val.isData, Val.bool]

theorem holds_not_isNull (hlogic : rt.Logical) (h : Expr.unary .not (Expr.isNull left) = .ok e)
    (hv : Evals rt ρ left v k) : e.Holds rt ρ ↔ v.isNull = false := by
  obtain ⟨-, rfl⟩ := unary_eq_ok h
  have hnull : Evals rt ρ (Expr.isNull left) (Val.bool v.isNull) k :=
    (evals_head_one rfl).2 ⟨v, hv, rfl⟩
  have hnot : rt.run (.unary .not) [Val.bool v.isNull] = some (Val.bool !v.isNull) :=
    Runtime.run_eq_some.2 ⟨rfl, hlogic.not _, rfl⟩
  constructor
  · rintro ⟨m, hm⟩
    obtain ⟨w, hw, htrue⟩ := (evals_head_one rfl).1 hm
    obtain rfl := (hnull.unique hw).1
    simpa [Val.bool] using hnot.symm.trans htrue
  · intro hfalse
    exact ⟨k, (evals_head_one rfl).2 ⟨_, hnull, by rw [hfalse] at hnot; rwa [hfalse]⟩⟩

/-- NULL is not true. -/
theorem holds_toCondition (hlogic : rt.Logical) (h : left.toCondition = .ok e)
    (hleft : left.ty.isNullType → ∀ v k, Evals rt ρ left v k → v = Val.null) :
    e.Holds rt ρ ↔ left.Holds rt ρ := by
  unfold Expr.toCondition at h
  split at h
  · rename_i hnull
    cases h
    exact iff_of_false (by simp [holds_bool]) (not_holds_of_null (hleft hnull))
  · split at h
    · cases h
    · split at h
      · obtain ⟨p, hp, h⟩ := except_bind_eq_ok.1 h
        cases h
        constructor
        · rintro ⟨k, hk⟩
          obtain ⟨v, hv, htrue⟩ := (evals_head_one rfl).1 hk
          obtain rfl := (hlogic.isTrue hp).1 (Runtime.run_eq_some.1 htrue).2.1
          exact ⟨k, hv⟩
        · rintro ⟨k, hk⟩
          refine ⟨k, (evals_head_one rfl).2 ⟨_, hk, ?_⟩⟩
          exact Runtime.run_eq_some.2 ⟨rfl, (hlogic.isTrue hp).2 rfl, rfl⟩
      · cases h
        exact Iff.rfl

end Truth

namespace Scalar

variable {s : Scalar}

theorem holds_iff (h : s.toExpr row = .ok e) : s.Holds rt ρ row ↔ e.Holds rt ρ := by
  constructor
  · rintro ⟨e', he', hholds⟩
    obtain rfl := Except.ok.inj (h.symm.trans he')
    exact hholds
  · exact fun hholds => ⟨e, h, hholds⟩

theorem holds_of_isTrueLiteral (h : s.isTrueLiteral) : s.Holds rt ρ row := by
  unfold isTrueLiteral at h
  split at h
  · obtain rfl := (Ty.same_iff _ _).1 h
    exact ⟨Expr.bool true, rfl, (holds_bool true).2 rfl⟩
  · cases h

theorem conjuncts_of_mem {term : Scalar} (h : term ∈ s.conjuncts) : term.conjuncts = [term] := by
  fun_induction Scalar.conjuncts s with
  | case1 left right ihl ihr =>
    rcases List.mem_append.1 h with h | h
    · exact ihl h
    · exact ihr h
  | case2 s hs =>
    obtain rfl := List.mem_singleton.1 h
    unfold Scalar.conjuncts
    split
    · exact absurd rfl (hs _ _)
    · rfl

/-- The conjuncts of a scalar that can be lowered can be lowered. -/
theorem toExpr_conjunct (h : s.toExpr row = .ok e) :
    ∀ term ∈ s.conjuncts, ∃ c, term.toExpr row = .ok c := by
  fun_induction Scalar.conjuncts s generalizing e with
  | case1 left right ihl ihr =>
    obtain ⟨l, hl, h⟩ := except_bind_eq_ok.1 h
    obtain ⟨r, hr, -⟩ := except_bind_eq_ok.1 h
    exact List.forall_mem_append.2 ⟨ihl hl, ihr hr⟩
  | case2 s _ => exact List.forall_mem_singleton.2 ⟨e, h⟩

theorem conjuncts_foldl (first : Scalar) (rest : List Scalar) :
    (rest.foldl (binary .and) first).conjuncts = (first :: rest).flatMap conjuncts := by
  induction rest generalizing first with
  | nil => simp
  | cons second rest ih => simp [ih, conjuncts]

/-- The conjunction of some conjuncts has these as its own. -/
theorem conjuncts_foldl_of_subset {first : Scalar} {rest : List Scalar}
    (h : first :: rest ⊆ s.conjuncts) :
    (rest.foldl (binary .and) first).conjuncts = first :: rest := by
  rw [conjuncts_foldl, List.flatMap_congr fun term hterm => conjuncts_of_mem (h hterm)]
  simp

variable (hrt : rt.Typed) (hlogic : rt.Logical) (hrow : WellTyped Γ row) (hρ : EnvTyped Γ ρ)

include hrt hlogic hrow hρ

theorem holds_and {left right : Scalar} (h : (binary .and left right).toExpr row = .ok e) :
    e.Holds rt ρ ↔ left.Holds rt ρ row ∧ right.Holds rt ρ row := by
  obtain ⟨l, hl, h⟩ := except_bind_eq_ok.1 h
  obtain ⟨r, hr, h⟩ := except_bind_eq_ok.1 h
  rw [holds_iff hl, holds_iff hr]
  exact holds_apply_and hlogic h (fun hnull _ _ => eq_null hrt hrow hρ left hl hnull)
    fun hnull _ _ => eq_null hrt hrow hρ right hr hnull

theorem holds_iff_conjuncts (h : s.toExpr row = .ok e) :
    e.Holds rt ρ ↔ ∀ term ∈ s.conjuncts, term.Holds rt ρ row := by
  fun_induction Scalar.conjuncts s generalizing e with
  | case1 left right ihl ihr =>
    rw [holds_and hrt hlogic hrow hρ h, List.forall_mem_append]
    obtain ⟨l, hl, h⟩ := except_bind_eq_ok.1 h
    obtain ⟨r, hr, -⟩ := except_bind_eq_ok.1 h
    rw [holds_iff hl, holds_iff hr, ihl hl, ihr hr]
  | case2 s _ => rw [List.forall_mem_singleton, holds_iff h]

/-- Where NULL is no truth, a condition holds when all its conjuncts do. -/
theorem holds_condition (h : s.toCondition row = .ok e) :
    e.Holds rt ρ ↔ ∀ term ∈ s.conjuncts, term.Holds rt ρ row := by
  obtain ⟨c, hc, h⟩ := except_bind_eq_ok.1 h
  rw [← holds_iff_conjuncts hrt hlogic hrow hρ hc]
  exact holds_toCondition hlogic h fun hnull _ _ => eq_null hrt hrow hρ s hc hnull

end Scalar

theorem Val.bool_inj {a b : Bool} : Val.bool a = Val.bool b ↔ a = b := by simp [Val.bool]

namespace Runtime

open scoped Classical

/-- AND of truth values, of which NULL is the unknown one. -/
def and3 : Val → Val → Option Val
  | .atom (.bool a), .atom (.bool b) => some (Val.bool (a && b))
  | .atom (.bool false), .atom .null | .atom .null, .atom (.bool false) => some (Val.bool false)
  | .atom (.bool true), .atom .null | .atom .null, .atom (.bool true)
  | .atom .null, .atom .null => some Val.null
  | _, _ => none

theorem and3_eq_true : and3 v w = some (Val.bool true) ↔ v = Val.bool true ∧ w = Val.bool true := by
  unfold and3
  split <;> simp_all [Val.bool, Val.null]

/-- Whether the function is the one for an operator, on operands of some types. -/
def implements (operator function : String) : Bool :=
  (operator ++ "_").toList.isPrefixOf function.toList

/-- The runtime as far as it compares values and connects truth values. -/
noncomputable def logic : Runtime
  | .unary .not, [.atom (.bool b)] => some (Val.bool !b)
  | .binary .and, [.atom (.bool a), .atom (.bool b)] => some (Val.bool (a && b))
  | .binary .eq, [v, w] => some (Val.bool (v = w))
  | .cast t, [v] => if v.HasTy t then some v else none
  | .call f t, [v] =>
    if implements "is_true" f ∧ t.kind = .bool then some (Val.bool (v = Val.bool true)) else none
  | .call f t, [v, w] =>
    let result :=
      if implements "and" f then and3 v w
      else if implements "eq" f then
        some (if v.isNull ∨ w.isNull then Val.null else Val.bool (v = w))
      else none
    result.filter fun v => v.HasTy t
  | _, _ => none

section Names

variable {s t : Ty} {p : Primitive}

theorem implements_append (operator rest : String) :
    implements operator (operator ++ "_" ++ rest) := by
  rw [implements, List.isPrefixOf_iff_prefix, String.toList_append (t := rest)]
  exact List.prefix_append _ _

theorem kind_of_and (h : Primitive.binary .and s t = .ok p) : p.result.kind = .bool := by
  rw [(logical_types rfl h).2.2]

theorem kind_of_eq (h : Primitive.binary .eq s t = .ok p) : p.result.kind = .bool := by
  obtain ⟨-, rfl⟩ := Primitive.binary_eq_ok h
  rfl

theorem implements_and (h : Primitive.binary .and s t = .ok p) : implements "and" p.name := by
  obtain ⟨-, rfl⟩ := Primitive.binary_eq_ok h
  simpa [Primitive.binaryName, BinaryOp.key, String.append_assoc] using implements_append "and" _

theorem implements_eq (h : Primitive.binary .eq s t = .ok p) :
    implements "eq" p.name ∧ implements "and" p.name = false := by
  obtain ⟨-, rfl⟩ := Primitive.binary_eq_ok h
  constructor
  · simpa [Primitive.binaryName, BinaryOp.key, String.append_assoc] using implements_append "eq" _
  · simp [implements, Primitive.binaryName, BinaryOp.key, List.isPrefixOf]

theorem implements_isTrue (h : Primitive.unary .isTrue t = .ok p) :
    implements "is_true" p.name := by
  obtain ⟨-, rfl⟩ := Primitive.unary_eq_ok h
  simpa [UnaryPrimitive.key, String.append_assoc] using implements_append "is_true" _

end Names

theorem logic_typed : logic.Typed := by
  intro i ts t vs v hsig hvs hv
  unfold logic at hv
  split at hv
  · cases hsig with
    | not ht =>
      obtain rfl := Option.some.inj hv
      exact .atom (Ty.kind_of_isBool ht)
  · cases hsig with
    | binary hp =>
      obtain rfl := Option.some.inj hv
      exact .atom (kind_of_and hp)
  · cases hsig with
    | binary hp =>
      obtain rfl := Option.some.inj hv
      exact .atom (kind_of_eq hp)
  · cases hsig with
    | cast =>
      split at hv
      · obtain rfl := Option.some.inj hv
        assumption
      · cases hv
  · cases hsig with
    | call =>
      split at hv
      · rename_i hbool
        obtain rfl := Option.some.inj hv
        exact .atom hbool.2
      · cases hv
  · cases hsig with
    | call => simpa using (Option.filter_eq_some_iff.1 hv).2
  · cases hv

theorem logic_logical : logic.Logical where
  and {s t p v w} hp := by
    have hbool : (Val.bool true).HasTy p.result := .atom (kind_of_and hp)
    simp only [logic, implements_and hp, if_true, Option.filter_eq_some_iff, decide_eq_true_eq]
    rw [and3_eq_true]
    exact and_iff_left hbool
  nativeAnd {v w} h := by
    unfold logic at h
    split at h <;> simp_all [Val.bool]
  eq {s t p v w} hp _ _ := by
    obtain ⟨heq, hand⟩ := implements_eq hp
    have hbool : (Val.bool true).HasTy p.result := .atom (kind_of_eq hp)
    simp only [logic, hand, heq, if_true, Bool.false_eq_true, if_false, Option.filter_eq_some_iff,
      decide_eq_true_eq]
    rw [and_iff_left hbool]
    split
    · rename_i hnull
      simp only [Val.null, Val.bool, Option.some.injEq, Val.atom.injEq, reduceCtorEq, false_iff]
      rintro ⟨hv, rfl⟩
      simp [hv] at hnull
    · rename_i hnull
      rw [Option.some.injEq, Val.bool_inj, decide_eq_true_eq]
      exact (and_iff_right (by simpa using fun h => hnull (.inl h))).symm
  nativeEq {s t p v w} _ _ _ _ _ := by
    simp [logic, Val.bool]
  isTrue {t p v} hp := by
    have hkind : p.result.kind = .bool := by
      obtain ⟨-, rfl⟩ := Primitive.unary_eq_ok hp
      rfl
    simp only [logic, implements_isTrue hp, hkind, and_self, if_true, Option.some.injEq,
      Val.bool_inj, decide_eq_true_eq]
  not b := rfl
  cast {s t v} hv hkind hnull := by
    have hty : v.HasTy t := by
      obtain ⟨kind, n⟩ := t
      obtain rfl : s.kind = kind := hkind
      exact hv.withNull fun h => by simp [hnull] at h
    exact if_pos hty

end Runtime

end ViewCircuit
