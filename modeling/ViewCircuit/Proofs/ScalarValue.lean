import ViewCircuit.Proofs.NullTypes
import ViewCircuit.Proofs.Sql

/-! Lowered scalars evaluate to their values in SQL. Whichever way an operator is lowered, native,
as a call or through a conversion of NULL, it makes one value of those of its operands. -/
namespace ViewCircuit

open List (Forall₂)

/-- The expression evaluates to the value, which is data of its type. -/
structure Expr.Yields (rt : Runtime) (ρ : Env) (e : Expr) (v : Val) : Prop where
  evals : Evals rt ρ e v 0
  datum : v.IsDatum e.ty.marked

section Values

variable {v w u : Val} {t : Ty} {S : Sql}

theorem Val.isDatum_null (h : t.mayBeNull) : Val.null.IsDatum t := ⟨rfl, .atom h⟩

theorem Val.IsDatum.marked (h : v.IsDatum t) : v.IsDatum t.marked := ⟨h.1, h.2.marked⟩

theorem Val.HasTy.exists_truth (h : v.HasTy t) (ht : t.kind = .bool) :
    ∃ b : Truth, v = b.toVal := by
  by_cases hnull : v.isNull
  · exact ⟨none, Val.eq_null_of_isNull hnull⟩
  · obtain ⟨b, rfl⟩ := (h.withNull (n := false) fun hv => absurd hv hnull).eq_bool ht rfl
    exact ⟨some b, rfl⟩

theorem Value.val?_of_literal {literal : Value} {l : Literal} (hl : literal.literal t = .ok l)
    (hv : literal.val? t = some v) : ∃ a, v = .atom a ∧ l.atom? t.nonNull = some a ∧
      a.Fits t.nonNull := by
  obtain ⟨a, ha, hfits⟩ := Value.literal_fits hl
  refine ⟨a, ?_, ha, hfits⟩
  obtain ⟨kind, n⟩ := t
  unfold Value.literal at hl
  split at hl <;> rename_i hkind <;> try split at hl
  all_goals first
    | cases hl
      simp only at hkind
      subst hkind
      cases ha
      exact (Option.some.inj hv).symm
    | cases hl

/-- All operators but one make NULL of two NULLs. -/
theorem Sql.combine_nulls {op : BinaryOp} (hop : op ≠ .isDistinct)
    (h : S.combine op Val.null Val.null = some u) : u = Val.null := by
  cases op with
  | isDistinct => exact absurd rfl hop
  | _ => exact (Option.some.inj h).symm

/-- Logical operators, which booleans decide without the runtime, agree with it. -/
theorem Sql.eval_of_run {rt : Runtime} {op : BinaryOp} (hrun : rt.run (.binary op) [v, w] = some u)
    (hu : S.combine op v w = some u) : op.eval rt v w = some u := by
  unfold BinaryOp.eval
  split
  case h_1 a b =>
    rw [← hu]
    cases a <;> cases b <;> rfl
  case h_2 a b =>
    rw [← hu]
    cases a <;> cases b <;> rfl
  case h_3 => exact hrun

end Values

section Yields

variable {rt : Runtime} {ρ : Env} {S : Sql} {operand left right condition yes no value e : Expr}
  {v w u : Val} {t : Ty}

namespace Expr.Yields

theorem typed (h : e.Yields rt ρ v) (he : e.ty.isNullType = false) : v.IsDatum e.ty := by
  have hdatum := h.datum
  rwa [Ty.marked_of_typed he] at hdatum

/-- Whatever has no type of its own is NULL. -/
theorem eq_null (h : e.Yields rt ρ v) (he : e.ty.isNullType) : v = Val.null :=
  h.datum.2.eq_null ((Ty.isNullType_marked _).trans he)

theorem isNull_eq_false (h : e.Yields rt ρ v) (he : e.ty.isNullType = false)
    (hnull : e.ty.mayBeNull = false) : v.isNull = false :=
  (h.typed he).2.isNull_eq_false hnull

theorem exists_bool {b : Truth} (h : e.Yields rt ρ v) (he : e.ty.isNullType = false)
    (hnull : e.ty.mayBeNull = false) (hb : v.truth? = some b) :
    ∃ c, b = some c ∧ v = Val.bool c := by
  have hv := h.isNull_eq_false he hnull
  obtain rfl := Val.truth?_eq_some.1 hb
  cases b with
  | none => cases hv
  | some c => exact ⟨c, rfl, rfl⟩

end Expr.Yields

theorem yields_null : Expr.null.Yields rt ρ Val.null :=
  ⟨(evals_head rfl).2 ⟨[], evalsAll_nil.2 ⟨rfl, rfl⟩, rfl⟩, Val.isDatum_null rfl⟩

theorem yields_bool (b : Bool) : (Expr.bool b).Yields rt ρ (Val.bool b) :=
  ⟨(evals_head rfl).2 ⟨[], evalsAll_nil.2 ⟨rfl, rfl⟩, rfl⟩, rfl, .bool rfl⟩

theorem yields_one {head : Head} (hform : e.form.head? = some (head, [operand]))
    (h : operand.Yields rt ρ v) (hcombine : head.combine rt e.ty [v] = some u)
    (hu : u.IsDatum e.ty) : e.Yields rt ρ u :=
  ⟨(evals_head_one hform).2 ⟨v, h.evals, hcombine⟩, hu.marked⟩

theorem yields_two {head : Head} (hform : e.form.head? = some (head, [left, right]))
    (hl : left.Yields rt ρ v) (hr : right.Yields rt ρ w)
    (hcombine : head.combine rt e.ty [v, w] = some u) (hu : u.IsDatum e.ty) : e.Yields rt ρ u :=
  ⟨(evals_head_two hform).2 ⟨v, 0, w, 0, hl.evals, hr.evals, hcombine, rfl⟩, hu.marked⟩

theorem yields_isNull (h : operand.Yields rt ρ v) :
    (Expr.isNull operand).Yields rt ρ (Val.bool v.isNull) :=
  yields_one rfl h rfl ⟨rfl, .bool rfl⟩

/-- An untyped NULL can be converted to any nullable type. -/
theorem yields_castNull (h : operand.Yields rt ρ Val.null) (ht : t.mayBeNull) :
    (Expr.cast operand t).Yields rt ρ Val.null := by
  refine yields_one rfl h ?_ (Val.isDatum_null ht)
  exact if_pos ht

theorem yields_some (h : operand.Yields rt ρ v) (he : Expr.someOf operand = .ok e) :
    e.Yields rt ρ v := by
  obtain ⟨-, rfl⟩ := someOf_eq_ok he
  refine ⟨(evals_head_one rfl).2 ⟨v, h.evals, rfl⟩, h.datum.1, ?_⟩
  exact h.datum.2.widen (by simp [Ty.nullable]) (by simp [Ty.nullable])

theorem yields_ite {b : Bool} (hcondition : condition.Yields rt ρ (Val.bool b))
    (hbranch : (if b then yes else no).Yields rt ρ v) (he : Expr.ite condition yes no = .ok e) :
    e.Yields rt ρ v := by
  obtain ⟨-, hshape, rfl⟩ := ite_eq_ok he
  refine ⟨evals_ite.2 ⟨b, 0, 0, hcondition.evals, hbranch.evals, rfl⟩, hbranch.datum.1,
    .branch hshape (b := b) ?_⟩
  cases b <;> exact hbranch.datum.2

theorem isDatum_run {i : Instruction} {ts : List Ty} {vs : List Val} (hrt : rt.Typed)
    (hsig : i.Sig ts t) (hvs : Forall₂ Val.HasTy vs ts) (hrun : rt.run i vs = some u) :
    u.IsDatum t :=
  ⟨(Runtime.run_eq_some.1 hrun).2.2, hrt.run hsig hvs hrun⟩

/-- In place of an untyped NULL stands a nullable boolean. -/
theorem yields_truth (h : operand.Yields rt ρ v) :
    let truth := if operand.ty.isNullType then Expr.cast operand Ty.bool.nullable else operand
    truth.Yields rt ρ v ∧ truth.ty.isNullType = false := by
  dsimp only
  split
  · obtain rfl := h.eq_null ‹_›
    exact ⟨yields_castNull h rfl, rfl⟩
  · exact ⟨h, by simpa using ‹¬operand.ty.isNullType = true›⟩

theorem truth_of_toCondition (h : value.Yields rt ρ v) (he : value.toCondition = .ok e) :
    ∃ b, v.truth? = some b := by
  unfold Expr.toCondition at he
  split at he
  · exact ⟨none, by rw [h.eq_null ‹_›]; rfl⟩
  · rename_i htyped
    split at he
    · cases he
    · rename_i hbool
      have hkind := Ty.kind_of_isBool (t := value.ty) (by simpa using hbool)
      obtain ⟨b, rfl⟩ := (h.typed (by simpa using htyped)).2.exists_truth hkind
      exact ⟨b, Val.truth?_eq_some.2 rfl⟩

section Operators

variable (hrt : rt.Typed) (hS : rt.Realizes S)

include hrt hS

theorem yields_not {b : Bool} (h : operand.Yields rt ρ (Val.bool b))
    (he : Expr.unary .not operand = .ok e) : e.Yields rt ρ (Val.bool !b) := by
  have htyped := isNullType_unary he
  obtain ⟨hsig, rfl⟩ := unary_eq_ok he
  refine yields_one rfl h ?_ (isDatum_run hrt hsig (.cons (h.typed htyped).2 .nil) (hS.not b))
  exact hS.not b

theorem yields_neg (h : operand.Yields rt ρ v) (hnull : operand.ty.mayBeNull = false)
    (he : Expr.unary .neg operand = .ok e) (hu : S.neg v = some u) : e.Yields rt ρ u := by
  have htyped := isNullType_unary he
  obtain ⟨hsig, rfl⟩ := unary_eq_ok he
  have hv := h.typed htyped
  have hnumeric : operand.ty.isNumeric := by
    cases hsig with
    | neg h => exact h
  have hrun := hS.neg hnumeric hv (h.isNull_eq_false htyped hnull) hu
  refine yields_one rfl h ?_ (isDatum_run hrt hsig (.cons hv.2 .nil) hrun)
  exact hrun

theorem yields_callUnary {op : SqlUnary} {q : UnaryPrimitive} (hop : op.primitive? = some q)
    (h : operand.Yields rt ρ v) (he : callUnary q operand = .ok e) (hu : S.apply op v = some u) :
    e.Yields rt ρ u := by
  obtain ⟨p, hp, he⟩ := except_bind_eq_ok.1 he
  cases he
  have hv := h.typed (Primitive.unary_eq_ok hp).1
  have hrun := hS.unary hop hp hv hu
  refine yields_one rfl h ?_ (isDatum_run hrt .call (.cons hv.2 .nil) hrun)
  exact hrun

/-- A unary operator. In truth predicates an untyped NULL is converted to a boolean first. -/
theorem yields_unary {op : SqlUnary} (h : operand.Yields rt ρ v) (he : op.apply operand = .ok e)
    (hu : S.apply op v = some u) : e.Yields rt ρ u := by
  obtain ⟨htruth, htyped⟩ := yields_truth h
  cases op with
  | isNull =>
    cases he
    cases hu
    exact yields_isNull h
  | isNotNull =>
    cases hu
    exact yields_not hrt hS (yields_isNull h) he
  | neg =>
    simp only [SqlUnary.apply] at he
    split at he
    · cases he
      obtain rfl := h.eq_null ‹_›
      cases hu
      exact h
    · split at he
      · exact yields_callUnary hrt hS rfl h he hu
      · rename_i htyped hnull
        have hv := h.isNull_eq_false (by simpa using htyped) (by simpa using hnull)
        rw [Sql.apply, hv, if_neg Bool.false_ne_true] at hu
        exact yields_neg hrt hS h (by simpa using hnull) he hu
  | isTrue | isNotFalse =>
    simp only [SqlUnary.apply] at he
    generalize (if operand.ty.isNullType then Expr.cast operand Ty.bool.nullable else operand) =
      truth at he htruth htyped
    split at he
    · exact yields_callUnary hrt hS rfl htruth he hu
    · rename_i hnull
      cases he
      obtain ⟨b, hb, rfl⟩ := Option.map_eq_some_iff.1 hu
      obtain ⟨c, rfl, rfl⟩ := htruth.exists_bool htyped (by simpa using hnull) hb
      cases c <;> exact htruth
  | not | isFalse | isNotTrue =>
    simp only [SqlUnary.apply] at he
    generalize (if operand.ty.isNullType then Expr.cast operand Ty.bool.nullable else operand) =
      truth at he htruth htyped
    split at he
    · exact yields_callUnary hrt hS rfl htruth he hu
    · rename_i hnull
      obtain ⟨b, hb, rfl⟩ := Option.map_eq_some_iff.1 hu
      obtain ⟨c, rfl, rfl⟩ := htruth.exists_bool htyped (by simpa using hnull) hb
      have hnot := yields_not hrt hS htruth he
      cases c <;> exact hnot

/-- A binary operator on typed operands. -/
theorem yields_combine {op : BinaryOp} (hl : left.Yields rt ρ v) (hr : right.Yields rt ρ w)
    (he : op.combine left right = .ok e) (hu : S.combine op v w = some u) : e.Yields rt ρ u := by
  unfold BinaryOp.combine at he
  split at he
  · rename_i hnative
    simp only [Bool.and_eq_true, Bool.not_eq_true'] at hnative
    obtain ⟨p, hp, rfl⟩ := binary_eq_ok he
    have hltype := (Primitive.binary_eq_ok hp).1
    have hrtype := Primitive.isNullType_right hp
    have hrun := hS.native hnative.1.1 hp (hl.typed hltype) (hr.typed hrtype)
      (hl.isNull_eq_false hltype hnative.1.2) (hr.isNull_eq_false hrtype hnative.2) hu
    refine yields_two rfl hl hr ?_ (isDatum_run hrt (.binary hp)
      (.cons (hl.typed hltype).2 (.cons (hr.typed hrtype).2 .nil)) hrun)
    exact Sql.eval_of_run hrun hu
  · obtain ⟨p, hp, he⟩ := except_bind_eq_ok.1 he
    cases he
    have hv := hl.typed (Primitive.binary_eq_ok hp).1
    have hw := hr.typed (Primitive.isNullType_right hp)
    have hrun := hS.binary hp hv hw hu
    refine yields_two rfl hl hr ?_ (isDatum_run hrt .call (.cons hv.2 (.cons hw.2 .nil)) hrun)
    exact hrun

theorem yields_binary {op : BinaryOp} (hl : left.Yields rt ρ v) (hr : right.Yields rt ρ w)
    (hdistinct : op = .isDistinct → ¬(left.ty.isNullType ∧ right.ty.isNullType))
    (he : op.apply left right = .ok e) (hu : S.combine op v w = some u) : e.Yields rt ρ u := by
  unfold BinaryOp.apply at he
  split at he
  · rename_i hlnull hrnull
    cases he
    obtain rfl := hl.eq_null hlnull
    obtain rfl := hr.eq_null hrnull
    obtain rfl := Sql.combine_nulls (fun hop => hdistinct hop ⟨hlnull, hrnull⟩) hu
    exact yields_null
  · obtain rfl := hl.eq_null ‹_›
    exact yields_combine hrt hS (yields_castNull hl rfl) hr he hu
  · obtain rfl := hr.eq_null ‹_›
    exact yields_combine hrt hS hl (yields_castNull hr rfl) he hu
  · exact yields_combine hrt hS hl hr he hu

/-- A condition over a boolean or NULL tells whether it is true. -/
theorem yields_condition {b : Truth} (h : value.Yields rt ρ v) (hb : v.truth? = some b)
    (he : value.toCondition = .ok e) : e.Yields rt ρ (Val.bool (b == some true)) := by
  unfold Expr.toCondition at he
  split at he
  · cases he
    obtain rfl := h.eq_null ‹_›
    cases hb
    exact yields_bool false
  · rename_i htyped
    split at he
    · cases he
    · split at he
      · have hu : S.apply .isTrue v = some (Val.bool (b == some true)) := by simp [Sql.apply, hb]
        exact yields_callUnary hrt hS rfl h he hu
      · rename_i hnull
        cases he
        obtain ⟨c, rfl, rfl⟩ := h.exists_bool (by simpa using htyped) (by simpa using hnull) hb
        cases c <;> exact h

/-- A conversion, left out where it does nothing. -/
theorem yields_cast (h : operand.Yields rt ρ v) (hu : S.cast t v = some u) :
    (if operand.ty.same t then operand else Expr.cast operand t).Yields rt ρ u := by
  unfold Sql.cast at hu
  split at hu
  · rename_i hnull
    obtain rfl := Val.eq_null_of_isNull hnull
    split at hu
    · cases hu
      split
      · exact h
      · exact yields_castNull h ‹_›
    · cases hu
  · rename_i hnull
    have hnull : v.isNull = false := by simpa using hnull
    split
    · rename_i hsame
      obtain rfl := (Ty.same_iff _ _).1 hsame
      have htyped : operand.ty.isNullType = false := by
        by_contra hkind
        obtain rfl := h.eq_null (by simpa using hkind)
        cases hnull
      obtain rfl := hS.same (h.typed htyped) hnull hu
      exact h
    · have hrun := hS.cast h.datum hnull hu
      refine yields_one rfl h ?_ (isDatum_run hrt .cast (.cons h.datum.2 .nil) hrun)
      exact (Val.cast_eq_run hnull).trans hrun

end Operators

section Case

variable {branches : List (Expr × Expr)} {otherwise : Expr}

/-- A value brought to the type of its case, which is nullable if a value is an untyped NULL. -/
theorem yields_coerce (h : value.Yields rt ρ v) (hnull : value.ty.isNullType → t.mayBeNull)
    (he : coerce t value = .ok e) : e.Yields rt ρ v := by
  unfold coerce at he
  split at he
  · rename_i huntyped
    cases he
    obtain rfl := h.eq_null huntyped
    exact yields_castNull h (hnull huntyped)
  · split at he
    · exact yields_some h he
    · cases he
      exact h

/-- The first branch whose condition is true has the value. -/
def CaseYields (rt : Runtime) (ρ : Env) (otherwise : Expr) (v : Val) : List (Expr × Expr) → Prop
  | [] => otherwise.Yields rt ρ v
  | (condition, value) :: rest => ∃ b, condition.Yields rt ρ (Val.bool b) ∧
    if b then value.Yields rt ρ v else CaseYields rt ρ otherwise v rest

theorem CaseYields.exists_value (h : CaseYields rt ρ otherwise v branches) :
    ∃ value ∈ branches.map Prod.snd ++ [otherwise], value.Yields rt ρ v := by
  induction branches with
  | nil => exact ⟨otherwise, by simp, h⟩
  | cons branch rest ih =>
    obtain ⟨b, -, hvalue⟩ := h
    cases b with
    | true => exact ⟨branch.2, by simp, hvalue⟩
    | false =>
      obtain ⟨value, hmem, hvalue⟩ := ih hvalue
      exact ⟨value, List.mem_cons_of_mem _ hmem, hvalue⟩

theorem yields_caseChain (h : CaseYields rt ρ otherwise v branches)
    (hnull : ∀ value ∈ branches.map Prod.snd ++ [otherwise], value.ty.isNullType → t.mayBeNull)
    (he : caseChain t branches otherwise = .ok e) : e.Yields rt ρ v := by
  induction branches generalizing e with
  | nil => exact yields_coerce h (hnull otherwise (by simp)) he
  | cons branch rest ih =>
    obtain ⟨hvalue, hrest⟩ := List.forall_mem_cons.1 hnull
    obtain ⟨no, hno, he⟩ := except_bind_eq_ok.1 he
    obtain ⟨yes, hyes, he⟩ := except_bind_eq_ok.1 he
    obtain ⟨b, hcondition, hbranch⟩ := h
    refine yields_ite hcondition ?_ he
    cases b with
    | true => exact yields_coerce hbranch hvalue hyes
    | false => exact ih hbranch hrest hno

theorem null_of_commonShape {es : List Expr} {shape s : Option Ty} {nullable n : Bool}
    (h : commonShape es shape nullable = .ok (s, n)) :
    (nullable → n) ∧ (s = none → shape = none) ∧
      ∀ e ∈ es, (e.ty.isNullType → n) ∧ (s = none → e.ty.isNullType) := by
  fun_induction commonShape es shape nullable with
  | case1 shape nullable =>
    cases h
    exact ⟨id, id, by simp⟩
  | case2 shape nullable e es he ih =>
    obtain ⟨hn, hs, hes⟩ := ih h
    exact ⟨fun _ => hn rfl, hs, List.forall_mem_cons.2 ⟨⟨fun _ => hn rfl, fun _ => he⟩, hes⟩⟩
  | case3 nullable e es he ih =>
    obtain ⟨hn, hs, hes⟩ := ih h
    refine ⟨fun hnull => hn (by simp [hnull]), fun _ => rfl,
      List.forall_mem_cons.2 ⟨⟨fun hnull => absurd hnull he, fun hs' => ?_⟩, hes⟩⟩
    cases hs hs'
  | case4 nullable e es he shape hshape ih =>
    obtain ⟨hn, hs, hes⟩ := ih h
    refine ⟨fun hnull => hn (by simp [hnull]), hs,
      List.forall_mem_cons.2 ⟨⟨fun hnull => absurd hnull he, fun hs' => ?_⟩, hes⟩⟩
    cases hs hs'
  | case5 => cases h

theorem yields_caseExpr (h : CaseYields rt ρ otherwise v branches)
    (he : caseExpr branches otherwise = .ok e) : e.Yields rt ρ v := by
  obtain ⟨⟨shape, nullable⟩, hshape, he⟩ := except_bind_eq_ok.1 he
  obtain ⟨-, -, hvalues⟩ := null_of_commonShape hshape
  cases shape with
  | none =>
    cases he
    obtain ⟨value, hmem, hvalue⟩ := h.exists_value
    obtain rfl := hvalue.eq_null ((hvalues value hmem).2 rfl)
    exact yields_null
  | some shape => exact yields_caseChain h (fun value hmem => (hvalues value hmem).1) he

end Case

theorem yields_value {literal : Value} (he : literal.toExpr t = .ok e)
    (hv : literal.val? t = some v) : e.Yields rt ρ v := by
  unfold Value.toExpr at he
  split at he
  · cases he
    cases hv
    refine ⟨(evals_head rfl).2 ⟨[], evalsAll_nil.2 ⟨rfl, rfl⟩, rfl⟩, Val.isDatum_null ?_⟩
    rw [Expr.literal]
    split
    · simp_all
    · simp [Ty.nullable]
  · obtain ⟨l, hl, he⟩ := except_bind_eq_ok.1 he
    obtain ⟨a, rfl, ha, hfits⟩ := Value.val?_of_literal hl hv
    have hliteral : (Expr.literal l t.nonNull).Yields rt ρ (.atom a) := by
      have hhead : (Form.literal l).head? = some (.literal l, []) := by
        have hsimple := Value.isSimple_literal hl
        cases l <;> first | rfl | cases hsimple
      refine ⟨(evals_head hhead).2 ⟨[], evalsAll_nil.2 ⟨rfl, rfl⟩, ?_⟩, rfl, .marked (.atom hfits)⟩
      exact Option.map_eq_some_iff.2 ⟨a, ha, rfl⟩
    by_cases hnull : t.mayBeNull
    · rw [if_pos hnull] at he
      exact yields_some hliteral he
    · rw [if_neg hnull] at he
      cases he
      exact hliteral

end Yields

namespace Scalar

/-- The scalar is lowered to an untyped NULL. -/
def Untyped (t : Expr) (s : Scalar) : Prop := ∃ e, s.toExpr t = .ok e ∧ e.ty.isNullType

mutual
/-- No IS DISTINCT FROM has untyped NULLs on both sides. -/
def DistinctTyped (t : Expr) : Scalar → Prop
  | .column _ | .literal .. => True
  | .unary _ operand | .cast operand _ => operand.DistinctTyped t
  | .binary op left right => (op = .isDistinct → ¬(left.Untyped t ∧ right.Untyped t)) ∧
    left.DistinctTyped t ∧ right.DistinctTyped t
  | .case branches otherwise => BranchesTyped t branches ∧ otherwise.DistinctTyped t
def BranchesTyped (t : Expr) : List (Scalar × Scalar) → Prop
  | [] => True
  | (w, v) :: rest => w.DistinctTyped t ∧ v.DistinctTyped t ∧ BranchesTyped t rest
end

section Main

variable {rt : Runtime} {S : Sql} {ρ : Env} {t : Expr} {types : List Ty} {row : Val}
  (hrt : rt.Typed) (hS : rt.Realizes S)

include hrt hS

mutual
theorem yields (hrow : t.RefersTo rt ρ types row) : ∀ (s : Scalar) {e : Expr} {v : Val},
    s.DistinctTyped t → s.toExpr t = .ok e → s.value S row = some v → e.Yields rt ρ v
  | .column index, e, v, _, h, hv => by
    have hcell := hrow.field h
    obtain rfl : v = row.cell index := by
      simp only [value] at hv
      simp [Val.cell, hv]
    exact ⟨hcell.evals, hcell.datum.marked⟩
  | .literal l ty, e, v, _, h, hv => yields_value h hv
  | .unary op operand, e, v, hs, h, hv => by
    obtain ⟨o, ho, h⟩ := except_bind_eq_ok.1 h
    obtain ⟨u, hu, hv⟩ := Option.bind_eq_some_iff.1 hv
    exact yields_unary hrt hS (yields hrow operand hs ho hu) h hv
  | .binary op left right, e, v, hs, h, hv => by
    obtain ⟨hdistinct, hleft, hright⟩ := hs
    obtain ⟨l, hl, h⟩ := except_bind_eq_ok.1 h
    obtain ⟨r, hr, h⟩ := except_bind_eq_ok.1 h
    obtain ⟨u, hu, hv⟩ := Option.bind_eq_some_iff.1 hv
    obtain ⟨w, hw, hv⟩ := Option.bind_eq_some_iff.1 hv
    refine yields_binary hrt hS (yields hrow left hleft hl hu) (yields hrow right hright hr hw)
      ?_ h hv
    exact fun hop hnull => hdistinct hop ⟨⟨l, hl, hnull.1⟩, r, hr, hnull.2⟩
  | .cast operand ty, e, v, hs, h, hv => by
    obtain ⟨o, ho, h⟩ := except_bind_eq_ok.1 h
    obtain ⟨u, hu, hv⟩ := Option.bind_eq_some_iff.1 hv
    cases h
    exact yields_cast hrt hS (yields hrow operand hs ho hu) hv
  | .case branches otherwise, e, v, hs, h, hv => by
    obtain ⟨hbranches, hotherwise⟩ := hs
    obtain ⟨bs, hbs, h⟩ := except_bind_eq_ok.1 h
    obtain ⟨o, ho, h⟩ := except_bind_eq_ok.1 h
    refine yields_caseExpr (caseYields hrow branches hbranches hbs hv fun u hu => ?_) h
    exact yields hrow otherwise hotherwise ho hu
theorem caseYields (hrow : t.RefersTo rt ρ types row) : ∀ (branches : List (Scalar × Scalar))
    {bs : List (Expr × Expr)} {o : Expr} {otherwise : Option Val} {v : Val},
    BranchesTyped t branches → branchesToExpr t branches = .ok bs →
    branchValue S row branches otherwise = some v →
    (∀ u, otherwise = some u → o.Yields rt ρ u) → CaseYields rt ρ o v bs
  | [], bs, o, otherwise, v, _, h, hv, ho => by
    cases h
    exact ho v hv
  | (w, s) :: rest, bs, o, otherwise, v, hs, h, hv, ho => by
    obtain ⟨hwhen, hthen, hrest⟩ := hs
    obtain ⟨whenExpr, hw, h⟩ := except_bind_eq_ok.1 h
    obtain ⟨c, hc, h⟩ := except_bind_eq_ok.1 h
    obtain ⟨e, he, h⟩ := except_bind_eq_ok.1 h
    obtain ⟨bs', hbs, h⟩ := except_bind_eq_ok.1 h
    cases h
    obtain ⟨u, hu, hv⟩ := Option.bind_eq_some_iff.1 hv
    obtain ⟨b, hb, hv⟩ := Option.bind_eq_some_iff.1 hv
    refine ⟨b == some true, yields_condition hrt hS (yields hrow w hwhen hw hu) hb hc, ?_⟩
    by_cases htrue : b = some true
    · rw [if_pos htrue] at hv
      rw [if_pos (by simp [htrue])]
      exact yields hrow s hthen he hv
    · rw [if_neg htrue] at hv
      rw [if_neg (by simpa using htrue)]
      exact caseYields hrow rest hrest hbs hv ho
end

/-- A scalar with a value over a row is lowered to an expression that evaluates to it, and to a
condition that is true exactly if the value is, and else false. -/
theorem toExpr_value {s : Scalar} {v : Val} (hrow : t.RefersTo rt ρ types row)
    (hs : s.DistinctTyped t) (hv : s.value S row = some v) :
    (∀ e, s.toExpr t = .ok e → Evals rt ρ e v 0) ∧
      ∀ c, s.toCondition t = .ok c →
        ∃ b, Evals rt ρ c (Val.bool b) 0 ∧ (b = true ↔ v = Val.bool true) := by
  refine ⟨fun e he => (yields hrt hS hrow s hs he hv).evals, fun c hc => ?_⟩
  obtain ⟨e, he, hc⟩ := except_bind_eq_ok.1 hc
  have hyields := yields hrt hS hrow s hs he hv
  obtain ⟨b, hb⟩ := truth_of_toCondition hyields hc
  refine ⟨_, (yields_condition hrt hS hyields hb hc).evals, ?_⟩
  rw [Val.truth?_eq_some.1 hb]
  cases b with
  | none => simp [Truth.toVal, Val.null, Val.bool]
  | some b => simp [Truth.toVal, Val.bool]

end Main

/-- Whether the first column is twice the second, which is unknown for equal ones. -/
def isDouble : Scalar :=
  .case [(.unary .isNotTrue (.binary .eq (.column 0) (.column 1)),
    .binary .eq (.binary .div (.column 0) (.column 1)) (.int32 2))] .null

/-- Six is twice three. -/
theorem toExpr_isDouble : ∃ e c,
    isDouble.toExpr (Expr.var "t" (Ty.ref (Ty.tuple [Ty.int32.nullable, Ty.int32]))) = .ok e ∧
    isDouble.toCondition (Expr.var "t" (Ty.ref (Ty.tuple [Ty.int32.nullable, Ty.int32]))) = .ok c ∧
    Evals Sql.int32.runtime [("t", .ref (.tuple [.atom (.int .w32 6), .atom (.int .w32 3)]))] e
      (Val.bool true) 0 ∧
    Evals Sql.int32.runtime [("t", .ref (.tuple [.atom (.int .w32 6), .atom (.int .w32 3)]))] c
      (Val.bool true) 0 := by
  let t := Expr.var "t" (Ty.ref (Ty.tuple [Ty.int32.nullable, Ty.int32]))
  let row := Val.tuple [.atom (.int .w32 6), .atom (.int .w32 3)]
  have hrow : t.RefersTo Sql.int32.runtime [("t", row.ref)] [Ty.int32.nullable, Ty.int32] row :=
    ⟨rfl, evals_var.2 ⟨rfl, rfl⟩,
      Val.isRow_tuple.2 (.cons ⟨rfl, .atom rfl⟩ (.cons ⟨rfl, .atom rfl⟩ .nil))⟩
  have htyped : isDouble.DistinctTyped t := by
    simp [isDouble, DistinctTyped, BranchesTyped, int32, null]
  have hvalue : isDouble.value Sql.int32 row = some (Val.bool true) := by
    with_unfolding_all rfl
  obtain ⟨e, he⟩ : ∃ e, isDouble.toExpr t = .ok e := ⟨_, by with_unfolding_all rfl⟩
  obtain ⟨c, hc⟩ : ∃ c, isDouble.toCondition t = .ok c := ⟨_, by with_unfolding_all rfl⟩
  obtain ⟨hexpr, hcondition⟩ :=
    toExpr_value Sql.int32_typed.runtime Sql.int32_typed.realizes hrow htyped hvalue
  obtain ⟨b, hb, htrue⟩ := hcondition c hc
  obtain rfl := htrue.2 rfl
  exact ⟨e, c, he, hc, hexpr e he, hb⟩

/-- NULL is not distinct from NULL, but the comparison of two untyped NULLs is lowered to NULL. -/
theorem isDistinct_untyped {S : Sql} {rt : Runtime} {ρ : Env} {row : Val} {t : Expr}
    {left right : Scalar} (hleft : left.Untyped t) (hright : right.Untyped t)
    (hl : left.value S row = some Val.null) (hr : right.value S row = some Val.null) :
    (binary .isDistinct left right).value S row = some (Val.bool false) ∧
      (binary .isDistinct left right).toExpr t = .ok Expr.null ∧
      Evals rt ρ Expr.null Val.null 0 := by
  obtain ⟨l, htl, hlnull⟩ := hleft
  obtain ⟨r, htr, hrnull⟩ := hright
  refine ⟨?_, ?_, yields_null.evals⟩
  · rw [value, hl, hr]
    rfl
  · rw [toExpr, htl, htr]
    change BinaryOp.apply .isDistinct l r = _
    rw [BinaryOp.apply, hlnull, hrnull]

end Scalar

end ViewCircuit
