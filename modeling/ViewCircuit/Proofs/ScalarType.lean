import Mathlib.Algebra.Group.Int.Defs
import ViewCircuit.Plan.ScalarExpr
import ViewCircuit.Proofs.Compile

/-! Types of scalars. The rules are stated over the types of the parts alone; lowering accepts every
scalar that they type and gives an expression of that type. It accepts no other, except where IS
TRUE or IS NOT FALSE tests an operand that is neither boolean nor nullable, which it does not look
at. -/
namespace ViewCircuit

/-- The type of a position of a row, seen through one reference. -/
def Ty.column? (row : Ty) (index : Nat) : Option Ty :=
  let target := row.deref?.getD row
  if target.mayBeNull then none else target.field? index

/-- Whether the type can stand for a truth value: boolean, or of an untyped NULL. -/
def Ty.isTruth (t : Ty) : Bool := t.isBool || t.isNullType

/-- Whether a value of the type may be missing. -/
def Ty.isMissing (t : Ty) : Bool := t.isNullType || t.mayBeNull

/-- The range of a width. Integers of plans have 64 bits, so they all have the largest one. -/
def IntWidth.holds (width : IntWidth) (i : Int) : Bool :=
  width == .w64 || -2 ^ (width.bits - 1) ≤ i && i < 2 ^ (width.bits - 1)

/-- Whether a value that is not NULL can be written under a type of the kind. -/
def Value.suits (value : Value) (kind : Kind) : Bool :=
  match value, kind with
  | .int i, .integer width => width.holds i
  | .int i, .usize => 0 ≤ i
  | .int _, .decimal .. | .int _, .float | .int _, .double => true
  | .bool _, .bool | .float _, .float | .float _, .double | .decimal _, .decimal ..
  | .string _, .string | .date _, .date | .timestamp _, .timestamp => true
  | _, _ => false

def Value.type? (value : Value) (ty : Ty) : Option Ty :=
  match value with
  | .null => some (if ty.isNullType then ty else ty.nullable)
  | value => if value.suits ty.kind then some ty else none

def SqlUnary.type? (op : SqlUnary) (operand : Ty) : Option Ty :=
  match op with
  | .isNull | .isNotNull => some Ty.bool
  | .neg => if operand.isNumeric || operand.isNullType then some operand else none
  | .not => if operand.isTruth then some (Ty.bool.withNull operand.isMissing) else none
  | .isTrue | .isFalse | .isNotTrue | .isNotFalse => if operand.isTruth then some Ty.bool else none

/-- The table gives the type, once an untyped NULL took the type of the other operand. -/
def BinaryOp.type? (op : BinaryOp) (left right : Ty) : Option Ty :=
  let table (left right : Ty) := (Primitive.binary op left right).toOption.map Primitive.result
  match left.isNullType, right.isNullType with
  | true, true => some Ty.null
  | true, false => table right.nullable right
  | false, true => table left left.nullable
  | false, false => table left right

/-- The type of a case whose values have these types: those that are no untyped NULLs have one
shape, and any value may be missing when one of them may. -/
def caseType? (values : List Ty) : Option Ty :=
  match values.find? fun t => !t.isNullType with
  | none => some Ty.null
  | some first =>
    if values.all fun t => t.isNullType || first.sameShape t then
      some (first.withNull (values.any Ty.isMissing))
    else none

namespace Scalar

mutual
/-- The type of a scalar over rows of a type, if it is well typed. -/
def type? (row : Ty) : Scalar → Option Ty
  | .column index => row.column? index
  | .literal value ty => value.type? ty
  | .unary op operand => (operand.type? row).bind op.type?
  | .binary op left right => (left.type? row).bind fun l => (right.type? row).bind (op.type? l)
  | .cast operand ty => (operand.type? row).map fun _ => ty
  | .case branches otherwise =>
    (valueTypes? row branches).bind fun ts => (otherwise.type? row).bind fun t =>
      caseType? (ts ++ [t])
/-- The types of the values of branches whose conditions can stand for truth values. -/
def valueTypes? (row : Ty) : List (Scalar × Scalar) → Option (List Ty)
  | [] => some []
  | (condition, value) :: rest =>
    ((condition.type? row).filter Ty.isTruth).bind fun _ => (value.type? row).bind fun t =>
      (valueTypes? row rest).map (t :: ·)
end

mutual
/-- IS TRUE and IS NOT FALSE test operands only that are boolean, nullable or untyped NULLs. -/
def TruthsTested (row : Ty) : Scalar → Prop
  | .column _ | .literal .. => True
  | .unary op operand => (op = .isTrue ∨ op = .isNotFalse →
      ∀ t, operand.type? row = some t → t.isTruth ∨ t.mayBeNull) ∧ operand.TruthsTested row
  | .cast operand _ => operand.TruthsTested row
  | .binary _ left right => left.TruthsTested row ∧ right.TruthsTested row
  | .case branches otherwise => BranchesTested row branches ∧ otherwise.TruthsTested row
def BranchesTested (row : Ty) : List (Scalar × Scalar) → Prop
  | [] => True
  | (condition, value) :: rest =>
    condition.TruthsTested row ∧ value.TruthsTested row ∧ BranchesTested row rest
end

end Scalar

/-- The type of what was made, if anything was. -/
def madeType? (made : Except CompileError Expr) : Option Ty := made.toOption.map Expr.ty

section Made

variable {made : Except CompileError Expr} {e : Expr} {t : Ty}

@[simp] theorem madeType?_ok : madeType? (.ok e) = some e.ty := rfl
@[simp] theorem madeType?_error {fault : CompileError} : madeType? (.error fault) = none := rfl

theorem madeType?_eq_some : madeType? made = some t ↔ ∃ e, made = .ok e ∧ e.ty = t := by
  cases made <;> simp

theorem madeType?_eq_none : madeType? made = none ↔ ∀ e, made ≠ .ok e := by
  cases made <;> simp

end Made

section Nodes

variable {operand left right : Expr}

theorem holds_eq_fitsWidth (width : IntWidth) (i : Int) : width.holds i = fitsWidth width i := by
  cases width <;> simp [IntWidth.holds, fitsWidth, IntWidth.bits] <;> rfl

/-- A value is written exactly when it suits the kind. -/
theorem isOk_literal (value : Value) (ty : Ty) : (value.literal ty).isOk = value.suits ty.kind := by
  unfold Value.literal
  split
  case h_2 hkind =>
    rw [hkind, Value.suits, holds_eq_fitsWidth]
    split <;> simp_all [fault, Except.isOk, Except.toBool]
  case h_3 hkind =>
    rw [hkind, Value.suits]
    split <;> simp_all [fault, Except.isOk, Except.toBool]
  case h_13 =>
    unfold Value.suits
    split <;> simp_all [fault, Except.isOk, Except.toBool]
  all_goals simp_all [Value.suits, Except.isOk, Except.toBool]

theorem madeType?_value (value : Value) (ty : Ty) :
    madeType? (value.toExpr ty) = value.type? ty := by
  have hwritten : madeType? (do
      let e := Expr.literal (← value.literal ty) ty.nonNull
      if ty.mayBeNull then Expr.someOf e else return e) =
      if value.suits ty.kind then some ty else none := by
    rw [← isOk_literal]
    cases value.literal ty with
    | error => rfl
    | ok l =>
      obtain ⟨kind, n⟩ := ty
      cases n <;> rfl
  cases value <;> first | rfl | exact hwritten

theorem madeType?_callUnary (op : UnaryPrimitive) : madeType? (callUnary op operand) =
    (Primitive.unary op operand.ty).toOption.map Primitive.result := by
  unfold callUnary
  cases Primitive.unary op operand.ty <;> rfl

theorem madeType?_combine (op : BinaryOp) : madeType? (op.combine left right) =
    (Primitive.binary op left.ty right.ty).toOption.map Primitive.result := by
  unfold BinaryOp.combine Expr.binary
  split <;> cases Primitive.binary op left.ty right.ty <;> rfl

theorem madeType?_binary (op : BinaryOp) :
    madeType? (op.apply left right) = op.type? left.ty right.ty := by
  unfold BinaryOp.apply BinaryOp.type?
  split <;> simp_all only [madeType?_combine] <;> rfl

/-- What the table says of unary functions: two take numbers, the others booleans. -/
theorem result_unary (op : UnaryPrimitive) (t : Ty) :
    (Primitive.unary op t).toOption.map Primitive.result =
      if (if op = .neg ∨ op = .abs then t.isNumeric else t.isBool) then
        some (if op.isPredicate then Ty.bool else t) else none := by
  obtain ⟨kind, n⟩ := t
  cases op <;> cases kind <;> rfl

theorem madeType?_exprUnary (op : UnaryOp) : madeType? (Expr.unary op operand) =
    if (if op = .neg then operand.ty.isNumeric else operand.ty.isBool) then some operand.ty
      else none := by
  unfold Expr.unary
  cases op <;> dsimp only <;> split <;> simp_all [fault]

theorem Ty.eq_iff {s t : Ty} : s = t ↔ s.kind = t.kind ∧ s.mayBeNull = t.mayBeNull := by
  cases s
  cases t
  simp

theorem Ty.eq_bool {t : Ty} (h : t.isBool) : t = Ty.bool.withNull t.mayBeNull := by
  obtain ⟨kind, n⟩ := t
  cases kind <;> first | rfl | cases h

/-- What an operand is taken for by operators on truth values. -/
def Expr.truth (operand : Expr) : Expr :=
  if operand.ty.isNullType then Expr.cast operand Ty.bool.nullable else operand

theorem Expr.isBool_truth : operand.truth.ty.isBool = operand.ty.isTruth := by
  unfold truth Ty.isTruth
  split
  · simp_all [cast, Ty.isBool, Ty.nullable, Ty.bool]
  · simp_all

theorem Expr.mayBeNull_truth : operand.truth.ty.mayBeNull = operand.ty.isMissing := by
  unfold truth Ty.isMissing
  split
  · simp_all [cast, Ty.nullable]
  · simp_all

theorem Expr.ty_truth (h : operand.ty.isTruth) :
    operand.truth.ty = Ty.bool.withNull operand.ty.isMissing := by
  rw [← isBool_truth] at h
  rw [← mayBeNull_truth, ← Ty.eq_bool h]

/-- A function of truth values, called on an operand that may be missing. -/
theorem madeType?_callTruth (op : UnaryPrimitive) (hop : ¬(op = .neg ∨ op = .abs))
    (hmissing : operand.ty.isMissing) : madeType? (callUnary op operand.truth) =
      if operand.ty.isTruth then some (if op.isPredicate then Ty.bool else Ty.bool.nullable)
        else none := by
  rw [madeType?_callUnary, result_unary, if_neg hop, Expr.isBool_truth]
  split
  · rename_i htruth
    rw [Expr.ty_truth htruth, hmissing]
    rfl
  · rfl

theorem madeType?_notTruth (hmissing : operand.ty.isMissing = false) :
    madeType? (Expr.unary .not operand.truth) =
      if operand.ty.isTruth then some Ty.bool else none := by
  simp only [madeType?_exprUnary, reduceCtorEq, if_false, Expr.isBool_truth]
  split
  · rename_i htruth
    rw [Expr.ty_truth htruth, hmissing]
    rfl
  · rfl

theorem madeType?_neg : madeType? (SqlUnary.neg.apply operand) = SqlUnary.neg.type? operand.ty := by
  unfold SqlUnary.apply SqlUnary.type?
  dsimp only
  split
  · rename_i hnull
    simp [hnull]
  · rename_i hnull
    split <;> simp [madeType?_callUnary, result_unary, madeType?_exprUnary, hnull,
      UnaryPrimitive.isPredicate]

/-- The operators on truth values call the table when the operand may be missing. -/
theorem madeType?_unary (op : SqlUnary)
    (h : op = .isTrue ∨ op = .isNotFalse → operand.ty.isTruth ∨ operand.ty.mayBeNull) :
    madeType? (op.apply operand) = op.type? operand.ty := by
  have htests (htest : op = .isTrue ∨ op = .isNotFalse) (hmissing : operand.ty.isMissing = false) :
      madeType? (.ok operand.truth) = if operand.ty.isTruth then some Ty.bool else none := by
    have htruth : operand.ty.isTruth := by
      rcases h htest with htruth | hnull
      · exact htruth
      · simp [Ty.isMissing, hnull] at hmissing
    rw [madeType?_ok, Expr.ty_truth htruth, hmissing, if_pos htruth]
    rfl
  have hswitch {some none : Except CompileError Expr} {t : Option Ty}
      (hsome : operand.ty.isMissing → madeType? some = t)
      (hnone : operand.ty.isMissing = false → madeType? none = t) :
      madeType? (if operand.truth.ty.mayBeNull then some else none) = t := by
    rw [Expr.mayBeNull_truth]
    cases hmissing : operand.ty.isMissing with
    | true => exact hsome hmissing
    | false => exact hnone hmissing
  cases op with
  | isNull | isNotNull => rfl
  | neg => exact madeType?_neg
  | not =>
    refine hswitch (fun hmissing => ?_) fun hmissing => ?_
    · refine (madeType?_callTruth .not (by simp) hmissing).trans ?_
      rw [SqlUnary.type?, hmissing]
      rfl
    · refine (madeType?_notTruth hmissing).trans ?_
      rw [SqlUnary.type?, hmissing]
      rfl
  | isTrue | isNotFalse =>
    exact hswitch (fun hmissing => madeType?_callTruth _ (by simp) hmissing) (htests (by simp))
  | isFalse | isNotTrue =>
    exact hswitch (fun hmissing => madeType?_callTruth _ (by simp) hmissing) madeType?_notTruth

theorem madeType?_condition (operand : Expr) : madeType? operand.toCondition =
    if operand.ty.isTruth then some Ty.bool else none := by
  unfold Expr.toCondition Ty.isTruth
  split
  · rename_i hnull
    simp [hnull, Expr.bool, Expr.literal]
  · rename_i hnull
    cases hbool : operand.ty.isBool with
    | false => simp [fault, hnull]
    | true =>
      rw [Bool.not_true, if_neg Bool.false_ne_true]
      split
      · simp [madeType?_callUnary, result_unary, hbool, UnaryPrimitive.isPredicate]
      · rename_i hmissing
        rw [madeType?_ok, Ty.eq_bool hbool, Bool.eq_false_iff.mpr hmissing]
        rfl

theorem madeType?_field (row : Expr) (index : Nat) :
    madeType? (row.field index) = row.ty.column? index := by
  unfold Expr.field Ty.column?
  dsimp only
  split
  · rfl
  · split <;> simp_all [fault]

theorem madeType?_cast (ty : Ty) :
    madeType? (.ok (if operand.ty.same ty then operand else Expr.cast operand ty)) = some ty := by
  rw [madeType?_ok]
  split
  · rename_i hsame
    rw [(Ty.same_iff _ _).mp hsame]
  · rfl

end Nodes

section Cases

variable {ty : Ty} {value otherwise : Expr} {branches : List (Expr × Expr)}

/-- What the scan over the values finds: the first that is no untyped NULL gives the shape. -/
theorem commonShape_eq : ∀ (es : List Expr) (shape : Option Ty) (nullable : Bool),
    (commonShape es shape nullable).toOption =
      match shape.or ((es.find? fun e => !e.ty.isNullType).map fun e => e.ty.nonNull) with
      | none => some (none, nullable || es.any fun e => e.ty.isMissing)
      | some s =>
        if es.all fun e => e.ty.isNullType || s.sameShape e.ty then
          some (some s, nullable || es.any fun e => e.ty.isMissing)
        else none
  | [], none, nullable => by simp [commonShape, Except.toOption]
  | [], some s, nullable => by simp [commonShape, Except.toOption]
  | e :: es, shape, nullable => by
    have ih := commonShape_eq es
    unfold commonShape
    cases hnull : e.ty.isNullType with
    | true => simp [hnull, ih, Ty.isMissing]
    | false =>
      cases shape with
      | none => simp [hnull, ih, Ty.isMissing, Bool.or_assoc, Ty.nonNull]
      | some s =>
        by_cases hshape : s.sameShape e.ty
        · simp [hnull, hshape, ih, Ty.isMissing, Bool.or_assoc]
        · simp [hnull, hshape, fault, Except.toOption]

theorem madeType?_coerce (hkind : value.ty.isNullType ∨ ty.sameShape value.ty)
    (hnull : value.ty.isMissing → ty.mayBeNull) : madeType? (coerce ty value) = some ty := by
  unfold coerce Expr.someOf
  split
  · rfl
  · rename_i htyped
    have hkind := (Ty.sameShape_iff _ _).mp (hkind.resolve_left htyped)
    have hnull : value.ty.mayBeNull → ty.mayBeNull := fun h => hnull (by simp [Ty.isMissing, h])
    split
    · rename_i hwrap
      obtain ⟨hty, hvalue⟩ := (Bool.and_eq_true _ _).mp hwrap
      rw [if_neg (by simpa using hvalue), madeType?_ok, Option.some_inj, Ty.eq_iff]
      exact ⟨hkind.symm, hty.symm⟩
    · rename_i hkeep
      rw [madeType?_ok, Option.some_inj, Ty.eq_iff]
      refine ⟨hkind.symm, ?_⟩
      cases hv : value.ty.mayBeNull <;> simp_all

/-- The conditionals of a case have its type when the conditions are boolean and every value can be
brought to it. -/
theorem madeType?_caseChain (hconditions : ∀ b ∈ branches, b.1.ty = Ty.bool)
    (hvalues : ∀ value ∈ branches.map Prod.snd ++ [otherwise],
      (value.ty.isNullType ∨ ty.sameShape value.ty) ∧ (value.ty.isMissing → ty.mayBeNull)) :
    madeType? (caseChain ty branches otherwise) = some ty := by
  induction branches with
  | nil =>
    obtain ⟨hkind, hnull⟩ := hvalues otherwise (by simp)
    exact madeType?_coerce hkind hnull
  | cons branch rest ih =>
    obtain ⟨condition, value⟩ := branch
    obtain ⟨hkind, hnull⟩ := hvalues value (by simp)
    obtain ⟨no, hno, hnoty⟩ := madeType?_eq_some.mp (ih
      (fun b hb => hconditions b (List.mem_cons_of_mem _ hb))
      fun v hv => hvalues v (List.mem_cons_of_mem _ hv))
    obtain ⟨yes, hyes, hyesty⟩ := madeType?_eq_some.mp (madeType?_coerce hkind hnull)
    have hcondition : condition.ty = Ty.bool := hconditions _ List.mem_cons_self
    rw [caseChain, hno, hyes]
    change madeType? (Expr.ite condition yes no) = _
    rw [Expr.ite, hcondition, hyesty, hnoty]
    simp [(Ty.same_iff _ _).mpr rfl, (Ty.sameShape_iff _ _).mpr rfl, Ty.eq_iff]

theorem madeType?_caseExpr (hconditions : ∀ b ∈ branches, b.1.ty = Ty.bool) :
    madeType? (caseExpr branches otherwise) =
      caseType? ((branches.map Prod.snd ++ [otherwise]).map Expr.ty) := by
  have hscan : madeType? (caseExpr branches otherwise) =
      (commonShape (branches.map Prod.snd ++ [otherwise]) none false).toOption.bind fun found =>
        match found.1 with
        | none => some Ty.null
        | some shape => madeType? (caseChain (shape.withNull found.2) branches otherwise) := by
    unfold caseExpr
    rcases commonShape (branches.map Prod.snd ++ [otherwise]) none false with _ | ⟨_ | shape, n⟩ <;>
      rfl
  rw [hscan, commonShape_eq]
  simp only [caseType?, List.find?_map, List.all_map, List.any_map, Option.none_or, Bool.false_or,
    Function.comp_def]
  cases hfirst : (branches.map Prod.snd ++ [otherwise]).find? fun e => !e.ty.isNullType with
  | none => rfl
  | some first =>
    simp only [Option.map_some]
    rw [show first.ty.nonNull.sameShape = first.ty.sameShape from rfl]
    by_cases hshapes : (branches.map Prod.snd ++ [otherwise]).all fun e =>
      e.ty.isNullType || first.ty.sameShape e.ty
    · rw [if_pos hshapes, if_pos hshapes, Option.bind_some]
      refine madeType?_caseChain hconditions fun value hvalue => ⟨?_, fun hmissing => ?_⟩
      · exact (Bool.or_eq_true _ _).mp (List.all_eq_true.mp hshapes value hvalue)
      · exact List.any_eq_true.mpr ⟨value, hvalue, hmissing⟩
    · rw [if_neg hshapes, if_neg hshapes, Option.bind_none]

end Cases

namespace Scalar

variable {row : Ty}

mutual
/-- The parts of a well-typed scalar are well typed, so its IS TRUE and IS NOT FALSE test truths. -/
theorem truthsTested_of_type? : ∀ (s : Scalar), (s.type? row).isSome → s.TruthsTested row
  | .column _, _ | .literal .., _ => by simp [TruthsTested]
  | .unary op operand, h => by
    obtain ⟨t, ht⟩ := Option.isSome_iff_exists.mp h
    obtain ⟨s, hs, hop⟩ := Option.bind_eq_some_iff.mp ht
    rw [TruthsTested]
    refine ⟨fun htest t ht => ?_, truthsTested_of_type? operand (by simp [hs])⟩
    cases hs.symm.trans ht
    rcases htest with rfl | rfl <;> exact .inl (Option.ite_none_right_eq_some.mp hop).1
  | .binary op left right, h => by
    obtain ⟨t, ht⟩ := Option.isSome_iff_exists.mp h
    obtain ⟨s, hs, ht⟩ := Option.bind_eq_some_iff.mp ht
    obtain ⟨s', hs', ht⟩ := Option.bind_eq_some_iff.mp ht
    rw [TruthsTested]
    exact ⟨truthsTested_of_type? left (by simp [hs]), truthsTested_of_type? right (by simp [hs'])⟩
  | .cast operand ty, h => by
    rw [TruthsTested]
    exact truthsTested_of_type? operand (by simpa [type?] using h)
  | .case branches otherwise, h => by
    obtain ⟨t, ht⟩ := Option.isSome_iff_exists.mp h
    obtain ⟨ts, hts, ht⟩ := Option.bind_eq_some_iff.mp ht
    obtain ⟨s, hs, ht⟩ := Option.bind_eq_some_iff.mp ht
    rw [TruthsTested]
    exact ⟨branchesTested_of_valueTypes? branches (by simp [hts]),
      truthsTested_of_type? otherwise (by simp [hs])⟩
theorem branchesTested_of_valueTypes? : ∀ (branches : List (Scalar × Scalar)),
    (valueTypes? row branches).isSome → BranchesTested row branches
  | [], _ => by simp [BranchesTested]
  | (condition, value) :: rest, h => by
    obtain ⟨ts, hts⟩ := Option.isSome_iff_exists.mp h
    obtain ⟨c, hc, hts⟩ := Option.bind_eq_some_iff.mp hts
    obtain ⟨t, ht, hts⟩ := Option.bind_eq_some_iff.mp hts
    obtain ⟨ts', hts', -⟩ := Option.map_eq_some_iff.mp hts
    rw [BranchesTested]
    exact ⟨truthsTested_of_type? condition (by simp [(Option.filter_eq_some_iff.mp hc).1]),
      truthsTested_of_type? value (by simp [ht]),
      branchesTested_of_valueTypes? rest (by simp [hts'])⟩
end

theorem ty_of_toCondition {e c : Expr} (h : e.toCondition = .ok c) : c.ty = Ty.bool := by
  have hmade := madeType?_condition e
  rw [h, madeType?_ok] at hmade
  exact (Option.some_inj.mp (Option.ite_none_right_eq_some.mp hmade.symm).2).symm

theorem ty_of_branches {row : Expr} : ∀ {branches : List (Scalar × Scalar)}
    {made : List (Expr × Expr)}, branchesToExpr row branches = .ok made →
      ∀ b ∈ made, b.1.ty = Ty.bool
  | [], made, h => by
    cases h
    exact List.forall_mem_nil _
  | (condition, value) :: rest, made, h => by
    rw [branchesToExpr] at h
    obtain ⟨tested, _, h⟩ := except_bind_eq_ok.mp h
    obtain ⟨c, hc, h⟩ := except_bind_eq_ok.mp h
    obtain ⟨v, _, h⟩ := except_bind_eq_ok.mp h
    obtain ⟨bs, hbs, h⟩ := except_bind_eq_ok.mp h
    cases h
    exact List.forall_mem_cons.mpr ⟨ty_of_toCondition hc, ty_of_branches hbs⟩

mutual
/-- Where truths are tested, a scalar becomes an expression of its type, and only a well-typed one
becomes an expression. -/
theorem madeType?_toExpr (row : Expr) : ∀ (s : Scalar), s.TruthsTested row.ty →
    madeType? (s.toExpr row) = s.type? row.ty
  | .column index, _ => by rw [toExpr, type?, madeType?_field]
  | .literal value ty, _ => by rw [toExpr, type?, madeType?_value]
  | .unary op operand, h => by
    rw [TruthsTested] at h
    have ih := madeType?_toExpr row operand h.2
    rw [toExpr, type?, ← ih]
    cases hmade : operand.toExpr row with
    | error => rfl
    | ok e =>
      rw [hmade] at ih
      exact madeType?_unary op fun htest => h.1 htest e.ty ih.symm
  | .binary op left right, h => by
    rw [TruthsTested] at h
    rw [toExpr, type?, ← madeType?_toExpr row left h.1, ← madeType?_toExpr row right h.2]
    cases left.toExpr row with
    | error => rfl
    | ok l =>
      cases right.toExpr row with
      | error => rfl
      | ok r => exact madeType?_binary op
  | .cast operand ty, h => by
    rw [TruthsTested] at h
    rw [toExpr, type?, ← madeType?_toExpr row operand h]
    cases operand.toExpr row with
    | error => rfl
    | ok e => exact madeType?_cast ty
  | .case branches otherwise, h => by
    rw [TruthsTested] at h
    have ih := madeTypes?_branches row branches h.1
    rw [toExpr, type?, ← ih, ← madeType?_toExpr row otherwise h.2]
    cases hmade : branchesToExpr row branches with
    | error => rfl
    | ok bs =>
      cases otherwise.toExpr row with
      | error => rfl
      | ok e =>
        refine (madeType?_caseExpr (ty_of_branches hmade)).trans ?_
        rw [List.map_append, List.map_map]
        rfl
theorem madeTypes?_branches (row : Expr) : ∀ (branches : List (Scalar × Scalar)),
    BranchesTested row.ty branches →
      (branchesToExpr row branches).toOption.map (List.map fun b => b.2.ty) =
        valueTypes? row.ty branches
  | [], _ => rfl
  | (condition, value) :: rest, h => by
    rw [BranchesTested] at h
    rw [branchesToExpr, valueTypes?, ← madeType?_toExpr row condition h.1,
      ← madeType?_toExpr row value h.2.1, ← madeTypes?_branches row rest h.2.2]
    cases condition.toExpr row with
    | error => rfl
    | ok c =>
      have hcondition := madeType?_condition c
      rw [madeType?_ok, Option.filter_some]
      change Option.map _ (Except.toOption (c.toCondition >>= _)) = _
      cases hc : c.toCondition with
      | error =>
        rw [hc, madeType?_error] at hcondition
        rw [if_neg fun htruth => by simp [htruth] at hcondition]
        rfl
      | ok c' =>
        rw [hc, madeType?_ok] at hcondition
        rw [if_pos (Option.ite_none_right_eq_some.mp hcondition.symm).1]
        cases value.toExpr row with
        | error => rfl
        | ok v => cases branchesToExpr row rest <;> rfl
end

/-- Every well-typed scalar becomes an expression of its type. A scalar that becomes an expression
is well typed, unless IS TRUE or IS NOT FALSE tests something in it that is neither boolean nor
nullable. -/
theorem toExpr_typed (row : Expr) (s : Scalar) :
    (∀ t, s.type? row.ty = some t → ∃ e, s.toExpr row = .ok e ∧ e.ty = t) ∧
    (s.TruthsTested row.ty → ∀ e, s.toExpr row = .ok e → s.type? row.ty = some e.ty) := by
  constructor
  · intro t ht
    rw [← madeType?_eq_some, madeType?_toExpr row s (truthsTested_of_type? s (by simp [ht])), ht]
  · intro h e he
    rw [← madeType?_toExpr row s h, he, madeType?_ok]

/-- The second column where the first one, which may be missing, is surely larger. -/
def smallerOrNull : Scalar :=
  .case [(.unary .isTrue (.binary .gt (.column 0) (.column 1)), .column 1)] .null

theorem toExpr_smallerOrNull :
    let row := Expr.var "t" (Ty.ref (Ty.tuple [Ty.int32.nullable, Ty.int32]))
    ∃ e, smallerOrNull.toExpr row = .ok e ∧ e.ty = Ty.int32.nullable ∧
      smallerOrNull.TruthsTested row.ty ∧ smallerOrNull.type? row.ty = some e.ty := by
  intro row
  have htype : smallerOrNull.type? row.ty = some Ty.int32.nullable := by with_unfolding_all rfl
  obtain ⟨haccepts, hrejects⟩ := toExpr_typed row smallerOrNull
  obtain ⟨e, he, ht⟩ := haccepts _ htype
  have htested := truthsTested_of_type? smallerOrNull (by rw [htype]; rfl)
  exact ⟨e, he, ht, htested, hrejects htested e he⟩

/-- IS TRUE keeps an operand that is neither boolean nor nullable, which IS FALSE rejects. -/
theorem toExpr_isTrue_unchecked {row e : Expr} {operand : Scalar} (he : operand.toExpr row = .ok e)
    (hbool : e.ty.isTruth = false) (hnull : e.ty.mayBeNull = false) :
    (unary .isTrue operand).toExpr row = .ok e ∧
      ∀ made, (unary .isFalse operand).toExpr row ≠ .ok made := by
  have htyped : e.ty.isNullType = false := ((Bool.or_eq_false_iff).mp hbool).2
  constructor
  · rw [toExpr, he]
    change SqlUnary.isTrue.apply e = _
    simp [SqlUnary.apply, htyped, hnull]
  · rw [← madeType?_eq_none, toExpr, he]
    exact (madeType?_unary .isFalse (by simp)).trans (if_neg (by simp [hbool]))

end Scalar

end ViewCircuit
