import ViewCircuit.Plan.Fold
import ViewCircuit.Proofs.Normal

/-! Scalars and aggregate calls as first-order expressions. Each function that makes an expression
of others keeps them first-order, so every function of a lowered circuit is. -/
namespace ViewCircuit

open List (Forall₂)

section Except

variable {ε α β : Type} {f : α → Except ε β}

theorem mapM_eq_ok {xs : List α} {ys : List β} :
    xs.mapM f = .ok ys ↔ Forall₂ (fun x y => f x = .ok y) xs ys := by
  induction xs generalizing ys with
  | nil =>
    constructor
    · rintro ⟨⟩
      exact .nil
    · rintro ⟨⟩
      rfl
  | cons x xs ih =>
    rw [List.mapM_cons, except_bind_eq_ok]
    simp only [except_bind_eq_ok, ih]
    constructor
    · rintro ⟨y, hy, ys', hys, ⟨⟩⟩
      exact .cons hy hys
    · rintro (_ | ⟨hy, hys⟩)
      exact ⟨_, hy, _, hys, rfl⟩

/-- What all results of a function have, the results over a list have. -/
theorem forall_mem_of_mapM {P : β → Prop} {xs : List α} {ys : List β} (h : xs.mapM f = .ok ys)
    (hP : ∀ x ∈ xs, ∀ y, f x = .ok y → P y) : ∀ y ∈ ys, P y := by
  rw [mapM_eq_ok] at h
  induction h with
  | nil => exact nofun
  | cons hy _ ih =>
    refine List.forall_mem_cons.2 ⟨hP _ List.mem_cons_self _ hy, ih fun x hx => ?_⟩
    exact hP x (List.mem_cons_of_mem _ hx)

end Except

namespace Scalar

mutual
/-- The types that literals and casts name. -/
def types : Scalar → List Ty
  | .column _ => []
  | .literal _ ty => [ty]
  | .unary _ operand => operand.types
  | .binary _ left right => left.types ++ right.types
  | .cast operand ty => ty :: operand.types
  | .case branches otherwise => branchTypes branches ++ otherwise.types
def branchTypes : List (Scalar × Scalar) → List Ty
  | [] => []
  | (w, t) :: rest => w.types ++ t.types ++ branchTypes rest
end

end Scalar

/-- Literals and operators over some expressions, as lowering composes them. -/
inductive Composed (base : Expr → Prop) (fits : Literal → Ty → Prop) : Expr → Prop
  | given {e : Expr} : base e → Composed base fits e
  | literal {value : Literal} {t : Ty} : value.isSimple → fits value t →
      Composed base fits (Expr.literal value t)
  | unary {op : UnaryOp} {operand e : Expr} : Composed base fits operand →
      Expr.unary op operand = .ok e → Composed base fits e
  | binary {op : BinaryOp} {left right e : Expr} : Composed base fits left →
      Composed base fits right → Expr.binary op left right = .ok e → Composed base fits e
  | call {function : String} {args : List Expr} {result : Ty} :
      (∀ arg ∈ args, Composed base fits arg) → Composed base fits (Expr.call function args result)
  | some {operand e : Expr} : Composed base fits operand → Expr.someOf operand = .ok e →
      Composed base fits e
  | ite {condition yes no e : Expr} : Composed base fits condition → Composed base fits yes →
      Composed base fits no → Expr.ite condition yes no = .ok e → Composed base fits e
  | cast {operand : Expr} {ty : Ty} : Composed base fits operand →
      Composed base fits (Expr.cast operand ty)
  | isNull {operand : Expr} : Composed base fits operand →
      Composed base fits (Expr.isNull operand)

section Composed

variable {base : Expr → Prop} {fits : Literal → Ty → Prop} (hfits : Admits fits)
  {operand left right value condition yes no e : Expr}

include hfits

theorem composed_value {v : Value} {ty : Ty} (hnull : ty.isNullType → fits .null ty)
    (h : v.toExpr ty = .ok e) : Composed base fits e := by
  unfold Value.toExpr at h
  split at h
  · cases h
    refine .literal rfl ?_
    split
    · rename_i hkind
      exact hnull hkind
    · exact hfits.null rfl
  · obtain ⟨l, hl, h⟩ := except_bind_eq_ok.1 h
    have hliteral : Composed base fits (Expr.literal l ty.nonNull) :=
      .literal (Value.isSimple_literal hl) (hfits.value hl)
    by_cases hmay : ty.mayBeNull
    · rw [if_pos hmay] at h
      exact .some hliteral h
    · rw [if_neg hmay] at h
      cases h
      exact hliteral

omit hfits

theorem composed_callUnary {op : UnaryPrimitive} (ho : Composed base fits operand)
    (h : callUnary op operand = .ok e) : Composed base fits e := by
  obtain ⟨p, -, h⟩ := except_bind_eq_ok.1 h
  cases h
  exact .call (by simpa using ho)

theorem composed_unary {op : SqlUnary} (ho : Composed base fits operand)
    (h : op.apply operand = .ok e) : Composed base fits e := by
  have htruth : Composed base fits
      (if operand.ty.isNullType then Expr.cast operand Ty.bool.nullable else operand) := by
    split
    · exact .cast ho
    · exact ho
  cases op with
  | isNull =>
    cases h
    exact .isNull ho
  | isNotNull =>
    simp only [SqlUnary.apply] at h
    exact .unary (.isNull ho) h
  | neg =>
    simp only [SqlUnary.apply] at h
    split at h
    · cases h
      exact ho
    · split at h
      · exact composed_callUnary ho h
      · exact .unary ho h
  | isTrue | isNotFalse =>
    simp only [SqlUnary.apply] at h
    generalize (if operand.ty.isNullType then Expr.cast operand Ty.bool.nullable else operand) =
      truth at h htruth
    split at h
    · exact composed_callUnary htruth h
    · cases h
      exact htruth
  | not | isFalse | isNotTrue =>
    simp only [SqlUnary.apply] at h
    generalize (if operand.ty.isNullType then Expr.cast operand Ty.bool.nullable else operand) =
      truth at h htruth
    split at h
    · exact composed_callUnary htruth h
    · exact .unary htruth h

theorem composed_combine {op : BinaryOp} (hl : Composed base fits left)
    (hr : Composed base fits right) (h : op.combine left right = .ok e) : Composed base fits e := by
  unfold BinaryOp.combine at h
  split at h
  · exact .binary hl hr h
  · obtain ⟨p, -, h⟩ := except_bind_eq_ok.1 h
    cases h
    exact .call (by simpa using ⟨hl, hr⟩)

include hfits

theorem composed_binary {op : BinaryOp} (hl : Composed base fits left)
    (hr : Composed base fits right) (h : op.apply left right = .ok e) : Composed base fits e := by
  unfold BinaryOp.apply at h
  split at h
  · cases h
    exact .literal rfl (hfits.null rfl)
  · exact composed_combine (.cast hl) hr h
  · exact composed_combine hl (.cast hr) h
  · exact composed_combine hl hr h

theorem composed_condition (he : Composed base fits operand) (h : operand.toCondition = .ok e) :
    Composed base fits e := by
  unfold Expr.toCondition at h
  split at h
  · cases h
    exact .literal rfl (hfits.bool false)
  · split at h
    · cases h
    · split at h
      · exact composed_callUnary he h
      · cases h
        exact he

omit hfits

theorem composed_coerce {ty : Ty} (hv : Composed base fits value) (h : coerce ty value = .ok e) :
    Composed base fits e := by
  unfold coerce at h
  split at h
  · cases h
    exact .cast hv
  · split at h
    · exact .some hv h
    · cases h
      exact hv

theorem composed_caseChain {ty : Ty} {branches : List (Expr × Expr)} {otherwise : Expr}
    (hbranches : ∀ b ∈ branches, Composed base fits b.1 ∧ Composed base fits b.2)
    (ho : Composed base fits otherwise) (h : caseChain ty branches otherwise = .ok e) :
    Composed base fits e := by
  induction branches generalizing e with
  | nil => exact composed_coerce ho h
  | cons branch rest ih =>
    obtain ⟨hcondition, hvalue⟩ := hbranches _ List.mem_cons_self
    obtain ⟨no, hno, h⟩ := except_bind_eq_ok.1 h
    obtain ⟨yes, hyes, h⟩ := except_bind_eq_ok.1 h
    exact .ite hcondition (composed_coerce hvalue hyes)
      (ih (fun b hb => hbranches b (List.mem_cons_of_mem _ hb)) hno) h

include hfits

theorem composed_caseExpr {branches : List (Expr × Expr)} {otherwise : Expr}
    (hbranches : ∀ b ∈ branches, Composed base fits b.1 ∧ Composed base fits b.2)
    (ho : Composed base fits otherwise) (h : caseExpr branches otherwise = .ok e) :
    Composed base fits e := by
  obtain ⟨⟨shape, nullable⟩, -, h⟩ := except_bind_eq_ok.1 h
  cases shape with
  | none =>
    cases h
    exact .literal rfl (hfits.null rfl)
  | some shape => exact composed_caseChain hbranches ho h

mutual
theorem composed_scalar {row : Expr} (hrow : ∀ index e, Expr.field row index = .ok e → base e) :
    ∀ (s : Scalar) {e : Expr}, (∀ t ∈ s.types, t.isNullType → fits .null t) →
    s.toExpr row = .ok e → Composed base fits e
  | .column index, e, _, h => .given (hrow index e h)
  | .literal v ty, e, hnull, h => composed_value hfits (hnull ty (by simp [Scalar.types])) h
  | .unary op operand, e, hnull, h => by
    obtain ⟨o, ho, h⟩ := except_bind_eq_ok.1 h
    exact composed_unary (composed_scalar hrow operand hnull ho) h
  | .binary op left right, e, hnull, h => by
    simp only [Scalar.types, List.forall_mem_append] at hnull
    obtain ⟨l, hl, h⟩ := except_bind_eq_ok.1 h
    obtain ⟨r, hr, h⟩ := except_bind_eq_ok.1 h
    exact composed_binary hfits (composed_scalar hrow left hnull.1 hl)
      (composed_scalar hrow right hnull.2 hr) h
  | .cast operand ty, e, hnull, h => by
    simp only [Scalar.types, List.forall_mem_cons] at hnull
    obtain ⟨o, ho, h⟩ := except_bind_eq_ok.1 h
    have hoperand := composed_scalar hrow operand hnull.2 ho
    cases h
    split
    · exact hoperand
    · exact .cast hoperand
  | .case branches otherwise, e, hnull, h => by
    simp only [Scalar.types, List.forall_mem_append] at hnull
    obtain ⟨bs, hbs, h⟩ := except_bind_eq_ok.1 h
    obtain ⟨o, ho, h⟩ := except_bind_eq_ok.1 h
    exact composed_caseExpr hfits (composed_branches hrow branches hnull.1 hbs)
      (composed_scalar hrow otherwise hnull.2 ho) h
theorem composed_branches {row : Expr} (hrow : ∀ index e, Expr.field row index = .ok e → base e) :
    ∀ (branches : List (Scalar × Scalar)) {bs : List (Expr × Expr)},
    (∀ t ∈ Scalar.branchTypes branches, t.isNullType → fits .null t) →
    Scalar.branchesToExpr row branches = .ok bs →
    ∀ b ∈ bs, Composed base fits b.1 ∧ Composed base fits b.2
  | [], bs, _, h => by
    cases h
    exact nofun
  | (w, t) :: rest, bs, hnull, h => by
    simp only [Scalar.branchTypes, List.forall_mem_append] at hnull
    obtain ⟨whenExpr, hwhen, h⟩ := except_bind_eq_ok.1 h
    obtain ⟨c, hc, h⟩ := except_bind_eq_ok.1 h
    obtain ⟨v, hv, h⟩ := except_bind_eq_ok.1 h
    obtain ⟨bs', hbs, h⟩ := except_bind_eq_ok.1 h
    cases h
    refine List.forall_mem_cons.2 ⟨⟨?_, composed_scalar hrow t hnull.1.2 hv⟩,
      composed_branches hrow rest hnull.2 hbs⟩
    exact composed_condition hfits (composed_scalar hrow w hnull.1.1 hwhen) hc
end

end Composed

section FirstOrder

variable {base : Expr → Prop} {fits : Literal → Ty → Prop} {Γ : TyEnv}
  {left right operand row e : Expr}

theorem Composed.firstOrder (he : Composed base fits e)
    (hbase : ∀ e, base e → FirstOrder fits Γ e) : FirstOrder fits Γ e := by
  induction he with
  | given he => exact hbase _ he
  | literal hsimple hfits => exact .literal hsimple hfits
  | unary _ he ih => exact .unary ih he
  | binary _ _ he ihleft ihright => exact .binary ihleft ihright he
  | call _ ih => exact .call ih
  | some _ he ih => exact .some ih he
  | ite _ _ _ he ihcondition ihyes ihno => exact .ite ihcondition ihyes ihno he
  | cast _ ih => exact .cast ih
  | isNull _ ih => exact .isNull ih

variable (hfits : Admits fits)

include hfits

theorem firstOrder_noneOf (ty : Ty) : FirstOrder fits Γ (Expr.noneOf ty) :=
  .literal rfl (hfits.null rfl)

theorem firstOrder_int64 (i : Int) : FirstOrder fits Γ (Expr.int64 i) :=
  .literal rfl (hfits.int64 i)

theorem firstOrder_value {v : Value} {ty : Ty} (hnull : ty.isNullType → fits .null ty)
    (h : v.toExpr ty = .ok e) : FirstOrder fits Γ e := by
  have he : Composed (FirstOrder fits Γ) fits e := composed_value hfits hnull h
  exact he.firstOrder fun _ he => he

theorem firstOrder_binary {op : BinaryOp} (hl : FirstOrder fits Γ left)
    (hr : FirstOrder fits Γ right) (h : op.apply left right = .ok e) : FirstOrder fits Γ e :=
  (composed_binary hfits (.given hl) (.given hr) h).firstOrder fun _ he => he

theorem firstOrder_condition (he : FirstOrder fits Γ operand) (h : operand.toCondition = .ok e) :
    FirstOrder fits Γ e :=
  (composed_condition hfits (.given he) h).firstOrder fun _ he => he

theorem firstOrder_scalar (hrow : FirstOrder fits Γ row) (s : Scalar)
    (hnull : ∀ t ∈ s.types, t.isNullType → fits .null t) (h : s.toExpr row = .ok e) :
    FirstOrder fits Γ e :=
  (composed_scalar hfits (fun _ _ he => .field hrow he) s hnull h).firstOrder fun _ he => he

end FirstOrder

section Folds

variable {fits : Literal → Ty → Prop} (hfits : Admits fits) {Γ : TyEnv} {acc value w t e : Expr}

theorem firstOrder_accumulate {op : BinaryOp} (hacc : FirstOrder fits Γ acc)
    (hvalue : FirstOrder fits Γ value) (h : accumulate op acc value = .ok e) :
    FirstOrder fits Γ e := by
  obtain ⟨p, -, h⟩ := except_bind_eq_ok.1 h
  cases h
  exact .call (by simpa using ⟨hacc, hvalue⟩)

theorem firstOrder_weightAs {ty : Ty} (hw : FirstOrder fits Γ w) :
    FirstOrder fits Γ (weightAs w ty) := by
  unfold weightAs
  split
  · exact hw
  · exact .cast hw

theorem firstOrder_countStep {v : Option Expr} (hacc : FirstOrder fits Γ acc)
    (hv : ∀ e ∈ v, FirstOrder fits Γ e) (hw : FirstOrder fits Γ w)
    (h : countStep acc v w = .ok e) : FirstOrder fits Γ e := by
  obtain ⟨counted, hcounted, h⟩ := except_bind_eq_ok.1 h
  have hsum : FirstOrder fits Γ counted := .binary hacc hw hcounted
  cases v with
  | none =>
    cases h
    exact hsum
  | some v =>
    simp only at h
    split at h
    · exact .ite (.isNull (hv v rfl)) hacc hsum h
    · cases h
      exact hsum

include hfits

theorem firstOrder_sumStep {ty : Ty} (hacc : FirstOrder fits Γ acc)
    (hvalue : FirstOrder fits Γ value) (hw : FirstOrder fits Γ w)
    (h : sumStep acc value ty w = .ok e) : FirstOrder fits Γ e := by
  obtain ⟨product, hproduct, h⟩ := except_bind_eq_ok.1 h
  exact firstOrder_accumulate hacc
    (firstOrder_binary hfits hvalue (firstOrder_weightAs hw) hproduct) h

namespace Accumulator

theorem firstOrder_zero (a : Accumulator) : ∀ e ∈ a.zero, FirstOrder fits Γ e := by
  cases a <;> simp [zero, firstOrder_int64 hfits, firstOrder_noneOf hfits]

theorem firstOrder_emptyValue (a : Accumulator) (result : Ty) :
    FirstOrder fits Γ (a.emptyValue result) := by
  cases a with
  | count => exact firstOrder_int64 hfits 0
  | _ => exact firstOrder_noneOf hfits result

variable {slot : Nat → Except CompileError Expr}
  (hslot : ∀ i e, slot i = .ok e → FirstOrder fits Γ e)

include hslot

theorem firstOrder_step {a : Accumulator} (ht : FirstOrder fits Γ t) (hw : FirstOrder fits Γ w)
    {es : List Expr} (h : a.step slot t w = .ok es) : ∀ e ∈ es, FirstOrder fits Γ e := by
  cases a with
  | count column =>
    cases column with
    | none =>
      obtain ⟨s, hs, h⟩ := except_bind_eq_ok.1 h
      obtain ⟨e, he, h⟩ := except_bind_eq_ok.1 h
      cases h
      simpa using firstOrder_countStep (hslot 0 s hs) (by simp) hw he
    | some column =>
      obtain ⟨v, hv, h⟩ := except_bind_eq_ok.1 h
      obtain ⟨s, hs, h⟩ := except_bind_eq_ok.1 h
      obtain ⟨e, he, h⟩ := except_bind_eq_ok.1 h
      cases h
      simpa using firstOrder_countStep (hslot 0 s hs)
        (by rintro _ ⟨⟩; exact .field ht hv) hw he
  | sum column ty =>
    obtain ⟨s, hs, h⟩ := except_bind_eq_ok.1 h
    obtain ⟨v, hv, h⟩ := except_bind_eq_ok.1 h
    obtain ⟨e, he, h⟩ := except_bind_eq_ok.1 h
    cases h
    simpa using firstOrder_sumStep hfits (hslot 0 s hs) (.field ht hv) hw he
  | extremum op column ty =>
    obtain ⟨s, hs, h⟩ := except_bind_eq_ok.1 h
    obtain ⟨v, hv, h⟩ := except_bind_eq_ok.1 h
    obtain ⟨e, he, h⟩ := except_bind_eq_ok.1 h
    cases h
    simpa using firstOrder_accumulate (hslot 0 s hs) (.field ht hv) he
  | avg column ty =>
    obtain ⟨s, hs, h⟩ := except_bind_eq_ok.1 h
    obtain ⟨v, hv, h⟩ := except_bind_eq_ok.1 h
    obtain ⟨total, htotal, h⟩ := except_bind_eq_ok.1 h
    obtain ⟨s', hs', h⟩ := except_bind_eq_ok.1 h
    obtain ⟨v', hv', h⟩ := except_bind_eq_ok.1 h
    obtain ⟨count, hcount, h⟩ := except_bind_eq_ok.1 h
    cases h
    have hsum := firstOrder_sumStep hfits (hslot 0 s hs) (.field ht hv) hw htotal
    have hcounted := firstOrder_countStep (hslot 1 s' hs')
      (by rintro _ ⟨⟩; exact .field ht hv') hw hcount
    simpa using ⟨hsum, hcounted⟩

theorem firstOrder_result {a : Accumulator} (h : a.result slot = .ok e) :
    FirstOrder fits Γ e := by
  cases a with
  | avg column ty =>
    obtain ⟨s, hs, h⟩ := except_bind_eq_ok.1 h
    obtain ⟨s', hs', h⟩ := except_bind_eq_ok.1 h
    exact firstOrder_binary hfits (hslot 0 s hs) (firstOrder_weightAs (hslot 1 s' hs')) h
  | count | sum | extremum => exact hslot 0 e h

end Accumulator

omit hfits

theorem forall_mem_of_collectSlots {α : Type} {P : α → Prop}
    {f : Accumulator → Nat → Except CompileError (List α)} {accumulators : List Accumulator}
    {first : Nat} {as : List α} (h : collectSlots f accumulators first = .ok as)
    (hP : ∀ a i as, f a i = .ok as → ∀ x ∈ as, P x) : ∀ x ∈ as, P x := by
  induction accumulators generalizing first as with
  | nil =>
    cases h
    exact nofun
  | cons a rest ih =>
    obtain ⟨here, hhere, h⟩ := except_bind_eq_ok.1 h
    obtain ⟨later, hlater, h⟩ := except_bind_eq_ok.1 h
    cases h
    exact List.forall_mem_append.2 ⟨hP a first here hhere, ih hlater⟩

/-- The fold of aggregate calls is made of first-order functions. -/
theorem folding_foldExpr (hfits : Admits fits) {row : Ty} {accumulators : List Accumulator}
    (h : foldExpr row accumulators = .ok e) : Folding fits e := by
  obtain ⟨steps, hsteps, h⟩ := except_bind_eq_ok.1 h
  obtain ⟨results, hresults, h⟩ := except_bind_eq_ok.1 h
  refine .intro ?_ (.intro ?_ ?_) (.intro ?_ ?_) h
  · exact .tuple (List.forall_mem_flatMap.2 fun a _ => a.firstOrder_zero hfits)
  · simp only [List.forall_mem_cons]
    exact ⟨rfl, rfl, rfl, nofun⟩
  · refine .tuple (forall_mem_of_collectSlots hsteps fun a first es hes => ?_)
    refine Accumulator.firstOrder_step hfits (fun i e he => .field ?_ he) ?_ ?_ hes
    · exact .var rfl rfl
    · exact .var rfl rfl
    · exact .var rfl rfl
  · simp only [List.forall_mem_cons]
    exact ⟨rfl, nofun⟩
  · refine .tuple (forall_mem_of_collectSlots hresults fun a first es hes => ?_)
    obtain ⟨result, hresult, hes⟩ := except_bind_eq_ok.1 hes
    cases hes
    rw [List.forall_mem_singleton]
    refine Accumulator.firstOrder_result hfits (fun i e he => .field ?_ he) hresult
    exact .var rfl rfl

end Folds

end ViewCircuit
