import ViewCircuit.Plan.ScalarExpr
import ViewCircuit.Proofs.FirstOrder
import ViewCircuit.Proofs.Settled

/-! Simplified functions. A first-order function stays first-order and keeps its type. -/
namespace ViewCircuit

/-- The literals that functions of circuits need: NULL under the nullable types, truth values,
counts, and the values of plans under their types. -/
structure Admits (fits : Literal → Ty → Prop) : Prop where
  null {t : Ty} : t.mayBeNull → fits .null t
  bool (b : Bool) : fits (.bool b) Ty.bool
  int64 (i : Int) : fits (.int i) Ty.int64
  value {value : Value} {t : Ty} {l : Literal} : value.literal t = .ok l → fits l t.nonNull

theorem admits_any : Admits fun _ _ => True where
  null _ := trivial
  bool _ := trivial
  int64 _ := trivial
  value _ := trivial

theorem Value.isSimple_literal {value : Value} {t : Ty} {l : Literal}
    (h : value.literal t = .ok l) : l.isSimple := by
  unfold Value.literal at h
  split at h <;> try split at h
  all_goals first
    | cases h
      rfl
    | cases h

theorem Value.literal_fits {value : Value} {t : Ty} {l : Literal}
    (h : value.literal t = .ok l) : l.Fits t.nonNull := by
  obtain ⟨kind, n⟩ := t
  unfold Value.literal at h
  split at h <;> rename_i hkind <;> try split at h
  all_goals first
    | cases h
      simp only at hkind
      subst hkind
      exact ⟨_, rfl, rfl⟩
    | cases h

theorem admits_fits : Admits Literal.Fits where
  null h := ⟨.null, rfl, h⟩
  bool b := ⟨.bool b, rfl, rfl⟩
  int64 i := ⟨.int .w64 i, rfl, rfl⟩
  value := Value.literal_fits

section Types

variable {base base' operand operand' left left' right right' condition yes no condition' yes' no'
  e : Expr}

theorem deref_eq_ok (h : Expr.deref operand = .ok e) : ∃ ty, e = ⟨.deref operand, ty⟩ := by
  unfold Expr.deref at h
  split at h
  · cases h
    exact ⟨_, rfl⟩
  · cases h
    exact ⟨_, rfl⟩
  · cases h

theorem someOf_eq_ok (h : Expr.someOf operand = .ok e) :
    operand.ty.mayBeNull = false ∧ e = ⟨.some operand, operand.ty.nullable⟩ := by
  unfold Expr.someOf at h
  split at h
  · cases h
  · rename_i hnull
    cases h
    exact ⟨by simpa using hnull, rfl⟩

/-! The type of a node depends on the types of its parts only. -/

theorem field_congr {index : Nat} (h : Expr.field base index = .ok e) (hty : base'.ty = base.ty) :
    Expr.field base' index = .ok ⟨.field base' index, e.ty⟩ := by
  unfold Expr.field at h ⊢
  rw [hty]
  simp only at h ⊢
  split at h
  · cases h
  · rename_i hnull
    rw [if_neg hnull]
    split at h
    · cases h
      rfl
    · cases h

theorem deref_congr (h : Expr.deref operand = .ok e) (hty : operand'.ty = operand.ty) :
    Expr.deref operand' = .ok ⟨.deref operand', e.ty⟩ := by
  unfold Expr.deref at h ⊢
  rw [hty]
  split at h
  · cases h
    rfl
  · cases h
    rfl
  · cases h

theorem unary_congr {op : UnaryOp} (h : Expr.unary op operand = .ok e)
    (hty : operand'.ty = operand.ty) :
    Expr.unary op operand' = .ok ⟨.unary op operand', e.ty⟩ := by
  obtain ⟨hsig, rfl⟩ := unary_eq_ok h
  unfold Expr.unary
  rw [hty]
  cases hsig with
  | not hbool => simp [hbool]
  | neg hnumeric => simp [hnumeric]

theorem binary_congr {op : BinaryOp} (h : Expr.binary op left right = .ok e)
    (hleft : left'.ty = left.ty) (hright : right'.ty = right.ty) :
    Expr.binary op left' right' = .ok ⟨.binary op left' right', e.ty⟩ := by
  obtain ⟨p, hp, rfl⟩ := binary_eq_ok h
  unfold Expr.binary
  rw [hleft, hright, hp]
  rfl

theorem someOf_congr (h : Expr.someOf operand = .ok e) (hty : operand'.ty = operand.ty) :
    Expr.someOf operand' = .ok ⟨.some operand', e.ty⟩ := by
  unfold Expr.someOf at h ⊢
  rw [hty]
  split at h
  · cases h
  · rename_i hnull
    cases h
    rw [if_neg hnull]

theorem ite_congr_ty (h : Expr.ite condition yes no = .ok e)
    (hcondition : condition'.ty = condition.ty) (hyes : yes'.ty = yes.ty) (hno : no'.ty = no.ty) :
    Expr.ite condition' yes' no' = .ok ⟨.ite condition' yes' no', e.ty⟩ := by
  unfold Expr.ite at h ⊢
  rw [hcondition, hyes, hno]
  split at h
  · cases h
  · rename_i hbool
    rw [if_neg hbool]
    split at h
    · cases h
    · rename_i hshape
      cases h
      rw [if_neg hshape]

theorem zset_congr {element : Ty} {rows rows' : List (Expr × Int)}
    (h : Expr.zset element rows = .ok e) (hty : ∀ row ∈ rows', row.1.ty = element) :
    Expr.zset element rows' = .ok ⟨.literal (.zset rows'), e.ty⟩ := by
  obtain ⟨-, rfl⟩ := zset_eq_ok h
  have hfind : (rows'.find? fun r => !r.1.ty.same element) = none :=
    List.find?_eq_none.2 fun row hrow => by simp [hty row hrow, (Ty.same_iff element element).2 rfl]
  unfold Expr.zset
  rw [hfind]
  rfl

theorem fold_congr {row : Ty} {zero zero' step step' last last' : Expr}
    (h : Expr.fold row zero step last = .ok e) (hzero : zero'.ty = zero.ty)
    (hstep : step'.ty = step.ty) (hlast : last'.ty = last.ty) :
    Expr.fold row zero' step' last' = .ok ⟨.fold zero' step' last', e.ty⟩ := by
  obtain ⟨hincrement, result, hparts, rfl⟩ := fold_eq_ok h
  have hsame : ∀ t : Ty, t.same t = true := fun t => (Ty.same_iff t t).2 rfl
  unfold Expr.fold
  simp [hzero, hstep, hlast, hincrement, hparts, hsame]

end Types

namespace FirstOrder

open ViewCircuit.Expr (simpler? rewritten overParts)

variable {fits : Literal → Ty → Prop} {Γ : TyEnv} {e r : Expr}

/-- What a simplification uses of a node: null checks are truth values, and the parts that may
stand for the node are first-order. -/
theorem parts (h : FirstOrder fits Γ e) :
    match e.form with
    | .isNull _ => e.ty = Ty.bool
    | .ite _ yes no => FirstOrder fits Γ yes ∧ FirstOrder fits Γ no
    | .binary _ left right => FirstOrder fits Γ left ∧ FirstOrder fits Γ right
    | _ => True := by
  cases h with
  | isNull => rfl
  | ite _ hyes hno he =>
    obtain ⟨-, -, rfl⟩ := ite_eq_ok he
    exact ⟨hyes, hno⟩
  | binary hleft hright he =>
    obtain ⟨_, -, rfl⟩ := binary_eq_ok he
    exact ⟨hleft, hright⟩
  | zset _ he =>
    obtain ⟨-, rfl⟩ := zset_eq_ok he
    trivial
  | field _ he =>
    obtain ⟨_, -, rfl⟩ := field_eq_ok he
    trivial
  | unary _ he =>
    obtain ⟨-, rfl⟩ := unary_eq_ok he
    trivial
  | deref _ he =>
    obtain ⟨_, rfl⟩ := deref_eq_ok he
    trivial
  | some _ he =>
    obtain ⟨-, rfl⟩ := someOf_eq_ok he
    trivial
  | _ => trivial

/-- A simplification of a first-order node is first-order. -/
theorem of_simpler? (hfits : Admits fits) (h : FirstOrder fits Γ e)
    (hr : e.simpler? = Option.some r) : FirstOrder fits Γ r := by
  obtain ⟨form, ty⟩ := e
  have hparts := h.parts
  cases form with
  | isNull operand =>
    obtain ⟨-, hr⟩ := Option.ite_none_left_eq_some.1 hr
    cases hr
    exact .literal rfl (hfits.bool false)
  | cast operand =>
    obtain ⟨-, hr⟩ := Option.ite_none_right_eq_some.1 hr
    cases hr
    exact .literal rfl (hfits.null rfl)
  | ite condition yes no =>
    obtain ⟨b, -, hr⟩ := simpler?_ite hr
    have hbranch : FirstOrder fits Γ (if b then yes else no) := by
      cases b
      · exact hparts.2
      · exact hparts.1
    generalize (if b then yes else no) = branch at hr hbranch
    rcases (chosen?_eq_some hr).2 with rfl | ⟨-, hsome⟩
    · exact hbranch
    · exact .some hbranch hsome
  | binary op left right =>
    obtain ⟨-, -, hr | hr⟩ := simpler?_binary hr <;>
      obtain ⟨-, ⟨-, rfl⟩ | ⟨-, rfl⟩⟩ := absorb?_eq_some hr
    · exact .literal rfl (hfits.bool _)
    · exact hparts.2
    · exact .literal rfl (hfits.bool _)
    · exact hparts.1
  | _ => cases hr

/-- Simplifying keeps first-order expressions first-order, and of their type. -/
theorem rewritten (hfits : Admits fits) (h : FirstOrder fits Γ e) :
    FirstOrder fits Γ (e.rewritten simpler?) ∧ (e.rewritten simpler?).ty = e.ty := by
  -- it is enough to look at the node over its simplified parts: its type is that of the node
  have settle : ∀ {e : Expr}, FirstOrder fits Γ (e.overParts simpler?) →
      FirstOrder fits Γ (e.rewritten simpler?) ∧ (e.rewritten simpler?).ty = e.ty := by
    intro e hover
    rw [Expr.rewritten_eq]
    cases hr : (e.overParts simpler?).simpler? with
    | none => exact ⟨hover, rfl⟩
    | some r =>
      refine ⟨hover.of_simpler? hfits hr,
        ty_of_simpler? (e := e.overParts simpler?) hr fun operand hform => ?_⟩
      have hparts := hover.parts
      rwa [hform] at hparts
  induction h with
  | @literal value t hsimple hvalue =>
    refine settle ?_
    cases value with
    | zset | vec => cases hsimple
    | _ => exact .literal rfl hvalue
  | @zset element rows e _ he ih =>
    obtain ⟨hrows, rfl⟩ := zset_eq_ok he
    refine settle ?_
    unfold overParts
    simp only [Expr.bottomUpForm, Reduct.map, Expr.bottomUpRows_value]
    refine .zset ?_ (zset_congr he ?_)
    · exact List.forall_mem_map.2 fun row hrow => (ih row hrow).1
    · exact List.forall_mem_map.2 fun row hrow => (ih row hrow).2.trans (hrows row hrow)
  | var hname hany => exact settle (.var hname hany)
  | field _ he ih =>
    refine settle ?_
    have h := field_congr he ih.2
    obtain ⟨_, -, rfl⟩ := field_eq_ok he
    exact .field ih.1 h
  | deref _ he ih =>
    refine settle ?_
    have h := deref_congr he ih.2
    obtain ⟨_, rfl⟩ := deref_eq_ok he
    exact .deref ih.1 h
  | unary _ he ih =>
    refine settle ?_
    have h := unary_congr he ih.2
    obtain ⟨-, rfl⟩ := unary_eq_ok he
    exact .unary ih.1 h
  | binary _ _ he ihleft ihright =>
    refine settle ?_
    have h := binary_congr he ihleft.2 ihright.2
    obtain ⟨_, -, rfl⟩ := binary_eq_ok he
    exact .binary ihleft.1 ihright.1 h
  | @call function args result _ ih =>
    refine settle ?_
    unfold overParts
    simp only [Expr.call, Expr.bottomUpForm, Reduct.map, Expr.bottomUpAll_value]
    exact .call (List.forall_mem_map.2 fun arg harg => (ih arg harg).1)
  | @tuple fields _ ih =>
    refine settle ?_
    have htys : fields.map Expr.ty = (fields.map (Expr.rewritten simpler?)).map Expr.ty := by
      rw [List.map_map]
      exact List.map_congr_left fun field hfield => (ih field hfield).2.symm
    unfold overParts
    simp only [Expr.tuple, Expr.bottomUpForm, Reduct.map, Expr.bottomUpAll_value, htys]
    exact .tuple (List.forall_mem_map.2 fun field hfield => (ih field hfield).1)
  | @rawTuple fields _ ih =>
    refine settle ?_
    have htys : fields.map Expr.ty = (fields.map (Expr.rewritten simpler?)).map Expr.ty := by
      rw [List.map_map]
      exact List.map_congr_left fun field hfield => (ih field hfield).2.symm
    unfold overParts
    simp only [Expr.rawTuple, Expr.bottomUpForm, Reduct.map, Expr.bottomUpAll_value, htys]
    exact .rawTuple (List.forall_mem_map.2 fun field hfield => (ih field hfield).1)
  | some _ he ih =>
    refine settle ?_
    have h := someOf_congr he ih.2
    obtain ⟨-, rfl⟩ := someOf_eq_ok he
    exact .some ih.1 h
  | ite _ _ _ he ihcondition ihyes ihno =>
    refine settle ?_
    have h := ite_congr_ty he ihcondition.2 ihyes.2 ihno.2
    obtain ⟨-, -, rfl⟩ := ite_eq_ok he
    exact .ite ihcondition.1 ihyes.1 ihno.1 h
  | cast _ ih => exact settle (.cast ih.1)
  | isNull _ ih => exact settle (.isNull ih.1)

end FirstOrder

theorem Plain.settled_simplify {e : Expr} (h : Plain e) : e.simplify.value.Settled :=
  Expr.settled_simplify (h.patternsSatisfy _)

/-- There is nothing to simplify in a row that is passed on. -/
theorem Expr.KeepsRow.simplify {f : Expr} (h : f.KeepsRow) : f.simplify.value.KeepsRow := by
  obtain ⟨hrow⟩ := h
  rename_i p parts row tuple ty
  have hvalue : (⟨.closure [p] ⟨.rawTuple parts, tuple⟩, ty⟩ : Expr).simplify.value =
      ⟨.closure [p] ⟨.rawTuple (parts.map (rewritten simpler?)), tuple⟩, ty⟩ := by
    change rewritten simpler? _ = _
    rw [rewritten_eq]
    change (⟨.closure [p] (rewritten simpler? ⟨.rawTuple parts, tuple⟩), ty⟩ : Expr) = _
    rw [rewritten_eq]
    change (⟨.closure [p] ⟨.rawTuple (bottomUpAll simpler? parts).value, tuple⟩, ty⟩ : Expr) = _
    rw [bottomUpAll_value]
  rw [hvalue]
  exact .intro (List.mem_map.2 ⟨_, hrow, rfl⟩)

section Functions

open ViewCircuit.Expr (simpler?)

variable {fits : Literal → Ty → Prop} (hfits : Admits fits) {f : Expr}

include hfits

theorem Lambda.simplify (h : Lambda fits f) : Lambda fits f.simplify.value ∧
    f.simplify.value.ty = f.ty ∧ f.simplify.value.Settled := by
  obtain ⟨hparams, hbody⟩ := h
  rename_i params body
  obtain ⟨hbody', hty⟩ := hbody.rewritten hfits
  have hvalue : (Expr.closure params body).simplify.value =
      Expr.closure params (body.rewritten simpler?) := by
    change (Expr.closure params body).rewritten simpler? = _
    rw [Expr.rewritten_eq]
    unfold Expr.closure
    rw [hty]
    rfl
  rw [hvalue]
  refine ⟨.intro hparams hbody', ?_, Expr.settled_closure.2 hbody.plain.settled_simplify⟩
  unfold Expr.closure
  rw [hty]

theorem Folding.simplify (h : Folding fits f) : Folding fits f.simplify.value ∧
    f.simplify.value.ty = f.ty ∧ f.simplify.value.Settled := by
  obtain ⟨hzero, hstep, hlast, hf⟩ := h
  rename_i row zero step last
  obtain ⟨hzero', hzeroTy⟩ := hzero.rewritten hfits
  obtain ⟨hstep', hstepTy, hstepSettled⟩ := hstep.simplify hfits
  obtain ⟨hlast', hlastTy, hlastSettled⟩ := hlast.simplify hfits
  have hfold := fold_congr hf hzeroTy hstepTy hlastTy
  obtain ⟨-, result, -, rfl⟩ := fold_eq_ok hf
  have hvalue :
      (⟨.fold zero step last, Ty.user "Fold" [row, zero.ty, result]⟩ : Expr).simplify.value =
      ⟨.fold zero.simplify.value step.simplify.value last.simplify.value,
        Ty.user "Fold" [row, zero.ty, result]⟩ := by
    change Expr.rewritten simpler? _ = _
    rw [Expr.rewritten_eq]
    rfl
  rw [hvalue]
  refine ⟨.intro hzero' hstep' hlast' hfold, rfl, Expr.settled_iff.2 ⟨?_, nofun, rfl⟩⟩
  simpa [Form.parts] using ⟨hzero.plain.settled_simplify, hstepSettled, hlastSettled⟩

theorem Listing.simplify (h : Listing fits f) : Listing fits f.simplify.value ∧
    f.simplify.value.ty = f.ty ∧ f.simplify.value.Settled := by
  have hplain := h.firstOrder.plain
  have hty := (h.firstOrder.rewritten hfits).2
  obtain ⟨hrows, hf⟩ := h
  rename_i element rows
  refine ⟨?_, hty, hplain.settled_simplify⟩
  obtain ⟨htys, rfl⟩ := zset_eq_ok hf
  have hvalue : (⟨.literal (.zset rows), Ty.zset element⟩ : Expr).simplify.value =
      ⟨.literal (.zset (rows.map fun row => (row.1.rewritten simpler?, row.2))),
        Ty.zset element⟩ := by
    change Expr.rewritten simpler? _ = _
    rw [Expr.rewritten_eq]
    simp [Expr.overParts, Expr.bottomUpForm, Reduct.map, Expr.bottomUpRows_value, simpler?]
  rw [hvalue]
  refine .intro ?_ (zset_congr hf ?_)
  · exact List.forall_mem_map.2 fun row hrow => ((hrows row hrow).rewritten hfits).1
  · exact List.forall_mem_map.2 fun row hrow =>
      ((hrows row hrow).rewritten hfits).2.trans (htys row hrow)

/-- The simplified function of an operator is of the same kind and type, and stays as it is when it
is simplified again. -/
theorem OperatorKind.Regular.simplify {kind : OperatorKind} (h : kind.Regular fits)
    (hf : kind.function? = some f) : (kind.withFunction f.simplify.value).Regular fits ∧
      f.simplify.value.ty = f.ty ∧ f.simplify.value.Settled := by
  cases kind with
  | map | filter | join | incrementalJoin =>
    obtain rfl := Option.some.inj hf
    exact Lambda.simplify hfits h
  | index =>
    obtain rfl := Option.some.inj hf
    obtain ⟨hlambda, hty, hsettled⟩ := h.1.simplify hfits
    exact ⟨⟨hlambda, h.2.simplify⟩, hty, hsettled⟩
  | aggregate | windowAggregate | incrementalAggregate =>
    obtain rfl := Option.some.inj hf
    exact Folding.simplify hfits h
  | constant =>
    obtain rfl := Option.some.inj hf
    exact Listing.simplify hfits h
  | _ => cases hf

end Functions

end ViewCircuit
