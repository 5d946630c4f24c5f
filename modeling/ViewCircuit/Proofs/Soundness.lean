import ViewCircuit.Proofs.Typing

/-! Evaluation of well-typed expressions gives values of their types. -/
namespace ViewCircuit

open List (Forall₂)

/-- The type of a head over parts of given types. -/
inductive HeadSig : Head → List Ty → Ty → Prop
  | literal {value : Literal} {a : Atom} {t : Ty} : value.atom? t = some a → a.Fits t →
      HeadSig (.literal value) [] t
  | zset {weights : List Int} {ts : List Ty} {element : Ty} : (∀ t ∈ ts, t = element) →
      HeadSig (.zset weights) ts (Ty.zset element)
  | vec {ts : List Ty} {element : Ty} : (∀ t ∈ ts, t = element) → HeadSig .vec ts (Ty.vec element)
  | field {index : Nat} {t ty : Ty} : (t.deref?.getD t).field? index = some ty →
      HeadSig (.field index) [t] ty
  | borrow {t : Ty} : HeadSig .borrow [t] (Ty.ref t)
  | deref {t inner : Ty} : t.kind = .ref inner → HeadSig .deref [t] inner
  | derefAny {t : Ty} : t.kind = .any → HeadSig .deref [t] Ty.any
  | unary {op : UnaryOp} {t : Ty} : Instruction.Sig (.unary op) [t] t → HeadSig (.unary op) [t] t
  | binary {op : BinaryOp} {s t : Ty} {p : Primitive} : Primitive.binary op s t = .ok p →
      HeadSig (.binary op) [s, t] p.result
  | call {function : String} {ts : List Ty} {t : Ty} : HeadSig (.call function) ts t
  | tuple {ts : List Ty} : HeadSig .tuple ts (Ty.tuple ts)
  | rawTuple {ts : List Ty} : HeadSig .rawTuple ts (Ty.rawTuple ts)
  | struct {name : String} {fields : List (String × Ty)} {n : Bool} :
      HeadSig (.struct name) (fields.map Prod.snd) ⟨.struct name fields, n⟩
  | some {t : Ty} : HeadSig .some [t] t.nullable
  | cast {s t : Ty} : HeadSig .cast [s] t
  | isNull {t : Ty} : HeadSig .isNull [t] Ty.bool
  | range {hasStart hasStop inclusive : Bool} {ts args : List Ty} :
      HeadSig (.range hasStart hasStop inclusive) ts (Ty.user "Range" args)
  | fold {ts args : List Ty} : HeadSig .fold ts (Ty.user "Fold" args)

theorem headSig_isNull {ts : List Ty} {t : Ty} (h : HeadSig .isNull ts t) : t = Ty.bool := by
  cases h
  rfl

theorem forall₂_singleton {α β : Type} {R : α → β → Prop} {xs : List α} {y : β}
    (h : Forall₂ R xs [y]) : ∃ x, xs = [x] ∧ R x y := by
  cases h with
  | cons hx hnil =>
    cases hnil
    exact ⟨_, rfl, hx⟩

theorem forall₂_pair {α β : Type} {R : α → β → Prop} {xs : List α} {y z : β}
    (h : Forall₂ R xs [y, z]) : ∃ x x', xs = [x, x'] ∧ R x y ∧ R x' z := by
  cases h with
  | cons hx hrest =>
    obtain ⟨x', rfl, hx'⟩ := forall₂_singleton hrest
    exact ⟨_, x', rfl, hx, hx'⟩

theorem forall₂_mem {α β : Type} {R : α → β → Prop} {xs : List α} {ys : List β}
    (h : Forall₂ R xs ys) {x : α} (hx : x ∈ xs) : ∃ y ∈ ys, R x y := by
  induction h with
  | nil => cases hx
  | cons hxy _ ih =>
    rcases List.mem_cons.1 hx with rfl | hx
    · exact ⟨_, List.mem_cons_self, hxy⟩
    · obtain ⟨y, hy, hxy⟩ := ih hx
      exact ⟨y, List.mem_cons_of_mem _ hy, hxy⟩

theorem forall_of_forall₂ {vs : List Val} {ts : List Ty} {t : Ty} (h : Forall₂ Val.HasTy vs ts)
    (ht : ∀ s ∈ ts, s = t) : ∀ v ∈ vs, v.HasTy t := by
  intro v hv
  obtain ⟨i, hi⟩ := List.mem_iff_getElem?.1 hv
  obtain ⟨s, hs, hvs⟩ := Structural.getElem? h hi
  rw [← ht s (List.mem_of_getElem? hs)]
  exact hvs

/-- Logical operators take booleans and give booleans, NULL when an operand may be. -/
theorem logical_types {op : BinaryOp} {s t : Ty} {p : Primitive} (hop : op.isLogical)
    (h : Primitive.binary op s t = .ok p) :
    s.kind = .bool ∧ t.kind = .bool ∧ p.result = ⟨.bool, s.mayBeNull || t.mayBeNull⟩ := by
  unfold Primitive.binary at h
  split at h
  · cases h
  · rename_i family hfamily
    split at h
    · cases h
    · rename_i hsupports
      split at h
      · cases h
      · rename_i hcompatible
        cases h
        have hbool : family = .boolean := by
          cases op <;> cases family <;> simp_all [Family.supports, BinaryOp.isLogical,
            BinaryOp.isComparison, BinaryOp.isExtremum]
        have hs : s.kind = .bool := by
          subst hbool
          unfold Family.ofTy? at hfamily
          split at hfamily <;> simp_all
        have hresult : Primitive.binaryResult op s t = s.withNull (s.mayBeNull || t.mayBeNull) := by
          cases op <;> first | rfl | cases hop
        have ht : t.kind = s.kind := by
          cases op <;> simp_all [Primitive.compatible, BinaryOp.isShift, BinaryOp.isLogical]
        exact ⟨hs, ht.trans hs, by rw [hresult, Ty.withNull, hs]⟩

/-- Values of the types of the parts are combined to a value of the type of the node. -/
theorem headSig_combine {rt : Runtime} (hrt : rt.Typed) {head : Head} {ts : List Ty} {t : Ty}
    (h : HeadSig head ts t) {vs : List Val} {v : Val} (hvs : Forall₂ Val.HasTy vs ts)
    (hv : head.combine rt t vs = some v) : v.HasTy t := by
  cases h with
  | literal ha hfits =>
    obtain ⟨b, hb, rfl⟩ := Option.map_eq_some_iff.1 hv
    obtain rfl := Option.some.inj (ha.symm.trans hb)
    exact .atom hfits
  | zset hts =>
    obtain rfl := Option.some.inj hv
    exact .zset (forall_of_forall₂ hvs hts)
  | vec hts =>
    obtain rfl := Option.some.inj hv
    exact .vec (forall_of_forall₂ hvs hts)
  | field hty =>
    obtain ⟨u, rfl, hu⟩ := forall₂_singleton hvs
    exact hu.field hty hv
  | borrow =>
    obtain ⟨u, rfl, hu⟩ := forall₂_singleton hvs
    obtain rfl := Option.some.inj hv
    exact .ref hu
  | deref hkind =>
    obtain ⟨u, rfl, hu⟩ := forall₂_singleton hvs
    exact (hu.deref hv).1 _ hkind
  | derefAny hkind =>
    obtain ⟨u, rfl, hu⟩ := forall₂_singleton hvs
    exact (hu.deref hv).2 hkind
  | unary hop =>
    obtain ⟨u, rfl, hu⟩ := forall₂_singleton hvs
    exact hrt.run hop hvs hv
  | @binary op s t p hp =>
    obtain ⟨x, y, rfl, hx, hy⟩ := forall₂_pair hvs
    have hbool : ∀ {b : Bool}, op.isLogical → v = Val.bool b → v.HasTy p.result := by
      rintro b hop rfl
      rw [(logical_types hop hp).2.2]
      exact .bool rfl
    simp only [Head.combine, BinaryOp.eval] at hv
    split at hv
    · exact hbool rfl (Option.some.inj hv).symm
    · exact hbool rfl (Option.some.inj hv).symm
    · exact hrt.run (.binary hp) hvs hv
  | call => exact hrt.run .call hvs hv
  | tuple | rawTuple =>
    obtain rfl := Option.some.inj hv
    exact .tuple rfl hvs
  | struct =>
    obtain rfl := Option.some.inj hv
    exact .struct hvs
  | some =>
    obtain ⟨u, rfl, hu⟩ := forall₂_singleton hvs
    obtain rfl := Option.some.inj hv
    exact hu.nullable
  | cast =>
    obtain ⟨u, rfl, hu⟩ := forall₂_singleton hvs
    exact hu.cast hrt hv
  | isNull =>
    obtain ⟨u, rfl, hu⟩ := forall₂_singleton hvs
    obtain rfl := Option.some.inj hv
    exact .bool rfl
  | range | fold =>
    obtain rfl := Option.some.inj hv
    exact .user rfl

/-- A node that combines the values of well-typed parts has the type of its head. -/
def HeadTyped (Γ : TyEnv) (e : Expr) : Prop :=
  ∃ head parts, e.form.head? = some (head, parts) ∧ (∀ part ∈ parts, WellTyped Γ part) ∧
    HeadSig head (parts.map Expr.ty) e.ty

section Inversion

variable {function condition yes no scrutinee e : Expr}

/-- An application has the arguments that its function takes. -/
theorem apply_eq_ok {args : List Expr} (h : Expr.apply function args = .ok e) :
    ∃ params result, function.ty.functionParts? = some (params, result) ∧
      params.length = args.length ∧
      (∀ pair ∈ params.zip args, pair.1.isAny = false → pair.1 = pair.2.ty) ∧
      e = ⟨.apply function args, result⟩ := by
  unfold Expr.apply at h
  split at h
  · cases h
  · rename_i params result hparts
    split at h
    · cases h
    · rename_i hlength
      split at h
      · cases h
      · rename_i hsame
        cases h
        refine ⟨params, result, hparts, not_not.1 hlength, fun pair hpair hany => ?_, rfl⟩
        have hpair := List.find?_eq_none.1 hsame pair hpair
        simpa [hany, Ty.same_iff] using hpair

theorem ite_eq_ok (h : Expr.ite condition yes no = .ok e) : condition.ty = Ty.bool ∧
    yes.ty.kind = no.ty.kind ∧
    e = ⟨.ite condition yes no, yes.ty.withNull (yes.ty.mayBeNull || no.ty.mayBeNull)⟩ := by
  unfold Expr.ite at h
  split at h
  · cases h
  · rename_i hcondition
    split at h
    · cases h
    · rename_i hshape
      cases h
      exact ⟨(Ty.same_iff _ _).1 (by simpa using hcondition), by simpa using hshape, rfl⟩

/-- The type of a match has the kind of every arm and allows the NULL of every arm. -/
theorem armsType_eq_ok {arms : List (Pattern × Expr)} {first ty : Ty}
    (h : Expr.armsType first arms = .ok ty) : ∀ t ∈ first :: arms.map (fun arm => arm.2.ty),
      ty.kind = t.kind ∧ (t.mayBeNull → ty.mayBeNull) := by
  induction arms generalizing first with
  | nil =>
    cases h
    simp
  | cons arm arms ih =>
    unfold Expr.armsType at h
    split at h
    · rename_i hshape
      have hshape := (Ty.sameShape_iff _ _).1 hshape
      have hrest := ih h
      obtain ⟨hkind, hnull⟩ := hrest _ List.mem_cons_self
      intro t ht
      simp only [List.map_cons, List.mem_cons] at ht
      rcases ht with rfl | rfl | ht
      · exact ⟨hkind, fun h => hnull (by simp [h])⟩
      · exact ⟨hkind.trans hshape.symm, fun h => hnull (by simp [h])⟩
      · exact hrest t (List.mem_cons_of_mem _ ht)
    · cases h

theorem cases_eq_ok {arms : List (Pattern × Expr)} (h : Expr.cases scrutinee arms = .ok e) :
    ∃ ty, e = ⟨.cases scrutinee arms, ty⟩ ∧ ∀ body ∈ arms.map Prod.snd,
      ty.kind = body.ty.kind ∧ (body.ty.mayBeNull → ty.mayBeNull) := by
  cases arms with
  | nil => cases h
  | cons arm arms =>
    obtain ⟨p, body⟩ := arm
    unfold Expr.cases at h
    cases hty : Expr.armsType body.ty arms with
    | error =>
      simp only [hty] at h
      cases h
    | ok ty =>
      simp only [hty] at h
      cases h
      refine ⟨ty, rfl, fun body' hbody => armsType_eq_ok hty body'.ty ?_⟩
      obtain ⟨arm', harm, rfl⟩ := List.mem_map.1 hbody
      rcases List.mem_cons.1 harm with rfl | harm
      · exact List.mem_cons_self
      · exact List.mem_cons_of_mem _ (List.mem_map.2 ⟨arm', harm, rfl⟩)

theorem field_eq_ok {base : Expr} {index : Nat} (h : Expr.field base index = .ok e) :
    ∃ ty, (base.ty.deref?.getD base.ty).field? index = some ty ∧ e = ⟨.field base index, ty⟩ := by
  unfold Expr.field at h
  dsimp only at h
  split at h
  · cases h
  · split at h
    · rename_i ty hty
      cases h
      exact ⟨ty, hty, rfl⟩
    · cases h

theorem unary_eq_ok {op : UnaryOp} {operand : Expr} (h : Expr.unary op operand = .ok e) :
    Instruction.Sig (.unary op) [operand.ty] operand.ty ∧ e = ⟨.unary op operand, operand.ty⟩ := by
  cases op with
  | not =>
    simp only [Expr.unary] at h
    split at h
    · cases h
      exact ⟨.not ‹_›, rfl⟩
    · cases h
  | neg =>
    simp only [Expr.unary] at h
    split at h
    · cases h
      exact ⟨.neg ‹_›, rfl⟩
    · cases h

theorem binary_eq_ok {op : BinaryOp} {left right : Expr} (h : Expr.binary op left right = .ok e) :
    ∃ p, Primitive.binary op left.ty right.ty = .ok p ∧ e = ⟨.binary op left right, p.result⟩ := by
  unfold Expr.binary at h
  cases hp : Primitive.binary op left.ty right.ty with
  | error =>
    rw [hp] at h
    cases h
  | ok p =>
    rw [hp] at h
    cases h
    exact ⟨p, rfl, rfl⟩

theorem same_of_find? {α : Type} {xs : List α} {s t : α → Ty}
    (h : (xs.find? fun x => !(s x).same (t x)) = none) : ∀ x ∈ xs, s x = t x := by
  intro x hx
  have := List.find?_eq_none.1 h x hx
  exact (Ty.same_iff _ _).1 (by simpa using this)

theorem map_eq_of_zip {α β : Type} {xs : List α} {ys : List β} {s : α → Ty} {t : β → Ty}
    (hlength : xs.length = ys.length) (h : ∀ pair ∈ xs.zip ys, s pair.1 = t pair.2) :
    xs.map s = ys.map t := by
  refine List.ext_getElem (by simpa using hlength) fun i hi hi' => ?_
  simp only [List.length_map] at hi hi'
  have hmem : (xs[i], ys[i]) ∈ xs.zip ys :=
    List.mem_iff_getElem.2 ⟨i, by simp only [List.length_zip]; omega, by simp⟩
  simpa using h _ hmem

theorem zset_eq_ok {element : Ty} {rows : List (Expr × Int)} (h : Expr.zset element rows = .ok e) :
    (∀ row ∈ rows, row.1.ty = element) ∧ e = ⟨.literal (.zset rows), Ty.zset element⟩ := by
  unfold Expr.zset at h
  split at h
  · cases h
  · cases h
    exact ⟨same_of_find? ‹_›, rfl⟩

theorem vec_eq_ok {element : Ty} {items : List Expr} (h : Expr.vec element items = .ok e) :
    (∀ item ∈ items, item.ty = element) ∧ e = ⟨.literal (.vec items), Ty.vec element⟩ := by
  unfold Expr.vec at h
  split at h
  · cases h
  · cases h
    exact ⟨same_of_find? ‹_›, rfl⟩

theorem struct_eq_ok {ty : Ty} {fields : List Expr} (h : Expr.struct ty fields = .ok e) :
    ∃ name declared n, declared.map Prod.snd = fields.map Expr.ty ∧
      e = ⟨.struct name fields, ⟨.struct name declared, n⟩⟩ := by
  obtain ⟨kind, n⟩ := ty
  unfold Expr.struct at h
  split at h
  · rename_i name declared hkind
    obtain rfl : kind = .struct name declared := hkind
    split at h
    · cases h
    · rename_i hlength
      split at h
      · cases h
      · rename_i hsame
        cases h
        exact ⟨name, declared, n, map_eq_of_zip (not_not.1 hlength) (same_of_find? hsame), rfl⟩
  · cases h

theorem range_eq_ok {start stop : Option Expr} {inclusive : Bool}
    (h : Expr.range start stop inclusive = .ok e) :
    ∃ args, e = ⟨.range start stop inclusive, Ty.user "Range" args⟩ := by
  unfold Expr.range at h
  dsimp only at h
  split at h
  · split at h
    · cases h
      exact ⟨_, rfl⟩
    · cases h
  all_goals
    cases h
    exact ⟨_, rfl⟩

theorem fold_eq_ok {row : Ty} {zero increment post : Expr}
    (h : Expr.fold row zero increment post = .ok e) :
    increment.ty = Ty.function [zero.ty, Ty.ref row, Ty.int64] zero.ty ∧
      ∃ result, post.ty.functionParts? = some ([zero.ty], result) ∧
        e = ⟨.fold zero increment post, Ty.user "Fold" [row, zero.ty, result]⟩ := by
  unfold Expr.fold at h
  dsimp only at h
  split at h
  · cases h
  · rename_i hstep
    split at h
    · rename_i p result hparts
      split at h
      · rename_i hp
        obtain rfl := (Ty.same_iff _ _).1 hp
        cases h
        exact ⟨by simpa [Ty.same_iff] using hstep, result, hparts, rfl⟩
      · cases h
    · cases h

end Inversion

/-- The ways to be well-typed, with the nodes that combine the values of their parts as one. -/
inductive TypedView (Γ : TyEnv) : Expr → Prop
  | head {e : Expr} : HeadTyped Γ e → TypedView Γ e
  | var {name : String} {t : Ty} : Γ.lookup name = some t → TypedView Γ ⟨.var name, t⟩
  | closure {params : List Param} {body : Expr} : (∀ p ∈ params, p.ty.isAny = false) →
      WellTyped ((params.map Param.entry).reverse ++ Γ) body →
      TypedView Γ (Expr.closure params body)
  | apply {function : Expr} {args : List Expr} {params : List Ty} {result : Ty} :
      WellTyped Γ function → (∀ arg ∈ args, WellTyped Γ arg) →
      function.ty.functionParts? = some (params, result) → params.length = args.length →
      (∀ pair ∈ params.zip args, pair.1.isAny = false → pair.1 = pair.2.ty) →
      TypedView Γ ⟨.apply function args, result⟩
  | block {body : Block} : WellTypedBlock Γ body → TypedView Γ (Expr.block body)
  | ite {condition yes no : Expr} : WellTyped Γ condition → WellTyped Γ yes → WellTyped Γ no →
      condition.ty = Ty.bool → yes.ty.kind = no.ty.kind →
      TypedView Γ ⟨.ite condition yes no, yes.ty.withNull (yes.ty.mayBeNull || no.ty.mayBeNull)⟩
  | cases {scrutinee : Expr} {arms : List (Pattern × Expr)} {ty : Ty} : WellTyped Γ scrutinee →
      WellTypedArms Γ scrutinee.ty arms →
      (∀ body ∈ arms.map Prod.snd, ty.kind = body.ty.kind ∧ (body.ty.mayBeNull → ty.mayBeNull)) →
      TypedView Γ ⟨.cases scrutinee arms, ty⟩

theorem WellTyped.view {Γ : TyEnv} {e : Expr} (h : WellTyped Γ e) : TypedView Γ e := by
  have hone : ∀ {form : Form} {ty : Ty} {head : Head} {operand : Expr}, WellTyped Γ operand →
      form.head? = Option.some (head, [operand]) → HeadSig head [operand.ty] ty →
      TypedView Γ ⟨form, ty⟩ :=
    fun hoperand hform hsig => .head ⟨_, _, hform, by simpa using hoperand, hsig⟩
  cases h with
  | @literal _ value a t ha hfits =>
    have hhead : (Form.literal value).head? = Option.some (.literal value, []) := by
      cases value <;> first | rfl | cases ha
    exact .head ⟨_, _, hhead, by simp, .literal ha hfits⟩
  | zset hrows he =>
    obtain ⟨htypes, rfl⟩ := zset_eq_ok he
    refine .head ⟨_, _, rfl, by simpa using fun part w h => hrows (part, w) h, .zset ?_⟩
    rintro _ ht
    obtain ⟨_, hpart, rfl⟩ := List.mem_map.1 ht
    obtain ⟨row, hrow, rfl⟩ := List.mem_map.1 hpart
    exact htypes row hrow
  | vec hitems he =>
    obtain ⟨htypes, rfl⟩ := vec_eq_ok he
    exact .head ⟨_, _, rfl, hitems, .vec (by simpa using htypes)⟩
  | field hbase he =>
    obtain ⟨ty, hty, rfl⟩ := field_eq_ok he
    exact hone hbase rfl (.field hty)
  | deref hoperand he =>
    unfold Expr.deref at he
    split at he
    · cases he
      exact hone hoperand rfl (.deref ‹_›)
    · cases he
      exact hone hoperand rfl (.derefAny ‹_›)
    · cases he
  | unary hoperand he =>
    obtain ⟨hop, rfl⟩ := unary_eq_ok he
    exact hone hoperand rfl (.unary hop)
  | binary hleft hright he =>
    obtain ⟨p, hp, rfl⟩ := binary_eq_ok he
    exact .head ⟨_, _, rfl, by simp [hleft, hright], .binary hp⟩
  | tuple hfields => exact .head ⟨_, _, rfl, hfields, .tuple⟩
  | rawTuple hfields => exact .head ⟨_, _, rfl, hfields, .rawTuple⟩
  | struct hfields he =>
    obtain ⟨name, declared, n, htypes, rfl⟩ := struct_eq_ok he
    exact .head ⟨_, _, rfl, hfields, htypes ▸ .struct⟩
  | some hoperand he =>
    unfold Expr.someOf at he
    split at he
    · cases he
    · cases he
      exact hone hoperand rfl .some
  | range hparts he =>
    obtain ⟨args, rfl⟩ := range_eq_ok he
    exact .head ⟨_, _, rfl, hparts, .range⟩
  | fold hzero hincrement hpost he =>
    obtain ⟨-, result, -, rfl⟩ := fold_eq_ok he
    exact .head ⟨_, _, rfl, by simp [hzero, hincrement, hpost], .fold⟩
  | call hargs => exact .head ⟨_, _, rfl, hargs, .call⟩
  | cast hoperand => exact hone hoperand rfl .cast
  | borrow hoperand => exact hone hoperand rfl .borrow
  | isNull hoperand => exact hone hoperand rfl .isNull
  | var hname _ => exact .var hname
  | closure hparams hbody => exact .closure hparams hbody
  | block hbody => exact .block hbody
  | apply hfunction hargs he =>
    obtain ⟨params, result, hparts, hlength, htypes, rfl⟩ := apply_eq_ok he
    exact .apply hfunction hargs hparts hlength htypes
  | ite hcondition hyes hno he =>
    obtain ⟨hbool, hshape, rfl⟩ := ite_eq_ok he
    exact .ite hcondition hyes hno hbool hshape
  | cases hscrutinee harms he =>
    obtain ⟨ty, rfl, htypes⟩ := cases_eq_ok he
    exact .cases hscrutinee harms htypes

section Soundness

variable {rt : Runtime} {Γ : TyEnv} {ρ : Env} {n k : Nat}

/-- Evaluation within a bound respects types. -/
def TypesKept (rt : Runtime) (n : Nat) : Prop :=
  ∀ {Γ ρ e v k}, WellTyped Γ e → EnvTyped Γ ρ → eval rt n ρ e = some (v, k) → v.HasTy e.ty

theorem TypesKept.all (h : TypesKept rt n) (hρ : EnvTyped Γ ρ) {es : List Expr}
    (hes : ∀ e ∈ es, WellTyped Γ e) {vs : List Val}
    (hvs : evalAll (eval rt n) ρ es = some (vs, k)) :
    Forall₂ Val.HasTy vs (es.map Expr.ty) := by
  induction es generalizing vs k with
  | nil =>
    obtain ⟨rfl, -⟩ := Prod.mk.inj (Option.some.inj hvs)
    exact .nil
  | cons e es ih =>
    obtain ⟨v, l, vs', m, hv, hvs', hr⟩ := evalAll_cons.1 hvs
    obtain ⟨rfl, rfl⟩ := Prod.mk.inj hr
    exact .cons (h (hes e (by simp)) hρ hv) (ih (fun e he => hes e (by simp [he])) hvs')

theorem TypesKept.block (h : TypesKept rt n) :
    ∀ (b : Block) {Γ : TyEnv} {ρ : Env} {v : Val} {k : Nat},
    WellTypedBlock Γ b → EnvTyped Γ ρ → evalBlock (eval rt n) ρ b = some (v, k) →
    v.HasTy ((b.result?.map Expr.ty).getD Ty.unit)
  | .done none, _, _, _, _, _, _, hv => by
    obtain ⟨rfl, -⟩ := Prod.mk.inj (Option.some.inj hv)
    exact .tuple rfl .nil
  | .done (some e), _, _, _, _, .result he, hρ, hv => h he hρ hv
  | .bind _ _ _ none rest, _, _, _, _, .declare hrest, hρ, hv => h.block rest hrest hρ.hide hv
  | .bind _ _ _ (some e) rest, _, _, _, _, .bind he hty hrest, hρ, hv => by
    obtain ⟨u, l, w, m, hu, hw, hr⟩ := evalBlock_bind.1 hv
    obtain ⟨rfl, rfl⟩ := Prod.mk.inj hr
    exact h.block rest hrest (hρ.cons (hty ▸ h he hρ hu)) hw
  | .exec e rest, _, _, _, _, .exec he hrest, hρ, hv => by
    obtain ⟨u, l, w, m, hu, hw, hr⟩ := evalBlock_exec.1 hv
    obtain ⟨rfl, rfl⟩ := Prod.mk.inj hr
    exact h.block rest hrest hρ hw

theorem typedBinding_params {params : List Param} {vs : List Val}
    (h : Forall₂ Val.HasTy vs (params.map Param.ty)) :
    Forall₂ TypedBinding ((params.map Param.name).zip vs) (params.map Param.entry) := by
  induction params generalizing vs with
  | nil => exact .nil
  | cons p params ih =>
    cases h with
    | cons hv hvs => exact .cons ⟨rfl, hv⟩ (ih hvs)

/-- What a call of a function with values of its parameter types enters is well-typed. -/
theorem Val.HasTy.enter_params {f : Val} {fty : Ty} {params : List Ty} {result : Ty}
    (hf : f.HasTy fty) (hparts : fty.functionParts? = some (params, result)) {vs : List Val}
    (hvs : Forall₂ Val.HasTy vs params) {ρ : Env} {body : Expr}
    (henter : f.enter? vs = some (ρ, body)) :
    ∃ Γ, WellTyped Γ body ∧ EnvTyped Γ ρ ∧ body.ty = result := by
  obtain ⟨names, values, ps, rfl, -, rfl⟩ := Val.enter?_eq_some.1 henter
  cases hf with
  | closure hvalues hany hbody =>
    obtain ⟨rfl, rfl⟩ := Prod.mk.inj (Option.some.inj hparts)
    exact ⟨_, hbody, EnvTyped.append hvalues (List.rel_reverse (typedBinding_params hvs)), rfl⟩
  | any | user | indexed => cases hparts

/-- What a call of a function enters is well-typed. -/
theorem Val.HasTy.enter {f : Val} {fty : Ty} {params : List Ty} {result : Ty} (hf : f.HasTy fty)
    (hparts : fty.functionParts? = some (params, result)) {args : List Expr} {vs : List Val}
    (hvs : Forall₂ Val.HasTy vs (args.map Expr.ty)) (hlength : params.length = args.length)
    (htypes : ∀ pair ∈ params.zip args, pair.1.isAny = false → pair.1 = pair.2.ty)
    {ρ : Env} {body : Expr} (henter : f.enter? vs = some (ρ, body)) :
    ∃ Γ, WellTyped Γ body ∧ EnvTyped Γ ρ ∧ body.ty = result := by
  refine hf.enter_params hparts ?_ henter
  obtain ⟨names, values, ps, rfl, -, rfl⟩ := Val.enter?_eq_some.1 henter
  cases hf with
  | closure hvalues hany hbody =>
    obtain ⟨rfl, rfl⟩ := Prod.mk.inj (Option.some.inj hparts)
    have hsame : (ps.map Param.ty).map id = args.map Expr.ty := by
      refine map_eq_of_zip hlength fun pair hpair => htypes pair hpair ?_
      obtain ⟨p, hp, hty⟩ := List.mem_map.1 (List.of_mem_zip hpair).1
      exact hty ▸ hany p hp
    rw [List.map_id] at hsame
    exact hsame ▸ hvs
  | any | user | indexed => cases hparts

theorem typesKept_succ (hrt : rt.Typed) (ih : TypesKept rt n) : TypesKept rt (n + 1) := by
  intro Γ ρ e v k he hρ hv
  cases he.view with
  | head hhead =>
    obtain ⟨head, parts, hform, hparts, hsig⟩ := hhead
    obtain ⟨vs, l, w, hvs, hw, hr⟩ := (evalNode_head hform).1 hv
    obtain ⟨rfl, rfl⟩ := Prod.mk.inj hr
    exact headSig_combine hrt hsig (ih.all hρ hparts hvs) hw
  | var hname =>
    obtain ⟨w, hw, hr⟩ := Option.map_eq_some_iff.1 hv
    obtain ⟨rfl, rfl⟩ := Prod.mk.inj hr
    exact hρ _ w _ hw hname
  | closure hparams hbody =>
    obtain ⟨rfl, rfl⟩ := Prod.mk.inj (Option.some.inj hv)
    refine .closure (fun x u t hu ht => hρ x u t ?_ ht) hparams hbody
    rwa [← List.zip_of_prod rfl rfl] at hu
  | apply hfunction hargs hfty hlength htypes =>
    obtain ⟨c, l, vs, m, ρ', body, w, j, hc, hvs, henter, hw, hr⟩ := evalNode_apply.1 hv
    obtain ⟨rfl, rfl⟩ := Prod.mk.inj hr
    obtain ⟨Γ', hbody, hρ', hty⟩ :=
      (ih hfunction hρ hc).enter hfty (ih.all hρ hargs hvs) hlength htypes henter
    have hresult := ih hbody hρ' hw
    rwa [hty] at hresult
  | block hbody => exact ih.block _ hbody hρ hv
  | ite hcondition hyes hno hbool hshape =>
    obtain ⟨b, l, w, m, -, hw, hr⟩ := evalNode_ite.1 hv
    obtain ⟨rfl, rfl⟩ := Prod.mk.inj hr
    cases b with
    | true => exact (ih hyes hρ hw).widen rfl fun h => by simp [h]
    | false => exact (ih hno hρ hw).widen hshape fun h => by simp [h]
  | cases hscrutinee harms htypes =>
    obtain ⟨s, l, bindings, body, w, m, hs, hmatch, hw, hr⟩ := evalNode_cases.1 hv
    obtain ⟨rfl, rfl⟩ := Prod.mk.inj hr
    obtain ⟨Δ, hΔ, hbody, hmem⟩ := harms.firstMatch (ih hscrutinee hρ hs) hmatch
    obtain ⟨hkind, hnull⟩ := htypes body hmem
    exact (ih hbody (hρ.append hΔ) hw).widen hkind hnull

theorem typesKept (hrt : rt.Typed) : ∀ n, TypesKept rt n
  | 0 => fun _ _ h => nomatch h
  | n + 1 => typesKept_succ hrt (typesKept hrt n)

/-- A well-typed expression evaluates to values of its type only. -/
theorem WellTyped.hasTy (hrt : rt.Typed) {e : Expr} {v : Val} (he : WellTyped Γ e)
    (hρ : EnvTyped Γ ρ) (hv : Evals rt ρ e v k) : v.HasTy e.ty := by
  obtain ⟨n, hv⟩ := hv
  exact typesKept hrt n he hρ hv

end Soundness

end ViewCircuit
