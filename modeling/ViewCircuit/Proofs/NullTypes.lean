import ViewCircuit.Proofs.Condition

/-! Types of the untyped NULL. A plan may write one that is not marked nullable. Lowering tells it
by its kind and simplification by its mark, so they agree on all of a scalar but null checks of
it. -/
namespace ViewCircuit

open List (Forall₂)

namespace Ty

/-- The type as it is meant: that of NULL is nullable, marked so or not. -/
def marked (t : Ty) : Ty := if t.isNullType then t.nullable else t

variable {t : Ty}

theorem marked_of_typed (h : t.isNullType = false) : t.marked = t := by
  rw [marked, h, if_neg Bool.false_ne_true]

theorem marked_of_nullable (h : t.mayBeNull) : t.marked = t := by
  unfold marked
  split
  · exact nullable_eq h
  · rfl

@[simp] theorem kind_marked (t : Ty) : t.marked.kind = t.kind := by
  unfold marked
  split <;> rfl

@[simp] theorem mayBeNull_marked (t : Ty) : t.marked.mayBeNull = (t.mayBeNull || t.isNullType) := by
  unfold marked
  split <;> simp_all [nullable]

@[simp] theorem nullable_marked (t : Ty) : t.marked.nullable = t.nullable := by
  unfold marked
  split <;> rfl

end Ty

theorem Ty.isNullType_marked (t : Ty) : t.marked.isNullType = t.isNullType :=
  Ty.isNullType_congr t.kind_marked

theorem Primitive.isNullType_right {op : BinaryOp} {s t : Ty} {p : Primitive}
    (h : Primitive.binary op s t = .ok p) : t.isNullType = false := by
  have hs := (Primitive.binary_eq_ok h).1
  unfold Primitive.binary at h
  split at h
  · cases h
  · split at h
    · cases h
    · split at h
      · cases h
      · rename_i hcompatible
        unfold Primitive.compatible at hcompatible
        split at hcompatible
        · unfold Ty.isInteger at hcompatible
          unfold Ty.isNullType
          split at hcompatible <;> simp_all
        · have hkind : s.kind = t.kind := by simpa using hcompatible
          rwa [← Ty.isNullType_congr hkind]

section Marked

variable {v : Val} {t : Ty}

theorem Val.HasTy.marked (h : v.HasTy t) : v.HasTy t.marked :=
  h.widen (by simp) fun hnull => by simp [hnull]

/-- A branch of a conditional has the type of the whole. -/
theorem Val.HasTy.branch {yes no : Ty} {b : Bool} (hshape : yes.kind = no.kind)
    (h : v.HasTy (if b then yes else no).marked) :
    v.HasTy (yes.withNull (yes.mayBeNull || no.mayBeNull)).marked := by
  have hnull := Ty.isNullType_congr hshape
  cases b with
  | true => exact h.widen (by simp) (by simp; tauto)
  | false => exact h.widen (by simp [hshape]) (by simp [hnull]; tauto)

theorem Literal.Fits.marked {l : Literal} (h : l.Fits t) : l.Fits t.marked := by
  cases hnull : t.isNullType with
  | false => rwa [Ty.marked_of_typed hnull]
  | true =>
    obtain ⟨a, ha, hfits⟩ := h
    have hv : (Val.atom a).HasTy t.marked := Val.HasTy.marked (.atom hfits)
    obtain ⟨kind, nullable⟩ := t
    obtain rfl : kind = .null := Ty.isNullType_iff.1 hnull
    refine ⟨a, ?_, ?_⟩
    · cases l <;> exact ha
    · cases hv with
      | atom h => exact h

/-- Untyped NULLs under types that need not be marked. -/
theorem admits_marked : Admits fun l t => l.Fits t.marked where
  null h := (admits_fits.null h).marked
  bool b := (admits_fits.bool b).marked
  int64 i := (admits_fits.int64 i).marked
  value h := (admits_fits.value h).marked

theorem Ty.null_fits_marked (h : t.isNullType) : Literal.null.Fits t.marked :=
  ⟨.null, rfl, by simp [Atom.Fits, h]⟩

end Marked

/-- Values and type of an expression, and what simplification keeps of them. -/
structure Expr.Kept (rt : Runtime) (ρ : Env) (e : Expr) : Prop where
  typed : ∀ v k, Evals rt ρ e v k → v.HasTy e.ty.marked
  ty : e.simplify.value.ty = e.ty
  value : ∀ v k, Evals rt ρ e v k → ∃ l, Evals rt ρ e.simplify.value v l

section Kept

variable {rt : Runtime} {ρ : Env} {Γ : TyEnv} {e : Expr} {head : Head} {parts : List Expr}

/-- A simplified expression has values of its type, where that is no NULL type without a mark. -/
theorem Expr.Kept.respects (h : e.Kept rt ρ) {v : Val} {k : Nat} (hv : Evals rt ρ e v k)
    (hmark : e.ty.isNullType → e.ty.mayBeNull) : e.simplify.value.Respects rt ρ := by
  intro u l hu
  obtain ⟨m, hm⟩ := h.value v k hv
  obtain ⟨rfl, -⟩ := hu.unique hm
  have hmarked : e.ty.marked = e.ty := by
    cases hnull : e.ty.isNullType with
    | false => exact Ty.marked_of_typed hnull
    | true => exact Ty.marked_of_nullable (hmark hnull)
  have hty := h.typed u k hv
  rw [hmarked] at hty
  rw [h.ty]
  exact ⟨hty.isNull_eq_false, fun hbool => hty.eq_bool (by rw [hbool]; rfl) (by rw [hbool]; rfl)⟩

theorem evalsAll_simplify (h : ∀ part ∈ parts, part.Kept rt ρ) {vs : List Val} {k : Nat}
    (hvs : EvalsAll rt ρ parts vs k) : Forall₂ Val.HasTy vs (parts.map fun e => e.ty.marked) ∧
      ∃ l, EvalsAll rt ρ (parts.map (Expr.rewritten Expr.simpler?)) vs l := by
  induction parts generalizing vs k with
  | nil =>
    obtain ⟨rfl, -⟩ := evalsAll_nil.1 hvs
    exact ⟨.nil, 0, evalsAll_nil.2 ⟨rfl, rfl⟩⟩
  | cons part parts ih =>
    obtain ⟨hpart, hparts⟩ := List.forall_mem_cons.1 h
    obtain ⟨v, l, vs, m, hv, hrest, rfl, -⟩ := evalsAll_cons.1 hvs
    obtain ⟨htypes, m', hvs'⟩ := ih hparts hrest
    obtain ⟨l', hv'⟩ := hpart.value v l hv
    exact ⟨.cons (hpart.typed v l hv) htypes, l' + m',
      evalsAll_cons.2 ⟨v, l', vs, m', hv', hvs', rfl, rfl⟩⟩

theorem headSig_binary {op : BinaryOp} {s t ty : Ty} (h : HeadSig (.binary op) [s, t] ty) :
    ∃ p, Primitive.binary op s t = .ok p ∧ ty = p.result := by
  cases h with
  | binary hp => exact ⟨_, hp, rfl⟩

/-- A node is kept when that over its simplified parts is, also where a rule applies to it. -/
theorem kept_node (htyped : ∀ v k, Evals rt ρ e v k → v.HasTy e.ty.marked)
    (hty : ∀ r, (e.overParts Expr.simpler?).simpler? = some r →
      r.ty = (e.overParts Expr.simpler?).ty)
    (hvalue : ∀ v k, Evals rt ρ e v k → ∃ l, Evals rt ρ (e.overParts Expr.simpler?) v l ∧
      ∀ r, (e.overParts Expr.simpler?).simpler? = some r → ∃ m, Evals rt ρ r v m) :
    e.Kept rt ρ := by
  have hsimplify : e.simplify.value =
      ((e.overParts Expr.simpler?).simpler?).getD (e.overParts Expr.simpler?) := by
    rw [Expr.simplify, ← Expr.rewritten, Expr.rewritten_eq]
  refine ⟨htyped, ?_, fun v k hv => ?_⟩
  · rw [hsimplify]
    cases hr : (e.overParts Expr.simpler?).simpler? with
    | none => rfl
    | some r => exact hty r hr
  · obtain ⟨l, hnode, hrule⟩ := hvalue v k hv
    rw [hsimplify]
    cases hr : (e.overParts Expr.simpler?).simpler? with
    | none => exact ⟨l, hnode⟩
    | some r => exact hrule r hr

/-- A node over such parts, but for a null check of a NULL type without a mark. -/
theorem kept_head (hform : e.form.head? = some (head, parts))
    (hrt : rt.Typed) (hsig : HeadSig head (parts.map fun e => e.ty.marked) e.ty)
    (hparts : ∀ part ∈ parts, part.Kept rt ρ)
    (hcheck : head = .isNull → ∀ part ∈ parts, part.ty.isNullType → part.ty.mayBeNull) :
    e.Kept rt ρ := by
  have hform' : (e.overParts Expr.simpler?).form.head? = _ := Expr.head?_overParts hform
  refine kept_node (fun v k hv => ?_) (fun r hr => ?_) (fun v k hv => ?_)
  · obtain ⟨vs, hvs, hcombine⟩ := (evals_head hform).1 hv
    exact (headSig_combine hrt hsig (evalsAll_simplify hparts hvs).1 hcombine).marked
  · refine ty_of_simpler? hr fun operand hoperand => ?_
    rw [hoperand] at hform'
    obtain ⟨rfl, -⟩ := Prod.mk.inj (Option.some.inj hform')
    exact headSig_isNull hsig
  · obtain ⟨vs, hvs, hcombine⟩ := (evals_head hform).1 hv
    obtain ⟨-, l, hvs'⟩ := evalsAll_simplify hparts hvs
    have hnode : Evals rt ρ (e.overParts Expr.simpler?) v l :=
      (evals_head hform').2 ⟨vs, hvs', hcombine⟩
    have hrespects : ∀ part ∈ parts, (part.ty.isNullType → part.ty.mayBeNull) →
        (part.rewritten Expr.simpler?).Respects rt ρ := fun part hpart hmark => by
      obtain ⟨n, hn⟩ := List.getElem?_of_mem hpart
      obtain ⟨u, j, -, hu⟩ := hvs.getElem? hn
      exact (hparts part hpart).respects hu hmark
    refine ⟨l, hnode, fun r hr => evals_simpler hr (fun operand hoperand => ?_)
      (fun op left right hbinary => ?_) hnode⟩
    · rw [hoperand] at hform'
      obtain ⟨rfl, hone⟩ := Prod.mk.inj (Option.some.inj hform')
      obtain ⟨part, rfl, rfl⟩ := List.map_eq_singleton_iff.1 hone.symm
      exact hrespects part (by simp) (hcheck rfl part (by simp))
    · rw [hbinary] at hform'
      obtain ⟨rfl, htwo⟩ := Prod.mk.inj (Option.some.inj hform')
      obtain ⟨l, rest, rfl, rfl, hrest⟩ := List.map_eq_cons_iff.1 htwo.symm
      obtain ⟨r, rfl, rfl⟩ := List.map_eq_singleton_iff.1 hrest
      obtain ⟨p, hp, hty⟩ := headSig_binary (s := l.ty.marked) (t := r.ty.marked) hsig
      have hl := Ty.isNullType_marked l.ty ▸ (Primitive.binary_eq_ok hp).1
      have hr := Ty.isNullType_marked r.ty ▸ Primitive.isNullType_right hp
      rw [Ty.marked_of_typed hl, Ty.marked_of_typed hr] at hp
      refine ⟨hrespects l (by simp) (by simp [hl]), hrespects r (by simp) (by simp [hr]),
        fun hop hbool => ?_⟩
      obtain ⟨hltype, hrtype⟩ := bool_of_logical hop hp (hty.symm.trans hbool)
      exact ⟨(hparts l (by simp)).ty.trans hltype, (hparts r (by simp)).ty.trans hrtype⟩

theorem kept_ite {condition yes no : Expr} (hcondition : condition.Kept rt ρ)
    (hyes : yes.Kept rt ρ) (hno : no.Kept rt ρ) (h : Expr.ite condition yes no = .ok e) :
    e.Kept rt ρ := by
  obtain ⟨-, hshape, rfl⟩ := ite_eq_ok h
  refine kept_node (fun v k hv => ?_) (fun r hr => ty_of_simpler? hr nofun) (fun v k hv => ?_)
  · obtain ⟨b, l, m, -, hbranch, -⟩ := evals_ite.1 hv
    refine Val.HasTy.branch hshape (b := b) ?_
    cases b with
    | true => exact hyes.typed v m hbranch
    | false => exact hno.typed v m hbranch
  · obtain ⟨b, l, m, hc, hbranch, -⟩ := evals_ite.1 hv
    obtain ⟨l', hc'⟩ := hcondition.value _ l hc
    have hbranch' : ∃ m', Evals rt ρ
        (if b then yes.rewritten Expr.simpler? else no.rewritten Expr.simpler?) v m' := by
      cases b with
      | true => exact hyes.value v m hbranch
      | false => exact hno.value v m hbranch
    obtain ⟨m', hbranch'⟩ := hbranch'
    have hnode : ∀ ty, Evals rt ρ (Expr.overParts Expr.simpler? ⟨.ite condition yes no, ty⟩) v
        (l' + m') := fun ty => evals_ite.2 ⟨b, l', m', hc', hbranch', rfl⟩
    exact ⟨_, hnode _, fun r hr => evals_simpler hr nofun nofun (hnode _)⟩

/-- A literal is left as it is. -/
theorem kept_literal {value : Literal} {t : Ty} (hsimple : value.isSimple)
    (hfits : value.Fits t.marked) : (Expr.literal value t).Kept rt ρ := by
  obtain ⟨a, ha, hfits⟩ := hfits
  have hhead : (Form.literal value).head? = some (.literal value, []) := by
    cases value <;> first | rfl | cases hsimple
  have hatom : value.atom? t = value.atom? t.marked := by
    cases hnull : t.isNullType with
    | false => rw [Ty.marked_of_typed hnull]
    | true =>
      obtain ⟨kind, nullable⟩ := t
      obtain rfl : kind = .null := Ty.isNullType_iff.1 hnull
      cases value <;> rfl
  have hover : (Expr.literal value t).overParts Expr.simpler? = Expr.literal value t := by
    cases value <;> first | rfl | cases hsimple
  refine kept_node (fun v k hv => ?_) (fun r hr => ?_)
    (fun v k hv => ⟨k, by rwa [hover], fun r hr => ?_⟩)
  · obtain ⟨vs, -, hcombine⟩ := (evals_head hhead).1 hv
    obtain ⟨b, hb, rfl⟩ := Option.map_eq_some_iff.1 hcombine
    obtain rfl := Option.some.inj (ha.symm.trans (hatom ▸ hb))
    exact .atom hfits
  · rw [hover] at hr
    cases hr
  · rw [hover] at hr
    cases hr

theorem kept_of_firstOrder (hrt : rt.Typed) (hρ : EnvTyped Γ ρ) (hdata : ρ.IsData)
    (he : FirstOrder Literal.Fits Γ e) : e.Kept rt ρ := by
  obtain ⟨hty, hvalue⟩ := simplify_preserves_meaning hrt he.wellTyped
  refine ⟨fun v k hv => (he.wellTyped.hasTy hrt hρ hv).marked, hty, fun v k hv => ?_⟩
  obtain ⟨w, l, hw, -, heq⟩ := hvalue ρ v k hρ hv
  obtain rfl := heq (he.plain.isData hdata hv)
  exact ⟨l, hw⟩

/-- No null check has an operand of a NULL type that is not marked nullable. -/
def Expr.ChecksMarked (e : Expr) : Prop :=
  e.Every fun x => ∀ operand, x.form = .isNull operand → operand.ty.isNullType →
    operand.ty.mayBeNull

theorem Composed.kept {base : Expr → Prop} (hrt : rt.Typed) (hbase : ∀ e, base e → e.Kept rt ρ)
    (he : Composed base (fun l t => l.Fits t.marked) e) (hchecks : e.ChecksMarked) :
    e.Kept rt ρ := by
  induction he with
  | given he => exact hbase _ he
  | literal hsimple hfits => exact kept_literal hsimple hfits
  | @unary op operand e _ he ih =>
    have hnull := isNullType_unary he
    obtain ⟨hsig, rfl⟩ := unary_eq_ok he
    have hoperand := ih (hchecks.part _ (List.mem_singleton_self _))
    refine kept_head rfl hrt ?_ (List.forall_mem_singleton.2 hoperand) nofun
    rw [List.map_singleton, Ty.marked_of_typed hnull]
    exact .unary hsig
  | @binary op left right e _ _ he ihleft ihright =>
    obtain ⟨p, hp, rfl⟩ := binary_eq_ok he
    obtain ⟨hleft, hright⟩ := List.forall_mem_cons.1 hchecks.part
    have hparts : ∀ part ∈ [left, right], part.Kept rt ρ := List.forall_mem_cons.2
      ⟨ihleft hleft, List.forall_mem_singleton.2 (ihright (hright _ (List.mem_singleton_self _)))⟩
    refine kept_head rfl hrt ?_ hparts nofun
    rw [List.map_cons, List.map_singleton, Ty.marked_of_typed (Primitive.binary_eq_ok hp).1,
      Ty.marked_of_typed (Primitive.isNullType_right hp)]
    exact .binary hp
  | call _ ih =>
    exact kept_head rfl hrt .call (fun arg harg => ih arg harg (hchecks.part arg harg)) nofun
  | some _ he ih =>
    obtain ⟨-, rfl⟩ := someOf_eq_ok he
    have hoperand := ih (hchecks.part _ (List.mem_singleton_self _))
    refine kept_head rfl hrt ?_ (List.forall_mem_singleton.2 hoperand) nofun
    rw [List.map_singleton, ← Ty.nullable_marked]
    exact .some
  | ite _ _ _ he ihcondition ihyes ihno =>
    have hparts := hchecks.part
    rw [(ite_eq_ok he).2.2] at hparts
    obtain ⟨hcondition, hparts⟩ := List.forall_mem_cons.1 hparts
    obtain ⟨hyes, hparts⟩ := List.forall_mem_cons.1 hparts
    exact kept_ite (ihcondition hcondition) (ihyes hyes)
      (ihno (hparts _ (List.mem_singleton_self _))) he
  | cast _ ih =>
    have hoperand := ih (hchecks.part _ (List.mem_singleton_self _))
    exact kept_head rfl hrt .cast (List.forall_mem_singleton.2 hoperand) nofun
  | isNull _ ih =>
    have hoperand := ih (hchecks.part _ (List.mem_singleton_self _))
    exact kept_head rfl hrt .isNull (List.forall_mem_singleton.2 hoperand)
      fun _ => List.forall_mem_singleton.2 (hchecks.self _ rfl)

end Kept

section Scalars

variable {rt : Runtime} {s : Scalar} {x : String} {ty : Ty} {e : Expr}

/-- A column of a row variable. -/
theorem firstOrder_column {fits : Literal → Ty → Prop} {index : Nat}
    (h : Expr.field (Expr.var x ty) index = .ok e) : FirstOrder fits [(x, ty)] e := by
  refine .field (.var (by simp) ?_) h
  obtain ⟨u, hu, -⟩ := field_eq_ok h
  obtain ⟨kind, nullable⟩ := ty
  cases kind <;> first | rfl | cases hu

/-- A lowered scalar always can be normalized, and has the same values afterwards where no null
check is of a NULL type that is not marked nullable. -/
theorem Scalar.normalize_keeps_values (hrt : rt.Typed) (h : s.toExpr (Expr.var x ty) = .ok e)
    (ctx : Context) : ∃ r, e.normalize ctx = (.ok r, ctx) ∧ (e.ChecksMarked → ∀ row v k,
      row.isData → row.HasTy ty → Evals rt [(x, row)] e v k →
      ∃ l, Evals rt [(x, row)] r.value v l) := by
  have hany : Composed (FirstOrder (fun _ _ => True) [(x, ty)]) (fun _ _ => True) e :=
    composed_scalar admits_any (fun _ _ => firstOrder_column) s (fun _ _ _ => trivial) h
  have hplain := (hany.firstOrder fun _ he => he).plain
  have hmarked : Composed (FirstOrder Literal.Fits [(x, ty)]) (fun l t => l.Fits t.marked) e :=
    composed_scalar admits_marked (fun _ _ => firstOrder_column) s
      (fun _ _ hnull => Ty.null_fits_marked hnull) h
  refine ⟨_, normalize_of_idle (hplain.idle (Nat.le_add_right _ _)), ?_⟩
  intro hchecks row v k hdata hrow hv
  have hρ : EnvTyped [(x, ty)] [(x, row)] := EnvTyped.cons (ρ := []) nofun hrow
  have hρdata : Env.IsData [(x, row)] := by
    intro y u hu
    rw [lookup_cons_eq] at hu
    split_ifs at hu
    · exact Option.some.inj hu ▸ hdata
    · cases hu
  exact (hmarked.kept hrt (fun _ => kept_of_firstOrder hrt hρ hρdata) hchecks).value v k hv

end Scalars

/-- The successor of the first column, with a check for a NULL that cannot be. -/
def guardedSuccessor : Scalar :=
  .case [(.unary .isNull (.column 0), .int32 0)] (.binary .add (.column 0) (.int32 1))

/-- The check is dropped, and the successor stays. -/
theorem normalize_guardedSuccessor : ∃ e r,
    guardedSuccessor.toExpr (Expr.var "t" (Ty.ref (Ty.tuple [Ty.int32]))) = .ok e ∧
    e.normalize Context.empty = (.ok r, Context.empty) ∧
    ∃ l, Evals int32Sums [("t", .ref (.tuple [.atom (.int .w32 6)]))] r.value
      (.atom (.int .w32 7)) l := by
  let column : Expr := ⟨.field (Expr.var "t" (Ty.ref (Ty.tuple [Ty.int32]))) 0, Ty.int32⟩
  let e : Expr := ⟨.ite (Expr.isNull column) (Expr.int32 0)
    ⟨.binary .add column (Expr.int32 1), Ty.int32⟩, Ty.int32⟩
  have he : guardedSuccessor.toExpr (Expr.var "t" (Ty.ref (Ty.tuple [Ty.int32]))) = .ok e := by
    with_unfolding_all rfl
  obtain ⟨r, hr, hvalue⟩ := Scalar.normalize_keeps_values int32Sums_typed he Context.empty
  have hint : ∀ i, (Expr.int32 i).ChecksMarked := fun i => .intro nofun nofun
  have hcolumn : column.ChecksMarked :=
    .intro nofun (List.forall_mem_singleton.2 (.intro nofun nofun))
  have hcheck : (Expr.isNull column).ChecksMarked := by
    refine .intro ?_ (List.forall_mem_singleton.2 hcolumn)
    rintro _ ⟨⟩ hnull
    cases hnull
  have hchecks : e.ChecksMarked := .intro nofun <| List.forall_mem_cons.2 ⟨hcheck,
    List.forall_mem_cons.2 ⟨hint 0, List.forall_mem_singleton.2 <| .intro nofun <|
      List.forall_mem_cons.2 ⟨hcolumn, List.forall_mem_singleton.2 (hint 1)⟩⟩⟩
  have hrow : (Val.ref (.tuple [.atom (.int .w32 6)])).HasTy (Ty.ref (Ty.tuple [Ty.int32])) :=
    .ref (.tuple rfl (.cons (.atom rfl) .nil))
  exact ⟨e, r, he, hr, hvalue hchecks _ _ 0 rfl hrow ⟨4, rfl⟩⟩

end ViewCircuit
