import ViewCircuit.Proofs.BottomUp
import ViewCircuit.Proofs.Soundness

/-! Simplification keeps the type and the value of every well-typed expression. -/
namespace ViewCircuit

open List (Forall₂)

/-- All that the rule changes are simplifications. -/
def Simplifying (rule : Expr → Option Expr) : Prop :=
  ∀ e r, rule e = some r → e.simpler? = some r

theorem simplifying_simpler : Simplifying Expr.simpler? := fun _ _ h => h

theorem simplifying_none : Simplifying fun _ => none := nofun

/-- The second value is the first with simplified closures. -/
inductive Val.Simplifies : Val → Val → Prop
  | atom (a : Atom) : Simplifies (.atom a) (.atom a)
  | node {shape : Shape} {vs ws : List Val} : Forall₂ Simplifies vs ws →
      Simplifies (.node shape vs) (.node shape ws)
  | closure {names : List String} {vs ws : List Val} {params : List Param} {body : Expr}
      {rule : Expr → Option Expr} : Simplifying rule → Forall₂ Simplifies vs ws →
      Simplifies (.closure names vs params body) (.closure names ws params (body.rewritten rule))

theorem structural_simplifies : Structural Val.Simplifies where
  atom := by
    intro a w
    constructor
    · rintro ⟨⟩
      rfl
    · rintro rfl
      exact .atom a
  node := by
    intro shape vs w
    constructor
    · rintro (_ | h)
      exact ⟨_, rfl, h⟩
    · rintro ⟨ws, rfl, h⟩
      exact .node h
  closure := by
    rintro names vs params body w (_ | _ | ⟨_, _⟩)
    exact ⟨_, _, _, _, rfl⟩

mutual
theorem simplifies_refl : ∀ v : Val, v.Simplifies v
  | .atom a => .atom a
  | .node _ vs => .node (forall₂_simplifies_refl vs)
  | .closure names vs params body => by
    have h : Val.Simplifies (.closure names vs params body)
        (.closure names vs params (body.rewritten fun _ => none)) :=
      .closure simplifying_none (forall₂_simplifies_refl vs)
    rwa [body.rewritten_none] at h
theorem forall₂_simplifies_refl : ∀ vs : List Val, Forall₂ Val.Simplifies vs vs
  | [] => .nil
  | v :: vs => .cons (simplifies_refl v) (forall₂_simplifies_refl vs)
end

section Rules

open ViewCircuit.Expr

variable {rt : Runtime} {ρ : Env} {e r : Expr} {w : Val} {k : Nat}

theorem nullable_eq {t : Ty} (h : t.mayBeNull) : t.nullable = t := by
  obtain ⟨kind, _⟩ := t
  obtain rfl := h
  rfl

theorem eq_bool_type {t : Ty} (hkind : t.kind = .bool) (hnull : t.mayBeNull = false) :
    t = Ty.bool := by
  obtain ⟨_, _⟩ := t
  obtain rfl := hkind
  obtain rfl := hnull
  rfl

theorem form_of_boolLiteral? {b : Bool} (h : e.boolLiteral? = some b) :
    e.form = .literal (.bool b) := by
  unfold boolLiteral? at h
  split at h
  · rename_i hform
    rw [hform, Option.some.inj h]
  · cases h

theorem evals_boolLiteral {b : Bool} (h : e.boolLiteral? = some b) :
    Evals rt ρ e w k ↔ w = Val.bool b ∧ k = 0 := by
  have hhead : e.form.head? = some (.literal (.bool b), []) := by
    rw [form_of_boolLiteral? h]
    rfl
  rw [evals_head hhead]
  constructor
  · rintro ⟨vs, hvs, hw⟩
    exact ⟨(Option.some.inj hw).symm, (evalsAll_nil.1 hvs).2⟩
  · rintro ⟨rfl, rfl⟩
    exact ⟨[], evalsAll_nil.2 ⟨rfl, rfl⟩, rfl⟩

theorem evals_nullLiteral (h : e.isNullLiteral) : Evals rt ρ e w k ↔ w = Val.null ∧ k = 0 := by
  have hhead : e.form.head? = some (.literal .null, []) := by
    unfold isNullLiteral at h
    split at h
    · rename_i hform
      rw [hform]
      rfl
    · cases h
  rw [evals_head hhead]
  constructor
  · rintro ⟨vs, hvs, hw⟩
    exact ⟨(Option.some.inj hw).symm, (evalsAll_nil.1 hvs).2⟩
  · rintro ⟨rfl, rfl⟩
    exact ⟨[], evalsAll_nil.2 ⟨rfl, rfl⟩, rfl⟩

/-- A branch that lacks only the NULL of the conditional can be wrapped. -/
theorem someOf_of_nullable {ty : Ty} {branch : Expr} (hne : branch.ty ≠ ty)
    (hty : ty = branch.ty.nullable) : someOf branch = .ok ⟨.some branch, ty⟩ := by
  have hnull : ¬ branch.ty.mayBeNull := fun hmay => hne (hty ▸ (nullable_eq hmay).symm)
  unfold someOf
  rw [if_neg hnull, hty]

/-- A branch is taken as it is, or wrapped, which cannot fail. -/
theorem chosen?_eq_some {ty : Ty} {branch : Expr} (h : chosen? ty branch = some r) :
    r.ty = ty ∧ (r = branch ∨ r = ⟨.some branch, ty⟩ ∧ someOf branch = .ok r) := by
  unfold chosen? at h
  split at h
  · rename_i hsame
    obtain rfl := Option.some.inj h
    exact ⟨(Ty.same_iff _ _).1 hsame, .inl rfl⟩
  · rename_i hne
    split at h
    · rename_i hnullable
      have hwrap := someOf_of_nullable (fun hty => hne ((Ty.same_iff _ _).2 hty))
        ((Ty.same_iff _ _).1 hnullable)
      rw [hwrap] at h
      obtain rfl := Option.some.inj h
      exact ⟨rfl, .inr ⟨rfl, hwrap⟩⟩
    · cases h

/-- A side that is a literal decides, or leaves the other side. -/
theorem absorb?_eq_some {absorbing : Bool} {literal other : Expr}
    (h : absorb? absorbing literal other = some r) : r.ty = Ty.bool ∧
      ((literal.boolLiteral? = some absorbing ∧ r = Expr.bool absorbing) ∨
        literal.boolLiteral? = some (!absorbing) ∧ r = other) := by
  unfold absorb? at h
  split at h
  · cases h
  · rename_i b hliteral
    split at h
    · rename_i hb
      obtain rfl := Option.some.inj h
      obtain rfl : b = absorbing := by simpa using hb
      exact ⟨rfl, .inl ⟨hliteral, rfl⟩⟩
    · rename_i hb
      split at h
      · rename_i hsame
        obtain rfl := Option.some.inj h
        obtain rfl : b = !absorbing := by simpa [Bool.eq_not] using hb
        exact ⟨(Ty.same_iff _ _).1 hsame, .inr ⟨hliteral, rfl⟩⟩
      · cases h

/-- A simplified conditional is the branch that its condition chooses. -/
theorem simpler?_ite {condition yes no : Expr} {ty : Ty}
    (h : simpler? ⟨.ite condition yes no, ty⟩ = some r) :
    ∃ b, condition.boolLiteral? = some b ∧ chosen? ty (if b then yes else no) = some r := by
  cases hliteral : condition.boolLiteral? with
  | none => simp [simpler?, hliteral] at h
  | some b => exact ⟨b, rfl, by simpa [simpler?, hliteral] using h⟩

/-- A simplified operator is logical, and a literal on one of its sides decides. -/
theorem simpler?_binary {op : BinaryOp} {left right : Expr} {ty : Ty}
    (h : simpler? ⟨.binary op left right, ty⟩ = some r) : op.isLogical ∧ ty = Ty.bool ∧
      (absorb? (op == .or) left right = some r ∨ absorb? (op == .or) right left = some r) := by
  obtain ⟨hcond, h⟩ := Option.ite_none_right_eq_some.1 h
  obtain ⟨hop, hty⟩ := Bool.and_eq_true_iff.1 hcond
  exact ⟨hop, (Ty.same_iff _ _).1 hty, (Option.or_eq_some_iff.1 h).imp_right And.right⟩

/-- A rule at a node of the boolean type keeps that type; all other rules keep any. -/
theorem ty_of_simpler? (h : e.simpler? = some r)
    (hnull : ∀ operand, e.form = .isNull operand → e.ty = Ty.bool) : r.ty = e.ty := by
  obtain ⟨form, ty⟩ := e
  cases form with
  | isNull operand =>
    obtain ⟨-, h⟩ := Option.ite_none_left_eq_some.1 h
    obtain rfl := Option.some.inj h
    exact (hnull operand rfl).symm
  | cast operand =>
    obtain ⟨hcond, h⟩ := Option.ite_none_right_eq_some.1 h
    obtain rfl := Option.some.inj h
    exact nullable_eq (Bool.and_eq_true_iff.1 hcond).2
  | ite condition yes no =>
    obtain ⟨b, -, h⟩ := simpler?_ite h
    exact (chosen?_eq_some h).1
  | binary op left right =>
    obtain ⟨-, hty, h | h⟩ := simpler?_binary h
    · exact (absorb?_eq_some h).1.trans hty.symm
    · exact (absorb?_eq_some h).1.trans hty.symm
  | _ => cases h

/-- What is known of the values of an expression by its type, for rules that drop it. -/
def Expr.Respects (rt : Runtime) (ρ : Env) (e : Expr) : Prop :=
  ∀ u k, Evals rt ρ e u k →
    (e.ty.mayBeNull = false → u.isNull = false) ∧ (e.ty = Ty.bool → ∃ b, u = Val.bool b)

theorem evals_bool {b : Bool} : Evals rt ρ (Expr.bool b) (Val.bool b) 0 :=
  (evals_boolLiteral rfl).2 ⟨rfl, rfl⟩

theorem evals_simpler_isNull {operand : Expr} (hform : e.form = .isNull operand)
    (hoperand : operand.Respects rt ρ) (h : e.simpler? = some r) (hw : Evals rt ρ e w k) :
    ∃ l, Evals rt ρ r w l := by
  have hhead : e.form.head? = some (.isNull, [operand]) := by rw [hform]; rfl
  obtain ⟨vs, hvs, hv⟩ := (evals_head hhead).1 hw
  obtain ⟨u, l, us, m, hu, hus, rfl, rfl⟩ := evalsAll_cons.1 hvs
  obtain ⟨rfl, -⟩ := evalsAll_nil.1 hus
  simp only [simpler?, hform] at h
  split at h
  · cases h
  · rename_i hnull
    obtain rfl := Option.some.inj h
    have hfalse := (hoperand u l hu).1 (by simpa using hnull)
    simp only [Head.combine, hfalse, Option.some.injEq] at hv
    exact ⟨0, hv ▸ evals_bool⟩

theorem evals_simpler_cast {operand : Expr} (hform : e.form = .cast operand)
    (h : e.simpler? = some r) (hw : Evals rt ρ e w k) : ∃ l, Evals rt ρ r w l := by
  have hhead : e.form.head? = some (.cast, [operand]) := by rw [hform]; rfl
  obtain ⟨vs, hvs, hv⟩ := (evals_head hhead).1 hw
  obtain ⟨u, l, us, m, hu, hus, rfl, rfl⟩ := evalsAll_cons.1 hvs
  obtain ⟨rfl, -⟩ := evalsAll_nil.1 hus
  simp only [simpler?, hform] at h
  split at h
  · rename_i hcond
    simp only [Bool.and_eq_true] at hcond
    obtain rfl := Option.some.inj h
    obtain ⟨rfl, -⟩ := (evals_nullLiteral hcond.1.2).1 hu
    have hcast : Val.null.cast rt e.ty = some Val.null := by
      simp [Val.cast, Val.isNull, Val.null, hcond.2]
    obtain rfl := Option.some.inj (hcast.symm.trans hv)
    exact ⟨0, (evals_nullLiteral rfl).2 ⟨rfl, rfl⟩⟩
  · cases h

theorem evals_simpler_ite {condition yes no : Expr} (hform : e.form = .ite condition yes no)
    (h : e.simpler? = some r) (hw : Evals rt ρ e w k) : ∃ l, Evals rt ρ r w l := by
  obtain ⟨form, ty⟩ := e
  obtain rfl : form = .ite condition yes no := hform
  obtain ⟨b, l, m, hc, hbranch, -⟩ := evals_ite.1 hw
  obtain ⟨b', hliteral, h⟩ := simpler?_ite h
  obtain ⟨hb, -⟩ := (evals_boolLiteral hliteral).1 hc
  obtain rfl : b = b' := by simpa [Val.bool] using hb
  rcases (chosen?_eq_some h).2 with rfl | ⟨rfl, -⟩
  · exact ⟨m, hbranch⟩
  · refine ⟨m, (evals_head rfl).2 ⟨[w], evalsAll_cons.2 ⟨w, m, [], 0, hbranch, ?_, rfl, rfl⟩, rfl⟩⟩
    exact evalsAll_nil.2 ⟨rfl, rfl⟩

/-- A literal on one side and a boolean on the other, in either order. -/
theorem evals_absorb {absorbing : Bool} {literal other : Expr} {u : Val} {l m : Nat}
    (h : absorb? absorbing literal other = some r) (hliteral : Evals rt ρ literal u l) {b : Bool}
    (hother : Evals rt ρ other (Val.bool b) m) : ∃ a k, u = Val.bool a ∧
      Evals rt ρ r (Val.bool (if absorbing then a || b else a && b)) k := by
  rcases (absorb?_eq_some h).2 with ⟨hb, rfl⟩ | ⟨hb, rfl⟩
  · obtain ⟨rfl, -⟩ := (evals_boolLiteral hb).1 hliteral
    refine ⟨absorbing, 0, rfl, ?_⟩
    cases absorbing <;> exact evals_bool
  · obtain ⟨rfl, -⟩ := (evals_boolLiteral hb).1 hliteral
    refine ⟨!absorbing, m, rfl, ?_⟩
    cases absorbing <;> simpa using hother

theorem evals_simpler_binary {op : BinaryOp} {left right : Expr}
    (hform : e.form = .binary op left right) (hleft : left.Respects rt ρ)
    (hright : right.Respects rt ρ)
    (htypes : op.isLogical → e.ty = Ty.bool → left.ty = Ty.bool ∧ right.ty = Ty.bool)
    (h : e.simpler? = some r) (hw : Evals rt ρ e w k) : ∃ l, Evals rt ρ r w l := by
  obtain ⟨form, ty⟩ := e
  obtain rfl : form = .binary op left right := hform
  obtain ⟨vs, hvs, hv⟩ := (evals_head rfl).1 hw
  obtain ⟨u, l, us, m, hu, hus, rfl, rfl⟩ := evalsAll_cons.1 hvs
  obtain ⟨u', l', us', m', hu', hus', rfl, rfl⟩ := evalsAll_cons.1 hus
  obtain ⟨rfl, -⟩ := evalsAll_nil.1 hus'
  obtain ⟨hop, hty, h⟩ := simpler?_binary h
  obtain ⟨hleftTy, hrightTy⟩ := htypes hop hty
  obtain ⟨a, rfl⟩ := (hleft u l hu).2 hleftTy
  obtain ⟨b, rfl⟩ := (hright u' l' hu').2 hrightTy
  have hvalue : w = Val.bool (if op == .or then a || b else a && b) := by
    cases op with
    | and | or => exact (Option.some.inj hv).symm
    | _ => cases hop
  rw [hvalue]
  rcases h with h | h
  · obtain ⟨a', j, ha, hr⟩ := evals_absorb h hu hu'
    obtain rfl : a = a' := by simpa [Val.bool] using ha
    exact ⟨j, hr⟩
  · obtain ⟨b', j, hb, hr⟩ := evals_absorb h hu' hu
    obtain rfl : b = b' := by simpa [Val.bool] using hb
    rw [Bool.or_comm, Bool.and_comm] at hr
    exact ⟨j, hr⟩

/-- A simplification keeps the value of a node where its null checks and logical operators have
operands with values of their types. -/
theorem evals_simpler (h : e.simpler? = some r)
    (hnull : ∀ operand, e.form = .isNull operand → operand.Respects rt ρ)
    (hbinary : ∀ op left right, e.form = .binary op left right → left.Respects rt ρ ∧
      right.Respects rt ρ ∧
      (op.isLogical → e.ty = Ty.bool → left.ty = Ty.bool ∧ right.ty = Ty.bool))
    (hw : Evals rt ρ e w k) : ∃ l, Evals rt ρ r w l := by
  obtain ⟨form, ty⟩ := e
  cases form with
  | isNull operand => exact evals_simpler_isNull rfl (hnull operand rfl) h hw
  | cast operand => exact evals_simpler_cast rfl h hw
  | ite condition yes no => exact evals_simpler_ite rfl h hw
  | binary op left right =>
    obtain ⟨hleft, hright, htypes⟩ := hbinary op left right rfl
    exact evals_simpler_binary rfl hleft hright htypes h hw
  | _ => cases h

/-- Operands of a logical operator that gives a boolean are booleans. -/
theorem bool_of_logical {op : BinaryOp} {s t : Ty} {p : Primitive} (hop : op.isLogical)
    (hp : Primitive.binary op s t = .ok p) (hty : p.result = Ty.bool) :
    s = Ty.bool ∧ t = Ty.bool := by
  obtain ⟨hs, ht, hresult⟩ := logical_types hop hp
  have hnull := congrArg Ty.mayBeNull (hresult.symm.trans hty)
  simp only [Ty.bool, Bool.or_eq_false_iff] at hnull
  exact ⟨eq_bool_type hs hnull.1, eq_bool_type ht hnull.2⟩

/-- A simplifying rule keeps the value of a node whose parts have values of their types. -/
theorem evals_settled {rule : Expr → Option Expr} (hrule : Simplifying rule)
    (hhead : ∀ head parts, e.form.head? = some (head, parts) →
      HeadSig head (parts.map Expr.ty) e.ty ∧ ∀ part ∈ parts, part.Respects rt ρ)
    (hw : Evals rt ρ e w k) : ∃ l, Evals rt ρ ((rule e).getD e) w l := by
  cases hr : rule e with
  | none => exact ⟨k, hw⟩
  | some r =>
    refine evals_simpler (hrule e r hr) (fun operand hform => ?_) (fun op left right hform => ?_) hw
    · obtain ⟨-, hparts⟩ := hhead .isNull [operand] (by rw [hform]; rfl)
      exact hparts operand (List.mem_singleton_self _)
    · obtain ⟨hsig, hparts⟩ := hhead (.binary op) [left, right] (by rw [hform]; rfl)
      refine ⟨hparts left (by simp), hparts right (by simp), fun hop hty => ?_⟩
      generalize hts : [left, right].map Expr.ty = ts at hsig
      obtain ⟨t, ht⟩ : ∃ t, e.ty = t := ⟨_, rfl⟩
      rw [ht] at hsig hty
      cases hsig with
      | binary hp =>
        obtain ⟨rfl, rfl⟩ : left.ty = _ ∧ right.ty = _ := by simpa using hts
        exact bool_of_logical hop hp hty

end Rules

section Nodes

variable {rule : Expr → Option Expr} {Γ : TyEnv} {e : Expr}

/-- Simplification keeps the type of every node. -/
theorem WellTyped.ty_rewritten (he : WellTyped Γ e) (hrule : Simplifying rule) :
    (e.rewritten rule).ty = e.ty := by
  rw [Expr.rewritten_eq]
  cases hr : rule (e.overParts rule) with
  | none => rfl
  | some r =>
    refine ty_of_simpler? (e := e.overParts rule) (hrule _ r hr) fun operand hform => ?_
    cases he.view with
    | head hhead =>
      obtain ⟨head, parts, hform', -, hsig⟩ := hhead
      have hsame : (e.overParts rule).form.head? = _ := Expr.head?_overParts hform'
      rw [hform] at hsame
      obtain ⟨rfl, -⟩ := Prod.mk.inj (Option.some.inj hsame)
      exact headSig_isNull hsig
    | _ => cases hform

end Nodes

section Simulation

variable {rt : Runtime} {rule : Expr → Option Expr} {Γ : TyEnv} {ρ ρ' : Env} {n k : Nat}

/-- Within a bound, simplified expressions follow the evaluation of the ones they came from. -/
def Follows (rt : Runtime) (n : Nat) : Prop :=
  ∀ rule Γ ρ ρ' e v k, Simplifying rule → WellTyped Γ e → EnvTyped Γ ρ →
    Forall₂ (Bound Val.Simplifies) ρ ρ' → eval rt n ρ e = some (v, k) →
    ∃ w l, Evals rt ρ' (e.rewritten rule) w l ∧ v.Simplifies w

theorem Follows.all (h : Follows rt n) (hrule : Simplifying rule) (hρ : EnvTyped Γ ρ)
    (hsim : Forall₂ (Bound Val.Simplifies) ρ ρ') {es : List Expr} (hes : ∀ e ∈ es, WellTyped Γ e)
    {vs : List Val} (hvs : evalAll (eval rt n) ρ es = some (vs, k)) :
    ∃ ws l, EvalsAll rt ρ' (es.map (Expr.rewritten rule)) ws l ∧ Forall₂ Val.Simplifies vs ws := by
  induction es generalizing vs k with
  | nil =>
    obtain ⟨rfl, -⟩ := Prod.mk.inj (Option.some.inj hvs)
    exact ⟨[], 0, evalsAll_nil.2 ⟨rfl, rfl⟩, .nil⟩
  | cons e es ih =>
    obtain ⟨v, l, vs', m, hv, hvs', hr⟩ := evalAll_cons.1 hvs
    obtain ⟨rfl, rfl⟩ := Prod.mk.inj hr
    obtain ⟨w, l', hw, hvw⟩ := h rule Γ ρ ρ' e v l hrule (hes e (by simp)) hρ hsim hv
    obtain ⟨ws, m', hws, hvsws⟩ := ih (fun e he => hes e (by simp [he])) hvs'
    exact ⟨w :: ws, l' + m', evalsAll_cons.2 ⟨w, l', ws, m', hw, hws, rfl, rfl⟩, .cons hvw hvsws⟩

/-- An evaluated part respects its type also after it was simplified. -/
theorem Follows.respects (h : Follows rt n) (hrt : rt.Typed) (hrule : Simplifying rule)
    (hρ : EnvTyped Γ ρ) (hsim : Forall₂ (Bound Val.Simplifies) ρ ρ') {e : Expr}
    (he : WellTyped Γ e) {v : Val} (hv : eval rt n ρ e = some (v, k)) :
    (e.rewritten rule).Respects rt ρ' := by
  intro u l hu
  obtain ⟨w, m, hw, hvw⟩ := h rule Γ ρ ρ' e v k hrule he hρ hsim hv
  obtain ⟨rfl, rfl⟩ := hu.unique hw
  have hty := he.hasTy hrt hρ ⟨n, hv⟩
  rw [he.ty_rewritten hrule]
  refine ⟨fun hnull => ?_, fun hbool => ?_⟩
  · rw [structural_simplifies.isNull_eq hvw]
    exact hty.isNull_eq_false hnull
  · obtain ⟨b, rfl⟩ := hty.eq_bool (by rw [hbool]; rfl) (by rw [hbool]; rfl)
    exact ⟨b, structural_simplifies.atom.1 hvw⟩

theorem evalAll_mem {f : Env → Expr → Option (Val × Nat)} {es : List Expr} {vs : List Val}
    (hvs : evalAll f ρ es = some (vs, k)) : ∀ e ∈ es, ∃ v l, f ρ e = some (v, l) := by
  induction es generalizing vs k with
  | nil => simp
  | cons e es ih =>
    obtain ⟨v, l, vs', m, hv, hvs', -⟩ := evalAll_cons.1 hvs
    intro e' he'
    rcases List.mem_cons.1 he' with rfl | he'
    · exact ⟨v, l, hv⟩
    · exact ih hvs' e' he'

theorem Follows.head (h : Follows rt n) (hrt : rt.Typed) (hrule : Simplifying rule)
    (hρ : EnvTyped Γ ρ) (hsim : Forall₂ (Bound Val.Simplifies) ρ ρ') {e : Expr} {v : Val}
    (hhead : HeadTyped Γ e) (hv : eval rt (n + 1) ρ e = some (v, k)) :
    ∃ w l, Evals rt ρ' (e.rewritten rule) w l ∧ v.Simplifies w := by
  obtain ⟨head, parts, hform, hparts, hsig⟩ := hhead
  obtain ⟨vs, l, v', hvs, hv', hr⟩ := (evalNode_head hform).1 hv
  obtain ⟨rfl, rfl⟩ := Prod.mk.inj hr
  obtain ⟨ws, m, hws, hvsws⟩ := h.all hrule hρ hsim hparts hvs
  obtain ⟨w, hw, hvw⟩ := structural_simplifies.combine hvsws hv'
  have hform' : (e.overParts rule).form.head? = _ := Expr.head?_overParts hform
  have hnode : Evals rt ρ' (e.overParts rule) w m := (evals_head hform').2 ⟨ws, hws, hw⟩
  have htypes : (parts.map (Expr.rewritten rule)).map Expr.ty = parts.map Expr.ty := by
    rw [List.map_map]
    exact List.map_congr_left fun part hpart => (hparts part hpart).ty_rewritten hrule
  rw [Expr.rewritten_eq]
  obtain ⟨j, hj⟩ := evals_settled hrule (fun head' parts' hform'' => by
    obtain ⟨rfl, rfl⟩ := Prod.mk.inj (Option.some.inj (hform'.symm.trans hform''))
    refine ⟨htypes.symm ▸ hsig, fun part' hpart' => ?_⟩
    obtain ⟨part, hpart, rfl⟩ := List.mem_map.1 hpart'
    obtain ⟨u, i, hu⟩ := evalAll_mem hvs part hpart
    exact h.respects hrt hrule hρ hsim (hparts part hpart) hu) hnode
  exact ⟨w, j, hj, hvw⟩

/-- A node that no rule applies to. -/
theorem rewritten_of_none (hrule : Simplifying rule) {e : Expr}
    (h : (e.overParts rule).simpler? = none) : e.rewritten rule = e.overParts rule := by
  rw [Expr.rewritten_eq]
  cases hr : rule (e.overParts rule) with
  | none => rfl
  | some r => cases h.symm.trans (hrule _ r hr)

theorem Follows.block (h : Follows rt n) (hrt : rt.Typed) (hrule : Simplifying rule) :
    ∀ (b : Block) {Γ : TyEnv} {ρ ρ' : Env} {v : Val} {k : Nat}, WellTypedBlock Γ b →
    EnvTyped Γ ρ → Forall₂ (Bound Val.Simplifies) ρ ρ' → evalBlock (eval rt n) ρ b = some (v, k) →
    ∃ w l, EvalsBlock rt ρ' (Expr.bottomUpBlock rule b).value w l ∧ v.Simplifies w
  | .done none, _, _, _, _, _, _, _, _, hv => by
    obtain ⟨rfl, -⟩ := Prod.mk.inj (Option.some.inj hv)
    exact ⟨Val.unit, 0, evalsBlock_done_none.2 ⟨rfl, rfl⟩, .node .nil⟩
  | .done (some e), Γ, ρ, ρ', v, k, .result he, hρ, hsim, hv =>
    h rule Γ ρ ρ' e v k hrule he hρ hsim hv
  | .bind _ _ _ none rest, _, _, _, _, _, .declare hrest, hρ, hsim, hv => by
    obtain ⟨w, l, hw, hvw⟩ := h.block hrt hrule rest hrest hρ.hide (hide_bound hsim) hv
    exact ⟨w, l, evalsBlock_hide.2 hw, hvw⟩
  | .bind name _ _ (some e) rest, Γ, ρ, ρ', v, k, .bind he hty hrest, hρ, hsim, hv => by
    obtain ⟨u, l, v', m, hu, hv', hr⟩ := evalBlock_bind.1 hv
    obtain ⟨rfl, rfl⟩ := Prod.mk.inj hr
    obtain ⟨x, i, hx, hux⟩ := h rule Γ ρ ρ' e u l hrule he hρ hsim hu
    have hcons := hρ.cons (x := name) (hty ▸ he.hasTy hrt hρ ⟨n, hu⟩)
    have hsim' : Forall₂ (Bound Val.Simplifies) ((name, u) :: ρ) ((name, x) :: ρ') :=
      .cons ⟨rfl, hux⟩ hsim
    obtain ⟨w, j, hw, hvw⟩ := h.block hrt hrule rest hrest hcons hsim' hv'
    exact ⟨w, i + j, evalsBlock_bind.2 ⟨x, i, j, hx, hw, rfl⟩, hvw⟩
  | .exec e rest, Γ, ρ, ρ', v, k, .exec he hrest, hρ, hsim, hv => by
    obtain ⟨u, l, v', m, hu, hv', hr⟩ := evalBlock_exec.1 hv
    obtain ⟨rfl, rfl⟩ := Prod.mk.inj hr
    obtain ⟨x, i, hx, -⟩ := h rule Γ ρ ρ' e u l hrule he hρ hsim hu
    obtain ⟨w, j, hw, hvw⟩ := h.block hrt hrule rest hrest hρ hsim hv'
    exact ⟨w, i + j, evalsBlock_exec.2 ⟨x, i, j, hx, hw, rfl⟩, hvw⟩

theorem firstMatch_map {arms : List (Pattern × Expr)} {f : Expr → Expr} {v : Val} {bindings : Env}
    {body : Expr} (h : firstMatch arms v = some (bindings, body)) :
    firstMatch (arms.map fun arm => (arm.1, f arm.2)) v = some (bindings, f body) := by
  induction arms with
  | nil => cases h
  | cons arm arms ih =>
    unfold firstMatch at h
    rw [List.map_cons]
    unfold firstMatch
    split at h
    · obtain ⟨rfl, rfl⟩ := Prod.mk.inj (Option.some.inj h)
      rfl
    · exact ih h

theorem follows_succ (hrt : rt.Typed) (ih : Follows rt n) : Follows rt (n + 1) := by
  intro rule Γ ρ ρ' e v k hrule he hρ hsim hv
  cases he.view with
  | head hhead => exact ih.head hrt hrule hρ hsim hhead hv
  | var hname =>
    obtain ⟨v', hv', hr⟩ := Option.map_eq_some_iff.1 hv
    obtain ⟨rfl, rfl⟩ := Prod.mk.inj hr
    obtain ⟨w, hw, hvw⟩ := lookup_bound hsim hv'
    rw [rewritten_of_none hrule rfl]
    exact ⟨w, 0, evals_var.2 ⟨hw, rfl⟩, hvw⟩
  | closure hparams hbody =>
    obtain ⟨rfl, rfl⟩ := Prod.mk.inj (Option.some.inj hv)
    rw [rewritten_of_none hrule rfl]
    refine ⟨_, 0, evals_closure.2 ⟨rfl, rfl⟩, ?_⟩
    unfold Env.close
    rw [names_bound hsim]
    exact .closure hrule (values_bound hsim)
  | apply hfunction hargs hfty hlength htypes =>
    obtain ⟨c, l, vs, m, ρ₁, body, v', j, hc, hvs, henter, hv', hr⟩ := evalNode_apply.1 hv
    obtain ⟨rfl, rfl⟩ := Prod.mk.inj hr
    obtain ⟨c', l', hc', hcc'⟩ := ih rule Γ ρ ρ' _ c l hrule hfunction hρ hsim hc
    obtain ⟨ws, m', hws, hvsws⟩ := ih.all hrule hρ hsim hargs hvs
    obtain ⟨Γ₁, hbody, hρ₁, -⟩ := (hfunction.hasTy hrt hρ ⟨n, hc⟩).enter hfty
      (TypesKept.all (typesKept hrt n) hρ hargs hvs) hlength htypes henter
    obtain ⟨names, values, params, rfl, hcount, rfl⟩ := Val.enter?_eq_some.1 henter
    cases hcc' with
    | @closure _ _ values' _ _ rule' hrule' hvalues =>
      have hsim₁ := List.rel_append (List.rel_reverse (zip_bound hvsws (params.map Param.name)))
        (zip_bound hvalues names)
      obtain ⟨w, i, hw, hvw⟩ := ih rule' Γ₁ _ _ body v' j hrule' hbody hρ₁ hsim₁ hv'
      have henter' : Val.enter? (.closure names values' params (body.rewritten rule')) ws =
          some (_, body.rewritten rule') :=
        Val.enter?_eq_some.2 ⟨_, _, _, rfl, hcount.trans hvsws.length_eq, rfl⟩
      rw [rewritten_of_none hrule rfl]
      refine ⟨w, _, evals_apply.2 ⟨_, l', ws, m', _, _, i, hc', ?_, henter', hw, rfl⟩, hvw⟩
      rw [Expr.bottomUpAll_value]
      exact hws
  | block hbody =>
    obtain ⟨w, l, hw, hvw⟩ := ih.block hrt hrule _ hbody hρ hsim hv
    rw [rewritten_of_none hrule rfl]
    exact ⟨w, l, evals_block.2 hw, hvw⟩
  | @ite condition yes no hcondition hyes hno hbool hshape =>
    obtain ⟨b, l, v', m, hc, hv', hr⟩ := evalNode_ite.1 hv
    obtain ⟨rfl, rfl⟩ := Prod.mk.inj hr
    obtain ⟨c', l', hc', hcc'⟩ := ih rule Γ ρ ρ' _ _ l hrule hcondition hρ hsim hc
    obtain rfl := structural_simplifies.atom.1 hcc'
    have hbranch : ∃ w i,
        Evals rt ρ' (if b then yes.rewritten rule else no.rewritten rule) w i ∧
          v'.Simplifies w := by
      cases b with
      | true => exact ih rule Γ ρ ρ' _ v' m hrule hyes hρ hsim hv'
      | false => exact ih rule Γ ρ ρ' _ v' m hrule hno hρ hsim hv'
    obtain ⟨w, i, hw, hvw⟩ := hbranch
    have hnode : ∀ ty, Evals rt ρ' (Expr.overParts rule ⟨.ite condition yes no, ty⟩) w (l' + i) :=
      fun ty => evals_ite.2 ⟨b, l', i, hc', hw, rfl⟩
    obtain ⟨j, hj⟩ := evals_settled hrule (fun _ _ h => by cases h) (hnode _)
    rw [Expr.rewritten_eq]
    exact ⟨w, j, hj, hvw⟩
  | cases hscrutinee harms htypes =>
    obtain ⟨s, l, bindings, body, v', m, hs, hmatch, hv', hr⟩ := evalNode_cases.1 hv
    obtain ⟨rfl, rfl⟩ := Prod.mk.inj hr
    obtain ⟨s', l', hs', hss'⟩ := ih rule Γ ρ ρ' _ s l hrule hscrutinee hρ hsim hs
    obtain ⟨Δ, hΔ, hbody, -⟩ := harms.firstMatch (hscrutinee.hasTy hrt hρ ⟨n, hs⟩) hmatch
    obtain ⟨bindings', hmatch', hbound⟩ := structural_simplifies.firstMatch hss' hmatch
    obtain ⟨w, i, hw, hvw⟩ := ih rule _ _ _ body v' m hrule hbody (hρ.append hΔ)
      (List.rel_append hbound hsim) hv'
    rw [rewritten_of_none hrule rfl]
    refine ⟨w, l' + i, evals_cases.2 ⟨s', l', bindings', _, i, hs', ?_, hw, rfl⟩, hvw⟩
    rw [Expr.bottomUpArms_value]
    exact firstMatch_map hmatch'

theorem follows (hrt : rt.Typed) : ∀ n, Follows rt n
  | 0 => fun _ _ _ _ _ _ _ _ _ _ _ h => nomatch h
  | n + 1 => follows_succ hrt (follows hrt n)

theorem forall₂_bound_refl (ρ : Env) : Forall₂ (Bound Val.Simplifies) ρ ρ := by
  induction ρ with
  | nil => exact .nil
  | cons b ρ ih => exact .cons ⟨rfl, simplifies_refl b.2⟩ ih

end Simulation

/-- A simplified expression follows the one it came from. -/
theorem WellTyped.evals_simplify {rt : Runtime} (hrt : rt.Typed) {Γ : TyEnv} {e : Expr}
    (he : WellTyped Γ e) {ρ : Env} (hρ : EnvTyped Γ ρ) {v : Val} {k : Nat}
    (hv : Evals rt ρ e v k) : ∃ w l, Evals rt ρ e.simplify.value w l ∧ v.Simplifies w := by
  obtain ⟨n, hv⟩ := hv
  exact follows hrt n _ Γ ρ ρ e v k simplifying_simpler he hρ (forall₂_bound_refl ρ) hv

/-- Simplification keeps the type of a well-typed expression and, under all values of the right
types, its value; where that holds closures, their bodies are simplified. -/
theorem simplify_preserves_meaning {rt : Runtime} (hrt : rt.Typed) {Γ : TyEnv} {e : Expr}
    (he : WellTyped Γ e) : e.simplify.value.ty = e.ty ∧
      ∀ ρ v k, EnvTyped Γ ρ → Evals rt ρ e v k → ∃ w l, Evals rt ρ e.simplify.value w l ∧
        v.Simplifies w ∧ (v.isData → w = v) := by
  refine ⟨he.ty_rewritten simplifying_simpler, fun ρ v k hρ hv => ?_⟩
  obtain ⟨w, l, hw, hvw⟩ := he.evals_simplify hrt hρ hv
  exact ⟨w, l, hw, hvw, fun hdata => (structural_simplifies.eq_of_isData hvw hdata).symm⟩

/-- The runtime as far as it adds integers of 32 bits; it fails on overflow. -/
def int32Sums : Runtime
  | .binary .add, [.atom (.int .w32 a), .atom (.int .w32 b)] =>
    if -2147483648 ≤ a + b ∧ a + b < 2147483648 then some (.atom (.int .w32 (a + b))) else none
  | _, _ => none

theorem int32Sums_typed : int32Sums.Typed := by
  intro i ts t vs v hsig hvs hv
  unfold int32Sums at hv
  split at hv
  · cases hsig with
    | @binary _ s t p hp =>
      obtain ⟨x, y, hxy, hx, -⟩ := forall₂_pair hvs
      obtain ⟨rfl, -⟩ : _ = x ∧ _ = y := by simpa using hxy
      have hkind : p.result.kind = .integer .w32 := by
        cases hx with
        | atom hfits =>
          unfold Primitive.binary at hp
          repeat' split at hp
          all_goals cases hp
          exact hfits
        | any | user | indexed => cases hp
      split at hv
      · obtain rfl := Option.some.inj hv
        exact .atom hkind
      · cases hv
  · cases hv

/-- The successor of a number, with a check for a NULL that cannot be. -/
def checkedSuccessor : Expr :=
  ⟨.ite (Expr.isNull (Expr.var "x" Ty.int32)) (Expr.int32 0)
    ⟨.binary .add (Expr.var "x" Ty.int32) (Expr.int32 1), Ty.int32⟩, Ty.int32⟩

theorem checkedSuccessor_wellTyped : WellTyped [("x", Ty.int32)] checkedSuccessor := by
  have hx : WellTyped [("x", Ty.int32)] (Expr.var "x" Ty.int32) := .var rfl rfl
  have hint : ∀ i, WellTyped [("x", Ty.int32)] (Expr.int32 i) := fun i => .literal rfl rfl
  have hadd : Expr.binary .add (Expr.var "x" Ty.int32) (Expr.int32 1) =
      .ok ⟨.binary .add (Expr.var "x" Ty.int32) (Expr.int32 1), Ty.int32⟩ := by
    with_unfolding_all rfl
  exact .ite (.isNull hx) (hint 0) (.binary hx (hint 1) hadd) (by with_unfolding_all rfl)

/-- The check is dropped, and the successor stays. -/
theorem simplify_checkedSuccessor : checkedSuccessor.simplify.value.ty = Ty.int32 ∧
    ∃ l, Evals int32Sums [("x", .atom (.int .w32 6))] checkedSuccessor.simplify.value
      (.atom (.int .w32 7)) l := by
  obtain ⟨hty, hvalue⟩ := simplify_preserves_meaning int32Sums_typed checkedSuccessor_wellTyped
  have hρ : EnvTyped [("x", Ty.int32)] [("x", .atom (.int .w32 6))] :=
    EnvTyped.cons (ρ := []) nofun (.atom rfl)
  obtain ⟨w, l, hw, -, heq⟩ := hvalue _ (.atom (.int .w32 7)) 0 hρ ⟨3, rfl⟩
  obtain rfl := heq rfl
  exact ⟨hty, l, hw⟩

end ViewCircuit
