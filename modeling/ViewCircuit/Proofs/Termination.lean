import Mathlib.Data.ENat.Basic
import ViewCircuit.Proofs.SimplyTyped

/-! Reduction of simply typed expressions ends. In an expression that is reduced already, only what
stands for a variable can make a function become a closure; the parameters of that closure have
smaller types, so inlining goes on at smaller and smaller types. -/
namespace ViewCircuit

open Reduce

mutual
/-- How deep functions nest in a type. -/
def Ty.order : Ty → Nat
  | ⟨.function params result, _⟩ => max (Ty.orderAll params) result.order + 1
  | _ => 0
def Ty.orderAll : List Ty → Nat
  | [] => 0
  | t :: ts => max t.order (Ty.orderAll ts)
end

theorem Ty.order_le_orderAll {t : Ty} {ts : List Ty} (h : t ∈ ts) : t.order ≤ Ty.orderAll ts := by
  induction ts with
  | nil => cases h
  | cons _ ts ih =>
    rw [Ty.orderAll]
    rcases List.mem_cons.1 h with rfl | h
    · exact Nat.le_max_left _ _
    · exact Nat.le_trans (ih h) (Nat.le_max_right _ _)

theorem Ty.order_lt_of_functionParts? {f t : Ty} {ts : List Ty}
    (h : f.functionParts? = some (ts, t)) :
    (∀ p ∈ ts, p.order < f.order) ∧ t.order < f.order := by
  obtain ⟨kind, nullable⟩ := f
  cases kind with
  | function params result =>
    obtain ⟨rfl, rfl⟩ := Prod.mk.inj (Option.some.inj h)
    rw [Ty.order]
    refine ⟨fun p hp => ?_, by omega⟩
    have := Ty.order_le_orderAll hp
    omega
  | _ => cases h

theorem Expr.patternsSatisfy_true (e : Expr) : e.PatternsSatisfy fun _ => True :=
  (Inside.patternsSatisfy e .refl).mono fun _ _ _ _ => trivial

theorem Expr.RedexFree.done {e : Expr} (h : e.RedexFree) : e.Done fun _ => True :=
  h.mono fun _ hx => ⟨hx, fun _ _ => trivial⟩

/-- Reduced already, and of a type below a bound. -/
def Expr.Below (n : ℕ∞) (e : Expr) : Prop := e.RedexFree ∧ (e.ty.order : ℕ∞) < n

section Below

variable {n : ℕ∞} {Δ : Scopes} {names later : Names} {Γ Γ' : ParamTypes}

theorem ReducesAll.redexFree {es es' : List Expr} (h : ReducesAll Δ names es es' later)
    (hbelow : Δ.Replaces (Expr.Below n)) : ∀ e' ∈ es', e'.RedexFree :=
  fun e' he' => (h.done (Q := fun _ => True) (hbelow.mono fun _ he => he.1.done)
    (fun e _ => e.patternsSatisfy_true) e' he').redexFree

/-- A function without redexes that becomes a closure has a type below the bound as well. -/
theorem Reduces.order_lt {Δ : Scopes} {names later : Names} {Γ Γ' : ParamTypes}
    {e e' : Expr} {c : List Param × Expr} : Reduces Δ names e e' later →
    e.RedexFree → SimplyTyped Γ e → Δ.Typed (· ∈ e.free) Γ Γ' → Δ.Replaces (Expr.Below n) →
    e.closure? = none → e'.closure? = some c → (e.ty.order : ℕ∞) < n
  | @Reduces.var _ _ name ty, _, he, hΔ, hbelow, _, hclosure => by
    have hname : Γ.Allows name ty := by
      cases he with
      | head hform _ => cases hform
      | var hname => exact hname
    obtain ⟨-, hty⟩ := hΔ.carries name (by simp [Expr.free]) ty hname
    have hvar : ∀ y, (Expr.var y ty).closure? = some c → ((Expr.var y ty).ty.order : ℕ∞) < n :=
      nofun
    have hoccurrence := Scopes.Replaces.occurrence
      (hbelow.mono (Q := fun a => a.closure? = some c → (a.ty.order : ℕ∞) < n)
        fun a ha _ => ha.2) (x := name) hvar
    exact hty ▸ hoccurrence hclosure
  | .head hform hparts, _, _, _, _, _, hclosure => by
    have hform' := head?_build hform hparts.length_eq
    obtain ⟨fty, heq⟩ := closure?_eq_some hclosure
    rw [(Expr.mk.inj heq).1] at hform'
    cases hform'
  | .ite _ _ _, _, _, _, _, _, hclosure | .block _, _, _, _, _, _, hclosure
  | .cases _ _, _, _, _, _, _, hclosure | .apply _ _ _ _, _, _, _, _, _, hclosure =>
    nomatch hclosure
  | .closure _ _, _, _, _, _, hnone, _ => nomatch hnone
  | .inline _ _ _, hfree, _, _, _, _, _ => nomatch hfree.self
  | .inlineResult hnone _ hfunction _ _, hfree, he, hΔ, hbelow, _, _ => by
    obtain ⟨hf, -, hparts⟩ := he.apply_eq
    have hlt := hfunction.order_lt (hfree.part _ List.mem_cons_self) hf
      (hΔ.mono fun x hx => by simp [Expr.free, hx]) hbelow hnone rfl
    exact (Nat.cast_lt.2 (Ty.order_lt_of_functionParts? hparts).2).trans hlt

/-- Under replacements below a bound, the expression can be reduced. -/
def Expr.Progresses (n : ℕ∞) (e : Expr) : Prop :=
  ∀ (Δ : Scopes) (Γ Γ' : ParamTypes) (names : Names), SimplyTyped Γ e →
    Δ.Typed (· ∈ e.free) Γ Γ' → Δ.Replaces (Expr.Below n) → ∃ e' later, Reduces Δ names e e' later

theorem exists_reducesAll {es : List Expr} (h : ∀ e ∈ es, e.Progresses n)
    (hes : ∀ e ∈ es, SimplyTyped Γ e) (hΔ : Δ.Typed (· ∈ Expr.freeAll es) Γ Γ')
    (hbelow : Δ.Replaces (Expr.Below n)) (names : Names) :
    ∃ es' later, ReducesAll Δ names es es' later := by
  induction es generalizing names with
  | nil => exact ⟨[], names, .nil⟩
  | cons e es ih =>
    obtain ⟨he, hes⟩ := List.forall_mem_cons.1 hes
    obtain ⟨hone, hall⟩ := List.forall_mem_cons.1 h
    obtain ⟨e', names₁, he'⟩ := hone Δ Γ Γ' names he
      (hΔ.mono fun x hx => by simp [Expr.freeAll, hx]) hbelow
    obtain ⟨es', later, hes'⟩ := ih hall hes (hΔ.mono fun x hx => by simp [Expr.freeAll, hx]) names₁
    exact ⟨e' :: es', later, .cons he' hes'⟩

theorem exists_reducesArms {arms : List (Pattern × Expr)} (h : ∀ arm ∈ arms, arm.2.Progresses n)
    (harms : ∀ arm ∈ arms, SimplyTyped (Γ.hide arm.1.bindings) arm.2)
    (hΔ : Δ.Typed (· ∈ Expr.freeArms arms) Γ Γ') (hbelow : Δ.Replaces (Expr.Below n))
    (names : Names) : ∃ arms' later, ReducesArms Δ names arms arms' later := by
  induction arms generalizing names with
  | nil => exact ⟨[], names, .nil⟩
  | cons arm arms ih =>
    obtain ⟨p, body⟩ := arm
    obtain ⟨hbody, harms⟩ := List.forall_mem_cons.1 harms
    obtain ⟨hone, hall⟩ := List.forall_mem_cons.1 h
    obtain ⟨bound, ⟨names₁, Δ₁⟩, hbound, -⟩ := sure_bindNames body.free p.bindings ⟨names, Δ.push⟩
      (opened_over ⟨names, Δ⟩)
    have hΔ₁ := Scopes.Typed.arm
      (hΔ.mono fun x hx => mem_freeArms List.mem_cons_self hx.1 hx.2) hbound
    obtain ⟨body', names₂, hbody'⟩ := hone Δ₁ _ _ names₁ hbody hΔ₁ (hbelow.bindNames hbound)
    obtain ⟨arms', later, harms'⟩ := ih hall harms
      (hΔ.mono fun x hx => by simp [Expr.freeArms, hx]) names₂
    exact ⟨_, later, .cons hbound hbody' harms'⟩

theorem exists_reducesBlock {avoid : List String} {outer : List Scope} :
    ∀ {b : Block} {Δ : Scopes} {Γ Γ' : ParamTypes}
    (names : Names), (∀ part ∈ b.parts, part.Progresses n) → SimplyTypedBlock Γ b →
    Δ.Typed (· ∈ Expr.freeBlock b) Γ Γ' → Δ.Replaces (Expr.Below n) → Δ.Over outer →
    ∃ b' later, ReducesBlock avoid Δ names b b' later
  | .done none, _, _, _, names, _, _, _, _, _ => ⟨_, names, .unit⟩
  | .done (some e), Δ, Γ, Γ', names, h, .done he, hΔ, hbelow, _ => by
    obtain ⟨e', later, he'⟩ :=
      h e (List.mem_singleton_self _) Δ Γ Γ' names (he e rfl) hΔ hbelow
    exact ⟨_, later, .result he'⟩
  | .bind name ty mutable none rest, Δ, Γ, Γ', names, h, .bind _ hrest, hΔ, hbelow, hstack => by
    obtain ⟨bound, ⟨names₁, Δ₁⟩, hbound, hstack₁⟩ := sure_bindName name avoid ⟨names, Δ⟩ hstack
    obtain ⟨rest', later, hrest'⟩ := exists_reducesBlock (b := rest) names₁ h hrest
      (Scopes.Typed.bindName (hΔ.mono fun x hx => by simp [Expr.freeBlock, hx.1, hx.2]) hbound)
      (hbelow.bindName hbound) hstack₁
    exact ⟨_, later, .declare hbound hrest'⟩
  | .bind name ty mutable (some init) rest, Δ, Γ, Γ', names, h, .bind hinit hrest, hΔ, hbelow,
      hstack => by
    obtain ⟨hone, hall⟩ := List.forall_mem_cons.1 h
    obtain ⟨init', names₁, hinit'⟩ := hone Δ Γ Γ' names (hinit init rfl)
      (hΔ.mono fun x hx => by simp [Expr.freeBlock, Expr.freeOption, hx]) hbelow
    obtain ⟨bound, ⟨names₂, Δ₁⟩, hbound, hstack₁⟩ := sure_bindName name avoid ⟨names₁, Δ⟩ hstack
    obtain ⟨rest', later, hrest'⟩ := exists_reducesBlock names₂ hall hrest
      (Scopes.Typed.bindName (hΔ.mono fun x hx => by simp [Expr.freeBlock, hx.1, hx.2]) hbound)
      (hbelow.bindName hbound) hstack₁
    exact ⟨_, later, .bind hinit' hbound hrest'⟩
  | .exec e rest, Δ, Γ, Γ', names, h, .exec he hrest, hΔ, hbelow, hstack => by
    obtain ⟨hone, hall⟩ := List.forall_mem_cons.1 h
    obtain ⟨e', names₁, he'⟩ := hone Δ Γ Γ' names he
      (hΔ.mono fun x hx => by simp [Expr.freeBlock, hx]) hbelow
    obtain ⟨rest', later, hrest'⟩ := exists_reducesBlock names₁ hall hrest
      (hΔ.mono fun x hx => by simp [Expr.freeBlock, hx]) hbelow hstack
    exact ⟨_, later, .exec he' hrest'⟩

/-- A body under its parameters, which stand for arguments of their types. -/
theorem exists_inlined {params : List Param} {body : Expr} {args : List Expr}
    (h : body.Progresses n) (hbody : SimplyTyped (Γ.params params) body)
    (hΔ : Δ.Typed (fun x => x ∈ body.free ∧ x ∉ params.map Param.name) Γ Γ')
    (hbelow : Δ.Replaces (Expr.Below n)) (hargs : ∀ arg ∈ args, SimplyTyped Γ' arg)
    (hargsBelow : ∀ arg ∈ args, arg.Below n) (htypes : params.map Param.ty = args.map Expr.ty)
    (names : Names) : ∃ Δ₁ e' later, SubstitutesAll ⟨names, Δ.push⟩ params args ⟨names, Δ₁⟩ ∧
      Reduces Δ₁ names body e' later := by
  obtain ⟨_, ⟨names₁, Δ₁⟩, hrun, -⟩ := sure_substituteAll params args ⟨names, Δ.push⟩
    (opened_over ⟨names, Δ⟩)
  have hall := substituteAll_eq_ok hrun (by simpa using congrArg List.length htypes)
  obtain rfl : names = names₁ := hall.names.symm
  obtain ⟨e', later, he'⟩ := h Δ₁ _ _ names hbody (Scopes.Typed.inline hΔ hall hargs htypes)
    (hbelow.inlined hargsBelow hall)
  exact ⟨Δ₁, e', later, hall, he'⟩

/-- An application, when its parts and all that is without redexes at smaller types progress. -/
theorem progresses_apply {function : Expr} {args : List Expr} {ty : Ty}
    (hargs : ∀ arg ∈ args, arg.Progresses n) (hfunction : function.Progresses n)
    (hbody : ∀ params body, function.closure? = some (params, body) → n = ⊤ ∧ body.Progresses n)
    (hsmaller : ∀ m < n, ∀ body : Expr, body.RedexFree → body.Progresses m)
    (hfree : n = ⊤ ∨ function.RedexFree) : Expr.Progresses n ⟨.apply function args, ty⟩ := by
  intro Δ Γ Γ' names he hΔ hbelow
  obtain ⟨hf, has, hparts⟩ := he.apply_eq
  have hΔargs : Δ.Typed (· ∈ Expr.freeAll args) Γ Γ' := hΔ.mono fun x hx => by simp [Expr.free, hx]
  have hΔfunction : Δ.Typed (· ∈ function.free) Γ Γ' := hΔ.mono fun x hx => by simp [Expr.free, hx]
  obtain ⟨args', names₁, hargs'⟩ := exists_reducesAll hargs has hΔargs hbelow names
  obtain ⟨has', htypes⟩ := hargs'.typed hΔargs has
  have hargsFree := hargs'.redexFree hbelow
  cases hclosure : function.closure? with
  | some c =>
    obtain ⟨params, body⟩ := c
    obtain ⟨rfl, hprogress⟩ := hbody params body hclosure
    obtain ⟨fty, rfl⟩ := closure?_eq_some hclosure
    obtain ⟨hbodyTyped, rfl⟩ := hf.closure_eq
    obtain ⟨hparams, -⟩ := Prod.mk.inj (Option.some.inj hparts)
    obtain ⟨Δ₁, e', later, hall, he'⟩ := exists_inlined hprogress hbodyTyped
      (hΔfunction.mono fun x hx => List.mem_filter.2 ⟨hx.1, by simpa using hx.2⟩) hbelow has'
      (fun arg harg => ⟨hargsFree arg harg, ENat.natCast_lt_top _⟩) (hparams.trans htypes.symm)
      names₁
    exact ⟨e', later, .inline hargs' hall he'⟩
  | none =>
    obtain ⟨function', names₂, hfunction'⟩ := hfunction Δ Γ Γ' names₁ hf hΔfunction hbelow
    cases hclosure' : function'.closure? with
    | none => exact ⟨_, names₂, .apply hclosure hargs' hfunction' hclosure'⟩
    | some c =>
      obtain ⟨params, body⟩ := c
      obtain ⟨fty, rfl⟩ := closure?_eq_some hclosure'
      obtain ⟨hf', hty⟩ := hfunction'.typed hΔfunction hf
      obtain ⟨hbodyTyped, rfl⟩ := hf'.closure_eq
      have hsmall := (Ty.order_lt_of_functionParts? hparts).1
      rw [← hty] at hparts
      obtain ⟨hparams, -⟩ := Prod.mk.inj (Option.some.inj hparts)
      have hlt : (function.ty.order : ℕ∞) < n := by
        rcases hfree with rfl | hfree
        · exact ENat.natCast_lt_top _
        · exact hfunction'.order_lt hfree hf hΔfunction hbelow hclosure hclosure'
      have hbodyFree : body.RedexFree := by
        have hdone := hfunction'.done (Q := fun _ => True) (hbelow.mono fun _ he => he.1.done)
          function.patternsSatisfy_true
        exact hdone.redexFree.part body (List.mem_singleton_self _)
      have hargsBelow : ∀ arg ∈ args', arg.Below function.ty.order := by
        refine fun arg harg => ⟨hargsFree arg harg, Nat.cast_lt.2 (hsmall _ ?_)⟩
        rw [← htypes]
        exact List.mem_map_of_mem harg
      obtain ⟨Δ₁, e', later, hall, he'⟩ := exists_inlined
        (hsmaller function.ty.order hlt body hbodyFree) hbodyTyped (.empty _ _) .empty has'
        hargsBelow (hparams.trans htypes.symm) names₂
      exact ⟨e', later, .inlineResult hclosure hargs' hfunction' hall he'⟩

/-- One node, when all of smaller depth progresses and so does all at lower types. -/
theorem progresses_of_smaller {e : Expr} (hfree : n = ⊤ ∨ e.RedexFree)
    (hparts : ∀ part : Expr, part.depth < e.depth → (n = ⊤ ∨ part.RedexFree) → part.Progresses n)
    (hlower : ∀ m < n, ∀ body : Expr, body.RedexFree → body.Progresses m) : e.Progresses n := by
  have hpart : ∀ part ∈ e.form.parts, part.Progresses n := fun part hpart =>
    hparts part (depth_lt_of_mem_parts hpart) (hfree.imp_right fun h => h.part part hpart)
  intro Δ Γ Γ' names he hΔ hbelow
  cases he with
  | head hform htyped =>
    obtain ⟨parts', later, hparts'⟩ := exists_reducesAll (parts_of_head? hform ▸ hpart) htyped
      (hΔ.mono fun x hx => (free_depth_of_head? hform).1 ▸ hx) hbelow names
    exact ⟨_, later, .head hform hparts'⟩
  | var => exact ⟨_, names, .var⟩
  | @apply _ function args ty hf has hty =>
    obtain ⟨hfunction, hargs⟩ := List.forall_mem_cons.1 hpart
    refine progresses_apply hargs hfunction (fun params body hclosure => ?_) hlower
      (hfree.imp_right fun h => h.part function List.mem_cons_self) Δ Γ Γ' names
      (.apply hf has hty) hΔ hbelow
    have htop : n = ⊤ := by
      refine hfree.resolve_right fun h => ?_
      have hredex := h.self
      simp [Expr.isRedex, hclosure] at hredex
    obtain ⟨fty, rfl⟩ := closure?_eq_some hclosure
    have hbody := depth_lt_of_mem_parts (e := ⟨.closure params body, fty⟩) List.mem_cons_self
    have happly := depth_lt_of_mem_parts
      (e := ⟨.apply ⟨.closure params body, fty⟩ args, ty⟩) List.mem_cons_self
    exact ⟨htop, hparts body (hbody.trans happly) (.inl htop)⟩
  | @closure _ params body hbody =>
    obtain ⟨bound, ⟨names₁, Δ₁⟩, hbound, -⟩ := sure_bindNames body.free (params.map Param.name)
      ⟨names, Δ.push⟩ (opened_over ⟨names, Δ⟩)
    obtain ⟨body', later, hbody'⟩ := hpart body (List.mem_singleton_self _) Δ₁ _ _ names₁ hbody
      (Scopes.Typed.closure (hΔ.mono fun x hx => List.mem_filter.2 ⟨hx.1, by simpa using hx.2⟩)
        hbound) (hbelow.bindNames hbound)
    exact ⟨_, later, .closure hbound hbody'⟩
  | block hbody =>
    obtain ⟨body', later, hbody'⟩ := exists_reducesBlock names hpart hbody hΔ.push hbelow.push
      (opened_over ⟨names, Δ⟩)
    exact ⟨_, later, .block hbody'⟩
  | @ite _ condition yes no ty hc hy hn =>
    obtain ⟨condition', names₁, hcondition⟩ := hpart condition (by simp [Form.parts]) Δ Γ Γ' names
      hc (hΔ.mono fun x hx => by simp [Expr.free, hx]) hbelow
    obtain ⟨yes', names₂, hyes⟩ := hpart yes (by simp [Form.parts]) Δ Γ Γ' names₁ hy
      (hΔ.mono fun x hx => by simp [Expr.free, hx]) hbelow
    obtain ⟨no', later, hno⟩ := hpart no (by simp [Form.parts]) Δ Γ Γ' names₂ hn
      (hΔ.mono fun x hx => by simp [Expr.free, hx]) hbelow
    exact ⟨_, later, .ite hcondition hyes hno⟩
  | @cases _ scrutinee arms ty hs has =>
    obtain ⟨hscrutinee, harms⟩ := List.forall_mem_cons.1 hpart
    obtain ⟨scrutinee', names₁, hscrutinee'⟩ := hscrutinee Δ Γ Γ' names hs
      (hΔ.mono fun x hx => by simp [Expr.free, hx]) hbelow
    obtain ⟨arms', later, harms'⟩ := exists_reducesArms (List.forall_mem_map.1 harms) has
      (hΔ.mono fun x hx => by simp [Expr.free, hx]) hbelow names₁
    exact ⟨_, later, .cases hscrutinee' harms'⟩

end Below

/-- By induction on the bound of the types, and for each bound on the depth. -/
theorem progresses (n : ℕ∞) (e : Expr) (hfree : n = ⊤ ∨ e.RedexFree) : e.Progresses n := by
  induction n using WellFoundedLT.induction generalizing e with
  | ind n hlower =>
    induction hdepth : e.depth using Nat.strong_induction_on generalizing e with
    | h d hparts =>
      subst hdepth
      exact progresses_of_smaller hfree (fun part hpart h => hparts _ hpart part h rfl)
        fun m hm body hbody => hlower m hm body (.inr hbody)

/-- With enough fuel every reduction of a simply typed expression returns, all with one value. -/
theorem reduce_terminates {e : Expr} (h : SimplyTyped (fun _ => none) e) (names : Names) :
    ∃ e' later n, ∀ fuel ≥ n, ∃ r,
      whole fuel e ⟨names, .empty⟩ = (.ok r, ⟨later, .empty⟩) ∧ r.value = e' := by
  obtain ⟨e', later, hrules⟩ :=
    progresses ⊤ e (.inl rfl) .empty _ _ names h (.empty _ _) .empty
  obtain ⟨n, hruns⟩ := hrules.runs
  refine ⟨e', later, n, fun fuel hfuel => ?_⟩
  obtain ⟨r, hr, hvalue⟩ := hruns fuel hfuel
  exact ⟨r, (run_bind_eq_ok _ _).2 ⟨_, _, hr, rfl⟩, hvalue⟩

theorem simplyTyped_pairWithOuter : SimplyTyped (fun _ => none) pairWithOuter := by
  have hparam : ∀ {Γ : ParamTypes} {x : String} {t : Ty}, Γ x = some t →
      SimplyTyped Γ (Expr.var x t) := fun h => .var fun t' ht' => Option.some.inj (h.symm.trans ht')
  refine .apply (.closure (.closure (.apply (hparam rfl) ?_ rfl))) ?_ rfl
  · exact List.forall_mem_singleton.2 (hparam rfl)
  · refine List.forall_mem_singleton.2 (.closure (.head rfl ?_))
    exact List.forall_mem_cons.2 ⟨hparam rfl, List.forall_mem_singleton.2 (.var nofun)⟩

/-- A function that becomes a closure only when its variable is replaced. -/
theorem reduce_pairWithOuter_terminates : SimplyTyped (fun _ => none) pairWithOuter ∧
    ∃ e' later n, ∀ fuel ≥ n, ∃ r,
      whole fuel pairWithOuter ⟨.empty, .empty⟩ = (.ok r, ⟨later, .empty⟩) ∧ r.value = e' :=
  ⟨simplyTyped_pairWithOuter, reduce_terminates simplyTyped_pairWithOuter .empty⟩

end ViewCircuit
