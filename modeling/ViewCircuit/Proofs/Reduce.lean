import ViewCircuit.Proofs.Traversal

/-! Reduction keeps the value of every expression whose blocks have their bindings apart. -/
namespace ViewCircuit

open List (Forall₂)

mutual
/-- In every block, a binding whose name is made from the name of a later one was drawn before: it
is not a name that the later one can still get. -/
inductive LetsApart (names : Names) : Expr → Prop
  | head {e : Expr} {head : Head} {parts : List Expr} : e.form.head? = some (head, parts) →
      (∀ part ∈ parts, LetsApart names part) → LetsApart names e
  | var {name : String} {ty : Ty} : LetsApart names ⟨.var name, ty⟩
  | apply {function : Expr} {args : List Expr} {ty : Ty} : LetsApart names function →
      (∀ arg ∈ args, LetsApart names arg) → LetsApart names ⟨.apply function args, ty⟩
  | closure {params : List Param} {body : Expr} {ty : Ty} : LetsApart names body →
      LetsApart names ⟨.closure params body, ty⟩
  | block {body : Block} {ty : Ty} : LetsApartBlock names [] body →
      LetsApart names ⟨.block body, ty⟩
  | ite {condition yes no : Expr} {ty : Ty} : LetsApart names condition → LetsApart names yes →
      LetsApart names no → LetsApart names ⟨.ite condition yes no, ty⟩
  | cases {scrutinee : Expr} {arms : List (Pattern × Expr)} {ty : Ty} : LetsApart names scrutinee →
      (∀ arm ∈ arms, LetsApart names arm.2) → LetsApart names ⟨.cases scrutinee arms, ty⟩

/-- The rest of a block after bindings of the given names. -/
inductive LetsApartBlock (names : Names) : List String → Block → Prop
  | done {earlier : List String} {result : Option Expr} :
      (∀ e ∈ result, LetsApart names e) → LetsApartBlock names earlier (.done result)
  | bind {earlier : List String} {name : String} {ty : Ty} {mutable : Bool} {init : Option Expr}
      {rest : Block} : (∀ e ∈ init, LetsApart names e) →
      (∀ other ∈ earlier, Names.Derived name other → names.Spent other) →
      LetsApartBlock names (name :: earlier) rest →
      LetsApartBlock names earlier (.bind name ty mutable init rest)
  | exec {earlier : List String} {e : Expr} {rest : Block} : LetsApart names e →
      LetsApartBlock names earlier rest → LetsApartBlock names earlier (.exec e rest)
end

mutual
theorem LetsApart.later {names later : Names} (h : names.Later later) :
    ∀ {e : Expr}, LetsApart names e → LetsApart later e
  | _, .head hform hparts => .head hform fun part hpart => (hparts part hpart).later h
  | _, .var => .var
  | _, .apply hf hargs => .apply (hf.later h) fun arg harg => (hargs arg harg).later h
  | _, .closure hbody => .closure (hbody.later h)
  | _, .block hbody => .block (hbody.later h)
  | _, .ite hc hy hn => .ite (hc.later h) (hy.later h) (hn.later h)
  | _, .cases hs harms => .cases (hs.later h) fun arm harm => (harms arm harm).later h
theorem LetsApartBlock.later {names later : Names} (h : names.Later later) :
    ∀ {earlier : List String} {b : Block}, LetsApartBlock names earlier b →
    LetsApartBlock later earlier b
  | _, _, .done hresult => .done fun e he => (hresult e he).later h
  | _, _, .bind hinit hapart hrest =>
    .bind (fun e he => (hinit e he).later h)
      (fun other hother hd => (hapart other hother hd).later h) (hrest.later h)
  | _, _, .exec he hrest => .exec (he.later h) (hrest.later h)
end

theorem LetsApart.parts {names : Names} {e : Expr} (h : LetsApart names e) {head : Head}
    {parts : List Expr} (hform : e.form.head? = some (head, parts)) :
    ∀ part ∈ parts, LetsApart names part := by
  cases h with
  | head hform' hparts =>
    obtain ⟨rfl, rfl⟩ := Prod.mk.inj (Option.some.inj (hform'.symm.trans hform))
    exact hparts
  | _ => cases hform

theorem LetsApart.closure_body {names : Names} {params : List Param} {body : Expr} {ty : Ty}
    (h : LetsApart names ⟨.closure params body, ty⟩) : LetsApart names body := by
  cases h with
  | head hform _ => cases hform
  | closure hbody => exact hbody

mutual
/-- A renamed pattern matches the same values and binds them to the new names. -/
theorem bind?_rename (g : String → String) : ∀ (p : Pattern) (v : Val), (p.rename g).bind? v =
    (p.bind? v).map (List.map fun b => (g b.1, b.2))
  | .ident _ _, _ | .wildcard, _ => rfl
  | .tuple items, v => by
    cases v with
    | node shape parts =>
      cases shape with
      | tuple => simpa only [Pattern.rename, Pattern.bind?] using bindAll?_rename g items parts
      | _ => rfl
    | _ => rfl
  | .some inner, v => by
    simp only [Pattern.rename, Pattern.bind?, bind?_rename g inner v]
    split <;> rfl
  | .literal value, v => by
    cases v with
    | atom a =>
      simp only [Pattern.rename, Pattern.bind?]
      split <;> rfl
    | _ => rfl
theorem bindAll?_rename (g : String → String) : ∀ (ps : List Pattern) (vs : List Val),
    Pattern.bindAll? (Pattern.renameAll g ps) vs =
      (Pattern.bindAll? ps vs).map (List.map fun b => (g b.1, b.2))
  | [], [] => rfl
  | [], _ :: _ | _ :: _, [] => rfl
  | p :: ps, v :: vs => by
    simp only [Pattern.renameAll, Pattern.bindAll?, bind?_rename g p v, bindAll?_rename g ps vs]
    cases p.bind? v with
    | none => rfl
    | some bs =>
      cases Pattern.bindAll? ps vs with
      | none => rfl
      | some bs' => simp
end

namespace Reduce

/-- Scopes fit for a reduction: they know the variables of their replacements, and these have their
bindings apart. -/
structure Ready (s : Reducer) : Prop where
  covers : s.scopes.Covers
  apart : s.scopes.Replaces (LetsApart s.names)

/-- What a reduction guarantees: scopes are as before, and what it returns approximates the
expression under them. -/
structure Reduced (rt : Runtime) (s : Reducer) (e e' : Expr) (s' : Reducer) : Prop where
  scopes : s'.scopes = s.scopes
  later : s.names.Later s'.names
  apart : LetsApart s'.names e'
  approx : ∀ k ρ ρ', Agree rt k s.scopes (· ∈ e.free) ρ ρ' → Approx rt k ρ e ρ' e'

def Correct (rt : Runtime) (f : Expr → Reduce (Reduct Expr)) : Prop :=
  ∀ e s r s', Ready s → LetsApart s.names e → f e s = (.ok r, s') → Reduced rt s e r.value s'

theorem Ready.later {s s' : Reducer} (h : Ready s) (hscopes : s'.scopes = s.scopes)
    (hlater : s.names.Later s'.names) : Ready s' := by
  refine ⟨hscopes ▸ h.covers, ?_⟩
  rw [hscopes]
  exact h.apart.mono fun _ he => he.later hlater

theorem Ready.binds {s s' : Reducer} {name bound : String} {avoid : List String} (h : Ready s)
    (hbinds : Binds s name avoid bound s') : Ready s' :=
  ⟨hbinds.covers h.covers, hbinds.replaces (h.apart.mono fun _ he => he.later hbinds.later)⟩

theorem Ready.bindsAll {s s' : Reducer} {names bounds avoid : List String} (h : Ready s)
    (hbinds : BindsAll avoid s names bounds s') : Ready s' := by
  induction hbinds with
  | nil => exact h
  | cons hone _ ih => exact ih (h.binds hone)

theorem Ready.opened {s : Reducer} (h : Ready s) : Ready (opened s) :=
  ⟨h.covers.push, h.apart.push⟩

theorem scopes_of_pop {Δ Δ' Δ₀ : Scopes} {top : Scope} (hstack : Δ.stack = top :: Δ₀.stack)
    (hpop : Δ.pop = .ok Δ') : Δ' = Δ₀ := by
  unfold Scopes.pop at hpop
  rw [hstack] at hpop
  cases hpop
  rfl

theorem topOutside_opened (avoid : List String) (s : Reducer) : TopOutside avoid (opened s) := by
  intro top rest hstack
  obtain ⟨rfl, -⟩ := List.cons.inj hstack
  exact fun y fresh hy => absurd hy Scope.not_has_empty

section Correct

variable {rt : Runtime} {f : Expr → Reduce (Reduct Expr)} {s s' : Reducer}

/-- As `Reduced`, for parts done one after the other. -/
structure ReducedAll (rt : Runtime) (s : Reducer) (es es' : List Expr) (s' : Reducer) : Prop where
  scopes : s'.scopes = s.scopes
  later : s.names.Later s'.names
  apart : ∀ e ∈ es', LetsApart s'.names e
  approx : ∀ k ρ ρ', Agree rt k s.scopes (· ∈ Expr.freeAll es) ρ ρ' →
    Forall₂ (fun e e' => Approx rt k ρ e ρ' e') es es'

theorem Correct.each (hf : Correct rt f) {es : List Expr} {rs : List (Reduct Expr)}
    (h : Each f s es rs s') (hs : Ready s) (hes : ∀ e ∈ es, LetsApart s.names e) :
    ReducedAll rt s es (rs.map Reduct.value) s' := by
  induction h with
  | nil => exact ⟨rfl, .refl _, by simp, fun _ _ _ _ => .nil⟩
  | @cons s s₁ s' e es r rs hr _ ih =>
    have hone := hf e s r s₁ hs (hes e (by simp)) hr
    have hrest := ih (hs.later hone.scopes hone.later) fun e he =>
      (hes e (by simp [he])).later hone.later
    refine ⟨hrest.scopes.trans hone.scopes, hone.later.trans hrest.later, ?_, ?_⟩
    · simpa using ⟨hone.apart.later hrest.later, by simpa using hrest.apart⟩
    · intro k ρ ρ' hagree
      refine .cons (hone.approx k ρ ρ' (hagree.mono (Nat.le_refl k) fun x hx => ?_))
        (hrest.approx k ρ ρ' ?_)
      · exact mem_freeAll.2 ⟨e, by simp, hx⟩
      · rw [hone.scopes]
        refine hagree.mono (Nat.le_refl k) fun x hx => ?_
        obtain ⟨e', he', hx⟩ := mem_freeAll.1 hx
        exact mem_freeAll.2 ⟨e', by simp [he'], hx⟩

theorem Correct.head (hf : Correct rt f) (hkeep : Keeping f) {e : Expr} {head : Head}
    {parts : List Expr} (hform : e.form.head? = some (head, parts)) (hs : Ready s)
    (he : LetsApart s.names e) {r : Reduct Expr} (h : node f e s = (.ok r, s')) :
    Reduced rt s e r.value s' := by
  obtain ⟨rs, heach, hvalue⟩ := node_head hkeep hform h
  have hall := hf.each heach hs (he.parts hform)
  have hlength : (rs.map Reduct.value).length = parts.length := by simpa using heach.length_eq
  have hform' : r.value.form.head? = some (head, rs.map Reduct.value) := by
    rw [hvalue]
    exact head?_build hform hlength
  refine ⟨hall.scopes, hall.later, .head hform' hall.apart, fun k ρ ρ' hagree => ?_⟩
  refine approx_head hform hform' (by rw [hvalue]) (hall.approx k ρ ρ' ?_)
  rwa [(free_depth_of_head? hform).1] at hagree

/-- A variable is approximated by what stands for it. -/
theorem reduced_var {name : String} {ty : Ty} (hs : Ready s) {r : Reduct Expr}
    (h : node f ⟨.var name, ty⟩ s = (.ok r, s')) : Reduced rt s ⟨.var name, ty⟩ r.value s' := by
  have hvar : ∀ {e : Expr}, (∀ ρ' w l, Evals rt ρ' (s.scopes.image name) w l → Evals rt ρ' e w l) →
      ∀ k ρ ρ', Agree rt k s.scopes (· ∈ Expr.free ⟨.var name, ty⟩) ρ ρ' →
        Approx rt k ρ ⟨.var name, ty⟩ ρ' e := by
    intro e he k ρ ρ' hagree v m hv _
    obtain ⟨hlookup, rfl⟩ := evals_var.1 hv
    obtain ⟨w, l, hw, hvw⟩ := hagree name (by simp [Expr.free]) v hlookup
    exact ⟨w, l, he ρ' w l hw, hvw⟩
  replace h := (occurrence_eq ⟨.var name, ty⟩ name).symm.trans h
  unfold Scopes.image Scopes.occurrence at hvar
  rcases hlookup : s.scopes.lookup? name with _ | e | fresh | _ <;> rw [hlookup] at h hvar <;>
    cases h
  · exact ⟨rfl, .refl _, .var, hvar fun ρ' w l hw => evals_var.2 (evals_var.1 hw)⟩
  · obtain ⟨scope, hscope, hmem⟩ := Scopes.mem_of_lookup? hlookup
    exact ⟨rfl, .refl _, hs.apart scope hscope name e hmem, hvar fun ρ' w l hw => hw⟩
  · exact ⟨rfl, .refl _, .var, hvar fun ρ' w l hw => evals_var.2 (evals_var.1 hw)⟩
  · exact ⟨rfl, .refl _, .var, hvar fun ρ' w l hw => evals_var.2 (evals_var.1 hw)⟩

theorem Correct.ite (hf : Correct rt f) (hkeep : Keeping f) {c y n : Expr} {ty : Ty} (hs : Ready s)
    (he : LetsApart s.names ⟨.ite c y n, ty⟩) {r : Reduct Expr}
    (h : node f ⟨.ite c y n, ty⟩ s = (.ok r, s')) : Reduced rt s ⟨.ite c y n, ty⟩ r.value s' := by
  obtain ⟨a, s₁, ha, h⟩ := (run_bind_eq_ok _ _).1 h
  obtain ⟨b, s₂, hb, h⟩ := (run_bind_eq_ok _ _).1 h
  obtain ⟨d, s₃, hd, h⟩ := (run_bind_eq_ok _ _).1 h
  cases h
  have heach : Each f s [c, y, n] [a, b, d] s' := .cons ha (.cons hb (.cons hd .nil))
  have hparts : ∀ e ∈ [c, y, n], LetsApart s.names e := by
    cases he with
    | head hform _ => cases hform
    | ite hc hy hn => simp [hc, hy, hn]
  have hall := hf.each heach hs hparts
  rw [value_ite hkeep heach]
  refine ⟨hall.scopes, hall.later, ?_, fun k ρ ρ' hagree => ?_⟩
  · have := hall.apart
    simp only [List.map_cons, List.map_nil, List.mem_cons, List.not_mem_nil, or_false,
      forall_eq_or_imp, forall_eq] at this
    exact .ite this.1 this.2.1 this.2.2
  · have := hall.approx k ρ ρ' (hagree.mono (Nat.le_refl k) fun x hx => by
      simpa [Expr.free, Expr.freeAll] using hx)
    cases this with
    | cons hc hrest =>
      cases hrest with
      | cons hy hrest =>
        cases hrest with
        | cons hn _ => exact approx_ite hc hy hn

theorem Correct.closure (hf : Correct rt f) (hkeep : Keeping f) {params : List Param} {body : Expr}
    {ty : Ty} (hs : Ready s) (he : LetsApart s.names ⟨.closure params body, ty⟩) {r : Reduct Expr}
    (h : node f ⟨.closure params body, ty⟩ s = (.ok r, s')) :
    Reduced rt s ⟨.closure params body, ty⟩ r.value s' := by
  obtain ⟨bound, s₁, b, s₂, hbound, hb, hpop, hnames, hvalue⟩ := closure_eq_ok hkeep h
  have hbinds := bindNames_eq_ok hbound
  have hbody : LetsApart s.names body := by
    cases he with
    | head hform _ => cases hform
    | closure hbody => exact hbody
  have hone := hf body s₁ b s₂ (hs.opened.bindsAll hbinds) (hbody.later hbinds.later) hb
  obtain ⟨top, hstack⟩ := hbinds.stack (s := opened s) rfl
  rw [← hone.scopes] at hstack
  rw [hvalue]
  refine ⟨scopes_of_pop hstack hpop, ?_, .closure (hnames ▸ hone.apart), fun k ρ ρ' hagree => ?_⟩
  · rw [hnames]
    exact hbinds.later.trans hone.later
  · have hlength : bound.length = params.length := by simpa using hbinds.length_eq
    refine approx_closure (by simp [renameParams, hlength]) fun j hj vs ws hvsws hargs =>
      hone.approx j _ _ ?_
    rw [map_name_renameParams hlength]
    have hopen : Agree rt j (opened s).scopes (fun x => x ∈ body.free ∧ x ∉ params.map Param.name)
        ρ ρ' :=
      hagree.mono (Nat.le_of_lt hj) fun x hx => List.mem_filter.2 ⟨hx.1, by simpa using hx.2⟩
    have hinner := hbinds.agree hs.opened.covers hopen (fun x hx => hx.1) hvsws
      (by simpa using hargs)
    refine hinner.mono (Nat.le_refl j) fun x hx => ⟨hx, ?_⟩
    by_cases hmem : x ∈ params.map Param.name
    · exact .inl hmem
    · exact .inr ⟨hx, hmem⟩

/-- An optional part is done or absent on both sides. -/
theorem Correct.option (hf : Correct rt f) {o : Option Expr} (hs : Ready s)
    (ho : ∀ e ∈ o, LetsApart s.names e) {r : Reduct (Option Expr)}
    (h : option f o s = (.ok r, s')) : s'.scopes = s.scopes ∧ s.names.Later s'.names ∧
      (∀ e ∈ r.value, LetsApart s'.names e) ∧
      ∀ k ρ ρ', Agree rt k s.scopes (· ∈ Expr.freeOption o) ρ ρ' →
        Option.Rel (fun e e' => Approx rt k ρ e ρ' e') o r.value := by
  cases o with
  | none =>
    cases h
    exact ⟨rfl, .refl _, nofun, fun _ _ _ _ => .none⟩
  | some e =>
    obtain ⟨a, s₁, ha, h⟩ := (run_bind_eq_ok _ _).1 h
    cases h
    have hone := hf e s a s' hs (ho e rfl) ha
    refine ⟨hone.scopes, hone.later, ?_, fun k ρ ρ' hagree => .some (hone.approx k ρ ρ' hagree)⟩
    rintro e' ⟨⟩
    exact hone.apart

/-- As `Reduced`, for the rest of a block after bindings of the given names. -/
structure ReducedBlock (rt : Runtime) (s : Reducer) (outer : List Scope) (earlier : List String)
    (b b' : Block) (s' : Reducer) : Prop where
  stack : ∃ top, s'.scopes.stack = top :: outer
  later : s.names.Later s'.names
  apart : ∀ earlier', (∀ m ∈ earlier', m ∈ earlier ∨ s'.names.Spent m) →
    LetsApartBlock s'.names earlier' b'
  approx : ∀ k ρ ρ', Agree rt k s.scopes (· ∈ Expr.freeBlock b) ρ ρ' → ApproxBlock rt k ρ b ρ' b'

theorem Correct.block (hf : Correct rt f) {avoid : List String} {outer : List Scope} :
    ∀ {b : Block} {s s' : Reducer} {earlier : List String} {r : Reduct Block}, Ready s →
    (∃ top, s.scopes.stack = top :: outer) → LetsApartBlock s.names earlier b →
    (∀ x ∈ Expr.freeBlock b, x ∈ avoid ∨ x ∈ earlier) → block f avoid b s = (.ok r, s') →
    ReducedBlock rt s outer earlier b r.value s'
  | .done result, s, s', earlier, r, hs, ⟨top, hstack⟩, .done hresult, _, h => by
    obtain ⟨a, s₁, ha, h⟩ := (run_bind_eq_ok _ _).1 h
    cases h
    obtain ⟨hscopes, hlater, hapart, happrox⟩ := hf.option hs hresult ha
    exact ⟨⟨top, hscopes ▸ hstack⟩, hlater, fun _ _ => .done hapart,
      fun k ρ ρ' hagree => approxBlock_done (happrox k ρ ρ' hagree)⟩
  | .exec e rest, s, s', earlier, r, hs, ⟨top, hstack⟩, .exec he hrest, hfree, h => by
    obtain ⟨a, s₁, ha, h⟩ := (run_bind_eq_ok _ _).1 h
    obtain ⟨b, s₂, hb, h⟩ := (run_bind_eq_ok _ _).1 h
    cases h
    have hone := hf e s a s₁ hs he ha
    have hblock := hf.block (hs.later hone.scopes hone.later) ⟨top, hone.scopes ▸ hstack⟩
      (hrest.later hone.later) (fun x hx => hfree x (by simp [Expr.freeBlock, hx])) hb
    refine ⟨hblock.stack, hone.later.trans hblock.later, fun earlier' hearlier =>
      .exec (hone.apart.later hblock.later) (hblock.apart earlier' hearlier),
      fun k ρ ρ' hagree => approxBlock_exec (hone.approx k ρ ρ' ?_) (hblock.approx k ρ ρ' ?_)⟩
    · exact hagree.mono (Nat.le_refl k) fun x hx => by simp [Expr.freeBlock, hx]
    · rw [hone.scopes]
      exact hagree.mono (Nat.le_refl k) fun x hx => by simp [Expr.freeBlock, hx]
  | .bind name ty mutable init rest, s, s', earlier, r, hs, ⟨top, hstack⟩,
      .bind hinit hnames hrest, hfree, h => by
    obtain ⟨a, s₁, ha, h⟩ := (run_bind_eq_ok _ _).1 h
    obtain ⟨bound, s₂, hbound, h⟩ := (run_bind_eq_ok _ _).1 h
    obtain ⟨b, s₃, hb, h⟩ := (run_bind_eq_ok _ _).1 h
    cases h
    obtain ⟨hscopes, hlater, hapart, happrox⟩ := hf.option hs hinit ha
    have hready := hs.later hscopes hlater
    have hbinds := bindName_eq_ok hbound
    have hstack' : ∃ top, s₂.scopes.stack = top :: outer := by
      obtain ⟨top', rest', c, hstack₁, hstack₂, -⟩ := hbinds.scopes
      rw [hscopes, hstack] at hstack₁
      obtain ⟨rfl, rfl⟩ := List.cons.inj hstack₁
      exact ⟨_, hstack₂⟩
    have hfree' : ∀ x ∈ Expr.freeBlock rest, x ∈ avoid ∨ x ∈ name :: earlier := by
      intro x hx
      by_cases hne : x = name
      · exact .inr (by simp [hne])
      · rcases hfree x (by simp [Expr.freeBlock, hx, hne]) with h | h
        · exact .inl h
        · exact .inr (List.mem_cons_of_mem _ h)
    have hblock := hf.block (hready.binds hbinds) hstack'
      ((hrest.later hlater).later hbinds.later) hfree' hb
    -- the new name is the old one, or one made from it that was drawn just now
    have hchoice : bound = name ∨ Names.Derived name bound ∧ s₂.names.Spent bound := by
      rcases hbinds.choice with ⟨heq, -⟩ | ⟨-, -, hspent, n, rfl, -⟩
      · exact .inl heq
      · exact .inr ⟨.once n, hspent⟩
    have hdrawn : ∀ m ∈ earlier, Names.Derived bound m → s.names.Spent m := by
      intro m hm hd
      rcases hchoice with rfl | ⟨hbound, -⟩
      · exact hnames m hm hd
      · exact hnames m hm (hbound.trans hd)
    have hall := (hlater.trans hbinds.later).trans hblock.later
    refine ⟨hblock.stack, hall, fun earlier' hearlier => .bind ?_ ?_ ?_, fun k ρ ρ' hagree => ?_⟩
    · exact fun e he => (hapart e he).later (hbinds.later.trans hblock.later)
    · intro m hm hd
      rcases hearlier m hm with hm | hspent
      · exact (hdrawn m hm hd).later hall
      · exact hspent
    · refine hblock.apart _ fun m hm => ?_
      rcases List.mem_cons.1 hm with rfl | hm
      · rcases hchoice with rfl | ⟨-, hspent⟩
        · exact .inl List.mem_cons_self
        · exact .inr (hspent.later hblock.later)
      · rcases hearlier m hm with hm | hspent
        · exact .inl (List.mem_cons_of_mem _ hm)
        · exact .inr hspent
    · have hinit := happrox k ρ ρ' (hagree.mono (Nat.le_refl k) fun x hx => by
        simp [Expr.freeBlock, hx])
      have hsafe : ∀ x, (x ∈ Expr.freeBlock rest ∧ x ≠ name) → x ≠ name →
          x ∈ avoid ∨ (Names.Derived name x → s₁.names.Spent x) := by
        intro x hx hne
        rcases hfree x (by simp [Expr.freeBlock, hx.1, hne]) with h | h
        · exact .inl h
        · exact .inr fun hd => (hnames x h hd).later hlater
      have hrestAgree :
          Agree rt k s₁.scopes (fun x => x ∈ Expr.freeBlock rest ∧ x ≠ name) ρ ρ' := by
        rw [hscopes]
        exact hagree.mono (Nat.le_refl k) fun x hx => by simp [Expr.freeBlock, hx.1, hx.2]
      have hcover : ∀ x, x ∈ Expr.freeBlock rest →
          x = name ∨ (x ∈ Expr.freeBlock rest ∧ x ≠ name) := by
        intro x hx
        by_cases hne : x = name
        · exact .inl hne
        · exact .inr ⟨hx, hne⟩
      simp only [Reduct.map₂]
      generalize a.value = o at hinit
      cases hinit with
      | none =>
        refine approxBlock_hide (hblock.approx k _ _ ?_)
        exact (hbinds.agree_hide hready.covers hrestAgree hsafe).mono (Nat.le_refl k) hcover
      | some he =>
        refine approxBlock_bind he fun j hj v w hvw => hblock.approx j _ _ ?_
        have hrestAgree' := hrestAgree.mono hj fun x hx => hx
        exact (hbinds.agree hready.covers hrestAgree' hsafe hvw).mono (Nat.le_refl j) hcover

theorem Correct.blockNode (hf : Correct rt f) (hkeep : Keeping f) {body : Block} {ty : Ty}
    (hs : Ready s) (he : LetsApart s.names ⟨.block body, ty⟩) {r : Reduct Expr}
    (h : node f ⟨.block body, ty⟩ s = (.ok r, s')) : Reduced rt s ⟨.block body, ty⟩ r.value s' := by
  obtain ⟨a, s₁, ha, h⟩ := (run_bind_eq_ok _ _).1 h
  cases h
  obtain ⟨s₂, hblock, hpop, hnames⟩ := inScope_eq_ok ha
  have hbody : LetsApartBlock s.names [] body := by
    cases he with
    | head hform _ => cases hform
    | block hbody => exact hbody
  have hdone := hf.block (s := opened s) hs.opened ⟨_, rfl⟩ hbody
    (fun x hx => .inl (by simpa [Expr.freeVariables_eq, Expr.free] using hx)) hblock
  obtain ⟨top, hstack⟩ := hdone.stack
  have hvalue : (Reduct.rebuild ⟨.block body, ty⟩ (a.map Form.block)).value =
      ⟨.block a.value, ty⟩ :=
    value_rebuild fun hkept => congrArg Form.block (block_keeps hkeep hblock hkept)
  rw [hvalue]
  refine ⟨scopes_of_pop hstack hpop, hnames ▸ hdone.later, ?_, fun k ρ ρ' hagree => ?_⟩
  · rw [hnames]
    exact .block (hdone.apart [] (by simp))
  · exact approx_block (hdone.approx k ρ ρ' (hagree.mono (Nat.le_refl k) fun x hx => by
      simpa [Expr.free] using hx))

/-- The arms of two matches: whatever one chooses, the other does, with a body that follows. -/
def ApproxArms (rt : Runtime) (k : Nat) (ρ : Env) (arms : List (Pattern × Expr)) (ρ' : Env)
    (arms' : List (Pattern × Expr)) : Prop :=
  ∀ j ≤ k, ∀ v w, v.Approx rt j w → ∀ bindings body, firstMatch arms v = some (bindings, body) →
    ∃ bindings' body', firstMatch arms' w = some (bindings', body') ∧
      Approx rt j (bindings ++ ρ) body (bindings' ++ ρ') body'

theorem approxArms_cons {k : Nat} {ρ ρ' : Env} {p : Pattern} {g : String → String}
    {body body' : Expr} {arms arms' : List (Pattern × Expr)}
    (hbody : ∀ j ≤ k, ∀ vs ws, Forall₂ (Val.Approx rt j) vs ws → p.bindings.length = vs.length →
      Approx rt j (ρ.called p.bindings vs) body (ρ'.called (p.bindings.map g) ws) body')
    (harms : ApproxArms rt k ρ arms ρ' arms') :
    ApproxArms rt k ρ ((p, body) :: arms) ρ' ((p.rename g, body') :: arms') := by
  intro j hj v w hvw bindings chosen hmatch
  have hbind := (structural_approx rt j).bind? p hvw
  unfold firstMatch at hmatch ⊢
  rw [bind?_rename]
  generalize hx : p.bind? v = x at hmatch hbind
  generalize hy : p.bind? w = y at hbind
  cases hbind with
  | none => exact harms j hj v w hvw bindings chosen hmatch
  | @some bs bs' hbs =>
    obtain ⟨rfl, rfl⟩ := Prod.mk.inj (Option.some.inj hmatch)
    refine ⟨_, body', rfl, ?_⟩
    have hnames := names_of_bind? p hx
    have hnames' := names_of_bind? p hy
    have hsource : bs.reverse ++ ρ = ρ.called p.bindings (bs.map Prod.snd) := by
      rw [Env.called, ← hnames, ← List.zip_of_prod rfl rfl]
    have htarget : (bs'.map fun b => (g b.1, b.2)).reverse ++ ρ' =
        ρ'.called (p.bindings.map g) (bs'.map Prod.snd) := by
      rw [Env.called, ← hnames', List.map_map, List.zip_map']
      rfl
    rw [hsource, htarget]
    exact hbody j hj _ _ (values_bound hbs) (by simp [← hnames])

/-- As `Reduced`, for the arms of a match. -/
structure ReducedArms (rt : Runtime) (s : Reducer) (arms arms' : List (Pattern × Expr))
    (s' : Reducer) : Prop where
  scopes : s'.scopes = s.scopes
  later : s.names.Later s'.names
  apart : ∀ arm ∈ arms', LetsApart s'.names arm.2
  approx : ∀ k ρ ρ', Agree rt k s.scopes (· ∈ Expr.freeArms arms) ρ ρ' →
    ApproxArms rt k ρ arms ρ' arms'

theorem Correct.arms (hf : Correct rt f) (hkeep : Keeping f) {arms : List (Pattern × Expr)}
    {r : Reduct (List (Pattern × Expr))} (hs : Ready s)
    (harms : ∀ arm ∈ arms, LetsApart s.names arm.2) (h : Reduce.arms f arms s = (.ok r, s')) :
    ReducedArms rt s arms r.value s' := by
  induction arms generalizing s r with
  | nil =>
    cases h
    exact ⟨rfl, .refl _, nofun, fun _ _ _ _ _ _ _ _ _ _ _ hmatch => nomatch hmatch⟩
  | cons arm arms ih =>
    obtain ⟨p, body⟩ := arm
    obtain ⟨a, s₁, ha, h⟩ := (run_bind_eq_ok _ _).1 h
    obtain ⟨c, s₂, hc, h⟩ := (run_bind_eq_ok _ _).1 h
    cases h
    obtain ⟨bound, s₃, b, s₄, hbound, hb, hpop, hnames, hvalue, -⟩ := arm_eq_ok hkeep ha
    have hbinds := bindNames_eq_ok hbound
    have hbody : LetsApart s.names body := harms (p, body) (by simp)
    have hone := hf body s₃ b s₄ (hs.opened.bindsAll hbinds) (hbody.later hbinds.later) hb
    obtain ⟨top, hstack⟩ := hbinds.stack (s := opened s) rfl
    rw [← hone.scopes] at hstack
    have hscopes : s₁.scopes = s.scopes := scopes_of_pop hstack hpop
    have hlater : s.names.Later s₁.names := hnames ▸ hbinds.later.trans hone.later
    have hrest := ih (hs.later hscopes hlater)
      (fun arm harm => (harms arm (by simp [harm])).later hlater) hc
    have hall : (Reduct.map₂ List.cons a c).value = a.value :: c.value := rfl
    refine ⟨hrest.scopes.trans hscopes, hlater.trans hrest.later, ?_, ?_⟩
    · rw [hall, hvalue]
      refine List.forall_mem_cons.2 ⟨?_, hrest.apart⟩
      exact (hnames ▸ hone.apart : LetsApart s₁.names b.value).later hrest.later
    · intro k ρ ρ' hagree
      rw [hall, hvalue]
      refine approxArms_cons (fun j hj vs ws hvsws hlength => hone.approx j _ _ ?_)
        (hrest.approx k ρ ρ' ?_)
      · have hopen : Agree rt j (opened s).scopes (fun x => x ∈ body.free ∧ x ∉ p.bindings) ρ ρ' :=
          hagree.mono hj fun x hx => mem_freeArms (List.mem_cons_self) hx.1 hx.2
        have hinner := hbinds.agree_last hs.opened.covers (topOutside_opened _ s) hopen
          (fun x hx => hx.1) hvsws hlength
        refine hinner.mono (Nat.le_refl j) fun x hx => ⟨hx, ?_⟩
        by_cases hmem : x ∈ p.bindings
        · exact .inl hmem
        · exact .inr ⟨hx, hmem⟩
      · rw [hscopes]
        exact hagree.mono (Nat.le_refl k) fun x hx => by simp [Expr.freeArms, hx]

theorem Correct.cases (hf : Correct rt f) (hkeep : Keeping f) {scrutinee : Expr}
    {arms : List (Pattern × Expr)} {ty : Ty} (hs : Ready s)
    (he : LetsApart s.names ⟨.cases scrutinee arms, ty⟩) {r : Reduct Expr}
    (h : node f ⟨.cases scrutinee arms, ty⟩ s = (.ok r, s')) :
    Reduced rt s ⟨.cases scrutinee arms, ty⟩ r.value s' := by
  obtain ⟨a, s₁, ha, h⟩ := (run_bind_eq_ok _ _).1 h
  obtain ⟨c, s₂, hc, h⟩ := (run_bind_eq_ok _ _).1 h
  cases h
  have hparts : LetsApart s.names scrutinee ∧ ∀ arm ∈ arms, LetsApart s.names arm.2 := by
    cases he with
    | head hform _ => cases hform
    | cases hscrutinee harms => exact ⟨hscrutinee, harms⟩
  have hone := hf scrutinee s a s₁ hs hparts.1 ha
  have harms := hf.arms hkeep (hs.later hone.scopes hone.later)
    (fun arm harm => (hparts.2 arm harm).later hone.later) hc
  rw [value_cases hkeep ha hc]
  refine ⟨harms.scopes.trans hone.scopes, hone.later.trans harms.later,
    .cases (hone.apart.later harms.later) harms.apart, fun k ρ ρ' hagree => ?_⟩
  refine approx_cases (hone.approx k ρ ρ' ?_) (harms.approx k ρ ρ' ?_)
  · exact hagree.mono (Nat.le_refl k) fun x hx => by simp [Expr.free, hx]
  · rw [hone.scopes]
    exact hagree.mono (Nat.le_refl k) fun x hx => by simp [Expr.free, hx]

/-- A parameter stands for its argument from here on. -/
structure Substitutes (s : Reducer) (name : String) (arg : Expr) (s' : Reducer) : Prop where
  names : s'.names = s.names
  scopes : ∃ top rest, s.scopes.stack = top :: rest ∧
    s'.scopes.stack = top.set name (.replace arg) :: rest

theorem substitute_eq_ok {name : String} {arg : Expr} {u : Unit}
    (h : onScopes (fun Δ => Δ.substitute name arg) s = (.ok u, s')) :
    Substitutes s name arg s' := by
  obtain ⟨hsubstitute, hnames⟩ := onScopes_eq_ok h
  exact ⟨hnames, modifyInnermost_eq_ok hsubstitute⟩

theorem Substitutes.lookup? {name : String} {arg : Expr} (h : Substitutes s name arg s')
    (x : String) : s'.scopes.lookup? x =
      if x = name then some (.replace arg) else s.scopes.lookup? x := by
  obtain ⟨top, rest, hstack, hstack'⟩ := h.scopes
  unfold Scopes.lookup?
  rw [hstack', hstack]
  exact Scopes.lookup?_set top rest x name (.replace arg)

theorem Substitutes.covers {name : String} {arg : Expr} (h : Substitutes s name arg s')
    (hs : s.scopes.Covers) : s'.scopes.Covers := by
  obtain ⟨top, rest, hstack, hstack'⟩ := h.scopes
  have htop : top ∈ s.scopes.stack := by simp [hstack]
  intro scope hscope y e hmem z hz
  rw [hstack'] at hscope
  rcases List.mem_cons.1 hscope with rfl | hscope
  · rw [Scope.mem_free_set]
    rcases Scope.has_set.1 hmem with ⟨-, harg⟩ | ⟨-, hmem⟩
    · exact .inl ⟨e, harg.symm, hz⟩
    · exact .inr (hs top htop y e hmem z hz)
  · exact hs scope (by simp [hstack, hscope]) y e hmem z hz

theorem Substitutes.replaces {name : String} {arg : Expr} (h : Substitutes s name arg s')
    {P : Expr → Prop} (hs : s.scopes.Replaces P) (harg : P arg) : s'.scopes.Replaces P := by
  obtain ⟨top, rest, hstack, hstack'⟩ := h.scopes
  intro scope hscope y e hmem
  rw [hstack'] at hscope
  rcases List.mem_cons.1 hscope with rfl | hscope
  · rcases Scope.has_set.1 hmem with ⟨-, heq⟩ | ⟨-, hmem⟩
    · obtain rfl := Binding.replace.inj heq
      exact harg
    · exact hs top (by simp [hstack]) y e hmem
  · exact hs scope (by simp [hstack, hscope]) y e hmem

theorem Substitutes.ready {name : String} {arg : Expr} (h : Substitutes s name arg s')
    (hs : Ready s) (harg : LetsApart s.names arg) : Ready s' :=
  ⟨h.covers hs.covers, h.names.symm ▸ h.replaces hs.apart harg⟩

theorem Substitutes.agree {name : String} {arg : Expr} (h : Substitutes s name arg s') {k : Nat}
    {S : String → Prop} {ρ ρ' : Env} (hagree : Agree rt k s.scopes S ρ ρ') {v w : Val} {l : Nat}
    (hw : Evals rt ρ' arg w l) (hvw : v.Approx rt k w) :
    Agree rt k s'.scopes (fun x => x = name ∨ S x) ((name, v) :: ρ) ρ' := by
  intro x hx u hu
  have hlookup := h.lookup? x
  rw [lookup_cons_eq] at hu
  unfold Scopes.image Scopes.occurrence
  split_ifs at hu hlookup with hname
  · obtain rfl := Option.some.inj hu
    rw [hlookup]
    exact ⟨w, l, hw, hvw⟩
  · rw [hlookup]
    exact hagree x (hx.resolve_left hname) u hu

/-- Parameters bound to arguments one after the other. -/
inductive SubstitutesAll : Reducer → List Param → List Expr → Reducer → Prop
  | nil {s : Reducer} : SubstitutesAll s [] [] s
  | cons {s s₁ s' : Reducer} {p : Param} {params : List Param} {arg : Expr} {args : List Expr} :
      Substitutes s p.name arg s₁ → SubstitutesAll s₁ params args s' →
      SubstitutesAll s (p :: params) (arg :: args) s'

theorem substituteAll_eq_ok {params : List Param} {args : List Expr} {u : Unit}
    (h : substituteAll params args s = (.ok u, s')) (hlength : params.length = args.length) :
    SubstitutesAll s params args s' := by
  induction params generalizing s args with
  | nil =>
    obtain rfl := List.length_eq_zero_iff.1 hlength.symm
    cases h
    exact .nil
  | cons p params ih =>
    cases args with
    | nil => cases hlength
    | cons arg args =>
      obtain ⟨_, s₁, hone, h⟩ := (run_bind_eq_ok _ _).1 h
      exact .cons (substitute_eq_ok hone) (ih h (by simpa using hlength))

namespace SubstitutesAll

variable {params : List Param} {args : List Expr}

theorem names (h : SubstitutesAll s params args s') : s'.names = s.names := by
  induction h with
  | nil => rfl
  | cons hone _ ih => exact ih.trans hone.names

theorem stack (h : SubstitutesAll s params args s') {outer : List Scope}
    (hstack : ∃ top, s.scopes.stack = top :: outer) :
    ∃ top, s'.scopes.stack = top :: outer := by
  induction h with
  | nil => exact hstack
  | cons hone _ ih =>
    obtain ⟨top, hstack⟩ := hstack
    obtain ⟨top', rest, hstack₀, hstack₁⟩ := hone.scopes
    obtain ⟨rfl, rfl⟩ := List.cons.inj (hstack₀.symm.trans hstack)
    exact ih ⟨_, hstack₁⟩

theorem ready (h : SubstitutesAll s params args s') (hs : Ready s)
    (hargs : ∀ arg ∈ args, LetsApart s.names arg) : Ready s' := by
  induction h with
  | nil => exact hs
  | cons hone _ ih =>
    refine ih (hone.ready hs (hargs _ (by simp))) fun arg harg => ?_
    rw [hone.names]
    exact hargs arg (by simp [harg])

theorem agree (h : SubstitutesAll s params args s') {k : Nat} {S : String → Prop} {ρ ρ' : Env}
    (hagree : Agree rt k s.scopes S ρ ρ') {vs ws : List Val} {l : Nat}
    (hws : EvalsAll rt ρ' args ws l) (hvsws : Forall₂ (Val.Approx rt k) vs ws) :
    Agree rt k s'.scopes (fun x => x ∈ params.map Param.name ∨ S x)
      (ρ.called (params.map Param.name) vs) ρ' := by
  induction h generalizing S ρ vs ws l with
  | nil => exact hagree.mono (Nat.le_refl k) fun x hx => by simpa using hx
  | cons hone _ ih =>
    obtain ⟨w, i, ws', j, hw, hws', rfl, rfl⟩ := evalsAll_cons.1 hws
    cases hvsws with
    | cons hvw hrest =>
      have hall := ih (hone.agree hagree hw hvw) hws' hrest
      rw [List.map_cons, called_cons]
      refine hall.mono (Nat.le_refl k) fun x hx => ?_
      simp only [List.mem_cons] at hx
      tauto

end SubstitutesAll

theorem SubstitutesAll.length_eq {s s' : Reducer} {params : List Param} {args : List Expr}
    (h : SubstitutesAll s params args s') : params.length = args.length := by
  induction h with
  | nil => rfl
  | cons _ _ ih => simp [ih]

/-- Inlining is the body, done with the parameters standing for the arguments in a scope of their
own. -/
theorem inline_eq_ok {params : List Param} {body : Expr} {args : List Expr} {r : Reduct Expr}
    (h : inline f params body args s = (.ok r, s')) : ∃ s₁ s₂,
      SubstitutesAll (opened s) params args s₁ ∧ f body s₁ = (.ok r, s₂) ∧
      s₂.scopes.pop = .ok s'.scopes ∧ s'.names = s₂.names := by
  by_cases hlength : params.length = args.length
  · rw [inline_eq_inScope hlength] at h
    obtain ⟨s₂, hact, hpop, hnames⟩ := inScope_eq_ok h
    obtain ⟨_, s₁, hsubstitute, hbody⟩ := (run_bind_eq_ok _ _).1 hact
    exact ⟨s₁, s₂, substituteAll_eq_ok hsubstitute hlength, hbody, hpop, hnames⟩
  · unfold inline at h
    rw [if_pos hlength] at h
    cases h

/-- The body of a closure, done with its parameters standing for arguments. -/
structure Inlined (rt : Runtime) (s : Reducer) (params : List Param) (body : Expr)
    (args : List Expr) (e' : Expr) (s' : Reducer) : Prop where
  scopes : s'.scopes = s.scopes
  later : s.names.Later s'.names
  apart : LetsApart s'.names e'
  approx : ∀ k ρ ρ' vs ws l,
    Agree rt k s.scopes (fun x => x ∈ body.free ∧ x ∉ params.map Param.name) ρ ρ' →
    EvalsAll rt ρ' args ws l → Forall₂ (Val.Approx rt k) vs ws →
    Approx rt k (ρ.called (params.map Param.name) vs) body ρ' e'

theorem Correct.inline (hf : Correct rt f) {params : List Param} {body : Expr} {args : List Expr}
    (hs : Ready s) (hbody : LetsApart s.names body) (hargs : ∀ arg ∈ args, LetsApart s.names arg)
    {r : Reduct Expr} (h : inline f params body args s = (.ok r, s')) :
    Inlined rt s params body args r.value s' := by
  obtain ⟨s₁, s₂, hall, hbodyRun, hpop, hnames⟩ := inline_eq_ok h
  have hone := hf body s₁ r s₂ (hall.ready hs.opened hargs) (hall.names ▸ hbody) hbodyRun
  obtain ⟨top, hstack⟩ := hall.stack ⟨_, rfl⟩
  rw [← hone.scopes] at hstack
  have hlater : s.names.Later s₂.names := by
    have := hone.later
    rwa [hall.names] at this
  refine ⟨scopes_of_pop hstack hpop, hnames ▸ hlater, hnames ▸ hone.apart, ?_⟩
  intro k ρ ρ' vs ws l hagree hws hvsws
  refine hone.approx k _ ρ' ?_
  have hopen : Agree rt k (opened s).scopes (fun x => x ∈ body.free ∧ x ∉ params.map Param.name)
      ρ ρ' := hagree
  refine (hall.agree hopen hws hvsws).mono (Nat.le_refl k) fun x hx => ?_
  by_cases hmem : x ∈ params.map Param.name
  · exact .inl hmem
  · exact .inr ⟨hx, hmem⟩

theorem closure?_eq_some {e : Expr} {params : List Param} {body : Expr}
    (h : e.closure? = some (params, body)) : ∃ ty, e = ⟨.closure params body, ty⟩ := by
  obtain ⟨form, ty⟩ := e
  unfold Expr.closure? at h
  split at h
  · rename_i hform
    obtain ⟨rfl, rfl⟩ := Prod.mk.inj (Option.some.inj h)
    obtain rfl : form = _ := hform
    exact ⟨ty, rfl⟩
  · cases h

/-- An application whose function is a literal closure, inlined under the open scopes. -/
theorem reduced_applyLiteral {params : List Param} {body : Expr} {args args' : List Expr}
    {ty fty : Ty} {s₁ : Reducer} {e' : Expr} (hargs : ReducedAll rt s args args' s₁)
    (hbody : Inlined rt s₁ params body args' e' s') :
    Reduced rt s ⟨.apply ⟨.closure params body, fty⟩ args, ty⟩ e' s' := by
  refine ⟨hbody.scopes.trans hargs.scopes, hargs.later.trans hbody.later, hbody.apart,
    fun k ρ ρ' hagree v m hv hm => ?_⟩
  obtain ⟨c, i, vs, j, ρ₁, body₁, n, hc, hvs, henter, hcall, rfl⟩ := evals_apply.1 hv
  obtain ⟨rfl, rfl⟩ := evals_closure.1 hc
  obtain ⟨_, _, _, hclosure, -, rfl⟩ := Val.enter?_eq_some.1 henter
  cases hclosure
  rw [← List.zip_of_prod rfl rfl] at hcall
  have hall := hargs.approx k ρ ρ' (hagree.mono (Nat.le_refl k) fun x hx => by
    simp [Expr.free, hx])
  obtain ⟨ws, l, hws, hvsws⟩ := approx_all hall hvs (by omega)
  have hinner : Agree rt (k - j) s₁.scopes (fun x => x ∈ body.free ∧ x ∉ params.map Param.name)
      ρ ρ' := by
    rw [hargs.scopes]
    refine hagree.mono (by omega) fun x hx => ?_
    simp only [Expr.free, List.mem_append, List.mem_filter]
    exact .inl ⟨hx.1, by simpa using hx.2⟩
  obtain ⟨w, l', hw, hvw⟩ := hbody.approx (k - j) ρ ρ' vs ws l hinner hws hvsws v n hcall (by omega)
  exact ⟨w, l', hw, hvw.mono (by omega)⟩

/-- An application whose function became a closure. The call is followed by the closure first, and
that by its inlined body. -/
theorem reduced_applyClosure {function : Expr} {params : List Param} {body : Expr}
    {args args' : List Expr} {ty fty : Ty} {s₁ s₂ s₃ : Reducer} {e' : Expr}
    (hargs : ReducedAll rt s args args' s₁)
    (hfunction : Reduced rt s₁ function ⟨.closure params body, fty⟩ s₂)
    (hbody : Inlined rt ⟨s₂.names, .empty⟩ params body args' e' s₃)
    (hscopes : s'.scopes = s₂.scopes) (hnames : s'.names = s₃.names) :
    Reduced rt s ⟨.apply function args, ty⟩ e' s' := by
  refine ⟨hscopes.trans (hfunction.scopes.trans hargs.scopes), ?_, hnames ▸ hbody.apart,
    fun k ρ ρ' hagree v m hv hm => ?_⟩
  · rw [hnames]
    exact (hargs.later.trans hfunction.later).trans hbody.later
  · obtain ⟨c, i, vs, j, ρ₁, body₁, n, hc, hvs, henter, hcall, rfl⟩ := evals_apply.1 hv
    have hall := hargs.approx k ρ ρ' (hagree.mono (Nat.le_refl k) fun x hx => by
      simp [Expr.free, hx])
    obtain ⟨ws, l, hws, hvsws⟩ := approx_all hall hvs (by omega)
    have hcalled := hfunction.approx k ρ ρ' (by
      rw [hargs.scopes]
      exact hagree.mono (Nat.le_refl k) fun x hx => by simp [Expr.free, hx])
    obtain ⟨c', l', hc', hcc'⟩ := hcalled c i hc (by omega)
    obtain ⟨rfl, rfl⟩ := evals_closure.1 hc'
    obtain ⟨names, values, ps, rfl, -, -⟩ := Val.enter?_eq_some.1 henter
    unfold Env.close at hcc'
    cases hcc' with
    | closure hcalls =>
      unfold Calls at hcalls
      obtain ⟨ρ₂, body₂, v', n', henter', hv', hvv'⟩ := hcalls (k - i - j - 1) (by omega) vs ws
        (approxAll_mono (by omega) hvsws) ρ₁ body₁ v n henter hcall (by omega)
      obtain ⟨_, _, _, hclosure, -, rfl⟩ := Val.enter?_eq_some.1 henter'
      cases hclosure
      rw [← List.zip_of_prod rfl rfl] at hv'
      obtain ⟨w, l'', hw, hequiv⟩ := equiv_of_approx (fun k' => hbody.approx k' ρ' ρ' ws ws l
        (agree_empty rt k' _ ρ') hws (approxAll_refl rt k' ws)) hv'
      exact ⟨w, l'', hw, (Val.Approx.mono (by omega) hvv').trans hequiv⟩

theorem Correct.apply (hf : Correct rt f) (hkeep : Keeping f) {function : Expr} {args : List Expr}
    {ty : Ty} (hs : Ready s) (he : LetsApart s.names ⟨.apply function args, ty⟩) {r : Reduct Expr}
    (h : node f ⟨.apply function args, ty⟩ s = (.ok r, s')) :
    Reduced rt s ⟨.apply function args, ty⟩ r.value s' := by
  obtain ⟨a, s₁, ha, h⟩ := (run_bind_eq_ok _ _).1 h
  obtain ⟨rs, hrs, hargsValue⟩ := all_eq_ok ha
  have hparts : LetsApart s.names function ∧ ∀ arg ∈ args, LetsApart s.names arg := by
    cases he with
    | head hform _ => cases hform
    | apply hfunction hargs => exact ⟨hfunction, hargs⟩
  have hargs := hf.each hrs.each hs hparts.2
  rw [← hargsValue] at hargs
  have hready := hs.later hargs.scopes hargs.later
  have hfunction := hparts.1.later hargs.later
  cases hclosure : function.closure? with
  | some r₀ =>
    obtain ⟨params, body⟩ := r₀
    obtain ⟨fty, rfl⟩ := closure?_eq_some hclosure
    obtain ⟨b, s₂, hb, h⟩ := (run_bind_eq_ok _ _).1 h
    cases h
    have hinlined := hf.inline hready hfunction.closure_body hargs.apart hb
    exact reduced_applyLiteral hargs hinlined
  | none =>
    simp only [hclosure] at h
    obtain ⟨b, s₂, hb, h⟩ := (run_bind_eq_ok _ _).1 h
    have hone := hf function s₁ b s₂ hready hfunction hb
    cases hclosure' : b.value.closure? with
    | some r₀ =>
      obtain ⟨params, body⟩ := r₀
      simp only [hclosure'] at h
      obtain ⟨c, s₃, hc, h⟩ := (run_bind_eq_ok _ _).1 h
      cases h
      obtain ⟨s₄, hinline, hscopes, hnames⟩ := unscoped_eq_ok hc
      obtain ⟨fty, hvalue⟩ := closure?_eq_some hclosure'
      rw [hvalue] at hone
      have hempty : Ready ⟨s₂.names, .empty⟩ := ⟨nofun, nofun⟩
      have hinlined := hf.inline hempty hone.apart.closure_body
        (fun arg harg => (hargs.apart arg harg).later hone.later) hinline
      exact reduced_applyClosure hargs hone hinlined hscopes hnames
    | none =>
      simp only [hclosure'] at h
      cases h
      rw [value_apply hkeep ha hb]
      refine ⟨hone.scopes.trans hargs.scopes, hargs.later.trans hone.later,
        .apply hone.apart fun arg harg => (hargs.apart arg harg).later hone.later,
        fun k ρ ρ' hagree => approx_apply (hone.approx k ρ ρ' ?_) (hargs.approx k ρ ρ' ?_)⟩
      · rw [hargs.scopes]
        exact hagree.mono (Nat.le_refl k) fun x hx => by simp [Expr.free, hx]
      · exact hagree.mono (Nat.le_refl k) fun x hx => by simp [Expr.free, hx]

theorem Correct.node (hf : Correct rt f) (hkeep : Keeping f) : Correct rt (Reduce.node f) := by
  rintro ⟨form, ty⟩ s r s' hs he h
  cases hhead : form.head? with
  | some r₀ => exact hf.head hkeep hhead hs he h
  | none =>
    cases form with
    | var name => exact reduced_var hs h
    | apply function args => exact hf.apply hkeep hs he h
    | closure params body => exact hf.closure hkeep hs he h
    | block body => exact hf.blockNode hkeep hs he h
    | ite c y n => exact hf.ite hkeep hs he h
    | cases scrutinee arms => exact hf.cases hkeep hs he h
    | literal value => cases value <;> cases hhead
    | _ => cases hhead

theorem correct_expr (rt : Runtime) : ∀ fuel, Correct rt (expr fuel)
  | 0 => fun _ _ _ _ _ _ h => by cases h
  | fuel + 1 => (correct_expr rt fuel).node (keeping_expr fuel)

end Correct

/-- The check at the end of a reduction changes nothing. -/
theorem expr_of_whole {fuel : Nat} {e : Expr} {r : Reduct Expr} {s s' : Reducer}
    (h : whole fuel e s = (.ok r, s')) : expr fuel e s = (.ok r, s') := by
  obtain ⟨r', s₁, hrun, h⟩ := (run_bind_eq_ok _ _).1 h
  obtain ⟨_, s₂, hget, h⟩ := (run_bind_eq_ok _ _).1 h
  obtain ⟨_, s₃, hempty, h⟩ := (run_bind_eq_ok _ _).1 h
  cases h
  cases hget
  obtain ⟨-, rfl⟩ := Prod.mk.inj hempty
  exact hrun

end Reduce

theorem whole_of_reduce {e : Expr} {r : Reduct Expr} {ctx ctx' : Context}
    (h : e.reduce ctx = (.ok r, ctx')) :
    ∃ s, Reduce.whole (reductionFuel e) e ⟨ctx.names, .empty⟩ = (.ok r, s) := by
  have hresult : (Reduce.whole (reductionFuel e) e ⟨ctx.names, .empty⟩).1 = .ok r :=
    congrArg Prod.fst h
  exact ⟨_, Prod.ext hresult rfl⟩

/-- Reduction keeps every value without closures of an expression whose blocks have their bindings
apart, in every environment and whatever names were drawn before. -/
theorem reduce_preserves_meaning {rt : Runtime} {fuel : Nat} {e : Expr} {names : Names}
    {r : Reduct Expr} {s : Reducer} (hr : Reduce.whole fuel e ⟨names, .empty⟩ = (.ok r, s))
    (hapart : LetsApart names e) {ρ : Env} {v : Val} {k : Nat} (hv : Evals rt ρ e v k)
    (hdata : v.isData) : ∃ l, Evals rt ρ r.value v l := by
  have hready : Reduce.Ready ⟨names, .empty⟩ := ⟨nofun, nofun⟩
  have hreduced :=
    Reduce.correct_expr rt fuel e _ r s hready hapart (Reduce.expr_of_whole hr)
  obtain ⟨w, l, hw, hvw⟩ := hreduced.approx k ρ ρ (agree_empty rt k _ ρ) v k hv (Nat.le_refl k)
  obtain rfl := (structural_approx rt _).eq_of_isData hvw hdata
  exact ⟨l, hw⟩

/-- A call that binds `y` beside an argument that uses a `y` from outside. -/
def pairWithTwo : Expr :=
  ⟨.apply (Expr.closure [⟨"x", Ty.int32⟩] (Expr.block (.bind "y" Ty.int32 false
      (some (Expr.int32 2))
      (.done (some (Expr.tuple [Expr.var "x" Ty.int32, Expr.var "y" Ty.int32]))))))
    [Expr.var "y" Ty.int32], Ty.tuple [Ty.int32, Ty.int32]⟩

theorem letsApart_pairWithTwo : LetsApart Names.empty pairWithTwo := by
  have hvar : ∀ x, LetsApart Names.empty (Expr.var x Ty.int32) := fun x => .var
  have htwo : LetsApart Names.empty (Expr.int32 2) := .head rfl nofun
  have hpair : LetsApart Names.empty (Expr.tuple [Expr.var "x" Ty.int32, Expr.var "y" Ty.int32]) :=
    .head rfl (by simp [hvar])
  refine .apply (.closure (.block (.bind ?_ nofun (.done ?_)))) (by simp [hvar])
  · simpa using htwo
  · simpa using hpair

/-- The binding is renamed, and both variables keep their values. -/
theorem reduce_pairWithTwo : ∃ l, Evals (fun _ _ => none) [("y", .atom (.int .w32 5))]
    (Expr.block (.bind "y_0" Ty.int32 false (some (Expr.int32 2))
      (.done (some (Expr.tuple [Expr.var "y" Ty.int32, Expr.var "y_0" Ty.int32])))))
    (.tuple [.atom (.int .w32 5), .atom (.int .w32 2)]) l := by
  have hr : Reduce.whole (reductionFuel pairWithTwo) pairWithTwo ⟨.empty, .empty⟩ =
      (.ok ⟨Expr.block (.bind "y_0" Ty.int32 false (some (Expr.int32 2))
        (.done (some (Expr.tuple [Expr.var "y" Ty.int32, Expr.var "y_0" Ty.int32])))), true, 1⟩,
      ⟨⟨[("y_", 1)]⟩, .empty⟩) := by with_unfolding_all rfl
  exact reduce_preserves_meaning hr letsApart_pairWithTwo ⟨6, rfl⟩ rfl

/-- Two bindings of which the first has the name that the second gets. -/
def clashingLets : Expr :=
  ⟨.apply (Expr.closure [⟨"x", Ty.int32⟩] (Expr.block
      (.bind "y_0" Ty.int32 false (some (Expr.int32 1))
      (.bind "y" Ty.int32 false (some (Expr.int32 2))
      (.done (some (Expr.tuple
        [Expr.var "x" Ty.int32, Expr.var "y_0" Ty.int32, Expr.var "y" Ty.int32])))))))
    [Expr.var "y" Ty.int32], Ty.tuple [Ty.int32, Ty.int32, Ty.int32]⟩

/-- Where bindings are not apart the value can change: here the second one hides the first. -/
theorem reduce_clashingLets (rt : Runtime) :
    ∃ r ctx, clashingLets.reduce Context.empty = (.ok r, ctx) ∧
      Evals rt [("y", .atom (.int .w32 5))] clashingLets
        (.tuple [.atom (.int .w32 5), .atom (.int .w32 1), .atom (.int .w32 2)]) 1 ∧
      Evals rt [("y", .atom (.int .w32 5))] r.value
        (.tuple [.atom (.int .w32 5), .atom (.int .w32 2), .atom (.int .w32 2)]) 0 := by
  have hr : clashingLets.reduce Context.empty =
      (.ok ⟨Expr.block (.bind "y_0" Ty.int32 false (some (Expr.int32 1))
        (.bind "y_0" Ty.int32 false (some (Expr.int32 2)) (.done (some (Expr.tuple
          [Expr.var "y" Ty.int32, Expr.var "y_0" Ty.int32, Expr.var "y_0" Ty.int32]))))), true, 1⟩,
      ⟨⟨[("y_", 1)]⟩, 0⟩) := by with_unfolding_all rfl
  exact ⟨_, _, hr, ⟨6, rfl⟩, ⟨6, rfl⟩⟩

end ViewCircuit
