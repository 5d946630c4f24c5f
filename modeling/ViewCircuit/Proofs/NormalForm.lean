import ViewCircuit.Proofs.Redex
import ViewCircuit.Proofs.Rules

/-! One reduction reaches a normal form. Whatever is substituted is done already, so no route leads
to an application of a literal closure; only literals of patterns, which are copied, can hold one.
All other nodes of the result are rebuilt from nodes that were there before. -/
namespace ViewCircuit

open Reduce

namespace Scopes.Replaces

variable {P : Expr → Prop} {Δ Δ₁ : Scopes} {names names₁ : Names} {avoid : List String}

theorem bindName {name bound : String} (h : Δ.Replaces P)
    (hbound : Reduce.bindName name avoid ⟨names, Δ⟩ = (.ok bound, ⟨names₁, Δ₁⟩)) :
    Δ₁.Replaces P :=
  (bindName_eq_ok hbound).replaces h

theorem bindsAll {s s' : Reducer} {xs bounds : List String} (h : s.scopes.Replaces P)
    (hbinds : BindsAll avoid s xs bounds s') : s'.scopes.Replaces P := by
  induction hbinds with
  | nil => exact h
  | cons hone _ ih => exact ih (hone.replaces h)

theorem bindNames {xs bounds : List String} (h : Δ.Replaces P)
    (hbound : Reduce.bindNames xs avoid ⟨names, Δ.push⟩ = (.ok bounds, ⟨names₁, Δ₁⟩)) :
    Δ₁.Replaces P :=
  bindsAll (s := ⟨names, Δ.push⟩) h.push (bindNames_eq_ok hbound)

theorem substitutes {s s' : Reducer} {params : List Param} {args : List Expr}
    (h : s.scopes.Replaces P) (hargs : ∀ arg ∈ args, P arg)
    (hall : SubstitutesAll s params args s') : s'.scopes.Replaces P := by
  induction hall with
  | nil => exact h
  | @cons s s₁ s' p params arg args hone _ ih =>
    obtain ⟨harg, hargs⟩ := List.forall_mem_cons.1 hargs
    exact ih (hone.replaces h harg) hargs

theorem inlined {params : List Param} {args : List Expr} (h : Δ.Replaces P)
    (hargs : ∀ arg ∈ args, P arg)
    (hall : SubstitutesAll ⟨names, Δ.push⟩ params args ⟨names₁, Δ₁⟩) : Δ₁.Replaces P :=
  substitutes (s := ⟨names, Δ.push⟩) h.push hargs hall

theorem occurrence (h : Δ.Replaces P) {x : String} {ty : Ty} (hvar : ∀ y, P (Expr.var y ty)) :
    P (Δ.occurrence x ty) := by
  unfold Scopes.occurrence
  split
  · rename_i e hlookup
    obtain ⟨scope, hscope, hmem⟩ := Scopes.mem_of_lookup? hlookup
    exact h scope hscope x e hmem
  · exact hvar _
  · exact hvar _
  · exact hvar _

end Scopes.Replaces

namespace Expr

/-- The property looks at nothing but what traversals keep of a node. -/
def Lasting (P : Expr → Prop) : Prop := ∀ x y : Expr, P x → x.Alike y → P y

/-- No redexes, and a property of all nodes. -/
def Reduced (P : Expr → Prop) (e : Expr) : Prop := e.Every fun x => x.isRedex = false ∧ P x

/-- No redexes, and a property of all literals in patterns. -/
def Done (Q : Literal → Prop) (e : Expr) : Prop :=
  e.Every fun x => x.isRedex = false ∧ ∀ l ∈ x.patternLiterals, Q l

variable {P : Expr → Prop} {Q : Literal → Prop} {e : Expr}

theorem Reduced.every (h : e.Reduced P) : e.Every P := h.mono fun _ hx => hx.2

theorem Done.redexFree (h : e.Done Q) : e.RedexFree := h.mono fun _ hx => hx.1

theorem Done.patternsSatisfy (h : e.Done Q) : e.PatternsSatisfy Q := h.mono fun _ hx => hx.2

theorem lasting_patterns (Q : Literal → Prop) : Lasting fun x => ∀ l ∈ x.patternLiterals, Q l :=
  fun _ _ hx h l hl => hx l (h.patterns ▸ hl)

end Expr

section Rebuilt

open ViewCircuit.Expr (Lasting Reduced)

variable {Δ : Scopes} {names later : Names}

theorem ReducesAll.length_eq {es es' : List Expr} (h : ReducesAll Δ names es es' later) :
    es'.length = es.length := by
  obtain ⟨n, hrun⟩ := h.runs
  obtain ⟨rs, hrs, rfl⟩ := hrun n (Nat.le_refl n)
  rw [List.length_map, hrs.length_eq]

mutual
/-- Names are drawn and never given back. -/
theorem Reduces.later {Δ : Scopes} {names later : Names} {e e' : Expr} :
    Reduces Δ names e e' later → names.Later later
  | .var => .refl _
  | .head _ hparts => hparts.later
  | .ite hcondition hyes hno => hcondition.later.trans (hyes.later.trans hno.later)
  | .closure hbound hbody => (bindNames_eq_ok hbound).later.trans hbody.later
  | .block hbody => hbody.later
  | .cases hscrutinee harms => hscrutinee.later.trans harms.later
  | .inline hargs _ hbody => hargs.later.trans hbody.later
  | .inlineResult _ hargs hfunction _ hbody =>
    hargs.later.trans (hfunction.later.trans hbody.later)
  | .apply _ hargs hfunction _ => hargs.later.trans hfunction.later
theorem ReducesAll.later {Δ : Scopes} {names later : Names} {es es' : List Expr} :
    ReducesAll Δ names es es' later → names.Later later
  | .nil => .refl _
  | .cons hone hall => hone.later.trans hall.later
theorem ReducesBlock.later {avoid : List String} {Δ : Scopes} {names later : Names}
    {b b' : Block} : ReducesBlock avoid Δ names b b' later → names.Later later
  | .unit => .refl _
  | .result he => he.later
  | .declare hbound hrest => (bindName_eq_ok hbound).later.trans hrest.later
  | .bind hinit hbound hrest =>
    hinit.later.trans ((bindName_eq_ok hbound).later.trans hrest.later)
  | .exec he hrest => he.later.trans hrest.later
theorem ReducesArms.later {Δ : Scopes} {names later : Names} {as as' : List (Pattern × Expr)} :
    ReducesArms Δ names as as' later → names.Later later
  | .nil => .refl _
  | .cons hbound hbody harms =>
    (bindNames_eq_ok hbound).later.trans (hbody.later.trans harms.later)
end

/-- The names of each pattern were bound, one arm after the other. -/
inductive ArmsRebuilt : Names → List (Pattern × Expr) → List (Pattern × Expr) → Names → Prop
  | nil {names : Names} : ArmsRebuilt names [] [] names
  | cons {s s' : Reducer} {names later : Names} {avoid bound : List String} {p : Pattern}
      {body body' : Expr} {as as' : List (Pattern × Expr)} :
      BindsAll avoid s p.bindings bound s' → s'.names.Later names →
      ArmsRebuilt names as as' later →
      ArmsRebuilt s.names ((p, body) :: as)
        ((p.rename (lastName (p.bindings.zip bound)), body') :: as') later

theorem ArmsRebuilt.literals {as as' : List (Pattern × Expr)}
    (h : ArmsRebuilt names as as' later) :
    (as'.flatMap fun arm => arm.1.literals) = as.flatMap fun arm => arm.1.literals := by
  induction h with
  | nil => rfl
  | cons _ _ _ ih =>
    rw [List.flatMap_cons, List.flatMap_cons, ih]
    exact congrArg (· ++ _) (literals_rename _ _)

theorem ReducesArms.rebuilt {as as' : List (Pattern × Expr)}
    (h : ReducesArms Δ names as as' later) : ArmsRebuilt names as as' later := by
  induction as generalizing names as' with
  | nil =>
    cases h
    exact .nil
  | cons arm as ih =>
    cases h with
    | cons hbound hbody harms => exact .cons (bindNames_eq_ok hbound) hbody.later (ih harms)

/-- A node over other parts, with its binders under the names that they got. -/
inductive Expr.Rebuilt : Names → Expr → Expr → Names → Prop
  | var {names : Names} {x y : String} {ty : Ty} : Rebuilt names ⟨.var x, ty⟩ ⟨.var y, ty⟩ names
  | head {names : Names} {e : Expr} {head : Head} {parts parts' : List Expr} :
      e.form.head? = some (head, parts) → parts'.length = parts.length →
      Rebuilt names e ⟨head.build parts', e.ty⟩ names
  | ite {names : Names} {condition condition' yes yes' no no' : Expr} {ty : Ty} :
      Rebuilt names ⟨.ite condition yes no, ty⟩ ⟨.ite condition' yes' no', ty⟩ names
  | closure {s s' : Reducer} {avoid bound : List String} {params : List Param}
      {body body' : Expr} {ty : Ty} : BindsAll avoid s (params.map Param.name) bound s' →
      Rebuilt s.names ⟨.closure params body, ty⟩ ⟨.closure (renameParams params bound) body', ty⟩
        s'.names
  | block {names : Names} {body body' : Block} {ty : Ty} :
      Rebuilt names ⟨.block body, ty⟩ ⟨.block body', ty⟩ names
  | cases {names later : Names} {scrutinee scrutinee' : Expr} {as as' : List (Pattern × Expr)}
      {ty : Ty} : ArmsRebuilt names as as' later →
      Rebuilt names ⟨.cases scrutinee as, ty⟩ ⟨.cases scrutinee' as', ty⟩ later
  | apply {names : Names} {function function' : Expr} {args args' : List Expr} {ty : Ty} :
      Rebuilt names ⟨.apply function args, ty⟩ ⟨.apply function' args', ty⟩ names

theorem Expr.Rebuilt.alike {x y : Expr} (h : Expr.Rebuilt names x y later) : x.Alike y := by
  cases h with
  | head hform hlength => exact Expr.alike_of_head? hform (head?_build hform hlength) rfl
  | cases harms => exact ⟨rfl, harms.literals, rfl, rfl⟩
  | _ => exact ⟨rfl, rfl, rfl, rfl⟩

/-- The property goes from nodes to those rebuilt from them, and outlasts the drawing of names. -/
structure Expr.Steady (P : Names → Expr → Prop) : Prop where
  later : ∀ {names later : Names} {x : Expr}, names.Later later → P names x → P later x
  rebuilt : ∀ {names later : Names} {x y : Expr}, Expr.Rebuilt names x y later →
    P names x → P later y

namespace Expr.Steady

variable {P : Names → Expr → Prop}

theorem node (hP : Steady P) {mid : Names} {x y : Expr} (h : Rebuilt names x y mid)
    (hx : P names x) (hlater : mid.Later later) : P later y := hP.later hlater (hP.rebuilt h hx)

theorem every (hP : Steady P) {e : Expr} (he : e.Every (P names)) (hlater : names.Later later) :
    e.Every (P later) := he.mono fun _ => hP.later hlater

theorem reduced (hP : Steady P) {e : Expr} (he : e.Reduced (P names))
    (hlater : names.Later later) : e.Reduced (P later) :=
  he.mono fun _ hx => ⟨hx.1, hP.later hlater hx.2⟩

theorem replaces (hP : Steady P) (hΔ : Δ.Replaces (Reduced (P names)))
    (hlater : names.Later later) : Δ.Replaces (Reduced (P later)) :=
  fun scope hscope y e hmem => hP.reduced (hΔ scope hscope y e hmem) hlater

end Expr.Steady

section Every

variable {P : Names → Expr → Prop}

mutual
/-- What substitution and inlining make of an expression is reduced, and every node of it is
rebuilt from one that was there before. -/
theorem Reduces.every {Δ : Scopes} {names later : Names} {e e' : Expr} (hP : Expr.Steady P) :
    Reduces Δ names e e' later → Δ.Replaces (Reduced (P names)) → e.Every (P names) →
      e'.Reduced (P later)
  | .var, hΔ, he => hΔ.occurrence fun _ => .intro ⟨rfl, hP.rebuilt .var he.self⟩ nofun
  | .head hform hparts, hΔ, he => by
    have hall := hparts.every hP hΔ (parts_of_head? hform ▸ he.part)
    have hform' := head?_build hform hparts.length_eq
    refine .intro ⟨Expr.isRedex_of_head? hform', ?_⟩ ?_
    · exact hP.node (.head hform hparts.length_eq) he.self hparts.later
    · rw [parts_of_head? hform']
      exact hall
  | .ite hcondition hyes hno, hΔ, he => by
    have hparts := he.part
    simp only [Form.parts, List.mem_cons, List.not_mem_nil, or_false, forall_eq_or_imp,
      forall_eq] at hparts
    obtain ⟨hc, hy, hn⟩ := hparts
    have hlater := hcondition.later.trans hyes.later
    refine .intro ⟨rfl, hP.node .ite he.self (hlater.trans hno.later)⟩ ?_
    simp only [Form.parts, List.mem_cons, List.not_mem_nil, or_false, forall_eq_or_imp, forall_eq]
    refine ⟨hP.reduced (hcondition.every hP hΔ hc) (hyes.later.trans hno.later),
      hP.reduced (hyes.every hP (hP.replaces hΔ hcondition.later)
        (hP.every hy hcondition.later)) hno.later, ?_⟩
    exact hno.every hP (hP.replaces hΔ hlater) (hP.every hn hlater)
  | .closure hbound hbody, hΔ, he => by
    have hbinds := bindNames_eq_ok hbound
    have hreduced := hbody.every hP (hP.replaces (hΔ.bindNames hbound) hbinds.later)
      (hP.every (he.part _ (List.mem_singleton_self _)) hbinds.later)
    exact .intro ⟨rfl, hP.node (.closure hbinds) he.self hbody.later⟩
      (List.forall_mem_singleton.2 hreduced)
  | .block hbody, hΔ, he =>
    .intro ⟨rfl, hP.node .block he.self hbody.later⟩
      (hbody.every hP hΔ.push he.part)
  | .cases hscrutinee harms, hΔ, he => by
    obtain ⟨hpart, hparts⟩ := List.forall_mem_cons.1 he.part
    have hself := hP.later hscrutinee.later he.self
    refine .intro ⟨rfl, hP.rebuilt (.cases harms.rebuilt) hself⟩ (List.forall_mem_cons.2 ⟨?_, ?_⟩)
    · exact hP.reduced (hscrutinee.every hP hΔ hpart) harms.later
    · exact harms.every hP (hP.replaces hΔ hscrutinee.later) fun part hmem =>
        hP.every (hparts part hmem) hscrutinee.later
  | .inline hargs hall hbody, hΔ, he => by
    obtain ⟨hfunction, hparts⟩ := List.forall_mem_cons.1 he.part
    have hargs' := hargs.every hP hΔ hparts
    exact hbody.every hP ((hP.replaces hΔ hargs.later).inlined hargs' hall)
      (hP.every (hfunction.part _ (List.mem_singleton_self _)) hargs.later)
  | .inlineResult _ hargs hfunction hall hbody, hΔ, he => by
    obtain ⟨hpart, hparts⟩ := List.forall_mem_cons.1 he.part
    have hargs' := hargs.every hP hΔ hparts
    have hclosure := hfunction.every hP (hP.replaces hΔ hargs.later) (hP.every hpart hargs.later)
    exact hbody.every hP (Scopes.Replaces.empty.inlined
        (fun arg harg => hP.reduced (hargs' arg harg) hfunction.later) hall)
      (hclosure.every.part _ (List.mem_singleton_self _))
  | .apply _ hargs hfunction hclosure, hΔ, he => by
    obtain ⟨hpart, hparts⟩ := List.forall_mem_cons.1 he.part
    have hlater := hargs.later.trans hfunction.later
    refine .intro ⟨?_, hP.node .apply he.self hlater⟩
      (List.forall_mem_cons.2 ⟨?_, fun arg harg => ?_⟩)
    · simp [Expr.isRedex, hclosure]
    · exact hfunction.every hP (hP.replaces hΔ hargs.later) (hP.every hpart hargs.later)
    · exact hP.reduced (hargs.every hP hΔ hparts arg harg) hfunction.later
theorem ReducesAll.every {Δ : Scopes} {names later : Names} {es es' : List Expr}
    (hP : Expr.Steady P) : ReducesAll Δ names es es' later →
      Δ.Replaces (Reduced (P names)) → (∀ e ∈ es, e.Every (P names)) →
      ∀ e' ∈ es', e'.Reduced (P later)
  | .nil, _, _ => nofun
  | .cons hone hall, hΔ, hes => by
    obtain ⟨he, hes⟩ := List.forall_mem_cons.1 hes
    refine List.forall_mem_cons.2 ⟨hP.reduced (hone.every hP hΔ he) hall.later, ?_⟩
    exact hall.every hP (hP.replaces hΔ hone.later) fun e he => hP.every (hes e he) hone.later
theorem ReducesBlock.every {avoid : List String} {Δ : Scopes} {names later : Names}
    {b b' : Block} (hP : Expr.Steady P) : ReducesBlock avoid Δ names b b' later →
      Δ.Replaces (Reduced (P names)) → (∀ part ∈ b.parts, part.Every (P names)) →
      ∀ part ∈ b'.parts, part.Reduced (P later)
  | .unit, _, _ => nofun
  | .result he, hΔ, hparts =>
    List.forall_mem_singleton.2 (he.every hP hΔ (hparts _ (List.mem_singleton_self _)))
  | .declare hbound hrest, hΔ, hparts => by
    have hlater := (bindName_eq_ok hbound).later
    have hall := hrest.every hP (hP.replaces (hΔ.bindName hbound) hlater) fun part hpart =>
      hP.every (hparts part hpart) hlater
    exact hall
  | .bind hinit hbound hrest, hΔ, hparts => by
    have hbinds := (bindName_eq_ok hbound).later
    have hlater := hinit.later.trans hbinds
    obtain ⟨hpart, hparts⟩ := List.forall_mem_cons.1 hparts
    refine List.forall_mem_cons.2
      ⟨hP.reduced (hinit.every hP hΔ hpart) (hbinds.trans hrest.later), ?_⟩
    exact hrest.every hP (hP.replaces (hΔ.bindName hbound) hlater) fun part hpart =>
      hP.every (hparts part hpart) hlater
  | .exec he hrest, hΔ, hparts => by
    obtain ⟨hpart, hparts⟩ := List.forall_mem_cons.1 hparts
    refine List.forall_mem_cons.2 ⟨hP.reduced (he.every hP hΔ hpart) hrest.later, ?_⟩
    exact hrest.every hP (hP.replaces hΔ he.later) fun part hpart =>
      hP.every (hparts part hpart) he.later
theorem ReducesArms.every {Δ : Scopes} {names later : Names} {as as' : List (Pattern × Expr)}
    (hP : Expr.Steady P) : ReducesArms Δ names as as' later →
      Δ.Replaces (Reduced (P names)) → (∀ part ∈ as.map Prod.snd, part.Every (P names)) →
      ∀ part ∈ as'.map Prod.snd, part.Reduced (P later)
  | .nil, _, _ => nofun
  | .cons hbound hbody harms, hΔ, has => by
    have hbinds := (bindNames_eq_ok hbound).later
    have hlater := hbinds.trans hbody.later
    obtain ⟨hpart, has⟩ := List.forall_mem_cons.1 has
    refine List.forall_mem_cons.2 ⟨hP.reduced ?_ harms.later, ?_⟩
    · exact hbody.every hP (hP.replaces (hΔ.bindNames hbound) hbinds) (hP.every hpart hbinds)
    · exact harms.every hP (hP.replaces hΔ hlater) fun part hmem =>
        hP.every (has part hmem) hlater
end

end Every

theorem Expr.steady_of_lasting {P : Expr → Prop} (hP : Lasting P) : Expr.Steady fun _ => P where
  later _ hx := hx
  rebuilt h hx := hP _ _ hx h.alike

variable {P : Expr → Prop}

/-- What substitution and inlining make of an expression is reduced, and no node is of a new
kind. -/
theorem Reduces.reduced {e e' : Expr} (hP : Lasting P) (h : Reduces Δ names e e' later)
    (hΔ : Δ.Replaces (Reduced P)) (he : e.Every P) : e'.Reduced P :=
  h.every (Expr.steady_of_lasting hP) hΔ he

theorem ReducesAll.reduced {es es' : List Expr} (hP : Lasting P)
    (h : ReducesAll Δ names es es' later) (hΔ : Δ.Replaces (Reduced P))
    (hes : ∀ e ∈ es, e.Every P) : ∀ e' ∈ es', e'.Reduced P :=
  h.every (Expr.steady_of_lasting hP) hΔ hes

end Rebuilt

section Done

variable {Q : Literal → Prop} {Δ : Scopes} {names later : Names}

theorem Reduces.done {e e' : Expr} (h : Reduces Δ names e e' later)
    (hΔ : Δ.Replaces (Expr.Done Q)) (he : e.PatternsSatisfy Q) : e'.Done Q :=
  h.reduced (Expr.lasting_patterns Q) hΔ he

theorem ReducesAll.done {es es' : List Expr} (h : ReducesAll Δ names es es' later)
    (hΔ : Δ.Replaces (Expr.Done Q)) (hes : ∀ e ∈ es, e.PatternsSatisfy Q) :
    ∀ e' ∈ es', e'.Done Q :=
  h.reduced (Expr.lasting_patterns Q) hΔ hes

end Done

/-- One expression stands in another, at any depth and also in literals of patterns. -/
inductive Expr.Inside (x : Expr) : Expr → Prop
  | refl : Inside x x
  | part {e part : Expr} : part ∈ e.form.parts → Inside x part → Inside x e
  | pattern {e part : Expr} {l : Literal} : l ∈ e.patternLiterals →
      part ∈ (Form.literal l).parts → Inside x part → Inside x e

theorem Expr.Inside.trans {x y e : Expr} (h : x.Inside y) (h' : y.Inside e) : x.Inside e := by
  induction h' with
  | refl => exact h
  | part hpart _ ih => exact .part hpart ih
  | pattern hl hpart _ ih => exact .pattern hl hpart ih

/-- The literal stands in a pattern of a match. -/
def Expr.HasPattern (l : Literal) (e : Expr) : Prop :=
  ∃ m : Expr, m.Inside e ∧ l ∈ m.patternLiterals

/-- The expression stands in a literal of a pattern. -/
def Expr.InPattern (x e : Expr) : Prop :=
  ∃ l part, e.HasPattern l ∧ part ∈ (Form.literal l).parts ∧ x.Inside part

theorem Expr.every_of_inside {P : Expr → Prop} (e : Expr) (h : ∀ x : Expr, x.Inside e → P x) :
    e.Every P :=
  .intro (h e .refl) fun part hpart =>
    every_of_inside part fun x hx => h x (.part hpart hx)
termination_by e.depth
decreasing_by exact depth_lt_of_mem_parts hpart

theorem Expr.Inside.patternsSatisfy {e : Expr} (y : Expr) (hy : y.Inside e) :
    y.PatternsSatisfy (e.HasPattern ·) :=
  every_of_inside y fun x hx _ hl => ⟨x, hx.trans hy, hl⟩

/-- A node of the result is one that traversals entered, or stood in a literal of a pattern. -/
theorem Expr.Every.inPattern {P : Expr → Prop} {e r x : Expr} (hP : r.Every P)
    (hpatterns : r.PatternsSatisfy (e.HasPattern ·)) (hx : x.Inside r) : P x ∨ x.InPattern e := by
  induction hx with
  | refl => exact .inl hP.self
  | part hpart _ ih => exact ih (hP.part _ hpart) (hpatterns.part _ hpart)
  | pattern hl hpart hx _ => exact .inr ⟨_, _, hpatterns.self _ hl, hpart, hx⟩

theorem whole_eq_ok {fuel : Nat} {e : Expr} {names : Names} {r : Reduct Expr} {s : Reducer}
    (h : whole fuel e ⟨names, .empty⟩ = (.ok r, s)) :
    Reduces .empty names e r.value s.names :=
  (follows_expr fuel e _ r _ (expr_of_whole h)).1

/-- A reduction that returns has inlined every application of a literal closure, but for those in
the literals of patterns, and reducing once more returns the same node and draws no name. -/
theorem reduce_normal {fuel : Nat} {e : Expr} {names : Names} {r : Reduct Expr} {s : Reducer}
    (hnan : e.PatternsSatisfy fun l => l.isNaN = false)
    (hr : whole fuel e ⟨names, .empty⟩ = (.ok r, s)) :
    (∀ x : Expr, x.Inside r.value → x.isRedex → x.InPattern e) ∧
      ∀ ctx, r.value.reduce ctx = (.ok (Reduct.kept r.value), ctx) := by
  have hrules := whole_eq_ok hr
  refine ⟨fun x hx hredex => ?_, fun ctx => ?_⟩
  · have hdone := hrules.done .empty (Expr.Inside.patternsSatisfy e .refl)
    exact (hdone.redexFree.inPattern hdone.patternsSatisfy hx).resolve_left (by simp [hredex])
  · have hdone := hrules.done .empty hnan
    exact reduce_of_idle (idle_of_redexFree hdone.redexFree hdone.patternsSatisfy
      (Nat.le_add_right _ _)) ctx

/-- A function that is passed a function and returns one that applies it. -/
def pairWithOuter : Expr :=
  let pair := Ty.tuple [Ty.int32, Ty.int32]
  let y := Expr.var "y" Ty.int32
  ⟨.apply (Expr.closure [⟨"f", Ty.function [Ty.int32] pair⟩] (Expr.closure [⟨"y", Ty.int32⟩]
      ⟨.apply (Expr.var "f" (Ty.function [Ty.int32] pair)) [y], pair⟩))
    [Expr.closure [⟨"x", Ty.int32⟩] (Expr.tuple [Expr.var "x" Ty.int32, y])],
    Ty.function [Ty.int32] pair⟩

theorem patternsSatisfy_pairWithOuter (Q : Literal → Prop) : pairWithOuter.PatternsSatisfy Q := by
  have hvar : ∀ x t, (Expr.var x t).PatternsSatisfy Q :=
    fun _ _ => Expr.patternsSatisfy_leaf rfl rfl
  have hpair : ∀ e e' form ty, e.PatternsSatisfy Q → e'.PatternsSatisfy Q →
      form.parts = [e, e'] → Expr.patternLiterals ⟨form, ty⟩ = [] →
      Expr.PatternsSatisfy Q ⟨form, ty⟩ := by
    intro e e' form ty he he' hparts hliterals
    refine Expr.patternsSatisfy_node hliterals ?_
    change ∀ part ∈ form.parts, _
    rw [hparts]
    exact List.forall_mem_cons.2 ⟨he, List.forall_mem_singleton.2 he'⟩
  have hclosure : ∀ params body, body.PatternsSatisfy Q →
      (Expr.closure params body).PatternsSatisfy Q :=
    fun _ _ h => Expr.patternsSatisfy_node rfl (List.forall_mem_singleton.2 h)
  refine hpair _ _ _ _ (hclosure _ _ (hclosure _ _ ?_)) (hclosure _ _ ?_) rfl rfl
  · exact hpair _ _ _ _ (hvar _ _) (hvar _ _) rfl rfl
  · exact hpair _ _ _ _ (hvar _ _) (hvar _ _) rfl rfl

/-- The parameter of the function that is returned makes way for the variable from outside. -/
theorem reduce_pairWithOuter : ∃ r s, whole 8 pairWithOuter ⟨.empty, .empty⟩ = (.ok r, s) ∧
    r.value = Expr.closure [⟨"y_0", Ty.int32⟩]
      (Expr.tuple [Expr.var "y_0" Ty.int32, Expr.var "y" Ty.int32]) ∧
    (∀ x : Expr, x.Inside r.value → x.isRedex → x.InPattern pairWithOuter) ∧
    ∀ ctx, r.value.reduce ctx = (.ok (Reduct.kept r.value), ctx) := by
  have hr : whole 8 pairWithOuter ⟨.empty, .empty⟩ =
      (.ok ⟨Expr.closure [⟨"y_0", Ty.int32⟩]
        (Expr.tuple [Expr.var "y_0" Ty.int32, Expr.var "y" Ty.int32]), true, 2⟩,
      ⟨⟨[("y_", 1)]⟩, .empty⟩) := by with_unfolding_all rfl
  exact ⟨_, _, hr, rfl, reduce_normal (patternsSatisfy_pairWithOuter _) hr⟩

/-- A match on a literal that holds an application. -/
def matchOnApplication : Expr :=
  let one := Expr.int32 1
  let identity := Expr.closure [⟨"x", Ty.int32⟩] (Expr.var "x" Ty.int32)
  ⟨.cases (Expr.literal (.vec [one]) (Ty.vec Ty.int32))
    [(.literal (.vec [⟨.apply identity [one], Ty.int32⟩]), Expr.int32 2),
      (.wildcard, Expr.int32 3)], Ty.int32⟩

/-- Its pattern stays as it is. -/
theorem reduce_matchOnApplication :
    matchOnApplication.PatternsSatisfy (fun l => l.isNaN = false) ∧
    ∃ r ctx, matchOnApplication.reduce Context.empty = (.ok r, ctx) ∧
      ∃ x : Expr, x.Inside r.value ∧ x.isRedex := by
  have hint : ∀ i, (Expr.int32 i).PatternsSatisfy fun l => l.isNaN = false :=
    fun _ => .intro nofun nofun
  constructor
  · refine .intro (by simp [matchOnApplication, Expr.patternLiterals, Pattern.literals,
      Literal.isNaN]) (List.forall_mem_cons.2 ⟨.intro nofun ?_, ?_⟩)
    · exact List.forall_mem_singleton.2 (hint 1)
    · exact List.forall_mem_cons.2 ⟨hint 2, List.forall_mem_singleton.2 (hint 3)⟩
  · refine ⟨Reduct.kept matchOnApplication, Context.empty, by with_unfolding_all rfl, _,
      .pattern (List.mem_cons_self) (List.mem_singleton_self _) .refl, rfl⟩

end ViewCircuit
