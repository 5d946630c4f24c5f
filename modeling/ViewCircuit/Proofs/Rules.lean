import ViewCircuit.Proofs.Reduce

/-! The rules of reduction. Scopes come from outside and only the names drawn are passed on; a run
that returns follows the rules, and what the rules allow is run with enough fuel. -/
namespace ViewCircuit

open Reduce (bindName bindNames renameParams SubstitutesAll)

mutual
/-- `Reduces Δ names e e' later`: under the scopes, an expression becomes another one while names
are drawn. A literal closure is applied under the open scopes, one that a function became under its
own parameters only. -/
inductive Reduces : Scopes → Names → Expr → Expr → Names → Prop
  | var {Δ : Scopes} {names : Names} {name : String} {ty : Ty} :
      Reduces Δ names ⟨.var name, ty⟩ (Δ.occurrence name ty) names
  | head {Δ : Scopes} {names later : Names} {e : Expr} {head : Head} {parts parts' : List Expr} :
      e.form.head? = some (head, parts) → ReducesAll Δ names parts parts' later →
      Reduces Δ names e ⟨head.build parts', e.ty⟩ later
  | ite {Δ : Scopes} {names names₁ names₂ later : Names}
      {condition condition' yes yes' no no' : Expr} {ty : Ty} :
      Reduces Δ names condition condition' names₁ → Reduces Δ names₁ yes yes' names₂ →
      Reduces Δ names₂ no no' later →
      Reduces Δ names ⟨.ite condition yes no, ty⟩ ⟨.ite condition' yes' no', ty⟩ later
  | closure {Δ Δ₁ : Scopes} {names names₁ later : Names} {params : List Param}
      {bound : List String} {body body' : Expr} {ty : Ty} :
      bindNames (params.map Param.name) body.free ⟨names, Δ.push⟩ = (.ok bound, ⟨names₁, Δ₁⟩) →
      Reduces Δ₁ names₁ body body' later →
      Reduces Δ names ⟨.closure params body, ty⟩ ⟨.closure (renameParams params bound) body', ty⟩
        later
  | block {Δ : Scopes} {names later : Names} {body body' : Block} {ty : Ty} :
      ReducesBlock (Expr.freeBlock body) Δ.push names body body' later →
      Reduces Δ names ⟨.block body, ty⟩ ⟨.block body', ty⟩ later
  | cases {Δ : Scopes} {names names₁ later : Names} {scrutinee scrutinee' : Expr}
      {arms arms' : List (Pattern × Expr)} {ty : Ty} :
      Reduces Δ names scrutinee scrutinee' names₁ → ReducesArms Δ names₁ arms arms' later →
      Reduces Δ names ⟨.cases scrutinee arms, ty⟩ ⟨.cases scrutinee' arms', ty⟩ later
  | inline {Δ Δ₁ : Scopes} {names names₁ later : Names} {params : List Param} {body e' : Expr}
      {args args' : List Expr} {fty ty : Ty} :
      ReducesAll Δ names args args' names₁ →
      SubstitutesAll ⟨names₁, Δ.push⟩ params args' ⟨names₁, Δ₁⟩ →
      Reduces Δ₁ names₁ body e' later →
      Reduces Δ names ⟨.apply ⟨.closure params body, fty⟩ args, ty⟩ e' later
  | inlineResult {Δ Δ₁ : Scopes} {names names₁ names₂ later : Names} {function body e' : Expr}
      {params : List Param} {args args' : List Expr} {fty ty : Ty} :
      function.closure? = none → ReducesAll Δ names args args' names₁ →
      Reduces Δ names₁ function ⟨.closure params body, fty⟩ names₂ →
      SubstitutesAll ⟨names₂, Scopes.empty.push⟩ params args' ⟨names₂, Δ₁⟩ →
      Reduces Δ₁ names₂ body e' later →
      Reduces Δ names ⟨.apply function args, ty⟩ e' later
  | apply {Δ : Scopes} {names names₁ later : Names} {function function' : Expr}
      {args args' : List Expr} {ty : Ty} :
      function.closure? = none → ReducesAll Δ names args args' names₁ →
      Reduces Δ names₁ function function' later → function'.closure? = none →
      Reduces Δ names ⟨.apply function args, ty⟩ ⟨.apply function' args', ty⟩ later

/-- Expressions one after the other. -/
inductive ReducesAll : Scopes → Names → List Expr → List Expr → Names → Prop
  | nil {Δ : Scopes} {names : Names} : ReducesAll Δ names [] [] names
  | cons {Δ : Scopes} {names names₁ later : Names} {e e' : Expr} {es es' : List Expr} :
      Reduces Δ names e e' names₁ → ReducesAll Δ names₁ es es' later →
      ReducesAll Δ names (e :: es) (e' :: es') later

/-- The rest of a block whose free variables are to be avoided. -/
inductive ReducesBlock : List String → Scopes → Names → Block → Block → Names → Prop
  | unit {avoid : List String} {Δ : Scopes} {names : Names} :
      ReducesBlock avoid Δ names (.done none) (.done none) names
  | result {avoid : List String} {Δ : Scopes} {names later : Names} {e e' : Expr} :
      Reduces Δ names e e' later →
      ReducesBlock avoid Δ names (.done (some e)) (.done (some e')) later
  | declare {avoid : List String} {Δ Δ₁ : Scopes} {names names₁ later : Names}
      {name bound : String} {ty : Ty} {mutable : Bool} {rest rest' : Block} :
      bindName name avoid ⟨names, Δ⟩ = (.ok bound, ⟨names₁, Δ₁⟩) →
      ReducesBlock avoid Δ₁ names₁ rest rest' later →
      ReducesBlock avoid Δ names (.bind name ty mutable none rest)
        (.bind bound ty mutable none rest')
        later
  | bind {avoid : List String} {Δ Δ₁ : Scopes} {names names₁ names₂ later : Names}
      {name bound : String} {ty : Ty} {mutable : Bool} {init init' : Expr} {rest rest' : Block} :
      Reduces Δ names init init' names₁ →
      bindName name avoid ⟨names₁, Δ⟩ = (.ok bound, ⟨names₂, Δ₁⟩) →
      ReducesBlock avoid Δ₁ names₂ rest rest' later →
      ReducesBlock avoid Δ names (.bind name ty mutable (some init) rest)
        (.bind bound ty mutable (some init') rest') later
  | exec {avoid : List String} {Δ : Scopes} {names names₁ later : Names} {e e' : Expr}
      {rest rest' : Block} : Reduces Δ names e e' names₁ →
      ReducesBlock avoid Δ names₁ rest rest' later →
      ReducesBlock avoid Δ names (.exec e rest) (.exec e' rest') later

/-- The arms of a match, each in a scope of its own. -/
inductive ReducesArms : Scopes → Names → List (Pattern × Expr) → List (Pattern × Expr) → Names →
    Prop
  | nil {Δ : Scopes} {names : Names} : ReducesArms Δ names [] [] names
  | cons {Δ Δ₁ : Scopes} {names names₁ names₂ later : Names} {p : Pattern} {bound : List String}
      {body body' : Expr} {arms arms' : List (Pattern × Expr)} :
      bindNames p.bindings body.free ⟨names, Δ.push⟩ = (.ok bound, ⟨names₁, Δ₁⟩) →
      Reduces Δ₁ names₁ body body' names₂ → ReducesArms Δ names₂ arms arms' later →
      ReducesArms Δ names ((p, body) :: arms)
        ((p.rename (lastName (p.bindings.zip bound)), body') :: arms') later
end

namespace Reduce

section Follows

variable {f : Expr → Reduce (Reduct Expr)} {s s' : Reducer}

/-- Whatever the step returns follows the rules, and scopes are as before. -/
def Follows (f : Expr → Reduce (Reduct Expr)) : Prop := ∀ e s r s', f e s = (.ok r, s') →
  Reduces s.scopes s.names e r.value s'.names ∧ s'.scopes = s.scopes

theorem Follows.each (hf : Follows f) {es : List Expr} {rs : List (Reduct Expr)}
    (h : Each f s es rs s') :
    ReducesAll s.scopes s.names es (rs.map Reduct.value) s'.names ∧ s'.scopes = s.scopes := by
  induction h with
  | nil => exact ⟨.nil, rfl⟩
  | cons hr _ ih =>
    obtain ⟨hone, hscopes⟩ := hf _ _ _ _ hr
    obtain ⟨hall, hscopes'⟩ := ih
    rw [hscopes] at hall
    exact ⟨.cons hone hall, hscopes'.trans hscopes⟩

theorem stack_of_bindName {name bound : String} {avoid : List String} {outer : List Scope}
    (h : bindName name avoid s = (.ok bound, s')) (hs : ∃ top, s.scopes.stack = top :: outer) :
    ∃ top, s'.scopes.stack = top :: outer := by
  obtain ⟨top, hstack⟩ := hs
  obtain ⟨top', rest, b, hstack', hstack'', -⟩ := (bindName_eq_ok h).scopes
  obtain ⟨rfl, rfl⟩ := List.cons.inj (hstack'.symm.trans hstack)
  exact ⟨_, hstack''⟩

theorem Follows.block (hf : Follows f) {avoid : List String} {outer : List Scope} : ∀ {b : Block}
    {s : Reducer} {r : Reduct Block} {s' : Reducer}, Reduce.block f avoid b s = (.ok r, s') →
    (∃ top, s.scopes.stack = top :: outer) →
    ReducesBlock avoid s.scopes s.names b r.value s'.names ∧
      ∃ top, s'.scopes.stack = top :: outer
  | .done none, s, r, s', h, hs => by
    cases h
    exact ⟨.unit, hs⟩
  | .done (some e), s, r, s', h, hs => by
    obtain ⟨o, s₁, ho, h⟩ := (run_bind_eq_ok _ _).1 h
    obtain ⟨a, s₂, ha, ho⟩ := (run_bind_eq_ok _ _).1 ho
    cases ho
    cases h
    obtain ⟨hone, hscopes⟩ := hf _ _ _ _ ha
    exact ⟨.result hone, hscopes ▸ hs⟩
  | .bind name ty mutable none rest, s, r, s', h, hs => by
    obtain ⟨o, s₁, ho, h₁⟩ := (run_bind_eq_ok _ _).1 h
    cases ho
    obtain ⟨bound, s₂, hbound, h₂⟩ := (run_bind_eq_ok _ _).1 h₁
    obtain ⟨b, s₃, hb, h₃⟩ := (run_bind_eq_ok _ _).1 h₂
    cases h₃
    obtain ⟨hrest, hstack⟩ := hf.block hb (stack_of_bindName hbound hs)
    exact ⟨.declare hbound hrest, hstack⟩
  | .bind name ty mutable (some init) rest, s, r, s', h, hs => by
    obtain ⟨o, s₁, ho, h⟩ := (run_bind_eq_ok _ _).1 h
    obtain ⟨a, s₀, ha, ho⟩ := (run_bind_eq_ok _ _).1 ho
    obtain ⟨bound, s₂, hbound, h⟩ := (run_bind_eq_ok _ _).1 h
    obtain ⟨b, s₃, hb, h⟩ := (run_bind_eq_ok _ _).1 h
    cases ho
    cases h
    obtain ⟨hone, hscopes⟩ := hf _ _ _ _ ha
    obtain ⟨names₁, Δ⟩ := s₁
    obtain rfl : Δ = s.scopes := hscopes
    obtain ⟨hrest, hstack⟩ := hf.block hb (stack_of_bindName hbound hs)
    exact ⟨.bind hone hbound hrest, hstack⟩
  | .exec e rest, s, r, s', h, hs => by
    obtain ⟨a, s₁, ha, h⟩ := (run_bind_eq_ok _ _).1 h
    obtain ⟨b, s₂, hb, h⟩ := (run_bind_eq_ok _ _).1 h
    cases h
    obtain ⟨hone, hscopes⟩ := hf _ _ _ _ ha
    obtain ⟨hrest, hstack⟩ := hf.block hb (hscopes ▸ hs)
    rw [hscopes] at hrest
    exact ⟨.exec hone hrest, hstack⟩

theorem Follows.arms (hf : Follows f) (hkeep : Keeping f) {arms : List (Pattern × Expr)}
    {r : Reduct (List (Pattern × Expr))} (h : Reduce.arms f arms s = (.ok r, s')) :
    ReducesArms s.scopes s.names arms r.value s'.names ∧ s'.scopes = s.scopes := by
  induction arms generalizing s r with
  | nil =>
    cases h
    exact ⟨.nil, rfl⟩
  | cons arm arms ih =>
    obtain ⟨p, body⟩ := arm
    obtain ⟨a, s₁, ha, h⟩ := (run_bind_eq_ok _ _).1 h
    obtain ⟨c, s₂, hc, h⟩ := (run_bind_eq_ok _ _).1 h
    cases h
    obtain ⟨bound, s₃, b, s₄, hbound, hb, hpop, hnames, hvalue, -⟩ := arm_eq_ok hkeep ha
    obtain ⟨hone, hscopes⟩ := hf body s₃ b s₄ hb
    obtain ⟨top, hstack⟩ := (bindNames_eq_ok hbound).stack (s := opened s) rfl
    have hback : s₁.scopes = s.scopes := scopes_of_pop (hscopes ▸ hstack) hpop
    obtain ⟨hrest, hscopes'⟩ := ih hc
    rw [hnames, hback] at hrest
    simp only [Reduct.map₂, hvalue]
    exact ⟨.cons hbound hone hrest, hscopes'.trans hback⟩

/-- A body under the parameters of its closure. -/
theorem Follows.inline (hf : Follows f) {params : List Param} {body : Expr} {args : List Expr}
    {r : Reduct Expr} (h : Reduce.inline f params body args s = (.ok r, s')) :
    s'.scopes = s.scopes ∧ ∃ Δ, SubstitutesAll (opened s) params args ⟨s.names, Δ⟩ ∧
      Reduces Δ s.names body r.value s'.names := by
  obtain ⟨⟨names₁, Δ₁⟩, s₂, hall, hbody, hpop, hnames⟩ := inline_eq_ok h
  obtain ⟨hone, hscopes⟩ := hf body _ r s₂ hbody
  obtain rfl : names₁ = s.names := hall.names
  obtain ⟨top, hstack⟩ := hall.stack ⟨_, rfl⟩
  rw [hnames]
  exact ⟨scopes_of_pop (hscopes ▸ hstack) hpop, Δ₁, hall, hone⟩

theorem Follows.apply (hf : Follows f) (hkeep : Keeping f) {function : Expr} {args : List Expr}
    {ty : Ty} {r : Reduct Expr} (h : node f ⟨.apply function args, ty⟩ s = (.ok r, s')) :
    Reduces s.scopes s.names ⟨.apply function args, ty⟩ r.value s'.names ∧
      s'.scopes = s.scopes := by
  obtain ⟨a, s₁, ha, h⟩ := (run_bind_eq_ok _ _).1 h
  obtain ⟨rs, hrs, hargsValue⟩ := all_eq_ok ha
  obtain ⟨hargs, hscopes⟩ := hf.each hrs.each
  rw [← hargsValue] at hargs
  cases hclosure : function.closure? with
  | some r₀ =>
    obtain ⟨params, body⟩ := r₀
    obtain ⟨fty, rfl⟩ := closure?_eq_some hclosure
    obtain ⟨b, s₂, hb, h⟩ := (run_bind_eq_ok _ _).1 h
    cases h
    obtain ⟨hscopes', Δ, hall, hbody⟩ := hf.inline hb
    rw [opened, hscopes] at hall
    exact ⟨.inline hargs hall hbody, hscopes'.trans hscopes⟩
  | none =>
    simp only [hclosure] at h
    obtain ⟨b, s₂, hb, h⟩ := (run_bind_eq_ok _ _).1 h
    obtain ⟨hfunction, hscopes'⟩ := hf function s₁ b s₂ hb
    rw [hscopes] at hfunction
    cases hclosure' : b.value.closure? with
    | some r₀ =>
      obtain ⟨params, body⟩ := r₀
      simp only [hclosure'] at h
      obtain ⟨c, s₃, hc, h⟩ := (run_bind_eq_ok _ _).1 h
      cases h
      obtain ⟨s₄, hinline, hback, hnames⟩ := unscoped_eq_ok hc
      obtain ⟨fty, hvalue⟩ := closure?_eq_some hclosure'
      obtain ⟨-, Δ, hall, hbody⟩ := hf.inline hinline
      rw [hvalue] at hfunction
      rw [hnames]
      exact ⟨.inlineResult hclosure hargs hfunction hall hbody,
        hback.trans (hscopes'.trans hscopes)⟩
    | none =>
      simp only [hclosure'] at h
      cases h
      rw [value_apply hkeep ha hb]
      exact ⟨.apply hclosure hargs hfunction hclosure', hscopes'.trans hscopes⟩

theorem Follows.node (hf : Follows f) (hkeep : Keeping f) : Follows (node f) := by
  rintro ⟨form, ty⟩ s r s' h
  cases hhead : form.head? with
  | some r₀ =>
    obtain ⟨head, parts⟩ := r₀
    obtain ⟨rs, heach, hvalue⟩ := node_head hkeep hhead h
    obtain ⟨hall, hscopes⟩ := hf.each heach
    rw [hvalue]
    exact ⟨.head hhead hall, hscopes⟩
  | none =>
    cases form with
    | var name =>
      have hrun := (occurrence_eq ⟨.var name, ty⟩ name).symm.trans h
      have hvalue : r.value = s.scopes.occurrence name ty ∧ s' = s := by
        unfold Scopes.occurrence
        rcases hx : s.scopes.lookup? name with _ | _ | _ | _ <;> rw [hx] at hrun <;>
          cases hrun <;> exact ⟨rfl, rfl⟩
      obtain ⟨hvalue, rfl⟩ := hvalue
      rw [hvalue]
      exact ⟨.var, rfl⟩
    | apply function args => exact hf.apply hkeep h
    | closure params body =>
      obtain ⟨bound, s₁, b, s₂, hbound, hb, hpop, hnames, hvalue⟩ := closure_eq_ok hkeep h
      obtain ⟨hone, hscopes⟩ := hf body s₁ b s₂ hb
      obtain ⟨top, hstack⟩ := (bindNames_eq_ok hbound).stack (s := opened s) rfl
      rw [hvalue, hnames]
      exact ⟨.closure hbound hone, scopes_of_pop (hscopes ▸ hstack) hpop⟩
    | block body =>
      obtain ⟨a, s₁, ha, h⟩ := (run_bind_eq_ok _ _).1 h
      cases h
      obtain ⟨s₂, hblock, hpop, hnames⟩ := inScope_eq_ok ha
      rw [Expr.freeVariables_eq] at hblock
      obtain ⟨hdone, top, hstack⟩ := hf.block hblock ⟨_, rfl⟩
      have hvalue : (Reduct.rebuild ⟨.block body, ty⟩ (a.map Form.block)).value =
          ⟨.block a.value, ty⟩ :=
        value_rebuild fun hkept => congrArg Form.block (block_keeps hkeep hblock hkept)
      rw [hvalue, hnames]
      exact ⟨.block hdone, scopes_of_pop hstack hpop⟩
    | ite c y n =>
      obtain ⟨a, s₁, ha, h⟩ := (run_bind_eq_ok _ _).1 h
      obtain ⟨b, s₂, hb, h⟩ := (run_bind_eq_ok _ _).1 h
      obtain ⟨d, s₃, hd, h⟩ := (run_bind_eq_ok _ _).1 h
      cases h
      have heach : Each f s [c, y, n] [a, b, d] s' := .cons ha (.cons hb (.cons hd .nil))
      obtain ⟨hall, hscopes⟩ := hf.each heach
      obtain _ | ⟨hc, _ | ⟨hy, _ | ⟨hn, hrest⟩⟩⟩ := hall
      cases hrest
      rw [value_ite hkeep heach]
      exact ⟨.ite hc hy hn, hscopes⟩
    | cases scrutinee arms =>
      obtain ⟨a, s₁, ha, h⟩ := (run_bind_eq_ok _ _).1 h
      obtain ⟨c, s₂, hc, h⟩ := (run_bind_eq_ok _ _).1 h
      cases h
      obtain ⟨hone, hscopes⟩ := hf scrutinee s a s₁ ha
      obtain ⟨harms, hscopes'⟩ := hf.arms hkeep hc
      rw [hscopes] at harms
      rw [value_cases hkeep ha hc]
      exact ⟨.cases hone harms, hscopes'.trans hscopes⟩
    | literal value => cases value <;> cases hhead
    | _ => cases hhead

theorem follows_expr : ∀ fuel, Follows (expr fuel)
  | 0 => fun _ _ _ _ h => by cases h
  | fuel + 1 => (follows_expr fuel).node (keeping_expr fuel)

end Follows

section Runs

variable {Δ : Scopes} {names later : Names}

/-- From some fuel on, the expression is reduced to the other one. -/
def Runs (Δ : Scopes) (names : Names) (e e' : Expr) (later : Names) : Prop :=
  ∃ n, ∀ fuel ≥ n, ∃ r, expr fuel e ⟨names, Δ⟩ = (.ok r, ⟨later, Δ⟩) ∧ r.value = e'

theorem runs_of_node {e e' : Expr} (n : Nat) (h : ∀ fuel ≥ n, ∃ r,
    node (expr fuel) e ⟨names, Δ⟩ = (.ok r, ⟨later, Δ⟩) ∧ r.value = e') :
    Runs Δ names e e' later := by
  refine ⟨n + 1, fun fuel hfuel => ?_⟩
  obtain ⟨fuel, rfl⟩ := Nat.exists_eq_add_of_le' (Nat.le_of_add_left_le hfuel)
  exact h fuel (by omega)

theorem substitute_of_ok {s s' : Reducer} {name : String} {arg : Expr}
    (h : Substitutes s name arg s') :
    onScopes (fun Δ => Δ.substitute name arg) s = (.ok (), s') := by
  obtain ⟨names, ⟨stack⟩⟩ := s
  obtain ⟨names', ⟨stack'⟩⟩ := s'
  obtain ⟨hnames, top, rest, hstack, hstack'⟩ := h
  dsimp only at hnames hstack hstack'
  subst hnames hstack hstack'
  rfl

theorem substituteAll_of_ok {s s' : Reducer} {params : List Param} {args : List Expr}
    (h : SubstitutesAll s params args s') : substituteAll params args s = (.ok (), s') := by
  unfold substituteAll
  induction h with
  | nil => rfl
  | cons hone _ ih => exact (run_bind_eq_ok _ _).2 ⟨(), _, substitute_of_ok hone, ih⟩

variable {f : Expr → Reduce (Reduct Expr)} {s₁ s₂ : Reducer} {r : Reduct Expr}

theorem inline_of_ok {s : Reducer} {params : List Param} {body : Expr} {args : List Expr}
    (hall : SubstitutesAll (opened s) params args s₁) (hbody : f body s₁ = (.ok r, s₂))
    (hscopes : s₂.scopes = s₁.scopes) :
    inline f params body args s = (.ok r, ⟨s₂.names, s.scopes⟩) := by
  obtain ⟨top, hstack⟩ := hall.stack ⟨_, rfl⟩
  have hpop : s₂.scopes.pop = .ok s.scopes := by
    rw [hscopes, Scopes.pop, hstack]
  have hact : (substituteAll params args >>= fun _ => f body) (opened s) = (.ok r, s₂) :=
    (run_bind_eq_ok _ _).2 ⟨_, _, substituteAll_of_ok hall, hbody⟩
  rw [inline_eq_inScope hall.length_eq]
  exact inScope_of_run s₂ hact hpop

theorem unscoped_of_ok {α : Type} {s : Reducer} {act : Reduce α} {a : α}
    (h : act ⟨s.names, .empty⟩ = (.ok a, s₁)) :
    unscoped act s = (.ok a, ⟨s₁.names, s.scopes⟩) :=
  (run_bind_eq_ok _ _).2 ⟨s, s, rfl, (run_bind_eq_ok _ _).2 ⟨(), ⟨s.names, .empty⟩, rfl,
    (run_bind_eq_ok _ _).2 ⟨_, _, attempt_eq h, (run_bind_eq_ok _ _).2 ⟨(), _, rfl, rfl⟩⟩⟩⟩

theorem pop_of_bindNames {Δ₁ : Scopes} {names names₁ : Names} {xs bound avoid : List String}
    {Δ : Scopes} (h : bindNames xs avoid ⟨names, Δ.push⟩ = (.ok bound, ⟨names₁, Δ₁⟩)) :
    Δ₁.pop = .ok Δ := by
  obtain ⟨top, hstack⟩ := (bindNames_eq_ok h).stack (s := ⟨names, Δ.push⟩) rfl
  rw [Scopes.pop, hstack]

theorem closure_of_ok (hkeep : Keeping f) {Δ₁ : Scopes} {names₁ : Names} {params : List Param}
    {bound : List String} {body : Expr} {ty : Ty} {b : Reduct Expr}
    (hbound : bindNames (params.map Param.name) body.free ⟨names, Δ.push⟩ =
      (.ok bound, ⟨names₁, Δ₁⟩))
    (hb : f body ⟨names₁, Δ₁⟩ = (.ok b, ⟨later, Δ₁⟩)) :
    ∃ r, node f ⟨.closure params body, ty⟩ ⟨names, Δ⟩ = (.ok r, ⟨later, Δ⟩) ∧
      r.value = ⟨.closure (renameParams params bound) b.value, ty⟩ := by
  have hrun : ∃ r, node f ⟨.closure params body, ty⟩ ⟨names, Δ⟩ = (.ok r, ⟨later, Δ⟩) := by
    change ∃ r, closure f _ params body _ = (.ok r, _)
    rw [closure_eq_inScope]
    exact ⟨_, inScope_of_run ⟨later, Δ₁⟩ ((run_bind_eq_ok _ _).2 ⟨_, _, hbound,
      (run_bind_eq_ok _ _).2 ⟨_, _, hb, rfl⟩⟩) (pop_of_bindNames hbound)⟩
  obtain ⟨r, hrun⟩ := hrun
  obtain ⟨bound', s₁, b', s₂, hbound', hb', -, -, hvalue⟩ := closure_eq_ok hkeep hrun
  cases hbound.symm.trans hbound'
  cases hb.symm.trans hb'
  exact ⟨r, hrun, hvalue⟩

theorem arm_of_ok {Δ₁ : Scopes} {names₁ : Names} {p : Pattern} {bound : List String}
    {body : Expr} {b : Reduct Expr}
    (hbound : bindNames p.bindings body.free ⟨names, Δ.push⟩ = (.ok bound, ⟨names₁, Δ₁⟩))
    (hb : f body ⟨names₁, Δ₁⟩ = (.ok b, ⟨later, Δ₁⟩)) :
    ∃ r, arm f p body ⟨names, Δ⟩ = (.ok r, ⟨later, Δ⟩) ∧
      r.value = (p.rename (lastName (p.bindings.zip bound)), b.value) := by
  rw [← Expr.freeVariables_eq] at hbound
  exact ⟨_, inScope_of_run ⟨later, Δ₁⟩ ((run_bind_eq_ok _ _).2 ⟨_, _, hbound,
    (run_bind_eq_ok _ _).2 ⟨_, _, hb, rfl⟩⟩) (pop_of_bindNames hbound), rfl⟩

end Runs

end Reduce

open Reduce

mutual
theorem Reduces.runs {Δ : Scopes} {names later : Names} {e e' : Expr} :
    Reduces Δ names e e' later → Runs Δ names e e' later
  | @Reduces.var _ _ name _ => by
    refine runs_of_node 0 fun fuel _ => ⟨_, occurrence_eq _ name, ?_⟩
    unfold Scopes.occurrence
    rcases Δ.lookup? name with _ | _ | _ | _ <;> rfl
  | .head hform hparts => by
    obtain ⟨n, hparts⟩ := hparts.runs
    refine runs_of_node n fun fuel hfuel => ?_
    obtain ⟨rs, hrs, rfl⟩ := hparts fuel hfuel
    refine ⟨_, node_of_each hform hrs, rebuild_head (keeping_expr fuel) hform ⟨hrs, ?_⟩ rfl⟩
    exact fun hkept => by simpa [gathered] using hkept
  | .ite hcondition hyes hno => by
    obtain ⟨n, hcondition⟩ := hcondition.runs
    obtain ⟨m, hyes⟩ := hyes.runs
    obtain ⟨l, hno⟩ := hno.runs
    refine runs_of_node (n + m + l) fun fuel hfuel => ?_
    obtain ⟨a, ha, rfl⟩ := hcondition fuel (by omega)
    obtain ⟨b, hb, rfl⟩ := hyes fuel (by omega)
    obtain ⟨c, hc, rfl⟩ := hno fuel (by omega)
    exact ⟨_, (run_bind_eq_ok _ _).2 ⟨_, _, ha, (run_bind_eq_ok _ _).2 ⟨_, _, hb,
      (run_bind_eq_ok _ _).2 ⟨_, _, hc, rfl⟩⟩⟩,
      value_ite (keeping_expr fuel) (.cons ha (.cons hb (.cons hc .nil)))⟩
  | .closure hbound hbody => by
    obtain ⟨n, hbody⟩ := hbody.runs
    refine runs_of_node n fun fuel hfuel => ?_
    obtain ⟨b, hb, rfl⟩ := hbody fuel hfuel
    exact closure_of_ok (keeping_expr fuel) hbound hb
  | @Reduces.block _ _ _ body _ ty hbody => by
    obtain ⟨n, hbody⟩ := hbody.runs _ _ rfl
    refine runs_of_node n fun fuel hfuel => ?_
    obtain ⟨r, Δ', top, hr, rfl, hstack⟩ := hbody fuel hfuel
    have hpop : Δ'.pop = .ok Δ := by rw [Scopes.pop, hstack]
    have hscope : inScope (block (expr fuel) (Expr.freeVariables ⟨.block body, ty⟩) body)
        ⟨names, Δ⟩ = (.ok r, ⟨later, Δ⟩) := by
      rw [Expr.freeVariables_eq]
      exact inScope_of_run ⟨_, Δ'⟩ hr hpop
    refine ⟨_, (run_bind_eq_ok _ _).2 ⟨_, _, hscope, rfl⟩, ?_⟩
    exact value_rebuild fun hkept => congrArg Form.block (block_keeps (keeping_expr fuel) hr hkept)
  | .cases hscrutinee harms => by
    obtain ⟨n, hscrutinee⟩ := hscrutinee.runs
    obtain ⟨m, harms⟩ := harms.runs
    refine runs_of_node (n + m) fun fuel hfuel => ?_
    obtain ⟨a, ha, rfl⟩ := hscrutinee fuel (by omega)
    obtain ⟨c, hc, rfl⟩ := harms fuel (by omega)
    exact ⟨_, (run_bind_eq_ok _ _).2 ⟨_, _, ha, (run_bind_eq_ok _ _).2 ⟨_, _, hc, rfl⟩⟩,
      value_cases (keeping_expr fuel) ha hc⟩
  | .inline hargs hall hbody => by
    obtain ⟨n, hargs⟩ := hargs.runs
    obtain ⟨m, hbody⟩ := hbody.runs
    refine runs_of_node (n + m) fun fuel hfuel => ?_
    obtain ⟨rs, hrs, rfl⟩ := hargs fuel (by omega)
    obtain ⟨b, hb, rfl⟩ := hbody fuel (by omega)
    exact ⟨_, (run_bind_eq_ok _ _).2 ⟨_, _, all_of_each hrs, (run_bind_eq_ok _ _).2
      ⟨_, _, inline_of_ok (s := ⟨_, Δ⟩) hall hb rfl, rfl⟩⟩, rfl⟩
  | .inlineResult hclosure hargs hfunction hall hbody => by
    obtain ⟨n, hargs⟩ := hargs.runs
    obtain ⟨m, hfunction⟩ := hfunction.runs
    obtain ⟨l, hbody⟩ := hbody.runs
    refine runs_of_node (n + m + l) fun fuel hfuel => ?_
    obtain ⟨rs, hrs, rfl⟩ := hargs fuel (by omega)
    obtain ⟨b, hb, hvalue⟩ := hfunction fuel (by omega)
    obtain ⟨c, hc, rfl⟩ := hbody fuel (by omega)
    have hclosure' := congrArg Expr.closure? hvalue
    refine ⟨⟨c.value, true, c.fired + (rs.map Reduct.fired).sum + 1⟩,
      (run_bind_eq_ok _ _).2 ⟨_, _, all_of_each hrs, ?_⟩, rfl⟩
    simp only [hclosure]
    refine (run_bind_eq_ok _ _).2 ⟨_, _, hb, ?_⟩
    rw [hclosure']
    exact (run_bind_eq_ok _ _).2 ⟨_, _, unscoped_of_ok (s := ⟨_, Δ⟩)
      (inline_of_ok (s := ⟨_, .empty⟩) hall hc rfl), rfl⟩
  | .apply hclosure hargs hfunction hclosure' => by
    obtain ⟨n, hargs⟩ := hargs.runs
    obtain ⟨m, hfunction⟩ := hfunction.runs
    refine runs_of_node (n + m) fun fuel hfuel => ?_
    obtain ⟨rs, hrs, rfl⟩ := hargs fuel (by omega)
    obtain ⟨b, hb, rfl⟩ := hfunction fuel (by omega)
    refine ⟨_, (run_bind_eq_ok _ _).2 ⟨_, _, all_of_each hrs, ?_⟩,
      value_apply (keeping_expr fuel) (all_of_each hrs) hb⟩
    simp only [hclosure]
    refine (run_bind_eq_ok _ _).2 ⟨_, _, hb, ?_⟩
    rw [hclosure']
    rfl
theorem ReducesAll.runs {Δ : Scopes} {names later : Names} {es es' : List Expr} :
    ReducesAll Δ names es es' later → ∃ n, ∀ fuel ≥ n, ∃ rs,
      Each (expr fuel) ⟨names, Δ⟩ es rs ⟨later, Δ⟩ ∧ rs.map Reduct.value = es'
  | .nil => ⟨0, fun _ _ => ⟨[], .nil, rfl⟩⟩
  | .cons hone hall => by
    obtain ⟨n, hone⟩ := hone.runs
    obtain ⟨m, hall⟩ := hall.runs
    refine ⟨n + m, fun fuel hfuel => ?_⟩
    obtain ⟨r, hr, rfl⟩ := hone fuel (by omega)
    obtain ⟨rs, hrs, rfl⟩ := hall fuel (by omega)
    exact ⟨r :: rs, .cons hr hrs, rfl⟩
theorem ReducesBlock.runs {avoid : List String} {Δ : Scopes} {names later : Names} {b b' : Block} :
    ReducesBlock avoid Δ names b b' later → ∀ top outer, Δ.stack = top :: outer →
      ∃ n, ∀ fuel ≥ n, ∃ r Δ' top', block (expr fuel) avoid b ⟨names, Δ⟩ = (.ok r, ⟨later, Δ'⟩) ∧
        r.value = b' ∧ Δ'.stack = top' :: outer
  | .unit, top, outer, hstack => ⟨0, fun _ _ => ⟨_, Δ, top, rfl, rfl, hstack⟩⟩
  | .result he, top, outer, hstack => by
    obtain ⟨n, he⟩ := he.runs
    refine ⟨n, fun fuel hfuel => ?_⟩
    obtain ⟨r, hr, rfl⟩ := he fuel hfuel
    exact ⟨_, Δ, top, (run_bind_eq_ok _ _).2 ⟨_, _, (run_bind_eq_ok _ _).2 ⟨_, _, hr, rfl⟩, rfl⟩,
      rfl, hstack⟩
  | .declare hbound hrest, top, outer, hstack => by
    obtain ⟨top₁, hstack₁⟩ := stack_of_bindName hbound ⟨top, hstack⟩
    obtain ⟨n, hrest⟩ := hrest.runs top₁ outer hstack₁
    refine ⟨n, fun fuel hfuel => ?_⟩
    obtain ⟨r, Δ', top', hr, rfl, hstack'⟩ := hrest fuel hfuel
    exact ⟨_, Δ', top', (run_bind_eq_ok _ _).2 ⟨_, _, rfl, (run_bind_eq_ok _ _).2
      ⟨_, _, hbound, (run_bind_eq_ok _ _).2 ⟨_, _, hr, rfl⟩⟩⟩, rfl, hstack'⟩
  | .bind hinit hbound hrest, top, outer, hstack => by
    obtain ⟨top₁, hstack₁⟩ := stack_of_bindName hbound ⟨top, hstack⟩
    obtain ⟨n, hinit⟩ := hinit.runs
    obtain ⟨m, hrest⟩ := hrest.runs top₁ outer hstack₁
    refine ⟨n + m, fun fuel hfuel => ?_⟩
    obtain ⟨a, ha, rfl⟩ := hinit fuel (by omega)
    obtain ⟨r, Δ', top', hr, rfl, hstack'⟩ := hrest fuel (by omega)
    exact ⟨_, Δ', top', (run_bind_eq_ok _ _).2 ⟨_, _, (run_bind_eq_ok _ _).2 ⟨_, _, ha, rfl⟩,
      (run_bind_eq_ok _ _).2 ⟨_, _, hbound, (run_bind_eq_ok _ _).2 ⟨_, _, hr, rfl⟩⟩⟩, rfl, hstack'⟩
  | .exec he hrest, top, outer, hstack => by
    obtain ⟨n, he⟩ := he.runs
    obtain ⟨m, hrest⟩ := hrest.runs top outer hstack
    refine ⟨n + m, fun fuel hfuel => ?_⟩
    obtain ⟨a, ha, rfl⟩ := he fuel (by omega)
    obtain ⟨r, Δ', top', hr, rfl, hstack'⟩ := hrest fuel (by omega)
    exact ⟨_, Δ', top', (run_bind_eq_ok _ _).2 ⟨_, _, ha, (run_bind_eq_ok _ _).2
      ⟨_, _, hr, rfl⟩⟩, rfl, hstack'⟩
theorem ReducesArms.runs {Δ : Scopes} {names later : Names} {as as' : List (Pattern × Expr)} :
    ReducesArms Δ names as as' later → ∃ n, ∀ fuel ≥ n, ∃ r,
      arms (expr fuel) as ⟨names, Δ⟩ = (.ok r, ⟨later, Δ⟩) ∧ r.value = as'
  | .nil => ⟨0, fun _ _ => ⟨_, rfl, rfl⟩⟩
  | .cons hbound hbody harms => by
    obtain ⟨n, hbody⟩ := hbody.runs
    obtain ⟨m, harms⟩ := harms.runs
    refine ⟨n + m, fun fuel hfuel => ?_⟩
    obtain ⟨b, hb, rfl⟩ := hbody fuel (by omega)
    obtain ⟨c, hc, rfl⟩ := harms fuel (by omega)
    obtain ⟨a, ha, hvalue⟩ := arm_of_ok hbound hb
    refine ⟨_, (run_bind_eq_ok _ _).2 ⟨_, _, ha, (run_bind_eq_ok _ _).2 ⟨_, _, hc, rfl⟩⟩, ?_⟩
    rw [← hvalue]
    rfl
end

end ViewCircuit
