import ViewCircuit.Proofs.Binding

/-! Scopes that a step opens, fills and closes again. Closures and inlined bodies fill theirs before
the part whose failure is caught, so a parameter that cannot be bound or an argument that cannot be
substituted would leave the scope open. With a scope open neither can fail, and so the scope is
closed however the body ends. -/
namespace ViewCircuit

/-- There is an innermost scope, and these are the others. -/
def Scopes.Over (outer : List Scope) (Δ : Scopes) : Prop := ∃ top, Δ.stack = top :: outer

namespace Reduce

variable {α β γ : Type} {outer : List Scope} {act : Reduce α} {s s' : Reducer}

theorem attempt_eq {r : Except CompileError α} (h : act s = (r, s')) :
    attempt act s = (.ok r, s') := by
  unfold attempt
  rw [h]

theorem attempt_eq_ok {r : Except CompileError α} (h : attempt act s = (.ok r, s')) :
    act s = (r, s') := by
  obtain ⟨hr, hs⟩ := Prod.mk.inj h
  exact Prod.ext (Except.ok.inj hr) hs

/-- The state with a new scope opened. -/
def opened (s : Reducer) : Reducer := ⟨s.names, s.scopes.push⟩

theorem opened_over (s : Reducer) : (opened s).scopes.Over s.scopes.stack := ⟨.empty, rfl⟩

theorem openScope_eq (s : Reducer) : openScope s = (.ok (), opened s) := rfl

/-- However the step ends, the scope that was opened for it is closed. -/
theorem inScope_of_run {r : Except CompileError α} (s₁ : Reducer) {Δ : Scopes}
    (hact : act (opened s) = (r, s₁)) (hpop : s₁.scopes.pop = .ok Δ) :
    inScope act s = (r, ⟨s₁.names, Δ⟩) := by
  have hclose : closeScope s₁ = (.ok (), ⟨s₁.names, Δ⟩) := onScopes_of_ok hpop
  simp only [inScope, run_bind, openScope_eq, attempt_eq hact, hclose]
  rfl

/-- With a scope open over these the step returns, and the scope is still open. -/
def Sure (outer : List Scope) (act : Reduce α) : Prop :=
  ∀ s, s.scopes.Over outer → ∃ a s', act s = (.ok a, s') ∧ s'.scopes.Over outer

theorem sure_pure (a : α) : Sure outer (pure a) := fun s hs => ⟨a, s, rfl, hs⟩

theorem sure_get : Sure outer (get : Reduce Reducer) := fun s hs => ⟨s, s, rfl, hs⟩

theorem Sure.bind {next : α → Reduce β} (hact : Sure outer act)
    (hnext : ∀ a, Sure outer (next a)) : Sure outer (act >>= next) := by
  intro s hs
  obtain ⟨a, mid, ha, hmid⟩ := hact s hs
  obtain ⟨b, s', hb, hs'⟩ := hnext a mid hmid
  exact ⟨b, s', (run_bind_eq_ok _ _).2 ⟨a, mid, ha, hb⟩, hs'⟩

theorem sure_modifyInnermost (change : Scope → Scope) :
    Sure outer (onScopes fun s => s.modifyInnermost change) := by
  rintro ⟨names, ⟨stack⟩⟩ ⟨top, rfl⟩
  exact ⟨(), _, rfl, change top, rfl⟩

theorem sure_freshOutside (stem : String) (blocked : List String) :
    Sure outer (freshOutside stem blocked) :=
  fun _ hs => ⟨_, _, rfl, hs⟩

theorem sure_bindName (name : String) (avoid : List String) :
    Sure outer (bindName name avoid) := by
  refine sure_get.bind fun s => ?_
  dsimp only
  split
  · exact (sure_freshOutside _ _).bind fun fresh =>
      (sure_modifyInnermost _).bind fun _ => sure_pure fresh
  · exact (sure_modifyInnermost _).bind fun _ => sure_pure name

/-- Binding the names of a binder cannot fail. -/
theorem sure_bindNames (avoid : List String) : ∀ names : List String,
    Sure outer (bindNames names avoid)
  | [] => sure_pure []
  | name :: names => by
    unfold bindNames
    rw [List.mapM_cons]
    exact (sure_bindName name avoid).bind fun _ =>
      (sure_bindNames avoid names).bind fun _ => sure_pure _

/-- Substituting arguments for parameters cannot fail. -/
theorem sure_substituteAll (params : List Param) (args : List Expr) :
    Sure outer (substituteAll params args) := by
  unfold substituteAll
  induction params.zip args with
  | nil => exact sure_pure ()
  | cons pair pairs ih =>
    rw [List.forM_eq_forM, List.forM_cons]
    exact (sure_modifyInnermost _).bind fun _ => ih

/-- Where filling the scope cannot fail, it makes no difference that its failure is not caught. -/
theorem filled_eq_inScope {fill : Reduce β} (hfill : ∀ outer, Sure outer fill)
    (act : β → Reduce α) (finish : β → α → γ) :
    (do
      openScope
      let b ← fill
      let outcome ← attempt (act b)
      closeScope
      let a ← ofExcept outcome
      return finish b a : Reduce γ) =
    inScope do
      let b ← fill
      let a ← act b
      return finish b a := by
  funext s
  obtain ⟨b, mid, hb, -⟩ := hfill _ (opened s) (opened_over s)
  rcases hact : act b mid with ⟨r, last⟩
  have hinner : (do
      let b ← fill
      let a ← act b
      return finish b a : Reduce γ) (opened s) = (r.map (finish b), last) := by
    rw [run_bind, hb]
    dsimp only
    rw [run_bind, hact]
    cases r <;> rfl
  simp only [inScope, run_bind, openScope_eq, hb, attempt_eq hact, attempt_eq hinner]
  rcases closeScope last with ⟨_ | _, closed⟩
  · rfl
  · cases r <;> rfl

variable {f : Expr → Reduce (Reduct Expr)}

/-- A closure is its body, done with the parameters bound in a scope that is closed whatever
happens. -/
theorem closure_eq_inScope (e : Expr) (params : List Param) (body : Expr) :
    closure f e params body = inScope do
      let bound ← bindNames (params.map Param.name) body.free
      let b ← f body
      return Reduct.rebuild e { b.map (.closure (params.zipWith (fun p name => ⟨name, p.ty⟩) bound))
        with changed := b.changed || bound != params.map Param.name } := by
  unfold closure
  rw [Expr.freeVariables_eq]
  exact filled_eq_inScope (fun _ => sure_bindNames _ _) (fun _ => f body) _

/-- Inlining is the body, done with the parameters replaced in a scope that is closed whatever
happens. -/
theorem inline_eq_inScope {params : List Param} {args : List Expr}
    (hlength : params.length = args.length) (body : Expr) :
    inline f params body args = inScope (do
      substituteAll params args
      f body) := by
  unfold inline
  rw [if_neg (not_not.2 hlength)]
  have hbody := filled_eq_inScope (fun _ => sure_substituteAll params args) (fun _ => f body)
    fun _ b => b
  simpa only [bind_pure] using hbody

end Reduce
end ViewCircuit
