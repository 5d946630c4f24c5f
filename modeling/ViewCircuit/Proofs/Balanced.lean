import ViewCircuit.Proofs.Traversal

/-! Scopes of a reduction are closed again however it ends. A step keeps every property of the
scopes, and what it opens it closes, also when a closure is called with the wrong number of
arguments somewhere inside. -/
namespace ViewCircuit

/-- The ways in which a reduction can fail: an application at the wrong number of arguments, or
inlining that goes on beyond the fuel. -/
inductive CompileError.StopsReduction : CompileError → Prop
  | arity {params args : Nat} : params ≠ args →
      StopsReduction (.construction (.arity params args))
  | exhausted : StopsReduction .exhausted

namespace Reduce

variable {α β : Type} {Q : Scopes → Prop} {act : Reduce α} {f : Expr → Reduce (Reduct Expr)}

/-- However the step ends, its scopes have the property again, and it fails in the known ways. -/
def Keeps (Q : Scopes → Prop) (act : Reduce α) : Prop := ∀ s, Q s.scopes →
  Q (act s).2.scopes ∧ ∀ err, (act s).1 = .error err → err.StopsReduction

/-- However the step ends, its scopes are those it began with. -/
def Balanced (act : Reduce α) : Prop := ∀ Q, Keeps Q act

theorem Balanced.scopes_eq (h : Balanced act) (s : Reducer) : (act s).2.scopes = s.scopes :=
  (h (· = s.scopes) s rfl).1

theorem balanced_of_run (h : ∀ s, ∃ r later, act s = (r, ⟨later, s.scopes⟩) ∧
    ∀ err, r = .error err → err.StopsReduction) : Balanced act := by
  intro Q s hs
  obtain ⟨r, later, hrun, hfails⟩ := h s
  rw [hrun]
  exact ⟨hs, hfails⟩

theorem keeps_pure (a : α) : Keeps Q (pure a) := fun _ hs => ⟨hs, nofun⟩

theorem keeps_get : Keeps Q (get : Reduce Reducer) := fun _ hs => ⟨hs, nofun⟩

theorem keeps_throw {err : CompileError} (h : err.StopsReduction) :
    Keeps Q (throw err : Reduce α) := by
  refine fun s hs => ⟨hs, fun err' herr => ?_⟩
  cases herr
  exact h

theorem keeps_bind {next : α → Reduce β} (hact : Keeps Q act) (hnext : ∀ a, Keeps Q (next a)) :
    Keeps Q (act >>= next) := by
  intro s hs
  obtain ⟨hmid, hfails⟩ := hact s hs
  rw [run_bind]
  generalize act s = run at hmid hfails
  obtain ⟨r, mid⟩ := run
  cases r with
  | error err =>
    refine ⟨hmid, fun err' herr => ?_⟩
    cases herr
    exact hfails err rfl
  | ok a => exact hnext a mid hmid

/-- What fills an open scope leaves it open. -/
theorem Sure.keeps {outer : List Scope} (h : Sure outer act) : Keeps (Scopes.Over outer) act := by
  intro s hs
  obtain ⟨a, s', hrun, hs'⟩ := h s hs
  rw [hrun]
  exact ⟨hs', nofun⟩

/-- The scope that was opened is the one that is closed. -/
theorem balanced_inScope (h : ∀ outer, Keeps (Scopes.Over outer) act) :
    Balanced (inScope act) := by
  refine balanced_of_run fun s => ?_
  obtain ⟨⟨top, hstack⟩, hfails⟩ := h s.scopes.stack (opened s) (opened_over s)
  cases hact : act (opened s) with
  | mk r mid =>
    rw [hact] at hstack hfails
    have hpop : mid.scopes.pop = .ok s.scopes := by
      unfold Scopes.pop
      rw [hstack]
    exact ⟨r, mid.names, inScope_of_run mid hact hpop, hfails⟩

/-- The scopes that were set aside come back. -/
theorem balanced_unscoped (h : Balanced act) : Balanced (unscoped act) := by
  refine balanced_of_run fun s => ?_
  have hfails := (h (fun _ => True) ⟨s.names, .empty⟩ trivial).2
  cases hact : act ⟨s.names, .empty⟩ with
  | mk r mid =>
    rw [hact] at hfails
    have hget : (get : Reduce Reducer) s = (.ok s, s) := rfl
    have hempty : onScopes (fun _ => .ok .empty) s = (.ok (), ⟨s.names, .empty⟩) := rfl
    refine ⟨r, mid.names, ?_, hfails⟩
    unfold unscoped
    simp only [run_bind, hget, hempty, attempt_eq hact]
    rfl

theorem balanced_occurrence (e : Expr) (name : String) : Balanced (occurrence e name) := by
  refine fun Q => keeps_bind keeps_get fun s => ?_
  split <;> exact keeps_pure _

section Parts

variable (hf : ∀ e, Balanced (f e))
include hf

theorem balanced_all : ∀ es, Balanced (all f es)
  | [], _ => keeps_pure _
  | e :: es, Q => keeps_bind (hf e Q) fun _ => keeps_bind (balanced_all es Q) fun _ => keeps_pure _

theorem balanced_option : ∀ o, Balanced (option f o)
  | none, _ => keeps_pure _
  | some e, Q => keeps_bind (hf e Q) fun _ => keeps_pure _

theorem balanced_rows : ∀ rs, Balanced (rows f rs)
  | [], _ => keeps_pure _
  | (e, _) :: rs, Q =>
    keeps_bind (hf e Q) fun _ => keeps_bind (balanced_rows rs Q) fun _ => keeps_pure _

theorem keeps_block {outer : List Scope} : ∀ (avoid : List String) (b : Block),
    Keeps (Scopes.Over outer) (block f avoid b)
  | _, .done result => keeps_bind (balanced_option hf result _) fun _ => keeps_pure _
  | avoid, .bind name _ _ init rest =>
    keeps_bind (balanced_option hf init _) fun _ =>
      keeps_bind (sure_bindName name avoid).keeps fun _ =>
        keeps_bind (keeps_block avoid rest) fun _ => keeps_pure _
  | avoid, .exec e rest =>
    keeps_bind (hf e _) fun _ => keeps_bind (keeps_block avoid rest) fun _ => keeps_pure _

theorem balanced_arm (p : Pattern) (body : Expr) : Balanced (arm f p body) :=
  balanced_inScope fun _ => keeps_bind (sure_bindNames _ _).keeps fun _ =>
    keeps_bind (hf body _) fun _ => keeps_pure _

theorem balanced_arms : ∀ as, Balanced (arms f as)
  | [], _ => keeps_pure _
  | (p, body) :: as, Q => keeps_bind (balanced_arm hf p body Q) fun _ =>
    keeps_bind (balanced_arms as Q) fun _ => keeps_pure _

/-- No parameter fails to be bound, so the scope is not left open before the body. -/
theorem balanced_closure (e : Expr) (params : List Param) (body : Expr) :
    Balanced (closure f e params body) := by
  rw [closure_eq_inScope]
  exact balanced_inScope fun _ => keeps_bind (sure_bindNames _ _).keeps fun _ =>
    keeps_bind (hf body _) fun _ => keeps_pure _

/-- No argument fails to be substituted, so the scope is not left open before the body; a wrong
number of arguments is found before it is opened. -/
theorem balanced_inline (params : List Param) (body : Expr) (args : List Expr) :
    Balanced (inline f params body args) := by
  intro Q
  by_cases hlength : params.length = args.length
  · rw [inline_eq_inScope hlength]
    exact balanced_inScope (fun _ =>
      keeps_bind (sure_substituteAll params args).keeps fun _ => hf body _) Q
  · unfold inline
    rw [if_pos hlength]
    exact keeps_throw (.arity hlength)

theorem balanced_application (e function : Expr) (args : List Expr) :
    Balanced (application f e function args) := by
  refine fun Q => keeps_bind (balanced_all hf args Q) fun args' => ?_
  dsimp only
  split
  · exact keeps_bind (balanced_inline hf _ _ _ Q) fun _ => keeps_pure _
  · refine keeps_bind (hf function Q) fun function' => ?_
    split
    · exact keeps_bind (balanced_unscoped (balanced_inline hf _ _ _) Q) fun _ => keeps_pure _
    · exact keeps_pure _

theorem balanced_node (e : Expr) : Balanced (node f e) := by
  obtain ⟨form, ty⟩ := e
  intro Q
  cases form with
  | literal value =>
    cases value with
    | zset rs => exact keeps_bind (balanced_rows hf rs Q) fun _ => keeps_pure _
    | vec items => exact keeps_bind (balanced_all hf items Q) fun _ => keeps_pure _
    | _ => exact keeps_pure _
  | var name => exact balanced_occurrence _ name Q
  | apply function args => exact balanced_application hf _ function args Q
  | closure params body => exact balanced_closure hf _ params body Q
  | block body =>
    exact keeps_bind (balanced_inScope (fun _ => keeps_block hf _ body) Q) fun _ => keeps_pure _
  | cases scrutinee as =>
    exact keeps_bind (hf scrutinee Q) fun _ =>
      keeps_bind (balanced_arms hf as Q) fun _ => keeps_pure _
  | binary _ left right =>
    exact keeps_bind (hf left Q) fun _ => keeps_bind (hf right Q) fun _ => keeps_pure _
  | range start stop _ =>
    exact keeps_bind (balanced_option hf start Q) fun _ =>
      keeps_bind (balanced_option hf stop Q) fun _ => keeps_pure _
  | ite a b c | fold a b c =>
    exact keeps_bind (hf a Q) fun _ => keeps_bind (hf b Q) fun _ =>
      keeps_bind (hf c Q) fun _ => keeps_pure _
  | call _ es | tuple es | rawTuple es | struct _ es =>
    exact keeps_bind (balanced_all hf es Q) fun _ => keeps_pure _
  | field e _ | unary _ e | cast e | isNull e | borrow e | deref e | some e =>
    exact keeps_bind (hf e Q) fun _ => keeps_pure _

end Parts

theorem balanced_expr : ∀ fuel e, Balanced (expr fuel e)
  | 0, _ => fun _ => keeps_throw .exhausted
  | fuel + 1, e => balanced_node (balanced_expr fuel) e

/-- No scope is left for the last check to find. -/
theorem whole_eq_expr (fuel : Nat) (e : Expr) (names : Names) :
    whole fuel e ⟨names, .empty⟩ = expr fuel e ⟨names, .empty⟩ := by
  have hscopes := (balanced_expr fuel e).scopes_eq ⟨names, .empty⟩
  unfold whole
  rw [run_bind]
  generalize expr fuel e ⟨names, .empty⟩ = run at hscopes
  obtain ⟨r, later, Δ⟩ := run
  obtain rfl : Δ = .empty := hscopes
  cases r <;> rfl

/-- A reduction that begins without open scopes leaves none open. Unless inlining goes on beyond the
fuel, it returns a result or met a closure with the wrong number of arguments; and the next
reduction on the same reducer is the one that a new reducer with the names left does. -/
theorem whole_balanced (fuel : Nat) (e : Expr) (names : Names) :
    ∃ r later, whole fuel e ⟨names, .empty⟩ = (r, ⟨later, .empty⟩) ∧
      ((∃ reduct, r = .ok reduct) ∨
        (∃ params args, params ≠ args ∧ r = .error (.construction (.arity params args))) ∨
        r = .error .exhausted) ∧
      ∀ fuel' e', whole fuel' e' (whole fuel e ⟨names, .empty⟩).2 =
        whole fuel' e' ⟨later, .empty⟩ := by
  have hscopes := (balanced_expr fuel e).scopes_eq ⟨names, .empty⟩
  have hfails := (balanced_expr fuel e (fun _ => True) ⟨names, .empty⟩ trivial).2
  rw [whole_eq_expr]
  cases hrun : expr fuel e ⟨names, .empty⟩ with
  | mk r s =>
    rw [hrun] at hscopes hfails
    obtain ⟨later, Δ⟩ := s
    obtain rfl : Δ = .empty := hscopes
    refine ⟨r, later, rfl, ?_, fun _ _ => rfl⟩
    cases r with
    | ok reduct => exact .inl ⟨reduct, rfl⟩
    | error err =>
      cases hfails err rfl with
      | arity hne => exact .inr (.inl ⟨_, _, hne, rfl⟩)
      | exhausted => exact .inr (.inr rfl)

end Reduce

end ViewCircuit
