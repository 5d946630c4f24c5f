import Mathlib.Algebra.GroupWithZero.Nat
import ViewCircuit.Proofs.Bracket

/-! Runs of a reduction over the parts of a node, and that it returns unchanged what it counts as
unchanged. -/
namespace ViewCircuit

mutual
theorem rename_id : ∀ p : Pattern, p.rename (fun name => name) = p
  | .ident _ _ | .wildcard | .literal _ => rfl
  | .tuple items => congrArg Pattern.tuple (renameAll_id items)
  | .some inner => congrArg Pattern.some (rename_id inner)
theorem renameAll_id : ∀ ps : List Pattern, Pattern.renameAll (fun name => name) ps = ps
  | [] => rfl
  | p :: ps => congrArg₂ List.cons (rename_id p) (renameAll_id ps)
end

namespace Reduce

section Runs

variable {f : Expr → Reduce (Reduct Expr)} {s s' : Reducer}

/-- Parts are done one after the other. -/
inductive Each (f : Expr → Reduce (Reduct Expr)) :
    Reducer → List Expr → List (Reduct Expr) → Reducer → Prop
  | nil {s : Reducer} : Each f s [] [] s
  | cons {s s₁ s' : Reducer} {e : Expr} {es : List Expr} {r : Reduct Expr}
      {rs : List (Reduct Expr)} : f e s = (.ok r, s₁) → Each f s₁ es rs s' →
      Each f s (e :: es) (r :: rs) s'

/-- What counts as unchanged is the expression itself. -/
def Keeping (f : Expr → Reduce (Reduct Expr)) : Prop :=
  ∀ e s r s', f e s = (.ok r, s') → r.changed = false → r.value = e

theorem Each.values_eq (hf : Keeping f) {es : List Expr} {rs : List (Reduct Expr)}
    (h : Each f s es rs s') (hkept : ∀ r ∈ rs, r.changed = false) : rs.map Reduct.value = es := by
  induction h with
  | nil => rfl
  | cons hr _ ih =>
    rw [List.map_cons, hf _ _ _ _ hr (hkept _ (by simp)), ih fun r hr => hkept r (by simp [hr])]

theorem Each.length_eq {es : List Expr} {rs : List (Reduct Expr)} (h : Each f s es rs s') :
    rs.length = es.length := by
  induction h with
  | nil => rfl
  | cons _ _ ih => simp [ih]

/-- The result of doing parts, put together from their results. -/
structure Collected {α : Type} (f : Expr → Reduce (Reduct Expr)) (s : Reducer) (parts : List Expr)
    (r : Reduct α) (s' : Reducer) (rs : List (Reduct Expr)) : Prop where
  each : Each f s parts rs s'
  kept : r.changed = false → ∀ x ∈ rs, x.changed = false

theorem each_one {e : Expr} {r : Reduct Expr} (h : f e s = (.ok r, s')) :
    Collected f s [e] r s' [r] :=
  ⟨.cons h .nil, fun hkept => by simpa using hkept⟩

theorem all_eq_ok {es : List Expr} {r : Reduct (List Expr)} (h : all f es s = (.ok r, s')) :
    ∃ rs, Collected f s es r s' rs ∧ r.value = rs.map Reduct.value := by
  induction es generalizing s r with
  | nil =>
    cases h
    exact ⟨[], ⟨.nil, by simp⟩, rfl⟩
  | cons e es ih =>
    obtain ⟨a, s₁, ha, h⟩ := (run_bind_eq_ok _ _).1 h
    obtain ⟨b, s₂, hb, h⟩ := (run_bind_eq_ok _ _).1 h
    cases h
    obtain ⟨rs, hrs, hvalue⟩ := ih hb
    refine ⟨a :: rs, ⟨.cons ha hrs.each, fun hkept => ?_⟩, congrArg (a.value :: ·) hvalue⟩
    simp only [Reduct.map₂, Bool.or_eq_false_iff] at hkept
    simpa using ⟨hkept.1, hrs.kept hkept.2⟩

theorem rows_eq_ok {rows : List (Expr × Int)} {r : Reduct (List (Expr × Int))}
    (h : Reduce.rows f rows s = (.ok r, s')) : ∃ rs, Collected f s (rows.map Prod.fst) r s' rs ∧
      r.value = (rs.map Reduct.value).zip (rows.map Prod.snd) := by
  induction rows generalizing s r with
  | nil =>
    cases h
    exact ⟨[], ⟨.nil, by simp⟩, rfl⟩
  | cons row rows ih =>
    obtain ⟨e, w⟩ := row
    obtain ⟨a, s₁, ha, h⟩ := (run_bind_eq_ok _ _).1 h
    obtain ⟨b, s₂, hb, h⟩ := (run_bind_eq_ok _ _).1 h
    cases h
    obtain ⟨rs, hrs, hvalue⟩ := ih hb
    refine ⟨a :: rs, ⟨.cons ha hrs.each, fun hkept => ?_⟩, congrArg ((a.value, w) :: ·) hvalue⟩
    simp only [Reduct.map₂, Bool.or_eq_false_iff] at hkept
    simpa using ⟨hkept.1, hrs.kept hkept.2⟩

theorem option_eq_ok {o : Option Expr} {r : Reduct (Option Expr)}
    (h : option f o s = (.ok r, s')) : ∃ rs, Collected f s o.toList r s' rs ∧
      r.value.toList = rs.map Reduct.value ∧ r.value.isSome = o.isSome := by
  cases o with
  | none =>
    cases h
    exact ⟨[], ⟨.nil, by simp⟩, rfl, rfl⟩
  | some e =>
    obtain ⟨a, s₁, ha, h⟩ := (run_bind_eq_ok _ _).1 h
    cases h
    exact ⟨[a], ⟨.cons ha .nil, fun hkept => List.forall_mem_singleton.2 hkept⟩, rfl, rfl⟩

theorem Each.append {es es' : List Expr} {rs rs' : List (Reduct Expr)} {mid : Reducer}
    (h : Each f s es rs mid) (h' : Each f mid es' rs' s') :
    Each f s (es ++ es') (rs ++ rs') s' := by
  induction h with
  | nil => exact h'
  | cons hr _ ih => exact .cons hr (ih h')

theorem value_rebuild {e : Expr} {r : Reduct Form} (h : r.changed = false → r.value = e.form) :
    (Reduct.rebuild e r).value = ⟨r.value, e.ty⟩ := by
  obtain ⟨form, ty⟩ := e
  unfold Reduct.rebuild
  split
  · rfl
  · rename_i hkept
    rw [h (by simpa using hkept)]

/-- A node over parts that were done. -/
theorem rebuild_head (hf : Keeping f) {e : Expr} {head : Head} {parts : List Expr}
    (hform : e.form.head? = some (head, parts)) {r : Reduct Form} {rs : List (Reduct Expr)}
    (hrs : Collected f s parts r s' rs) (hvalue : r.value = head.build (rs.map Reduct.value)) :
    (Reduct.rebuild e r).value = ⟨head.build (rs.map Reduct.value), e.ty⟩ := by
  rw [value_rebuild, hvalue]
  intro hkept
  rw [hvalue, hrs.each.values_eq hf (hrs.kept hkept), build_of_head? hform]

/-- A node that combines its parts is done by doing the parts. -/
theorem node_head (hf : Keeping f) {e : Expr} {head : Head} {parts : List Expr}
    (hform : e.form.head? = some (head, parts)) {r : Reduct Expr}
    (h : node f e s = (.ok r, s')) :
    ∃ rs, Each f s parts rs s' ∧ r.value = ⟨head.build (rs.map Reduct.value), e.ty⟩ := by
  obtain ⟨form, ty⟩ := e
  cases form with
  | var | apply | closure | block | ite | cases => cases hform
  | literal value =>
    cases value with
    | zset rows =>
      obtain ⟨rfl, rfl⟩ := Prod.mk.inj (Option.some.inj hform)
      obtain ⟨a, s₁, ha, h⟩ := (run_bind_eq_ok _ _).1 h
      cases h
      obtain ⟨rs, hrs, hvalue⟩ := rows_eq_ok ha
      exact ⟨rs, hrs.each, rebuild_head hf rfl ⟨hrs.each, hrs.kept⟩
        (congrArg (fun rows => Form.literal (.zset rows)) hvalue)⟩
    | vec items =>
      obtain ⟨rfl, rfl⟩ := Prod.mk.inj (Option.some.inj hform)
      obtain ⟨a, s₁, ha, h⟩ := (run_bind_eq_ok _ _).1 h
      cases h
      obtain ⟨rs, hrs, hvalue⟩ := all_eq_ok ha
      exact ⟨rs, hrs.each, rebuild_head hf rfl ⟨hrs.each, hrs.kept⟩
        (congrArg (fun items => Form.literal (.vec items)) hvalue)⟩
    | _ =>
      obtain ⟨rfl, rfl⟩ := Prod.mk.inj (Option.some.inj hform)
      cases h
      exact ⟨[], .nil, rfl⟩
  | field | unary | cast | isNull | borrow | deref | some =>
    obtain ⟨rfl, rfl⟩ := Prod.mk.inj (Option.some.inj hform)
    obtain ⟨a, s₁, ha, h⟩ := (run_bind_eq_ok _ _).1 h
    cases h
    have hone := each_one ha
    exact ⟨[a], hone.each, rebuild_head hf rfl ⟨hone.each, hone.kept⟩ rfl⟩
  | binary op left right =>
    obtain ⟨rfl, rfl⟩ := Prod.mk.inj (Option.some.inj hform)
    obtain ⟨a, s₁, ha, h⟩ := (run_bind_eq_ok _ _).1 h
    obtain ⟨b, s₂, hb, h⟩ := (run_bind_eq_ok _ _).1 h
    cases h
    have heach : Each f s [left, right] [a, b] s' := .cons ha (.cons hb .nil)
    refine ⟨[a, b], heach, rebuild_head hf rfl ⟨heach, fun hkept => ?_⟩ rfl⟩
    simp only [Reduct.map₂, Bool.or_eq_false_iff] at hkept
    simpa using hkept
  | fold zero increment post =>
    obtain ⟨rfl, rfl⟩ := Prod.mk.inj (Option.some.inj hform)
    obtain ⟨a, s₁, ha, h⟩ := (run_bind_eq_ok _ _).1 h
    obtain ⟨b, s₂, hb, h⟩ := (run_bind_eq_ok _ _).1 h
    obtain ⟨c, s₃, hc, h⟩ := (run_bind_eq_ok _ _).1 h
    cases h
    have heach : Each f s [zero, increment, post] [a, b, c] s' :=
      .cons ha (.cons hb (.cons hc .nil))
    refine ⟨[a, b, c], heach, rebuild_head hf rfl ⟨heach, fun hkept => ?_⟩ rfl⟩
    simp only [Reduct.map₃, Bool.or_eq_false_iff, and_assoc] at hkept
    simpa using hkept
  | call | tuple | rawTuple | struct =>
    obtain ⟨rfl, rfl⟩ := Prod.mk.inj (Option.some.inj hform)
    obtain ⟨a, s₁, ha, h⟩ := (run_bind_eq_ok _ _).1 h
    cases h
    obtain ⟨rs, hrs, hvalue⟩ := all_eq_ok ha
    refine ⟨rs, hrs.each, rebuild_head hf rfl ⟨hrs.each, hrs.kept⟩ ?_⟩
    rw [← hvalue]
    rfl
  | range start stop inclusive =>
    obtain ⟨rfl, rfl⟩ := Prod.mk.inj (Option.some.inj hform)
    obtain ⟨a, s₁, ha, h⟩ := (run_bind_eq_ok _ _).1 h
    obtain ⟨b, s₂, hb, h⟩ := (run_bind_eq_ok _ _).1 h
    cases h
    obtain ⟨rs, hrs, hvalue, hsome⟩ := option_eq_ok ha
    obtain ⟨rs', hrs', hvalue', hsome'⟩ := option_eq_ok hb
    have heach := hrs.each.append hrs'.each
    refine ⟨rs ++ rs', heach, rebuild_head hf rfl ⟨heach, fun hkept => ?_⟩ ?_⟩
    · simp only [Reduct.map₂, Bool.or_eq_false_iff] at hkept
      exact List.forall_mem_append.2 ⟨hrs.kept hkept.1, hrs'.kept hkept.2⟩
    · rw [List.map_append, ← hvalue, ← hvalue', ← hsome, ← hsome']
      simp only [Reduct.map₂]
      cases a.value <;> cases b.value <;> rfl

/-- What doing parts gives, under a value made from their values. -/
def gathered {α : Type} (rs : List (Reduct Expr)) (a : α) : Reduct α :=
  ⟨a, rs.any Reduct.changed, (rs.map Reduct.fired).sum⟩

theorem gathered_one {α : Type} (g : Expr → α) (a : Reduct Expr) :
    gathered [a] (g a.value) = a.map g := by
  simp [gathered, Reduct.map]

theorem gathered_two {α : Type} (g : Expr → Expr → α) (a b : Reduct Expr) :
    gathered [a, b] (g a.value b.value) = Reduct.map₂ g a b := by
  simp [gathered, Reduct.map₂]

theorem gathered_three {α : Type} (g : Expr → Expr → Expr → α) (a b c : Reduct Expr) :
    gathered [a, b, c] (g a.value b.value c.value) = Reduct.map₃ g a b c := by
  simp [gathered, Reduct.map₃, Bool.or_assoc, Nat.add_assoc]

theorem gathered_append {α β γ : Type} (g : α → β → γ) (rs rs' : List (Reduct Expr)) (a : α)
    (b : β) : gathered (rs ++ rs') (g a b) = Reduct.map₂ g (gathered rs a) (gathered rs' b) := by
  simp [gathered, Reduct.map₂]

theorem all_of_each {es : List Expr} {rs : List (Reduct Expr)} (h : Each f s es rs s') :
    all f es s = (.ok (gathered rs (rs.map Reduct.value)), s') := by
  induction h with
  | nil => rfl
  | cons hr _ ih =>
    exact (run_bind_eq_ok _ _).2 ⟨_, _, hr, (run_bind_eq_ok _ _).2 ⟨_, _, ih, rfl⟩⟩

theorem rows_of_each {rows : List (Expr × Int)} {rs : List (Reduct Expr)}
    (h : Each f s (rows.map Prod.fst) rs s') : Reduce.rows f rows s =
      (.ok (gathered rs ((rs.map Reduct.value).zip (rows.map Prod.snd))), s') := by
  induction rows generalizing s rs with
  | nil =>
    cases h
    rfl
  | cons row rows ih =>
    cases h with
    | cons hr hrest =>
      exact (run_bind_eq_ok _ _).2 ⟨_, _, hr, (run_bind_eq_ok _ _).2 ⟨_, _, ih hrest, rfl⟩⟩

theorem option_of_each {o : Option Expr} {rs : List (Reduct Expr)} (h : Each f s o.toList rs s') :
    option f o s = (.ok (gathered rs (rs.map Reduct.value).head?), s') := by
  cases o with
  | none =>
    cases h
    rfl
  | some e =>
    cases h with
    | @cons _ _ _ _ _ r _ hr hrest =>
      cases hrest
      refine (run_bind_eq_ok _ _).2 ⟨r, s', hr, ?_⟩
      exact congrArg (fun r => (Except.ok r, s')) (gathered_one some r).symm

theorem Each.split {es es' : List Expr} {rs : List (Reduct Expr)} (h : Each f s (es ++ es') rs s') :
    ∃ left right mid, rs = left ++ right ∧ Each f s es left mid ∧ Each f mid es' right s' := by
  induction es generalizing s rs with
  | nil => exact ⟨[], rs, s, rfl, .nil, h⟩
  | cons e es ih =>
    cases h with
    | cons hr hrest =>
      obtain ⟨left, right, mid, rfl, hleft, hright⟩ := ih hrest
      exact ⟨_ :: left, right, mid, rfl, .cons hr hleft, hright⟩

/-- A node that combines its parts is done when its parts are. -/
theorem node_of_each {e : Expr} {head : Head} {parts : List Expr}
    (hform : e.form.head? = some (head, parts)) {rs : List (Reduct Expr)}
    (h : Each f s parts rs s') : node f e s =
      (.ok (Reduct.rebuild e (gathered rs (head.build (rs.map Reduct.value)))), s') := by
  obtain ⟨form, ty⟩ := e
  cases form with
  | var | apply | closure | block | ite | cases => cases hform
  | literal value =>
    cases value <;> obtain ⟨rfl, rfl⟩ := Prod.mk.inj (Option.some.inj hform)
    case zset rows => exact (run_bind_eq_ok _ _).2 ⟨_, _, rows_of_each h, rfl⟩
    case vec items => exact (run_bind_eq_ok _ _).2 ⟨_, _, all_of_each h, rfl⟩
    all_goals
      cases h
      rfl
  | field | unary | cast | isNull | borrow | deref | some =>
    obtain ⟨rfl, rfl⟩ := Prod.mk.inj (Option.some.inj hform)
    obtain _ | ⟨hr, hrest⟩ := h
    cases hrest
    refine (run_bind_eq_ok _ _).2 ⟨_, _, hr, ?_⟩
    exact congrArg (fun r => (Except.ok (Reduct.rebuild _ r), s')) (gathered_one _ _).symm
  | binary op left right =>
    obtain ⟨rfl, rfl⟩ := Prod.mk.inj (Option.some.inj hform)
    obtain _ | ⟨ha, _ | ⟨hb, hrest⟩⟩ := h
    cases hrest
    refine (run_bind_eq_ok _ _).2 ⟨_, _, ha, (run_bind_eq_ok _ _).2 ⟨_, _, hb, ?_⟩⟩
    exact congrArg (fun r => (Except.ok (Reduct.rebuild _ r), s')) (gathered_two _ _ _).symm
  | fold zero increment post =>
    obtain ⟨rfl, rfl⟩ := Prod.mk.inj (Option.some.inj hform)
    obtain _ | ⟨ha, _ | ⟨hb, _ | ⟨hc, hrest⟩⟩⟩ := h
    cases hrest
    refine (run_bind_eq_ok _ _).2 ⟨_, _, ha, (run_bind_eq_ok _ _).2 ⟨_, _, hb,
      (run_bind_eq_ok _ _).2 ⟨_, _, hc, ?_⟩⟩⟩
    exact congrArg (fun r => (Except.ok (Reduct.rebuild _ r), s')) (gathered_three _ _ _ _).symm
  | call | tuple | rawTuple | struct =>
    obtain ⟨rfl, rfl⟩ := Prod.mk.inj (Option.some.inj hform)
    exact (run_bind_eq_ok _ _).2 ⟨_, _, all_of_each h, rfl⟩
  | range start stop inclusive =>
    obtain ⟨rfl, rfl⟩ := Prod.mk.inj (Option.some.inj hform)
    obtain ⟨left, right, mid, rfl, hleft, hright⟩ := h.split
    refine (run_bind_eq_ok _ _).2 ⟨_, _, option_of_each hleft, (run_bind_eq_ok _ _).2
      ⟨_, _, option_of_each hright, ?_⟩⟩
    have hform : Form.range (left.map Reduct.value).head? (right.map Reduct.value).head? inclusive =
        (Head.range start.isSome stop.isSome inclusive).build
          ((left ++ right).map Reduct.value) := by
      have hl := hleft.length_eq
      have hr := hright.length_eq
      cases start <;> cases stop <;>
        simp only [Option.toList, List.length_nil, List.length_singleton,
          List.length_eq_zero_iff, List.length_eq_one_iff] at hl hr
      · obtain ⟨rfl, rfl⟩ := And.intro hl hr
        rfl
      · obtain ⟨rfl, r, rfl⟩ := And.intro hl hr
        rfl
      · obtain ⟨⟨r, rfl⟩, rfl⟩ := And.intro hl hr
        rfl
      · obtain ⟨⟨a, rfl⟩, b, rfl⟩ := And.intro hl hr
        rfl
    rw [← hform, gathered_append fun start stop => Form.range start stop inclusive]
    rfl

end Runs

section Keeping

variable {α β : Type} {f : Expr → Reduce (Reduct Expr)} {P : α → Prop}

/-- Whatever the step returns has the property. -/
def Yields (act : Reduce α) (P : α → Prop) : Prop := ∀ s a s', act s = (.ok a, s') → P a

theorem yields_pure {a : α} (h : P a) : Yields (pure a) P := by
  intro s a' s' ha
  cases ha
  exact h

theorem yields_bind {act : Reduce β} {next : β → Reduce α} (h : ∀ b, Yields (next b) P) :
    Yields (act >>= next) P := by
  intro s a s' ha
  obtain ⟨b, mid, -, ha⟩ := (run_bind_eq_ok act next).1 ha
  exact h b mid a s' ha

/-- A step in a scope of its own leaves the scopes below it. -/
theorem inScope_eq_ok {act : Reduce α} {s s' : Reducer} {a : α}
    (h : inScope act s = (.ok a, s')) : ∃ s₁, act ⟨s.names, s.scopes.push⟩ = (.ok a, s₁) ∧
      s₁.scopes.pop = .ok s'.scopes ∧ s'.names = s₁.names := by
  unfold inScope at h
  obtain ⟨_, s₁, hpush, h₁⟩ := (run_bind_eq_ok _ _).1 h
  obtain ⟨r, s₂, hact, h₂⟩ := (run_bind_eq_ok _ _).1 h₁
  obtain ⟨_, s₃, hpop, h₃⟩ := (run_bind_eq_ok _ _).1 h₂
  cases hpush
  obtain ⟨hscopes, hnames⟩ := onScopes_eq_ok hpop
  obtain ⟨rfl, rfl⟩ := Prod.mk.inj h₃
  exact ⟨s₂, attempt_eq_ok hact, hscopes, hnames⟩

/-- The scopes that were open come back. -/
theorem unscoped_eq_ok {act : Reduce α} {s s' : Reducer} {a : α}
    (h : unscoped act s = (.ok a, s')) : ∃ s₁, act ⟨s.names, .empty⟩ = (.ok a, s₁) ∧
      s'.scopes = s.scopes ∧ s'.names = s₁.names := by
  unfold unscoped at h
  obtain ⟨_, s₁, hget, h₁⟩ := (run_bind_eq_ok _ _).1 h
  obtain ⟨_, s₂, hempty, h₂⟩ := (run_bind_eq_ok _ _).1 h₁
  obtain ⟨r, s₃, hact, h₃⟩ := (run_bind_eq_ok _ _).1 h₂
  obtain ⟨_, s₄, hback, h₄⟩ := (run_bind_eq_ok _ _).1 h₃
  cases hget
  cases hempty
  obtain ⟨hscopes, hnames⟩ := onScopes_eq_ok hback
  obtain ⟨rfl, rfl⟩ := Prod.mk.inj h₄
  exact ⟨s₃, attempt_eq_ok hact, (Except.ok.inj hscopes).symm, hnames⟩

theorem yields_inScope {act : Reduce α} (h : Yields act P) : Yields (inScope act) P := by
  intro s a s' ha
  obtain ⟨s₁, hact, -⟩ := inScope_eq_ok ha
  exact h _ a s₁ hact

theorem rebuild_keeps {e : Expr} {r : Reduct Form} (h : (Reduct.rebuild e r).changed = false) :
    (Reduct.rebuild e r).value = e := by
  unfold Reduct.rebuild at h ⊢
  split at h
  · cases h
  · rename_i hkept
    rw [if_neg hkept]

theorem keeping_node (f : Expr → Reduce (Reduct Expr)) : Keeping (node f) := by
  have hrebuild : ∀ {e : Expr} {R : Reduct Form},
      Yields (pure (Reduct.rebuild e R)) fun r => r.changed = false → r.value = e :=
    yields_pure rebuild_keeps
  suffices hyields : ∀ e, Yields (node f e) fun r => r.changed = false → r.value = e from
    fun e s r s' h => hyields e s r s' h
  rintro ⟨form, ty⟩
  cases form with
  | literal value =>
    cases value with
    | zset | vec => exact yields_bind fun _ => hrebuild
    | _ => exact yields_pure fun _ => rfl
  | var name =>
    refine yields_bind fun s => ?_
    dsimp only
    split
    · exact yields_pure fun h => by cases h
    · exact yields_pure fun h => by cases h
    · exact yields_pure fun _ => rfl
    · exact yields_pure fun _ => rfl
  | apply function args =>
    refine yields_bind fun args' => ?_
    dsimp only
    split
    · exact yields_bind fun _ => yields_pure fun h => by cases h
    · refine yields_bind fun function' => ?_
      split
      · exact yields_bind fun _ => yields_pure fun h => by cases h
      · exact hrebuild
  | closure params body =>
    change Yields (closure f _ params body) _
    rw [closure_eq_inScope]
    exact yields_inScope (yields_bind fun _ => yields_bind fun _ => hrebuild)
  | binary | cases | range =>
    exact yields_bind fun _ => yields_bind fun _ => hrebuild
  | ite | fold =>
    exact yields_bind fun _ => yields_bind fun _ => yields_bind fun _ => hrebuild
  | _ => exact yields_bind fun _ => hrebuild

theorem keeping_expr : ∀ fuel, Keeping (expr fuel)
  | 0 => fun _ _ _ _ h => by cases h
  | fuel + 1 => keeping_node (expr fuel)

end Keeping

section Binders

variable {f : Expr → Reduce (Reduct Expr)} {s s' : Reducer}

theorem occurrence_eq (e : Expr) (name : String) : occurrence e name s =
    (.ok (match s.scopes.lookup? name with
      | some (.replace r) => ⟨r, true, 0⟩
      | some (.rename fresh) => ⟨Expr.var fresh e.ty, true, 0⟩
      | some .shadow | none => Reduct.kept e), s) := by
  change (match s.scopes.lookup? name with
    | some (.replace r) => pure ⟨r, true, 0⟩
    | some (.rename fresh) => pure ⟨Expr.var fresh e.ty, true, 0⟩
    | some .shadow | none => pure (Reduct.kept e) : Reduce (Reduct Expr)) s = _
  rcases s.scopes.lookup? name with _ | _ | _ | _ <;> rfl

/-- An application that stays one. -/
theorem value_apply (hkeep : Keeping f) {function : Expr} {args : List Expr} {ty : Ty}
    {a : Reduct (List Expr)} {b : Reduct Expr} {mid : Reducer}
    (ha : all f args s = (.ok a, mid)) (hb : f function mid = (.ok b, s')) :
    (Reduct.rebuild ⟨.apply function args, ty⟩ (Reduct.map₂ Form.apply b a)).value =
      ⟨.apply b.value a.value, ty⟩ := by
  refine value_rebuild fun hkept => ?_
  obtain ⟨rs, hrs, hvalue⟩ := all_eq_ok ha
  simp only [Reduct.map₂, Bool.or_eq_false_iff] at hkept
  simp only [Reduct.map₂]
  rw [hkeep function mid b s' hb hkept.1, hvalue, hrs.each.values_eq hkeep (hrs.kept hkept.2)]

theorem value_ite (hkeep : Keeping f) {c y n : Expr} {ty : Ty} {a b d : Reduct Expr}
    (h : Each f s [c, y, n] [a, b, d] s') :
    (Reduct.rebuild ⟨.ite c y n, ty⟩ (Reduct.map₃ Form.ite a b d)).value =
      ⟨.ite a.value b.value d.value, ty⟩ := by
  refine value_rebuild fun hkept => ?_
  simp only [Reduct.map₃, Bool.or_eq_false_iff, and_assoc] at hkept
  have := h.values_eq hkeep (by simpa using hkept)
  simp only [List.map_cons, List.cons.injEq] at this
  simp only [Reduct.map₃]
  rw [this.1, this.2.1, this.2.2.1]

/-- Parameters under the names that their binders got. -/
def renameParams (params : List Param) (bound : List String) : List Param :=
  params.zipWith (fun p name => ⟨name, p.ty⟩) bound

theorem renameParams_self (params : List Param) :
    renameParams params (params.map Param.name) = params :=
  List.ext_getElem (by simp [renameParams]) fun i _ _ => by simp [renameParams]

theorem map_name_renameParams {params : List Param} {bound : List String}
    (h : bound.length = params.length) : (renameParams params bound).map Param.name = bound :=
  List.ext_getElem (by simp [renameParams, h]) fun i _ _ => by simp [renameParams]

theorem map_ty_renameParams {params : List Param} {bound : List String}
    (h : bound.length = params.length) :
    (renameParams params bound).map Param.ty = params.map Param.ty :=
  List.ext_getElem (by simp [renameParams, h]) fun i _ _ => by simp [renameParams]

/-- A closure is its body, done with the parameters bound in a scope of their own. -/
theorem closure_eq_ok (hkeep : Keeping f) {params : List Param} {body : Expr} {ty : Ty}
    {r : Reduct Expr} (h : node f ⟨.closure params body, ty⟩ s = (.ok r, s')) :
    ∃ bound s₁ b s₂, bindNames (params.map Param.name) body.free (opened s) = (.ok bound, s₁) ∧
      f body s₁ = (.ok b, s₂) ∧ s₂.scopes.pop = .ok s'.scopes ∧ s'.names = s₂.names ∧
      r.value = ⟨.closure (renameParams params bound) b.value, ty⟩ := by
  change closure f _ params body s = _ at h
  rw [closure_eq_inScope] at h
  obtain ⟨s₂, hact, hpop, hnames⟩ := inScope_eq_ok h
  obtain ⟨bound, s₁, hbound, hact⟩ := (run_bind_eq_ok _ _).1 hact
  obtain ⟨b, mid, hb, hact⟩ := (run_bind_eq_ok _ _).1 hact
  cases hact
  refine ⟨bound, s₁, b, s₂, hbound, hb, hpop, hnames, value_rebuild fun hkept => ?_⟩
  simp only [Bool.or_eq_false_iff, bne_eq_false_iff_eq] at hkept
  simp only [Reduct.map]
  rw [hkept.2, hkeep body s₁ b s₂ hb hkept.1]
  exact congrArg (Form.closure · body) (renameParams_self params)

theorem option_keeps (hkeep : Keeping f) {o : Option Expr} {r : Reduct (Option Expr)}
    (h : option f o s = (.ok r, s')) (hkept : r.changed = false) : r.value = o := by
  cases o with
  | none =>
    cases h
    rfl
  | some e =>
    obtain ⟨a, s₁, ha, h⟩ := (run_bind_eq_ok _ _).1 h
    cases h
    exact congrArg some (hkeep e s a s' ha hkept)

theorem block_keeps (hkeep : Keeping f) {avoid : List String} : ∀ {b : Block} {s : Reducer}
    {r : Reduct Block} {s' : Reducer}, block f avoid b s = (.ok r, s') → r.changed = false →
    r.value = b
  | .done result, s, r, s', h, hkept => by
    obtain ⟨a, s₁, ha, h⟩ := (run_bind_eq_ok _ _).1 h
    cases h
    exact congrArg Block.done (option_keeps hkeep ha hkept)
  | .bind name ty mutable init rest, s, r, s', h, hkept => by
    obtain ⟨a, s₁, ha, h⟩ := (run_bind_eq_ok _ _).1 h
    obtain ⟨bound, s₂, hbound, h⟩ := (run_bind_eq_ok _ _).1 h
    obtain ⟨b, s₃, hb, h⟩ := (run_bind_eq_ok _ _).1 h
    cases h
    simp only [Reduct.map₂, Bool.or_eq_false_iff, bne_eq_false_iff_eq] at hkept
    simp only [Reduct.map₂]
    rw [hkept.1.2, option_keeps hkeep ha hkept.1.1, block_keeps hkeep hb hkept.2]
  | .exec e rest, s, r, s', h, hkept => by
    obtain ⟨a, s₁, ha, h⟩ := (run_bind_eq_ok _ _).1 h
    obtain ⟨b, s₂, hb, h⟩ := (run_bind_eq_ok _ _).1 h
    cases h
    simp only [Reduct.map₂, Bool.or_eq_false_iff] at hkept
    simp only [Reduct.map₂]
    rw [hkeep e s a s₁ ha hkept.1, block_keeps hkeep hb hkept.2]

/-- An arm is its body, done with the names of its pattern bound in a scope of their own. -/
theorem arm_eq_ok (hkeep : Keeping f) {p : Pattern} {body : Expr} {r : Reduct (Pattern × Expr)}
    (h : arm f p body s = (.ok r, s')) : ∃ bound s₁ b s₂,
      bindNames p.bindings body.free (opened s) = (.ok bound, s₁) ∧ f body s₁ = (.ok b, s₂) ∧
      s₂.scopes.pop = .ok s'.scopes ∧ s'.names = s₂.names ∧
      r.value = (p.rename (lastName (p.bindings.zip bound)), b.value) ∧
      (r.changed = false → r.value = (p, body)) := by
  obtain ⟨s₂, hact, hpop, hnames⟩ := inScope_eq_ok h
  obtain ⟨bound, s₁, hbound, hact⟩ := (run_bind_eq_ok _ _).1 hact
  obtain ⟨b, mid, hb, hact⟩ := (run_bind_eq_ok _ _).1 hact
  cases hact
  rw [Expr.freeVariables_eq] at hbound
  refine ⟨bound, s₁, b, s₂, hbound, hb, hpop, hnames, rfl, fun hkept => ?_⟩
  simp only [Bool.or_eq_false_iff, Bool.not_eq_false', List.isEmpty_iff] at hkept
  simp only [Reduct.map]
  rw [hkept.1.2, hkeep body s₁ b s₂ hb hkept.1.1]
  exact congrArg (·, body) (rename_id p)

theorem arms_keeps (hkeep : Keeping f) {as : List (Pattern × Expr)}
    {r : Reduct (List (Pattern × Expr))} (h : arms f as s = (.ok r, s'))
    (hkept : r.changed = false) : r.value = as := by
  induction as generalizing s r with
  | nil =>
    cases h
    rfl
  | cons a as ih =>
    obtain ⟨p, body⟩ := a
    obtain ⟨b, s₁, hb, h⟩ := (run_bind_eq_ok _ _).1 h
    obtain ⟨c, s₂, hc, h⟩ := (run_bind_eq_ok _ _).1 h
    cases h
    obtain ⟨-, -, -, -, -, -, -, -, -, hsame⟩ := arm_eq_ok hkeep hb
    simp only [Reduct.map₂, Bool.or_eq_false_iff] at hkept
    simp only [Reduct.map₂]
    rw [hsame hkept.1, ih hc hkept.2]

theorem value_cases (hkeep : Keeping f) {scrutinee : Expr} {as : List (Pattern × Expr)} {ty : Ty}
    {a : Reduct Expr} {c : Reduct (List (Pattern × Expr))} {mid : Reducer}
    (ha : f scrutinee s = (.ok a, mid)) (hc : arms f as mid = (.ok c, s')) :
    (Reduct.rebuild ⟨.cases scrutinee as, ty⟩ (Reduct.map₂ Form.cases a c)).value =
      ⟨.cases a.value c.value, ty⟩ := by
  refine value_rebuild fun hkept => ?_
  simp only [Reduct.map₂, Bool.or_eq_false_iff] at hkept
  simp only [Reduct.map₂]
  rw [hkeep scrutinee s a mid ha hkept.1, arms_keeps hkeep hc hkept.2]

end Binders

end Reduce

end ViewCircuit
