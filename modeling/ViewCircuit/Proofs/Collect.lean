import ViewCircuit.Expr.Collect

/-! The walk that collects free variables meets those that occur outside the reach of a binder of
their name, and leaves the stack of bound names as it found it. Every binder cuts the stack back to
where it was, so what is bound at a place is what the binders around the place bind. -/
namespace ViewCircuit

namespace Collector

variable {bound xs ys : List String} {act next : StateM Collector Unit}

/-- The names that a binder of others lets through. -/
def outside (bound xs : List String) : List String := xs.filter fun x => !bound.contains x

theorem outside_append (bound xs ys : List String) :
    outside bound (xs ++ ys) = outside bound xs ++ outside bound ys := List.filter_append ..

@[simp] theorem outside_nil (xs : List String) : outside [] xs = xs :=
  List.filter_eq_self.2 fun _ _ => rfl

/-- Inner binders first, then the outer ones. -/
theorem outside_outside (bound names xs : List String) :
    outside bound (outside names xs) = outside (bound ++ names) xs := by
  simp [outside, List.filter_filter]

/-- Under the bound names, a step finds what they let through of `xs`, and binds `names` for the
steps after it. -/
def Leaves (bound names xs : List String) (act : StateM Collector Unit) : Prop :=
  ∀ found, act.run ⟨bound, found⟩ = ((), ⟨bound ++ names, found ++ outside bound xs⟩)

/-- A step that leaves the stack as it was. -/
abbrev Meets (bound xs : List String) (act : StateM Collector Unit) : Prop :=
  Leaves bound [] xs act

theorem meets_none (bound : List String) : Meets bound [] (pure ()) := by
  intro found
  rw [List.append_nil, outside, List.filter_nil, List.append_nil]
  rfl

theorem meets_meet (bound : List String) (name : String) : Meets bound [name] (meet name) := by
  intro found
  by_cases h : name ∈ bound
  · have hout : outside bound [name] = [] := by simp [outside, h]
    rw [hout, List.append_nil, List.append_nil]
    exact congrArg (Prod.mk ()) (if_pos (by simpa using h))
  · have hout : outside bound [name] = [name] := by simp [outside, h]
    rw [hout, List.append_nil]
    exact congrArg (Prod.mk ()) (if_neg (by simpa using h))

/-- What the first step binds is bound in the second. -/
theorem Leaves.bind {names more : List String} (h : Leaves bound names xs act)
    (hnext : Leaves (bound ++ names) more ys next) :
    Leaves bound (names ++ more) (xs ++ outside names ys) (do act; next) := by
  intro found
  rw [StateT.run_bind, h found]
  change next.run _ = _
  rw [hnext, outside_append, outside_outside, List.append_assoc, List.append_assoc]

theorem Meets.bind {names : List String} (h : Meets bound xs act)
    (hnext : Leaves bound names ys next) : Leaves bound names (xs ++ ys) (do act; next) := by
  have hnext' : Leaves (bound ++ []) names ys next := by rwa [List.append_nil]
  simpa using Leaves.bind h hnext'

theorem leaves_extend (bound names : List String) : Leaves bound names [] (extend names) := by
  intro found
  rw [outside, List.filter_nil, List.append_nil]
  rfl

/-- Whatever a step binds is gone when the stack is cut back to where it was. -/
theorem Leaves.cutBack {names : List String} (h : Leaves bound names xs act) :
    Meets bound xs (do let before ← mark; act; truncate before) := by
  intro found
  have hmark : mark.run ⟨bound, found⟩ = (bound.length, ⟨bound, found⟩) := rfl
  rw [StateT.run_bind, hmark]
  change (act >>= fun _ => truncate bound.length).run _ = _
  rw [StateT.run_bind, h found]
  change ((), (⟨(bound ++ names).take bound.length, _⟩ : Collector)) = _
  rw [List.take_left, List.append_nil]

/-- A binder hides its names from what is met in its reach. -/
theorem Meets.under {names : List String} (h : Meets (bound ++ names) xs act) :
    Meets bound (outside names xs) (do let before ← mark; extend names; act; truncate before) :=
  ((leaves_extend bound names).bind h).cutBack

end Collector

open Collector (Meets Leaves outside meets_none meets_meet leaves_extend)

namespace Expr

mutual
theorem meets_collect : ∀ (e : Expr) (bound : List String), Meets bound e.free e.collect
  | ⟨.var name, _⟩, bound => meets_meet bound name
  | ⟨.literal value, _⟩, bound =>
    match value with
    | .zset rows => meets_collectRows rows bound
    | .vec items => meets_collectAll items bound
    | .null | .bool _ | .int _ | .float _ | .decimal _ | .string _ | .date _ | .timestamp _
    | .interval _ | .usize _ => meets_none bound
  | ⟨.field e _, _⟩, bound | ⟨.unary _ e, _⟩, bound | ⟨.cast e, _⟩, bound | ⟨.isNull e, _⟩, bound
  | ⟨.borrow e, _⟩, bound | ⟨.deref e, _⟩, bound | ⟨.some e, _⟩, bound => meets_collect e bound
  | ⟨.binary _ left right, _⟩, bound => (meets_collect left bound).bind (meets_collect right bound)
  | ⟨.apply function args, _⟩, bound =>
    (meets_collect function bound).bind (meets_collectAll args bound)
  | ⟨.call _ es, _⟩, bound | ⟨.tuple es, _⟩, bound | ⟨.rawTuple es, _⟩, bound
  | ⟨.struct _ es, _⟩, bound => meets_collectAll es bound
  | ⟨.closure params body, _⟩, bound => (meets_collect body (bound ++ params.map Param.name)).under
  | ⟨.block body, _⟩, bound => by
    obtain ⟨names, hnames⟩ := leaves_collectBlock body bound
    exact hnames.cutBack
  | ⟨.ite condition yes no, _⟩, bound => by
    have hbranches := (meets_collect yes bound).bind (meets_collect no bound)
    have hall := (meets_collect condition bound).bind hbranches
    rwa [← List.append_assoc] at hall
  | ⟨.cases scrutinee arms, _⟩, bound =>
    (meets_collect scrutinee bound).bind (meets_collectArms arms bound)
  | ⟨.range start stop _, _⟩, bound =>
    (meets_collectOption start bound).bind (meets_collectOption stop bound)
  | ⟨.fold zero increment post, _⟩, bound => by
    have hsteps := (meets_collect increment bound).bind (meets_collect post bound)
    have hall := (meets_collect zero bound).bind hsteps
    rwa [← List.append_assoc] at hall
theorem meets_collectAll : ∀ (es : List Expr) (bound : List String),
    Meets bound (freeAll es) (collectAll es)
  | [], bound => meets_none bound
  | e :: es, bound => (meets_collect e bound).bind (meets_collectAll es bound)
theorem meets_collectOption : ∀ (o : Option Expr) (bound : List String),
    Meets bound (freeOption o) (collectOption o)
  | none, bound => meets_none bound
  | some e, bound => meets_collect e bound
theorem meets_collectRows : ∀ (rows : List (Expr × Int)) (bound : List String),
    Meets bound (freeRows rows) (collectRows rows)
  | [], bound => meets_none bound
  | (e, _) :: rows, bound => (meets_collect e bound).bind (meets_collectRows rows bound)
theorem meets_collectArms : ∀ (arms : List (Pattern × Expr)) (bound : List String),
    Meets bound (freeArms arms) (collectArms arms)
  | [], bound => meets_none bound
  | (p, e) :: arms, bound =>
    (meets_collect e (bound ++ p.bindings)).under.bind (meets_collectArms arms bound)
/-- Each binding of a block is visible in the rest of it, and not in its own initial value. -/
theorem leaves_collectBlock : ∀ (b : Block) (bound : List String),
    ∃ names, Leaves bound names (freeBlock b) (collectBlock b)
  | .done result, bound => ⟨[], meets_collectOption result bound⟩
  | .bind name _ _ init rest, bound => by
    obtain ⟨names, hrest⟩ := leaves_collectBlock rest (bound ++ [name])
    have hbound := (leaves_extend bound [name]).bind hrest
    have hall := (meets_collectOption init bound).bind hbound
    have hname : outside [name] (freeBlock rest) = (freeBlock rest).filter fun x => x != name :=
      List.filter_congr fun x _ => by by_cases h : x = name <;> simp [h]
    rw [hname] at hall
    exact ⟨[name] ++ names, hall⟩
  | .exec e rest, bound => by
    obtain ⟨names, hrest⟩ := leaves_collectBlock rest bound
    exact ⟨names, (meets_collect e bound).bind hrest⟩
end

/-- The walk over an expression collects its free variables. -/
@[simp] theorem freeVariables_eq (e : Expr) : e.freeVariables = e.free := by
  unfold freeVariables
  rw [meets_collect e [] []]
  exact Collector.outside_nil e.free

end Expr
end ViewCircuit
