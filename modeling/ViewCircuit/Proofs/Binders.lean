import ViewCircuit.Proofs.NormalForm

/-! Names that closures and patterns bind side by side. Binders are renamed one after the other, so
a new name has to differ from those before it as well; it does unless an earlier binder already had
a name of the form that is drawn for a later one. -/
namespace ViewCircuit

open Reduce

namespace Names

theorem Derived.length_lt {base name : String} (h : Derived base name) :
    base.length < name.length := by
  have hnth : ∀ (stem : String) n, stem.length < (nth (stem ++ "_") n).length := by
    intro stem n
    have hunderscore : "_".length = 1 := rfl
    rw [nth, String.length_append, String.length_append, hunderscore]
    omega
  induction h with
  | once n => exact hnth base n
  | again n _ ih => exact Nat.lt_trans ih (hnth _ n)

/-- The names differ, and none could yet be drawn to rename a later one. -/
def Apart (names : Names) (binders : List String) : Prop :=
  binders.Pairwise fun x y => x ≠ y ∧ (Derived y x → names.Spent x)

variable {names : Names} {binders : List String}

theorem Apart.later {later : Names} (h : names.Apart binders) (hlater : names.Later later) :
    later.Apart binders :=
  h.imp fun hxy => ⟨hxy.1, fun hderived => (hxy.2 hderived).later hlater⟩

theorem Apart.nodup (h : names.Apart binders) : binders.Nodup := h.imp fun hxy => hxy.1

theorem apart_of_nodup (hnodup : binders.Nodup)
    (hdrawn : binders.Pairwise fun x y => Derived y x → names.Spent x) : names.Apart binders :=
  List.pairwise_and_iff.2 ⟨hnodup, hdrawn⟩

end Names

section Bind

variable {avoid names bounds : List String} {s s' : Reducer} {name bound x v : String}

/-- The new name of one binder is not given to another. -/
theorem BindsAll.notMem_of_renamed (h : BindsAll avoid s names bounds s')
    (hx : s.scopes.lookup? x = some (.rename v)) (hnames : x ∉ names) : v ∉ bounds := by
  induction h with
  | nil => exact nofun
  | @cons s s₁ s' name bound names bounds hone _ ih =>
    obtain ⟨scope, hscope, hmem⟩ := Scopes.mem_of_lookup? hx
    have htaken : v ∈ s.scopes.taken := Scopes.mem_taken_of_rename hscope hmem
    have hrest := hone.lookup?_of_ne (List.ne_of_not_mem_cons hnames)
    rw [List.mem_cons, not_or]
    exact ⟨fun hv => hone.untaken (hv ▸ htaken),
      ih (hrest.trans hx) (List.not_mem_of_not_mem_cons hnames)⟩

/-- Nor is a name that no binder has and that cannot be drawn. -/
theorem BindsAll.notMem_of_apart (h : BindsAll avoid s names bounds s')
    (hx : ∀ y ∈ names, x ≠ y ∧ (Names.Derived y x → s.names.Spent x)) : x ∉ bounds := by
  induction h with
  | nil => exact nofun
  | cons hone _ ih =>
    obtain ⟨⟨hne, hspent⟩, hx⟩ := List.forall_mem_cons.1 hx
    rw [List.mem_cons, not_or]
    exact ⟨hone.ne_of_apart hne (.inr hspent),
      ih fun y hy => ⟨(hx y hy).1, fun hderived => ((hx y hy).2 hderived).later hone.later⟩⟩

theorem BindsAll.origin (h : BindsAll avoid s names bounds s') : ∀ b ∈ bounds,
    ∃ y ∈ names, b = y ∨ Names.Derived y b := by
  induction h with
  | nil => exact nofun
  | cons hone _ ih =>
    refine List.forall_mem_cons.2 ⟨⟨_, List.mem_cons_self, ?_⟩, fun b hb => ?_⟩
    · rcases hone.choice with ⟨hkept, -⟩ | ⟨-, -, -, n, hdrawn, -⟩
      · exact .inl hkept
      · exact .inr (hdrawn ▸ .once n)
    · obtain ⟨y, hy, hb⟩ := ih b hb
      exact ⟨y, List.mem_cons_of_mem _ hy, hb⟩

/-- Binders that are apart stay so under the names that they get. -/
theorem BindsAll.apart (h : BindsAll avoid s names bounds s') (hnames : s.names.Apart names) :
    s'.names.Apart bounds := by
  induction h with
  | nil => exact .nil
  | @cons s s₁ s' name bound names bounds hone hall ih =>
    obtain ⟨hname, hrest⟩ := List.pairwise_cons.1 hnames
    have hlater := hone.later.trans hall.later
    have hnotMem : name ∉ names := fun hmem => (hname name hmem).1 rfl
    refine List.pairwise_cons.2 ⟨fun b hb => ?_, ih (Names.Apart.later hrest hone.later)⟩
    rcases hone.choice with ⟨rfl, -⟩ | ⟨-, -, hspent, n, hdrawn, -⟩
    · -- the binder keeps its name, which no later one has or could get
      have hbound : bound ∉ bounds := hall.notMem_of_apart fun y hy =>
        ⟨(hname y hy).1, fun hderived => ((hname y hy).2 hderived).later hone.later⟩
      refine ⟨fun heq => hbound (heq ▸ hb), fun hderived => ?_⟩
      obtain ⟨y, hy, rfl | hy'⟩ := hall.origin b hb
      · exact ((hname b hy).2 hderived).later hlater
      · exact ((hname y hy).2 (hy'.trans hderived)).later hlater
    · -- the binder is renamed, and its new name is taken from here on
      have hlength := (Names.Derived.once n : Names.Derived name _).length_lt
      have hne : bound ≠ name := by
        rintro rfl
        rw [← hdrawn] at hlength
        exact Nat.lt_irrefl _ hlength
      have hlookup := hone.lookup?_self.resolve_right fun hkept => hne hkept.2
      have hbound : bound ∉ bounds := hall.notMem_of_renamed hlookup hnotMem
      exact ⟨fun heq => hbound (heq ▸ hb), fun _ => hspent.later hall.later⟩

/-- Where no name is bound twice, every place gets the name of its binder. -/
theorem map_lastName_zip {names bounds : List String} (hnodup : names.Nodup)
    (hlength : bounds.length = names.length) :
    names.map (lastName (names.zip bounds)) = bounds := by
  induction names generalizing bounds with
  | nil => exact (List.length_eq_zero_iff.1 hlength).symm
  | cons name names ih =>
    cases bounds with
    | nil => cases hlength
    | cons bound bounds =>
      obtain ⟨hnotMem, hnodup⟩ := List.nodup_cons.1 hnodup
      have hself : lastName ((name, bound) :: names.zip bounds) name = bound := by
        have hnone : lastRename (names.zip bounds) name = none := by
          cases hlast : lastRename (names.zip bounds) name with
          | none => rfl
          | some b => exact absurd (List.of_mem_zip (mem_of_lastRename hlast).1).1 hnotMem
        unfold lastName
        rw [lastRename_cons, hnone, Option.none_or]
        by_cases heq : name = bound
        · simp [heq]
        · simp [heq]
      have hrest : ∀ y ∈ names, lastName ((name, bound) :: names.zip bounds) y =
          lastName (names.zip bounds) y := by
        intro y hy
        have hne : y ≠ name := fun heq => hnotMem (heq ▸ hy)
        unfold lastName
        rw [lastRename_cons, if_neg fun h => hne h.1, Option.or_none]
      rw [List.zip_cons_cons, List.map_cons, hself, List.map_congr_left hrest,
        ih hnodup (by simpa using hlength)]

end Bind

namespace Expr

/-- The names that a node binds side by side: the parameters of a closure, or those of each pattern
of a match. -/
def binderLists (e : Expr) : List (List String) :=
  match e.form with
  | .closure params _ => [params.map Param.name]
  | .cases _ arms => arms.map fun arm => arm.1.bindings
  | _ => []

/-- No two parameters of a closure have one name, and no pattern binds a name twice. -/
def DistinctBinders (e : Expr) : Prop := ∀ x : Expr, x.Inside e → ∀ l ∈ x.binderLists, l.Nodup

theorem binderLists_of_head? {e : Expr} {head : Head} {parts : List Expr}
    (h : e.form.head? = some (head, parts)) : e.binderLists = [] := by
  unfold binderLists
  split
  · rename_i hclosure
    rw [hclosure] at h
    cases h
  · rename_i hcases
    rw [hcases] at h
    cases h
  · rfl

end Expr

theorem ArmsRebuilt.later {names later : Names} {as as' : List (Pattern × Expr)}
    (h : ArmsRebuilt names as as' later) : names.Later later := by
  induction h with
  | nil => exact .refl _
  | cons hbinds hlater _ ih => exact hbinds.later.trans (hlater.trans ih)

theorem ArmsRebuilt.apart {names later : Names} {as as' : List (Pattern × Expr)}
    (h : ArmsRebuilt names as as' later) (has : ∀ arm ∈ as, names.Apart arm.1.bindings) :
    ∀ arm ∈ as', later.Apart arm.1.bindings := by
  induction h with
  | nil => exact nofun
  | cons hbinds hlater harms ih =>
    obtain ⟨hpattern, has⟩ := List.forall_mem_cons.1 has
    refine List.forall_mem_cons.2 ⟨?_, ih fun arm harm => ?_⟩
    · rw [Pattern.bindings_rename, map_lastName_zip hpattern.nodup hbinds.length_eq]
      exact (hbinds.apart hpattern).later (hlater.trans harms.later)
    · exact (has arm harm).later (hbinds.later.trans hlater)

/-- Reduction keeps the binders of a node apart. -/
theorem Expr.steady_apart : Expr.Steady fun names x => ∀ l ∈ x.binderLists, names.Apart l where
  later hlater hx l hl := (hx l hl).later hlater
  rebuilt h hx := by
    cases h with
    | head hform hlength =>
      rw [Expr.binderLists_of_head? (head?_build hform hlength)]
      exact nofun
    | closure hbinds =>
      refine List.forall_mem_singleton.2 ?_
      rw [map_name_renameParams (by simpa using hbinds.length_eq)]
      exact hbinds.apart (hx _ (List.mem_singleton_self _))
    | cases harms =>
      exact List.forall_mem_map.2 (harms.apart (List.forall_mem_map.1 hx))
    | _ => exact nofun

theorem Expr.Every.and {P Q : Expr → Prop} {e : Expr} (hP : e.Every P) (hQ : e.Every Q) :
    e.Every fun x => P x ∧ Q x := by
  induction hP with
  | intro hself _ ih =>
    exact .intro ⟨hself, hQ.self⟩ fun part hpart => ih part hpart (hQ.part part hpart)

theorem Expr.InPattern.inside {x e : Expr} (h : x.InPattern e) : x.Inside e := by
  obtain ⟨l, part, ⟨m, hm, hl⟩, hpart, hx⟩ := h
  exact (Expr.Inside.pattern hl hpart hx).trans hm

/-- Reduction repeats no name among the parameters of a closure or in a pattern, when none is
repeated before and no earlier name has a form that could still be drawn for a later one. -/
theorem reduce_distinctBinders {fuel : Nat} {e : Expr} {names : Names} {r : Reduct Expr}
    {s : Reducer} (he : e.DistinctBinders)
    (hdrawn : e.Every fun node => ∀ l ∈ node.binderLists,
      l.Pairwise fun x y => Names.Derived y x → names.Spent x)
    (hr : whole fuel e ⟨names, .empty⟩ = (.ok r, s)) : r.value.DistinctBinders := by
  have hrules := whole_eq_ok hr
  have hapart : e.Every fun x => ∀ l ∈ x.binderLists, names.Apart l :=
    ((Expr.every_of_inside e he).and hdrawn).mono fun x hx l hl =>
      Names.apart_of_nodup (hx.1 l hl) (hx.2 l hl)
  have hbinders := (hrules.every Expr.steady_apart .empty hapart).every
  have hpatterns := (hrules.done .empty (Expr.Inside.patternsSatisfy e .refl)).patternsSatisfy
  intro x hx l hl
  rcases hbinders.inPattern hpatterns hx with hnode | hold
  · exact (hnode l hl).nodup
  · exact he x hold.inside l hl

/-- Passes a variable to a function that returns a closure with parameters like it. -/
def closureOver (first second : String) : Expr :=
  let y := Expr.var "y" Ty.int32
  let sum : Expr := ⟨.binary .add (Expr.var "x" Ty.int32) y, Ty.int32⟩
  ⟨.apply (Expr.closure [⟨"x", Ty.int32⟩]
      (Expr.closure [⟨first, Ty.int32⟩, ⟨second, Ty.int32⟩] sum)) [y],
    Ty.function [Ty.int32, Ty.int32] Ty.int32⟩

theorem every_closureOver {P : Expr → Prop} {first second : String}
    (hP : ∀ x : Expr, x.patternLiterals = [] →
      (∀ l ∈ x.binderLists, l = ["x"] ∨ l = [first, second]) → P x) :
    (closureOver first second).Every P := by
  have hvar : ∀ x, (Expr.var x Ty.int32).Every P := fun _ => .intro (hP _ rfl nofun) nofun
  have hpair : ∀ e e' form ty, e.Every P → e'.Every P → form.parts = [e, e'] →
      Expr.patternLiterals ⟨form, ty⟩ = [] → Expr.binderLists ⟨form, ty⟩ = [] →
      Expr.Every P ⟨form, ty⟩ := by
    intro e e' form ty he he' hparts hliterals hbinders
    refine .intro (hP _ hliterals (by simp [hbinders])) ?_
    change ∀ part ∈ form.parts, _
    rw [hparts]
    exact List.forall_mem_cons.2 ⟨he, List.forall_mem_singleton.2 he'⟩
  refine hpair _ _ _ _ ?_ (hvar "y") rfl rfl rfl
  refine .intro (hP _ rfl (List.forall_mem_singleton.2 (.inl rfl)))
    (List.forall_mem_singleton.2 ?_)
  refine .intro (hP _ rfl (List.forall_mem_singleton.2 (.inr rfl)))
    (List.forall_mem_singleton.2 ?_)
  exact hpair _ _ _ _ (hvar "x") (hvar "y") rfl rfl rfl

theorem distinctBinders_of_every {e : Expr} (h : e.Every fun x => x.patternLiterals = [] ∧
    ∀ l ∈ x.binderLists, l.Nodup) : e.DistinctBinders := by
  intro x hx
  induction hx with
  | refl => exact h.self.2
  | part hpart _ ih => exact ih (h.part _ hpart)
  | pattern hl =>
    rw [h.self.1] at hl
    cases hl

theorem distinctBinders_closureOver {first second : String} (h : first ≠ second) :
    (closureOver first second).DistinctBinders := by
  refine distinctBinders_of_every (every_closureOver fun x hliterals hbinders =>
    ⟨hliterals, fun l hl => ?_⟩)
  rcases hbinders l hl with rfl | rfl
  · exact List.nodup_singleton _
  · simpa using h

/-- The first parameter makes way for the argument and the second for the first. -/
theorem reduce_closureOver : ∃ r s,
    whole 8 (closureOver "y" "y_0") ⟨.empty, .empty⟩ = (.ok r, s) ∧
    r.value = Expr.closure [⟨"y_0", Ty.int32⟩, ⟨"y_0_0", Ty.int32⟩]
      ⟨.binary .add (Expr.var "y" Ty.int32) (Expr.var "y_0" Ty.int32), Ty.int32⟩ ∧
    r.value.DistinctBinders := by
  have hr : whole 8 (closureOver "y" "y_0") ⟨.empty, .empty⟩ =
      (.ok ⟨Expr.closure [⟨"y_0", Ty.int32⟩, ⟨"y_0_0", Ty.int32⟩]
        ⟨.binary .add (Expr.var "y" Ty.int32) (Expr.var "y_0" Ty.int32), Ty.int32⟩, true, 1⟩,
      ⟨⟨[("y_0_", 1), ("y_", 1)]⟩, .empty⟩) := by with_unfolding_all rfl
  refine ⟨_, _, hr, rfl, reduce_distinctBinders (distinctBinders_closureOver (by decide)) ?_ hr⟩
  refine every_closureOver fun x _ hbinders l hl => ?_
  rcases hbinders l hl with rfl | rfl
  · exact List.pairwise_singleton _ _
  · refine List.pairwise_pair.2 fun hderived => ?_
    exact absurd hderived.length_lt (by decide)

/-- With the parameters the other way round both get one name. -/
theorem reduce_closureOver_repeats : (closureOver "y_0" "y").DistinctBinders ∧ ∃ r ctx,
    (closureOver "y_0" "y").reduce Context.empty = (.ok r, ctx) ∧ ¬ r.value.DistinctBinders := by
  have hr : (closureOver "y_0" "y").reduce Context.empty =
      (.ok ⟨Expr.closure [⟨"y_0", Ty.int32⟩, ⟨"y_0", Ty.int32⟩]
        ⟨.binary .add (Expr.var "y" Ty.int32) (Expr.var "y_0" Ty.int32), Ty.int32⟩, true, 1⟩,
      ⟨⟨[("y_", 1)]⟩, 0⟩) := by with_unfolding_all rfl
  refine ⟨distinctBinders_closureOver (by decide), _, _, hr, fun h => ?_⟩
  exact absurd (h _ .refl _ (List.mem_singleton_self _)) (by decide)

end ViewCircuit
