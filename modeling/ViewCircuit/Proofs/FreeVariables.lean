import ViewCircuit.Proofs.NormalForm

/-! Reduction makes no variable free. Binders and occurrences are renamed apart from each other, so
that what follows says of every binder that the occurrences below it got its new name. -/
namespace ViewCircuit

open Reduce

theorem Expr.mem_free_var {x z : String} {ty : Ty} : z ∈ (Expr.var x ty).free ↔ z = x :=
  List.mem_singleton

/-- Each of the last variables occurs in what stands for one of the first. -/
def Scopes.Carries (Δ : Scopes) (xs zs : List String) : Prop :=
  ∀ z ∈ zs, ∃ x ∈ xs, z ∈ (Δ.image x).free

namespace Scopes.Carries

variable {Δ : Scopes} {xs xs' zs zs' : List String}

theorem append (h : Δ.Carries xs zs) (h' : Δ.Carries xs' zs') :
    Δ.Carries (xs ++ xs') (zs ++ zs') := by
  intro z hz
  rcases List.mem_append.1 hz with hz | hz
  · obtain ⟨x, hx, hzx⟩ := h z hz
    exact ⟨x, List.mem_append_left _ hx, hzx⟩
  · obtain ⟨x, hx, hzx⟩ := h' z hz
    exact ⟨x, List.mem_append_right _ hx, hzx⟩

/-- What comes from below binders, but not from the binders, comes from outside. -/
theorem outside {Δ₁ : Scopes} {names bounds : List String} (h : Δ₁.Carries xs zs)
    (hbound : ∀ x ∈ xs, x ∈ names → ∃ y ∈ bounds, Δ₁.image x = Expr.var y Ty.any)
    (hrest : ∀ x, x ∉ names → Δ₁.image x = Δ.image x) :
    Δ.Carries (xs.filter fun x => !names.contains x) (zs.filter fun z => !bounds.contains z) := by
  intro z hz
  simp only [List.mem_filter, Bool.not_eq_true', List.contains_eq_mem,
    decide_eq_false_iff_not] at hz
  obtain ⟨x, hx, hzx⟩ := h z hz.1
  by_cases hmem : x ∈ names
  · obtain ⟨y, hy, himage⟩ := hbound x hx hmem
    rw [himage] at hzx
    obtain rfl := Expr.mem_free_var.1 hzx
    exact absurd hy hz.2
  · exact ⟨x, by simpa using ⟨hx, hmem⟩, hrest x hmem ▸ hzx⟩

end Scopes.Carries

section Binders

variable {avoid names bounds xs zs : List String} {s s' : Reducer} {name bound : String}

theorem Binds.carries (h : Binds s name avoid bound s') (hzs : s'.scopes.Carries xs zs) :
    s.scopes.Carries (xs.filter fun x => x != name) (zs.filter fun z => z != bound) := by
  have hfilter : ∀ (n : String) (ys : List String),
      (ys.filter fun y => y != n) = ys.filter fun y => !List.contains [n] y :=
    fun n ys => List.filter_congr fun y _ => by simp [bne, beq_eq_decide]
  rw [hfilter, hfilter]
  refine hzs.outside (fun x _ hx => ⟨bound, List.mem_singleton_self _, ?_⟩)
    fun x hx => h.image_of_ne (by simpa using hx)
  rw [List.mem_singleton.1 hx, h.image_self]

theorem BindsAll.exists_image (h : BindsAll avoid s names bounds s') {x : String}
    (hx : x ∈ names) : ∃ y ∈ bounds, s'.scopes.image x = Expr.var y Ty.any := by
  induction h with
  | nil => cases hx
  | @cons s s₁ s' name bound names bounds hone hall ih =>
    by_cases hlater : x ∈ names
    · obtain ⟨y, hy, himage⟩ := ih hlater
      exact ⟨y, List.mem_cons_of_mem _ hy, himage⟩
    · obtain rfl : x = name := (List.mem_cons.1 hx).resolve_right hlater
      exact ⟨bound, List.mem_cons_self, (hall.image_of_notMem hlater).trans hone.image_self⟩

/-- Parameters of a closure, each under its own new name. -/
theorem BindsAll.carries (h : BindsAll avoid s names bounds s')
    (hzs : s'.scopes.Carries xs zs) : s.scopes.Carries (xs.filter fun x => !names.contains x)
      (zs.filter fun z => !bounds.contains z) :=
  hzs.outside (fun _ _ hx => h.exists_image hx) fun _ hx => h.image_of_notMem hx

/-- Names of a pattern, all places of a name under the last new one. -/
theorem BindsAll.carries_last (h : BindsAll avoid s names bounds s') (hs : s.scopes.Covers)
    (htop : TopOutside avoid s) (hzs : s'.scopes.Carries avoid zs) :
    s.scopes.Carries (avoid.filter fun x => !names.contains x)
      (zs.filter fun z => !(names.map (lastName (names.zip bounds))).contains z) :=
  hzs.outside (fun _ hx hmem => ⟨_, List.mem_map_of_mem hmem, (h.image_lastName hs htop hx hmem).1⟩)
    fun _ hx => h.image_of_notMem hx

theorem Reduce.SubstitutesAll.covers {params : List Param} {args : List Expr}
    (h : SubstitutesAll s params args s') (hs : s.scopes.Covers) : s'.scopes.Covers := by
  induction h with
  | nil => exact hs
  | cons hone _ ih => exact ih (hone.covers hs)

/-- A parameter stands for one of the arguments, and other variables for what they stood for. -/
theorem Reduce.SubstitutesAll.image {params : List Param} {args : List Expr}
    (h : SubstitutesAll s params args s') (x : String) :
    s'.scopes.image x ∈ args ∨
      x ∉ params.map Param.name ∧ s'.scopes.image x = s.scopes.image x := by
  induction h with
  | nil => exact .inr ⟨nofun, rfl⟩
  | @cons s s₁ s' p params arg args hone _ ih =>
    rcases ih with harg | ⟨hnotMem, himage⟩
    · exact .inl (List.mem_cons_of_mem _ harg)
    · have hlookup := hone.lookup? x
      rw [himage]
      unfold Scopes.image Scopes.occurrence
      rw [hlookup]
      by_cases hx : x = p.name
      · rw [if_pos hx]
        exact .inl List.mem_cons_self
      · rw [if_neg hx]
        exact .inr ⟨by simpa [hx] using hnotMem, rfl⟩

/-- What comes from the body of a closure comes from the arguments or from outside. -/
theorem Reduce.SubstitutesAll.carries {params : List Param} {args : List Expr}
    (h : SubstitutesAll s params args s') (hzs : s'.scopes.Carries xs zs) :
    ∀ z ∈ zs, z ∈ Expr.freeAll args ∨
      ∃ x ∈ xs.filter fun x => !(params.map Param.name).contains x,
        z ∈ (s.scopes.image x).free := by
  intro z hz
  obtain ⟨x, hx, hzx⟩ := hzs z hz
  rcases h.image x with harg | ⟨hnotMem, himage⟩
  · exact .inl (mem_freeAll.2 ⟨_, harg, hzx⟩)
  · exact .inr ⟨x, by simpa using ⟨hx, by simpa using hnotMem⟩, himage ▸ hzx⟩

end Binders

mutual
/-- Each free variable of the result comes from a free variable through the open scopes. -/
theorem Reduces.carries : ∀ {Δ : Scopes} {names later : Names} {e e' : Expr},
    Reduces Δ names e e' later → Δ.Covers → Δ.Carries e.free e'.free
  | Δ, _, _, _, _, @Reduces.var _ _ name ty, _ => fun z hz =>
    ⟨name, by simp [Expr.free], Scopes.free_occurrence Δ name ty ▸ hz⟩
  | _, _, _, _, _, .head hform hparts, hΔ => by
    rw [(free_depth_of_head? hform).1,
      (free_depth_of_head? (head?_build hform hparts.length_eq)).1]
    exact hparts.carries hΔ
  | _, _, _, _, _, .ite hcondition hyes hno, hΔ =>
    ((hcondition.carries hΔ).append (hyes.carries hΔ)).append (hno.carries hΔ)
  | _, _, _, _, _, .closure hbound hbody, hΔ => by
    have hbinds := bindNames_eq_ok hbound
    have hbody := hbody.carries (hbinds.covers hΔ.push)
    have hrenamed := map_name_renameParams (by simpa using hbinds.length_eq)
    simp only [Expr.free, hrenamed]
    exact hbinds.carries hbody
  | _, _, _, _, _, .block hbody, hΔ => hbody.carries hΔ.push
  | _, _, _, _, _, .cases hscrutinee harms, hΔ =>
    (hscrutinee.carries hΔ).append (harms.carries hΔ)
  | Δ, _, _, _, _, .inline hargs hall hbody, hΔ => by
    intro z hz
    have hbody := hbody.carries (hall.covers hΔ.push)
    rcases hall.carries hbody z hz with harg | ⟨x, hx, hzx⟩
    · obtain ⟨x, hx, hzx⟩ := hargs.carries hΔ z harg
      exact ⟨x, List.mem_append_right _ hx, hzx⟩
    · exact ⟨x, List.mem_append_left _ hx, hzx⟩
  | Δ, _, _, _, _, .inlineResult _ hargs hfunction hall hbody, hΔ => by
    intro z hz
    have hbody := hbody.carries (hall.covers Scopes.Covers.empty.push)
    rcases hall.carries hbody z hz with harg | ⟨x, hx, hzx⟩
    · obtain ⟨x, hx, hzx⟩ := hargs.carries hΔ z harg
      exact ⟨x, List.mem_append_right _ hx, hzx⟩
    · -- no scope was open, so the variable is free in the closure itself
      obtain rfl : z = x := Expr.mem_free_var.1 hzx
      obtain ⟨y, hy, hzy⟩ := hfunction.carries hΔ z hx
      exact ⟨y, List.mem_append_left _ hy, hzy⟩
  | _, _, _, _, _, .apply _ hargs hfunction _, hΔ =>
    (hfunction.carries hΔ).append (hargs.carries hΔ)
theorem ReducesAll.carries : ∀ {Δ : Scopes} {names later : Names} {es es' : List Expr},
    ReducesAll Δ names es es' later → Δ.Covers → Δ.Carries (Expr.freeAll es) (Expr.freeAll es')
  | _, _, _, _, _, .nil, _ => nofun
  | _, _, _, _, _, .cons hone hall, hΔ => (hone.carries hΔ).append (hall.carries hΔ)
theorem ReducesBlock.carries : ∀ {avoid : List String} {Δ : Scopes} {names later : Names}
    {b b' : Block}, ReducesBlock avoid Δ names b b' later → Δ.Covers →
      Δ.Carries (Expr.freeBlock b) (Expr.freeBlock b')
  | _, _, _, _, _, _, .unit, _ => nofun
  | _, _, _, _, _, _, .result he, hΔ => he.carries hΔ
  | _, _, _, _, _, _, .declare hbound hrest, hΔ => by
    have hbinds := bindName_eq_ok hbound
    exact hbinds.carries (hrest.carries (hbinds.covers hΔ))
  | _, _, _, _, _, _, .bind hinit hbound hrest, hΔ => by
    have hbinds := bindName_eq_ok hbound
    exact (hinit.carries hΔ).append (hbinds.carries (hrest.carries (hbinds.covers hΔ)))
  | _, _, _, _, _, _, .exec he hrest, hΔ => (he.carries hΔ).append (hrest.carries hΔ)
theorem ReducesArms.carries : ∀ {Δ : Scopes} {names later : Names}
    {as as' : List (Pattern × Expr)}, ReducesArms Δ names as as' later → Δ.Covers →
      Δ.Carries (Expr.freeArms as) (Expr.freeArms as')
  | _, _, _, _, _, .nil, _ => nofun
  | Δ, names, _, _, _, .cons hbound hbody harms, hΔ => by
    have hbinds := bindNames_eq_ok hbound
    have hbody := hbody.carries (hbinds.covers hΔ.push)
    refine Scopes.Carries.append ?_ (harms.carries hΔ)
    rw [Pattern.bindings_rename]
    exact hbinds.carries_last hΔ.push (topOutside_opened _ ⟨names, Δ⟩) hbody
end

/-- No variable is free in the result of a reduction that was not free before. -/
theorem whole_free {fuel : Nat} {e : Expr} {names : Names} {r : Reduct Expr} {s : Reducer}
    (h : whole fuel e ⟨names, .empty⟩ = (.ok r, s)) : ∀ x ∈ r.value.free, x ∈ e.free := by
  intro z hz
  obtain ⟨x, hx, hzx⟩ := (whole_eq_ok h).carries .empty z hz
  obtain rfl : z = x := Expr.mem_free_var.1 hzx
  exact hx

/-- Matches a variable on an arm of one name and adds both. -/
def sumInArm (outside arm : String) : Expr :=
  let x := Expr.var outside Ty.int32
  ⟨.cases x [(.ident arm false, ⟨.binary .add x (Expr.var arm Ty.int32), Ty.int32⟩)], Ty.int32⟩

/-- The name of the arm makes way for the variable that is passed. -/
theorem whole_free_sumInArm : ∃ r s, whole 8 ⟨.apply (Expr.closure [⟨"x", Ty.int32⟩]
      (sumInArm "x" "y")) [Expr.var "y" Ty.int32], Ty.int32⟩ ⟨.empty, .empty⟩ = (.ok r, s) ∧
    r.value = sumInArm "y" "y_0" ∧ ∀ x ∈ r.value.free, x ∈ ["y"] := by
  have hr : whole 8 ⟨.apply (Expr.closure [⟨"x", Ty.int32⟩] (sumInArm "x" "y"))
      [Expr.var "y" Ty.int32], Ty.int32⟩ ⟨.empty, .empty⟩ =
      (.ok ⟨sumInArm "y" "y_0", true, 1⟩, ⟨⟨[("y_", 1)]⟩, .empty⟩) := by with_unfolding_all rfl
  exact ⟨_, _, hr, rfl, whole_free hr⟩

end ViewCircuit
