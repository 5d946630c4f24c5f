import ViewCircuit.Proofs.Approx
import ViewCircuit.Proofs.Compile
import ViewCircuit.Proofs.Names
import ViewCircuit.Proofs.Scope

/-! Binders under open scopes: what stands for a variable, when two environments agree on that, and
how a binder that may be renamed extends both. -/
namespace ViewCircuit

open List (Forall₂)

namespace Scopes

variable {Δ : Scopes} {x y z : String}

/-- What becomes of an occurrence of a variable. -/
def occurrence (Δ : Scopes) (x : String) (ty : Ty) : Expr :=
  match Δ.lookup? x with
  | some (.replace e) => e
  | some (.rename fresh) => Expr.var fresh ty
  | some .shadow | none => Expr.var x ty

/-- What stands for a variable; its type makes no difference to its value. -/
def image (Δ : Scopes) (x : String) : Expr := Δ.occurrence x Ty.any

theorem free_occurrence (Δ : Scopes) (x : String) (ty : Ty) :
    (Δ.occurrence x ty).free = (Δ.image x).free := by
  unfold image occurrence
  split <;> simp [Expr.var, Expr.free]

/-- Every scope knows the free variables of what it substitutes. -/
def Covers (Δ : Scopes) : Prop :=
  ∀ scope ∈ Δ.stack, ∀ y e, scope.Has y (.replace e) → ∀ z ∈ e.free, z ∈ scope.free

theorem Covers.empty : Scopes.empty.Covers := nofun

theorem Covers.push (h : Δ.Covers) : Δ.push.Covers := by
  intro scope hscope
  rcases List.mem_cons.1 hscope with rfl | hscope
  · exact fun y e h => absurd h Scope.not_has_empty
  · exact h scope hscope

theorem mem_of_lookup? {b : Binding} (h : Δ.lookup? x = some b) :
    ∃ scope ∈ Δ.stack, scope.Has x b := by
  obtain ⟨scope, hscope, hb⟩ := List.exists_of_findSome?_eq_some h
  exact ⟨scope, hscope, Scope.has_of_binding? hb⟩

theorem mem_taken : z ∈ Δ.taken ↔
    ∃ scope ∈ Δ.stack, z ∈ scope.free ∨ ∃ y, scope.Has y (.rename z) := by
  simp [taken, Scope.Has]

theorem mem_taken_of_rename {scope : Scope} (hscope : scope ∈ Δ.stack) {fresh : String}
    (h : scope.Has x (.rename fresh)) : fresh ∈ Δ.taken :=
  mem_taken.2 ⟨scope, hscope, .inr ⟨x, h⟩⟩

/-- Variables of what stands for a variable are taken, but for the variable itself. -/
theorem mem_taken_of_free_image (h : Δ.Covers) (hz : z ∈ (Δ.image x).free) :
    z ∈ Δ.taken ∨ z = x := by
  unfold image occurrence at hz
  split at hz
  · rename_i e hlookup
    obtain ⟨scope, hscope, hmem⟩ := mem_of_lookup? hlookup
    exact .inl (mem_taken.2 ⟨scope, hscope, .inl (h scope hscope x e hmem z hz)⟩)
  · rename_i fresh hlookup
    obtain ⟨scope, hscope, hmem⟩ := mem_of_lookup? hlookup
    obtain rfl : z = fresh := by simpa [Expr.var, Expr.free] using hz
    exact .inl (mem_taken_of_rename hscope hmem)
  · exact .inr (by simpa [Expr.var, Expr.free] using hz)
  · exact .inr (by simpa [Expr.var, Expr.free] using hz)

theorem wouldCapture_iff : Δ.wouldCapture x ↔ x ∈ Δ.taken := by
  simp only [wouldCapture, List.any_eq_true, mem_taken, Scope.catches_iff]

theorem lookup?_set (top : Scope) (rest : List Scope) (x y : String) (b : Binding) :
    lookup? ⟨top.set y b :: rest⟩ x = if x = y then some b else lookup? ⟨top :: rest⟩ x := by
  unfold lookup?
  rw [List.findSome?_cons, List.findSome?_cons, Scope.binding?_set]
  split_ifs <;> rfl

theorem mem_taken_cons {top : Scope} {rest : List Scope} (h : Δ.stack = top :: rest) :
    z ∈ Δ.taken ↔ z ∈ top.free ∨ (∃ y, top.Has y (.rename z)) ∨ z ∈ taken ⟨rest⟩ := by
  rw [mem_taken, mem_taken, h, List.exists_mem_cons_iff, or_assoc]

/-- All replacements have a property. -/
def Replaces (P : Expr → Prop) (Δ : Scopes) : Prop :=
  ∀ scope ∈ Δ.stack, ∀ y e, scope.Has y (.replace e) → P e

theorem Replaces.mono {P Q : Expr → Prop} (h : Δ.Replaces P) (hPQ : ∀ e, P e → Q e) :
    Δ.Replaces Q :=
  fun scope hscope y e hmem => hPQ e (h scope hscope y e hmem)

theorem Replaces.empty {P : Expr → Prop} : Scopes.empty.Replaces P := nofun

theorem Replaces.push {P : Expr → Prop} (h : Δ.Replaces P) : Δ.push.Replaces P := by
  intro scope hscope
  rcases List.mem_cons.1 hscope with rfl | hscope
  · exact fun y e he => absurd he Scope.not_has_empty
  · exact h scope hscope

end Scopes

section Agreement

variable {rt : Runtime} {k : Nat} {Δ : Scopes} {S : String → Prop} {ρ ρ' ρ'' : Env}

/-- Where variables have a value, what stands for them has a value alike. -/
def Agree (rt : Runtime) (k : Nat) (Δ : Scopes) (S : String → Prop) (ρ ρ' : Env) : Prop :=
  ∀ x, S x → ∀ v, ρ.lookup x = some v → ∃ w l, Evals rt ρ' (Δ.image x) w l ∧ v.Approx rt k w

theorem Agree.mono (h : Agree rt k Δ S ρ ρ') {j : Nat} (hj : j ≤ k) {T : String → Prop}
    (hT : ∀ x, T x → S x) : Agree rt j Δ T ρ ρ' := by
  intro x hx v hv
  obtain ⟨w, l, hw, hvw⟩ := h x (hT x hx) v hv
  exact ⟨w, l, hw, hvw.mono hj⟩

/-- Only the variables of what stands for a variable matter. -/
theorem Agree.change (h : Agree rt k Δ S ρ ρ')
    (hsame : ∀ x, S x → ∀ z ∈ (Δ.image x).free, ρ''.lookup z = ρ'.lookup z) :
    Agree rt k Δ S ρ ρ'' := by
  intro x hx v hv
  obtain ⟨w, l, hw, hvw⟩ := h x hx v hv
  obtain ⟨w', l', hw', hww'⟩ := evals_of_same (hsame x hx) hw
  exact ⟨w', l', hw', hvw.trans hww'⟩

/-- Without scopes every variable stands for itself. -/
theorem agree_empty (rt : Runtime) (k : Nat) (S : String → Prop) (ρ : Env) :
    Agree rt k .empty S ρ ρ :=
  fun _ _ v hv => ⟨v, 0, evals_var.2 ⟨hv, rfl⟩, Val.Approx.refl rt k v⟩

end Agreement

/-- A binder was bound in the innermost scope under a name that nothing in reach uses. -/
structure Binds (s : Reducer) (name : String) (avoid : List String) (bound : String)
    (s' : Reducer) : Prop where
  later : s.names.Later s'.names
  /-- Kept when nothing is caught, else a drawn name. -/
  choice : bound = name ∧ name ∉ s.scopes.taken ∨
    name ∈ s.scopes.taken ∧ bound ∉ avoid ∧ s'.names.Spent bound ∧
      ∃ n, bound = Names.nth (name ++ "_") n ∧ s.names.issued (name ++ "_") ≤ n
  untaken : bound ∉ s.scopes.taken
  scopes : ∃ top rest b, s.scopes.stack = top :: rest ∧ s'.scopes.stack = top.set name b :: rest ∧
    (b = .rename bound ∧ name ∈ s.scopes.taken ∨
      b = .shadow ∧ bound = name ∧ name ∉ s.scopes.taken)

namespace Reduce

variable {s s' : Reducer} {name bound : String} {avoid : List String}

theorem onScopes_eq_ok {f : Scopes → Except CompileError Scopes} {u : Unit}
    (h : onScopes f s = (.ok u, s')) : f s.scopes = .ok s'.scopes ∧ s'.names = s.names := by
  unfold onScopes at h
  split at h
  · rename_i scopes hf
    cases h
    exact ⟨hf, rfl⟩
  · cases h

theorem onScopes_of_ok {f : Scopes → Except CompileError Scopes} {Δ : Scopes}
    (h : f s.scopes = .ok Δ) : onScopes f s = (.ok (), ⟨s.names, Δ⟩) := by
  unfold onScopes
  rw [h]

theorem modifyInnermost_eq_ok {Δ Δ' : Scopes} {f : Scope → Scope}
    (h : Δ.modifyInnermost f = .ok Δ') :
    ∃ top rest, Δ.stack = top :: rest ∧ Δ'.stack = f top :: rest := by
  unfold Scopes.modifyInnermost at h
  split at h
  · cases h
  · rename_i top rest hstack
    cases h
    exact ⟨top, rest, hstack, rfl⟩

theorem bindName_eq_ok (h : bindName name avoid s = (.ok bound, s')) :
    Binds s name avoid bound s' := by
  unfold bindName at h
  obtain ⟨s₁, mid, hget, h⟩ := (run_bind_eq_ok _ _).1 h
  cases hget
  split at h
  · rename_i hcapture
    have htaken := Scopes.wouldCapture_iff.1 hcapture
    obtain ⟨fresh, s₁, hfresh, h⟩ := (run_bind_eq_ok _ _).1 h
    obtain ⟨u, s₂, hscopes, h⟩ := (run_bind_eq_ok _ _).1 h
    cases h
    obtain ⟨n, hname, hn, hblocked, rfl⟩ := freshOutside_eq_ok hfresh
    obtain ⟨hrename, hnames⟩ := onScopes_eq_ok hscopes
    obtain ⟨top, rest, hstack, hstack'⟩ := modifyInnermost_eq_ok hrename
    simp only [List.mem_append, not_or] at hblocked
    refine ⟨?_, .inr ⟨htaken, hblocked.1, ?_, n, hname, hn⟩, hblocked.2,
      top, rest, .rename _, hstack, hstack', .inl ⟨rfl, htaken⟩⟩
    · rw [hnames]
      exact Names.later_setIssued (Nat.le_succ_of_le hn)
    · rw [hnames]
      exact ⟨name, n, hname, by simp⟩
  · rename_i hcapture
    have htaken : name ∉ s.scopes.taken := fun h => hcapture (Scopes.wouldCapture_iff.2 h)
    obtain ⟨u, s₁, hscopes, h⟩ := (run_bind_eq_ok _ _).1 h
    cases h
    obtain ⟨htombstone, hnames⟩ := onScopes_eq_ok hscopes
    obtain ⟨top, rest, hstack, hstack'⟩ := modifyInnermost_eq_ok htombstone
    refine ⟨?_, .inl ⟨rfl, htaken⟩, htaken, top, rest, .shadow, hstack, hstack',
      .inr ⟨rfl, rfl, htaken⟩⟩
    rw [hnames]
    exact .refl _

theorem bindName_of_free {Δ : Scopes} (h : s.scopes.wouldCapture name = false)
    (htombstone : s.scopes.tombstone name = .ok Δ) :
    bindName name avoid s = (.ok name, ⟨s.names, Δ⟩) := by
  unfold bindName
  refine (run_bind_eq_ok _ _).2 ⟨s, s, rfl, ?_⟩
  rw [if_neg (by simp [h])]
  exact (run_bind_eq_ok _ _).2 ⟨(), _, onScopes_of_ok htombstone, rfl⟩

theorem bindName_of_capture {fresh : String} {Δ : Scopes}
    (h : s.scopes.wouldCapture name = true)
    (hfresh : freshOutside (name ++ "_") (avoid ++ s.scopes.taken) s = (.ok fresh, s'))
    (hrename : s'.scopes.rename name fresh = .ok Δ) :
    bindName name avoid s = (.ok fresh, ⟨s'.names, Δ⟩) := by
  unfold bindName
  refine (run_bind_eq_ok _ _).2 ⟨s, s, rfl, ?_⟩
  rw [if_pos h]
  exact (run_bind_eq_ok _ _).2 ⟨fresh, s', hfresh,
    (run_bind_eq_ok _ _).2 ⟨(), _, onScopes_of_ok hrename, rfl⟩⟩

end Reduce

namespace Binds

variable {s s' : Reducer} {name bound : String} {avoid : List String}

theorem ne_of_apart (h : Binds s name avoid bound s') {x : String} (hx : x ≠ name)
    (hapart : x ∈ avoid ∨ (Names.Derived name x → s.names.Spent x)) : x ≠ bound := by
  rcases h.choice with ⟨rfl, -⟩ | ⟨-, havoid, -, n, rfl, hn⟩
  · exact hx
  · rintro rfl
    rcases hapart with hmem | hspent
    · exact havoid hmem
    · obtain ⟨base, m, hbase, hm⟩ := hspent (.once n)
      obtain ⟨rfl, rfl⟩ := Names.nth_underscore_injective hbase
      omega

theorem lookup?_self (h : Binds s name avoid bound s') :
    s'.scopes.lookup? name = some (.rename bound) ∨
      s'.scopes.lookup? name = some .shadow ∧ bound = name := by
  obtain ⟨top, rest, b, -, hstack', hb⟩ := h.scopes
  have hlookup := Scopes.lookup?_set top rest name name b
  rw [if_pos rfl, ← hstack'] at hlookup
  rcases hb with ⟨rfl, -⟩ | ⟨rfl, hname, -⟩
  · exact .inl hlookup
  · exact .inr ⟨hlookup, hname⟩

theorem lookup?_of_ne (h : Binds s name avoid bound s') {x : String} (hx : x ≠ name) :
    s'.scopes.lookup? x = s.scopes.lookup? x := by
  obtain ⟨top, rest, b, hstack, hstack', -⟩ := h.scopes
  have hlookup := Scopes.lookup?_set top rest x name b
  rwa [if_neg hx, ← hstack', ← hstack] at hlookup

theorem occurrence_self (h : Binds s name avoid bound s') (ty : Ty) :
    s'.scopes.occurrence name ty = Expr.var bound ty := by
  unfold Scopes.occurrence
  rcases h.lookup?_self with hlookup | ⟨hlookup, rfl⟩ <;> rw [hlookup]

theorem image_self (h : Binds s name avoid bound s') :
    s'.scopes.image name = Expr.var bound Ty.any := h.occurrence_self Ty.any

theorem occurrence_of_ne (h : Binds s name avoid bound s') {x : String} (hx : x ≠ name) (ty : Ty) :
    s'.scopes.occurrence x ty = s.scopes.occurrence x ty := by
  unfold Scopes.occurrence
  rw [h.lookup?_of_ne hx]

theorem image_of_ne (h : Binds s name avoid bound s') {x : String} (hx : x ≠ name) :
    s'.scopes.image x = s.scopes.image x := h.occurrence_of_ne hx Ty.any

/-- Binding a name adds no replacement. -/
theorem replacements (h : Binds s name avoid bound s') {scope : Scope}
    (hscope : scope ∈ s'.scopes.stack) {y : String} {e : Expr}
    (hmem : scope.Has y (.replace e)) :
    ∃ before ∈ s.scopes.stack, before.free = scope.free ∧ before.Has y (.replace e) := by
  obtain ⟨top, rest, b, hstack, hstack', hb⟩ := h.scopes
  have hbinder : ∀ e, b ≠ .replace e := by
    rcases hb with ⟨rfl, -⟩ | ⟨rfl, -⟩ <;> exact nofun
  rw [hstack'] at hscope
  rcases List.mem_cons.1 hscope with rfl | hscope
  · refine ⟨top, by simp [hstack], (Scope.free_set hbinder).symm, ?_⟩
    rcases Scope.has_set.1 hmem with ⟨-, hreplace⟩ | ⟨-, hmem⟩
    · exact absurd hreplace.symm (hbinder e)
    · exact hmem
  · exact ⟨scope, by simp [hstack, hscope], rfl, hmem⟩

theorem covers (h : Binds s name avoid bound s') (hs : s.scopes.Covers) : s'.scopes.Covers := by
  intro scope hscope y e hmem z hz
  obtain ⟨before, hbefore, hfree, hmem⟩ := h.replacements hscope hmem
  exact hfree ▸ hs before hbefore y e hmem z hz

theorem replaces (h : Binds s name avoid bound s') {P : Expr → Prop}
    (hs : s.scopes.Replaces P) : s'.scopes.Replaces P := by
  intro scope hscope y e hmem
  obtain ⟨before, hbefore, -, hmem⟩ := h.replacements hscope hmem
  exact hs before hbefore y e hmem

variable {rt : Runtime} {k : Nat} {S : String → Prop} {ρ ρ' ρ₁ ρ₁' : Env}

theorem notMem_free_image (h : Binds s name avoid bound s') (hs : s.scopes.Covers) {x : String}
    (hx : x ≠ name) (hapart : x ∈ avoid ∨ (Names.Derived name x → s.names.Spent x)) :
    bound ∉ (s.scopes.image x).free := by
  intro hmem
  rcases Scopes.mem_taken_of_free_image hs hmem with htaken | rfl
  · exact h.untaken htaken
  · exact h.ne_of_apart hx hapart rfl

/-- Environments that differ in the binder only still agree on all other variables. -/
theorem agree_of_ne (h : Binds s name avoid bound s') (hs : s.scopes.Covers)
    (hagree : Agree rt k s.scopes S ρ ρ')
    (hapart : ∀ x, S x → x ≠ name → x ∈ avoid ∨ (Names.Derived name x → s.names.Spent x))
    (hρ : ∀ x, x ≠ name → ρ₁.lookup x = ρ.lookup x)
    (hρ' : ∀ x, x ≠ bound → ρ₁'.lookup x = ρ'.lookup x) :
    Agree rt k s'.scopes (fun x => x ≠ name ∧ S x) ρ₁ ρ₁' := by
  have hrest : Agree rt k s.scopes (fun x => x ≠ name ∧ S x) ρ ρ₁' := by
    refine (hagree.mono (Nat.le_refl k) fun x hx => hx.2).change fun x hx z hz => hρ' z ?_
    rintro rfl
    exact h.notMem_free_image hs hx.1 (hapart x hx.2 hx.1) hz
  intro x hx v hv
  rw [h.image_of_ne hx.1]
  exact hrest x hx v (hρ x hx.1 ▸ hv)

theorem agree (h : Binds s name avoid bound s') (hs : s.scopes.Covers)
    (hagree : Agree rt k s.scopes S ρ ρ')
    (hapart : ∀ x, S x → x ≠ name → x ∈ avoid ∨ (Names.Derived name x → s.names.Spent x))
    {v w : Val} (hvw : v.Approx rt k w) :
    Agree rt k s'.scopes (fun x => x = name ∨ S x) ((name, v) :: ρ) ((bound, w) :: ρ') := by
  intro x hx u hu
  by_cases hname : x = name
  · subst hname
    rw [lookup_cons_eq, if_pos rfl] at hu
    obtain rfl := Option.some.inj hu
    rw [h.image_self]
    exact ⟨w, 0, evals_var.2 ⟨by rw [lookup_cons_eq, if_pos rfl], rfl⟩, hvw⟩
  · refine h.agree_of_ne hs hagree hapart (fun y hy => ?_) (fun y hy => ?_) x
      ⟨hname, hx.resolve_left hname⟩ u hu
    · rw [lookup_cons_eq, if_neg hy]
    · rw [lookup_cons_eq, if_neg hy]

theorem agree_hide (h : Binds s name avoid bound s') (hs : s.scopes.Covers)
    (hagree : Agree rt k s.scopes S ρ ρ')
    (hapart : ∀ x, S x → x ≠ name → x ∈ avoid ∨ (Names.Derived name x → s.names.Spent x)) :
    Agree rt k s'.scopes (fun x => x = name ∨ S x) (ρ.hide name) (ρ'.hide bound) := by
  intro x hx u hu
  have hname : x ≠ name := by
    rintro rfl
    rw [Env.lookup_hide, if_pos rfl] at hu
    cases hu
  refine h.agree_of_ne hs hagree hapart (fun y hy => ?_) (fun y hy => ?_) x
    ⟨hname, hx.resolve_left hname⟩ u hu
  · rw [Env.lookup_hide, if_neg hy]
  · rw [Env.lookup_hide, if_neg hy]

end Binds

/-- Binders bound one after the other in one scope. -/
inductive BindsAll (avoid : List String) : Reducer → List String → List String → Reducer → Prop
  | nil {s : Reducer} : BindsAll avoid s [] [] s
  | cons {s s₁ s' : Reducer} {name bound : String} {names bounds : List String} :
      Binds s name avoid bound s₁ → BindsAll avoid s₁ names bounds s' →
      BindsAll avoid s (name :: names) (bound :: bounds) s'

theorem Reduce.bindNames_eq_ok {s s' : Reducer} {names bounds avoid : List String}
    (h : bindNames names avoid s = (.ok bounds, s')) : BindsAll avoid s names bounds s' := by
  unfold bindNames at h
  induction names generalizing s bounds with
  | nil =>
    cases h
    exact .nil
  | cons name names ih =>
    rw [List.mapM_cons] at h
    obtain ⟨bound, s₁, hbound, h⟩ := (run_bind_eq_ok _ _).1 h
    obtain ⟨bounds', s₂, hbounds, h⟩ := (run_bind_eq_ok _ _).1 h
    cases h
    exact .cons (bindName_eq_ok hbound) (ih hbounds)

namespace BindsAll

variable {avoid names bounds : List String} {s s' : Reducer}

theorem later (h : BindsAll avoid s names bounds s') : s.names.Later s'.names := by
  induction h with
  | nil => exact .refl _
  | cons hbinds _ ih => exact hbinds.later.trans ih

theorem covers (h : BindsAll avoid s names bounds s') (hs : s.scopes.Covers) :
    s'.scopes.Covers := by
  induction h with
  | nil => exact hs
  | cons hbinds _ ih => exact ih (hbinds.covers hs)

theorem length_eq (h : BindsAll avoid s names bounds s') : bounds.length = names.length := by
  induction h with
  | nil => rfl
  | cons _ _ ih => simp [ih]

theorem stack (h : BindsAll avoid s names bounds s') {top : Scope} {rest : List Scope}
    (hstack : s.scopes.stack = top :: rest) : ∃ top', s'.scopes.stack = top' :: rest := by
  induction h generalizing top with
  | nil => exact ⟨top, hstack⟩
  | cons hbinds _ ih =>
    obtain ⟨top', rest', b, hstack₀, hstack', -⟩ := hbinds.scopes
    obtain ⟨rfl, rfl⟩ := List.cons.inj (hstack₀.symm.trans hstack)
    exact ih hstack'

variable {rt : Runtime} {k : Nat} {S : String → Prop} {ρ ρ' : Env}

/-- Arguments alike, under the names of the binders and under the new ones. -/
theorem agree (h : BindsAll avoid s names bounds s') (hs : s.scopes.Covers)
    (hagree : Agree rt k s.scopes S ρ ρ') (hS : ∀ x, S x → x ∈ avoid) {vs ws : List Val}
    (hvsws : Forall₂ (Val.Approx rt k) vs ws) (hlength : names.length = vs.length) :
    Agree rt k s'.scopes (fun x => x ∈ avoid ∧ (x ∈ names ∨ S x)) (ρ.called names vs)
      (ρ'.called bounds ws) := by
  induction h generalizing S ρ ρ' vs ws with
  | nil => exact hagree.mono (Nat.le_refl k) fun x hx => by simpa using hx.2
  | @cons s s₁ s' name bound names bounds hbinds _ ih =>
    cases hvsws with
    | nil => cases hlength
    | @cons v w vs ws hvw hrest =>
      have hstep := hbinds.agree hs hagree (fun x hx _ => .inl (hS x hx)) hvw
      have hall := ih (hbinds.covers hs)
        (hstep.mono (Nat.le_refl k) (T := fun x => x ∈ avoid ∧ (x = name ∨ S x)) fun x hx => hx.2)
        (fun x hx => hx.1) hrest (by simpa using hlength)
      rw [called_cons, called_cons]
      refine hall.mono (Nat.le_refl k) fun x hx => ⟨hx.1, ?_⟩
      rcases hx.2 with hmem | hS
      · rcases List.mem_cons.1 hmem with rfl | hmem
        · exact .inr ⟨hx.1, .inl rfl⟩
        · exact .inl hmem
      · exact .inr ⟨hx.1, .inr hS⟩

end BindsAll

section Patterns

/-- The last new name of a binder, if it got one. -/
def lastRename (pairs : List (String × String)) (name : String) : Option String :=
  (pairs.reverse.filter fun pair => pair.1 != pair.2).lookup name

theorem lastRename_cons {name bound x : String} {pairs : List (String × String)} :
    lastRename ((name, bound) :: pairs) x =
      (lastRename pairs x).or (if x = name ∧ name ≠ bound then some bound else none) := by
  unfold lastRename
  rw [List.reverse_cons, List.filter_append, List.lookup_append]
  congr 1
  by_cases hkept : name = bound
  · simp [hkept]
  · have hne : (name != bound) = true := by simp [hkept]
    rw [List.filter_cons, hne, if_pos rfl, List.filter_nil, lookup_cons_eq]
    simp [hkept]

theorem mem_of_lastRename {x b : String} {pairs : List (String × String)}
    (h : lastRename pairs x = some b) : (x, b) ∈ pairs ∧ x ≠ b := by
  induction pairs with
  | nil => cases h
  | cons pair pairs ih =>
    rw [lastRename_cons] at h
    rcases Option.or_eq_some_iff.1 h with h | ⟨-, h⟩
    · exact ⟨List.mem_cons_of_mem _ (ih h).1, (ih h).2⟩
    · split_ifs at h with hx
      obtain rfl := Option.some.inj h
      obtain ⟨rfl, hne⟩ := hx
      exact ⟨List.mem_cons_self, hne⟩

theorem lastRename_isSome {x b : String} {pairs : List (String × String)} (h : (x, b) ∈ pairs)
    (hne : x ≠ b) : (lastRename pairs x).isSome := by
  induction pairs with
  | nil => cases h
  | cons pair pairs ih =>
    rw [lastRename_cons]
    rcases List.mem_cons.1 h with rfl | h
    · simp [hne]
    · simp [ih h]

/-- The name that every place of a binder gets. -/
def lastName (pairs : List (String × String)) (name : String) : String :=
  (lastRename pairs name).getD name

theorem mem_of_lastName_ne {pairs : List (String × String)} {y : String}
    (h : lastName pairs y ≠ y) : (y, lastName pairs y) ∈ pairs := by
  cases hlast : lastRename pairs y with
  | none => simp [lastName, hlast] at h
  | some b =>
    have hb : lastName pairs y = b := by simp [lastName, hlast]
    exact hb ▸ (mem_of_lastRename hlast).1

theorem eq_of_lastName_eq {pairs : List (String × String)} {y b : String} (hmem : (y, b) ∈ pairs)
    (h : lastName pairs y = y) : b = y := by
  by_contra hne
  obtain ⟨c, hc⟩ := Option.isSome_iff_exists.1 (lastRename_isSome hmem (Ne.symm hne))
  have hfc : lastName pairs y = c := by simp [lastName, hc]
  exact (mem_of_lastRename hc).2 (h.symm.trans hfc)

/-- A name stands last at one place in both lists. -/
inductive LastIn (z : String) : List String → List String → Prop
  | here {xs ys : List String} : z ∉ xs → z ∉ ys → LastIn z (z :: xs) (z :: ys)
  | there {x y : String} {xs ys : List String} : LastIn z xs ys → LastIn z (x :: xs) (y :: ys)

theorem lookup_called_of_notMem {z : String} {names : List String} (h : z ∉ names) {vs : List Val}
    {ρ : Env} : (ρ.called names vs).lookup z = ρ.lookup z := by
  induction names generalizing vs ρ with
  | nil => simp [Env.called]
  | cons name names ih =>
    cases vs with
    | nil => simp [Env.called]
    | cons v vs =>
      rw [called_cons, ih (List.not_mem_of_not_mem_cons h), lookup_cons_eq,
        if_neg (List.ne_of_not_mem_cons h)]

theorem LastIn.lookup {z : String} {xs ys : List String} (h : LastIn z xs ys) {vs : List Val}
    (hlength : xs.length = vs.length) {ρ ρ' : Env} :
    (ρ.called xs vs).lookup z = (ρ'.called ys vs).lookup z := by
  induction h generalizing vs ρ ρ' with
  | here hxs hys =>
    cases vs with
    | nil => cases hlength
    | cons v vs =>
      rw [called_cons, called_cons, lookup_called_of_notMem hxs, lookup_called_of_notMem hys,
        lookup_cons_eq, lookup_cons_eq, if_pos rfl, if_pos rfl]
  | there _ ih =>
    cases vs with
    | nil => cases hlength
    | cons v vs =>
      rw [called_cons, called_cons]
      exact ih (by simpa using hlength)

/-- No binder of the innermost scope was renamed to one of the names. -/
def TopOutside (avoid : List String) (s : Reducer) : Prop :=
  ∀ top rest, s.scopes.stack = top :: rest →
    ∀ y fresh, top.Has y (.rename fresh) → fresh ∉ avoid

variable {avoid names bounds : List String} {s s' : Reducer} {name bound x : String}

theorem Binds.topOutside (h : Binds s name avoid bound s') (hs : TopOutside avoid s) :
    TopOutside avoid s' := by
  obtain ⟨top, rest, b, hstack, hstack', hb⟩ := h.scopes
  intro top' rest' htop y fresh hmem
  obtain ⟨rfl, rfl⟩ := List.cons.inj (hstack'.symm.trans htop)
  rcases Scope.has_set.1 hmem with ⟨rfl, rfl⟩ | ⟨-, hmem⟩
  · rcases hb with ⟨hb, htaken⟩ | ⟨hb, -⟩
    · obtain rfl := Binding.rename.inj hb
      rcases h.choice with ⟨-, hfree⟩ | ⟨-, havoid, -⟩
      · exact absurd htaken hfree
      · exact havoid
    · cases hb
  · exact hs top rest hstack y fresh hmem

theorem Binds.taken (h : Binds s name avoid bound s') (hs : TopOutside avoid s) (hx : x ∈ avoid)
    (htaken : x ∈ s.scopes.taken) : x ∈ s'.scopes.taken := by
  obtain ⟨top, rest, b, hstack, hstack', -⟩ := h.scopes
  rw [Scopes.mem_taken_cons hstack] at htaken
  rw [Scopes.mem_taken_cons hstack']
  rcases htaken with hfree | ⟨y, hmem⟩ | hrest
  · exact .inl (Scope.mem_free_set.2 (.inr hfree))
  · exact absurd hx (hs top rest hstack y x hmem)
  · exact .inr (.inr hrest)

namespace BindsAll

/-- A binder that would catch is renamed at every place. -/
theorem renamed (h : BindsAll avoid s names bounds s') (hs : TopOutside avoid s) (hx : x ∈ avoid)
    (htaken : x ∈ s.scopes.taken) (hnames : x ∈ names) :
    (lastRename (names.zip bounds) x).isSome := by
  induction h with
  | nil => cases hnames
  | cons hbinds _ ih =>
    rw [List.zip_cons_cons, lastRename_cons]
    rcases List.mem_cons.1 hnames with rfl | hnames
    · rcases hbinds.choice with ⟨-, hfree⟩ | ⟨-, havoid, -⟩
      · exact absurd htaken hfree
      · rw [if_pos ⟨rfl, fun h => havoid (h ▸ hx)⟩]
        simp
    · simp [ih (hbinds.topOutside hs) (hbinds.taken hs hx htaken) hnames]

theorem occurrence_of_notMem (h : BindsAll avoid s names bounds s') (hx : x ∉ names) (ty : Ty) :
    s'.scopes.occurrence x ty = s.scopes.occurrence x ty := by
  induction h with
  | nil => rfl
  | cons hbinds _ ih =>
    rw [ih (List.not_mem_of_not_mem_cons hx),
      hbinds.occurrence_of_ne (List.ne_of_not_mem_cons hx)]

theorem image_of_notMem (h : BindsAll avoid s names bounds s') (hx : x ∉ names) :
    s'.scopes.image x = s.scopes.image x := h.occurrence_of_notMem hx Ty.any

/-- A variable of a binder becomes a variable. -/
theorem occurrence_of_mem (h : BindsAll avoid s names bounds s') (hx : x ∈ names) :
    ∃ y, ∀ ty, s'.scopes.occurrence x ty = Expr.var y ty := by
  induction h with
  | nil => cases hx
  | @cons s s₁ s' name bound names bounds hbinds hrest ih =>
    by_cases hlater : x ∈ names
    · exact ih hlater
    · obtain rfl : x = name := (List.mem_cons.1 hx).resolve_right hlater
      exact ⟨bound, fun ty => (hrest.occurrence_of_notMem hlater ty).trans
        (hbinds.occurrence_self ty)⟩

theorem notMem_free_image (h : BindsAll avoid s names bounds s') (hs : s.scopes.Covers)
    (hx : x ∈ avoid) (hnames : x ∉ names) : ∀ b ∈ bounds, b ∉ (s.scopes.image x).free := by
  induction h with
  | nil => exact nofun
  | cons hbinds _ ih =>
    intro b hb
    have hne := List.ne_of_not_mem_cons hnames
    rcases List.mem_cons.1 hb with rfl | hb
    · exact hbinds.notMem_free_image hs hne (.inl hx)
    · rw [← hbinds.image_of_ne hne]
      exact ih (hbinds.covers hs) (List.not_mem_of_not_mem_cons hnames) b hb

theorem drawn (h : BindsAll avoid s names bounds s') {y b : String}
    (hmem : (y, b) ∈ names.zip bounds) (hne : y ≠ b) :
    b ∉ avoid ∧ ∃ n, b = Names.nth (y ++ "_") n := by
  induction h with
  | nil => cases hmem
  | cons hbinds _ ih =>
    rcases List.mem_cons.1 hmem with heq | hmem
    · obtain ⟨rfl, rfl⟩ := Prod.mk.inj heq
      rcases hbinds.choice with ⟨heq, -⟩ | ⟨-, havoid, -, n, hn, -⟩
      · exact absurd heq.symm hne
      · exact ⟨havoid, n, hn⟩
    · exact ih hmem

theorem exists_pair (h : BindsAll avoid s names bounds s') {y : String} (hy : y ∈ names) :
    ∃ b, (y, b) ∈ names.zip bounds := by
  induction h with
  | nil => cases hy
  | cons _ _ ih =>
    rcases List.mem_cons.1 hy with rfl | hy
    · exact ⟨_, List.mem_cons_self⟩
    · obtain ⟨b, hb⟩ := ih hy
      exact ⟨b, List.mem_cons_of_mem _ hb⟩

/-- The last place of a binder is the same whether every place gets its own new name or all places
of a binder get the last one. -/
theorem last (h : BindsAll avoid s names bounds s') (hs : s.scopes.Covers)
    (htop : TopOutside avoid s) (hx : x ∈ avoid) (hnames : x ∈ names) {f : String → String}
    (hkept : ∀ y b, (y, b) ∈ names.zip bounds → f y = y → b = y)
    (hdrawn : ∀ y ∈ names, f y ≠ y → f y ∉ avoid ∧ ∃ n, f y = Names.nth (y ++ "_") n)
    (hfx : f x = (lastRename (names.zip bounds) x).getD x) :
    s'.scopes.image x = Expr.var (f x) Ty.any ∧ LastIn (f x) bounds (names.map f) := by
  induction h with
  | nil => cases hnames
  | @cons s s₁ s' name bound names bounds hbinds hrest ih =>
    rw [List.zip_cons_cons, lastRename_cons] at hfx
    have hkept' : ∀ y b, (y, b) ∈ names.zip bounds → f y = y → b = y :=
      fun y b hmem => hkept y b (List.mem_cons_of_mem _ hmem)
    by_cases hlater : x ∈ names
    · have hfx' : f x = (lastRename (names.zip bounds) x).getD x := by
        cases hlast : lastRename (names.zip bounds) x with
        | some b => rw [hfx, hlast, Option.some_or]
        | none =>
          rw [hfx, hlast, Option.none_or]
          split_ifs with hhere
          · obtain ⟨rfl, hne⟩ := hhere
            rcases hbinds.choice with ⟨heq, -⟩ | ⟨htaken, -⟩
            · exact absurd heq.symm hne
            · have hsome := hrest.renamed (hbinds.topOutside htop) hx
                (hbinds.taken htop hx htaken) hlater
              rw [hlast] at hsome
              cases hsome
          · rfl
      obtain ⟨himage, hlast⟩ := ih (hbinds.covers hs) (hbinds.topOutside htop) hlater hkept'
        (fun y hy => hdrawn y (List.mem_cons_of_mem _ hy)) hfx'
      exact ⟨himage, .there hlast⟩
    · obtain rfl : x = name := (List.mem_cons.1 hnames).resolve_right hlater
      have hnone : lastRename (names.zip bounds) x = none := by
        cases hlast : lastRename (names.zip bounds) x with
        | none => rfl
        | some b => exact absurd (List.of_mem_zip (mem_of_lastRename hlast).1).1 hlater
      have hbound : f x = bound := by
        rw [hfx, hnone, Option.none_or]
        by_cases heq : x = bound
        · simp [heq]
        · simp [heq]
      have himage : s₁.scopes.image x = Expr.var bound Ty.any := hbinds.image_self
      have hbounds : bound ∉ bounds := by
        intro hmem
        refine hrest.notMem_free_image (hbinds.covers hs) hx hlater bound hmem ?_
        rw [himage]
        simp [Expr.var, Expr.free]
      rw [hbound, List.map_cons, hbound]
      refine ⟨(hrest.image_of_notMem hlater).trans himage, .here hbounds fun hmem => ?_⟩
      obtain ⟨y, hy, hfy⟩ := List.mem_map.1 hmem
      have hyx : y ≠ x := fun h => hlater (h ▸ hy)
      by_cases hfix : f y = y
      · -- a binder that was never renamed has its own name at this place
        obtain ⟨b, hb⟩ := hrest.exists_pair hy
        have hown : b = bound := (hkept' y b hb hfix).trans (hfix.symm.trans hfy)
        exact hbounds (hown ▸ (List.of_mem_zip hb).2)
      · obtain ⟨havoid, n, hn⟩ := hdrawn y (List.mem_cons_of_mem _ hy) hfix
        rcases hbinds.choice with ⟨heq, -⟩ | ⟨-, -, -, m, hm, -⟩
        · exact havoid (hfy ▸ heq ▸ hx)
        · rw [hn, hm] at hfy
          exact hyx (Names.nth_underscore_injective hfy).1

theorem image_lastName (h : BindsAll avoid s names bounds s') (hs : s.scopes.Covers)
    (htop : TopOutside avoid s) (hx : x ∈ avoid) (hnames : x ∈ names) :
    s'.scopes.image x = Expr.var (lastName (names.zip bounds) x) Ty.any ∧
      LastIn (lastName (names.zip bounds) x) bounds (names.map (lastName (names.zip bounds))) :=
  h.last hs htop hx hnames (fun _ _ => eq_of_lastName_eq)
    (fun _ _ hne => h.drawn (mem_of_lastName_ne hne) (Ne.symm hne)) rfl

variable {rt : Runtime} {k : Nat} {S : String → Prop} {ρ ρ' : Env}

/-- As `agree`, with all places of a binder under its last new name. -/
theorem agree_last (h : BindsAll avoid s names bounds s') (hs : s.scopes.Covers)
    (htop : TopOutside avoid s) (hagree : Agree rt k s.scopes S ρ ρ') (hS : ∀ x, S x → x ∈ avoid)
    {vs ws : List Val} (hvsws : Forall₂ (Val.Approx rt k) vs ws)
    (hlength : names.length = vs.length) :
    Agree rt k s'.scopes (fun x => x ∈ avoid ∧ (x ∈ names ∨ S x)) (ρ.called names vs)
      (ρ'.called (names.map (lastName (names.zip bounds))) ws) := by
  refine (h.agree hs hagree hS hvsws hlength).change fun x hx z hz => ?_
  by_cases hnames : x ∈ names
  · obtain ⟨himage, hlast⟩ := h.image_lastName hs htop hx.1 hnames
    rw [himage] at hz
    obtain rfl : z = lastName (names.zip bounds) x := by simpa [Expr.var, Expr.free] using hz
    exact (hlast.lookup (by rw [h.length_eq, hlength, hvsws.length_eq])).symm
  · rw [h.image_of_notMem hnames] at hz
    have hbounds : z ∉ bounds := fun hmem => h.notMem_free_image hs hx.1 hnames z hmem hz
    rw [lookup_called_of_notMem hbounds, lookup_called_of_notMem]
    intro hmem
    obtain ⟨y, hy, rfl⟩ := List.mem_map.1 hmem
    by_cases hfix : lastName (names.zip bounds) y = y
    · obtain ⟨b, hb⟩ := h.exists_pair hy
      obtain rfl := eq_of_lastName_eq hb hfix
      exact hbounds (hfix.symm ▸ (List.of_mem_zip hb).2)
    · exact hbounds (List.of_mem_zip (mem_of_lastName_ne hfix)).2

end BindsAll

end Patterns

end ViewCircuit
