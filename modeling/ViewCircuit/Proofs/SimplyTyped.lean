import ViewCircuit.Proofs.NormalForm
import ViewCircuit.Proofs.Soundness

/-! Simply typed expressions. Only the types of applications, of closures and of the variables bound
by closures matter; reduction keeps them. -/
namespace ViewCircuit

open Reduce

/-- The types of the variables whose nearest binder is a closure. -/
abbrev ParamTypes := String → Option Ty

namespace ParamTypes

def bind (Γ : ParamTypes) (x : String) (t : Ty) : ParamTypes :=
  fun y => if y = x then some t else Γ y

/-- The parameters of a closure; a later one hides an earlier one of its name. -/
def params (Γ : ParamTypes) (ps : List Param) : ParamTypes :=
  ps.foldl (fun Γ p => Γ.bind p.name p.ty) Γ

/-- Other binders of the names. -/
def hide (Γ : ParamTypes) (xs : List String) : ParamTypes := fun y => if y ∈ xs then none else Γ y

/-- The types that occurrences of a variable can have. -/
def Allows (Γ : ParamTypes) (x : String) (t : Ty) : Prop := ∀ t', Γ x = some t' → t = t'

@[simp] theorem params_cons (Γ : ParamTypes) (p : Param) (ps : List Param) :
    Γ.params (p :: ps) = (Γ.bind p.name p.ty).params ps := rfl

theorem params_congr {Γ Γ' : ParamTypes} {ps : List Param} {x : String}
    (h : x ∉ ps.map Param.name → Γ' x = Γ x) : Γ'.params ps x = Γ.params ps x := by
  induction ps generalizing Γ Γ' with
  | nil => exact h nofun
  | cons p ps ih =>
    rw [params_cons, params_cons]
    refine ih fun hps => ?_
    unfold bind
    split_ifs with hx
    · rfl
    · exact h (by simp [hx, hps])

theorem params_of_notMem {Γ : ParamTypes} {ps : List Param} {x : String}
    (h : x ∉ ps.map Param.name) : Γ.params ps x = Γ x := by
  induction ps generalizing Γ with
  | nil => rfl
  | cons p ps ih =>
    rw [params_cons, ih (List.not_mem_of_not_mem_cons h), bind,
      if_neg (List.ne_of_not_mem_cons h)]

end ParamTypes

mutual
/-- An application is at exactly the types that its function takes, and has the type that it
returns; a closure has the type of its parameters and its body; a variable that a closure binds has
the type of the parameter. -/
inductive SimplyTyped : ParamTypes → Expr → Prop
  | head {Γ : ParamTypes} {e : Expr} {head : Head} {parts : List Expr} :
      e.form.head? = some (head, parts) → (∀ part ∈ parts, SimplyTyped Γ part) → SimplyTyped Γ e
  | var {Γ : ParamTypes} {name : String} {ty : Ty} : Γ.Allows name ty →
      SimplyTyped Γ ⟨.var name, ty⟩
  | apply {Γ : ParamTypes} {function : Expr} {args : List Expr} {ty : Ty} :
      SimplyTyped Γ function → (∀ arg ∈ args, SimplyTyped Γ arg) →
      function.ty.functionParts? = some (args.map Expr.ty, ty) →
      SimplyTyped Γ ⟨.apply function args, ty⟩
  | closure {Γ : ParamTypes} {params : List Param} {body : Expr} :
      SimplyTyped (Γ.params params) body → SimplyTyped Γ (Expr.closure params body)
  | block {Γ : ParamTypes} {body : Block} {ty : Ty} : SimplyTypedBlock Γ body →
      SimplyTyped Γ ⟨.block body, ty⟩
  | ite {Γ : ParamTypes} {condition yes no : Expr} {ty : Ty} : SimplyTyped Γ condition →
      SimplyTyped Γ yes → SimplyTyped Γ no → SimplyTyped Γ ⟨.ite condition yes no, ty⟩
  | cases {Γ : ParamTypes} {scrutinee : Expr} {arms : List (Pattern × Expr)} {ty : Ty} :
      SimplyTyped Γ scrutinee → (∀ arm ∈ arms, SimplyTyped (Γ.hide arm.1.bindings) arm.2) →
      SimplyTyped Γ ⟨.cases scrutinee arms, ty⟩

inductive SimplyTypedBlock : ParamTypes → Block → Prop
  | done {Γ : ParamTypes} {result : Option Expr} : (∀ e ∈ result, SimplyTyped Γ e) →
      SimplyTypedBlock Γ (.done result)
  | bind {Γ : ParamTypes} {name : String} {ty : Ty} {mutable : Bool} {init : Option Expr}
      {rest : Block} : (∀ e ∈ init, SimplyTyped Γ e) → SimplyTypedBlock (Γ.hide [name]) rest →
      SimplyTypedBlock Γ (.bind name ty mutable init rest)
  | exec {Γ : ParamTypes} {e : Expr} {rest : Block} : SimplyTyped Γ e →
      SimplyTypedBlock Γ rest → SimplyTypedBlock Γ (.exec e rest)
end

/-- What the constructor of applications makes is simply typed when no parameter is a wildcard. -/
theorem simplyTyped_apply {Γ : ParamTypes} {function e : Expr} {args : List Expr}
    (he : Expr.apply function args = .ok e) (hfunction : SimplyTyped Γ function)
    (hargs : ∀ arg ∈ args, SimplyTyped Γ arg)
    (hany : ∀ ts t, function.ty.functionParts? = some (ts, t) → ∀ p ∈ ts, p.isAny = false) :
    SimplyTyped Γ e := by
  obtain ⟨ts, t, hparts, hlength, hsame, rfl⟩ := apply_eq_ok he
  have htypes : ts = args.map Expr.ty := by
    refine List.ext_getElem (by simpa using hlength) fun i hi _ => ?_
    rw [List.getElem_map]
    have hmem : (ts[i], args[i]) ∈ ts.zip args := List.mem_iff_getElem.2
      ⟨i, by simp only [List.length_zip]; omega, List.getElem_zip⟩
    exact hsame _ hmem (hany ts t hparts _ (List.getElem_mem hi))
  exact .apply hfunction hargs (htypes ▸ hparts)

mutual
/-- Fewer bound variables allow at least the same. -/
theorem SimplyTyped.anti : ∀ {Γ Γ' : ParamTypes} {e : Expr}, SimplyTyped Γ e →
    (∀ x ∈ e.free, ∀ t, Γ' x = some t → Γ x = some t) → SimplyTyped Γ' e
  | Γ, Γ', _, .head hform hparts, h => .head hform fun part hpart =>
    (hparts part hpart).anti fun x hx =>
      h x ((free_depth_of_head? hform).1 ▸ mem_freeAll.2 ⟨part, hpart, hx⟩)
  | Γ, Γ', _, .var hname, h => .var fun t ht => hname t (h _ (by simp [Expr.free]) t ht)
  | Γ, Γ', _, .apply hfunction hargs hty, h =>
    .apply (hfunction.anti fun x hx => h x (by simp [Expr.free, hx]))
      (fun arg harg => (hargs arg harg).anti fun x hx => h x (by
        simpa [Expr.free] using .inr (mem_freeAll.2 ⟨arg, harg, hx⟩))) hty
  | Γ, Γ', _, @SimplyTyped.closure _ params body hbody, h =>
    .closure <| hbody.anti fun x hx t ht => by
    by_cases hparam : x ∈ params.map Param.name
    · rwa [ParamTypes.params_congr fun hnot => absurd hparam hnot] at ht
    · rw [ParamTypes.params_of_notMem hparam] at ht ⊢
      exact h x (List.mem_filter.2 ⟨hx, by simpa using hparam⟩) t ht
  | Γ, Γ', _, .block hbody, h => .block (hbody.anti h)
  | Γ, Γ', _, .ite hc hy hn, h => .ite (hc.anti fun x hx => h x (by simp [Expr.free, hx]))
    (hy.anti fun x hx => h x (by simp [Expr.free, hx]))
    (hn.anti fun x hx => h x (by simp [Expr.free, hx]))
  | Γ, Γ', _, .cases hscrutinee harms, h =>
    .cases (hscrutinee.anti fun x hx => h x (by simp [Expr.free, hx])) fun arm harm =>
      (harms arm harm).anti fun x hx t ht => by
        unfold ParamTypes.hide at ht ⊢
        split_ifs at ht ⊢ with hmem
        exact h x (by simpa [Expr.free] using .inr (mem_freeArms harm hx hmem)) t ht
theorem SimplyTypedBlock.anti : ∀ {Γ Γ' : ParamTypes} {b : Block}, SimplyTypedBlock Γ b →
    (∀ x ∈ Expr.freeBlock b, ∀ t, Γ' x = some t → Γ x = some t) → SimplyTypedBlock Γ' b
  | Γ, Γ', _, .done hresult, h => .done fun e he => (hresult e he).anti fun x hx => h x (by
    obtain rfl := Option.mem_def.1 he
    exact hx)
  | Γ, Γ', _, .bind hinit hrest, h => .bind
    (fun e he => (hinit e he).anti fun x hx => h x (by
      obtain rfl := Option.mem_def.1 he
      exact List.mem_append_left _ hx))
    (hrest.anti fun x hx t ht => by
      unfold ParamTypes.hide at ht ⊢
      split_ifs at ht ⊢ with hmem
      exact h x (List.mem_append_right _ (List.mem_filter.2 ⟨hx, by simpa using hmem⟩)) t ht)
  | Γ, Γ', _, .exec he hrest, h => .exec (he.anti fun x hx => h x (by simp [Expr.freeBlock, hx]))
    (hrest.anti fun x hx => h x (by simp [Expr.freeBlock, hx]))
end

namespace Scopes

/-- Occurrences that the outer types allow become expressions of the same type under the inner. -/
structure Typed (Δ : Scopes) (S : String → Prop) (Γ Γ' : ParamTypes) : Prop where
  covers : Δ.Covers
  carries : ∀ x, S x → ∀ t, Γ.Allows x t →
    SimplyTyped Γ' (Δ.occurrence x t) ∧ (Δ.occurrence x t).ty = t

namespace Typed

variable {Δ Δ₁ : Scopes} {S T : String → Prop} {Γ Γ' : ParamTypes} {names names₁ : Names}
  {avoid : List String}

theorem empty (S : String → Prop) (Γ : ParamTypes) : Scopes.empty.Typed S Γ Γ :=
  ⟨.empty, fun _ _ _ ht => ⟨.var ht, rfl⟩⟩

theorem mono (h : Δ.Typed S Γ Γ') (hT : ∀ x, T x → S x) : Δ.Typed T Γ Γ' :=
  ⟨h.covers, fun x hx => h.carries x (hT x hx)⟩

theorem push (h : Δ.Typed S Γ Γ') : Δ.push.Typed S Γ Γ' := ⟨h.covers.push, h.carries⟩

/-- A parameter under the name that its binder gets. -/
theorem param {s s' : Reducer} {p : Param} {bound : String} (h : s.scopes.Typed S Γ Γ')
    (hbinds : Binds s p.name avoid bound s') :
    s'.scopes.Typed (fun x => x ∈ avoid ∧ (x = p.name ∨ S x)) (Γ.bind p.name p.ty)
      (Γ'.bind bound p.ty) := by
  refine ⟨hbinds.covers h.covers, fun x hx t ht => ?_⟩
  by_cases hname : x = p.name
  · subst hname
    rw [hbinds.occurrence_self]
    refine ⟨.var fun t' ht' => ?_, rfl⟩
    rw [ParamTypes.bind, if_pos rfl] at ht'
    obtain rfl := Option.some.inj ht'
    exact ht _ (by rw [ParamTypes.bind, if_pos rfl])
  · have ht : Γ.Allows x t := by
      unfold ParamTypes.Allows ParamTypes.bind at ht
      rwa [if_neg hname] at ht
    obtain ⟨htyped, hty⟩ := h.carries x (hx.2.resolve_left hname) t ht
    rw [hbinds.occurrence_of_ne hname]
    refine ⟨htyped.anti fun y hy u hu => ?_, hty⟩
    unfold ParamTypes.bind at hu
    split_ifs at hu with hbound
    · subst hbound
      rw [free_occurrence] at hy
      exact absurd hy (hbinds.notMem_free_image h.covers hname (.inl hx.1))
    · exact hu

theorem params {s s' : Reducer} {ps : List Param} {bounds : List String}
    (hbinds : BindsAll avoid s (ps.map Param.name) bounds s') (h : s.scopes.Typed S Γ Γ') :
    s'.scopes.Typed (fun x => x ∈ avoid ∧ (x ∈ ps.map Param.name ∨ S x)) (Γ.params ps)
      (Γ'.params (renameParams ps bounds)) := by
  induction ps generalizing s bounds S Γ Γ' with
  | nil =>
    cases hbinds
    exact h.mono fun x hx => by simpa using hx.2
  | cons p ps ih =>
    cases hbinds with
    | cons hone hrest =>
      refine (ih hrest (h.param hone)).mono fun x hx => ⟨hx.1, ?_⟩
      rcases hx.2 with hmem | hx'
      · rcases List.mem_cons.1 hmem with rfl | hmem
        · exact .inr ⟨hx.1, .inl rfl⟩
        · exact .inl hmem
      · exact .inr ⟨hx.1, .inr hx'⟩

theorem closure {ps : List Param} {body : Expr} {bounds : List String}
    (h : Δ.Typed (fun x => x ∈ body.free ∧ x ∉ ps.map Param.name) Γ Γ')
    (hbound : bindNames (ps.map Param.name) body.free ⟨names, Δ.push⟩ =
      (.ok bounds, ⟨names₁, Δ₁⟩)) :
    Δ₁.Typed (· ∈ body.free) (Γ.params ps) (Γ'.params (renameParams ps bounds)) := by
  refine (params (s := ⟨names, Δ.push⟩) (bindNames_eq_ok hbound) h.push).mono
    fun x hx => ⟨hx, ?_⟩
  by_cases hmem : x ∈ ps.map Param.name
  · exact .inl hmem
  · exact .inr ⟨hx, hmem⟩

theorem hidden {e : Expr} {xs : List String} (he : SimplyTyped Γ' e) :
    SimplyTyped (Γ'.hide xs) e := by
  refine he.anti fun x _ t ht => ?_
  unfold ParamTypes.hide at ht
  split_ifs at ht
  exact ht

theorem bindName {name bound : String} (h : Δ.Typed (fun x => S x ∧ x ≠ name) Γ Γ')
    (hbound : Reduce.bindName name avoid ⟨names, Δ⟩ = (.ok bound, ⟨names₁, Δ₁⟩)) :
    Δ₁.Typed S (Γ.hide [name]) (Γ'.hide [bound]) := by
  have hbinds := bindName_eq_ok hbound
  refine ⟨hbinds.covers h.covers, fun x hx t ht => ?_⟩
  by_cases hname : x = name
  · subst hname
    rw [hbinds.occurrence_self]
    exact ⟨.var (by simp [ParamTypes.Allows, ParamTypes.hide]), rfl⟩
  · have ht : Γ.Allows x t := by
      unfold ParamTypes.Allows ParamTypes.hide at ht
      rwa [if_neg (by simpa using hname)] at ht
    obtain ⟨htyped, hty⟩ := h.carries x ⟨hx, hname⟩ t ht
    rw [hbinds.occurrence_of_ne hname]
    exact ⟨hidden htyped, hty⟩

theorem arm {p : Pattern} {body : Expr} {bounds : List String}
    (h : Δ.Typed (fun x => x ∈ body.free ∧ x ∉ p.bindings) Γ Γ')
    (hbound : bindNames p.bindings body.free ⟨names, Δ.push⟩ = (.ok bounds, ⟨names₁, Δ₁⟩)) :
    Δ₁.Typed (· ∈ body.free) (Γ.hide p.bindings)
      (Γ'.hide (p.rename (lastName (p.bindings.zip bounds))).bindings) := by
  have hbinds := bindNames_eq_ok hbound
  refine ⟨hbinds.covers h.push.covers, fun x hx t ht => ?_⟩
  by_cases hmem : x ∈ p.bindings
  · obtain ⟨y, hy⟩ := hbinds.occurrence_of_mem hmem
    have himage := (hbinds.image_lastName h.push.covers
      (topOutside_opened _ ⟨names, Δ⟩) hx hmem).1
    obtain rfl : y = lastName (p.bindings.zip bounds) x := by
      have := (hy Ty.any).symm.trans himage
      simpa [Expr.var] using this
    rw [hy, Pattern.bindings_rename]
    refine ⟨.var ?_, rfl⟩
    have hrenamed := List.mem_map_of_mem (f := lastName (p.bindings.zip bounds)) hmem
    simp [ParamTypes.Allows, ParamTypes.hide, hrenamed]
  · have ht : Γ.Allows x t := by
      unfold ParamTypes.Allows ParamTypes.hide at ht
      rwa [if_neg hmem] at ht
    obtain ⟨htyped, hty⟩ := h.push.carries x ⟨hx, hmem⟩ t ht
    rw [hbinds.occurrence_of_notMem hmem]
    exact ⟨hidden htyped, hty⟩

theorem substitutes {s s' : Reducer} {ps : List Param} {args : List Expr}
    (hall : SubstitutesAll s ps args s') (h : s.scopes.Typed S Γ Γ')
    (hargs : ∀ arg ∈ args, SimplyTyped Γ' arg) (htypes : ps.map Param.ty = args.map Expr.ty) :
    s'.scopes.Typed (fun x => x ∈ ps.map Param.name ∨ S x) (Γ.params ps) Γ' := by
  induction hall generalizing S Γ with
  | nil => exact h.mono fun x hx => by simpa using hx
  | @cons s s₁ s' p ps arg args hone _ ih =>
    obtain ⟨hty, htypes⟩ := List.cons.inj htypes
    obtain ⟨harg, hargs⟩ := List.forall_mem_cons.1 hargs
    have hstep : s₁.scopes.Typed (fun x => x = p.name ∨ S x) (Γ.bind p.name p.ty) Γ' := by
      refine ⟨hone.covers h.covers, fun x hx t ht => ?_⟩
      unfold Scopes.occurrence
      rw [hone.lookup?]
      by_cases hname : x = p.name
      · rw [if_pos hname]
        refine ⟨harg, hty.symm.trans (ht _ ?_).symm⟩
        rw [ParamTypes.bind, if_pos hname]
      · have ht : Γ.Allows x t := by
          unfold ParamTypes.Allows ParamTypes.bind at ht
          rwa [if_neg hname] at ht
        rw [if_neg hname]
        exact h.carries x (hx.resolve_left hname) t ht
    refine (ih hstep hargs htypes).mono fun x hx => ?_
    simp only [List.map_cons, List.mem_cons] at hx
    tauto

theorem inline {ps : List Param} {body : Expr} {args : List Expr}
    (h : Δ.Typed (fun x => x ∈ body.free ∧ x ∉ ps.map Param.name) Γ Γ')
    (hall : SubstitutesAll ⟨names, Δ.push⟩ ps args ⟨names₁, Δ₁⟩)
    (hargs : ∀ arg ∈ args, SimplyTyped Γ' arg) (htypes : ps.map Param.ty = args.map Expr.ty) :
    Δ₁.Typed (· ∈ body.free) (Γ.params ps) Γ' := by
  refine (substitutes hall h.push hargs htypes).mono fun x hx => ?_
  by_cases hmem : x ∈ ps.map Param.name
  · exact .inl hmem
  · exact .inr ⟨hx, hmem⟩

end Typed

end Scopes

theorem SimplyTyped.closure_eq {Γ : ParamTypes} {params : List Param} {body : Expr} {ty : Ty}
    (h : SimplyTyped Γ ⟨.closure params body, ty⟩) :
    SimplyTyped (Γ.params params) body ∧ ty = Ty.function (params.map Param.ty) body.ty := by
  cases h with
  | head hform _ => cases hform
  | closure hbody => exact ⟨hbody, rfl⟩

theorem SimplyTyped.parts {Γ : ParamTypes} {e : Expr} (h : SimplyTyped Γ e) {head : Head}
    {parts : List Expr} (hform : e.form.head? = some (head, parts)) :
    ∀ part ∈ parts, SimplyTyped Γ part := by
  cases h with
  | head hform' hparts =>
    obtain ⟨rfl, rfl⟩ := Prod.mk.inj (Option.some.inj (hform'.symm.trans hform))
    exact hparts
  | _ => cases hform

theorem SimplyTyped.apply_eq {Γ : ParamTypes} {function : Expr} {args : List Expr} {ty : Ty}
    (h : SimplyTyped Γ ⟨.apply function args, ty⟩) : SimplyTyped Γ function ∧
      (∀ arg ∈ args, SimplyTyped Γ arg) ∧
      function.ty.functionParts? = some (args.map Expr.ty, ty) := by
  cases h with
  | head hform _ => cases hform
  | apply hfunction hargs hty => exact ⟨hfunction, hargs, hty⟩

mutual
/-- Reduction keeps types, also under scopes whose replacements have their variables' types. -/
theorem Reduces.typed {Δ : Scopes} {names later : Names} {e e' : Expr} {Γ Γ' : ParamTypes} :
    Reduces Δ names e e' later → Δ.Typed (· ∈ e.free) Γ Γ' → SimplyTyped Γ e →
    SimplyTyped Γ' e' ∧ e'.ty = e.ty
  | .var, hΔ, he => by
    cases he with
    | head hform _ => cases hform
    | var hname => exact hΔ.carries _ (by simp [Expr.free]) _ hname
  | .head hform hparts, hΔ, he => by
    have hall := hparts.typed (hΔ.mono fun x hx => (free_depth_of_head? hform).1 ▸ hx)
      (he.parts hform)
    exact ⟨.head (head?_build hform hparts.length_eq) hall.1, rfl⟩
  | .ite hcondition hyes hno, hΔ, he => by
    cases he with
    | head hform _ => cases hform
    | ite hc hy hn =>
      exact ⟨.ite (hcondition.typed (hΔ.mono fun x hx => by simp [Expr.free, hx]) hc).1
        (hyes.typed (hΔ.mono fun x hx => by simp [Expr.free, hx]) hy).1
        (hno.typed (hΔ.mono fun x hx => by simp [Expr.free, hx]) hn).1, rfl⟩
  | @Reduces.closure _ _ _ _ _ params bound _ _ _ hbound hbody, hΔ, he => by
    obtain ⟨htyped, rfl⟩ := he.closure_eq
    obtain ⟨hbody, hty⟩ := hbody.typed (Scopes.Typed.closure (hΔ.mono fun x hx =>
      List.mem_filter.2 ⟨hx.1, by simpa using hx.2⟩) hbound) htyped
    have hlength : bound.length = params.length := by
      simpa using (bindNames_eq_ok hbound).length_eq
    rw [← map_ty_renameParams hlength, ← hty]
    exact ⟨.closure hbody, rfl⟩
  | .block hbody, hΔ, he => by
    cases he with
    | head hform _ => cases hform
    | block he => exact ⟨.block (hbody.typed hΔ.push he), rfl⟩
  | .cases hscrutinee harms, hΔ, he => by
    cases he with
    | head hform _ => cases hform
    | cases hs has =>
      exact ⟨.cases (hscrutinee.typed (hΔ.mono fun x hx => by simp [Expr.free, hx]) hs).1
        (harms.typed (hΔ.mono fun x hx => by simp [Expr.free, hx]) has), rfl⟩
  | .inline hargs hall hbody, hΔ, he => by
    obtain ⟨hfunction, has, hparts⟩ := he.apply_eq
    obtain ⟨hf, rfl⟩ := hfunction.closure_eq
    obtain ⟨hargs, htypes⟩ := hargs.typed (hΔ.mono fun x hx => by simp [Expr.free, hx]) has
    obtain ⟨hparams, rfl⟩ := Prod.mk.inj (Option.some.inj hparts)
    refine hbody.typed (Scopes.Typed.inline (hΔ.mono fun x hx => ?_) hall hargs
      (hparams.trans htypes.symm)) hf
    simp only [Expr.free, List.mem_append, List.mem_filter]
    exact .inl ⟨hx.1, by simpa using hx.2⟩
  | .inlineResult _ hargs hfunction hall hbody, hΔ, he => by
    obtain ⟨hf, has, hparts⟩ := he.apply_eq
    obtain ⟨hargs, htypes⟩ := hargs.typed (hΔ.mono fun x hx => by simp [Expr.free, hx]) has
    obtain ⟨hclosure, hty⟩ := hfunction.typed (hΔ.mono fun x hx => by simp [Expr.free, hx]) hf
    obtain ⟨hbodyTyped, rfl⟩ := hclosure.closure_eq
    rw [← hty] at hparts
    obtain ⟨hparams, rfl⟩ := Prod.mk.inj (Option.some.inj hparts)
    exact hbody.typed (Scopes.Typed.inline (.empty _ _) hall hargs
      (hparams.trans htypes.symm)) hbodyTyped
  | .apply _ hargs hfunction _, hΔ, he => by
    obtain ⟨hf, has, hparts⟩ := he.apply_eq
    obtain ⟨hargs, htypes⟩ := hargs.typed (hΔ.mono fun x hx => by simp [Expr.free, hx]) has
    obtain ⟨hf, hty⟩ := hfunction.typed (hΔ.mono fun x hx => by simp [Expr.free, hx]) hf
    exact ⟨.apply hf hargs (by rw [hty, htypes, hparts]), rfl⟩
theorem ReducesAll.typed {Δ : Scopes} {names later : Names} {es es' : List Expr}
    {Γ Γ' : ParamTypes} : ReducesAll Δ names es es' later →
    Δ.Typed (· ∈ Expr.freeAll es) Γ Γ' → (∀ e ∈ es, SimplyTyped Γ e) →
    (∀ e' ∈ es', SimplyTyped Γ' e') ∧ es'.map Expr.ty = es.map Expr.ty
  | .nil, _, _ => ⟨nofun, rfl⟩
  | .cons hone hall, hΔ, hes => by
    obtain ⟨he, hes⟩ := List.forall_mem_cons.1 hes
    obtain ⟨he, hty⟩ := hone.typed (hΔ.mono fun x hx => by simp [Expr.freeAll, hx]) he
    obtain ⟨hes, htypes⟩ := hall.typed (hΔ.mono fun x hx => by simp [Expr.freeAll, hx]) hes
    exact ⟨List.forall_mem_cons.2 ⟨he, hes⟩, congrArg₂ List.cons hty htypes⟩
theorem ReducesBlock.typed {avoid : List String} {Δ : Scopes} {names later : Names} {b b' : Block}
    {Γ Γ' : ParamTypes} : ReducesBlock avoid Δ names b b' later →
    Δ.Typed (· ∈ Expr.freeBlock b) Γ Γ' → SimplyTypedBlock Γ b → SimplyTypedBlock Γ' b'
  | .unit, _, _ => .done nofun
  | .result he, hΔ, .done hresult => .done fun e' he' => by
    obtain rfl := Option.some.inj he'
    exact (he.typed hΔ (hresult _ rfl)).1
  | .declare hbound hrest, hΔ, .bind _ htyped =>
    .bind nofun (hrest.typed (Scopes.Typed.bindName (hΔ.mono fun x hx => by
      simp [Expr.freeBlock, hx.1, hx.2]) hbound) htyped)
  | .bind hinit hbound hrest, hΔ, .bind htypedInit htyped => by
    have hone := (hinit.typed (hΔ.mono fun x hx => by
      simp [Expr.freeBlock, Expr.freeOption, hx]) (htypedInit _ rfl)).1
    exact .bind (fun e' he' => Option.some.inj he' ▸ hone) (hrest.typed
      (Scopes.Typed.bindName (hΔ.mono fun x hx => by simp [Expr.freeBlock, hx.1, hx.2]) hbound)
      htyped)
  | .exec he hrest, hΔ, .exec htyped htypedRest =>
    .exec (he.typed (hΔ.mono fun x hx => by simp [Expr.freeBlock, hx]) htyped).1
      (hrest.typed (hΔ.mono fun x hx => by simp [Expr.freeBlock, hx]) htypedRest)
theorem ReducesArms.typed {Δ : Scopes} {names later : Names} {as as' : List (Pattern × Expr)}
    {Γ Γ' : ParamTypes} : ReducesArms Δ names as as' later →
    Δ.Typed (· ∈ Expr.freeArms as) Γ Γ' →
    (∀ arm ∈ as, SimplyTyped (Γ.hide arm.1.bindings) arm.2) →
    ∀ arm ∈ as', SimplyTyped (Γ'.hide arm.1.bindings) arm.2
  | .nil, _, _ => nofun
  | .cons hbound hbody harms, hΔ, has => by
    obtain ⟨ha, has⟩ := List.forall_mem_cons.1 has
    have hbody' := hbody.typed (Scopes.Typed.arm (hΔ.mono fun x hx =>
      mem_freeArms List.mem_cons_self hx.1 hx.2) hbound) ha
    exact List.forall_mem_cons.2 ⟨hbody'.1,
      harms.typed (hΔ.mono fun x hx => by simp [Expr.freeArms, hx]) has⟩
end

end ViewCircuit
