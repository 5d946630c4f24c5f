import ViewCircuit.Expr.Build
import ViewCircuit.Proofs.Approx
import ViewCircuit.Proofs.Collect

/-! Evaluation reads no variable but the free ones. A closure takes its whole environment along, so
values are compared with closures cut down to the variables that are free in them. -/
namespace ViewCircuit

open List (Forall₂)

theorem lookup_map {α β : Type} (g : α → β) (entries : List (String × α)) (x : String) :
    (entries.map fun entry => (entry.1, g entry.2)).lookup x = (entries.lookup x).map g := by
  induction entries with
  | nil => rfl
  | cons entry entries ih =>
    rw [List.map_cons, lookup_cons_eq, lookup_cons_eq, ih]
    split <;> rfl

namespace Env

/-- What the environment holds for some variables, in their order. -/
def restrict (ρ : Env) (xs : List String) : Env :=
  xs.filterMap fun x => (ρ.lookup x).map fun v => (x, v)

variable {ρ ρ' : Env} {x : String} {xs : List String}

theorem lookup_restrict :
    (ρ.restrict xs).lookup x = if x ∈ xs then ρ.lookup x else none := by
  induction xs with
  | nil => rfl
  | cons y ys ih =>
    unfold restrict at ih ⊢
    rw [List.filterMap_cons]
    cases hy : ρ.lookup y with
    | none =>
      rw [Option.map_none, ih]
      by_cases hx : x = y
      · simp [hx, hy]
      · simp [hx]
    | some v =>
      rw [Option.map_some, lookup_cons_eq, ih]
      by_cases hx : x = y
      · simp [hx, hy]
      · simp [hx]

theorem restrict_eq_iff : ρ.restrict xs = ρ'.restrict xs ↔ ∀ x ∈ xs, ρ.lookup x = ρ'.lookup x := by
  constructor
  · intro h x hx
    have hlookup := congrArg (List.lookup x) h
    rwa [lookup_restrict, lookup_restrict, if_pos hx, if_pos hx] at hlookup
  · intro h
    exact List.filterMap_congr fun x hx => by rw [h x hx]

end Env

namespace Val

mutual
/-- The value with closures that hold no more than the values of their free variables. -/
def trim : Val → Val
  | .atom a => .atom a
  | .node shape parts => .node shape (trimAll parts)
  | .closure names values params body =>
    let held := Env.restrict (names.zip (trimAll values)) (Expr.closure params body).free
    .closure (held.map Prod.fst) (held.map Prod.snd) params body
def trimAll : List Val → List Val
  | [] => []
  | v :: vs => v.trim :: trimAll vs
end

theorem trimAll_eq (vs : List Val) : trimAll vs = vs.map trim := by
  induction vs with
  | nil => rfl
  | cons v vs ih => rw [trimAll, ih, List.map_cons]

end Val

/-- The same value for all that closures can read. -/
def Val.Same (v w : Val) : Prop := v.trim = w.trim

/-- The variables have the same values in both environments. -/
def Env.Agree (xs : List String) (ρ ρ' : Env) : Prop :=
  ∀ x ∈ xs, (ρ.lookup x).map Val.trim = (ρ'.lookup x).map Val.trim

section Same

variable {names names' : List String} {values values' : List Val} {params params' : List Param}
  {body body' : Expr}

theorem forall₂_same_iff {vs ws : List Val} :
    Forall₂ Val.Same vs ws ↔ Val.trimAll vs = Val.trimAll ws := by
  rw [Val.trimAll_eq, Val.trimAll_eq, ← List.forall₂_eq_eq_eq, List.forall₂_map_left_iff,
    List.forall₂_map_right_iff]
  rfl

/-- Closures are the same when they bind and compute the same and hold the same values of the
variables that they read. -/
theorem same_closure_iff :
    (Val.closure names values params body).Same (.closure names' values' params' body') ↔
      params = params' ∧ body = body' ∧
        Env.Agree (Expr.closure params body).free (names.zip values) (names'.zip values') := by
  have hlookup : ∀ (names : List String) values x, (names.zip (Val.trimAll values)).lookup x =
      ((names.zip values).lookup x).map Val.trim := fun names values x => by
    rw [Val.trimAll_eq, List.zip_map_right, ← lookup_map]
    rfl
  have hheld : ∀ {xs : List String}, Env.restrict (names.zip (Val.trimAll values)) xs =
      Env.restrict (names'.zip (Val.trimAll values')) xs ↔
        Env.Agree xs (names.zip values) (names'.zip values') := by
    intro xs
    rw [Env.restrict_eq_iff]
    unfold Env.Agree
    simp only [hlookup]
  unfold Val.Same
  constructor
  · intro h
    obtain ⟨hnames, hvalues, rfl, rfl⟩ := by simpa only [Val.trim, Val.closure.injEq] using h
    refine ⟨rfl, rfl, hheld.1 ?_⟩
    rw [List.zip_of_prod hnames hvalues, ← List.zip_of_prod rfl rfl]
  · rintro ⟨rfl, rfl, hagree⟩
    simp only [Val.trim, hheld.2 hagree]

theorem structural_same : Structural Val.Same where
  atom := by
    intro a w
    constructor
    · intro h
      cases w with
      | atom b => exact h.symm
      | node | closure => cases h
    · rintro rfl
      rfl
  node := by
    intro shape vs w
    constructor
    · intro h
      cases w with
      | node shape' ws =>
        obtain ⟨rfl, hws⟩ := Val.node.inj h
        exact ⟨ws, rfl, forall₂_same_iff.2 hws⟩
      | atom | closure => cases h
    · rintro ⟨ws, rfl, hws⟩
      exact congrArg (Val.node shape) (forall₂_same_iff.1 hws)
  closure := by
    intro names values params body w h
    cases w with
    | closure => exact ⟨_, _, _, _, rfl⟩
    | atom | node => cases h

end Same

namespace Env.Agree

variable {ρ ρ' : Env} {xs ys : List String}

theorem mono (h : Agree xs ρ ρ') (hys : ∀ x ∈ ys, x ∈ xs) : Agree ys ρ ρ' :=
  fun x hx => h x (hys x hx)

theorem symm (h : Agree xs ρ ρ') : Agree xs ρ' ρ := fun x hx => (h x hx).symm

theorem of_lookup (h : ∀ x ∈ xs, ρ.lookup x = ρ'.lookup x) : Agree xs ρ ρ' :=
  fun x hx => congrArg (Option.map Val.trim) (h x hx)

/-- New bindings of the same values, under which other variables are read than before. -/
theorem append (h : Agree xs ρ ρ') {bs bs' : Env} (hbs : Forall₂ (Bound Val.Same) bs bs')
    (hys : ∀ x ∈ ys, x ∉ bs.map Prod.fst → x ∈ xs) : Agree ys (bs ++ ρ) (bs' ++ ρ') := by
  intro x hx
  replace hys := hys x hx
  induction hbs with
  | nil => exact h x (hys (by simp))
  | @cons b b' bs bs' hb _ ih =>
    rw [List.cons_append, List.cons_append, lookup_cons_eq, lookup_cons_eq, ← hb.1]
    split
    · exact congrArg some hb.2
    · rename_i hne
      exact ih fun hnot => hys (by simpa using ⟨hne, by simpa using hnot⟩)

theorem hide (h : Agree xs ρ ρ') {name : String} (hys : ∀ x ∈ ys, x ≠ name → x ∈ xs) :
    Agree ys (ρ.hide name) (ρ'.hide name) := by
  intro x hx
  rw [Env.lookup_hide, Env.lookup_hide]
  split
  · rfl
  · rename_i hne
    exact h x (hys x hx hne)

end Env.Agree

/-- A call of the same closure runs the same body, where its variables are the same. -/
theorem enter?_same {c c' : Val} {vs ws : List Val} {ρ : Env} {body : Expr} (hc : c.Same c')
    (hvs : Forall₂ Val.Same vs ws) (henter : c.enter? vs = some (ρ, body)) :
    ∃ ρ', c'.enter? ws = some (ρ', body) ∧ Env.Agree body.free ρ ρ' := by
  obtain ⟨names, values, params, rfl, hlength, rfl⟩ := Val.enter?_eq_some.1 henter
  obtain ⟨names', values', params', body', rfl⟩ := structural_same.closure hc
  obtain ⟨rfl, rfl, hagree⟩ := same_closure_iff.1 hc
  refine ⟨_, Val.enter?_eq_some.2 ⟨_, _, _, rfl, hlength.trans hvs.length_eq, rfl⟩, ?_⟩
  refine hagree.append (List.rel_reverse (zip_bound hvs _)) fun x hx hnot => ?_
  rw [names_called (by simpa using hlength)] at hnot
  exact List.mem_filter.2 ⟨hx, by simpa using hnot⟩

/-- What the evaluator finds where the free variables have certain values, it finds wherever they
have them, with as many calls. -/
def Coincides (f : Env → Expr → Option (Val × Nat)) : Prop :=
  ∀ (e : Expr) (ρ ρ' : Env) (v : Val) (k : Nat), Env.Agree e.free ρ ρ' →
    f ρ e = some (v, k) → ∃ w, f ρ' e = some (w, k) ∧ v.Same w

namespace Coincides

variable {f : Env → Expr → Option (Val × Nat)} {ρ ρ' : Env} {k : Nat}

theorem all (h : Coincides f) {es : List Expr} {vs : List Val}
    (hagree : Env.Agree (Expr.freeAll es) ρ ρ') (hvs : evalAll f ρ es = some (vs, k)) :
    ∃ ws, evalAll f ρ' es = some (ws, k) ∧ Forall₂ Val.Same vs ws := by
  induction es generalizing vs k with
  | nil =>
    obtain ⟨rfl, rfl⟩ := Prod.mk.inj (Option.some.inj hvs)
    exact ⟨[], rfl, .nil⟩
  | cons e es ih =>
    obtain ⟨v, l, vs, m, hv, hrest, hr⟩ := evalAll_cons.1 hvs
    obtain ⟨rfl, rfl⟩ := Prod.mk.inj hr
    have hfree : Expr.freeAll (e :: es) = e.free ++ Expr.freeAll es := rfl
    obtain ⟨w, hw, hvw⟩ := h e ρ ρ' v l (hagree.mono fun x hx => by simp [hfree, hx]) hv
    obtain ⟨ws, hws, hvsws⟩ := ih (hagree.mono fun x hx => by simp [hfree, hx]) hrest
    exact ⟨w :: ws, evalAll_cons.2 ⟨w, l, ws, m, hw, hws, rfl⟩, .cons hvw hvsws⟩

theorem block (h : Coincides f) : ∀ (b : Block) (ρ ρ' : Env) (v : Val) (k : Nat),
    Env.Agree (Expr.freeBlock b) ρ ρ' → evalBlock f ρ b = some (v, k) →
      ∃ w, evalBlock f ρ' b = some (w, k) ∧ v.Same w
  | .done none, _, _, _, _, _, hv => ⟨_, hv, rfl⟩
  | .done (some e), ρ, ρ', v, k, hagree, hv => h e ρ ρ' v k hagree hv
  | .bind name _ _ none rest, ρ, ρ', v, k, hagree, hv => by
    -- the name has no value in the rest, whatever it was bound to before
    refine h.block rest (ρ.hide name) (ρ'.hide name) v k (hagree.hide fun x hx hne => ?_) hv
    simp [Expr.freeBlock, hx, hne]
  | .bind name _ _ (some e) rest, ρ, ρ', v, k, hagree, hrun => by
    obtain ⟨u, l, v, m, hu, hv, hr⟩ := evalBlock_bind.1 hrun
    obtain ⟨rfl, rfl⟩ := Prod.mk.inj hr
    obtain ⟨u', hu', huu'⟩ := h e ρ ρ' u l
      (hagree.mono fun x hx => by simp [Expr.freeBlock, Expr.freeOption, hx]) hu
    have hbound : Forall₂ (Bound Val.Same) [(name, u)] [(name, u')] := .cons ⟨rfl, huu'⟩ .nil
    have hrest : Env.Agree (Expr.freeBlock rest) ((name, u) :: ρ) ((name, u') :: ρ') := by
      refine hagree.append hbound fun x hx hne => ?_
      have hne : x ≠ name := by simpa using hne
      simp [Expr.freeBlock, hx, hne]
    obtain ⟨w, hw, hvw⟩ := h.block rest _ _ v m hrest hv
    exact ⟨w, evalBlock_bind.2 ⟨u', l, w, m, hu', hw, rfl⟩, hvw⟩
  | .exec e rest, ρ, ρ', v, k, hagree, hrun => by
    obtain ⟨u, l, v, m, hu, hv, hr⟩ := evalBlock_exec.1 hrun
    obtain ⟨rfl, rfl⟩ := Prod.mk.inj hr
    obtain ⟨u', hu', -⟩ := h e ρ ρ' u l (hagree.mono fun x hx => by simp [Expr.freeBlock, hx]) hu
    obtain ⟨w, hw, hvw⟩ := h.block rest ρ ρ' v m
      (hagree.mono fun x hx => by simp [Expr.freeBlock, hx]) hv
    exact ⟨w, evalBlock_exec.2 ⟨u', l, w, m, hu', hw, rfl⟩, hvw⟩

/-- One level of evaluation reads no more than the free variables if the levels below do not. -/
theorem node (h : Coincides f) (rt : Runtime) : Coincides (evalNode rt f) := by
  rintro ⟨form, ty⟩ ρ ρ' v k hagree hrun
  cases hhead : form.head? with
  | some r =>
    obtain ⟨head, parts⟩ := r
    have hfree := (free_depth_of_head? (e := ⟨form, ty⟩) hhead).1
    obtain ⟨vs, l, v, hvs, hcombine, hr⟩ := (evalNode_head (e := ⟨form, ty⟩) hhead).1 hrun
    obtain ⟨rfl, rfl⟩ := Prod.mk.inj hr
    obtain ⟨ws, hws, hvsws⟩ := h.all (hfree ▸ hagree) hvs
    obtain ⟨w, hw, hvw⟩ := structural_same.combine hvsws hcombine
    exact ⟨w, (evalNode_head (e := ⟨form, ty⟩) hhead).2 ⟨ws, l, w, hws, hw, rfl⟩, hvw⟩
  | none =>
    cases form with
    | var name =>
      have hname := hagree name (List.mem_singleton_self name)
      obtain ⟨u, hu, hr⟩ := Option.map_eq_some_iff.1 hrun
      obtain ⟨rfl, rfl⟩ := Prod.mk.inj hr
      rw [hu] at hname
      obtain ⟨w, hw, hvw⟩ := Option.map_eq_some_iff.1 hname.symm
      exact ⟨w, Option.map_eq_some_iff.2 ⟨w, hw, rfl⟩, hvw.symm⟩
    | closure params body =>
      obtain ⟨rfl, rfl⟩ := Prod.mk.inj (Option.some.inj hrun)
      refine ⟨ρ'.close params body, rfl, same_closure_iff.2 ⟨rfl, rfl, ?_⟩⟩
      rw [← List.zip_of_prod rfl rfl, ← List.zip_of_prod rfl rfl]
      exact hagree
    | apply function args =>
      simp only [Expr.free] at hagree
      obtain ⟨c, i, vs, j, ρ₁, body, v, m, hc, hvs, henter, hv, hr⟩ := evalNode_apply.1 hrun
      obtain ⟨rfl, rfl⟩ := Prod.mk.inj hr
      obtain ⟨c', hc', hcc'⟩ := h function ρ ρ' c i (hagree.mono fun x hx => by simp [hx]) hc
      obtain ⟨ws, hws, hvsws⟩ := h.all (hagree.mono fun x hx => by simp [hx]) hvs
      obtain ⟨ρ₁', henter', hbody⟩ := enter?_same hcc' hvsws henter
      obtain ⟨w, hw, hvw⟩ := h body ρ₁ ρ₁' v m hbody hv
      exact ⟨w, evalNode_apply.2 ⟨c', i, ws, j, ρ₁', body, w, m, hc', hws, henter', hw, rfl⟩, hvw⟩
    | block body => exact h.block body ρ ρ' v k hagree hrun
    | ite condition yes no =>
      simp only [Expr.free] at hagree
      obtain ⟨b, l, v, m, hb, hv, hr⟩ := evalNode_ite.1 hrun
      obtain ⟨rfl, rfl⟩ := Prod.mk.inj hr
      obtain ⟨u, hu, hbu⟩ := h condition ρ ρ' _ l (hagree.mono fun x hx => by simp [hx]) hb
      obtain rfl := structural_same.atom.1 hbu
      have hbranch : Env.Agree (if b then yes else no).free ρ ρ' :=
        hagree.mono fun x hx => by cases b <;> simp_all
      obtain ⟨w, hw, hvw⟩ := h _ ρ ρ' v m hbranch hv
      exact ⟨w, evalNode_ite.2 ⟨b, l, w, m, hu, hw, rfl⟩, hvw⟩
    | cases scrutinee arms =>
      simp only [Expr.free] at hagree
      obtain ⟨u, l, bindings, body, v, m, hu, hmatch, hv, hr⟩ := evalNode_cases.1 hrun
      obtain ⟨rfl, rfl⟩ := Prod.mk.inj hr
      obtain ⟨u', hu', huu'⟩ := h scrutinee ρ ρ' u l (hagree.mono fun x hx => by simp [hx]) hu
      obtain ⟨bindings', hmatch', hbound⟩ := structural_same.firstMatch huu' hmatch
      obtain ⟨p, harm, hnames⟩ := arm_of_firstMatch hmatch
      have hbody : Env.Agree body.free (bindings ++ ρ) (bindings' ++ ρ') := by
        refine hagree.append hbound fun x hx hnot => ?_
        rw [hnames] at hnot
        exact List.mem_append_right _ (mem_freeArms harm hx (by simpa using hnot))
      obtain ⟨w, hw, hvw⟩ := h body _ _ v m hbody hv
      exact ⟨w, evalNode_cases.2 ⟨u', l, bindings', body, w, m, hu', hmatch', hw, rfl⟩, hvw⟩
    | literal value => cases value <;> cases hhead
    | _ => cases hhead

end Coincides

theorem coincides_eval (rt : Runtime) : ∀ n, Coincides (eval rt n)
  | 0 => fun _ _ _ _ _ _ hv => nomatch hv
  | n + 1 => (coincides_eval rt n).node rt

/-- Evaluation has the same outcome in all environments that agree on the variables that the walk
collects, step for step and call for call. Only a closure can tell them apart, by what it holds and
never reads. -/
theorem eval_agrees {rt : Runtime} {e : Expr} {ρ ρ' : Env}
    (h : ∀ x ∈ e.freeVariables, ρ.lookup x = ρ'.lookup x) :
    (∀ n, (eval rt n ρ e).map (Prod.map Val.trim id) =
        (eval rt n ρ' e).map (Prod.map Val.trim id)) ∧
      ∀ v k, v.isData → (Evals rt ρ e v k ↔ Evals rt ρ' e v k) := by
  rw [Expr.freeVariables_eq] at h
  have hagree := Env.Agree.of_lookup h
  refine ⟨fun n => ?_, fun v k hdata => ?_⟩
  · cases hv : eval rt n ρ e with
    | some r =>
      obtain ⟨w, hw, hvw⟩ := coincides_eval rt n e ρ ρ' r.1 r.2 hagree hv
      rw [hw]
      exact congrArg (fun v => some (v, r.2)) hvw
    | none =>
      cases hw : eval rt n ρ' e with
      | none => rfl
      | some s =>
        obtain ⟨v, hv', -⟩ := coincides_eval rt n e ρ' ρ s.1 s.2 hagree.symm hw
        cases hv.symm.trans hv'
  · have hdirection : ∀ {ρ ρ' : Env}, Env.Agree e.free ρ ρ' → Evals rt ρ e v k →
        Evals rt ρ' e v k := by
      rintro ρ ρ' hagree ⟨n, hv⟩
      obtain ⟨w, hw, hvw⟩ := coincides_eval rt n e ρ ρ' v k hagree hv
      obtain rfl := structural_same.eq_of_isData hvw hdata
      exact ⟨n, hw⟩
    exact ⟨hdirection hagree, hdirection hagree.symm⟩

/-- A block that reads one variable, through a binding, a pattern and a parameter. -/
def passedOn : Expr :=
  let var (name : String) := Expr.var name Ty.int32
  let triple := Expr.tuple [var "w", var "v", var "y"]
  let call : Expr := ⟨.apply (Expr.closure [⟨"w", Ty.int32⟩] triple) [var "y"], triple.ty⟩
  Expr.block (.bind "y" Ty.int32 false (some (var "x"))
    (.done (some ⟨.cases (var "y") [(.ident "v" false, call)], triple.ty⟩)))

/-- What the names that it binds were bound to before makes no difference. -/
theorem eval_passedOn :
    let one := Val.atom (.int .w32 1)
    let ρ : Env := [("x", one)]
    let ρ' : Env := [("y", Val.null), ("v", Val.bool true), ("x", one), ("w", Val.unit)]
    (∀ x ∈ passedOn.freeVariables, ρ.lookup x = ρ'.lookup x) ∧
      Evals (fun _ _ => none) ρ' passedOn (Val.tuple [one, one, one]) 1 := by
  intro one ρ ρ'
  have hfree : passedOn.freeVariables = ["x"] := by with_unfolding_all rfl
  have hsame : ∀ x ∈ passedOn.freeVariables, ρ.lookup x = ρ'.lookup x := by
    rw [hfree]
    exact List.forall_mem_singleton.2 rfl
  have hrun : Evals (fun _ _ => none) ρ passedOn (Val.tuple [one, one, one]) 1 :=
    ⟨5, by with_unfolding_all rfl⟩
  exact ⟨hsame, ((eval_agrees hsame).2 _ _ rfl).1 hrun⟩

end ViewCircuit
