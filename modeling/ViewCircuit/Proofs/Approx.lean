import ViewCircuit.Proofs.Related

/-! Approximation: an expression has a value whenever another has one, and their values are alike.
Closures are alike when they take alike arguments to alike results, within a bound on the number of
calls. -/
namespace ViewCircuit

open List (Forall₂)

/-- Values that differ only in their closures, which are related. -/
inductive Val.Alike (call : Val → Val → Prop) : Val → Val → Prop
  | atom (a : Atom) : Alike call (.atom a) (.atom a)
  | node {shape : Shape} {vs ws : List Val} : Forall₂ (Alike call) vs ws →
      Alike call (.node shape vs) (.node shape ws)
  | closure {names names' : List String} {values values' : List Val} {params params' : List Param}
      {body body' : Expr} :
      call (.closure names values params body) (.closure names' values' params' body') →
      Alike call (.closure names values params body) (.closure names' values' params' body')

/-- Calls of the first function that take fewer than `k` calls are followed by the second. -/
def Calls (rt : Runtime) (k : Nat) (c c' : Val) : Prop :=
  ∀ j, j < k → ∀ vs ws, Forall₂ (Val.Alike (Calls rt j)) vs ws → ∀ ρ body v m,
    c.enter? vs = some (ρ, body) → Evals rt ρ body v m → m ≤ j →
    ∃ ρ' body' w l, c'.enter? ws = some (ρ', body') ∧ Evals rt ρ' body' w l ∧
      Val.Alike (Calls rt (j - m)) v w
termination_by k

/-- Values that cannot be told apart with fewer than `k` calls of the first. -/
def Val.Approx (rt : Runtime) (k : Nat) : Val → Val → Prop := Val.Alike (Calls rt k)

/-- What the first expression evaluates to with at most `k` calls, the second follows. -/
def Approx (rt : Runtime) (k : Nat) (ρ : Env) (e : Expr) (ρ' : Env) (e' : Expr) : Prop :=
  ∀ v m, Evals rt ρ e v m → m ≤ k → ∃ w l, Evals rt ρ' e' w l ∧ v.Approx rt (k - m) w

def ApproxBlock (rt : Runtime) (k : Nat) (ρ : Env) (b : Block) (ρ' : Env) (b' : Block) : Prop :=
  ∀ v m, EvalsBlock rt ρ b v m → m ≤ k → ∃ w l, EvalsBlock rt ρ' b' w l ∧ v.Approx rt (k - m) w

theorem structural_alike (call : Val → Val → Prop) : Structural (Val.Alike call) where
  atom := by
    intro a w
    constructor
    · rintro ⟨⟩
      rfl
    · rintro rfl
      exact .atom a
  node := by
    intro shape vs w
    constructor
    · rintro (_ | h)
      exact ⟨_, rfl, h⟩
    · rintro ⟨ws, rfl, h⟩
      exact .node h
  closure := by
    rintro names vs params body w (_ | _ | h)
    exact ⟨_, _, _, _, rfl⟩

mutual
theorem Val.Alike.mono {call call' : Val → Val → Prop} (h : ∀ c c', call c c' → call' c c') :
    ∀ {v w : Val}, v.Alike call w → v.Alike call' w
  | .atom a, _, .atom _ => .atom a
  | .node _ _, _, .node hvs => .node (Val.Alike.monoAll h hvs)
  | .closure .., _, .closure hc => .closure (h _ _ hc)
theorem Val.Alike.monoAll {call call' : Val → Val → Prop} (h : ∀ c c', call c c' → call' c c') :
    ∀ {vs ws : List Val}, Forall₂ (Val.Alike call) vs ws → Forall₂ (Val.Alike call') vs ws
  | [], _, .nil => .nil
  | _ :: _, _, .cons hv hvs => .cons (hv.mono h) (Val.Alike.monoAll h hvs)
end

section Index

variable {rt : Runtime} {j k : Nat}

theorem Calls.mono (h : j ≤ k) {c c' : Val} (hc : Calls rt k c c') : Calls rt j c c' := by
  unfold Calls at hc ⊢
  exact fun i hi => hc i (Nat.lt_of_lt_of_le hi h)

theorem Val.Approx.mono (h : j ≤ k) {v w : Val} (hv : v.Approx rt k w) : v.Approx rt j w :=
  Val.Alike.mono (fun _ _ hc => hc.mono h) hv

theorem approxAll_mono (h : j ≤ k) {vs ws : List Val} (hvs : Forall₂ (Val.Approx rt k) vs ws) :
    Forall₂ (Val.Approx rt j) vs ws :=
  hvs.imp fun _ _ hv => hv.mono h

end Index

section Nodes

variable {rt : Runtime} {k : Nat} {ρ ρ' : Env} {e e' : Expr}

theorem structural_approx (rt : Runtime) (k : Nat) : Structural (Val.Approx rt k) :=
  structural_alike _

theorem approx_all {es es' : List Expr} (h : Forall₂ (fun e e' => Approx rt k ρ e ρ' e') es es')
    {vs : List Val} {m : Nat} (hvs : EvalsAll rt ρ es vs m) (hm : m ≤ k) :
    ∃ ws l, EvalsAll rt ρ' es' ws l ∧ Forall₂ (Val.Approx rt (k - m)) vs ws := by
  induction h generalizing vs m with
  | nil =>
    obtain ⟨rfl, rfl⟩ := evalsAll_nil.1 hvs
    exact ⟨[], 0, evalsAll_nil.2 ⟨rfl, rfl⟩, .nil⟩
  | cons he _ ih =>
    obtain ⟨v, a, vs, b, hv, hrest, rfl, rfl⟩ := evalsAll_cons.1 hvs
    obtain ⟨w, l, hw, hvw⟩ := he v a hv (by omega)
    obtain ⟨ws, l', hws, hvsws⟩ := ih hrest (by omega)
    exact ⟨w :: ws, l + l', evalsAll_cons.2 ⟨w, l, ws, l', hw, hws, rfl, rfl⟩,
      .cons (hvw.mono (by omega)) (approxAll_mono (by omega) hvsws)⟩

theorem approx_head {head : Head} {parts parts' : List Expr}
    (hform : e.form.head? = some (head, parts)) (hform' : e'.form.head? = some (head, parts'))
    (hty : e'.ty = e.ty) (h : Forall₂ (fun p p' => Approx rt k ρ p ρ' p') parts parts') :
    Approx rt k ρ e ρ' e' := by
  intro v m hv hm
  obtain ⟨vs, hvs, hcombine⟩ := (evals_head hform).1 hv
  obtain ⟨ws, l, hws, hvsws⟩ := approx_all h hvs hm
  obtain ⟨w, hw, hvw⟩ := (structural_approx rt (k - m)).combine hvsws hcombine
  exact ⟨w, l, (evals_head hform').2 ⟨ws, hws, hty ▸ hw⟩, hvw⟩

theorem approx_ite {c y n c' y' n' : Expr} {ty ty' : Ty} (hc : Approx rt k ρ c ρ' c')
    (hy : Approx rt k ρ y ρ' y') (hn : Approx rt k ρ n ρ' n') :
    Approx rt k ρ ⟨.ite c y n, ty⟩ ρ' ⟨.ite c' y' n', ty'⟩ := by
  intro v m hv hm
  obtain ⟨b, l, i, hb, hbranch, rfl⟩ := evals_ite.1 hv
  obtain ⟨w, l', hw, hbw⟩ := hc _ l hb (by omega)
  obtain rfl := (structural_approx rt _).atom.1 hbw
  have hchosen : Approx rt k ρ (if b then y else n) ρ' (if b then y' else n') := by
    cases b
    · exact hn
    · exact hy
  obtain ⟨w, i', hw', hvw⟩ := hchosen v i hbranch (by omega)
  exact ⟨w, l' + i', evals_ite.2 ⟨b, l', i', hw, hw', rfl⟩, hvw.mono (by omega)⟩

/-- A call costs one, so its function is only needed for fewer calls. -/
theorem approx_apply {function function' : Expr} {args args' : List Expr} {ty ty' : Ty}
    (hf : Approx rt k ρ function ρ' function')
    (hargs : Forall₂ (fun a a' => Approx rt k ρ a ρ' a') args args') :
    Approx rt k ρ ⟨.apply function args, ty⟩ ρ' ⟨.apply function' args', ty'⟩ := by
  intro v m hv hm
  obtain ⟨c, l, vs, i, ρ₁, body, n, hc, hvs, henter, hbody, rfl⟩ := evals_apply.1 hv
  obtain ⟨c', l', hc', hcc'⟩ := hf c l hc (by omega)
  obtain ⟨ws, i', hws, hvsws⟩ := approx_all hargs hvs (by omega)
  obtain ⟨names, values, params, rfl, -, -⟩ := Val.enter?_eq_some.1 henter
  cases hcc' with
  | closure hcalls =>
    unfold Calls at hcalls
    obtain ⟨ρ₁', body', w, n', henter', hw, hvw⟩ := hcalls (k - l - i - 1) (by omega) vs ws
      (approxAll_mono (by omega) hvsws) ρ₁ body v n henter hbody (by omega)
    refine ⟨w, _, evals_apply.2 ⟨_, l', ws, i', ρ₁', body', n', hc', hws, henter', hw, rfl⟩, ?_⟩
    exact Val.Approx.mono (by omega) hvw

/-- The environment inside a call of a closure. -/
def Env.called (ρ : Env) (names : List String) (args : List Val) : Env :=
  (names.zip args).reverse ++ ρ

theorem called_cons {y : String} {ys : List String} {u : Val} {us : List Val} :
    ρ.called (y :: ys) (u :: us) = Env.called ((y, u) :: ρ) ys us := by
  simp [Env.called]

theorem approx_closure {params params' : List Param} {body body' : Expr} {ty ty' : Ty}
    (hlength : params'.length = params.length)
    (h : ∀ j < k, ∀ vs ws, Forall₂ (Val.Approx rt j) vs ws → params.length = vs.length →
      Approx rt j (ρ.called (params.map Param.name) vs) body
        (ρ'.called (params'.map Param.name) ws) body') :
    Approx rt k ρ ⟨.closure params body, ty⟩ ρ' ⟨.closure params' body', ty'⟩ := by
  intro v m hv hm
  obtain ⟨rfl, rfl⟩ := evals_closure.1 hv
  refine ⟨_, 0, evals_closure.2 ⟨rfl, rfl⟩, .closure ?_⟩
  unfold Calls
  intro j hj vs ws hvsws ρ₁ body₁ v i henter hbody hi
  obtain ⟨_, _, _, hclosure, hcount, rfl⟩ := Val.enter?_eq_some.1 henter
  cases hclosure
  rw [← List.zip_of_prod rfl rfl] at hbody
  obtain ⟨w, l, hw, hvw⟩ := h j (by omega) vs ws hvsws hcount v i hbody hi
  refine ⟨_, body', w, l, Val.enter?_eq_some.2 ⟨_, _, _, rfl, ?_, rfl⟩, ?_, hvw⟩
  · rw [hlength, hcount, hvsws.length_eq]
  · rw [← List.zip_of_prod rfl rfl]
    exact hw

theorem approx_cases {s s' : Expr} {arms arms' : List (Pattern × Expr)} {ty ty' : Ty}
    (hs : Approx rt k ρ s ρ' s')
    (harms : ∀ j ≤ k, ∀ v w, v.Approx rt j w → ∀ bindings body,
      firstMatch arms v = some (bindings, body) → ∃ bindings' body',
        firstMatch arms' w = some (bindings', body') ∧
        Approx rt j (bindings ++ ρ) body (bindings' ++ ρ') body') :
    Approx rt k ρ ⟨.cases s arms, ty⟩ ρ' ⟨.cases s' arms', ty'⟩ := by
  intro v m hv hm
  obtain ⟨u, l, bindings, body, i, hu, hmatch, hbody, rfl⟩ := evals_cases.1 hv
  obtain ⟨u', l', hu', huu'⟩ := hs u l hu (by omega)
  obtain ⟨bindings', body', hmatch', happrox⟩ :=
    harms (k - l) (by omega) u u' huu' bindings body hmatch
  obtain ⟨w, i', hw, hvw⟩ := happrox v i hbody (by omega)
  exact ⟨w, l' + i', evals_cases.2 ⟨u', l', bindings', body', i', hu', hmatch', hw, rfl⟩,
    hvw.mono (by omega)⟩

theorem approx_block {b b' : Block} {ty ty' : Ty} (h : ApproxBlock rt k ρ b ρ' b') :
    Approx rt k ρ ⟨.block b, ty⟩ ρ' ⟨.block b', ty'⟩ := by
  intro v m hv hm
  obtain ⟨w, l, hw, hvw⟩ := h v m (evals_block.1 hv) hm
  exact ⟨w, l, evals_block.2 hw, hvw⟩

theorem approxBlock_done {result result' : Option Expr}
    (h : Option.Rel (fun e e' => Approx rt k ρ e ρ' e') result result') :
    ApproxBlock rt k ρ (.done result) ρ' (.done result') := by
  intro v m hv hm
  cases h with
  | none =>
    obtain ⟨rfl, rfl⟩ := evalsBlock_done_none.1 hv
    exact ⟨Val.unit, 0, evalsBlock_done_none.2 ⟨rfl, rfl⟩, .node .nil⟩
  | some h => exact h v m hv hm

theorem approxBlock_bind {x x' : String} {t t' : Ty} {mutable mutable' : Bool} {rest rest' : Block}
    (he : Approx rt k ρ e ρ' e')
    (hrest : ∀ j ≤ k, ∀ v w, v.Approx rt j w →
      ApproxBlock rt j ((x, v) :: ρ) rest ((x', w) :: ρ') rest') :
    ApproxBlock rt k ρ (.bind x t mutable (some e) rest) ρ'
      (.bind x' t' mutable' (some e') rest') := by
  intro v m hv hm
  obtain ⟨u, l, i, hu, hblock, rfl⟩ := evalsBlock_bind.1 hv
  obtain ⟨u', l', hu', huu'⟩ := he u l hu (by omega)
  obtain ⟨w, i', hw, hvw⟩ := hrest (k - l) (by omega) u u' huu' v i hblock (by omega)
  exact ⟨w, l' + i', evalsBlock_bind.2 ⟨u', l', i', hu', hw, rfl⟩, hvw.mono (by omega)⟩

theorem approxBlock_hide {x x' : String} {t t' : Ty} {mutable mutable' : Bool} {rest rest' : Block}
    (h : ApproxBlock rt k (ρ.hide x) rest (ρ'.hide x') rest') :
    ApproxBlock rt k ρ (.bind x t mutable none rest) ρ' (.bind x' t' mutable' none rest') := by
  intro v m hv hm
  obtain ⟨w, l, hw, hvw⟩ := h v m (evalsBlock_hide.1 hv) hm
  exact ⟨w, l, evalsBlock_hide.2 hw, hvw⟩

theorem approxBlock_exec {rest rest' : Block} (he : Approx rt k ρ e ρ' e')
    (hrest : ApproxBlock rt k ρ rest ρ' rest') :
    ApproxBlock rt k ρ (.exec e rest) ρ' (.exec e' rest') := by
  intro v m hv hm
  obtain ⟨u, l, i, hu, hblock, rfl⟩ := evalsBlock_exec.1 hv
  obtain ⟨u', l', hu', -⟩ := he u l hu (by omega)
  obtain ⟨w, i', hw, hvw⟩ := hrest v i hblock (by omega)
  exact ⟨w, l' + i', evalsBlock_exec.2 ⟨u', l', i', hu', hw, rfl⟩, hvw.mono (by omega)⟩

end Nodes

mutual
/-- A match binds the names of its pattern. -/
theorem names_of_bind? : ∀ (p : Pattern) {v : Val} {bindings : Env},
    p.bind? v = some bindings → bindings.map Prod.fst = p.bindings
  | .ident _ _, _, _, h | .wildcard, _, _, h => by
    obtain rfl := Option.some.inj h
    rfl
  | .tuple items, v, _, h => by
    cases v with
    | node shape parts =>
      cases shape with
      | tuple => exact names_of_bindAll? items (by simpa only [Pattern.bind?] using h)
      | _ => cases h
    | _ => cases h
  | .some inner, _, _, h => by
    simp only [Pattern.bind?] at h
    split at h
    · cases h
    · exact names_of_bind? inner h
  | .literal value, v, _, h => by
    cases v with
    | atom a =>
      simp only [Pattern.bind?] at h
      split at h
      · obtain rfl := Option.some.inj h
        rfl
      · cases h
    | _ => cases h
theorem names_of_bindAll? : ∀ (ps : List Pattern) {vs : List Val} {bindings : Env},
    Pattern.bindAll? ps vs = some bindings → bindings.map Prod.fst = Pattern.bindingsAll ps
  | [], [], _, h => by
    obtain rfl := Option.some.inj h
    rfl
  | [], _ :: _, _, h | _ :: _, [], _, h => by cases h
  | p :: ps, v :: vs, _, h => by
    simp only [Pattern.bindAll?, Option.bind_eq_bind, Option.bind_eq_some_iff] at h
    obtain ⟨bs, hbs, bs', hbs', hsum⟩ := h
    obtain rfl := Option.some.inj hsum
    rw [List.map_append, names_of_bind? p hbs, names_of_bindAll? ps hbs']
    rfl
end

/-- The chosen arm, and the names it binds, the last one first. -/
theorem arm_of_firstMatch {arms : List (Pattern × Expr)} {v : Val} {bindings : Env} {body : Expr}
    (h : firstMatch arms v = some (bindings, body)) :
    ∃ p, (p, body) ∈ arms ∧ bindings.map Prod.fst = p.bindings.reverse := by
  induction arms with
  | nil => cases h
  | cons arm arms ih =>
    obtain ⟨p, e⟩ := arm
    unfold firstMatch at h
    split at h
    · rename_i hbind
      obtain ⟨rfl, rfl⟩ := Prod.mk.inj (Option.some.inj h)
      exact ⟨p, by simp, by rw [List.map_reverse, names_of_bind? p hbind]⟩
    · obtain ⟨q, hq, hnames⟩ := ih h
      exact ⟨q, by simp [hq], hnames⟩

section Reflexive

variable {rt : Runtime} {k n : Nat} {ρ ρ' : Env}

/-- The variables have alike values in both environments. -/
def SameVars (rt : Runtime) (k : Nat) (xs : List String) (ρ ρ' : Env) : Prop :=
  ∀ x ∈ xs, ∀ v, ρ.lookup x = some v → ∃ w, ρ'.lookup x = some w ∧ v.Approx rt k w

theorem SameVars.mono {xs ys : List String} {j : Nat} (h : SameVars rt k xs ρ ρ') (hj : j ≤ k)
    (hxs : ∀ x ∈ ys, x ∈ xs) : SameVars rt j ys ρ ρ' := by
  intro x hx v hv
  obtain ⟨w, hw, hvw⟩ := h x (hxs x hx) v hv
  exact ⟨w, hw, hvw.mono hj⟩

theorem SameVars.append {xs ys : List String} (h : SameVars rt k xs ρ ρ') {bs bs' : Env}
    (hbs : Forall₂ (Bound (Val.Approx rt k)) bs bs')
    (hys : ∀ x ∈ ys, x ∉ bs.map Prod.fst → x ∈ xs) : SameVars rt k ys (bs ++ ρ) (bs' ++ ρ') := by
  induction hbs generalizing ys with
  | nil => exact h.mono (Nat.le_refl k) fun x hx => hys x hx (by simp)
  | @cons b b' bs bs' hb _ ih =>
    intro x hx v hv
    rw [List.cons_append, lookup_cons_eq] at hv ⊢
    rw [← hb.1]
    split_ifs at hv ⊢ with heq
    · exact ⟨_, rfl, Option.some.inj hv ▸ hb.2⟩
    · have hrest : SameVars rt k (ys.filter (· ≠ b.1)) (bs ++ ρ) (bs' ++ ρ') := by
        refine ih fun y hy hnot => ?_
        have hy := List.mem_filter.1 hy
        exact hys y hy.1 (by simpa using ⟨by simpa using hy.2, by simpa using hnot⟩)
      exact hrest x (by simp [hx, heq]) v hv

theorem SameVars.hide {xs ys : List String} (h : SameVars rt k xs ρ ρ') {name : String}
    (hys : ∀ x ∈ ys, x ≠ name → x ∈ xs) : SameVars rt k ys (ρ.hide name) (ρ'.hide name) := by
  intro x hx v hv
  rw [Env.lookup_hide] at hv ⊢
  split_ifs at hv ⊢ with heq
  exact h x (hys x hx heq) v hv

/-- Expressions up to a depth approximate themselves. -/
def Reflexive (rt : Runtime) (n : Nat) : Prop :=
  ∀ e : Expr, e.depth ≤ n → ∀ k ρ ρ', SameVars rt k e.free ρ ρ' → Approx rt k ρ e ρ' e

theorem Reflexive.all (h : Reflexive rt n) {es : List Expr} (hdepth : Expr.depthAll es ≤ n)
    (hsame : SameVars rt k (Expr.freeAll es) ρ ρ') :
    Forall₂ (fun e e' => Approx rt k ρ e ρ' e') es es := by
  refine List.forall₂_same.2 fun e he => ?_
  exact h e (Nat.le_trans (depth_le_depthAll he) hdepth) k ρ ρ'
    (hsame.mono (Nat.le_refl k) fun x hx => mem_freeAll.2 ⟨e, he, hx⟩)

theorem Reflexive.option (h : Reflexive rt n) {o : Option Expr} (hdepth : Expr.depthOption o ≤ n)
    (hsame : SameVars rt k (Expr.freeOption o) ρ ρ') :
    Option.Rel (fun e e' => Approx rt k ρ e ρ' e') o o := by
  cases o with
  | none => exact .none
  | some e => exact .some (h e hdepth k ρ ρ' hsame)

theorem Reflexive.block (h : Reflexive rt n) : ∀ (b : Block), Expr.depthBlock b ≤ n →
    ∀ k ρ ρ', SameVars rt k (Expr.freeBlock b) ρ ρ' → ApproxBlock rt k ρ b ρ' b
  | .done result, hdepth, k, ρ, ρ', hsame => approxBlock_done (h.option hdepth hsame)
  | .bind name ty mutable none rest, hdepth, k, ρ, ρ', hsame => by
    refine approxBlock_hide (h.block rest ?_ k _ _ (hsame.hide fun x hx hne => ?_))
    · simpa [Expr.depthBlock, Expr.depthOption] using hdepth
    · simp [Expr.freeBlock, hx, hne]
  | .bind name ty mutable (some e) rest, hdepth, k, ρ, ρ', hsame => by
    simp only [Expr.depthBlock, Expr.depthOption, Nat.max_le] at hdepth
    have hinit := h e hdepth.1 k ρ ρ'
      (hsame.mono (Nat.le_refl k) fun x hx => by simp [Expr.freeBlock, Expr.freeOption, hx])
    refine approxBlock_bind hinit fun j hj v w hvw => h.block rest hdepth.2 j _ _ ?_
    have hbound : Forall₂ (Bound (Val.Approx rt j)) [(name, v)] [(name, w)] :=
      .cons ⟨rfl, hvw⟩ .nil
    refine (hsame.mono hj fun x hx => hx).append hbound fun x hx hne => ?_
    have hne : x ≠ name := by simpa using hne
    simp [Expr.freeBlock, hx, hne]
  | .exec e rest, hdepth, k, ρ, ρ', hsame => by
    simp only [Expr.depthBlock, Nat.max_le] at hdepth
    refine approxBlock_exec (h e hdepth.1 k ρ ρ' (hsame.mono (Nat.le_refl k) fun x hx => ?_))
      (h.block rest hdepth.2 k ρ ρ' (hsame.mono (Nat.le_refl k) fun x hx => ?_))
    · simp [Expr.freeBlock, hx]
    · simp [Expr.freeBlock, hx]

theorem mem_freeArms {arms : List (Pattern × Expr)} {p : Pattern} {body : Expr} {x : String}
    (harm : (p, body) ∈ arms) (hx : x ∈ body.free) (hp : x ∉ p.bindings) :
    x ∈ Expr.freeArms arms := by
  induction arms with
  | nil => cases harm
  | cons arm arms ih =>
    unfold Expr.freeArms
    rcases List.mem_cons.1 harm with rfl | harm
    · simp [hx, hp]
    · simp [ih harm]

theorem depth_le_depthArms {arms : List (Pattern × Expr)} {p : Pattern} {body : Expr}
    (harm : (p, body) ∈ arms) : body.depth ≤ Expr.depthArms arms := by
  induction arms with
  | nil => cases harm
  | cons arm arms ih =>
    unfold Expr.depthArms
    rcases List.mem_cons.1 harm with rfl | harm
    · exact Nat.le_max_left _ _
    · exact Nat.le_trans (ih harm) (Nat.le_max_right _ _)

theorem names_called {names : List String} {vs : List Val} (h : names.length = vs.length) :
    (names.zip vs).reverse.map Prod.fst = names.reverse := by
  rw [List.map_reverse, List.map_fst_zip (by omega)]

theorem reflexive_succ (h : Reflexive rt n) : Reflexive rt (n + 1) := by
  rintro ⟨form, ty⟩ hdepth k ρ ρ' hsame
  cases hhead : form.head? with
  | some r =>
    obtain ⟨hfree, hdepth'⟩ := free_depth_of_head? (e := ⟨form, ty⟩) hhead
    rw [hfree] at hsame
    exact approx_head hhead hhead rfl (h.all (by omega) hsame)
  | none =>
    cases form with
    | var name =>
      intro v m hv hm
      obtain ⟨hlookup, rfl⟩ := evals_var.1 hv
      obtain ⟨w, hw, hvw⟩ := hsame name (by simp [Expr.free]) v hlookup
      exact ⟨w, 0, evals_var.2 ⟨hw, rfl⟩, hvw⟩
    | apply function args =>
      simp only [Expr.depth, Nat.add_le_add_iff_right, Nat.max_le] at hdepth
      simp only [Expr.free] at hsame
      exact approx_apply
        (h function hdepth.1 k ρ ρ' (hsame.mono (Nat.le_refl k) fun x hx => by simp [hx]))
        (h.all hdepth.2 (hsame.mono (Nat.le_refl k) fun x hx => by simp [hx]))
    | closure params body =>
      simp only [Expr.depth, Nat.add_le_add_iff_right] at hdepth
      simp only [Expr.free] at hsame
      refine approx_closure rfl fun j hj vs ws hvsws hcount => h body hdepth j _ _ ?_
      refine (hsame.mono (Nat.le_of_lt hj) fun x hx => hx).append
        (List.rel_reverse (zip_bound hvsws _)) fun x hx hnot => ?_
      rw [names_called (by simpa using hcount)] at hnot
      exact List.mem_filter.2 ⟨hx, by simpa using hnot⟩
    | block body =>
      simp only [Expr.depth, Nat.add_le_add_iff_right] at hdepth
      exact approx_block (h.block body hdepth k ρ ρ' hsame)
    | ite c y n =>
      simp only [Expr.depth, Nat.add_le_add_iff_right, Nat.max_le] at hdepth
      simp only [Expr.free] at hsame
      exact approx_ite
        (h c hdepth.1 k ρ ρ' (hsame.mono (Nat.le_refl k) fun x hx => by simp [hx]))
        (h y hdepth.2.1 k ρ ρ' (hsame.mono (Nat.le_refl k) fun x hx => by simp [hx]))
        (h n hdepth.2.2 k ρ ρ' (hsame.mono (Nat.le_refl k) fun x hx => by simp [hx]))
    | cases s arms =>
      simp only [Expr.depth, Nat.add_le_add_iff_right, Nat.max_le] at hdepth
      simp only [Expr.free] at hsame
      refine approx_cases
        (h s hdepth.1 k ρ ρ' (hsame.mono (Nat.le_refl k) fun x hx => by simp [hx])) ?_
      intro j hj v w hvw bindings body hmatch
      obtain ⟨bindings', hmatch', hbound⟩ := (structural_approx rt j).firstMatch hvw hmatch
      obtain ⟨p, harm, hnames⟩ := arm_of_firstMatch hmatch
      refine ⟨bindings', body, hmatch', h body ?_ j _ _ ?_⟩
      · exact Nat.le_trans (depth_le_depthArms harm) hdepth.2
      · refine (hsame.mono hj fun x hx => hx).append hbound fun x hx hnot => ?_
        rw [hnames] at hnot
        exact List.mem_append_right _ (mem_freeArms harm hx (by simpa using hnot))
    | literal value => cases value <;> cases hhead
    | _ => cases hhead

theorem reflexive (rt : Runtime) : ∀ n, Reflexive rt n
  | 0 => fun e he => by
    have hpos : 0 < e.depth := by
      obtain ⟨form, ty⟩ := e
      cases form with
      | literal value => cases value <;> simp [Expr.depth]
      | _ => simp [Expr.depth]
    omega
  | n + 1 => reflexive_succ (reflexive rt n)

/-- An expression approximates itself where its variables have alike values. -/
theorem approx_refl {e : Expr} (h : SameVars rt k e.free ρ ρ') : Approx rt k ρ e ρ' e :=
  reflexive rt e.depth e (Nat.le_refl _) k ρ ρ' h

mutual
theorem Val.Approx.refl (rt : Runtime) (k : Nat) : ∀ v : Val, v.Approx rt k v
  | .atom a => .atom a
  | .node _ vs => .node (approxAll_refl rt k vs)
  | .closure names values params body => by
    refine .closure ?_
    unfold Calls
    intro j hj vs ws hvsws ρ body' v m henter hv hm
    obtain ⟨_, _, _, hclosure, hcount, rfl⟩ := Val.enter?_eq_some.1 henter
    cases hclosure
    have hsame : SameVars rt j body.free
        (((params.map Param.name).zip vs).reverse ++ names.zip values)
        (((params.map Param.name).zip ws).reverse ++ names.zip values) := by
      have hbase : SameVars rt j body.free (names.zip values) (names.zip values) := by
        intro x _ v hv
        exact lookup_bound (zip_bound (approxAll_refl rt j values) names) hv
      exact hbase.append (List.rel_reverse (zip_bound hvsws _)) fun x hx _ => hx
    obtain ⟨w, l, hw, hvw⟩ := approx_refl hsame v m hv hm
    exact ⟨_, body, w, l,
      Val.enter?_eq_some.2 ⟨_, _, _, rfl, hcount.trans hvsws.length_eq, rfl⟩, hw, hvw⟩
theorem approxAll_refl (rt : Runtime) (k : Nat) : ∀ vs : List Val, Forall₂ (Val.Approx rt k) vs vs
  | [] => .nil
  | v :: vs => .cons (Val.Approx.refl rt k v) (approxAll_refl rt k vs)
end

end Reflexive

section Transitive

variable {rt : Runtime} {k : Nat} {ρ ρ' : Env}

/-- Values alike for any number of calls. -/
def Val.Equiv (rt : Runtime) (v w : Val) : Prop := ∀ k, v.Approx rt k w

/-- What one environment gives for every bound is one value, since evaluation has one outcome. -/
theorem equiv_of_approx {e e' : Expr} (h : ∀ k, Approx rt k ρ e ρ' e') {v : Val} {m : Nat}
    (hv : Evals rt ρ e v m) : ∃ w l, Evals rt ρ' e' w l ∧ v.Equiv rt w := by
  obtain ⟨w, l, hw, -⟩ := h m v m hv (Nat.le_refl m)
  refine ⟨w, l, hw, fun k => ?_⟩
  obtain ⟨w', l', hw', hvw'⟩ := h (k + m) v m hv (Nat.le_add_left m k)
  obtain ⟨rfl, rfl⟩ := hw.unique hw'
  simpa using hvw'

/-- Approximation up to a bound can be followed by equivalence. -/
def Composes (rt : Runtime) (k : Nat) : Prop :=
  ∀ {u v w : Val}, u.Approx rt k v → v.Equiv rt w → u.Approx rt k w

theorem Calls.trans (ih : ∀ j < k, Composes rt j)
    {c c' c'' : Val} (h : Calls rt k c c') (h' : ∀ i, Calls rt i c' c'') : Calls rt k c c'' := by
  unfold Calls at h ⊢
  intro j hj vs ws hvsws ρ body v m henter hv hm
  obtain ⟨ρ', body', v', l, henter', hv', hvv'⟩ := h j hj vs ws hvsws ρ body v m henter hv hm
  have hcall : ∀ i, ∃ ρ'' body'' w l', c''.enter? ws = some (ρ'', body'') ∧
      Evals rt ρ'' body'' w l' ∧ v'.Approx rt i w := by
    intro i
    have hstep := h' (l + i + 1)
    unfold Calls at hstep
    obtain ⟨ρ'', body'', w, l', henter'', hw, hvw⟩ := hstep (l + i) (by omega) ws ws
      (approxAll_refl rt _ ws) ρ' body' v' l henter' hv' (by omega)
    exact ⟨ρ'', body'', w, l', henter'', hw, Val.Approx.mono (by omega) hvw⟩
  obtain ⟨ρ'', body'', w, l', henter'', hw, -⟩ := hcall 0
  refine ⟨ρ'', body'', w, l', henter'', hw, ih (j - m) (by omega) hvv' fun i => ?_⟩
  obtain ⟨_, _, w', _, henter', hw', hvw'⟩ := hcall i
  obtain ⟨rfl, rfl⟩ := Prod.mk.inj (Option.some.inj (henter''.symm.trans henter'))
  obtain ⟨rfl, rfl⟩ := hw.unique hw'
  exact hvw'

mutual
theorem trans_step (ih : ∀ j < k, Composes rt j) : ∀ {u v w : Val}, u.Approx rt k v →
    v.Equiv rt w → u.Approx rt k w
  | .atom a, _, w, .atom _, h => by
    obtain rfl := (structural_approx rt 0).atom.1 (h 0)
    exact .atom a
  | .node shape us, .node _ vs, w, .node hus, h => by
    obtain ⟨ws, rfl, -⟩ := (structural_approx rt 0).node.1 (h 0)
    refine .node (trans_stepAll ih hus fun i => ?_)
    obtain ⟨ws', hws', hvs⟩ := (structural_approx rt i).node.1 (h i)
    cases hws'
    exact hvs
  | .closure .., .closure .., w, .closure hc, h => by
    obtain ⟨_, _, _, _, rfl⟩ := (structural_approx rt 0).closure (h 0)
    refine .closure (hc.trans ih fun i => ?_)
    cases h i with
    | closure hc' => exact hc'
theorem trans_stepAll (ih : ∀ j < k, Composes rt j) :
    ∀ {us vs ws : List Val}, Forall₂ (Val.Approx rt k) us vs →
    (∀ i, Forall₂ (Val.Approx rt i) vs ws) → Forall₂ (Val.Approx rt k) us ws
  | [], _, ws, .nil, h => by
    cases h 0
    exact .nil
  | u :: us, v :: vs, ws, .cons hu hus, h => by
    cases ws with
    | nil => cases h 0
    | cons w ws =>
      refine .cons (trans_step ih hu fun i => ?_) (trans_stepAll ih hus fun i => ?_)
      · cases h i with
        | cons hv _ => exact hv
      · cases h i with
        | cons _ hvs => exact hvs
end

theorem Val.Approx.trans {u v w : Val} (h : u.Approx rt k v) (h' : v.Equiv rt w) :
    u.Approx rt k w := by
  induction k using Nat.strongRecOn generalizing u v w with
  | ind k ih => exact trans_step (fun j hj => ih j hj) h h'

/-- An expression keeps its value where its variables keep theirs. -/
theorem evals_of_same {e : Expr} (h : ∀ x ∈ e.free, ρ'.lookup x = ρ.lookup x) {v : Val} {m : Nat}
    (hv : Evals rt ρ e v m) : ∃ w l, Evals rt ρ' e w l ∧ v.Equiv rt w := by
  refine equiv_of_approx (fun k => approx_refl fun x hx v hlookup => ?_) hv
  exact ⟨v, (h x hx).trans hlookup, Val.Approx.refl rt k v⟩

end Transitive

end ViewCircuit
