import ViewCircuit.Proofs.Traversal

/-! Expressions in which no literal closure is applied. A reduction leaves them as they are. -/
namespace ViewCircuit

/-- What a traversal enters from a block. -/
def Block.parts : Block → List Expr
  | .done result => result.toList
  | .bind _ _ _ init rest => init.toList ++ rest.parts
  | .exec e rest => e :: rest.parts

/-- What a traversal enters from a node. Literals in patterns are constants and not among it. -/
def Form.parts : Form → List Expr
  | .var _ => []
  | .apply function args => function :: args
  | .closure _ body => [body]
  | .block body => body.parts
  | .ite condition yes no => [condition, yes, no]
  | .cases scrutinee arms => scrutinee :: arms.map Prod.snd
  | .literal value => ((Form.literal value).head?.map Prod.snd).getD []
  | .field base _ => [base]
  | .unary _ operand | .cast operand | .isNull operand | .borrow operand | .deref operand
  | .some operand => [operand]
  | .binary _ left right => [left, right]
  | .call _ es | .tuple es | .rawTuple es | .struct _ es => es
  | .range start stop _ => start.toList ++ stop.toList
  | .fold zero increment post => [zero, increment, post]

theorem parts_of_head? {form : Form} {head : Head} {parts : List Expr}
    (h : form.head? = some (head, parts)) : form.parts = parts := by
  cases form with
  | literal value => rw [Form.parts, h, Option.map_some, Option.getD_some]
  | var | apply | closure | block | ite | cases => cases h
  | _ =>
    obtain ⟨-, rfl⟩ := Prod.mk.inj (Option.some.inj h)
    rfl

theorem Block.depth_le {e : Expr} : ∀ {b : Block}, e ∈ b.parts → e.depth ≤ Expr.depthBlock b
  | .done none, h => nomatch h
  | .done (some e'), h => by
    obtain rfl := List.mem_singleton.1 h
    exact Nat.le_refl _
  | .bind _ _ _ init rest, h => by
    rw [Expr.depthBlock]
    rcases List.mem_append.1 h with h | h
    · cases init with
      | none => cases h
      | some e' =>
        obtain rfl := List.mem_singleton.1 h
        exact Nat.le_max_left _ _
    · exact Nat.le_trans (Block.depth_le h) (Nat.le_max_right _ _)
  | .exec e' rest, h => by
    rw [Expr.depthBlock]
    rcases List.mem_cons.1 h with rfl | h
    · exact Nat.le_max_left _ _
    · exact Nat.le_trans (Block.depth_le h) (Nat.le_max_right _ _)

theorem depth_lt_of_mem_parts {e part : Expr} (h : part ∈ e.form.parts) : part.depth < e.depth := by
  cases hhead : e.form.head? with
  | some r₀ =>
    obtain ⟨head, parts⟩ := r₀
    rw [parts_of_head? hhead] at h
    rw [(free_depth_of_head? hhead).2]
    exact Nat.lt_succ_of_le (depth_le_depthAll h)
  | none =>
    obtain ⟨form, ty⟩ := e
    cases form with
    | var => cases h
    | apply function args =>
      rw [Expr.depth]
      rcases List.mem_cons.1 h with rfl | h
      · omega
      · have := depth_le_depthAll h
        omega
    | closure params body =>
      obtain rfl := List.mem_singleton.1 h
      exact Nat.lt_succ_self _
    | block body => exact Nat.lt_succ_of_le (Block.depth_le h)
    | ite condition yes no =>
      rw [Expr.depth]
      simp only [Form.parts, List.mem_cons, List.not_mem_nil, or_false] at h
      rcases h with rfl | rfl | rfl <;> omega
    | cases scrutinee arms =>
      rw [Expr.depth]
      rcases List.mem_cons.1 h with rfl | h
      · omega
      · obtain ⟨arm, harm, rfl⟩ := List.mem_map.1 h
        have := depth_le_depthArms harm
        omega
    | literal value => cases value <;> cases hhead
    | _ => cases hhead

/-- A property of an expression and of all that traversals reach in it. -/
inductive Expr.Every (P : Expr → Prop) : Expr → Prop
  | intro {e : Expr} : P e → (∀ part ∈ e.form.parts, Every P part) → Every P e

namespace Expr.Every

variable {P Q : Expr → Prop} {e : Expr}

theorem self (h : e.Every P) : P e := by
  obtain ⟨hself, -⟩ := h
  exact hself

theorem part (h : e.Every P) : ∀ part ∈ e.form.parts, part.Every P := by
  obtain ⟨-, hparts⟩ := h
  exact hparts

theorem mono (h : e.Every P) (hPQ : ∀ x, P x → Q x) : e.Every Q := by
  induction h with
  | intro hself _ ih => exact .intro (hPQ _ hself) ih

end Expr.Every

mutual
/-- The literals of a pattern. -/
def Pattern.literals : Pattern → List Literal
  | .literal value => [value]
  | .tuple items => Pattern.literalsAll items
  | .some inner => inner.literals
  | .ident _ _ | .wildcard => []
def Pattern.literalsAll : List Pattern → List Literal
  | [] => []
  | p :: ps => p.literals ++ Pattern.literalsAll ps
end

mutual
theorem literals_rename (f : String → String) : ∀ p : Pattern, (p.rename f).literals = p.literals
  | .ident _ _ | .wildcard | .literal _ => rfl
  | .tuple items => literalsAll_renameAll f items
  | .some inner => literals_rename f inner
theorem literalsAll_renameAll (f : String → String) : ∀ ps : List Pattern,
    Pattern.literalsAll (Pattern.renameAll f ps) = Pattern.literalsAll ps
  | [] => rfl
  | p :: ps => congrArg₂ (· ++ ·) (literals_rename f p) (literalsAll_renameAll f ps)
end

def Literal.isNaN : Literal → Bool
  | .float x => x.isNaN
  | _ => false

mutual
theorem hasNaN_eq : ∀ p : Pattern, p.hasNaN = p.literals.any Literal.isNaN
  | .ident _ _ | .wildcard => rfl
  | .literal value => by cases value <;> simp [Pattern.hasNaN, Pattern.literals, Literal.isNaN]
  | .tuple items => by rw [Pattern.hasNaN, Pattern.literals, anyNaN_eq items]
  | .some inner => by rw [Pattern.hasNaN, Pattern.literals, hasNaN_eq inner]
theorem anyNaN_eq : ∀ ps : List Pattern,
    Pattern.anyNaN ps = (Pattern.literalsAll ps).any Literal.isNaN
  | [] => rfl
  | p :: ps => by
    rw [Pattern.anyNaN, Pattern.literalsAll, List.any_append, hasNaN_eq p, anyNaN_eq ps]
end

namespace Expr

/-- Literals of the patterns of a match, none for other nodes. -/
def patternLiterals (e : Expr) : List Literal :=
  match e.form with
  | .cases _ arms => arms.flatMap fun arm => arm.1.literals
  | _ => []

/-- Whether the node applies a literal closure. -/
def isRedex (e : Expr) : Bool :=
  match e.form with
  | .apply function _ => function.closure?.isSome
  | _ => false

theorem isRedex_of_head? {e : Expr} {head : Head} {parts : List Expr}
    (h : e.form.head? = some (head, parts)) : e.isRedex = false := by
  unfold isRedex
  split
  · rename_i happly
    rw [happly] at h
    cases h
  · rfl

theorem patternLiterals_of_head? {e : Expr} {head : Head} {parts : List Expr}
    (h : e.form.head? = some (head, parts)) : e.patternLiterals = [] := by
  unfold patternLiterals
  split
  · rename_i hcases
    rw [hcases] at h
    cases h
  · rfl

end Expr

def Form.isClosure : Form → Bool
  | .closure .. => true
  | _ => false

def Form.isIte : Form → Bool
  | .ite .. => true
  | _ => false

section Kinds

variable {form : Form} {head : Head} {parts : List Expr}

theorem isClosure_of_head? (h : form.head? = some (head, parts)) : form.isClosure = false := by
  cases form <;> first | rfl | cases h

theorem isIte_of_head? (h : form.head? = some (head, parts)) : form.isIte = false := by
  cases form <;> first | rfl | cases h

end Kinds

namespace Expr

/-- What a traversal keeps of a node: its type, the literals in its patterns, and whether it is a
closure or a conditional. -/
structure Alike (x y : Expr) : Prop where
  ty : y.ty = x.ty
  patterns : y.patternLiterals = x.patternLiterals
  closure : y.form.isClosure = x.form.isClosure
  ite : y.form.isIte = x.form.isIte

theorem alike_of_head? {x y : Expr} {head head' : Head} {parts parts' : List Expr}
    (hx : x.form.head? = some (head, parts)) (hy : y.form.head? = some (head', parts'))
    (hty : y.ty = x.ty) : x.Alike y where
  ty := hty
  patterns := by rw [patternLiterals_of_head? hx, patternLiterals_of_head? hy]
  closure := by rw [isClosure_of_head? hx, isClosure_of_head? hy]
  ite := by rw [isIte_of_head? hx, isIte_of_head? hy]

/-- No literal closure is applied, at any depth outside the literals of patterns. -/
def RedexFree (e : Expr) : Prop := e.Every fun x => x.isRedex = false

/-- All literals in patterns of matches have a property. -/
def PatternsSatisfy (Q : Literal → Prop) (e : Expr) : Prop :=
  e.Every fun x => ∀ l ∈ x.patternLiterals, Q l

theorem patternsSatisfy_node {Q : Literal → Prop} {e : Expr} (hliterals : e.patternLiterals = [])
    (hparts : ∀ part ∈ e.form.parts, part.PatternsSatisfy Q) : e.PatternsSatisfy Q :=
  .intro (by simp [hliterals]) hparts

theorem patternsSatisfy_leaf {Q : Literal → Prop} {e : Expr} (hliterals : e.patternLiterals = [])
    (hparts : e.form.parts = []) : e.PatternsSatisfy Q :=
  patternsSatisfy_node hliterals (by simp [hparts])

end Expr

namespace Reduce

/-- The step returns the expression as it is and leaves the state. -/
def Leaves (f : Expr → Reduce (Reduct Expr)) (s : Reducer) (e : Expr) : Prop :=
  f e s = (.ok (Reduct.kept e), s)

/-- Scopes that only hold bindings which leave their names as they are. -/
def Inert (Δ : Scopes) : Prop :=
  ∀ scope ∈ Δ.stack, scope.free = [] ∧ ∀ x b, scope.Has x b → b = .shadow

section Inert

variable {s : Reducer} {Δ : Scopes}

theorem inert_empty : Inert .empty := nofun

theorem Inert.taken (h : Inert Δ) : Δ.taken = [] := by
  refine List.eq_nil_iff_forall_not_mem.2 fun z hz => ?_
  obtain ⟨scope, hscope, hz⟩ := Scopes.mem_taken.1 hz
  obtain ⟨hfree, hshadow⟩ := h scope hscope
  rcases hz with hz | ⟨y, hy⟩
  · simp [hfree] at hz
  · cases hshadow y _ hy

theorem Inert.lookup? (h : Inert Δ) (x : String) :
    Δ.lookup? x = none ∨ Δ.lookup? x = some .shadow := by
  cases hx : Δ.lookup? x with
  | none => exact .inl rfl
  | some b =>
    obtain ⟨scope, hscope, hmem⟩ := Scopes.mem_of_lookup? hx
    exact .inr (congrArg some ((h scope hscope).2 x b hmem))

theorem Inert.push (h : Inert Δ) : Inert Δ.push := by
  intro scope hscope
  rcases List.mem_cons.1 hscope with rfl | hscope
  · exact ⟨rfl, fun x b hb => absurd hb Scope.not_has_empty⟩
  · exact h scope hscope

theorem Inert.set {top : Scope} {rest : List Scope}
    (h : Inert ⟨top :: rest⟩) (name : String) : Inert ⟨top.set name .shadow :: rest⟩ := by
  intro scope hscope
  rcases List.mem_cons.1 hscope with rfl | hscope
  · obtain ⟨hfree, hshadow⟩ := h top List.mem_cons_self
    refine ⟨hfree, fun x b hb => ?_⟩
    rcases Scope.has_set.1 hb with ⟨-, rfl⟩ | ⟨-, hb⟩
    · rfl
    · exact hshadow x b hb
  · exact h scope (List.mem_cons_of_mem _ hscope)

theorem bindName_inert (h : Inert s.scopes) {top : Scope} {rest : List Scope}
    (hstack : s.scopes.stack = top :: rest) (name : String) (avoid : List String) :
    bindName name avoid s = (.ok name, ⟨s.names, ⟨top.set name .shadow :: rest⟩⟩) := by
  have hcapture : s.scopes.wouldCapture name = false := by
    rw [Bool.eq_false_iff]
    intro hcapture
    have := Scopes.wouldCapture_iff.1 hcapture
    simp [h.taken] at this
  have htombstone : s.scopes.tombstone name = .ok ⟨top.set name .shadow :: rest⟩ := by
    simp [Scopes.tombstone, Scopes.modifyInnermost, hstack, Scope.set]
  exact bindName_of_free hcapture htombstone

theorem bindNames_inert (names avoid : List String) (drawn : Names) {top : Scope}
    {rest : List Scope} (h : Inert ⟨top :: rest⟩) :
    ∃ top', bindNames names avoid ⟨drawn, ⟨top :: rest⟩⟩ = (.ok names, ⟨drawn, ⟨top' :: rest⟩⟩) ∧
      Inert ⟨top' :: rest⟩ := by
  unfold bindNames
  induction names generalizing top with
  | nil => exact ⟨top, rfl, h⟩
  | cons name names ih =>
    obtain ⟨top', hrun, htop'⟩ := ih (h.set name)
    refine ⟨top', ?_, htop'⟩
    rw [List.mapM_cons]
    exact (run_bind_eq_ok _ _).2 ⟨name, _, bindName_inert h rfl name avoid,
      (run_bind_eq_ok _ _).2 ⟨names, _, hrun, rfl⟩⟩

end Inert

section Leaves

variable {f : Expr → Reduce (Reduct Expr)} {s : Reducer}

theorem each_of_leaves {es : List Expr} (h : ∀ e ∈ es, Leaves f s e) :
    Each f s es (es.map Reduct.kept) s := by
  induction es with
  | nil => exact .nil
  | cons e es ih => exact .cons (h e (by simp)) (ih fun e' he' => h e' (by simp [he']))

theorem gathered_kept {α : Type} (es : List Expr) (a : α) :
    gathered (es.map Reduct.kept) a = Reduct.kept a := by
  induction es with
  | nil => rfl
  | cons e es ih =>
    rw [gathered, Reduct.kept, Reduct.mk.injEq] at ih
    simpa [gathered, Reduct.kept] using ih.2

theorem all_of_leaves {es : List Expr} (h : ∀ e ∈ es, Leaves f s e) :
    all f es s = (.ok (Reduct.kept es), s) := by
  rw [all_of_each (each_of_leaves h), gathered_kept, List.map_map]
  exact congrArg (fun es => (Except.ok (Reduct.kept es), s)) (List.map_id es)

theorem node_of_leaves {e : Expr} {head : Head} {parts : List Expr}
    (hform : e.form.head? = some (head, parts)) (h : ∀ part ∈ parts, Leaves f s part) :
    Leaves (node f) s e := by
  unfold Leaves
  rw [node_of_each hform (each_of_leaves h), gathered_kept]
  rfl

/-- The step leaves the expression wherever it gets to it without something to substitute. -/
def Idle (f : Expr → Reduce (Reduct Expr)) (e : Expr) : Prop :=
  ∀ s, Inert s.scopes → Leaves f s e

theorem leaves_var (h : Inert s.scopes) {name : String} {ty : Ty} :
    Leaves (node f) s ⟨.var name, ty⟩ := by
  have hrun : node f ⟨.var name, ty⟩ s = occurrence ⟨.var name, ty⟩ name s := rfl
  unfold Leaves
  rw [hrun, occurrence_eq]
  rcases h.lookup? name with hx | hx <;> rw [hx]

theorem leaves_closure (h : Inert s.scopes) {params : List Param} {body : Expr} {ty : Ty}
    (hbody : Idle f body) : Leaves (node f) s ⟨.closure params body, ty⟩ := by
  obtain ⟨top, hbound, htop⟩ :=
    bindNames_inert (params.map Param.name) body.free s.names h.push
  change closure f _ params body s = _
  rw [closure_eq_inScope]
  refine inScope_of_run ⟨s.names, ⟨top :: s.scopes.stack⟩⟩ ?_ rfl
  refine (run_bind_eq_ok _ _).2 ⟨_, _, hbound, (run_bind_eq_ok _ _).2 ⟨_, _, hbody _ htop, ?_⟩⟩
  simp only [Reduct.kept, Reduct.map, Reduct.rebuild, bne_self_eq_false, Bool.or_self]
  rfl

theorem leaves_ite (h : Inert s.scopes) {condition yes no : Expr} {ty : Ty}
    (hcondition : Idle f condition) (hyes : Idle f yes) (hno : Idle f no) :
    Leaves (node f) s ⟨.ite condition yes no, ty⟩ :=
  (run_bind_eq_ok _ _).2 ⟨_, _, hcondition s h, (run_bind_eq_ok _ _).2
    ⟨_, _, hyes s h, (run_bind_eq_ok _ _).2 ⟨_, _, hno s h, rfl⟩⟩⟩

theorem leaves_apply (h : Inert s.scopes) {function : Expr} {args : List Expr} {ty : Ty}
    (hfunction : Idle f function) (hargs : ∀ arg ∈ args, Idle f arg)
    (hclosure : function.closure? = none) : Leaves (node f) s ⟨.apply function args, ty⟩ := by
  refine (run_bind_eq_ok _ _).2 ⟨_, _, all_of_leaves fun arg harg => hargs arg harg s h, ?_⟩
  simp only [hclosure]
  refine (run_bind_eq_ok _ _).2 ⟨_, _, hfunction s h, ?_⟩
  simp only [Reduct.kept, hclosure]
  rfl

theorem option_of_leaves {o : Option Expr} (h : ∀ e ∈ o.toList, Leaves f s e) :
    option f o s = (.ok (Reduct.kept o), s) := by
  rw [option_of_each (each_of_leaves h), gathered_kept]
  cases o <;> rfl

/-- The rest of a block stays, and so do the scopes around it. -/
theorem block_of_idle {avoid : List String} {names : Names} {outer : List Scope} : ∀ {b : Block}
    {top : Scope}, Inert ⟨top :: outer⟩ → (∀ part ∈ b.parts, Idle f part) →
    ∃ top', block f avoid b ⟨names, ⟨top :: outer⟩⟩ =
      (.ok (Reduct.kept b), ⟨names, ⟨top' :: outer⟩⟩)
  | .done result, top, h, hparts =>
    ⟨top, (run_bind_eq_ok _ _).2
      ⟨_, _, option_of_leaves fun part hpart => hparts part hpart _ h, rfl⟩⟩
  | .bind name ty mutable init rest, top, h, hparts => by
    obtain ⟨hinit, hrest⟩ := List.forall_mem_append.1 hparts
    obtain ⟨top', hrun⟩ := block_of_idle (h.set name) hrest
    refine ⟨top', (run_bind_eq_ok _ _).2
      ⟨_, _, option_of_leaves fun part hpart => hinit part hpart _ h, (run_bind_eq_ok _ _).2
        ⟨_, _, bindName_inert h rfl name avoid, (run_bind_eq_ok _ _).2 ⟨_, _, hrun, ?_⟩⟩⟩⟩
    change (Except.ok (Reduct.map₂ (Block.bind name ty mutable)
      ⟨init, false || name != name, 0⟩ (Reduct.kept rest)), _) = _
    simp [Reduct.map₂, Reduct.kept]
  | .exec e rest, top, h, hparts => by
    obtain ⟨he, hrest⟩ := List.forall_mem_cons.1 hparts
    obtain ⟨top', hrun⟩ := block_of_idle h hrest
    exact ⟨top', (run_bind_eq_ok _ _).2 ⟨_, _, he _ h, (run_bind_eq_ok _ _).2 ⟨_, _, hrun, rfl⟩⟩⟩

theorem leaves_block (h : Inert s.scopes) {body : Block} {ty : Ty}
    (hbody : ∀ part ∈ body.parts, Idle f part) : Leaves (node f) s ⟨.block body, ty⟩ := by
  obtain ⟨top, hrun⟩ : ∃ top, block f (Expr.freeVariables ⟨.block body, ty⟩) body (opened s) =
      (.ok (Reduct.kept body), ⟨s.names, ⟨top :: s.scopes.stack⟩⟩) := block_of_idle h.push hbody
  exact (run_bind_eq_ok _ _).2 ⟨_, _, inScope_of_run _ hrun rfl, rfl⟩

theorem leaves_arm (h : Inert s.scopes) {p : Pattern} {body : Expr} (hbody : Idle f body)
    (hnan : p.hasNaN = false) : arm f p body s = (.ok (Reduct.kept (p, body)), s) := by
  obtain ⟨top, hbound, htop⟩ := bindNames_inert p.bindings body.freeVariables s.names h.push
  refine inScope_of_run ⟨s.names, ⟨top :: s.scopes.stack⟩⟩ ?_ rfl
  refine (run_bind_eq_ok _ _).2 ⟨_, _, hbound, (run_bind_eq_ok _ _).2 ⟨_, _, hbody _ htop, ?_⟩⟩
  have hsame : ((p.bindings.zip p.bindings).reverse.filter fun pair => pair.1 != pair.2) = [] := by
    rw [← List.map_id p.bindings, List.zip_map', List.filter_eq_nil_iff]
    simp
  have hpattern :
      (p.rename fun name => (([] : List (String × String)).lookup name).getD name) = p :=
    rename_id p
  simp only [hsame, hpattern, hnan]
  rfl

theorem leaves_cases (h : Inert s.scopes) {scrutinee : Expr} {arms : List (Pattern × Expr)}
    {ty : Ty}
    (hscrutinee : Idle f scrutinee) (harms : ∀ arm ∈ arms, Idle f arm.2 ∧ arm.1.hasNaN = false) :
    Leaves (node f) s ⟨.cases scrutinee arms, ty⟩ := by
  have hrun : Reduce.arms f arms s = (.ok (Reduct.kept arms), s) := by
    induction arms with
    | nil => rfl
    | cons arm arms ih =>
      obtain ⟨⟨hbody, hnan⟩, hrest⟩ := List.forall_mem_cons.1 harms
      exact (run_bind_eq_ok _ _).2 ⟨_, _, leaves_arm h hbody hnan, (run_bind_eq_ok _ _).2
        ⟨_, _, ih hrest, rfl⟩⟩
  exact (run_bind_eq_ok _ _).2 ⟨_, _, hscrutinee s h, (run_bind_eq_ok _ _).2 ⟨_, _, hrun, rfl⟩⟩

/-- A node that is no redex stays when its parts do. -/
theorem idle_node {e : Expr} (hredex : e.isRedex = false)
    (hnan : ∀ l ∈ e.patternLiterals, l.isNaN = false) (h : ∀ part ∈ e.form.parts, Idle f part) :
    Idle (node f) e := by
  intro s hs
  cases hhead : e.form.head? with
  | some r₀ =>
    obtain ⟨head, parts⟩ := r₀
    rw [parts_of_head? hhead] at h
    exact node_of_leaves hhead fun part hpart => h part hpart s hs
  | none =>
    obtain ⟨form, ty⟩ := e
    cases form with
    | var => exact leaves_var hs
    | apply function args =>
      obtain ⟨hfunction, hargs⟩ := List.forall_mem_cons.1 h
      refine leaves_apply hs hfunction hargs ?_
      simpa [Expr.isRedex] using hredex
    | closure => exact leaves_closure hs (h _ (List.mem_singleton_self _))
    | block => exact leaves_block hs h
    | ite condition yes no =>
      exact leaves_ite hs (h condition (by simp [Form.parts])) (h yes (by simp [Form.parts]))
        (h no (by simp [Form.parts]))
    | cases scrutinee arms =>
      obtain ⟨hscrutinee, harms⟩ := List.forall_mem_cons.1 h
      refine leaves_cases hs hscrutinee fun arm harm =>
        ⟨harms _ (List.mem_map_of_mem harm), ?_⟩
      rw [hasNaN_eq, List.any_eq_false]
      intro l hl
      rw [hnan l (List.mem_flatMap.2 ⟨arm, harm, hl⟩)]
      exact Bool.false_ne_true
    | literal value => cases value <;> cases hhead
    | _ => cases hhead

/-- Where nothing is substituted, an expression without redexes stays. -/
theorem idle_of_redexFree {e : Expr} (h : e.RedexFree)
    (hnan : e.PatternsSatisfy fun l => l.isNaN = false) {fuel : Nat} (hfuel : e.depth ≤ fuel) :
    Idle (expr fuel) e := by
  induction h generalizing fuel with
  | @intro e hredex hparts ih =>
    cases fuel with
    | zero =>
      exfalso
      obtain ⟨form, ty⟩ := e
      revert hfuel
      cases form with
      | literal value => cases value <;> simp [Expr.depth]
      | _ => simp [Expr.depth]
    | succ fuel =>
      refine idle_node hredex hnan.self fun part hpart => ih part hpart (hnan.part part hpart) ?_
      have := depth_lt_of_mem_parts hpart
      omega

end Leaves

theorem reduce_of_idle {e : Expr} (h : Idle (expr (reductionFuel e)) e) (ctx : Context) :
    e.reduce ctx = (.ok (Reduct.kept e), ctx) := by
  have hwhole : whole (reductionFuel e) e ⟨ctx.names, .empty⟩ =
      (.ok (Reduct.kept e), ⟨ctx.names, .empty⟩) :=
    (run_bind_eq_ok _ _).2 ⟨_, _, h ⟨ctx.names, .empty⟩ inert_empty, rfl⟩
  unfold Expr.reduce
  simp only [ExceptT.run] at hwhole ⊢
  rw [hwhole]

end Reduce

end ViewCircuit
