import ViewCircuit.Proofs.Condition
import ViewCircuit.Proofs.Pairs

/-! What the steps of lowering put out. A stream carries rows of some types; each step that reads
such streams makes one of its own, and the rules below say which, step by step. -/
namespace ViewCircuit

open List (Forall₂)
open scoped Classical

namespace Val

/-- Cells of a row. -/
def cells : Val → List Val
  | node .tuple parts => parts
  | _ => []

/-- A cell of a row, NULL where there is none. -/
def cell (row : Val) (column : Nat) : Val := (row.cells[column]?).getD null

/-- Two rows as one. -/
def beside (l r : Val) : Val := tuple (l.cells ++ r.cells)

@[simp] theorem cells_tuple (vs : List Val) : (tuple vs).cells = vs := rfl
@[simp] theorem cells_beside (l r : Val) : (l.beside r).cells = l.cells ++ r.cells := rfl

/-- Data of the type. -/
def IsDatum (v : Val) (t : Ty) : Prop := v.isData ∧ v.HasTy t

/-- Rows of data of the types of their columns. -/
def IsRow (types : List Ty) (row : Val) : Prop := row.IsDatum (Ty.tuple types)

variable {types types' : List Ty} {row row' : Val} {vs : List Val} {c : Nat} {t : Ty}

theorem isRow_tuple : IsRow types (tuple vs) ↔ Forall₂ IsDatum vs types := by
  constructor
  · rintro ⟨hdata, hty⟩
    cases hty with
    | tuple hts hvs =>
      obtain rfl := Option.some.inj hts
      exact (List.forall₂_and_left _ _).2 ⟨fun v hv => allData_iff.1 hdata v hv, hvs⟩
  · intro h
    obtain ⟨hdata, hvs⟩ := (List.forall₂_and_left _ _).1 h
    exact ⟨allData_iff.2 hdata, .tuple rfl hvs⟩

theorem IsRow.eq_tuple (h : IsRow types row) : row = tuple row.cells := by
  obtain ⟨-, hty⟩ := h
  cases hty with
  | @atom a _ ha => cases a <;> cases ha
  | tuple => rfl

theorem IsRow.cells (h : IsRow types row) : Forall₂ IsDatum row.cells types := by
  rw [h.eq_tuple] at h
  exact isRow_tuple.1 h

theorem IsRow.length (h : IsRow types row) : row.cells.length = types.length := h.cells.length_eq

theorem IsRow.getElem?_cells (h : IsRow types row) (ht : types[c]? = some t) :
    row.cells[c]? = some (row.cell c) := by
  have hc : c < row.cells.length := h.length ▸ (List.getElem?_eq_some_iff.1 ht).1
  simp [cell, hc]

theorem IsRow.cell (h : IsRow types row) (ht : types[c]? = some t) : (row.cell c).IsDatum t := by
  obtain ⟨t', ht', hcell⟩ := Structural.getElem? h.cells (h.getElem?_cells ht)
  obtain rfl := Option.some.inj (ht'.symm.trans ht)
  exact hcell

theorem IsRow.map_cell (h : IsRow types row) :
    (List.range types.length).map row.cell = row.cells := by
  rw [← h.length]
  refine List.ext_getElem (by simp) fun i hi hi' => ?_
  simp [Val.cell, hi']

theorem IsRow.beside (h : IsRow types row) (h' : IsRow types' row') :
    IsRow (types ++ types') (row.beside row') :=
  isRow_tuple.2 (List.rel_append h.cells h'.cells)

end Val

/-- The expression evaluates to the value, which is data of its type. -/
structure Expr.Delivers (rt : Runtime) (ρ : Env) (e : Expr) (v : Val) : Prop where
  evals : Evals rt ρ e v 0
  datum : v.IsDatum e.ty

/-- The expression is a reference to the row. -/
structure Expr.RefersTo (rt : Runtime) (ρ : Env) (e : Expr) (types : List Ty) (row : Val) :
    Prop where
  ty : e.ty = Ty.ref (Ty.tuple types)
  evals : Evals rt ρ e (Val.ref row) 0
  row : row.IsRow types

section Cells

variable {rt : Runtime} {ρ : Env} {t e : Expr} {es : List Expr} {types : List Ty} {row : Val}
  {v : Val} {vs : List Val} {ty : Ty} {c : Nat}

theorem type_of_field (ht : t.ty = Ty.ref (Ty.tuple types)) (h : Expr.field t c = .ok e) :
    types[c]? = some e.ty ∧ e.form = .field t c := by
  obtain ⟨ty, hty, rfl⟩ := field_eq_ok h
  rw [ht] at hty
  exact ⟨hty, rfl⟩

theorem Expr.RefersTo.field (ht : t.RefersTo rt ρ types row) (h : Expr.field t c = .ok e) :
    e.Delivers rt ρ (row.cell c) := by
  obtain ⟨hty, hform⟩ := type_of_field ht.ty h
  refine ⟨?_, ht.row.cell hty⟩
  have hhead : e.form.head? = some (.field c, [t]) := by
    rw [hform]
    rfl
  refine (evals_head_one hhead).2 ⟨_, ht.evals, ?_⟩
  have hcell := ht.row.getElem?_cells hty
  rw [ht.row.eq_tuple]
  exact hcell

theorem evalsAll_of_delivers (h : Forall₂ (Expr.Delivers rt ρ) es vs) : EvalsAll rt ρ es vs 0 := by
  induction h with
  | nil => exact evalsAll_nil.2 ⟨rfl, rfl⟩
  | cons hv _ ih => exact evalsAll_cons.2 ⟨_, 0, _, 0, hv.evals, ih, rfl, rfl⟩

theorem isRow_of_delivers (h : Forall₂ (Expr.Delivers rt ρ) es vs) :
    (Val.tuple vs).IsRow (es.map Expr.ty) := by
  rw [Val.isRow_tuple, List.forall₂_map_right_iff]
  exact (h.imp fun _ _ hv => hv.datum).flip

theorem delivers_tuple (h : Forall₂ (Expr.Delivers rt ρ) es vs) :
    (Expr.tuple es).Delivers rt ρ (Val.tuple vs) :=
  ⟨(evals_head rfl).2 ⟨vs, evalsAll_of_delivers h, rfl⟩, isRow_of_delivers h⟩

theorem types_of_columns {cs : List Nat} {us : List Ty} (ht : t.ty = Ty.ref (Ty.tuple types))
    (h : Lower.columns t cs = .ok es) (hus : cs.map (fun c => types[c]?) = us.map some) :
    es.map Expr.ty = us := by
  have htypes : cs.map (fun c => types[c]?) = (es.map Expr.ty).map some := by
    rw [List.map_map, ← List.forall₂_eq_eq_eq, List.forall₂_map_left_iff,
      List.forall₂_map_right_iff]
    exact (mapM_eq_ok.1 h).imp fun _ _ he => (type_of_field ht he).1
  exact List.map_injective_iff.2 (Option.some_injective _) (htypes.symm.trans hus)

theorem Expr.RefersTo.columns {cs : List Nat} (ht : t.RefersTo rt ρ types row)
    (h : Lower.columns t cs = .ok es) : Forall₂ (Expr.Delivers rt ρ) es (cs.map row.cell) := by
  rw [List.forall₂_map_right_iff]
  exact ((mapM_eq_ok.1 h).imp fun _ _ he => ht.field he).flip

end Cells

/-- The operator puts out these rows, of columns of these types. -/
structure Operator.Carries (E : Engine) (tables : Tables) (op : Operator) (types : List Ty)
    (x : ZSet) : Prop where
  ty : op.ty = Ty.zset (Ty.tuple types)
  contents : op.contents E.meaning tables = x
  rows : ∀ row ∈ x.support, row.IsRow types

/-- The operator puts out these rows under keys of their own. -/
structure Operator.Keyed (E : Engine) (tables : Tables) (op : Operator) (keys types : List Ty)
    (key : Val → Val) (x : ZSet) : Prop where
  ty : op.ty = Ty.indexedZSet (Ty.tuple keys) (Ty.tuple types)
  contents : op.contents E.meaning tables = x.mapRows fun row => Val.pair (key row) row
  rows : ∀ row ∈ x.support, row.IsRow types

namespace OperatorKind

variable {f body : Expr} {params : List Param} {inputs : List Ty} {s t key value : Ty}

theorem Typed.map_closure (h : (OperatorKind.map (Expr.closure params body)).Typed inputs t) :
    t = Ty.zset body.ty := by
  cases h with
  | map _ hparts => rw [(Prod.mk.inj (Option.some.inj hparts)).2]
  | keeps hkind => cases hkind

theorem Typed.join_closure (h : (OperatorKind.join (Expr.closure params body)).Typed inputs t) :
    t = Ty.zset body.ty := by
  cases h with
  | join _ _ hparts => rw [(Prod.mk.inj (Option.some.inj hparts)).2]
  | keeps hkind => cases hkind

theorem Typed.index_closure (h : (OperatorKind.index (Expr.closure params body)).Typed inputs t)
    (hbody : body.ty = Ty.rawTuple [key, value]) : t = Ty.indexedZSet key value := by
  cases h with
  | index _ hparts =>
    have hresult := (Prod.mk.inj (Option.some.inj hparts)).2
    rw [hbody] at hresult
    cases hresult
    rfl
  | keeps hkind => cases hkind

theorem Typed.filter_ty (h : (OperatorKind.filter f).Typed [s] t) : t = s := by
  cases h <;> rfl

end OperatorKind

namespace Lower

variable {α β : Type}

/-- What the step returns, if it does, has the property. -/
def Returns (act : Lower α) (post : α → Prop) : Prop :=
  ∀ c ctx a c' ctx', act c ctx = (.ok (a, c'), ctx') → post a

section Rules

variable {act : Lower α} {post mid : α → Prop}

theorem Returns.mono (h : Returns act mid) (hpost : ∀ a, mid a → post a) : Returns act post :=
  fun c ctx a c' ctx' hrun => hpost a (h c ctx a c' ctx' hrun)

theorem returns_pure {a : α} (h : post a) : Returns (pure a) post := by
  rintro c ctx _ _ _ ⟨⟩
  exact h

theorem bind_eq_ok {next : α → Lower β} {c c' : Circuit} {ctx ctx' : Context} {b : β} :
    (act >>= next) c ctx = (.ok (b, c'), ctx') ↔ ∃ a c₁ ctx₁,
      act c ctx = (.ok (a, c₁), ctx₁) ∧ next a c₁ ctx₁ = (.ok (b, c'), ctx') := by
  refine (run_bind_eq_ok (act c) fun p => next p.1 p.2).trans ?_
  rw [Prod.exists]

theorem Returns.bind {next : α → Lower β} {post : β → Prop} (h : Returns act mid)
    (hnext : ∀ a, mid a → Returns (next a) post) : Returns (act >>= next) post := by
  intro c ctx b c' ctx' hrun
  obtain ⟨a, c₁, ctx₁, hact, hrun⟩ := bind_eq_ok.1 hrun
  exact hnext a (h c ctx a c₁ ctx₁ hact) c₁ ctx₁ b c' ctx' hrun

/-- Two first steps and what follows either. -/
theorem returns_ite_bind {p : Prop} [Decidable p] {act' : Lower α} {next : α → Lower β}
    {post : β → Prop} (h : p → Returns act mid) (h' : ¬p → Returns act' mid)
    (hnext : ∀ a, mid a → Returns (next a) post) :
    Returns (if p then act >>= next else act' >>= next) post := by
  split
  · exact (h ‹p›).bind hnext
  · exact (h' ‹¬p›).bind hnext

theorem returns_check {r : Except CompileError α} (h : ∀ a, r = .ok a → post a) :
    Returns (check r) post := by
  intro c ctx a c' ctx' hrun
  obtain ⟨a', ctx₁, hcheck, hpure⟩ :=
    (run_bind_eq_ok (Compile.ofExcept r) fun a => pure (a, c)).1 hrun
  obtain ⟨hr, rfl⟩ := Compile.ofExcept_eq_ok.1 hcheck
  cases hpure
  exact h _ hr

theorem returns_checked {r : Except CompileError α} {next : α → Lower β} {post : β → Prop}
    (h : ∀ a, r = .ok a → Returns (next a) post) : Returns (check r >>= next) post :=
  (returns_check fun _ ha => ha).bind h

/-- An operator that was added computes by its kind from its inputs, and fits their types. -/
theorem returns_emit {make : Compile Operator} {kind : OperatorKind} {inputs : List Operator}
    (hmakes : Operator.Makes make kind inputs) : Returns (emit make) fun op =>
      kind.Typed (inputs.map Operator.ty) op.ty ∧ ∀ M tables, op.contents M tables =
        kind.contents M tables (inputs.map (Operator.contents M tables)) := by
  intro c ctx op c' ctx' hrun
  obtain ⟨ty, hmade, htyped, -⟩ := hmakes ctx op ctx' (emit_eq_ok hrun).1
  refine ⟨hmade.ty ▸ htyped, fun M tables => ?_⟩
  rw [op.contents_eq, hmade.kind, hmade.inputs]

end Rules

section Streams

variable {E : Engine} {tables : Tables} {input left right op : Operator} {types us : List Ty}
  {x y : ZSet} {row : Val} {body : Expr} {g : Val → Val}

/-- The variables of a function of one row. -/
abbrev rowEnv (row : Val) : Env := [("t", Val.ref row)]

theorem refersTo_row (h : row.IsRow types) :
    (rowParam (Ty.tuple types)).var.RefersTo E.runtime (rowEnv row) types row :=
  ⟨rfl, evals_var.2 ⟨rfl, rfl⟩, h⟩

theorem wellTyped_row {element : Ty} :
    WellTyped (rowScope element) (rowParam element).var := .var rfl rfl

theorem envTyped_row (h : row.IsRow types) : EnvTyped (rowScope (Ty.tuple types)) (rowEnv row) :=
  EnvTyped.cons (fun _ _ _ hv _ => by cases hv) (.ref h.2)

theorem rowFields_of_ty (h : input.ty = Ty.zset (Ty.tuple types)) :
    rowFields input = .ok types := by
  simp [rowFields, h, Ty.zset, Ty.zsetElement?, Ty.tuple, Ty.tupleFields?]

theorem element_of_ty (h : input.ty = Ty.zset (Ty.tuple types)) :
    element input = .ok (Ty.tuple types) := by
  simp [element, h, Ty.zset, Ty.zsetElement?]

theorem rowFunction_of_ty {f : Expr} {make : Expr → Except CompileError Expr}
    (h : input.ty = Ty.zset (Ty.tuple types)) (hf : rowFunction input make = .ok f) :
    ∃ e, make (rowParam (Ty.tuple types)).var = .ok e ∧
      f = Expr.closure [rowParam (Ty.tuple types)] e := by
  obtain ⟨element, e, helement, he, rfl⟩ := rowFunction_eq_ok hf
  rw [h] at helement
  obtain rfl := Option.some.inj helement
  exact ⟨e, he, rfl⟩

theorem returns_map (hin : input.Carries E tables types x) (hty : body.ty = Ty.tuple us)
    (hg : ∀ row ∈ x.support, body.Delivers E.runtime (rowEnv row) (g row)) :
    Returns (emit (Operator.map input (Expr.closure [rowParam (Ty.tuple types)] body)))
      fun op => op.Carries E tables us (x.mapRows g) := by
  refine (returns_emit Operator.makes_map).mono fun op hop => ?_
  obtain ⟨htyped, hcontents⟩ := hop
  refine ⟨?_, ?_, ?_⟩
  · rw [htyped.map_closure, hty]
  · rw [hcontents, List.map_singleton, hin.contents]
    exact ZSet.mapRows_congr fun row hrow => Engine.row_closure (hg row hrow).evals
  · intro row hrow
    obtain ⟨r, hr, rfl⟩ := ZSet.mem_mapRows hrow
    have hrow := (hg r hr).datum
    rwa [hty] at hrow

theorem returns_mapRow {fields : Expr → Except CompileError (List Expr)} {g : Val → List Val}
    (hin : input.Carries E tables types x)
    (hfields : ∀ es, fields (rowParam (Ty.tuple types)).var = .ok es → es.map Expr.ty = us ∧
      ∀ row ∈ x.support, Forall₂ (Expr.Delivers E.runtime (rowEnv row)) es (g row)) :
    Returns (mapRow input fields) fun op =>
      op.Carries E tables us (x.mapRows fun row => Val.tuple (g row)) := by
  refine returns_checked fun f hf => ?_
  obtain ⟨e, he, rfl⟩ := rowFunction_of_ty hin.ty hf
  obtain ⟨es, hes, he⟩ := except_bind_eq_ok.1 he
  cases he
  obtain ⟨htypes, hdelivers⟩ := hfields es hes
  exact returns_map hin (congrArg Ty.tuple htypes) fun row hrow =>
    delivers_tuple (hdelivers row hrow)

theorem returns_columns {cs : List Nat} (hin : input.Carries E tables types x)
    (hcs : cs.map (fun c => types[c]?) = us.map some) :
    Returns (mapRow input fun t => columns t cs) fun op =>
      op.Carries E tables us (x.mapRows fun row => Val.tuple (cs.map row.cell)) := by
  refine returns_mapRow hin fun es hes => ⟨types_of_columns rfl hes hcs, fun row hrow => ?_⟩
  exact (refersTo_row (hin.rows row hrow)).columns hes

/-- A filter keeps the rows for which its condition holds. -/
theorem keep_closure {element : Ty} : E.meaning.keep (Expr.closure [rowParam element] body) row ↔
    body.Holds E.runtime (rowEnv row) := by
  refine (Engine.apply_closure_iff (E := E)).trans ?_
  simp [Expr.Holds, rowParam]

theorem returns_filter (hin : input.Carries E tables types x) :
    Returns (emit (Operator.filter input (Expr.closure [rowParam (Ty.tuple types)] body)))
      fun op => op.Carries E tables types
        (x.keepRows fun row => body.Holds E.runtime (rowEnv row)) := by
  refine (returns_emit Operator.makes_filter).mono fun op hop => ?_
  obtain ⟨htyped, hcontents⟩ := hop
  refine ⟨htyped.filter_ty.trans hin.ty, ?_, fun row hrow => ?_⟩
  · rw [hcontents, List.map_singleton, hin.contents]
    exact ZSet.keepRows_congr fun row _ => keep_closure
  · exact hin.rows row (ZSet.mem_keepRows hrow)

theorem returns_rowFilter {condition : Scalar} (hin : input.Carries E tables types x) :
    Returns (filter input condition) fun op => ∃ e,
      condition.toCondition (rowParam (Ty.tuple types)).var = .ok e ∧
        op.Carries E tables types (x.keepRows fun row => e.Holds E.runtime (rowEnv row)) := by
  refine returns_checked fun f hf => ?_
  obtain ⟨e, he, rfl⟩ := rowFunction_of_ty hin.ty hf
  exact (returns_filter hin).mono fun op hop => ⟨e, he, hop⟩

theorem returns_distinct (hin : input.Carries E tables types x) :
    Returns (emit (Operator.distinct input)) fun op => op.Carries E tables types x.distinct := by
  refine (returns_emit (Operator.makes_unary rfl rfl)).mono fun op hop => ?_
  obtain ⟨htyped, hcontents⟩ := hop
  refine ⟨?_, ?_, fun row hrow => hin.rows row (ZSet.mem_distinct hrow)⟩
  · rw [← htyped.eq_of_mem (.inl rfl) input.ty (by simp), hin.ty]
  · rw [hcontents, List.map_singleton, hin.contents]
    rfl

theorem returns_subtract (hleft : left.Carries E tables types x)
    (hright : right.Carries E tables types y) :
    Returns (emit (Operator.subtract left right)) fun op =>
      op.Carries E tables types (x - y) := by
  have hcollection : left.ty.isCollection := by
    rw [hleft.ty]
    rfl
  refine (returns_emit (Operator.makes_subtract hcollection)).mono fun op hop => ?_
  obtain ⟨htyped, hcontents⟩ := hop
  refine ⟨?_, ?_, fun row hrow => ?_⟩
  · rw [← htyped.eq_of_mem (.inr (.inr rfl)) left.ty (by simp), hleft.ty]
  · rw [hcontents, List.map_cons, List.map_singleton, hleft.contents, hright.contents]
    rfl
  · rcases Finset.mem_union.1 (Finsupp.support_sub hrow) with hx | hy
    · exact hleft.rows row hx
    · exact hright.rows row hy

theorem returns_sum {inputs : List Operator} {xs : List ZSet}
    (hin : Forall₂ (fun op x => op.Carries E tables types x) inputs xs) :
    Returns (emit (Operator.sum inputs)) fun op => op.Carries E tables types xs.sum := by
  have hty : ∀ i ∈ inputs, i.ty = Ty.zset (Ty.tuple types) := by
    intro i hi
    obtain ⟨_, -, hx⟩ := forall₂_mem hin hi
    exact hx.ty
  have hcollection : ∀ i ∈ inputs.head?, i.ty.isCollection := by
    intro i hi
    rw [hty i (List.mem_of_mem_head? hi)]
    rfl
  have hsum : inputs.map (Operator.contents E.meaning tables) = xs := by
    rw [← List.forall₂_eq_eq_eq, List.forall₂_map_left_iff]
    exact hin.imp fun _ _ h => h.contents
  refine (returns_emit (Operator.makes_sum hcollection)).mono fun op hop => ?_
  obtain ⟨htyped, hcontents⟩ := hop
  refine ⟨?_, ?_, fun row hrow => ?_⟩
  · obtain ⟨t, ht⟩ := htyped.exists_mem (.inr (.inl rfl))
    obtain ⟨i, hi, rfl⟩ := List.mem_map.1 ht
    rw [← htyped.eq_of_mem (.inr (.inl rfl)) i.ty ht, hty i hi]
  · rw [hcontents, hsum]
    rfl
  · obtain ⟨x, hx, hrow⟩ := ZSet.mem_listSum hrow
    obtain ⟨i, -, hi⟩ := forall₂_mem hin.flip hx
    exact hi.rows row hrow

theorem returns_indexWith {keys : Expr → Except CompileError (List Expr)} {ks : List Ty}
    {g : Val → List Val} (hin : input.Carries E tables types x)
    (hkeys : ∀ es, keys (rowParam (Ty.tuple types)).var = .ok es → es.map Expr.ty = ks ∧
      ∀ row ∈ x.support, Forall₂ (Expr.Delivers E.runtime (rowEnv row)) es (g row)) :
    Returns (indexWith input keys) fun op =>
      op.Keyed E tables ks types (fun row => Val.tuple (g row)) x := by
  refine returns_checked fun f hf => ?_
  obtain ⟨e, he, rfl⟩ := rowFunction_of_ty hin.ty hf
  obtain ⟨es, hes, he⟩ := except_bind_eq_ok.1 he
  cases he
  obtain ⟨htypes, hdelivers⟩ := hkeys es hes
  refine (returns_emit Operator.makes_index).mono fun op hop => ?_
  obtain ⟨htyped, hcontents⟩ := hop
  refine ⟨?_, ?_, hin.rows⟩
  · rw [← htypes]
    exact htyped.index_closure rfl
  · rw [hcontents, List.map_singleton, hin.contents]
    refine ZSet.mapRows_congr fun row hrow => ?_
    have hrow' := refersTo_row (E := E) (hin.rows row hrow)
    have hderef : Evals E.runtime (rowEnv row)
        ⟨.deref (rowParam (Ty.tuple types)).var, Ty.tuple types⟩ row 0 :=
      (evals_head_one rfl).2 ⟨_, hrow'.evals, rfl⟩
    refine Engine.row_closure (k := 0) ((evals_head_two rfl).2 ?_)
    exact ⟨_, 0, _, 0, (delivers_tuple (hdelivers row hrow)).evals, hderef, rfl, rfl⟩

/-- The variables of the function of a join. -/
abbrev joinEnv (k l r : Val) : Env := [("r", Val.ref r), ("l", Val.ref l), ("k", Val.ref k)]

theorem returns_joined {lks rks lts rts : List Ty} {k l r : Ty} {key key' : Val → Val}
    {f : Val → Val → Val} (hleft : left.Keyed E tables lks lts key x)
    (hright : right.Keyed E tables rks rts key' y) (hty : body.ty = Ty.tuple us)
    (hf : ∀ a ∈ x.support, ∀ b ∈ y.support,
      body.Delivers E.runtime (joinEnv (key a) a b) (f a b)) :
    Returns (emit (Operator.join left right
      (Expr.closure [⟨"k", k⟩, ⟨"l", l⟩, ⟨"r", r⟩] body))) fun op =>
        op.Carries E tables us (ZSet.pairs (fun a b => key a = key' b) f x y) := by
  refine (returns_emit Operator.makes_join).mono fun op hop => ?_
  obtain ⟨htyped, hcontents⟩ := hop
  refine ⟨?_, ?_, fun row hrow => ?_⟩
  · rw [htyped.join_closure, hty]
  · rw [hcontents, List.map_cons, List.map_singleton, hleft.contents, hright.contents]
    refine (ZSet.join_mapRows _ key key' x y).trans (ZSet.pairs_congr fun a ha b hb => ?_)
    refine ⟨Iff.rfl, fun _ => ?_⟩
    have happly : E.apply (Expr.closure [⟨"k", k⟩, ⟨"l", l⟩, ⟨"r", r⟩] body)
        [Val.ref (key a), Val.ref a, Val.ref b] = some (f a b) :=
      Engine.apply_closure_iff.2 ⟨rfl, 0, (hf a ha b hb).evals⟩
    simp [Engine.meaning, happly]
  · obtain ⟨a, ha, b, hb, -, rfl⟩ := ZSet.mem_pairs hrow
    have hrow := (hf a ha b hb).datum
    rwa [hty] at hrow

theorem returns_indexRow (hin : input.Carries E tables types x) :
    Returns (indexRow input) fun op =>
      op.contents E.meaning tables = x.mapRows fun row => Val.pair row Val.unit := by
  refine returns_checked fun f hf => ?_
  obtain ⟨e, he, rfl⟩ := rowFunction_of_ty hin.ty hf
  cases he
  refine (returns_emit Operator.makes_index).mono fun op hop => ?_
  rw [hop.2, List.map_singleton, hin.contents, ← Engine.row_rowKey (E := E) (Ty.tuple types)]
  rfl

/-- A join by whole rows multiplies the weights of equal rows. -/
theorem returns_semiJoin {rows set : Operator} (hrows : rows.Carries E tables types x)
    (hset : set.Carries E tables types y) :
    Returns (semiJoin rows set) fun op => op.Carries E tables types (x * y) := by
  refine returns_checked fun rowType hrowType => ?_
  obtain rfl := Except.ok.inj ((element_of_ty hrows.ty).symm.trans hrowType)
  refine (returns_indexRow hrows).bind fun left hleft => ?_
  refine (returns_indexRow hset).bind fun right hright => returns_checked fun body hbody => ?_
  cases hbody
  refine (returns_emit Operator.makes_join).mono fun op hop => ?_
  obtain ⟨htyped, hcontents⟩ := hop
  refine ⟨htyped.join_closure, ?_, fun row hrow => hrows.rows row ?_⟩
  · rw [hcontents, List.map_cons, List.map_singleton, hleft, hright, ← ZSet.join_keys,
      ← Engine.pair_keyRow (E := E) (Ty.tuple types)]
    rfl
  · rw [Finsupp.mem_support_iff, Finsupp.mul_apply] at hrow
    exact Finsupp.mem_support_iff.2 (left_ne_zero_of_mul hrow)

end Streams

end Lower

end ViewCircuit
