import ViewCircuit.Proofs.Folds

/-! Grouped aggregates. Rows are put under the cells of their group columns, the rows of each key
are folded, and a key and its results become one row. Without group columns all rows are one group,
and over no rows a row with the values of the calls over nothing is there in its place. -/
namespace ViewCircuit

open List (Forall₂)
open scoped Classical

/-- The cells of some columns as a row. -/
def Val.pick (columns : List Nat) (row : Val) : Val := tuple (columns.map row.cell)

theorem Val.IsRow.pick {types us : List Ty} {row : Val} {columns : List Nat} (h : row.IsRow types)
    (hcolumns : columns.map (fun c => types[c]?) = us.map some) : (row.pick columns).IsRow us := by
  have hall : Forall₂ (fun c t => types[c]? = some t) columns us := by
    rwa [← List.forall₂_map_right_iff (f := some), ← List.forall₂_map_left_iff,
      List.forall₂_eq_eq_eq]
  rw [Val.pick, isRow_tuple, List.forall₂_map_left_iff]
  exact hall.imp fun _ _ ht => h.cell ht

/-- Rows of different keys stay different with anything beside them. -/
theorem Val.eq_of_beside {columns : List Nat} {row row' r r' : Val}
    (h : (row.pick columns).beside r = (row'.pick columns).beside r') :
    row.pick columns = row'.pick columns := by
  have hcells : columns.map row.cell ++ r.cells = columns.map row'.cell ++ r'.cells :=
    congrArg cells h
  exact congrArg tuple (List.append_inj_left hcells (by simp))

namespace ZSet

variable {x : ZSet}

/-- Keys of the groups of rows. Without group columns all rows are one group, which is there even
when they are none. -/
noncomputable def groups (columns : List Nat) (x : ZSet) : Finset Val :=
  if columns = [] then {Val.unit} else x.support.image (Val.pick columns)

theorem exists_pick {columns : List Nat} {k : Val} (h : k ∈ x.groups columns) :
    ∃ row : Val, k = row.pick columns := by
  unfold groups at h
  split at h
  · rename_i hnone
    subst hnone
    exact ⟨Val.unit, Finset.mem_singleton.1 h⟩
  · obtain ⟨row, -, rfl⟩ := Finset.mem_image.1 h
    exact ⟨row, rfl⟩

/-- The weight of a row that is under its key. -/
theorem mapRows_pair_apply (key : Val → Val) (x : ZSet) (row : Val) :
    (x.mapRows fun r => Val.pair (key r) r) (Val.pair (key row) row) = x row :=
  Finsupp.mapDomain_apply (fun _ _ h => (Val.pair_injective h).2) x row

theorem keys_mapRows_pair (key : Val → Val) (x : ZSet) :
    (x.mapRows fun r => Val.pair (key r) r).keys = x.support.image key := by
  ext k
  rw [mem_keys, Finset.mem_image]
  constructor
  · rintro ⟨v, hv⟩
    obtain ⟨row, hrow, hpair⟩ := mem_mapRows hv
    exact ⟨row, hrow, (Val.pair_injective hpair).1⟩
  · rintro ⟨row, hrow, rfl⟩
    refine ⟨row, Finsupp.mem_support_iff.2 ?_⟩
    rw [mapRows_pair_apply]
    exact Finsupp.mem_support_iff.1 hrow

/-- The values under the keys of a property. -/
noncomputable def valuesUnder (p : Val → Prop) (x : ZSet) : ZSet :=
  x.sum fun row w =>
    match row.pair? with
    | some (k, v) => if p k then Finsupp.single v w else 0
    | none => 0

/-- Under the keys of a property are the rows that have such keys. -/
theorem valuesUnder_mapRows_pair (p : Val → Prop) (key : Val → Val) (x : ZSet) :
    (x.mapRows fun r => Val.pair (key r) r).valuesUnder p = x.keepRows fun row => p (key row) := by
  have hterm : ∀ row w, (match (Val.pair (key row) row).pair? with
      | some (k, v) => if p k then Finsupp.single v w else 0
      | none => 0 : ZSet) = if p (key row) then Finsupp.single row w else 0 := fun _ _ => rfl
  rw [← Finsupp.sum_single (x.keepRows fun row => p (key row)), sum_keepRows]
  change (Finsupp.mapDomain _ x).sum _ = _
  rw [Finsupp.sum_mapDomain_index]
  · exact Finsupp.sum_congr fun row _ => hterm row _
  · intro row
    split <;> simp
  · intro row w w'
    split
    · split <;> simp
    · simp

theorem group_mapRows_pair (key : Val → Val) (x : ZSet) (k : Val) :
    (x.mapRows fun r => Val.pair (key r) r).group k = x.keepRows fun row => key row = k :=
  valuesUnder_mapRows_pair (fun k' => k' = k) key x

/-- Different rows of weight one. -/
theorem sum_single_apply {s : Finset Val} {f : Val → Val}
    (hf : ∀ k ∈ s, ∀ k' ∈ s, f k = f k' → k = k') (row : Val) :
    (∑ k ∈ s, Finsupp.single (f k) 1 : ZSet) row = if ∃ k ∈ s, row = f k then 1 else 0 := by
  rw [Finsupp.finsetSum_apply]
  split
  · rename_i h
    obtain ⟨k, hk, rfl⟩ := h
    rw [Finset.sum_eq_single_of_mem k hk fun k' hk' hne => ?_, Finsupp.single_eq_same]
    exact Finsupp.single_eq_of_ne fun heq => hne (hf k' hk' k hk heq.symm)
  · rename_i h
    refine Finset.sum_eq_zero fun k hk => Finsupp.single_eq_of_ne fun heq => h ⟨k, hk, heq⟩

end ZSet

/-- The value of a call over no rows. -/
def AggregateCall.overNothing (call : AggregateCall) : Val :=
  match call.function with
  | .count => Val.int64 0
  | _ => Val.null

theorem AggregateCall.Computes.eq_overNothing {domains : Nat → Domain} {call : AggregateCall}
    {v : Val} (h : call.Computes domains 0 v) : v = call.overNothing := by
  obtain ⟨function, argument, distinct⟩ := call
  cases function <;> cases argument <;>
    simp_all [Computes, overNothing, ZSet.sumOf, ZSet.averageOf, ZSet.IsExtremum]

/-- The cells of `results k` are the values of the calls over the rows of the group of `k`. -/
def ZSet.Aggregates (domains : Nat → Domain) (calls : List AggregateCall) (group : List Nat)
    (x : ZSet) (results : Val → Val) : Prop :=
  ∀ k ∈ x.groups group, Forall₂ (fun call v => call.Computes domains
    (x.keepRows fun row => row.pick group = k) v) calls (results k).cells

/-- The operator puts out one row of these types for every key. -/
structure Operator.PerKey (E : Engine) (tables : Tables) (op : Operator) (ks us : List Ty)
    (keys : Finset Val) (f : Val → Val) : Prop where
  ty : op.ty = Ty.indexedZSet (Ty.tuple ks) (Ty.tuple us)
  contents : op.contents E.meaning tables = ∑ k ∈ keys, Finsupp.single (Val.pair k (f k)) 1
  key : ∀ k ∈ keys, k.IsRow ks
  value : ∀ k ∈ keys, (f k).IsRow us

namespace OperatorKind

variable {kind : OperatorKind} {f : Expr} {t key value row acc result : Ty}

/-- An operator that folds puts the results of the fold under the keys that it reads. -/
theorem Typed.fold_ty (h : kind.Typed [Ty.indexedZSet key value] t)
    (hkind : kind = .aggregate f ∨ ∃ window, kind = .windowAggregate window f)
    (hf : f.ty.kind = .user "Fold" [row, acc, result]) : t = Ty.indexedZSet key result := by
  have hresult : ∀ {k v a r}, (Ty.indexedZSet key value).indexedParts? = some (k, v) →
      f.ty.kind = .user "Fold" [v, a, r] → Ty.indexedZSet k r = Ty.indexedZSet key result := by
    intro k v a r hparts hfold
    obtain ⟨rfl, rfl⟩ := Prod.mk.inj (Option.some.inj hparts)
    rw [hf] at hfold
    cases hfold
    rfl
  rcases hkind with rfl | ⟨window, rfl⟩
  · cases h with
    | aggregate hparts hfold => exact hresult hparts hfold
    | keeps hkeeps => cases hkeeps
  · cases h with
    | windowAggregate _ hparts hfold => exact hresult hparts hfold
    | keeps hkeeps => cases hkeeps

end OperatorKind

/-- What a function of the parts of a row makes of a key and a value. -/
theorem Engine.row_parts {E : Engine} {key value : Ty} {body : Expr} {k v u : Val} {n : Nat}
    (h : Evals E.runtime [("kv", Val.tuple [Val.ref k, Val.ref v])] body u n) :
    E.meaning.row (Expr.closure [⟨"kv", Ty.rawTuple [Ty.ref key, Ty.ref value]⟩] body)
      (Val.pair k v) = u := by
  have happly : E.apply (Expr.closure [⟨"kv", Ty.rawTuple [Ty.ref key, Ty.ref value]⟩] body)
      [Val.tuple [Val.ref k, Val.ref v]] = some u := apply_closure_iff.2 ⟨rfl, n, h⟩
  change (E.apply _ [Val.tuple [Val.ref k, Val.ref v]]).getD Val.null = u
  rw [happly, Option.getD_some]

namespace Lower

variable {E : Engine} {tables : Tables} {input op : Operator} {types ks us : List Ty} {x : ZSet}

/-- The types of group columns that are there. -/
theorem exists_types {columns : List Nat} (h : ∀ c ∈ columns, c < types.length) :
    ∃ ks : List Ty, columns.map (fun c => types[c]?) = ks.map some := by
  refine ⟨columns.map fun c => (types[c]?).getD Ty.any, ?_⟩
  rw [List.map_map]
  refine List.map_congr_left fun c hc => ?_
  rw [Function.comp_apply, List.getElem?_eq_getElem (h c hc), Option.getD_some]

/-- Rows under the cells of some columns. -/
theorem returns_picked {columns : List Nat} (hin : input.Carries E tables types x)
    (hks : columns.map (fun c => types[c]?) = ks.map some) :
    Returns (indexWith input fun t => Lower.columns t columns) fun op =>
      op.Keyed E tables ks types (Val.pick columns) x :=
  returns_indexWith hin fun _ hes => ⟨types_of_columns rfl hes hks, fun row hrow =>
    (refersTo_row (hin.rows row hrow)).columns hes⟩

section Fold

variable {domains : Nat → Domain} {calls : List AggregateCall} {fold : Expr} {key : Val → Val}

/-- A fold over the rows that belong to each key makes one row for it. -/
theorem perKey_of_fold {belongs : Val → Val → Prop}
    (hty : op.ty = Ty.indexedZSet (Ty.tuple ks) (Ty.tuple us))
    (hcontents : op.contents E.meaning tables =
      (x.mapRows fun row => Val.pair (key row) row).perKey fun k =>
        E.meaning.fold fold (x.keepRows (belongs k)))
    (hkey : ∀ row ∈ x.support, (key row).IsRow ks) (hrows : ∀ row ∈ x.support, row.IsRow types)
    (hx : x.Nonneg) (hfold : E.FoldsCalls domains types calls fold us) :
    op.PerKey E tables ks us (x.support.image key) fun k =>
      E.meaning.fold fold (x.keepRows (belongs k)) := by
  refine ⟨hty, ?_, ?_, fun k _ => hfold.row (hx.keepRows _) fun row hrow => ?_⟩
  · rw [hcontents, ZSet.perKey, ZSet.keys_mapRows_pair]
  · intro k hk
    obtain ⟨row, hrow, rfl⟩ := Finset.mem_image.1 hk
    exact hkey row hrow
  · exact hrows row (ZSet.mem_keepRows hrow)

/-- Each group is folded. -/
theorem returns_aggregate (hin : input.Keyed E tables ks types key x)
    (hkey : ∀ row ∈ x.support, (key row).IsRow ks) (hx : x.Nonneg)
    (hfold : E.FoldsCalls domains types calls fold us) :
    Returns (emit (Operator.aggregate input fold)) fun op =>
      op.PerKey E tables ks us (x.support.image key) fun k =>
        E.meaning.fold fold (x.keepRows fun row => key row = k) := by
  refine (returns_emit Operator.makes_aggregate).mono fun op hop => ?_
  obtain ⟨htyped, hcontents⟩ := hop
  obtain ⟨acc, hty⟩ := hfold.ty
  rw [List.map_singleton, hin.ty] at htyped
  refine perKey_of_fold (htyped.fold_ty (.inl rfl) hty) ?_ hkey hin.rows hx hfold
  rw [hcontents, List.map_singleton, hin.contents]
  simp only [OperatorKind.contents, ZSet.group_mapRows_pair]

end Fold

theorem indexedParts_of_ty {key value : Ty} (h : input.ty = Ty.indexedZSet key value) :
    indexedParts input = .ok (key, value) := by
  simp [indexedParts, h, Ty.indexedZSet, Ty.indexedParts?]

/-- The parts of a row that is given as a key and a value. -/
abbrev partOf (ks us : List Ty) (i : Nat) (types : List Ty) : Expr :=
  ⟨.field (Param.var ⟨"kv", Ty.rawTuple [Ty.ref (Ty.tuple ks), Ty.ref (Ty.tuple us)]⟩) i,
    Ty.ref (Ty.tuple types)⟩

theorem refersTo_partOf {rt : Runtime} {parts : List Val} {i : Nat} {row : Val}
    (hpart : parts[i]? = some (Val.ref row)) (hrow : row.IsRow types) :
    (partOf ks us i types).RefersTo rt [("kv", Val.tuple parts)] types row := by
  refine ⟨rfl, (evals_head_one rfl).2 ⟨Val.tuple parts, evals_var.2 ⟨rfl, rfl⟩, ?_⟩, hrow⟩
  exact hpart

/-- A key and its value side by side. -/
theorem returns_flatten {keys : Finset Val} {f : Val → Val}
    (hin : input.PerKey E tables ks us keys f) :
    Returns (flatten input) fun op => op.Carries E tables (ks ++ us)
      (∑ k ∈ keys, Finsupp.single (k.beside (f k)) 1) := by
  refine returns_checked fun parts hparts => ?_
  obtain rfl := Except.ok.inj ((indexedParts_of_ty hin.ty).symm.trans hparts)
  refine returns_checked fun param hparam => returns_checked fun keyCells hkeys =>
    returns_checked fun valueCells hvalues => ?_
  rw [hin.ty] at hparam
  obtain rfl := Except.ok.inj hparam
  have hkeys : columns (partOf ks us 0 ks) (List.range ks.length) = .ok keyCells := hkeys
  have hvalues : columns (partOf ks us 1 us) (List.range us.length) = .ok valueCells := hvalues
  have hdelivers : ∀ k ∈ keys, (Expr.tuple (keyCells ++ valueCells)).Delivers E.runtime
      [("kv", Val.tuple [Val.ref k, Val.ref (f k)])] (k.beside (f k)) := by
    intro k hk
    refine delivers_tuple (List.rel_append ?_ ?_)
    · exact delivers_allColumns (refersTo_partOf rfl (hin.key k hk)) hkeys
    · exact delivers_allColumns (refersTo_partOf rfl (hin.value k hk)) hvalues
  refine (returns_emit Operator.makes_map).mono fun op hop => ?_
  obtain ⟨htyped, hcontents⟩ := hop
  refine ⟨?_, ?_, fun row hrow => ?_⟩
  · rw [htyped.map_closure, Expr.tuple, List.map_append, types_of_allColumns rfl hkeys,
      types_of_allColumns rfl hvalues]
  · rw [hcontents, List.map_singleton, hin.contents]
    change ZSet.mapRows _ _ = _
    rw [map_sum]
    refine Finset.sum_congr rfl fun k hk => ?_
    rw [ZSet.mapRows_single, Engine.row_parts (hdelivers k hk).evals]
  · obtain ⟨k, hk, hrow⟩ := Finset.mem_biUnion.1 (Finsupp.support_finsetSum hrow)
    obtain rfl := Finset.mem_singleton.1 (Finsupp.support_single_subset hrow)
    exact (hin.key k hk).beside (hin.value k hk)

section Default

variable {row : Expr} {value : Expr} {v : Val}

theorem returns_negate (hin : input.Carries E tables types x) :
    Returns (emit (Operator.negate input)) fun op => op.Carries E tables types (-x) := by
  refine (returns_emit (Operator.makes_unary rfl (by simp [OperatorKind.mark?]))).mono
    fun op hop => ?_
  obtain ⟨htyped, hcontents⟩ := hop
  refine ⟨?_, ?_, fun row hrow => hin.rows row (Finsupp.support_neg x ▸ hrow)⟩
  · rw [← htyped.eq_of_mem (.inl rfl) input.ty (by simp), hin.ty]
  · rw [hcontents, List.map_singleton, hin.contents]
    rfl

/-- A collection of one row. -/
theorem returns_constant (hrow : row.Delivers E.runtime [] v)
    (h : Expr.zset (Ty.tuple types) [(row, 1)] = .ok value) :
    Returns (emit (Operator.constant value)) fun op =>
      op.Carries E tables types (Finsupp.single v 1) := by
  obtain ⟨hty, rfl⟩ := zset_eq_ok h
  have hty : row.ty = Ty.tuple types := hty (row, 1) (by simp)
  have hvalue : valueOf E.runtime [] ⟨.literal (.zset [(row, 1)]), Ty.zset (Ty.tuple types)⟩ =
      some (.node (.zset [1]) [v]) :=
    valueOf_eq_some.2 ⟨0, (evals_head rfl).2 ⟨[v], evalsAll_cons.2
      ⟨v, 0, [], 0, hrow.evals, evalsAll_nil.2 ⟨rfl, rfl⟩, rfl, rfl⟩, rfl⟩⟩
  refine (returns_emit Operator.makes_constant).mono fun op hop => ?_
  obtain ⟨htyped, hcontents⟩ := hop
  refine ⟨htyped.constant_ty, ?_, fun r hr => ?_⟩
  · rw [hcontents]
    simp [OperatorKind.contents, Engine.meaning, hvalue, Val.rows]
  · obtain rfl := Finset.mem_singleton.1 (Finsupp.support_single_subset hr)
    have hdatum := hrow.datum
    rwa [hty] at hdatum

/-- The row of the calls over nothing is there when there is no other row. -/
theorem returns_defaultWhenEmpty {accumulators : List Accumulator}
    (hin : input.Carries E tables types x) (hlength : accumulators.length = types.length)
    (hx : x = 0 ∨ ∃ row, x = Finsupp.single row 1) :
    Returns (defaultWhenEmpty input accumulators) fun op =>
      op.contents E.meaning tables = if x = 0 then
        Finsupp.single (Val.tuple (accumulators.map Accumulator.overNothing)) 1 else x := by
  refine returns_checked fun fields hfields => returns_checked fun element helement =>
    returns_checked fun value hvalue => ?_
  obtain rfl := Except.ok.inj ((rowFields_of_ty hin.ty).symm.trans hfields)
  obtain rfl := Except.ok.inj ((element_of_ty hin.ty).symm.trans helement)
  set v := Val.tuple (accumulators.map Accumulator.overNothing)
  have hvalues : accumulators.map Accumulator.overNothing =
      (accumulators.zip types).map fun cell => cell.1.overNothing :=
    (congrArg (List.map _) (List.map_fst_zip hlength.le)).symm.trans List.map_map
  have hdelivers : ∀ ρ, (Expr.tuple ((accumulators.zip types).map fun cell =>
      cell.1.emptyValue cell.2)).Delivers E.runtime ρ v := by
    intro ρ
    refine delivers_tuple ?_
    rw [hvalues, List.forall₂_map_left_iff, List.forall₂_map_right_iff, List.forall₂_same]
    exact fun cell _ => cell.1.delivers_emptyValue cell.2
  have hconstant : Returns (emit (Operator.constant value)) fun op =>
      op.Carries E tables types (Finsupp.single v 1) := returns_constant (hdelivers []) hvalue
  refine hconstant.bind fun constant hconstant => ?_
  have hty := (zset_eq_ok hvalue).1 _ List.mem_cons_self
  refine (returns_map hin hty fun r _ => hdelivers (rowEnv r)).bind fun replaced hreplaced => ?_
  refine (returns_negate hreplaced).bind fun negated hnegated => ?_
  refine (returns_sum (.cons hin (.cons hconstant (.cons hnegated .nil)))).mono fun op hop => ?_
  rw [hop.contents]
  rcases hx with rfl | ⟨r, rfl⟩
  · simp
  · simp

end Default

section Calls

variable {domains : Nat → Domain} {group : List Nat} {calls : List AggregateCall}

theorem computes_overNothing {accumulators : List Accumulator}
    (h : calls.mapM (fun call => call.accumulator types) = .ok accumulators) :
    Forall₂ (fun call v => AggregateCall.Computes domains call 0 v) calls
      (accumulators.map Accumulator.overNothing) := by
  rw [List.forall₂_map_right_iff]
  exact (mapM_eq_ok.1 h).imp fun call a ha =>
    (AggregateCall.of_accumulator ha).2 0 _ a.computes_overNothing

theorem aggregates_fold {fold : Expr} (hfold : E.FoldsCalls domains types calls fold us)
    (hx : x.Nonneg) (hrows : ∀ row ∈ x.support, row.IsRow types) :
    x.Aggregates domains calls group fun k =>
      E.meaning.fold fold (x.keepRows fun row => row.pick group = k) :=
  fun _ _ => hfold.computes (hx.keepRows _) fun row hrow => hrows row (ZSet.mem_keepRows hrow)

/-- All rows as one group, or the row of the calls over nothing. -/
theorem returns_global {flat : Operator} {accumulators : List Accumulator} {fold : Expr}
    (hx : x.Nonneg) (hrows : ∀ row ∈ x.support, row.IsRow types)
    (haccumulators : calls.mapM (fun call => call.accumulator types) = .ok accumulators)
    (hfold : E.FoldsCalls domains types calls fold us)
    (hflat : flat.Carries E tables us (∑ k ∈ x.support.image (Val.pick []),
      Finsupp.single (k.beside (E.meaning.fold fold (x.keepRows fun row => row.pick [] = k))) 1)) :
    Returns (defaultWhenEmpty flat accumulators) fun op => ∃ results,
      x.Aggregates domains calls [] results ∧ op.contents E.meaning tables =
        ∑ k ∈ x.groups [], Finsupp.single (k.beside (results k)) 1 := by
  have hnone := hfold.row (x := 0) (fun _ => le_rfl) (by simp)
  have hlength : accumulators.length = us.length := by
    rw [← (mapM_eq_ok.1 haccumulators).length_eq, ← hnone.length]
    exact (hfold.computes (x := 0) (fun _ => le_rfl) (by simp)).length_eq
  by_cases hempty : x = 0
  · subst hempty
    refine (returns_defaultWhenEmpty hflat hlength (.inl (by simp))).mono fun op hop => ?_
    refine ⟨fun _ => Val.tuple (accumulators.map Accumulator.overNothing), fun k _ => ?_, ?_⟩
    · rw [map_zero]
      exact computes_overNothing haccumulators
    · rw [ZSet.groups, if_pos rfl, Finset.sum_singleton]
      exact hop.trans (if_pos (by simp))
  · have hone : x.support.image (Val.pick []) = {Val.unit} :=
      Finset.image_const (Finsupp.support_nonempty_iff.2 hempty) Val.unit
    rw [hone, Finset.sum_singleton] at hflat
    refine (returns_defaultWhenEmpty hflat hlength (.inr ⟨_, rfl⟩)).mono fun op hop => ?_
    refine ⟨_, aggregates_fold hfold hx hrows, ?_⟩
    simpa [ZSet.groups] using hop

/-- An aggregate with calls puts out one row for each group. -/
theorem returns_aggregates (hE : E.FoldsAll) (hrt : E.runtime.Aggregating)
    (hin : input.Carries E tables types x) (hx : x.Nonneg) (hcalls : calls ≠ [])
    (hsupported : ∀ call ∈ calls, call.Supported E.runtime domains types) :
    Returns (aggregate input group calls) fun op => ∃ results,
      x.Aggregates domains calls group results ∧ op.contents E.meaning tables =
        ∑ k ∈ x.groups group, Finsupp.single (k.beside (results k)) 1 := by
  refine returns_checked fun fields hfields => ?_
  obtain rfl := Except.ok.inj ((rowFields_of_ty hin.ty).symm.trans hfields)
  split
  · exact returns_check nofun
  rename_i hrange
  obtain ⟨ks, hks⟩ : ∃ ks : List Ty, group.map (fun c => types[c]?) = ks.map some :=
    exists_types fun c hc => by simpa using List.find?_eq_none.1 hrange c hc
  rw [if_neg (by simpa using hcalls)]
  refine returns_checked fun accumulators haccumulators => returns_checked fun fold hfold => ?_
  obtain ⟨element, helement, hfold⟩ := except_bind_eq_ok.1 hfold
  obtain rfl := Except.ok.inj ((element_of_ty hin.ty).symm.trans helement)
  obtain ⟨us, hfold⟩ := exists_foldsCalls hE hrt hsupported haccumulators hfold
  refine (returns_picked hin hks).bind fun indexed hindexed => ?_
  refine (returns_aggregate hindexed (fun row hrow => (hin.rows row hrow).pick hks) hx hfold).bind
    fun grouped hgrouped => ?_
  refine (returns_flatten hgrouped).bind fun flat hflat => ?_
  split
  · rename_i hnone
    obtain rfl := List.isEmpty_iff.1 hnone
    obtain rfl : ks = [] := by simpa using hks.symm
    exact returns_global hx hin.rows haccumulators hfold hflat
  · rename_i hsome
    refine returns_pure ⟨_, aggregates_fold hfold hx hin.rows, hflat.contents.trans ?_⟩
    rw [ZSet.groups, if_neg (by simpa using hsome)]

end Calls

end Lower

namespace Rel

variable {a : Rel} {relations : List (String × Operator)} {group : List Nat}
  {calls : List AggregateCall} {input op : Operator} {types : List Ty} {c₀ c₁ c : Circuit}
  {ctx₀ ctx₁ ctx : Context}

/-- An aggregate makes its operators from the stream of its input. -/
theorem aggregate_returns {p : Operator → Prop}
    (hinput : a.stream relations c₀ ctx₀ = (.ok (input, c₁), ctx₁))
    (h : (Rel.aggregate a group calls).stream relations c₀ ctx₀ = (.ok (op, c), ctx))
    (hpost : Lower.Returns (Lower.aggregate input group calls) p) : p op := by
  rw [stream] at h
  split at h
  · cases h
  · obtain ⟨i, c₂, ctx₂, hi, h⟩ := Lower.bind_eq_ok.1 h
    obtain ⟨⟨⟨⟩⟩, ⟨⟩⟩ := hinput.symm.trans hi
    exact hpost _ _ _ _ _ h

/-- The stream of an aggregate with calls is a member of the circuit, which stays in order. It puts
out, once, one row for each group of its input, the key and the values of the calls over the rows of
the group. Without group columns there is one group, and over no rows its values are those of the
calls over nothing. -/
theorem rows_of_aggregate (hinput : a.stream relations c₀ ctx₀ = (.ok (input, c₁), ctx₁))
    (htypes : input.ty = Ty.zset (Ty.tuple types)) (hcalls : calls ≠ [])
    (h : (Rel.aggregate a group calls).stream relations c₀ ctx₀ = (.ok (op, c), ctx)) :
    (c₀.Hosts relations ctx₀ → c.WellFormed ctx ∧ c₀.Grows c ∧ op ∈ c.operators) ∧
    ∀ (E : Engine) (tables : Tables) (domains : Nat → Domain), E.FoldsAll →
      E.runtime.Aggregating → (∀ call ∈ calls, call.Supported E.runtime domains types) →
      (input.contents E.meaning tables).Fits input.ty →
      (input.contents E.meaning tables).Nonneg →
      ∃ results,
        (input.contents E.meaning tables).Aggregates domains calls group results ∧
        (∀ row, op.contents E.meaning tables row =
          if ∃ k ∈ (input.contents E.meaning tables).groups group, row = k.beside (results k)
          then 1 else 0) ∧
        (group = [] → input.contents E.meaning tables = 0 →
          op.contents E.meaning tables =
            Finsupp.single (Val.tuple (calls.map AggregateCall.overNothing)) 1) := by
  refine ⟨fun hhosts => hhosts.stream h, ?_⟩
  intro E tables domains hE hrt hsupported hfits hnonneg
  have hin := carries_of_fits htypes hfits
  obtain ⟨results, hresults, hcontents⟩ := aggregate_returns (p := fun op => ∃ results,
    (input.contents E.meaning tables).Aggregates domains calls group results ∧
      op.contents E.meaning tables = _) hinput h
    (Lower.returns_aggregates hE hrt hin hnonneg hcalls hsupported)
  refine ⟨results, hresults, fun row => ?_, fun hgroup hempty => ?_⟩
  · rw [hcontents]
    refine ZSet.sum_single_apply (fun k hk k' hk' heq => ?_) row
    obtain ⟨r, rfl⟩ := ZSet.exists_pick hk
    obtain ⟨r', rfl⟩ := ZSet.exists_pick hk'
    exact Val.eq_of_beside heq
  · subst hgroup
    have hcells := hresults Val.unit (by simp [ZSet.groups])
    rw [hempty, map_zero] at hcells
    have hvalues : (results Val.unit).cells = calls.map AggregateCall.overNothing := by
      rw [← List.forall₂_eq_eq_eq, List.forall₂_map_right_iff]
      exact (hcells.imp fun _ _ hv => hv.eq_overNothing).flip
    rw [hcontents, hempty, ZSet.groups, if_pos rfl, Finset.sum_singleton, Val.beside, hvalues]
    rfl

section Sales

/-- Sales have a region and an amount, either of which may be unknown. -/
def saleStream : Operator :=
  ⟨0, "stream0", .source "Sale", [], Ty.zset (Ty.tuple [Ty.int32.nullable, Ty.int32.nullable]),
    true⟩

def saleTables : Circuit := { Circuit.empty "sales" with sources := [saleStream] }

def saleTable : Table :=
  ⟨"Sale", [⟨"region", Ty.int32.nullable⟩, ⟨"amount", Ty.int32.nullable⟩], []⟩

theorem hosts_sales : saleTables.Hosts [("Sale", saleStream)] ⟨⟨[("stream", 1)]⟩, 1⟩ := by
  have hadded : [saleTable].foldlM Plan.addTableStream [] (Circuit.empty "sales") Context.empty =
      (.ok ([("Sale", saleStream)], saleTables), ⟨⟨[("stream", 1)]⟩, 1⟩) := rfl
  exact Plan.hosts_tables hadded

/-- All calls over the amounts. -/
def saleCalls : List AggregateCall :=
  ⟨.count, none, false⟩ ::
    [AggregateFunction.count, .sum, .min, .max, .avg].map fun f => ⟨f, some 1, false⟩

def sale (region amount : Val) : Val := Val.tuple [region, amount]

def price : Val := .atom (.int .w32 5)

/-- Two sales of five and one of an unknown amount, all in an unknown region. -/
noncomputable def saleRows : Tables
  | "Sale" => Finsupp.single (sale Val.null Val.null) 1 + Finsupp.single (sale Val.null price) 2
  | _ => 0

theorem fits_sales : (saleRows "Sale").Fits saleStream.ty := by
  have hsale : ∀ amount : Val, amount.IsDatum Ty.int32.nullable →
      (sale Val.null amount).IsRow [Ty.int32.nullable, Ty.int32.nullable] := fun amount h =>
    Val.isRow_tuple.2 (.cons ⟨rfl, .atom rfl⟩ (.cons h .nil))
  refine ZSet.Fits.add (.single (hsale _ ⟨rfl, .atom rfl⟩)) (.single (hsale _ ⟨rfl, .atom rfl⟩))

theorem nonneg_sales : (saleRows "Sale").Nonneg :=
  .add (.single (by decide) _) (.single (by decide) _)

/-- The sales of a known amount. -/
theorem known_sales : (saleRows "Sale").known 1 = Finsupp.single (sale Val.null price) 2 := by
  rw [saleRows, map_add, ZSet.known, ZSet.keepRows_single, ZSet.keepRows_single]
  simp [sale, price, Val.cell, Val.null, Val.isNull]

theorem unknown_region_sales :
    (saleRows "Sale").keepRows (fun row => row.pick [0] = Val.tuple [Val.null]) =
      saleRows "Sale" := by
  rw [saleRows, map_add, ZSet.keepRows_single, ZSet.keepRows_single]
  simp [sale, Val.pick, Val.cell]

theorem eq_price {le : Val → Val → Prop} {v : Val}
    (h : (saleRows "Sale").IsExtremum le 1 v) : v = price := by
  unfold ZSet.IsExtremum at h
  rw [known_sales, if_neg (by simp)] at h
  obtain ⟨⟨row, hrow, rfl⟩, -⟩ := h
  obtain rfl := Finset.mem_singleton.1 (Finsupp.support_single_subset hrow)
  rfl

theorem sales_values {v : List Val} (h : Forall₂ (fun call v => AggregateCall.Computes
    (fun _ => Domain.integers .w32) call (saleRows "Sale") v) saleCalls v) :
    v = [Val.int64 3, Val.int64 2, .atom (.int .w32 10), price, price, price] := by
  have hsize : (saleRows "Sale").size = 3 := by
    rw [saleRows, ZSet.size_add_single, ZSet.size_single]
    rfl
  have hknown : ((saleRows "Sale").known 1).size = 2 := by
    rw [known_sales, ZSet.size_single]
  have hsome : (saleRows "Sale").known 1 ≠ 0 := by
    rw [known_sales]
    simp
  have htotal : (saleRows "Sale").total (Domain.integers .w32) 1 = (10 : ℤ) := by
    rw [ZSet.total, known_sales, Finsupp.sum_single_index]
    · rfl
    · simp
  simp only [saleCalls, List.map_cons, List.map_nil, List.forall₂_cons_left_iff,
    List.forall₂_nil_left_iff] at h
  obtain ⟨a, _, ha, ⟨b, _, hb, ⟨c, _, hc, ⟨d, _, hd, ⟨e, _, he, ⟨f, _, hf, rfl, rfl⟩,
    rfl⟩, rfl⟩, rfl⟩, rfl⟩, rfl⟩ := h
  obtain rfl : a = Val.int64 3 := hsize ▸ ha
  obtain rfl : b = Val.int64 2 := hknown ▸ hb
  obtain rfl : c = .atom (.int .w32 10) := hc.trans ((if_neg hsome).trans (congrArg _ htotal))
  obtain rfl : d = price := eq_price hd
  obtain rfl : e = price := eq_price he
  obtain rfl : f = price := by
    refine hf.trans ((if_neg hsome).trans ?_)
    rw [htotal, hknown]
    rfl
  rfl

/-- The sales in an unknown region are one group, and there is a row over no sales at all. -/
theorem sales_aggregate_rows : (∃ op c ctx, (Rel.aggregate (.scan "Sale") [0] saleCalls).stream
      [("Sale", saleStream)] saleTables ⟨⟨[("stream", 1)]⟩, 1⟩ = (.ok (op, c), ctx) ∧
      c.WellFormed ctx ∧ op ∈ c.operators ∧
      op.contents (Engine.meaning .calculating) saleRows (Val.tuple [Val.null, Val.int64 3,
        Val.int64 2, .atom (.int .w32 10), price, price, price]) = 1) ∧
    ∃ op c ctx, (Rel.aggregate (.scan "Sale") [] saleCalls).stream
      [("Sale", saleStream)] saleTables ⟨⟨[("stream", 1)]⟩, 1⟩ = (.ok (op, c), ctx) ∧
      c.WellFormed ctx ∧ op ∈ c.operators ∧
      op.contents (Engine.meaning .calculating) (fun _ => 0) = Finsupp.single (Val.tuple
        [Val.int64 0, Val.int64 0, Val.null, Val.null, Val.null, Val.null]) 1 := by
  have hlowers : ∀ group ∈ [[0], []], ∃ op c ctx,
      (Rel.aggregate (.scan "Sale") group saleCalls).stream [("Sale", saleStream)] saleTables
        ⟨⟨[("stream", 1)]⟩, 1⟩ = (.ok (op, c), ctx) := by
    intro group hgroup
    have hok : ((Rel.aggregate (.scan "Sale") group saleCalls).stream
        [("Sale", saleStream)] saleTables ⟨⟨[("stream", 1)]⟩, 1⟩).1.isOk := by
      revert group
      decide +kernel
    obtain ⟨⟨op, c⟩, ctx, h⟩ := Compile.exists_of_isOk hok
    exact ⟨op, c, ctx, h⟩
  have hsupported : ∀ call ∈ saleCalls, call.Supported Runtime.arithmetic
      (fun _ => Domain.integers .w32) [Ty.int32.nullable, Ty.int32.nullable] := fun call _ =>
    AggregateCall.supported_arithmetic (by simp [Ty.nullable, Ty.int32, Ty.withNull]) call
  constructor
  · obtain ⟨op, c, ctx, h⟩ := hlowers [0] (by simp)
    obtain ⟨hmember, hrows⟩ := rows_of_aggregate (a := .scan "Sale") rfl rfl (by decide) h
    obtain ⟨hc, -, hop⟩ := hmember hosts_sales
    obtain ⟨results, hresults, hrows, -⟩ := hrows .calculating saleRows
      (fun _ => Domain.integers .w32) Engine.calculating_foldsAll Runtime.arithmetic_aggregating
      hsupported fits_sales nonneg_sales
    have hkey : Val.tuple [Val.null] ∈ (saleRows "Sale").groups [0] := by
      refine Finset.mem_image.2 ⟨sale Val.null price, ?_, rfl⟩
      have hmem : sale Val.null price ∈ ((saleRows "Sale").known 1).support := by
        rw [known_sales]
        simp
      exact (ZSet.mem_known.1 hmem).1
    have hvalues := hresults _ hkey
    refine ⟨op, c, ctx, h, hc, hop, (hrows _).trans (if_pos ⟨_, hkey, ?_⟩)⟩
    change Forall₂ (fun call v => AggregateCall.Computes _ call
      ((saleRows "Sale").keepRows _) v) saleCalls _ at hvalues
    rw [unknown_region_sales] at hvalues
    rw [Val.beside, sales_values hvalues]
    rfl
  · obtain ⟨op, c, ctx, h⟩ := hlowers [] (by simp)
    obtain ⟨hmember, hrows⟩ := rows_of_aggregate (a := .scan "Sale") rfl rfl (by decide) h
    obtain ⟨hc, -, hop⟩ := hmember hosts_sales
    have hfits : (0 : ZSet).Fits saleStream.ty := fun row hrow => by simp at hrow
    obtain ⟨results, -, -, hempty⟩ := hrows .calculating (fun _ => 0)
      (fun _ => Domain.integers .w32) Engine.calculating_foldsAll Runtime.arithmetic_aggregating
      hsupported hfits (fun _ => le_rfl)
    exact ⟨op, c, ctx, h, hc, hop, hempty rfl rfl⟩

end Sales

end Rel

end ViewCircuit
