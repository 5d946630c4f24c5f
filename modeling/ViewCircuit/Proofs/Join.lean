import ViewCircuit.Proofs.Rows

/-! Inner joins. The equations of a condition between columns of both sides become keys of a join,
and the other conjuncts a filter over it; together this gives the pairs that satisfy the
condition. -/
namespace ViewCircuit

open List (Forall₂)
open scoped Classical

theorem Ty.nonNull_of_not {t : Ty} (h : t.mayBeNull = false) : t.nonNull = t := by
  obtain ⟨kind, n⟩ := t
  obtain rfl : n = false := h
  rfl

theorem forall_mem_iff_of_forall₂ {α β : Type} {p : α → Prop} {q : β → Prop} {xs : List α}
    {ys : List β} (h : Forall₂ (fun a b => p a ↔ q b) xs ys) :
    (∀ a ∈ xs, p a) ↔ ∀ b ∈ ys, q b := by
  induction h with
  | nil => simp
  | cons hpq _ ih => rw [List.forall_mem_cons, List.forall_mem_cons, hpq, ih]

section Cells

variable {rt : Runtime} {ρ : Env} {t e : Expr} {types : List Ty} {row : Val} {v : Val} {ty : Ty}
  {c : Nat}

/-- A conversion within one kind of types keeps the value. -/
theorem delivers_cast (hlogic : rt.Logical) (he : e.Delivers rt ρ v) (hkind : e.ty.kind = ty.kind)
    (hnull : v.isNull → ty.mayBeNull) : (Expr.cast e ty).Delivers rt ρ v := by
  have hty : v.HasTy ty := by
    obtain ⟨kind, n⟩ := ty
    obtain rfl : e.ty.kind = kind := hkind
    exact he.datum.2.withNull hnull
  refine ⟨(evals_head_one rfl).2 ⟨v, he.evals, ?_⟩, he.datum.1, hty⟩
  change v.cast rt ty = some v
  cases hv : v.isNull with
  | true =>
    obtain rfl := Val.eq_null_of_isNull hv
    exact if_pos (hnull hv)
  | false =>
    rw [Val.cast_eq_run hv]
    have hdata : Val.allData [v] := by simpa [Val.allData] using he.datum.1
    exact Runtime.run_eq_some.2 ⟨hdata, hlogic.cast he.datum.2 hkind hv, he.datum.1⟩

namespace Lower

/-- The type of a key. -/
def keyType (types : List Ty) (c : Nat) : Ty := ((types[c]?).getD Ty.any).nonNull

theorem type_of_keyColumn (ht : t.ty = Ty.ref (Ty.tuple types)) (h : keyColumn t c = .ok e) :
    e.ty = keyType types c := by
  obtain ⟨column, hcolumn, h⟩ := except_bind_eq_ok.1 h
  obtain ⟨hty, -⟩ := type_of_field ht hcolumn
  obtain rfl := Except.ok.inj h
  rw [keyType, hty, Option.getD_some]
  split
  · rfl
  · exact (Ty.nonNull_of_not (by simpa using ‹¬column.ty.mayBeNull = true›)).symm

/-- A key that is not NULL keeps its value. -/
theorem delivers_keyColumn (hlogic : rt.Logical) (ht : t.RefersTo rt ρ types row)
    (h : keyColumn t c = .ok e) (hnull : (row.cell c).isNull = false) :
    e.Delivers rt ρ (row.cell c) := by
  obtain ⟨column, hcolumn, h⟩ := except_bind_eq_ok.1 h
  have hdelivers := ht.field hcolumn
  obtain rfl := Except.ok.inj h
  split
  · exact delivers_cast hlogic hdelivers rfl fun hv => by simp [hnull] at hv
  · exact hdelivers

theorem holds_conjunction (hlogic : rt.Logical) {first : Expr} {rest : List Expr}
    (h : rest.foldlM (Expr.binary .and) first = .ok e) :
    e.Holds rt ρ ↔ ∀ e' ∈ first :: rest, e'.Holds rt ρ := by
  induction rest generalizing first with
  | nil =>
    cases h
    simp
  | cons second rest ih =>
    obtain ⟨both, hboth, h⟩ := except_bind_eq_ok.1 h
    rw [ih h, List.forall_mem_cons, holds_binary_and hlogic hboth, List.forall_mem_cons,
      List.forall_mem_cons, and_assoc]

end Lower

end Cells

namespace Lower

variable {E : Engine} {tables : Tables} {input left right op : Operator}
  {types lts rts us : List Ty} {x y z : ZSet} {row l r : Val}

/-- Rows with NULL in a key are dropped. -/
theorem returns_dropNullKeys (hlogic : E.runtime.Logical) {keys : List Nat}
    (hin : input.Carries E tables types x) (hkeys : ∀ c ∈ keys, c < types.length) :
    Returns (dropNullKeys input keys) fun op => op.Carries E tables types
      (x.keepRows fun row => ∀ c ∈ keys, (row.cell c).isNull = false) := by
  refine returns_checked fun fields hfields => returns_checked fun element helement =>
    returns_checked fun checks hchecks => returns_checked fun predicate? hpredicate => ?_
  obtain rfl := Except.ok.inj ((rowFields_of_ty hin.ty).symm.trans hfields)
  obtain rfl := Except.ok.inj ((element_of_ty hin.ty).symm.trans helement)
  -- a column that may not be NULL needs no check
  have hunchecked : ∀ row ∈ x.support, ∀ c ∈ keys,
      (types[c]?.map Ty.mayBeNull).getD false = false → (row.cell c).isNull = false := by
    intro row hrow c hc hnot
    obtain ⟨ty, hty⟩ : ∃ ty, types[c]? = some ty := ⟨_, List.getElem?_eq_getElem (hkeys c hc)⟩
    refine ((hin.rows row hrow).cell hty).2.isNull_eq_false ?_
    simpa [hty] using hnot
  have hchecked : ∀ row ∈ x.support, (∀ c ∈ keys, (row.cell c).isNull = false) ↔
      ∀ e ∈ checks, e.Holds E.runtime (rowEnv row) := by
    intro row hrow
    have hiff := (mapM_eq_ok.1 hchecks).imp fun c e he => by
      obtain ⟨column, hcolumn, he⟩ := except_bind_eq_ok.1 he
      have hdelivers := (refersTo_row (E := E) (hin.rows row hrow)).field hcolumn
      exact (holds_not_isNull hlogic he hdelivers.evals).symm
    rw [← forall_mem_iff_of_forall₂ hiff]
    constructor
    · exact fun h c hc => h c (List.mem_filter.1 hc).1
    · intro h c hc
      by_cases hnull : (types[c]?.map Ty.mayBeNull).getD false
      · exact h c (List.mem_filter.2 ⟨hc, hnull⟩)
      · exact hunchecked row hrow c hc (by simpa using hnull)
  cases checks with
  | nil =>
    cases hpredicate
    refine returns_pure ?_
    have hall : (x.keepRows fun row => ∀ c ∈ keys, (row.cell c).isNull = false) = x := by
      rw [ZSet.keepRows_congr (q := fun _ => True) fun row hrow => by simp [hchecked row hrow]]
      ext row
      simp
    rwa [hall]
  | cons first rest =>
    obtain ⟨predicate, hconjunction, hpredicate⟩ := except_bind_eq_ok.1 hpredicate
    cases hpredicate
    refine (returns_filter hin).mono fun op hop => ?_
    rwa [ZSet.keepRows_congr fun row hrow =>
      (hchecked row hrow).trans (holds_conjunction hlogic hconjunction).symm]

section Matching

/-- Whether a joined row satisfies an equation between a column of either side. -/
def Equates (k : Nat × Nat) (l r : Val) : Prop :=
  (l.cell k.1).isNull = false ∧ l.cell k.1 = r.cell k.2

theorem cell_beside_left {c : Nat} (hl : l.IsRow lts) (hc : c < lts.length) :
    (l.beside r).cell c = l.cell c := by
  have hlength : c < l.cells.length := hl.length ▸ hc
  rw [Val.cell, Val.cells_beside, List.getElem?_append_left hlength, Val.cell]

theorem cell_beside_right {c : Nat} (hl : l.IsRow lts) (hc : lts.length ≤ c) :
    (l.beside r).cell c = r.cell (c - lts.length) := by
  have hlength : l.cells.length ≤ c := hl.length ▸ hc
  rw [Val.cell, Val.cells_beside, List.getElem?_append_right hlength, hl.length, Val.cell]

/-- The columns that a key names. -/
theorem equiKey?_eq_some {s : Scalar} {k : Nat × Nat} (h : s.equiKey? lts rts = some k) :
    ∃ lt rt, lts[k.1]? = some lt ∧ rts[k.2]? = some rt ∧ lt.kind = rt.kind ∧
      (s = .binary .eq (.column k.1) (.column (lts.length + k.2)) ∨
        s = .binary .eq (.column (lts.length + k.2)) (.column k.1)) := by
  unfold Scalar.equiKey? at h
  split at h
  · rename_i a b
    obtain ⟨hsides, hshape⟩ := Option.filter_eq_some_iff.1 h
    have hcolumns : ∃ lt rt, lts[k.1]? = some lt ∧ rts[k.2]? = some rt ∧ lt.kind = rt.kind := by
      dsimp only at hshape
      split at hshape
      · exact ⟨_, _, by assumption, by assumption, (Ty.sameShape_iff _ _).1 hshape⟩
      · cases hshape
    obtain ⟨lt, rt, hlt, hrt, hkind⟩ := hcolumns
    refine ⟨lt, rt, hlt, hrt, hkind, ?_⟩
    split at hsides
    · rename_i hab
      obtain rfl := Option.some.inj hsides
      exact .inl (by rw [Nat.add_sub_cancel' hab.2])
    · split at hsides
      · rename_i hba
        obtain rfl := Option.some.inj hsides
        exact .inr (by rw [Nat.add_sub_cancel' hba.2])
      · cases hsides
  · cases h

variable (hrt : E.runtime.Typed) (hlogic : E.runtime.Logical) (hl : l.IsRow lts) (hr : r.IsRow rts)

include hlogic hl hr

/-- A key holds of a joined row when it equates its columns. -/
theorem holds_equiKey {s : Scalar} {k : Nat × Nat} {e : Expr}
    (hkey : s.equiKey? lts rts = some k)
    (h : s.toExpr (rowParam (Ty.tuple (lts ++ rts))).var = .ok e) :
    e.Holds E.runtime (rowEnv (l.beside r)) ↔ Equates k l r := by
  obtain ⟨lt, rt, hlt, hrt, hkind, hs⟩ := equiKey?_eq_some hkey
  have hrow := refersTo_row (E := E) (hl.beside hr)
  have hlength : k.1 < lts.length := (List.getElem?_eq_some_iff.1 hlt).1
  have hleft : (l.beside r).cell k.1 = l.cell k.1 := cell_beside_left hl hlength
  have hright : (l.beside r).cell (lts.length + k.2) = r.cell k.2 := by
    rw [cell_beside_right hl (Nat.le_add_right _ _), Nat.add_sub_cancel_left]
  have hleftty : (lts ++ rts)[k.1]? = some lt := by
    rw [List.getElem?_append_left hlength, hlt]
  have hrightty : (lts ++ rts)[lts.length + k.2]? = some rt := by
    rw [List.getElem?_append_right (Nat.le_add_right _ _), Nat.add_sub_cancel_left, hrt]
  -- both orders of the columns of the equation
  have hequation : ∀ {a b : Nat} {ta tb : Ty}, (lts ++ rts)[a]? = some ta →
      (lts ++ rts)[b]? = some tb → ta.kind = tb.kind →
      (Scalar.binary .eq (.column a) (.column b)).toExpr
        (rowParam (Ty.tuple (lts ++ rts))).var = .ok e →
      (e.Holds E.runtime (rowEnv (l.beside r)) ↔
        ((l.beside r).cell a).isNull = false ∧ (l.beside r).cell a = (l.beside r).cell b) := by
    intro a b ta tb ha hb hkinds h
    obtain ⟨ea, hea, h⟩ := except_bind_eq_ok.1 h
    obtain ⟨eb, heb, h⟩ := except_bind_eq_ok.1 h
    obtain ⟨hta, -⟩ := type_of_field hrow.ty hea
    obtain ⟨htb, -⟩ := type_of_field hrow.ty heb
    obtain rfl := Option.some.inj (hta.symm.trans ha)
    obtain rfl := Option.some.inj (htb.symm.trans hb)
    have hda := hrow.field hea
    have hdb := hrow.field heb
    exact holds_apply_eq hlogic h hkinds hda.evals hdb.evals hda.datum.2 hdb.datum.2
      hda.datum.1 hdb.datum.1
  rcases hs with rfl | rfl
  · rw [hequation hleftty hrightty hkind h, hleft, hright]
    rfl
  · rw [hequation hrightty hleftty hkind.symm h, hleft, hright, Equates]
    constructor
    · rintro ⟨hnull, heq⟩
      exact ⟨heq ▸ hnull, heq.symm⟩
    · rintro ⟨hnull, heq⟩
      exact ⟨heq ▸ hnull, heq.symm⟩

include hrt

/-- A joined row satisfies the condition when it satisfies the keys and what is left of it. -/
theorem holds_split {condition : Scalar} {e : Expr}
    (h : condition.toCondition (rowParam (Ty.tuple (lts ++ rts))).var = .ok e) :
    e.Holds E.runtime (rowEnv (l.beside r)) ↔
      (∀ k ∈ condition.conjuncts.filterMap (Scalar.equiKey? lts rts), Equates k l r) ∧
      ∀ s ∈ condition.conjuncts.filter
        (fun s => (s.equiKey? lts rts).isNone && !s.isTrueLiteral),
        s.Holds E.runtime (rowEnv (l.beside r)) (rowParam (Ty.tuple (lts ++ rts))).var := by
  obtain ⟨c, hc, -⟩ := except_bind_eq_ok.1 h
  have hlowered := Scalar.toExpr_conjunct hc
  rw [Scalar.holds_condition hrt hlogic wellTyped_row (envTyped_row (hl.beside hr)) h]
  constructor
  · intro hall
    refine ⟨fun k hk => ?_, fun s hs => hall s (List.mem_filter.1 hs).1⟩
    obtain ⟨s, hs, hkey⟩ := List.mem_filterMap.1 hk
    obtain ⟨e', he'⟩ := hlowered s hs
    exact (holds_equiKey hlogic hl hr hkey he').1 ((Scalar.holds_iff he').1 (hall s hs))
  · rintro ⟨hkeys, hresidual⟩ s hs
    cases hkey : s.equiKey? lts rts with
    | some k =>
      obtain ⟨e', he'⟩ := hlowered s hs
      refine (Scalar.holds_iff he').2 ((holds_equiKey hlogic hl hr hkey he').2 ?_)
      exact hkeys k (List.mem_filterMap.2 ⟨s, hs, hkey⟩)
    | none =>
      by_cases htrue : s.isTrueLiteral
      · exact Scalar.holds_of_isTrueLiteral htrue
      · exact hresidual s (List.mem_filter.2 ⟨hs, by simp [hkey, htrue]⟩)

end Matching

section Columns

variable {rt : Runtime} {ρ : Env} {t : Expr}

/-- All columns of a row, one after another. -/
theorem delivers_allColumns (ht : t.RefersTo rt ρ types row) {es : List Expr}
    (h : columns t (List.range types.length) = .ok es) :
    Forall₂ (Expr.Delivers rt ρ) es row.cells := ht.row.map_cell ▸ ht.columns h

theorem types_of_allColumns {es : List Expr} (ht : t.ty = Ty.ref (Ty.tuple types))
    (h : columns t (List.range types.length) = .ok es) : es.map Expr.ty = types := by
  refine types_of_columns ht h (List.ext_getElem (by simp) fun i hi hi' => ?_)
  rw [List.length_map] at hi'
  simp [hi']

/-- Both rows side by side, as the function of a join makes them. -/
theorem delivers_sideBySide {k : Val} {ls rs : List Expr} (hl : l.IsRow lts) (hr : r.IsRow rts)
    (hls : columns (Param.var ⟨"l", Ty.ref (Ty.tuple lts)⟩) (List.range lts.length) = .ok ls)
    (hrs : columns (Param.var ⟨"r", Ty.ref (Ty.tuple rts)⟩) (List.range rts.length) = .ok rs) :
    (Expr.tuple (ls ++ rs)).Delivers rt (joinEnv k l r) (l.beside r) := by
  refine delivers_tuple (List.rel_append ?_ ?_)
  · exact delivers_allColumns ⟨rfl, evals_var.2 ⟨rfl, rfl⟩, hl⟩ hls
  · exact delivers_allColumns ⟨rfl, evals_var.2 ⟨rfl, rfl⟩, hr⟩ hrs

theorem type_of_sideBySide {ls rs : List Expr}
    (hls : columns (Param.var ⟨"l", Ty.ref (Ty.tuple lts)⟩) (List.range lts.length) = .ok ls)
    (hrs : columns (Param.var ⟨"r", Ty.ref (Ty.tuple rts)⟩) (List.range rts.length) = .ok rs) :
    (Expr.tuple (ls ++ rs)).ty = Ty.tuple (lts ++ rts) := by
  rw [Expr.tuple, List.map_append, types_of_allColumns rfl hls, types_of_allColumns rfl hrs]

end Columns

/-- Rows without NULL in their keys, under these. -/
theorem returns_keyed (hlogic : E.runtime.Logical) {κ : Type} {keys : List κ} {column : κ → Nat}
    (hin : input.Carries E tables types x)
    (hnull : ∀ row ∈ x.support, ∀ k ∈ keys, (row.cell (column k)).isNull = false) :
    Returns (indexWith input fun t => keys.mapM fun k => keyColumn t (column k)) fun op =>
      op.Keyed E tables (keys.map fun k => keyType types (column k)) types
        (fun row => Val.tuple (keys.map fun k => row.cell (column k))) x := by
  refine returns_indexWith hin fun es hes => ⟨?_, fun row hrow => ?_⟩
  · rw [← List.forall₂_eq_eq_eq, List.forall₂_map_left_iff, List.forall₂_map_right_iff]
    exact ((mapM_eq_ok.1 hes).imp fun _ _ he => type_of_keyColumn rfl he).flip
  · have hrow' := refersTo_row (E := E) (hin.rows row hrow)
    have hkeys := (List.forall₂_and_left _ _).2 ⟨hnull row hrow, mapM_eq_ok.1 hes⟩
    rw [List.forall₂_map_right_iff]
    exact (hkeys.imp fun _ _ h => delivers_keyColumn hlogic hrow' h.2 h.1).flip

/-- Keys are columns of their sides. -/
theorem lt_of_mem_equiKeys {terms : List Scalar} {k : Nat × Nat}
    (h : k ∈ terms.filterMap (Scalar.equiKey? lts rts)) :
    k.1 < lts.length ∧ k.2 < rts.length := by
  obtain ⟨s, -, hs⟩ := List.mem_filterMap.1 h
  obtain ⟨_, _, hlt, hrt, -⟩ := equiKey?_eq_some hs
  exact ⟨(List.getElem?_eq_some_iff.1 hlt).1, (List.getElem?_eq_some_iff.1 hrt).1⟩

/-- Rows with keys that are not NULL and the same satisfy the equations between the keys. -/
theorem equates_iff (keys : List (Nat × Nat)) (l r : Val) :
    ((∀ c ∈ keys.map Prod.fst, (l.cell c).isNull = false) ∧
      (∀ c ∈ keys.map Prod.snd, (r.cell c).isNull = false) ∧
      Val.tuple (keys.map fun k => l.cell k.1) = Val.tuple (keys.map fun k => r.cell k.2)) ↔
        ∀ k ∈ keys, Equates k l r := by
  simp only [List.forall_mem_map, Val.tuple, Val.node.injEq, true_and, List.map_inj_left]
  constructor
  · rintro ⟨hl, -, heq⟩ k hk
    exact ⟨hl k hk, heq k hk⟩
  · intro h
    exact ⟨fun k hk => (h k hk).1, fun k hk => (h k hk).2 ▸ (h k hk).1, fun k hk => (h k hk).2⟩

/-- Conjuncts that are no keys become a filter of the joined rows. -/
theorem returns_residual (hrt : E.runtime.Typed) (hlogic : E.runtime.Logical) {joined : Operator}
    {p : Val → Val → Prop} {condition first : Scalar} {rest : List Scalar}
    (hrows : ∀ l ∈ x.support, ∀ r ∈ y.support, Val.IsRow (lts ++ rts) (l.beside r))
    (hsubset : first :: rest ⊆ condition.conjuncts)
    (hjoined : joined.Carries E tables (lts ++ rts) (ZSet.pairs p Val.beside x y)) :
    Returns (filter joined (rest.foldl (.binary .and) first)) fun op =>
      op.Carries E tables (lts ++ rts) (ZSet.pairs (fun l r => p l r ∧ ∀ s ∈ first :: rest,
        s.Holds E.runtime (rowEnv (l.beside r)) (rowParam (Ty.tuple (lts ++ rts))).var)
          Val.beside x y) := by
  refine (returns_rowFilter hjoined).mono fun op hop => ?_
  obtain ⟨c, hc, hop⟩ := hop
  rw [ZSet.keepRows_pairs] at hop
  have hfilter : ∀ l ∈ x.support, ∀ r ∈ y.support, c.Holds E.runtime (rowEnv (l.beside r)) ↔
      ∀ s ∈ first :: rest, s.Holds E.runtime (rowEnv (l.beside r))
        (rowParam (Ty.tuple (lts ++ rts))).var := by
    intro l hl r hr
    rw [Scalar.holds_condition hrt hlogic wellTyped_row (envTyped_row (hrows l hl r hr)) hc,
      Scalar.conjuncts_foldl_of_subset hsubset]
  rwa [ZSet.pairs_congr fun l hl r hr =>
    ⟨and_congr_right' (hfilter l hl r hr).symm, fun _ => rfl⟩]

/-- The inner join pairs the rows that satisfy the condition. -/
theorem returns_join (hrt : E.runtime.Typed) (hlogic : E.runtime.Logical)
    (hleft : left.Carries E tables lts x) (hright : right.Carries E tables rts y)
    {condition : Scalar} {e : Expr}
    (he : condition.toCondition (rowParam (Ty.tuple (lts ++ rts))).var = .ok e) :
    Returns (join left right condition) fun op => op.Carries E tables (lts ++ rts)
      (ZSet.pairs (fun l r => e.Holds E.runtime (rowEnv (l.beside r))) Val.beside x y) := by
  refine returns_checked fun leftFields hleftFields =>
    returns_checked fun rightFields hrightFields => ?_
  obtain rfl := Except.ok.inj ((rowFields_of_ty hleft.ty).symm.trans hleftFields)
  obtain rfl := Except.ok.inj ((rowFields_of_ty hright.ty).symm.trans hrightFields)
  dsimp only
  set keys := condition.conjuncts.filterMap (Scalar.equiKey? lts rts) with hkeys
  set residual := condition.conjuncts.filter
    (fun s => (s.equiKey? lts rts).isNone && !s.isTrueLiteral) with hresidual
  have hleftKeys : ∀ c ∈ keys.map Prod.fst, c < lts.length :=
    List.forall_mem_map.2 fun k hk => (lt_of_mem_equiKeys hk).1
  have hrightKeys : ∀ c ∈ keys.map Prod.snd, c < rts.length :=
    List.forall_mem_map.2 fun k hk => (lt_of_mem_equiKeys hk).2
  refine (returns_dropNullKeys hlogic hleft hleftKeys).bind fun left' hleft' => ?_
  refine (returns_dropNullKeys hlogic hright hrightKeys).bind fun right' hright' => ?_
  refine (returns_keyed hlogic hleft' fun row hrow => ?_).bind fun leftIndexed hli => ?_
  · exact List.forall_mem_map.1 (ZSet.of_mem_keepRows hrow)
  refine (returns_keyed hlogic hright' fun row hrow => ?_).bind fun rightIndexed hri => ?_
  · exact List.forall_mem_map.1 (ZSet.of_mem_keepRows hrow)
  refine returns_checked fun parts _ => ?_
  obtain ⟨key, value⟩ := parts
  refine returns_checked fun l hl => returns_checked fun r hr => returns_checked fun ls hls =>
    returns_checked fun rs hrs => ?_
  obtain rfl := Except.ok.inj ((element_of_ty hleft'.ty).symm.trans hl)
  obtain rfl := Except.ok.inj ((element_of_ty hright'.ty).symm.trans hr)
  refine (returns_joined hli hri (type_of_sideBySide hls hrs) fun a ha b hb =>
    delivers_sideBySide (hleft'.rows a ha) (hright'.rows b hb) hls hrs).bind
      fun joined hjoined => ?_
  rw [ZSet.pairs_keepRows] at hjoined
  simp only [equates_iff] at hjoined
  rw [ZSet.pairs_congr fun l hl r hr =>
    ⟨holds_split hrt hlogic (hleft.rows l hl) (hright.rows r hr) he, fun _ => rfl⟩]
  simp only [← hkeys, ← hresidual]
  cases hterms : residual with
  | nil =>
    refine returns_pure ?_
    simpa using hjoined
  | cons first rest =>
    have hsubset : first :: rest ⊆ condition.conjuncts := hterms ▸ List.filter_subset_self _
    exact returns_residual hrt hlogic
      (fun l hl r hr => (hleft.rows l hl).beside (hright.rows r hr)) hsubset hjoined

end Lower

end ViewCircuit
