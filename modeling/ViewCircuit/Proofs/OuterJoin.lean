import ViewCircuit.Proofs.Conformance
import ViewCircuit.Proofs.Join

/-! Outer joins. The rows of a side without a partner are those that no joined row has in the
columns of that side. They are padded with NULLs and added to the joined rows, so a join of any kind
puts out the pairs that satisfy its condition and the rows of its outer sides without a partner. -/
namespace ViewCircuit

open List (Forall₂)
open scoped Classical

namespace Val

/-- A row of NULLs. -/
def nulls (n : Nat) : Val := tuple (List.replicate n null)

end Val

/-- What a join of rows with `m` and `n` columns puts out: the pairs that satisfy the condition, and
the rows of an outer side without a partner, with NULL for the columns of the other side. -/
noncomputable def JoinKind.rows (kind : JoinKind) (m n : Nat) (p : Val → Val → Prop)
    (x y : ZSet) : ZSet :=
  ZSet.pairs p Val.beside x y +
    (if kind == .left || kind == .full then
      (ZSet.unpaired p x y).mapRows fun l => l.beside (Val.nulls n) else 0) +
    if kind == .right || kind == .full then
      (ZSet.unpaired (fun r l => p l r) y x).mapRows fun r => (Val.nulls m).beside r else 0

theorem JoinKind.rows_inner (m n : Nat) (p : Val → Val → Prop) (x y : ZSet) :
    JoinKind.inner.rows m n p x y = ZSet.pairs p Val.beside x y := by
  rw [rows, if_neg (by decide), if_neg (by decide), add_zero, add_zero]

theorem Ty.nullable_of_mayBeNull {t : Ty} (h : t.mayBeNull) : t.nullable = t := by
  obtain ⟨kind, n⟩ := t
  obtain rfl : n = true := h
  rfl

/-- Values of the first type are values of the second. -/
def Ty.Widens (s t : Ty) : Prop := s.kind = t.kind ∧ (s.mayBeNull → t.mayBeNull)

/-- The type of a column that may be padded. -/
def Ty.padded (pad : Bool) (t : Ty) : Ty := if pad then t.nullable else t

theorem Ty.forall₂_widens_padded (pad : Bool) (ts : List Ty) :
    Forall₂ Ty.Widens ts (ts.map (Ty.padded pad)) := by
  rw [List.forall₂_map_right_iff, List.forall₂_same]
  intro t _
  cases pad with
  | true => exact ⟨rfl, fun _ => rfl⟩
  | false => exact ⟨rfl, id⟩

theorem Ty.eq_of_same {ss ts : List Ty} (hlength : ss.length = ts.length)
    (h : (ss.zip ts).any (fun c => !c.1.same c.2) = false) : ss = ts := by
  rw [← List.forall₂_eq_eq_eq, List.forall₂_iff_zip]
  refine ⟨hlength, fun hmem => (Ty.same_iff _ _).1 ?_⟩
  simpa using List.any_eq_false.1 h _ hmem

theorem JoinKind.columns_eq (kind : JoinKind) (left right : List Ty) : kind.columns left right =
    left.map (Ty.padded (kind == .right || kind == .full)) ++
      right.map (Ty.padded (kind == .left || kind == .full)) := rfl

theorem JoinKind.columns_inner (left right : List Ty) :
    JoinKind.inner.columns left right = left ++ right := by
  have hkept : ∀ types : List Ty, types.map (Ty.padded false) = types := List.map_id
  rw [columns_eq]
  exact congrArg₂ _ (hkept left) (hkept right)

theorem JoinKind.forall₂_widens_columns (kind : JoinKind) (left right : List Ty) :
    Forall₂ Ty.Widens (left ++ right) (kind.columns left right) :=
  List.rel_append (Ty.forall₂_widens_padded _ left) (Ty.forall₂_widens_padded _ right)

namespace Lower

section Cells

variable {rt : Runtime} {ρ : Env} {e : Expr} {v : Val} {ty : Ty}

theorem type_of_castTo : (castTo e ty).ty = ty := by
  unfold castTo
  split
  · exact (Ty.same_iff _ _).1 ‹_›
  · rfl

theorem delivers_castTo (hlogic : rt.Logical) (he : e.Delivers rt ρ v)
    (h : e.ty.Widens ty) : (castTo e ty).Delivers rt ρ v := by
  unfold castTo
  split
  · exact he
  · refine delivers_cast hlogic he h.1 fun hv => h.2 ?_
    by_contra hmay
    rw [he.datum.2.isNull_eq_false (by simpa using hmay)] at hv
    cases hv

end Cells

variable {E : Engine} {tables : Tables} {input left right op : Operator}
  {types lts rts us : List Ty} {x y z : ZSet} {row l r : Val}

section Outer

/-- The rows of a side that no joined row has in the columns of that side. -/
theorem returns_unmatched {side inner : Operator} {cs : List Nat}
    (hside : side.Carries E tables types x) (hinner : inner.Carries E tables us z)
    (hcs : cs.map (fun c => us[c]?) = types.map some) :
    Returns (unmatched side inner cs) fun op => op.Carries E tables types
      (x.keepRows fun row => ¬0 < z.mapRows (fun r => Val.tuple (cs.map r.cell)) row) := by
  refine (returns_columns hinner hcs).bind fun projected hprojected => ?_
  refine (returns_distinct hprojected).bind fun matched hmatched => ?_
  refine (returns_semiJoin hside hmatched).bind fun kept hkept => ?_
  refine (returns_subtract hside hkept).mono fun op hop => ?_
  rwa [ZSet.sub_mul_distinct] at hop

/-- Cells of the types of the output, one for each. -/
theorem types_of_cells {output : List Ty} {f : Ty × Nat → Except CompileError Expr}
    {es : List Expr} (hf : ∀ c ∈ output.zipIdx, ∀ e, f c = .ok e → e.ty = c.1)
    (h : output.zipIdx.mapM f = .ok es) : es.map Expr.ty = output := by
  have hcells := (List.forall₂_and_left _ _).2 ⟨hf, mapM_eq_ok.1 h⟩
  rw [← List.zipIdx_map_fst 0 output, ← List.forall₂_eq_eq_eq, List.forall₂_map_left_iff,
    List.forall₂_map_right_iff]
  exact (hcells.imp fun c e h => h.1 e h.2).flip

/-- A row is rewritten cell by cell. -/
theorem returns_cells {output : List Ty} {f : Expr → Ty → Nat → Except CompileError Expr}
    {g : Val → Nat → Val} (hin : input.Carries E tables types x)
    (hf : ∀ i ty e, output[i]? = some ty → f (rowParam (Ty.tuple types)).var ty i = .ok e →
      e.ty = ty ∧ ∀ row ∈ x.support, e.Delivers E.runtime (rowEnv row) (g row i)) :
    Returns (mapRow input fun t => output.zipIdx.mapM fun c => f t c.1 c.2) fun op =>
      op.Carries E tables output
        (x.mapRows fun row => Val.tuple ((List.range output.length).map (g row))) := by
  have hat : ∀ c ∈ output.zipIdx, output[c.2]? = some c.1 :=
    fun c hc => List.mem_zipIdx_iff_getElem?.1 hc
  refine returns_mapRow hin fun es hes => ⟨?_, fun row hrow => ?_⟩
  · exact types_of_cells (fun c hc e he => (hf c.2 c.1 e (hat c hc) he).1) hes
  · have hcells := (List.forall₂_and_left _ _).2 ⟨hat, mapM_eq_ok.1 hes⟩
    rw [List.range_eq_range', ← List.zipIdx_map_snd 0 output, List.map_map,
      List.forall₂_map_right_iff]
    exact (hcells.imp fun c e h => (hf c.2 c.1 e h.1 h.2).2 row hrow).flip

theorem delivers_noneOf {rt : Runtime} {ρ : Env} (ty : Ty) :
    (Expr.noneOf ty).Delivers rt ρ Val.null :=
  ⟨(evals_head rfl).2 ⟨[], evalsAll_nil.2 ⟨rfl, rfl⟩, rfl⟩, rfl, .atom rfl⟩

/-- The rows in wider types. -/
theorem returns_widened (hlogic : E.runtime.Logical) {output : List Ty}
    (hin : input.Carries E tables types x) (houtput : Forall₂ Ty.Widens types output) :
    Returns (mapRow input fun t => output.zipIdx.mapM fun (ty, i) => do
      return castTo (← Expr.field t i) ty) fun op => op.Carries E tables output x := by
  let f (t : Expr) (ty : Ty) (i : Nat) : Except CompileError Expr := do
    return castTo (← Expr.field t i) ty
  have hcell : ∀ i ty e, output[i]? = some ty →
      f (rowParam (Ty.tuple types)).var ty i = .ok e → e.ty = ty ∧
        ∀ row ∈ x.support, e.Delivers E.runtime (rowEnv row) (row.cell i) := by
    intro i ty e hty he
    obtain ⟨column, hcolumn, he⟩ := except_bind_eq_ok.1 he
    cases he
    obtain ⟨hcolumnty, -⟩ := type_of_field rfl hcolumn
    obtain ⟨ty', hty', hwidens⟩ := Structural.getElem? houtput hcolumnty
    obtain rfl := Option.some.inj (hty'.symm.trans hty)
    refine ⟨type_of_castTo, fun row hrow => delivers_castTo hlogic ?_ hwidens⟩
    exact (refersTo_row (hin.rows row hrow)).field hcolumn
  have hrows : (x.mapRows fun row => Val.tuple ((List.range output.length).map row.cell)) = x := by
    rw [← houtput.length_eq, ZSet.mapRows_congr (g := id) fun row hrow => ?_]
    · exact Finsupp.mapDomain_id
    · rw [(hin.rows row hrow).map_cell, ← (hin.rows row hrow).eq_tuple, id]
  exact (returns_cells (f := f) hin hcell).mono fun op hop => hrows ▸ hop

/-- The cell of a padded row: one of its own from an offset on, and NULL elsewhere. -/
def paddedCell (offset width : Nat) (row : Val) (i : Nat) : Val :=
  if offset ≤ i ∧ i < offset + width then row.cell (i - offset) else Val.null

theorem map_paddedCell {offset n : Nat} (hrow : row.IsRow types) :
    (List.range (offset + types.length + n)).map (paddedCell offset types.length row) =
      List.replicate offset Val.null ++ row.cells ++ List.replicate n Val.null := by
  have hbefore : (List.range offset).map (paddedCell offset types.length row) =
      List.replicate offset Val.null := by
    refine List.eq_replicate_iff.2 ⟨by simp, List.forall_mem_map.2 fun i hi => if_neg ?_⟩
    have := List.mem_range.1 hi
    omega
  have hown : (List.range types.length).map
      (paddedCell offset types.length row ∘ fun i => offset + i) = row.cells := by
    rw [← hrow.map_cell]
    refine List.map_congr_left fun i hi => ?_
    have := List.mem_range.1 hi
    simp [paddedCell, this]
  have hafter : (List.range n).map
      (paddedCell offset types.length row ∘ fun i => offset + types.length + i) =
        List.replicate n Val.null := by
    refine List.eq_replicate_iff.2 ⟨by simp, List.forall_mem_map.2 fun i _ => if_neg ?_⟩
    dsimp only
    omega
  rw [List.range_add, List.range_add, List.map_append, List.map_append, List.map_map,
    List.map_map, hbefore, hown, hafter]

/-- Own cells in wider types, and NULL in the columns before and after. -/
theorem returns_pad (hlogic : E.runtime.Logical) {before own after : List Ty}
    (hin : input.Carries E tables types x) (hown : Forall₂ Ty.Widens types own)
    (hnull : ∀ t ∈ before ++ after, t.mayBeNull) :
    Returns (pad input (before ++ own ++ after) before.length) fun op =>
      op.Carries E tables (before ++ own ++ after) (x.mapRows fun row =>
        ((Val.nulls before.length).beside row).beside (Val.nulls after.length)) := by
  refine returns_checked fun fields hfields => ?_
  obtain rfl := Except.ok.inj ((rowFields_of_ty hin.ty).symm.trans hfields)
  let f (t : Expr) (ty : Ty) (i : Nat) : Except CompileError Expr := do
    if before.length ≤ i ∧ i < before.length + types.length then
      return castTo (← Expr.field t (i - before.length)) ty
    else return Expr.noneOf ty
  have hcell : ∀ i ty e, (before ++ own ++ after)[i]? = some ty →
      f (rowParam (Ty.tuple types)).var ty i = .ok e → e.ty = ty ∧ ∀ row ∈ x.support,
        e.Delivers E.runtime (rowEnv row) (paddedCell before.length types.length row i) := by
    intro i ty e hty he
    dsimp only [f] at he
    unfold paddedCell
    rw [List.append_assoc] at hty
    split at he
    · rename_i hi
      obtain ⟨column, hcolumn, he⟩ := except_bind_eq_ok.1 he
      cases he
      obtain ⟨hcolumnty, -⟩ := type_of_field rfl hcolumn
      obtain ⟨ty', hty', hwidens⟩ := Structural.getElem? hown hcolumnty
      have hinside : i - before.length < own.length := (List.getElem?_eq_some_iff.1 hty').1
      rw [List.getElem?_append_right hi.1, List.getElem?_append_left hinside] at hty
      obtain rfl := Option.some.inj (hty'.symm.trans hty)
      refine ⟨type_of_castTo, fun row hrow => ?_⟩
      rw [if_pos hi]
      exact delivers_castTo hlogic ((refersTo_row (hin.rows row hrow)).field hcolumn) hwidens
    · rename_i hi
      cases he
      have hmem : ty ∈ before ++ after := by
        have hlength := hown.length_eq
        by_cases hbefore : i < before.length
        · rw [List.getElem?_append_left hbefore] at hty
          exact List.mem_append_left _ (List.mem_of_getElem? hty)
        · rw [List.getElem?_append_right (by omega), List.getElem?_append_right (by omega)] at hty
          exact List.mem_append_right _ (List.mem_of_getElem? hty)
      refine ⟨Ty.nullable_of_mayBeNull (hnull ty hmem), fun row hrow => ?_⟩
      rw [if_neg hi]
      exact delivers_noneOf ty
  have hlength : (before ++ own ++ after).length =
      before.length + types.length + after.length := by
    simp [hown.length_eq, Nat.add_assoc]
  refine (returns_cells (f := f) hin hcell).mono fun op hop => ?_
  rw [ZSet.mapRows_congr fun row hrow => ?_]
  · exact hop
  · rw [hlength, map_paddedCell (hin.rows row hrow)]
    rfl

variable {kind : JoinKind} {inner : Operator} {p : Val → Val → Prop}

/-- The columns of a side of a joined row are the row of that side. -/
theorem tuple_columns_left (hl : l.IsRow lts) :
    Val.tuple ((List.range lts.length).map (l.beside r).cell) = l := by
  have hcells := List.map_congr_left fun c hc =>
    cell_beside_left (r := r) hl (List.mem_range.1 hc)
  rw [hcells, hl.map_cell, ← hl.eq_tuple]

theorem tuple_columns_right (hl : l.IsRow lts) (hr : r.IsRow rts) :
    Val.tuple ((List.range' lts.length rts.length).map (l.beside r).cell) = r := by
  have hcells : (List.range' lts.length rts.length).map (l.beside r).cell =
      (List.range rts.length).map r.cell := by
    rw [List.range'_eq_map_range, List.map_map]
    refine List.map_congr_left fun c _ => ?_
    rw [Function.comp_apply, cell_beside_right hl (Nat.le_add_right _ _), Nat.add_sub_cancel_left]
  rw [hcells, hr.map_cell, ← hr.eq_tuple]

/-- The padded rows of an outer side, if it is one, and what is done with them. -/
theorem returns_padded {β : Type} {R : Operator → β → Prop} {side : Operator} {cs : List Nat}
    {output : List Ty} {offset : Nat} {outer : Bool} {u : β}
    {next : List Operator → Lower Operator} {post : Operator → Prop}
    (h : outer = true → Returns (unmatched side inner cs) fun rows =>
      Returns (pad rows output offset) fun op => R op u)
    (hnext : ∀ ops, Forall₂ R ops (if outer then [u] else []) → Returns (next ops) post) :
    Returns (if outer = true then do
        let rows ← unmatched side inner cs
        let padded ← pad rows output offset
        let ops ← pure [padded]
        next ops
      else do
        let ops ← pure []
        next ops) post := by
  cases outer with
  | true =>
    exact (h rfl).bind fun rows hrows => hrows.bind fun padded hpadded =>
      hnext [padded] (.cons hpadded .nil)
  | false => exact hnext [] .nil

section Sides

variable (hlogic : E.runtime.Logical) (hleft : left.Carries E tables lts x)
  (hx : x.Nonneg) (hy : y.Nonneg)
  (hinner : inner.Carries E tables (lts ++ rts) (ZSet.pairs p Val.beside x y))

include hlogic hleft hx hy hinner

/-- The left rows without a partner, with NULLs on the right. -/
theorem returns_leftOuter (hkind : (kind == .left || kind == .full) = true) :
    Returns (unmatched left inner (List.range lts.length)) fun rows =>
      Returns (pad rows (kind.columns lts rts) 0) fun op => op.Carries E tables
        (kind.columns lts rts)
        ((ZSet.unpaired p x y).mapRows fun l => l.beside (Val.nulls rts.length)) := by
  have hcs : (List.range lts.length).map (fun c => (lts ++ rts)[c]?) = lts.map some := by
    refine List.ext_getElem (by simp) fun i hi hi' => ?_
    rw [List.length_map] at hi'
    simp [List.getElem?_append_left hi', hi']
  refine (returns_unmatched hleft hinner hcs).mono fun rows hrows => ?_
  rw [ZSet.mapRows_pairs, ZSet.pairs_congr fun l hl r hr =>
    ⟨Iff.rfl, fun _ => tuple_columns_left (hleft.rows l hl)⟩,
    ZSet.keepRows_unpaired_left hx hy] at hrows
  have hpad : Returns (pad rows ([] ++ lts.map (Ty.padded (kind == .right || kind == .full)) ++
      rts.map (Ty.padded true)) ([] : List Ty).length) _ :=
    returns_pad hlogic hrows (Ty.forall₂_widens_padded _ lts)
      (by simp [Ty.padded, Ty.nullable])
  rw [JoinKind.columns_eq, hkind]
  exact hpad.mono fun op hop => by simpa [Val.beside, Val.nulls] using hop

variable (hright : right.Carries E tables rts y)

include hright

/-- The right rows without a partner, with NULLs on the left. -/
theorem returns_rightOuter (hkind : (kind == .right || kind == .full) = true) :
    Returns (unmatched right inner (List.range' lts.length rts.length)) fun rows =>
      Returns (pad rows (kind.columns lts rts) lts.length) fun op =>
        op.Carries E tables (kind.columns lts rts)
          ((ZSet.unpaired (fun r l => p l r) y x).mapRows fun r =>
            (Val.nulls lts.length).beside r) := by
  have hcs : (List.range' lts.length rts.length).map (fun c => (lts ++ rts)[c]?) =
      rts.map some := by
    refine List.ext_getElem (by simp) fun i hi hi' => ?_
    rw [List.length_map] at hi'
    simp [hi']
  refine (returns_unmatched hright hinner hcs).mono fun rows hrows => ?_
  rw [ZSet.mapRows_pairs, ZSet.pairs_congr fun l hl r hr =>
    ⟨Iff.rfl, fun _ => tuple_columns_right (hleft.rows l hl) (hright.rows r hr)⟩,
    ZSet.keepRows_unpaired_right hx hy] at hrows
  have hpad : Returns (pad rows (lts.map (Ty.padded true) ++
      rts.map (Ty.padded (kind == .left || kind == .full)) ++ [])
        (lts.map (Ty.padded true)).length) _ :=
    returns_pad hlogic hrows (Ty.forall₂_widens_padded _ rts)
      (by simp [Ty.padded, Ty.nullable])
  rw [List.append_nil, List.length_map] at hpad
  rw [JoinKind.columns_eq, hkind]
  exact hpad.mono fun op hop => by simpa [Val.beside, Val.nulls] using hop

/-- An outer join adds the rows without a partner to the joined rows. -/
theorem returns_outerJoin : Returns (outerJoin kind left right inner) fun op =>
    op.Carries E tables (kind.columns lts rts) (kind.rows lts.length rts.length p x y) := by
  refine returns_checked fun leftFields hleftFields => returns_checked fun rightFields hrightFields
    => returns_checked fun innerFields hinnerFields => ?_
  obtain rfl := Except.ok.inj ((rowFields_of_ty hleft.ty).symm.trans hleftFields)
  obtain rfl := Except.ok.inj ((rowFields_of_ty hright.ty).symm.trans hrightFields)
  obtain rfl := Except.ok.inj ((rowFields_of_ty hinner.ty).symm.trans hinnerFields)
  have hwidens := kind.forall₂_widens_columns lts rts
  have hlength : (kind.columns lts rts).length - lts.length = rts.length := by
    rw [← hwidens.length_eq, List.length_append, Nat.add_sub_cancel_left]
  dsimp only
  rw [hlength]
  refine returns_ite_bind (fun _ => returns_widened hlogic hinner hwidens) (fun hsame => ?_)
    fun both hboth => ?_
  · rw [Bool.not_eq_true] at hsame
    rw [← Ty.eq_of_same hwidens.length_eq hsame]
    exact returns_pure hinner
  refine returns_padded (returns_leftOuter hlogic hleft hx hy hinner) fun lefts hlefts => ?_
  refine returns_padded (returns_rightOuter hlogic hleft hx hy hinner hright)
    fun rights hrights => ?_
  refine (returns_sum (.cons hboth (List.rel_append hlefts hrights))).mono fun op hop => ?_
  rw [List.sum_cons, List.sum_append, ← add_assoc] at hop
  unfold JoinKind.rows
  convert hop using 3
  · split <;> simp
  · split <;> simp

end Sides

section Types

/-! The columns of a join depend on the types of its inputs only, and not on what these hold. -/

variable (hleft : left.ty = Ty.zset (Ty.tuple lts)) (hright : right.ty = Ty.zset (Ty.tuple rts))

theorem returns_any {α : Type} (act : Lower α) : Returns act fun _ => True :=
  fun _ _ _ _ _ _ => trivial

theorem type_of_filter {f : Expr} :
    Returns (emit (Operator.filter input f)) fun op => op.ty = input.ty :=
  (returns_emit Operator.makes_filter).mono fun _ hop => hop.1.filter_ty

theorem type_of_dropNullKeys {keys : List Nat} :
    Returns (dropNullKeys input keys) fun op => op.ty = input.ty := by
  refine returns_checked fun _ _ => returns_checked fun _ _ => returns_checked fun _ _ =>
    returns_checked fun predicate? _ => ?_
  cases predicate? with
  | some predicate => exact type_of_filter
  | none => exact returns_pure rfl

theorem type_of_mapRow {fields : Expr → Except CompileError (List Expr)}
    (hin : input.ty = Ty.zset (Ty.tuple types))
    (hfields : ∀ es, fields (rowParam (Ty.tuple types)).var = .ok es → es.map Expr.ty = us) :
    Returns (mapRow input fields) fun op => op.ty = Ty.zset (Ty.tuple us) := by
  refine returns_checked fun f hf => ?_
  obtain ⟨e, he, rfl⟩ := rowFunction_of_ty hin hf
  obtain ⟨es, hes, he⟩ := except_bind_eq_ok.1 he
  cases he
  refine (returns_emit Operator.makes_map).mono fun op hop => ?_
  rw [hop.1.map_closure, ← hfields es hes]
  rfl

theorem type_of_sum {first : Operator} {rest : List Operator} (h : first.ty.isCollection) :
    Returns (emit (Operator.sum (first :: rest))) fun op => op.ty = first.ty := by
  have hfirst : ∀ i ∈ (first :: rest).head?, i.ty.isCollection := by simpa using h
  refine (returns_emit (Operator.makes_sum hfirst)).mono fun op hop => ?_
  exact (hop.1.eq_of_mem (.inr (.inl rfl)) first.ty (by simp)).symm

include hleft hright

theorem type_of_join {condition : Scalar} : Returns (join left right condition) fun op =>
    op.ty = Ty.zset (Ty.tuple (lts ++ rts)) := by
  refine returns_checked fun leftFields hleftFields =>
    returns_checked fun rightFields hrightFields => ?_
  obtain rfl := Except.ok.inj ((rowFields_of_ty hleft).symm.trans hleftFields)
  obtain rfl := Except.ok.inj ((rowFields_of_ty hright).symm.trans hrightFields)
  refine type_of_dropNullKeys.bind fun left' hleft' => ?_
  refine type_of_dropNullKeys.bind fun right' hright' => ?_
  refine (returns_any _).bind fun leftIndexed _ => (returns_any _).bind fun rightIndexed _ => ?_
  refine returns_checked fun parts _ => returns_checked fun l hl => returns_checked fun r hr =>
    returns_checked fun ls hls => returns_checked fun rs hrs => ?_
  obtain rfl := Except.ok.inj ((element_of_ty (hleft'.trans hleft)).symm.trans hl)
  obtain rfl := Except.ok.inj ((element_of_ty (hright'.trans hright)).symm.trans hr)
  refine (returns_emit Operator.makes_join).bind fun joined hjoined => ?_
  have hty : joined.ty = Ty.zset (Ty.tuple (lts ++ rts)) := by
    rw [hjoined.1.join_closure, type_of_sideBySide hls hrs]
  split
  · exact returns_pure hty
  · refine returns_checked fun _ _ => type_of_filter.mono fun op hop => ?_
    rw [hop, hty]

theorem type_of_outerJoin (hinner : inner.ty = Ty.zset (Ty.tuple (lts ++ rts))) :
    Returns (outerJoin kind left right inner) fun op =>
      op.ty = Ty.zset (Ty.tuple (kind.columns lts rts)) := by
  refine returns_checked fun leftFields hleftFields => returns_checked fun rightFields hrightFields
    => returns_checked fun innerFields hinnerFields => ?_
  obtain rfl := Except.ok.inj ((rowFields_of_ty hleft).symm.trans hleftFields)
  obtain rfl := Except.ok.inj ((rowFields_of_ty hright).symm.trans hrightFields)
  obtain rfl := Except.ok.inj ((rowFields_of_ty hinner).symm.trans hinnerFields)
  dsimp only
  have hwidened : Returns (mapRow inner fun t =>
      (kind.columns lts rts).zipIdx.mapM fun c => do return castTo (← Expr.field t c.2) c.1)
        fun op => op.ty = Ty.zset (Ty.tuple (kind.columns lts rts)) := by
    refine type_of_mapRow hinner fun es hes => types_of_cells (fun c _ e he => ?_) hes
    obtain ⟨column, -, he⟩ := except_bind_eq_ok.1 he
    cases he
    exact type_of_castTo
  refine returns_ite_bind (fun _ => hwidened) (fun hsame => ?_) fun both hboth => ?_
  · rw [Bool.not_eq_true] at hsame
    rw [← Ty.eq_of_same (kind.forall₂_widens_columns lts rts).length_eq hsame]
    exact returns_pure hinner
  refine returns_padded (R := fun _ _ => True) (u := ()) (fun _ => ?_) fun lefts _ => ?_
  · exact (returns_any _).mono fun rows _ => returns_any _
  refine returns_padded (R := fun _ _ => True) (u := ()) (fun _ => ?_) fun rights _ => ?_
  · exact (returns_any _).mono fun rows _ => returns_any _
  refine (type_of_sum ?_).mono fun op hop => hop.trans hboth
  rw [hboth]
  rfl

end Types

end Outer

end Lower

/-- An engine that compares values and connects truth values. -/
noncomputable def Engine.comparing : Engine := { Engine.summing with runtime := Runtime.logic }

namespace Rel

variable {E : Engine} {tables : Tables} {relations : List (String × Operator)} {a b : Rel}
  {kind : JoinKind} {condition : Scalar} {left right op : Operator} {lts rts : List Ty} {e : Expr}
  {c₀ c₁ c₂ c : Circuit} {ctx₀ ctx₁ ctx₂ ctx : Context}

theorem carries_of_fits (hty : op.ty = Ty.zset (Ty.tuple lts))
    (h : (op.contents E.meaning tables).Fits op.ty) :
    op.Carries E tables lts (op.contents E.meaning tables) where
  ty := hty
  contents := rfl
  rows row hrow := by
    obtain ⟨hdata, hholds⟩ := h row hrow
    rw [hty] at hholds
    exact ⟨hdata, hholds⟩

/-- A join makes its operators from the streams of both sides. -/
theorem join_returns {p : Operator → Prop}
    (hleft : a.stream relations c₀ ctx₀ = (.ok (left, c₁), ctx₁))
    (hright : b.stream relations c₁ ctx₁ = (.ok (right, c₂), ctx₂))
    (h : (Rel.join a b kind condition).stream relations c₀ ctx₀ = (.ok (op, c), ctx))
    (hpost : Lower.Returns (do
      let inner ← Lower.join left right condition
      if kind == .inner then return inner else Lower.outerJoin kind left right inner) p) :
    p op := by
  rw [stream] at h
  obtain ⟨l, c₃, ctx₃, hl, h⟩ := Lower.bind_eq_ok.1 h
  obtain ⟨⟨⟨⟩⟩, ⟨⟩⟩ := hleft.symm.trans hl
  obtain ⟨r, c₄, ctx₄, hr, h⟩ := Lower.bind_eq_ok.1 h
  obtain ⟨⟨⟨⟩⟩, ⟨⟩⟩ := hright.symm.trans hr
  exact hpost _ _ _ _ _ h

/-- The stream of a join is a member of the circuit, which stays in order. Over streams with columns
of types `lts` and `rts` it has the columns of its kind, and on rows of these types with weights
that are not negative it puts out the pairs of rows for which the condition evaluates to true, with
the product of their weights, and the rows of an outer side without a partner, padded with NULLs. -/
theorem rows_of_join (hleft : a.stream relations c₀ ctx₀ = (.ok (left, c₁), ctx₁))
    (hright : b.stream relations c₁ ctx₁ = (.ok (right, c₂), ctx₂))
    (hlts : left.ty = Ty.zset (Ty.tuple lts)) (hrts : right.ty = Ty.zset (Ty.tuple rts))
    (he : condition.toCondition (Lower.rowParam (Ty.tuple (lts ++ rts))).var = .ok e)
    (h : (Rel.join a b kind condition).stream relations c₀ ctx₀ = (.ok (op, c), ctx)) :
    (c₀.Hosts relations ctx₀ → c.WellFormed ctx ∧ c₀.Grows c ∧ op ∈ c.operators) ∧
    op.ty = Ty.zset (Ty.tuple (kind.columns lts rts)) ∧ ∀ (E : Engine) (tables : Tables),
      E.runtime.Typed → E.runtime.Logical →
      (left.contents E.meaning tables).Fits left.ty →
      (right.contents E.meaning tables).Fits right.ty →
      (left.contents E.meaning tables).Nonneg → (right.contents E.meaning tables).Nonneg →
      op.contents E.meaning tables = kind.rows lts.length rts.length
        (fun l r => e.Holds E.runtime (Lower.rowEnv (l.beside r)))
        (left.contents E.meaning tables) (right.contents E.meaning tables) := by
  refine ⟨fun hhosts => hhosts.stream h, ?_, ?_⟩
  · refine join_returns (p := fun op => op.ty = _) hleft hright h
      ((Lower.type_of_join hlts hrts).bind fun inner hinner => ?_)
    split
    · rename_i hkind
      rw [eq_of_beq hkind, JoinKind.columns_inner]
      exact Lower.returns_pure hinner
    · exact Lower.type_of_outerJoin hlts hrts hinner
  · intro E tables hrt hlogic hx hy hxw hyw
    have hcl := carries_of_fits hlts hx
    have hcr := carries_of_fits hrts hy
    refine join_returns (p := fun op => op.contents _ _ = _) hleft hright h
      ((Lower.returns_join hrt hlogic hcl hcr he).bind fun inner hinner => ?_)
    split
    · rename_i hkind
      rw [eq_of_beq hkind, JoinKind.rows_inner]
      exact Lower.returns_pure hinner.contents
    · exact (Lower.returns_outerJoin hlogic hcl hxw hyw hinner hcr).mono fun op hop => hop.contents

section Accounts

def ownerStream : Operator :=
  ⟨0, "stream0", .source "Owner", [], Ty.zset (Ty.tuple [Ty.int32, Ty.string]), false⟩

def paymentStream : Operator :=
  ⟨1, "stream1", .source "Payment", [], Ty.zset (Ty.tuple [Ty.int32, Ty.int32.nullable]), true⟩

/-- The tables of `Plan.accounts`. -/
def accountTables : Circuit :=
  { Circuit.empty "accounts" with sources := [ownerStream, paymentStream] }

def accountStreams : List (String × Operator) :=
  [("Owner", ownerStream), ("Payment", paymentStream)]

theorem hosts_accounts : accountTables.Hosts accountStreams ⟨⟨[("stream", 2)]⟩, 2⟩ := by
  have hadded : Plan.accounts.tables.foldlM Plan.addTableStream [] (Circuit.empty "accounts")
      Context.empty = (.ok (accountStreams, accountTables), ⟨⟨[("stream", 2)]⟩, 2⟩) := rfl
  exact Plan.hosts_tables hadded

/-- Payments of an owner, of a known amount. -/
def paidByOwner : Scalar :=
  .binary .and (.binary .eq (.column 0) (.column 2)) (.binary .eq (.column 3) (.column 3))

/-- Owners without payments of a known amount and payments without an owner are padded. -/
theorem accounts_full_join_rows : ∃ e op c ctx,
    paidByOwner.toCondition (Lower.rowParam (Ty.tuple
      [Ty.int32, Ty.string, Ty.int32, Ty.int32.nullable])).var = .ok e ∧
    (Rel.join (.scan "Owner") (.scan "Payment") .full paidByOwner).stream accountStreams
      accountTables ⟨⟨[("stream", 2)]⟩, 2⟩ = (.ok (op, c), ctx) ∧
    c.WellFormed ctx ∧ op ∈ c.operators ∧
    op.ty = Ty.zset (Ty.tuple [Ty.int32.nullable, Ty.string.nullable, Ty.int32.nullable,
      Ty.int32.nullable]) ∧
    op.contents (Engine.meaning .comparing) Plan.accountRows =
      JoinKind.full.rows 2 2 (fun l r => e.Holds Runtime.logic (Lower.rowEnv (l.beside r)))
        (Plan.accountRows "Owner") (Plan.accountRows "Payment") := by
  have hok : ((Rel.join (.scan "Owner") (.scan "Payment") .full paidByOwner).stream accountStreams
      accountTables ⟨⟨[("stream", 2)]⟩, 2⟩).1.isOk := by decide +kernel
  obtain ⟨⟨op, c⟩, ctx, h⟩ := Compile.exists_of_isOk hok
  obtain ⟨e, he⟩ : ∃ e, paidByOwner.toCondition (Lower.rowParam (Ty.tuple
      [Ty.int32, Ty.string, Ty.int32, Ty.int32.nullable])).var = .ok e := by
    with_unfolding_all exact ⟨_, rfl⟩
  have hfits : ∀ t ∈ Plan.accounts.tables,
      (Plan.accountRows t.name).Fits (Ty.zset (Ty.tuple t.rowTypes)) :=
    fun t ht => Plan.populated_accounts.fits (by decide) ht
  simp only [Plan.accounts, List.forall_mem_cons] at hfits
  obtain ⟨howner, hpayment, -⟩ := hfits
  obtain ⟨hmember, hty, hrows⟩ :=
    rows_of_join (a := .scan "Owner") (b := .scan "Payment") rfl rfl rfl rfl he h
  obtain ⟨hc, -, hop⟩ := hmember hosts_accounts
  refine ⟨e, op, c, ctx, he, h, hc, hop, hty, hrows .comparing Plan.accountRows Runtime.logic_typed
    Runtime.logic_logical howner hpayment ?_ ?_⟩
  · exact ZSet.Nonneg.single (by decide) _
  · exact ZSet.Nonneg.single (by decide) _

end Accounts

end Rel

end ViewCircuit
