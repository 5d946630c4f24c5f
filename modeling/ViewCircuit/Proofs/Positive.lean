import ViewCircuit.Proofs.Engine
import ViewCircuit.Proofs.Lowering

/-! Relations without negative weights. Lowering takes rows away at two places only, and at both of
them no more than there are: the rows of one side of a join that have a partner, and the row that
stands for an aggregate of nothing. -/
namespace ViewCircuit

open scoped Classical

namespace ZSet

variable {x y : ZSet}

theorem joinRow_zero (f : Val → Val → Val → Val) (l r : Val) : joinRow f l r 0 = 0 := by
  unfold joinRow
  split
  · split <;> simp
  · rfl

theorem joinRow_add (f : Val → Val → Val → Val) (l r : Val) (w w' : ℤ) :
    joinRow f l r (w + w') = joinRow f l r w + joinRow f l r w' := by
  unfold joinRow
  split
  · split
    · exact Finsupp.single_add _ _ _
    · simp
  · simp

/-- Joined with themselves as keys, rows have the product of their weights. -/
theorem join_keys_apply (x y : ZSet) (row : Val) :
    join (fun k _ _ => k) (x.mapRows fun r => Val.pair r Val.unit)
      (y.mapRows fun r => Val.pair r Val.unit) row = x row * y row := by
  have hinner : ∀ (l : Val) (w : ℤ), ((y.mapRows fun r => Val.pair r Val.unit).sum fun r w' =>
      joinRow (fun k _ _ => k) (Val.pair l Val.unit) r (w * w')) = Finsupp.single l (w * y l) := by
    intro l w
    change (Finsupp.mapDomain _ y).sum _ = _
    rw [Finsupp.sum_mapDomain_index (by simp [joinRow_zero]) (by simp [mul_add, joinRow_add])]
    simp only [joinRow, Val.pair?_pair]
    rw [Finsupp.sum_ite_eq]
    split
    · rfl
    · rename_i hl
      rw [Finsupp.notMem_support_iff.1 hl, mul_zero, Finsupp.single_zero]
  have hjoin : join (fun k _ _ => k) (x.mapRows fun r => Val.pair r Val.unit)
      (y.mapRows fun r => Val.pair r Val.unit) = x.sum fun l w => Finsupp.single l (w * y l) := by
    change (Finsupp.mapDomain _ x).sum _ = _
    rw [Finsupp.sum_mapDomain_index (by simp [joinRow_zero]) (by simp [add_mul, joinRow_add])]
    simp only [hinner]
  rw [hjoin, Finsupp.sum_apply]
  by_cases hrow : x row = 0 <;> simp [Finsupp.single_apply, hrow]

/-- Of one row at most, and a row that stands for none, one is left. -/
theorem Nonneg.defaulted (h : x = 0 ∨ ∃ row, x = Finsupp.single row 1) (fixed : Val) :
    (x + Finsupp.single fixed 1 - x.mapRows fun _ => fixed).Nonneg := by
  rcases h with rfl | ⟨row, rfl⟩
  · rw [map_zero, zero_add, sub_zero]
    exact .single Int.one_nonneg _
  · rw [mapRows_single, add_sub_cancel_right]
    exact .single Int.one_nonneg _

/-- One key makes one row at most. -/
theorem perKey_of_keys {k : Val} (h : x.keys ⊆ {k}) (f : Val → Val) :
    x.perKey f = 0 ∨ x.perKey f = Finsupp.single (Val.pair k (f k)) 1 := by
  unfold perKey
  rcases Finset.subset_singleton_iff.1 h with hnone | hone
  · exact .inl (by rw [hnone, Finset.sum_empty])
  · exact .inr (by rw [hone, Finset.sum_singleton])

end ZSet

namespace Engine

variable {E : Engine} {row : Val}

/-- A function of one reference gets the row itself. -/
theorem apply_row {element : Ty} {body : Expr} {v : Val} {k : Nat}
    (h : Evals E.runtime [("t", Val.ref row)] body v k) :
    let f := Expr.closure [Lower.rowParam element] body
    E.apply f [argument f row] = some v := by
  have harg : argument (Expr.closure [Lower.rowParam element] body) row = Val.ref row := by
    unfold argument
    split <;> rfl
  dsimp only
  rw [harg]
  exact apply_closure_iff.2 ⟨rfl, k, h⟩

theorem row_closure {element : Ty} {body : Expr} {v : Val} {k : Nat}
    (h : Evals E.runtime [("t", Val.ref row)] body v k) :
    E.meaning.row (Expr.closure [Lower.rowParam element] body) row = v := by
  simp [meaning, apply_row h]

theorem row_rowKey (element : Ty) :
    E.meaning.row (Lower.rowKey element) = fun row => Val.pair row Val.unit := by
  funext row
  exact row_closure ⟨3, rfl⟩

theorem row_oneKey (element : Ty) :
    E.meaning.row (Lower.oneKey element) = fun row => Val.pair Val.unit row := by
  funext row
  exact row_closure ⟨3, rfl⟩

theorem pair_keyRow (key : Ty) : E.meaning.pair (Lower.keyRow key) = fun k _ _ => k := by
  funext k a b
  have happly : E.apply (Lower.keyRow key) [Val.ref k, Val.ref a, Val.ref b] = some k :=
    apply_closure_iff.2 ⟨rfl, 0, 2, rfl⟩
  simp [meaning, happly]

/-- The row of literals. -/
def literalRow (cells : List (Literal × Ty)) : Val :=
  Val.tuple (cells.map fun cell => .atom ((cell.1.atom? cell.2).getD .null))

/-- A row of literals evaluates to itself. -/
theorem evals_literalRow {ρ : Env} {cells : List (Literal × Ty)}
    (h : ∀ cell ∈ cells, (cell.1.atom? cell.2).isSome) :
    Evals E.runtime ρ (Expr.tuple (cells.map fun cell => Expr.literal cell.1 cell.2))
      (literalRow cells) 0 := by
  refine (evals_head rfl).2
    ⟨cells.map fun cell => .atom ((cell.1.atom? cell.2).getD .null), ?_, rfl⟩
  induction cells with
  | nil => exact evalsAll_nil.2 ⟨rfl, rfl⟩
  | cons cell cells ih =>
    obtain ⟨hcell, hcells⟩ := List.forall_mem_cons.1 h
    refine evalsAll_cons.2 ⟨_, 0, _, 0, ?_, ih hcells, rfl, rfl⟩
    obtain ⟨a, ha⟩ := Option.isSome_iff_exists.1 hcell
    have hhead : (Expr.literal cell.1 cell.2).form.head? = some (.literal cell.1, []) := by
      cases hl : cell.1 <;> first | rfl | simp [hl, Literal.atom?] at ha
    refine (evals_head hhead).2 ⟨[], evalsAll_nil.2 ⟨rfl, rfl⟩, ?_⟩
    simp [Head.combine, Expr.literal, ha]

theorem row_fixedRow (element : Ty) {cells : List (Literal × Ty)}
    (h : ∀ cell ∈ cells, (cell.1.atom? cell.2).isSome) :
    E.meaning.row (Lower.fixedRow element cells) = fun _ => literalRow cells := by
  funext row
  exact row_closure (evals_literalRow h)

/-- A literal collection has the weights that it lists. -/
theorem nonneg_constant {rows : List (Expr × Int)} {ty : Ty} (h : ∀ row ∈ rows, 0 ≤ row.2) :
    (E.meaning.constant ⟨.literal (.zset rows), ty⟩).Nonneg := by
  cases hv : valueOf E.runtime [] ⟨.literal (.zset rows), ty⟩ with
  | none =>
    simp only [meaning, hv]
    exact fun _ => le_rfl
  | some v =>
    simp only [meaning, hv, Option.map_some, Option.getD_some]
    obtain ⟨k, hk⟩ := valueOf_eq_some.1 hv
    obtain ⟨vs, -, hcombine⟩ := (evals_head rfl).1 hk
    cases hcombine
    refine .listSum (List.forall_mem_map.2 fun row hrow => .single ?_ _)
    obtain ⟨listed, hlisted, heq⟩ := List.mem_map.1 (List.of_mem_zip hrow).2
    exact heq ▸ h listed hlisted

theorem constant_literalRow {cells : List (Literal × Ty)} {ty : Ty}
    (h : ∀ cell ∈ cells, (cell.1.atom? cell.2).isSome) :
    E.meaning.constant ⟨.literal (.zset
      [(Expr.tuple (cells.map fun cell => Expr.literal cell.1 cell.2), 1)]), ty⟩ =
      Finsupp.single (literalRow cells) 1 := by
  have hparts : EvalsAll E.runtime []
      [Expr.tuple (cells.map fun cell => Expr.literal cell.1 cell.2)] [literalRow cells] 0 :=
    evalsAll_cons.2 ⟨_, 0, [], 0, evals_literalRow h, evalsAll_nil.2 ⟨rfl, rfl⟩, rfl, rfl⟩
  have hv : valueOf E.runtime [] ⟨.literal (.zset
      [(Expr.tuple (cells.map fun cell => Expr.literal cell.1 cell.2), 1)]), ty⟩ =
      some (.node (.zset [1]) [literalRow cells]) :=
    valueOf_eq_some.2 ⟨0, (evals_head rfl).2 ⟨_, hparts, rfl⟩⟩
  simp [meaning, hv, Val.rows]

end Engine

namespace OperatorKind

variable {M : Meaning} {tables : Tables} {kind : OperatorKind}

theorem nonneg_of_isUnsigned (h : kind.isUnsigned) (hsource : kind.isSource = false)
    (xs : List ZSet) : (kind.contents M tables xs).Nonneg := by
  cases kind with
  | source => cases hsource
  | distinct =>
    match xs with
    | [] | _ :: _ :: _ => exact fun _ => le_rfl
    | [x] => exact .distinct x
  | aggregate f | windowAggregate w f =>
    match xs with
    | [] | _ :: _ :: _ => exact fun _ => le_rfl
    | [x] => exact .perKey _ x
  | _ => cases h

theorem keys_index_oneKey {E : Engine} (element : Ty) (xs : List ZSet) :
    ((index (Lower.oneKey element)).contents E.meaning tables xs).keys ⊆ {Val.unit} := by
  intro k hk
  obtain ⟨v, hv⟩ := ZSet.mem_keys.1 hk
  match xs, hv with
  | [], hv | _ :: _ :: _, hv => simp [contents] at hv
  | [x], hv =>
    obtain ⟨row, -, hrow⟩ := ZSet.mem_mapRows hv
    rw [Engine.row_oneKey] at hrow
    exact Finset.mem_singleton.2 (Val.pair_injective hrow).1.symm

theorem weight_distinct (xs : List ZSet) (row : Val) :
    distinct.contents M tables xs row = 0 ∨ distinct.contents M tables xs row = 1 := by
  match xs with
  | [] | _ :: _ :: _ => exact .inl rfl
  | [x] =>
    change x.distinct row = 0 ∨ x.distinct row = 1
    rw [ZSet.distinct_apply]
    split <;> simp

end OperatorKind

namespace Operator

variable {E : Engine} {tables : Tables} {ops : List Operator} {op : Operator}

/-- The rows of one side less those that a set holds, each as often as it is there. -/
theorem nonneg_unmatched {side kept left right set : Operator} {key l r : Ty}
    (hkind : op.kind = .subtract) (hinputs : op.inputs = [side, kept])
    (hkept : kept.kind = .join (Lower.keyRow key)) (hreads : kept.inputs = [left, right])
    (hleft : left.kind = .index (Lower.rowKey l)) (hside : left.inputs = [side])
    (hright : right.kind = .index (Lower.rowKey r)) (hset : right.inputs = [set])
    (hdistinct : set.kind = .distinct) (hnonneg : (side.contents E.meaning tables).Nonneg) :
    (op.contents E.meaning tables).Nonneg := by
  have hindexed : ∀ {index source : Operator} {t : Ty}, index.kind = .index (Lower.rowKey t) →
      index.inputs = [source] → index.contents E.meaning tables =
        (source.contents E.meaning tables).mapRows fun row => Val.pair row Val.unit := by
    intro index source t hindex hsource
    rw [contents_eq, hindex, hsource, ← Engine.row_rowKey (E := E) t]
    rfl
  have hcontents : op.contents E.meaning tables = side.contents E.meaning tables -
      ZSet.join (fun k _ _ => k) (left.contents E.meaning tables)
        (right.contents E.meaning tables) := by
    rw [contents_eq, hkind, hinputs, ← Engine.pair_keyRow (E := E) key]
    change _ - kept.contents E.meaning tables = _
    rw [kept.contents_eq, hkept, hreads]
    rfl
  intro row
  rw [hcontents, Finsupp.sub_apply, hindexed hleft hside, hindexed hright hset,
    ZSet.join_keys_apply]
  have hweight : set.contents E.meaning tables row = 0 ∨ set.contents E.meaning tables row = 1 := by
    rw [contents_eq, hdistinct]
    exact OperatorKind.weight_distinct _ row
  have hrow := hnonneg row
  rcases hweight with h | h <;> rw [h] <;> omega

/-- An aggregate of all rows together has one row, or none. -/
theorem contents_aggregated {flat grouped indexed : Operator} {f fold : Expr} {element : Ty}
    (hflat : flat.kind = .map f) (hgroups : flat.inputs = [grouped])
    (hgrouped : grouped.kind = .aggregate fold) (hindex : grouped.inputs = [indexed])
    (hindexed : indexed.kind = .index (Lower.oneKey element)) :
    flat.contents E.meaning tables = 0 ∨
      ∃ row, flat.contents E.meaning tables = Finsupp.single row 1 := by
  have hkeys : (indexed.contents E.meaning tables).keys ⊆ {Val.unit} := by
    rw [indexed.contents_eq, hindexed]
    exact OperatorKind.keys_index_oneKey element _
  have hcontents : flat.contents E.meaning tables = ((indexed.contents E.meaning tables).perKey
      fun k => E.meaning.fold fold ((indexed.contents E.meaning tables).group k)).mapRows
        (E.meaning.row f) := by
    rw [flat.contents_eq, hflat, hgroups]
    change (grouped.contents E.meaning tables).mapRows _ = _
    rw [grouped.contents_eq, hgrouped, hindex]
    rfl
  rw [hcontents]
  rcases ZSet.perKey_of_keys hkeys fun k =>
      E.meaning.fold fold ((indexed.contents E.meaning tables).group k) with hnone | hrow
  · exact .inl (by rw [hnone, map_zero])
  · exact .inr ⟨_, by rw [hrow, ZSet.mapRows_single]⟩

/-- A fixed row is added, and taken away for every row that is there. -/
theorem contents_defaulted {flat constant negated replaced : Operator} {rowType ty : Ty}
    {cells : List (Literal × Ty)} (hkind : op.kind = .sum)
    (hinputs : op.inputs = [flat, constant, negated])
    (hconstant : constant.kind = .constant ⟨.literal (.zset
      [(Expr.tuple (cells.map fun cell => Expr.literal cell.1 cell.2), 1)]), ty⟩)
    (hnegated : negated.kind = .negate) (hnegates : negated.inputs = [replaced])
    (hreplaced : replaced.kind = .map (Lower.fixedRow rowType cells))
    (hreplaces : replaced.inputs = [flat])
    (hcells : ∀ cell ∈ cells, (cell.1.atom? cell.2).isSome) :
    op.contents E.meaning tables = flat.contents E.meaning tables +
      Finsupp.single (Engine.literalRow cells) 1 -
        (flat.contents E.meaning tables).mapRows fun _ => Engine.literalRow cells := by
  have hfixed : constant.contents E.meaning tables =
      Finsupp.single (Engine.literalRow cells) 1 := by
    rw [constant.contents_eq, hconstant]
    exact Engine.constant_literalRow hcells
  have htaken : negated.contents E.meaning tables =
      -(flat.contents E.meaning tables).mapRows fun _ => Engine.literalRow cells := by
    rw [negated.contents_eq, hnegated, hnegates, ← Engine.row_fixedRow (E := E) rowType hcells]
    change -(replaced.contents E.meaning tables) = _
    rw [replaced.contents_eq, hreplaced, hreplaces]
    rfl
  rw [op.contents_eq, hkind, hinputs]
  change List.sum [_, constant.contents E.meaning tables, negated.contents E.meaning tables] = _
  rw [hfixed, htaken, List.sum_cons, List.sum_cons, List.sum_singleton, ← add_assoc,
    ← sub_eq_add_neg]

/-- Operators that are positive by the way they are built have no negative weights, when the tables
have none. -/
theorem Positive.nonneg (hops : ReadsEarlier ops)
    (hsources : ∀ op ∈ ops, op.kind.isSource → (op.contents E.meaning tables).Nonneg)
    (h : op.Positive) (hop : op ∈ ops) : (op.contents E.meaning tables).Nonneg := by
  induction h with
  | @unsigned op hkind =>
    cases hsource : op.kind.isSource with
    | true => exact hsources op hop hsource
    | false =>
      rw [op.contents_eq]
      exact OperatorKind.nonneg_of_isUnsigned hkind hsource _
  | @keeps op hkind _ ih =>
    rw [op.contents_eq]
    exact OperatorKind.nonneg_contents hkind
      (List.forall_mem_map.2 fun i hi => ih i hi (hops.mem hop hi))
  | @constant op rows ty hkind hrows =>
    rw [op.contents_eq, hkind]
    exact Engine.nonneg_constant hrows
  | unmatched hkind hinputs _ hkept hreads hleft hside hright hset hdistinct ih =>
    exact nonneg_unmatched hkind hinputs hkept hreads hleft hside hright hset hdistinct
      (ih (hops.mem hop (by simp [hinputs])))
  | defaulted hkind hinputs hflat hgroups hgrouped hindex hindexed hconstant hnegated hnegates
      hreplaced hreplaces hcells =>
    rw [contents_defaulted hkind hinputs hconstant hnegated hnegates hreplaced hreplaces hcells]
    exact .defaulted (contents_aggregated hflat hgroups hgrouped hindex hindexed) _

end Operator

end ViewCircuit
