import ViewCircuit.Proofs.Engine
import ViewCircuit.Proofs.Pipeline
import ViewCircuit.Proofs.Ranges

/-! Rows conform to the types of their streams. A function that fails on a row puts out nothing for
it; whatever does come out of an operator is data of the type that the operator declares. -/
namespace ViewCircuit

open List (Forall₂)
open scoped Classical

noncomputable section

namespace ZSet

/-- The row with the weight, if there is a row. -/
def ofOption (row : Option Val) (w : ℤ) : ZSet := row.elim 0 fun v => Finsupp.single v w

/-- Moves the weight of every row to its image; rows without one are dropped. -/
def mapSome (f : Val → Option Val) (x : ZSet) : ZSet := x.sum fun row w => ofOption (f row) w

/-- All pairs of rows with equal keys for which a function of the key and the two values gives a
row. -/
def joinSome (f : Val → Val → Val → Option Val) (x y : ZSet) : ZSet :=
  x.sum fun l w => y.sum fun r w' =>
    match l.pair?, r.pair? with
    | some (k, a), some (k', b) => if k = k' then ofOption (f k a b) (w * w') else 0
    | _, _ => 0

/-- One row for every key that has a value. -/
def perKeySome (f : Val → Option Val) (x : ZSet) : ZSet :=
  ∑ k ∈ x.keys, ofOption ((f k).map (Val.pair k)) 1

section Support

variable {x y : ZSet} {row : Val}

theorem mem_ofOption {v : Option Val} {w : ℤ} (h : row ∈ (ofOption v w).support) :
    v = some row := by
  cases v with
  | none => simp [ofOption] at h
  | some v =>
    have hmem := Finsupp.support_single_subset h
    rw [Finset.mem_singleton.1 hmem]

theorem mem_mapSome {f : Val → Option Val} (h : row ∈ (x.mapSome f).support) :
    ∃ r ∈ x.support, f r = some row := by
  obtain ⟨r, hr, hrow⟩ := mem_sum h
  exact ⟨r, hr, mem_ofOption hrow⟩

theorem mem_joinSome {f : Val → Val → Val → Option Val} (h : row ∈ (joinSome f x y).support) :
    ∃ k a b, Val.pair k a ∈ x.support ∧ Val.pair k b ∈ y.support ∧ f k a b = some row := by
  obtain ⟨l, hl, hrow⟩ := mem_sum h
  obtain ⟨r, hr, hrow⟩ := mem_sum hrow
  split at hrow
  · rename_i k a k' b hka hkb
    split at hrow
    · rename_i hk
      obtain rfl := Val.eq_pair_of_pair? hka
      obtain rfl := Val.eq_pair_of_pair? hkb
      exact ⟨k, a, b, hl, hk ▸ hr, mem_ofOption hrow⟩
    · simp at hrow
  · simp at hrow

theorem mem_perKeySome {f : Val → Option Val} (h : row ∈ (x.perKeySome f).support) :
    ∃ k ∈ x.keys, ∃ v, f k = some v ∧ row = Val.pair k v := by
  obtain ⟨k, hk, hrow⟩ := Finset.mem_biUnion.1 (Finsupp.support_finsetSum h)
  obtain ⟨v, hv, hpair⟩ := Option.map_eq_some_iff.1 (mem_ofOption hrow)
  exact ⟨k, hk, v, hv, hpair.symm⟩

theorem mapSome_eq {f : Val → Option Val} {g : Val → Val}
    (h : ∀ r ∈ x.support, f r = some (g r)) : x.mapSome f = x.mapRows g :=
  Finsupp.sum_congr fun r hr => by rw [h r hr]; rfl

theorem joinSome_eq {f : Val → Val → Val → Option Val} {g : Val → Val → Val → Val}
    (h : ∀ k a b, Val.pair k a ∈ x.support → Val.pair k b ∈ y.support →
      f k a b = some (g k a b)) : joinSome f x y = join g x y := by
  refine Finsupp.sum_congr fun l hl => Finsupp.sum_congr fun r hr => ?_
  unfold joinRow
  cases hl' : l.pair? with
  | none => rfl
  | some left =>
    cases hr' : r.pair? with
    | none => rfl
    | some right =>
      obtain ⟨k, a⟩ := left
      obtain ⟨k', b⟩ := right
      obtain rfl := Val.eq_pair_of_pair? hl'
      obtain rfl := Val.eq_pair_of_pair? hr'
      by_cases hk : k = k'
      · subst hk
        simp only [if_true, h k a b hl hr]
        rfl
      · simp only [if_neg hk]

theorem perKeySome_eq {f : Val → Option Val} {g : Val → Val}
    (h : ∀ k ∈ x.keys, f k = some (g k)) : x.perKeySome f = x.perKey g :=
  Finset.sum_congr rfl fun k hk => by rw [h k hk]; rfl

end Support

end ZSet

/-- What an operator makes of its inputs when functions may fail: a row on which its function fails
puts out nothing, and neither does a key on whose values its fold fails. -/
def OperatorKind.results (E : Engine) (tables : Tables) (kind : OperatorKind)
    (inputs : List ZSet) : ZSet :=
  match kind, inputs with
  | .map f, [x] | .index f, [x] => x.mapSome fun row => E.apply f [Engine.argument f row]
  | .join f, [x, y] =>
    ZSet.joinSome (fun k a b => E.apply f [Val.ref k, Val.ref a, Val.ref b]) x y
  | .aggregate f, [x] => x.perKeySome fun k => E.fold f (x.group k)
  | .windowAggregate window f, [x] => x.perKeySome fun k => E.fold f (E.frame window x k)
  -- A filter keeps the rows on which its function gives true, and all else computes no function.
  | kind, xs => kind.contents E.meaning tables xs

namespace Operator

mutual
/-- The rows that come out of an operator when the sources hold `tables`. -/
def results (E : Engine) (tables : Tables) : Operator → ZSet
  | ⟨_, _, kind, inputs, _, _⟩ => kind.results E tables (resultsAll E tables inputs)
def resultsAll (E : Engine) (tables : Tables) : List Operator → List ZSet
  | [] => []
  | op :: ops => results E tables op :: resultsAll E tables ops
end

theorem resultsAll_eq {E : Engine} {tables : Tables} (ops : List Operator) :
    resultsAll E tables ops = ops.map (results E tables) := by
  induction ops with
  | nil => rfl
  | cons op ops ih => simp [resultsAll, ih]

theorem results_eq {E : Engine} {tables : Tables} (op : Operator) :
    op.results E tables = op.kind.results E tables (op.inputs.map (results E tables)) := by
  cases op
  simp [results, resultsAll_eq]

/-- What holds of an operator when it holds of its inputs holds of all members. -/
theorem ReadsEarlier.induction {ops : List Operator} (h : ReadsEarlier ops) {P : Operator → Prop}
    (step : ∀ op ∈ ops, (∀ i ∈ op.inputs, P i) → P op) : ∀ op ∈ ops, P op := by
  suffices hprefix : ∀ before after, ops = before ++ after → ∀ op ∈ before, P op from
    hprefix ops [] (by simp)
  intro before
  induction before using List.reverseRecOn with
  | nil => exact fun _ _ => List.forall_mem_nil _
  | append_singleton before op ih =>
    intro after hsplit
    have hbefore := ih (op :: after) (by simp [hsplit])
    refine List.forall_mem_append.2 ⟨hbefore, List.forall_mem_singleton.2 ?_⟩
    have hop : ∀ i ∈ op.inputs, i ∈ before := h before op after (by simp [hsplit])
    exact step op (by simp [hsplit]) fun i hi => hbefore i (hop i hi)

end Operator

end

section Runs

variable {E : Engine} {tables : Tables}

/-- Where no function fails, the operator puts out its relation. -/
theorem OperatorKind.Runs.results_eq {kind : OperatorKind} {xs : List ZSet}
    (h : kind.Runs E xs) : kind.results E tables xs = kind.contents E.meaning tables xs := by
  have hgetD : ∀ {v : Option Val}, v.isSome → v = some (v.getD Val.null) := by
    intro v hv
    obtain ⟨w, rfl⟩ := Option.isSome_iff_exists.1 hv
    rfl
  unfold results
  split
  · exact ZSet.mapSome_eq fun r hr => hgetD (h r hr)
  · exact ZSet.mapSome_eq fun r hr => hgetD (h r hr)
  · exact ZSet.joinSome_eq fun k a b ha hb => hgetD (h k a b ha hb)
  · exact ZSet.perKeySome_eq fun k hk => hgetD (h k hk)
  · exact ZSet.perKeySome_eq fun k hk => hgetD (h k hk)
  · rfl

theorem Circuit.Runs.results_eq {c : Circuit} {ctx : Context} (hc : c.WellFormed ctx)
    (h : c.Runs E tables) : ∀ op ∈ c.operators,
      op.results E tables = op.contents E.meaning tables := by
  refine hc.earlier.induction fun op hop hinputs => ?_
  rw [op.results_eq, op.contents_eq, List.map_congr_left hinputs]
  exact (h op hop).results_eq

end Runs

section Types

variable {E : Engine} {tables : Tables} {t : Ty}

theorem Operator.rowParam_of_zset {element : Ty} (h : t.zsetElement? = some element) :
    rowParam t = .ok (Ty.ref element) := by
  obtain ⟨kind, n⟩ := t
  cases kind with
  | zset =>
    obtain rfl := Option.some.inj h
    rfl
  | _ => cases h

/-- The rows of a literal collection have the type of its rows. -/
theorem Val.HasTy.fits_rows {v : Val} (h : v.HasTy t) (hdata : v.isData) {element : Ty}
    (ht : t.zsetElement? = some element) : v.rows.Fits t := by
  intro row hrow
  cases h with
  | @zset vs weights _ _ hvs =>
    obtain ⟨x, hx, hrow⟩ := ZSet.mem_listSum hrow
    obtain ⟨r, hr, rfl⟩ := List.mem_map.1 hx
    obtain rfl := Finset.mem_singleton.1 (Finsupp.support_single_subset hrow)
    have hmem := (List.of_mem_zip hr).1
    exact ⟨Val.allData_iff.1 hdata _ hmem, hvs _ hmem⟩
  | any | user | indexed | anyRef => cases ht
  | _ => simp [Val.rows] at hrow

section Rules

variable {f : Expr} {s result : Ty} {x y : ZSet} {row : Val} (hE : E.Lawful)

include hE

/-- A function of rows makes rows of its result type. -/
theorem Engine.Lawful.mapSome (hf : Lambda Literal.Fits f) {param : Ty}
    (hs : Operator.rowParam s = .ok param)
    (hparts : f.ty.functionParts? = some ([param], result)) (hx : x.Fits s)
    (hrow : row ∈ (x.mapSome fun r => E.apply f [argument f r]).support) :
    row.isData ∧ row.HasTy result := by
  obtain ⟨r, hr, hrow⟩ := ZSet.mem_mapSome hrow
  obtain ⟨hdata, hholds⟩ := hx r hr
  obtain ⟨hargdata, hargty⟩ := argument_typed hs hparts hdata hholds
  obtain ⟨hrowdata, hrowty, -⟩ :=
    hE.apply hf hparts (.cons hargty .nil) (by simpa using hargdata) hrow
  exact ⟨hrowdata, hrowty⟩

theorem Engine.Lawful.joinSome (hf : Lambda Literal.Fits f) {key a b : Ty}
    (hs : s.indexedParts? = some (key, a)) (ht : t.indexedParts? = some (key, b))
    (hparts : f.ty.functionParts? = some ([Ty.ref key, Ty.ref a, Ty.ref b], result))
    (hx : x.Fits s) (hy : y.Fits t) (hrow : row ∈ (ZSet.joinSome (fun k u v =>
      E.apply f [Val.ref k, Val.ref u, Val.ref v]) x y).support) :
    row.isData ∧ row.HasTy result := by
  obtain ⟨k, u, v, hu, hv, hrow⟩ := ZSet.mem_joinSome hrow
  obtain ⟨⟨hkdata, hkty⟩, hudata, huty⟩ := hx.pair hs hu
  obtain ⟨-, hvdata, hvty⟩ := hy.pair ht hv
  obtain ⟨hrowdata, hrowty, -⟩ := hE.apply hf hparts
    (.cons hkty.toRef (.cons huty.toRef (.cons hvty.toRef .nil)))
    (by simp [hkdata, hudata, hvdata]) hrow
  exact ⟨hrowdata, hrowty⟩

/-- A fold of values of a collection gives a value of its result type for each key. -/
theorem Engine.Lawful.perKeySome (hf : Folding Literal.Fits f) {key value acc : Ty}
    (hs : s.indexedParts? = some (key, value))
    (hty : f.ty.kind = .user "Fold" [value, acc, result]) (hx : x.Fits s) {values : Val → ZSet}
    (hvalues : ∀ k, ∀ v ∈ (values k).support, ∃ k', Val.pair k' v ∈ x.support) :
    (x.perKeySome fun k => E.fold f (values k)).Fits (Ty.indexedZSet key result) := by
  intro row hrow
  obtain ⟨k, hk, v, hv, rfl⟩ := ZSet.mem_perKeySome hrow
  obtain ⟨u, hu⟩ := ZSet.mem_keys.1 hk
  obtain ⟨⟨hkdata, hkty⟩, -⟩ := hx.pair hs hu
  have hrows : ∀ r ∈ (values k).support, r.isData ∧ r.HasTy value := by
    intro r hr
    obtain ⟨k', hk'⟩ := hvalues k r hr
    exact (hx.pair hs hk').2
  obtain ⟨hvdata, hvty, -⟩ := hE.fold hf hty hrows hv
  exact ⟨by simp [hkdata, hvdata], k, v, rfl, hkty, hvty⟩

/-- Whatever comes out of an operator over inputs of its input types is of its type. -/
theorem OperatorKind.Typed.fits_results {kind : OperatorKind} {inputs : List Ty}
    (h : kind.Typed inputs t) (hregular : kind.Regular Literal.Fits) (hwhole : kind.isWhole)
    (hsource : kind.isSource = false) {xs : List ZSet} (hxs : Forall₂ ZSet.Fits xs inputs) :
    (kind.results E tables xs).Fits t := by
  cases h with
  | source => cases hsource
  | incrementalJoin | incrementalAggregate => cases hwhole
  | sink =>
    obtain ⟨x, rfl, hx⟩ := forall₂_singleton hxs
    exact hx
  | map hparam hparts =>
    obtain ⟨x, rfl, hx⟩ := forall₂_singleton hxs
    exact fun row hrow => hE.mapSome hregular hparam hparts hx hrow
  | filter =>
    obtain ⟨x, rfl, hx⟩ := forall₂_singleton hxs
    exact fun row hrow => hx row (ZSet.mem_keepRows hrow)
  | index hzset hparts =>
    obtain ⟨x, rfl, hx⟩ := forall₂_singleton hxs
    intro row hrow
    obtain ⟨hdata, hty⟩ :=
      hE.mapSome hregular.1 (Operator.rowParam_of_zset hzset) hparts hx hrow
    exact ⟨hdata, hty.eq_pair⟩
  | join hs ht hparts =>
    obtain ⟨x, y, rfl, hx, hy⟩ := forall₂_pair hxs
    exact fun row hrow => hE.joinSome hregular hs ht hparts hx hy hrow
  | aggregate hs hfold =>
    obtain ⟨x, rfl, hx⟩ := forall₂_singleton hxs
    exact hE.perKeySome hregular hs hfold hx fun k v hv => ⟨k, ZSet.mem_group hv⟩
  | @windowAggregate window _ _ _ _ _ _ _ hs hfold =>
    obtain ⟨x, rfl, hx⟩ := forall₂_singleton hxs
    exact hE.perKeySome hregular hs hfold hx (hE.frame window x)
  | keeps hkeeps =>
    obtain ⟨x, rfl, hx⟩ := forall₂_singleton hxs
    cases kind with
    | distinct => exact fun row hrow => hx row (ZSet.mem_distinct hrow)
    | negate =>
      intro row hrow
      exact hx row (by simpa [results, contents] using hrow)
    | noop => exact hx
    | integrate | differentiate | incrementalDistinct => cases hwhole
    | _ => cases hkeeps
  | sum =>
    intro row hrow
    obtain ⟨x, hx, hrow⟩ := ZSet.mem_listSum hrow
    obtain ⟨s, hs, hx⟩ := forall₂_mem hxs hx
    obtain rfl := List.eq_of_mem_replicate hs
    exact hx row hrow
  | subtract =>
    obtain ⟨x, y, rfl, hx, hy⟩ := forall₂_pair hxs
    intro row hrow
    exact (Finset.mem_union.1 (Finsupp.support_sub hrow)).elim (hx row) (hy row)
  | @constant e =>
    have helement : ∃ element, e.ty.zsetElement? = some element := by
      cases hregular with
      | intro _ he =>
        obtain ⟨-, rfl⟩ := zset_eq_ok he
        exact ⟨_, rfl⟩
    obtain ⟨element, helement⟩ := helement
    intro row hrow
    cases hv : valueOf E.runtime [] e with
    | none => simp [results, contents, Engine.meaning, hv] at hrow
    | some v =>
      obtain ⟨hdata, hty, -⟩ := hE.constant hregular hv
      refine hty.fits_rows hdata helement row ?_
      simpa [results, contents, Engine.meaning, hv] using hrow

end Rules

end Types

section Ranges

variable {E : Engine} {tables : Tables} {f : Expr} {x y : ZSet} {row : Val}

theorem ZSet.InRange.pair (hx : x.InRange) {k v : Val} (h : Val.pair k v ∈ x.support) :
    k.inRange ∧ v.inRange := Val.inRange_pair.1 (hx _ h)

theorem Engine.inRange_argument (h : row.inRange) : (argument f row).inRange := by
  unfold argument
  split
  · rename_i k v hpair
    obtain rfl := Val.eq_pair_of_pair? hpair
    split
    · simpa using h
    · exact Val.inRange_ref.2 h
  · exact Val.inRange_ref.2 h

variable (hrt : E.runtime.Ranged)

include hrt

theorem Lambda.inRange_mapSome (hf : Lambda Literal.InRange f) (hx : x.InRange) :
    (x.mapSome fun row => E.apply f [Engine.argument f row]).InRange := by
  intro row hrow
  obtain ⟨r, hr, hrow⟩ := ZSet.mem_mapSome hrow
  exact hf.inRange hrt (List.forall_mem_singleton.2 (Engine.inRange_argument (hx r hr))) hrow

theorem Folding.inRange_perKeySome (hE : E.Lawful) (hf : Folding Literal.InRange f)
    (hx : x.InRange) {values : Val → ZSet}
    (hvalues : ∀ k, ∀ v ∈ (values k).support, ∃ k', Val.pair k' v ∈ x.support) :
    (x.perKeySome fun k => E.fold f (values k)).InRange := by
  intro row hrow
  obtain ⟨k, hk, v, hv, rfl⟩ := ZSet.mem_perKeySome hrow
  obtain ⟨u, hu⟩ := ZSet.mem_keys.1 hk
  refine Val.inRange_pair.2 ⟨(hx.pair hu).1, hf.inRange hrt hE (fun r hr => ?_) hv⟩
  obtain ⟨k', hk'⟩ := hvalues k r hr
  exact (hx.pair hk').2

/-- Over inputs with integers in range, an operator puts out integers in range. -/
theorem OperatorKind.Regular.inRange_results (hE : E.Lawful) {kind : OperatorKind}
    (h : kind.Regular Literal.InRange) (hsource : kind.isSource = false) {xs : List ZSet}
    (hxs : ∀ x ∈ xs, x.InRange) : (kind.results E tables xs).InRange := by
  unfold results
  split
  · exact h.inRange_mapSome hrt (hxs _ (by simp))
  · exact h.1.inRange_mapSome hrt (hxs _ (by simp))
  · rename_i f x y
    intro row hrow
    obtain ⟨k, u, v, hu, hv, hrow⟩ := ZSet.mem_joinSome hrow
    obtain ⟨hk, hu⟩ := (hxs x (by simp)).pair hu
    refine Lambda.inRange hrt h ?_ hrow
    simp [hk, hu, ((hxs y (by simp)).pair hv).2]
  · exact Folding.inRange_perKeySome hrt hE h (hxs _ (by simp)) fun k v hv => ⟨k, ZSet.mem_group hv⟩
  · exact Folding.inRange_perKeySome hrt hE h (hxs _ (by simp)) (hE.frame _ _)
  · rename_i hmap hindex hjoin haggregate hwindow
    unfold contents
    split
    · cases hsource
    · exact absurd rfl (hmap _ _ rfl)
    · exact absurd rfl (hindex _ _ rfl)
    · exact fun row hrow => hxs _ (by simp) row (ZSet.mem_keepRows hrow)
    · exact absurd rfl (hjoin _ _ _ rfl)
    · exact absurd rfl (haggregate _ _ rfl)
    · exact absurd rfl (hwindow _ _ _ rfl)
    · exact fun row hrow => hxs _ (by simp) row (ZSet.mem_distinct hrow)
    · intro row hrow
      obtain ⟨x, hx, hrow⟩ := ZSet.mem_listSum hrow
      exact hxs x hx row hrow
    · intro row hrow
      rcases Finset.mem_union.1 (Finsupp.support_sub hrow) with hrow | hrow
      · exact hxs _ (by simp) row hrow
      · exact hxs _ (by simp) row hrow
    · intro row hrow
      rw [Finsupp.support_neg] at hrow
      exact hxs _ (by simp) row hrow
    · rename_i e
      intro row hrow
      cases hv : valueOf E.runtime [] e with
      | none => simp [Engine.meaning, hv] at hrow
      | some v =>
        refine Val.inRange_rows (Listing.inRange hrt h hv) row ?_
        simpa [Engine.meaning, hv] using hrow
    · exact hxs _ (by simp)
    · exact hxs _ (by simp)
    · simp [ZSet.InRange]

end Ranges
/-- Types of columns: numbers, texts, times, truth values and NULL. -/
def Ty.isScalar (t : Ty) : Bool :=
  match t.kind with
  | .bool | .integer _ | .float | .double | .decimal .. | .string | .date | .timestamp | .interval
  | .usize | .null => true
  | _ => false

/-- Values of scalar types are data. -/
theorem Val.HasTy.isData_of_isScalar {v : Val} {t : Ty} (h : v.HasTy t) (ht : t.isScalar) :
    v.isData := by
  cases h with
  | atom => rfl
  | @tuple _ t _ hts =>
    obtain ⟨kind, n⟩ := t
    cases kind <;> simp_all [Ty.tupleFields?, Ty.isScalar]
  | _ => cases ht

namespace Circuit

variable {c : Circuit} {ctx : Context} {E : Engine} {tables : Tables} {constants : Prop}

/-- Every row that comes out of an operator is of the type that the operator declares, with its
integers in the ranges of their widths, so columns that may not be NULL are not. -/
structure Conforms (E : Engine) (tables : Tables) (c : Circuit) : Prop where
  rows : ∀ op ∈ c.operators, ∀ row ∈ (op.results E tables).support,
    op.ty.Holds row ∧ row.inRange
  notNull : ∀ op ∈ c.operators, ∀ row ∈ (op.results E tables).support, ∀ columns,
    op.ty.zsetElement? = some (Ty.tuple columns) → ∃ cells, row = Val.tuple cells ∧
      Forall₂ (fun cell column => column.mayBeNull = false → cell ≠ Val.null) cells columns

theorem conforms_of_fits (h : ∀ op ∈ c.operators, (op.results E tables).Fits op.ty)
    (hrange : ∀ op ∈ c.operators, (op.results E tables).InRange) : c.Conforms E tables := by
  refine ⟨fun op hop row hrow => ⟨(h op hop row hrow).2, hrange op hop row hrow⟩,
    fun op hop row hrow columns hty => ?_⟩
  have hrow := (Ty.holds_zset hty).1 (h op hop row hrow).2
  cases hrow with
  | @atom a _ ha => cases a <;> cases ha
  | @tuple cells _ _ hts hcells =>
    obtain rfl := Option.some.inj hts
    refine ⟨cells, rfl, hcells.imp fun cell column hcell hnull heq => ?_⟩
    have hnot := hcell.isNull_eq_false hnull
    rw [heq] at hnot
    cases hnot

/-- When the sources hold rows of their types, so do all operators. -/
theorem Standard.fits_results (hE : E.Lawful) (h : c.Standard Literal.Fits constants ctx)
    (hwhole : ∀ op ∈ c.operators, op.kind.isWhole)
    (hsources : ∀ op ∈ c.sources, (op.results E tables).Fits op.ty) :
    ∀ op ∈ c.operators, (op.results E tables).Fits op.ty := by
  have hc := h.wellFormed
  refine hc.earlier.induction fun op hop hinputs => ?_
  cases hsource : op.kind.isSource with
  | true =>
    refine hsources op ?_
    rw [hc.sectioned.sources_eq]
    exact List.mem_filter.2 ⟨hop, hsource⟩
  | false =>
    rw [op.results_eq]
    refine (hc.checked op hop).fits_results hE (h.kinds op hop).regular (hwhole op hop) hsource ?_
    rw [List.forall₂_map_left_iff, List.forall₂_map_right_iff, List.forall₂_same]
    exact hinputs

/-- When the sources hold integers in range, so do all operators. -/
theorem Standard.inRange_results (hE : E.Lawful) (hrt : E.runtime.Ranged)
    (h : c.Standard Literal.InRange constants ctx)
    (hsources : ∀ op ∈ c.sources, (op.results E tables).InRange) :
    ∀ op ∈ c.operators, (op.results E tables).InRange := by
  have hc := h.wellFormed
  refine hc.earlier.induction fun op hop hinputs => ?_
  cases hsource : op.kind.isSource with
  | true =>
    refine hsources op ?_
    rw [hc.sectioned.sources_eq]
    exact List.mem_filter.2 ⟨hop, hsource⟩
  | false =>
    rw [op.results_eq]
    exact (h.kinds op hop).regular.inRange_results hrt hE hsource (List.forall_mem_map.2 hinputs)

end Circuit

namespace Engine

/-- An engine that adds integers and folds the values of one key in any order. -/
noncomputable def summing : Engine where
  runtime := int32Sums
  order x := x.support.toList
  frame _ x key := x.group key

theorem summing_lawful : summing.Lawful where
  typed := int32Sums_typed
  order _ _ hrow := Finset.mem_toList.1 hrow
  frame _ _ key _ hv := ⟨key, ZSet.mem_group hv⟩

end Engine

namespace Plan

variable {p : Plan} {c c' : Circuit} {ctx ctx' : Context} {E : Engine} {tables : Tables}

/-- Every table holds rows of its columns, with integers in the ranges of their widths. -/
def Populated (p : Plan) (tables : Tables) : Prop :=
  ∀ t ∈ p.tables, ∀ row ∈ (tables t.name).support,
    row.HasTy (Ty.tuple t.rowTypes) ∧ row.inRange

/-- Rows of scalar columns are data. -/
theorem Populated.fits (h : p.Populated tables)
    (hscalar : ∀ t ∈ p.tables, ∀ column ∈ t.columns, column.ty.isScalar) {t : Table}
    (ht : t ∈ p.tables) : (tables t.name).Fits (Ty.zset (Ty.tuple t.rowTypes)) := by
  intro row hrow
  obtain ⟨hty, -⟩ := h t ht row hrow
  refine ⟨?_, hty⟩
  cases hty with
  | @atom a _ ha => rfl
  | @tuple cells _ _ hts hcells =>
    obtain rfl := Option.some.inj hts
    refine Val.allData_iff.2 fun cell hcell => ?_
    obtain ⟨ty, hmem, hcell⟩ := forall₂_mem hcells hcell
    obtain ⟨column, hcolumn, rfl⟩ := List.mem_map.1 hmem
    exact hcell.isData_of_isScalar (hscalar t ht column hcolumn)

/-- Sources of tables with data of their columns hold rows of their types. -/
theorem fits_sources (h : ∀ t ∈ p.tables, (tables t.name).Fits (Ty.zset (Ty.tuple t.rowTypes)))
    (hsources : Forall₂ IsSource p.tables c.sources) :
    ∀ op ∈ c.sources, (op.results E tables).Fits op.ty := by
  intro op hop
  obtain ⟨t, ht, hkind, hty⟩ := forall₂_mem hsources.flip hop
  rw [Operator.results_eq, hkind, hty]
  exact h t ht

theorem Populated.inRange_sources (h : p.Populated tables)
    (hsources : Forall₂ IsSource p.tables c.sources) :
    ∀ op ∈ c.sources, (op.results E tables).InRange := by
  intro op hop row hrow
  obtain ⟨t, ht, hkind, -⟩ := forall₂_mem hsources.flip hop
  rw [Operator.results_eq, hkind] at hrow
  exact (h t ht row hrow).2

/-- In the circuit of a plan and in what the passes over whole relations make of it, every row that
comes out of an operator is of the type that the operator declares. -/
theorem rows_conform (hE : E.Lawful) (hrt : E.runtime.Ranged)
    (hscalar : ∀ t ∈ p.tables, ∀ column ∈ t.columns, column.ty.isScalar)
    (hnull : ∀ t ∈ p.types, t.isNullType → t.mayBeNull) (hrows : p.Populated tables)
    (h : p.circuit ctx = (.ok c, ctx')) :
    c.Conforms E tables ∧ ∀ config : OptimizerConfig, config.incrementalize = false →
      Compile.Ends (c.optimize config.pipeline) ctx' fun out _ => out.1.Conforms E tables := by
  have himplements := implements_circuit admits_fits
    (fun t ht hkind => admits_fits.null (hnull t ht hkind)) h
  have hstandard := himplements.standard
  have hranged := (implements_circuit admits_inRange
    (fun t ht hkind => admits_inRange.null (hnull t ht hkind)) h).standard
  have hsources := fits_sources (E := E) (fun t ht => hrows.fits hscalar ht) himplements.sources
  have hranges := hrows.inRange_sources (E := E) himplements.sources
  have hwhole : ∀ op ∈ c.operators, op.kind.isWhole :=
    fun op hop => (himplements.lowered op hop).whole
  have hdistinct : ∀ d ∈ c.operators, d.kind = .distinct → d.ty.zsetElement?.isSome :=
    fun d hd hkind => ((himplements.lowered d hd).distinct hkind).1
  refine ⟨Circuit.conforms_of_fits (hstandard.fits_results hE hwhole hsources)
    (hranged.inRange_results hE hrt hranges), fun config hconfig => ?_⟩
  have hends := hstandard.ends_pipeline_whole admits_fits hwhole hdistinct hconfig
  have hends' := hranged.ends_pipeline_whole admits_inRange hwhole hdistinct hconfig
  refine (hends.and hends'.yields).mono fun out ctx'' hout => ?_
  obtain ⟨⟨hstandard', hends, hwhole'⟩, hranged', -⟩ := hout
  exact Circuit.conforms_of_fits (hstandard'.fits_results hE hwhole' (hends.sources ▸ hsources))
    (hranged'.inRange_results hE hrt (hends.sources ▸ hranges))

/-- One owner, who made the same payment of an unknown amount twice. -/
noncomputable def accountRows : Tables
  | "Owner" => Finsupp.single (Val.tuple [.atom (.int .w32 7), .atom (.string "Ada")]) 1
  | "Payment" => Finsupp.single (Val.tuple [.atom (.int .w32 7), Val.null]) 2
  | _ => 0

theorem populated_accounts : accounts.Populated accountRows := by
  have howner : (Val.tuple [.atom (.int .w32 7), .atom (.string "Ada")]).HasTy
      (Ty.tuple [Ty.int32, Ty.string]) :=
    .tuple rfl (.cons (.atom rfl) (.cons (.atom rfl) .nil))
  have hpayment : (Val.tuple [.atom (.int .w32 7), Val.null]).HasTy
      (Ty.tuple [Ty.int32, Ty.int32.nullable]) :=
    .tuple rfl (.cons (.atom rfl) (.cons (.atom rfl) .nil))
  simp only [Populated, accounts, List.forall_mem_cons]
  refine ⟨fun row hrow => ?_, fun row hrow => ?_, List.forall_mem_nil _⟩
  · obtain rfl := Finset.mem_singleton.1 (Finsupp.support_single_subset hrow)
    exact ⟨howner, by decide⟩
  · obtain rfl := Finset.mem_singleton.1 (Finsupp.support_single_subset hrow)
    exact ⟨hpayment, by decide⟩

theorem accounts_conform : ∃ c ctx, accounts.circuit Context.empty = (.ok c, ctx) ∧
    c.Conforms .summing accountRows ∧ ∀ config : OptimizerConfig, config.incrementalize = false →
      Compile.Ends (c.optimize config.pipeline) ctx fun out _ =>
        out.1.Conforms .summing accountRows := by
  obtain ⟨c, ctx, h⟩ := lowers_accounts
  exact ⟨c, ctx, h, rows_conform Engine.summing_lawful int32Sums_ranged (by decide) (by decide)
    populated_accounts h⟩

end Plan

end ViewCircuit
