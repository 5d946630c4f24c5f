import Mathlib
import ViewCircuit.Proofs.Conformance
import ViewCircuit.Proofs.Positive

/-! Optimizing keeps the views of a plan: moving distincts, removing operators that no view needs
and simplifying functions leave every sink with the rows and weights that it had. -/
namespace ViewCircuit

open List (Forall₂)
open scoped Classical

/-- An operator with its function simplified does what the operator does when functions mean their
simplified ones. -/
theorem OperatorKind.contents_of_simplified {M : Meaning} {tables : Tables} (kind : OperatorKind)
    (xs : List ZSet) :
    kind.simplified.contents M tables xs = kind.contents M.simplified tables xs := by
  rcases xs with _ | ⟨x, _ | ⟨y, _ | ⟨z, zs⟩⟩⟩ <;> cases kind <;> rfl

section Simplified

variable {E : Engine} {tables : Tables} {f : Expr} {x y : ZSet} {s t result : Ty} (hE : E.Lawful)

include hE

namespace Engine.Lawful

theorem apply_simplified (hf : Lambda Literal.Fits f) {params : List Ty}
    (hparts : f.ty.functionParts? = some (params, result)) {args : List Val}
    (hargs : Forall₂ Val.HasTy args params) (hdata : ∀ a ∈ args, a.isData)
    (hruns : (E.apply f args).isSome) : E.apply f.simplify.value args = E.apply f args := by
  obtain ⟨v, hv⟩ := Option.isSome_iff_exists.1 hruns
  obtain ⟨-, -, hv'⟩ := hE.apply hf hparts hargs hdata hv
  rw [hv, hv']

theorem row_simplified (hf : Lambda Literal.Fits f) {param : Ty}
    (ht : Operator.rowParam t = .ok param)
    (hparts : f.ty.functionParts? = some ([param], result)) (hx : x.Fits t)
    (hruns : ∀ r ∈ x.support, (E.apply f [argument f r]).isSome) :
    x.mapRows (E.meaning.simplified.row f) = x.mapRows (E.meaning.row f) := by
  refine ZSet.mapRows_congr fun r hr => ?_
  obtain ⟨hdata, hholds⟩ := hx r hr
  obtain ⟨hargdata, hargty⟩ := argument_typed ht hparts hdata hholds
  have hty : f.simplify.value.ty = f.ty := hf.wellTyped.ty_rewritten simplifying_simpler
  have harg : argument f.simplify.value r = argument f r := by
    unfold argument takesParts
    rw [hty]
  have happly := hE.apply_simplified hf hparts (.cons hargty .nil) (by simpa using hargdata)
    (hruns r hr)
  simp only [Meaning.simplified, meaning, harg, happly]

theorem keep_simplified (hf : Lambda Literal.Fits f) {element : Ty}
    (ht : t.zsetElement? = some element)
    (hparts : f.ty.functionParts? = some ([Ty.ref element], Ty.bool)) (hx : x.Fits t)
    (hruns : ∀ r ∈ x.support, (E.apply f [Val.ref r]).isSome) :
    x.keepRows (E.meaning.simplified.keep f) = x.keepRows (E.meaning.keep f) := by
  refine ZSet.keepRows_congr fun r hr => ?_
  obtain ⟨hdata, hholds⟩ := hx r hr
  have hrow := (Ty.holds_zset ht).1 hholds
  have happly := hE.apply_simplified hf hparts (.cons hrow.toRef .nil) (by simpa using hdata)
    (hruns r hr)
  simp only [Meaning.simplified, meaning, happly]

theorem pair_simplified (hf : Lambda Literal.Fits f) {key a b : Ty}
    (hs : s.indexedParts? = some (key, a)) (ht : t.indexedParts? = some (key, b))
    (hparts : f.ty.functionParts? = some ([Ty.ref key, Ty.ref a, Ty.ref b], result))
    (hx : x.Fits s) (hy : y.Fits t)
    (hruns : ∀ k u v, Val.pair k u ∈ x.support → Val.pair k v ∈ y.support →
      (E.apply f [Val.ref k, Val.ref u, Val.ref v]).isSome) :
    ZSet.join (E.meaning.simplified.pair f) x y = ZSet.join (E.meaning.pair f) x y := by
  refine ZSet.join_congr fun k u v hu hv => ?_
  obtain ⟨⟨hkdata, hkty⟩, hudata, huty⟩ := hx.pair hs hu
  obtain ⟨-, hvdata, hvty⟩ := hy.pair ht hv
  have happly := hE.apply_simplified hf hparts
    (.cons hkty.toRef (.cons huty.toRef (.cons hvty.toRef .nil)))
    (by simp [hkdata, hudata, hvdata]) (hruns k u v hu hv)
  simp only [Meaning.simplified, meaning, happly]

/-- A fold over values of a collection. -/
theorem fold_simplified (hf : Folding Literal.Fits f) {key value acc : Ty}
    (ht : t.indexedParts? = some (key, value))
    (hty : f.ty.kind = .user "Fold" [value, acc, result]) (hx : x.Fits t)
    (hy : ∀ v ∈ y.support, ∃ k, Val.pair k v ∈ x.support) (hruns : (E.fold f y).isSome) :
    E.fold f.simplify.value y = E.fold f y := by
  obtain ⟨v, hv⟩ := Option.isSome_iff_exists.1 hruns
  have hrows : ∀ r ∈ y.support, r.isData ∧ r.HasTy value := by
    intro r hr
    obtain ⟨k, hk⟩ := hy r hr
    exact (hx.pair ht hk).2
  obtain ⟨-, -, hv'⟩ := hE.fold hf hty hrows hv
  rw [hv, hv']

end Engine.Lawful

/-- On data of the input types, the simplified functions of an operator do what its functions do. -/
theorem OperatorKind.Typed.contents_simplified {kind : OperatorKind} {inputs : List Ty}
    (h : kind.Typed inputs t) (hregular : kind.Regular Literal.Fits) {xs : List ZSet}
    (hxs : Forall₂ ZSet.Fits xs inputs) (hruns : kind.Runs E xs) :
    kind.contents E.meaning.simplified tables xs = kind.contents E.meaning tables xs := by
  cases h with
  | source | sum | incrementalJoin | incrementalAggregate => rfl
  | sink | subtract => exact (contents_of_simplified _ xs).symm
  | keeps hkeeps => cases kind <;> first | exact (contents_of_simplified _ xs).symm | cases hkeeps
  | map hparam hparts =>
    obtain ⟨x, rfl, hx⟩ := forall₂_singleton hxs
    exact hE.row_simplified hregular hparam hparts hx hruns
  | filter hzset hparts =>
    obtain ⟨x, rfl, hx⟩ := forall₂_singleton hxs
    exact hE.keep_simplified hregular hzset hparts hx hruns
  | index hzset hparts =>
    obtain ⟨x, rfl, hx⟩ := forall₂_singleton hxs
    exact hE.row_simplified hregular.1 (Operator.rowParam_of_zset hzset) hparts hx hruns
  | join hs ht hparts =>
    obtain ⟨x, y, rfl, hx, hy⟩ := forall₂_pair hxs
    exact hE.pair_simplified hregular hs ht hparts hx hy hruns
  | aggregate hs hfold =>
    obtain ⟨x, rfl, hx⟩ := forall₂_singleton hxs
    refine ZSet.perKey_congr fun k hk => congrArg (Option.getD · Val.null) ?_
    exact hE.fold_simplified hregular hs hfold hx (fun v hv => ⟨k, ZSet.mem_group hv⟩) (hruns k hk)
  | @windowAggregate window _ _ _ _ _ _ _ hs hfold =>
    obtain ⟨x, rfl, hx⟩ := forall₂_singleton hxs
    refine ZSet.perKey_congr fun k hk => congrArg (Option.getD · Val.null) ?_
    exact hE.fold_simplified hregular hs hfold hx (hE.frame window x k) (hruns k hk)
  | @constant e =>
    obtain ⟨v, hv⟩ := Option.isSome_iff_exists.1 hruns
    obtain ⟨-, -, hv'⟩ := hE.constant hregular hv
    change E.meaning.constant e.simplify.value = E.meaning.constant e
    simp only [Engine.meaning, hv, hv']

/-- Where the functions of a circuit run on the rows that reach them, simplified ones compute the
same relations. -/
theorem Circuit.Standard.contents_simplified {c : Circuit} {ctx : Context} {constants : Prop}
    (h : c.Standard Literal.Fits constants ctx) (hwhole : ∀ op ∈ c.operators, op.kind.isWhole)
    (hsources : ∀ op ∈ c.sources, (op.results E tables).Fits op.ty) (hruns : c.Runs E tables) :
    ∀ op ∈ c.operators,
      op.contents E.meaning.simplified tables = op.contents E.meaning tables := by
  have hc := h.wellFormed
  have hfits : ∀ op ∈ c.operators, (op.contents E.meaning tables).Fits op.ty := fun op hop =>
    hruns.results_eq hc op hop ▸ h.fits_results hE hwhole hsources op hop
  refine hc.earlier.induction fun op hop hinputs => ?_
  rw [op.contents_eq, op.contents_eq, List.map_congr_left hinputs]
  refine (hc.checked op hop).contents_simplified hE (h.kinds op hop).regular ?_ (hruns op hop)
  rw [List.forall₂_map_left_iff, List.forall₂_map_right_iff, List.forall₂_same]
  exact fun i hi => hfits i (hc.earlier.mem hop hi)

end Simplified

namespace Operator

variable {x op : Operator}

/-- What an operator shows a distinct of is a member, if the operator is. -/
theorem Beneath.mem {ops : List Operator} (hops : ReadsEarlier ops) (h : x.Beneath op)
    (hop : op ∈ ops) : x ∈ ops := by
  induction h with
  | distinct _ hinputs => exact hops.mem hop (by simp [hinputs])
  | again _ hinputs _ ih | filter _ hinputs _ ih => exact ih (hops.mem hop (by simp [hinputs]))

end Operator

namespace Circuit

variable {c : Circuit} {ctx : Context} {fits : Literal → Ty → Prop} {constants : Prop}
  {M M' : Meaning} {tables : Tables} {E : Engine}

section Meanings

variable (heq : ∀ op ∈ c.operators, op.contents M' tables = op.contents M tables)

include heq

theorem DistinctsReadRows.congr (hc : c.WellFormed ctx) (h : c.DistinctsReadRows M tables) :
    c.DistinctsReadRows M' tables where
  rows := h.rows
  nonneg d hd hkind i hi := by
    rw [heq i (hc.earlier.mem hd hi)]
    exact h.nonneg d hd hkind i hi

theorem DifferencesCovered.congr (hc : c.WellFormed ctx) (h : c.DifferencesCovered M tables) :
    c.DifferencesCovered M' tables := by
  intro d hd hkind i hi hgathers hsettled j hj x hx hdifference
  have hmem := hx.mem hc.earlier (hc.earlier.mem (hc.earlier.mem hd hi) hj)
  rw [heq x hmem]
  exact h d hd hkind i hi hgathers hsettled j hj x hx hdifference

end Meanings

theorem differencesCovered_of_nonneg (hc : c.WellFormed ctx)
    (h : ∀ op ∈ c.operators, op.IsDifference → (op.contents M tables).Nonneg) :
    c.DifferencesCovered M tables := by
  intro d hd _ i hi _ _ j hj x hx hdifference
  exact h x (hx.mem hc.earlier (hc.earlier.mem (hc.earlier.mem hd hi) hj)) hdifference

/-- In a lowered circuit over tables without negative weights, distincts read negative weights of
differences only. -/
theorem Lowered.distinctsReadRows (h : c.Lowered fits constants ctx)
    (hsources : ∀ op ∈ c.operators, op.kind.isSource → (op.contents E.meaning tables).Nonneg) :
    c.DistinctsReadRows E.meaning tables where
  rows d hd hkind := ((h.lowered d hd).distinct hkind).1
  nonneg d hd hkind i hi := by
    have hmem := h.wellFormed.earlier.mem hd hi
    exact (((h.lowered d hd).distinct hkind).2 i hi).imp_right fun hpositive =>
      hpositive.nonneg h.wellFormed.earlier hsources hmem

/-- Normalizing functions leaves the sinks with what they hold when functions mean their simplified
ones. -/
theorem WellFormed.ends_normalizeFunctions (hc : c.WellFormed ctx) (M : Meaning) (tables : Tables)
    (hfits : Admits fits) (hregular : ∀ op ∈ c.operators, op.kind.Regular fits) :
    Compile.Ends c.normalizeFunctions ctx fun c' _ => SinksRelated
      (fun op op' => op'.contents M tables = op.contents M.simplified tables) c c' := by
  refine (hc.ends_rebuild fun done op rest r ctx' hsplit h => ?_).mono fun _ _ h => h.2.2
  refine (Functions.ends_visit h hc hsplit hfits (hregular op (by simp [hsplit]))
    fun op' hkind hinputs => ?_).mono fun _ _ hnext => hnext.1
  have hmapped : (r.mappedInputs op).map (Operator.contents M tables) =
      op.inputs.map (Operator.contents M.simplified tables) := by
    rw [Rebuild.mappedInputs, List.map_map]
    exact List.map_congr_left fun i hi => (h.stands_input hc hsplit hi).sem
  rw [op'.contents_eq, op.contents_eq, hkind, hinputs, hmapped, OperatorKind.contents_of_simplified]

/-- What a circuit puts out: the kind of every sink, which names the view, and its relation. -/
noncomputable def views (M : Meaning) (tables : Tables) (c : Circuit) :
    List (OperatorKind × ZSet) :=
  c.sinks.map fun sink => (sink.kind, sink.contents M tables)

theorem SinksRelated.views_eq {c c' : Circuit} {Sem : Operator → Operator → Prop}
    (h : SinksRelated Sem c c')
    (hsem : ∀ op op', Sem op op' → op'.contents M' tables = op.contents M tables) :
    c'.views M' tables = c.views M tables := by
  unfold views
  rw [eq_comm, ← List.forall₂_eq_eq_eq, List.forall₂_map_left_iff, List.forall₂_map_right_iff]
  exact h.imp fun op op' hop => Prod.ext hop.2.1.symm (hsem op op' hop.2.2).symm

/-- Moving distincts and removing operators keep the views; what follows starts from a circuit with
the same ones. -/
theorem Standard.ends_elided (h : c.Standard fits constants ctx)
    (hwhole : ∀ op ∈ c.operators, op.kind.isWhole) (hrows : c.DistinctsReadRows M tables)
    (hcovered : c.DifferencesCovered M tables) {ps : List Pass} (post : Circuit → Context → Prop)
    (hrest : ∀ (c' : Circuit) ctx', c'.Standard fits constants ctx' →
      c'.views M tables = c.views M tables →
      Compile.Ends (c'.optimize ps) ctx' fun out => post out.1) :
    Compile.Ends (c.optimize (.distinctElision :: .deadCode :: ps)) ctx
      fun out => post out.1 := by
  refine ends_optimize_cons post (((h.ends_elideDistincts hwhole hrows.rows).and
    (h.wellFormed.ends_elideDistincts hrows hcovered).yields).mono fun c₁ ctx₁ h₁ => ?_)
  obtain ⟨⟨h₁, -⟩, -, -, hsinks⟩ := h₁
  refine ends_optimize_cons post
    ((h₁.ends_prune.and h₁.wellFormed.ends_pruned.yields).mono fun c₂ ctx₂ h₂ => ?_)
  obtain ⟨⟨h₂, -⟩, hpruned, -⟩ := h₂
  refine hrest c₂ ctx₂ h₂ ?_
  calc c₂.views M tables = c₁.views M tables := by rw [views, hpruned.sinks, views]
    _ = c.views M tables := hsinks.views_eq fun _ _ helided => helided.contents

/-- Where functions mean what they are simplified to, the views stay when functions are simplified,
too. -/
theorem Standard.ends_simplified (hfits : Admits fits) (h : c.Standard fits constants ctx)
    (hwhole : ∀ op ∈ c.operators, op.kind.isWhole)
    (hmeaning : ∀ op ∈ c.operators, op.contents M.simplified tables = op.contents M tables)
    (hrows : c.DistinctsReadRows M tables) (hcovered : c.DifferencesCovered M tables) :
    Compile.Ends (c.optimize [.distinctElision, .deadCode, .normalFunctions]) ctx
      fun out _ => out.1.views M tables = c.views M tables := by
  let post (c' : Circuit) (_ : Context) : Prop := c'.views M tables = c.views M tables
  -- Distincts are moved with the meaning that the functions will have in the end.
  refine h.ends_elided hwhole (hrows.congr hmeaning h.wellFormed)
    (hcovered.congr hmeaning h.wellFormed) post fun c₁ ctx₁ h₁ hviews => ?_
  have hnormal := h₁.wellFormed.ends_normalizeFunctions M tables hfits
    fun op hop => (h₁.kinds op hop).regular
  refine ends_optimize_cons post (hnormal.mono fun c₂ ctx₂ hsinks => (Compile.ends_pure _).2 ?_)
  calc c₂.views M tables = c₁.views M.simplified tables := hsinks.views_eq fun _ _ heq => heq
    _ = c.views M.simplified tables := hviews
    _ = c.views M tables := List.map_congr_left fun sink hsink => by
      rw [hmeaning sink (by simp [operators, hsink])]

end Circuit

namespace Plan

variable {p : Plan} {c : Circuit} {ctx ctx' : Context} {E : Engine} {tables : Tables}

/-- Without any pass, the compiled circuit is the lowered one. -/
theorem circuit_of_compile {config : OptimizerConfig} {stats : List PassStats}
    (hoptimize : config.optimize = false) (hincremental : config.incrementalize = false)
    (h : p.compile config ctx = (.ok (c, stats), ctx')) : p.circuit ctx = (.ok c, ctx') := by
  obtain ⟨lowered, ctx₁, hlower, hrun⟩ := (Compile.bind_eq_ok _ _).1 h
  rw [Circuit.pipeline_whole hincremental, hoptimize] at hrun
  cases hrun
  exact hlower

theorem Implements.nonneg_sources {fits : Literal → Ty → Prop} {M : Meaning}
    (h : Implements fits p c ctx) (hweights : ∀ t ∈ p.tables, (tables t.name).Nonneg) :
    ∀ op ∈ c.operators, op.kind.isSource → (op.contents M tables).Nonneg := by
  intro op hop hsource
  have hmem : op ∈ c.sources := by
    rw [h.wellFormed.sectioned.sources_eq]
    exact List.mem_filter.2 ⟨hop, hsource⟩
  obtain ⟨t, ht, hkind, -⟩ := forall₂_mem h.sources.flip hmem
  rw [op.contents_eq, hkind]
  exact hweights t ht

/-- Optimizing succeeds and returns a circuit in order with the same sources and views. It leaves
every view with the same rows and weights, over tables of rows of their columns without negative
weights, as long as no function fails on them and the distincts that are moved pass no negative
weights of a difference. For simplified functions, types that hold nothing but NULL have to say
so. -/
theorem optimize_keeps_views {plain config : OptimizerConfig} {stats : List PassStats}
    (hE : E.Lawful) (hplain : plain.optimize = false) (hrelations : plain.incrementalize = false)
    (hconfig : config.incrementalize = false)
    (hnull : config.simplifyFunctions → ∀ t ∈ p.types, t.isNullType → t.mayBeNull)
    (hrows : ∀ t ∈ p.tables, (tables t.name).Fits (Ty.zset (Ty.tuple t.rowTypes)))
    (hweights : ∀ t ∈ p.tables, (tables t.name).Nonneg)
    (h : p.compile plain ctx = (.ok (c, stats), ctx')) (hruns : c.Runs E tables)
    (hcovered : c.DifferencesCovered E.meaning tables) :
    Compile.Ends (p.compile config) ctx fun out ctx' =>
      out.1.WellFormed ctx' ∧ c.SameEnds out.1 ∧
        out.1.views E.meaning tables = c.views E.meaning tables := by
  have hlower := circuit_of_compile hplain hrelations h
  have himplements := implements_circuit admits_any (fun _ _ _ => trivial) hlower
  have hwhole : ∀ op ∈ c.operators, op.kind.isWhole :=
    fun op hop => (himplements.lowered op hop).whole
  have hdistincts : c.DistinctsReadRows E.meaning tables :=
    himplements.distinctsReadRows (himplements.nonneg_sources hweights)
  have hviews : Compile.Ends (c.optimize config.pipeline) ctx' fun out _ =>
      out.1.views E.meaning tables = c.views E.meaning tables := by
    rw [Circuit.pipeline_whole hconfig]
    cases config.optimize with
    | false => exact (Compile.ends_pure _).2 rfl
    | true =>
      cases hsimplify : config.simplifyFunctions with
      | false =>
        exact himplements.standard.ends_elided hwhole hdistincts hcovered
          (fun c' _ => c'.views E.meaning tables = c.views E.meaning tables)
          fun c' ctx'' _ hviews => (Compile.ends_pure _).2 hviews
      | true =>
        have htyped := implements_circuit admits_fits
          (fun t ht hkind => admits_fits.null (hnull hsimplify t ht hkind)) hlower
        have hmeaning := htyped.standard.contents_simplified hE hwhole
          (fits_sources hrows htyped.sources) hruns
        exact htyped.standard.ends_simplified admits_fits hwhole hmeaning hdistincts hcovered
  have hends := himplements.standard.ends_pipeline admits_any hwhole hdistincts.rows config
  unfold compile
  rw [Compile.ends_bind]
  refine ⟨c, ctx', hlower, (hends.and hviews.yields).mono fun out ctx'' hout => ?_⟩
  exact ⟨hout.1.1.wellFormed, hout.1.2, hout.2⟩

/-- Whether any goods are left that were not sold. -/
def stock : Plan :=
  ⟨"stock", [⟨"Goods", [⟨"id", Ty.int32⟩], [0]⟩, ⟨"Sold", [⟨"id", Ty.int32⟩], [0]⟩],
    [⟨"AnyLeft", .distinct (.project (.minus [.scan "Goods", .scan "Sold"] false)
      [.literal (.int 1) Ty.int32])⟩]⟩

/-- The circuit of the plan. -/
def stockCircuit : Circuit :=
  let rows : Ty := Ty.zset (Ty.tuple [Ty.int32])
  let one : Expr := Lower.fixedRow (Ty.tuple [Ty.int32]) [(.int 1, Ty.int32)]
  let goods : Operator := ⟨0, Names.nth "stream" 0, .source "Goods", [], rows, false⟩
  let sold : Operator := ⟨1, Names.nth "stream" 1, .source "Sold", [], rows, false⟩
  let listed : Operator := ⟨2, Names.nth "stream" 2, .distinct, [goods], rows, false⟩
  let gone : Operator := ⟨3, Names.nth "stream" 3, .distinct, [sold], rows, false⟩
  let taken : Operator := ⟨4, Names.nth "stream" 4, .negate, [gone], rows, false⟩
  let difference : Operator := ⟨5, Names.nth "stream" 5, .sum, [listed, taken], rows, true⟩
  let left : Operator := ⟨6, Names.nth "stream" 6, .distinct, [difference], rows, false⟩
  let ones : Operator := ⟨7, Names.nth "stream" 7, .map one, [left], rows, true⟩
  let any : Operator := ⟨8, Names.nth "stream" 8, .distinct, [ones], rows, false⟩
  let view : Operator := ⟨9, Names.nth "stream" 9, .sink "AnyLeft", [any], rows, false⟩
  ⟨"stock", [], [goods, sold], [listed, gone, taken, difference, left, ones, any], [view]⟩

/-- The context in which it is lowered. -/
def stockContext : Context := ⟨Names.empty.setIssued "stream" 10, 10⟩

theorem compile_stock : stock.compile { optimize := false } Context.empty =
    (.ok (stockCircuit, []), stockContext) := by
  cbv

theorem implements_stock : Implements (fun _ _ => True) stock stockCircuit stockContext :=
  implements_circuit admits_any (fun _ _ _ => trivial) (circuit_of_compile rfl rfl compile_stock)

def stockRow (id : Int) : Val := Val.tuple [.atom (.int .w32 id)]

/-- Two goods, of which one was sold. -/
noncomputable def stockRows : Tables
  | "Goods" => Finsupp.single (stockRow 1) 1 + Finsupp.single (stockRow 2) 1
  | "Sold" => Finsupp.single (stockRow 2) 1
  | _ => 0

theorem runs_stock : stockCircuit.Runs .summing stockRows := by
  simp only [Circuit.Runs, stockCircuit, Circuit.operators, List.cons_append, List.nil_append,
    List.forall_mem_cons]
  refine ⟨trivial, trivial, trivial, trivial, trivial, trivial, trivial, fun row _ => ?_, trivial,
    trivial, List.forall_mem_nil _⟩
  rw [Lower.fixedRow, Engine.apply_row (Engine.evals_literalRow (by decide))]
  rfl

theorem sold_le_goods (row : Val) : stockRows "Sold" row ≤ stockRows "Goods" row :=
  le_add_of_nonneg_left (ZSet.Nonneg.single Int.one_nonneg (stockRow 1) row)

/-- All that was sold is listed, so nothing is taken away that is not there. -/
theorem covered_stock {ctx : Context} (hc : stockCircuit.WellFormed ctx) :
    stockCircuit.DifferencesCovered (Engine.meaning .summing) stockRows := by
  refine Circuit.differencesCovered_of_nonneg hc ?_
  simp only [stockCircuit, Circuit.operators, List.cons_append, List.nil_append,
    List.forall_mem_cons]
  refine ⟨nofun, nofun, nofun, nofun, nofun, fun _ row => ?_, nofun, nofun, nofun, nofun, nofun⟩
  change 0 ≤ ((stockRows "Goods").distinct + (-(stockRows "Sold").distinct + 0)) row
  have hle := sold_le_goods row
  simp only [add_zero, Finsupp.add_apply, Finsupp.neg_apply, ZSet.distinct_apply]
  split <;> split <;> omega

theorem fits_stock (table : String) :
    (stockRows table).Fits (Ty.zset (Ty.tuple [Ty.int32])) ∧ (stockRows table).Nonneg := by
  have hsingle : ∀ id,
      ZSet.Fits (Finsupp.single (stockRow id) 1) (Ty.zset (Ty.tuple [Ty.int32])) := by
    intro id row hrow
    obtain rfl := Finset.mem_singleton.1 (Finsupp.support_single_subset hrow)
    exact ⟨rfl, .tuple rfl (.cons (.atom rfl) .nil)⟩
  have hnonneg : ∀ id, ZSet.Nonneg (Finsupp.single (stockRow id) 1) :=
    fun id => .single Int.one_nonneg _
  unfold stockRows
  split
  · refine ⟨fun row hrow => ?_, fun row => add_nonneg (hnonneg 1 row) (hnonneg 2 row)⟩
    exact (Finset.mem_union.1 (Finsupp.support_add hrow)).elim (hsingle 1 row) (hsingle 2 row)
  · exact ⟨hsingle 2, hnonneg 2⟩
  · exact ⟨fun row hrow => by simp at hrow, fun _ => le_rfl⟩

theorem stock_keeps_views :
    stock.compile { optimize := false } Context.empty = (.ok (stockCircuit, []), stockContext) ∧
    ∀ simplify : Bool, Compile.Ends (stock.compile ⟨false, simplify, true⟩) Context.empty
      fun out ctx' => out.1.WellFormed ctx' ∧ stockCircuit.SameEnds out.1 ∧
        out.1.views (Engine.meaning .summing) stockRows =
          stockCircuit.views (Engine.meaning .summing) stockRows := by
  refine ⟨compile_stock, fun simplify => ?_⟩
  have htypes : ∀ t ∈ stock.tables, t.rowTypes = [Ty.int32] := by simp [stock, Table.rowTypes]
  exact optimize_keeps_views Engine.summing_lawful rfl rfl rfl (fun _ => by decide)
    (fun t ht => htypes t ht ▸ (fits_stock t.name).1) (fun t _ => (fits_stock t.name).2)
    compile_stock runs_stock (covered_stock implements_stock.wellFormed)

/-- One good that is listed, and another one that was sold. -/
noncomputable def oversold : Tables
  | "Goods" => Finsupp.single (stockRow 1) 1
  | "Sold" => Finsupp.single (stockRow 2) 1
  | _ => 0

/-- The view that the passes make, without the distinct over the difference. -/
def strippedView : Operator :=
  let rows : Ty := Ty.zset (Ty.tuple [Ty.int32])
  let one : Expr := Lower.fixedRow (Ty.tuple [Ty.int32]) [(.int 1, Ty.int32)]
  let ones : Operator :=
    ⟨10, Names.nth "stream" 10, .map one, [stockCircuit.interior[3]], rows, true⟩
  let any : Operator := ⟨11, Names.nth "stream" 8, .distinct, [ones], rows, false⟩
  ⟨12, Names.nth "stream" 9, .sink "AnyLeft", [any], rows, false⟩

theorem elide_stock : (stockCircuit.elideDistincts stockContext).1.map Circuit.sinks =
    .ok [strippedView] := by
  cbv

theorem ends_stripped : Compile.Ends (stock.compile { simplifyFunctions := false }) Context.empty
    fun out _ => out.1.sinks = [strippedView] := by
  have himplements := implements_stock
  let post (c : Circuit) (_ : Context) : Prop := c.sinks = [strippedView]
  unfold compile
  rw [Compile.ends_bind]
  refine ⟨stockCircuit, stockContext, circuit_of_compile rfl rfl compile_stock, ?_⟩
  have hwell := himplements.standard.ends_elideDistincts
    (fun op hop => (himplements.lowered op hop).whole)
    (fun d hd hkind => ((himplements.lowered d hd).distinct hkind).1)
  refine Circuit.ends_optimize_cons post
    (((Compile.ends_of_map elide_stock).and hwell.yields).mono fun c₁ ctx₁ h₁ => ?_)
  refine Circuit.ends_optimize_cons post
    (h₁.2.1.wellFormed.ends_pruned.mono fun c₂ ctx₂ h₂ => (Compile.ends_pure _).2 ?_)
  exact h₂.1.sinks.trans h₁.1

theorem contents_oversold : (stockCircuit.interior[3]).contents (Engine.meaning .summing) oversold =
    Finsupp.single (stockRow 1) 1 - Finsupp.single (stockRow 2) 1 := by
  change (oversold "Goods").distinct + (-(oversold "Sold").distinct + 0) = _
  simp only [oversold, ZSet.distinct_single, add_zero, ← sub_eq_add_neg]

/-- Nothing is left of the good that is listed, because the one that was sold is taken away from it
before rows are counted once each. -/
theorem oversold_view_lost :
    stockCircuit.views (Engine.meaning .summing) oversold =
        [(.sink "AnyLeft", Finsupp.single (stockRow 1) 1)] ∧
      Compile.Ends (stock.compile { simplifyFunctions := false }) Context.empty fun out _ =>
        out.1.views (Engine.meaning .summing) oversold = [(.sink "AnyLeft", 0)] := by
  have hone : (Engine.meaning .summing).row (Lower.fixedRow (Ty.tuple [Ty.int32])
      [(.int 1, Ty.int32)]) = fun _ => stockRow 1 := Engine.row_fixedRow _ (by decide)
  constructor
  · have hne : stockRow 1 ≠ stockRow 2 := by simp [stockRow, Val.tuple]
    have hleft : ZSet.distinct (Finsupp.single (stockRow 1) 1 - Finsupp.single (stockRow 2) 1) =
        Finsupp.single (stockRow 1) 1 := by
      ext row
      simp only [ZSet.distinct_apply, Finsupp.sub_apply, Finsupp.single_apply]
      split <;> split <;> simp_all
    change [(OperatorKind.sink "AnyLeft", ((ZSet.distinct ((stockCircuit.interior[3]).contents
      (Engine.meaning .summing) oversold)).mapRows ((Engine.meaning .summing).row
        (Lower.fixedRow (Ty.tuple [Ty.int32]) [(.int 1, Ty.int32)]))).distinct)] = _
    rw [contents_oversold, hleft, hone, ZSet.mapRows_single, ZSet.distinct_single]
  · have hlost : strippedView.contents (Engine.meaning .summing) oversold = 0 := by
      change (((stockCircuit.interior[3]).contents (Engine.meaning .summing) oversold).mapRows
        ((Engine.meaning .summing).row (Lower.fixedRow (Ty.tuple [Ty.int32])
          [(.int 1, Ty.int32)]))).distinct = 0
      rw [contents_oversold, hone, map_sub, ZSet.mapRows_single, ZSet.mapRows_single, sub_self,
        ZSet.distinct_zero]
    refine ends_stripped.mono fun out _ hsinks => ?_
    rw [Circuit.views, hsinks, List.map_singleton, hlost]
    rfl

end Plan

end ViewCircuit
