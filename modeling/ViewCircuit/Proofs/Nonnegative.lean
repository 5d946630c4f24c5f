import ViewCircuit.Proofs.Declaration
import ViewCircuit.Proofs.Pairs
import ViewCircuit.Proofs.Sinks
import ViewCircuit.Proofs.Views

/-! Moving distincts where no stream has a negative weight. Then distincts can be dropped below
every operator that a distinct follows, and every view keeps its rows, as long as no join of two
distincts makes a row more than once. -/
namespace ViewCircuit

open List (Forall₂)
open scoped Classical

namespace ZSet

variable {x y : ZSet}

/-- The keys of two rows are equal. -/
def Matches (l r : Val) : Prop := ∃ k a b, l = Val.pair k a ∧ r = Val.pair k b

/-- The joined row of two rows with equal keys. -/
def joined (f : Val → Val → Val → Val) (l r : Val) : Val :=
  match l.pair?, r.pair? with
  | some (k, a), some (_, b) => f k a b
  | _, _ => Val.null

theorem join_eq_pairs (f : Val → Val → Val → Val) (x y : ZSet) :
    join f x y = pairs Matches (joined f) x y := by
  refine Finsupp.sum_congr fun l _ => Finsupp.sum_congr fun r _ => ?_
  unfold joinRow
  split
  · rename_i k a k' b hl hr
    obtain rfl := Val.eq_pair_of_pair? hl
    obtain rfl := Val.eq_pair_of_pair? hr
    by_cases hk : k = k'
    · subst hk
      rw [if_pos rfl, if_pos ⟨k, a, b, rfl, rfl⟩]
      rfl
    · have hno : ¬Matches (Val.pair k a) (Val.pair k' b) := by
        rintro ⟨_, _, _, hl, hr⟩
        exact hk ((Val.pair_injective hl).1.trans (Val.pair_injective hr).1.symm)
      rw [if_neg hk, if_neg hno]
  · rename_i hnone
    have hno : ¬Matches l r := by
      rintro ⟨k, a, b, rfl, rfl⟩
      exact hnone k a k b rfl rfl
    rw [if_neg hno]

/-- Distincts before a join are lost in one after it, unless there are negative weights. -/
theorem distinct_join_distinct (hx : x.Nonneg) (hy : y.Nonneg) (f : Val → Val → Val → Val) :
    (join f x.distinct y.distinct).distinct = (join f x y).distinct := by
  rw [join_eq_pairs, join_eq_pairs]
  refine distinct_congr fun row => ?_
  rw [(Nonneg.distinct x).pairs_pos (Nonneg.distinct y), hx.pairs_pos hy]
  simp only [distinct_pos]

theorem join_add_left (f : Val → Val → Val → Val) (x x' y : ZSet) :
    join f (x + x') y = join f x y + join f x' y :=
  Finsupp.sum_add_index' (by simp [joinRow_zero]) (by simp [add_mul, joinRow_add])

theorem join_add_right (f : Val → Val → Val → Val) (x y y' : ZSet) :
    join f x (y + y') = join f x y + join f x y' := by
  unfold join
  rw [← Finsupp.sum_add]
  exact Finsupp.sum_congr fun l _ =>
    Finsupp.sum_add_index' (by simp [joinRow_zero]) (by simp [mul_add, joinRow_add])

theorem join_single (f : Val → Val → Val → Val) (k a b : Val) (w w' : ℤ) :
    join f (Finsupp.single (Val.pair k a) w) (Finsupp.single (Val.pair k b) w') =
      Finsupp.single (f k a b) (w * w') := by
  rw [join, Finsupp.sum_single_index (by simp [joinRow_zero]),
    Finsupp.sum_single_index (by simp [joinRow_zero])]
  simp only [joinRow, Val.pair?_pair, if_true]

theorem distinct_single_of_pos {w : ℤ} (h : 0 < w) (row : Val) :
    distinct (Finsupp.single row w) = Finsupp.single row 1 := by
  ext r
  rw [distinct_apply, Finsupp.single_apply, Finsupp.single_apply]
  by_cases hr : row = r <;> simp [hr, h]

/-- Rows that are there once at most stay as they are. -/
theorem Nonneg.distinct_eq (hx : x.Nonneg) (hone : ∀ row, x row ≤ 1) : x.distinct = x := by
  ext row
  have hrow := hx row
  have hle := hone row
  rw [distinct_apply]
  split <;> omega

end ZSet

/-- Distincts below an operator are lost in the one that follows it, unless it adds up or multiplies
negative weights. -/
theorem OperatorKind.distinct_contents_of_nonneg {M : Meaning} {tables : Tables}
    {kind : OperatorKind} (hpull : DistinctElision.isPullable kind) {xs : List ZSet}
    (hxs : ∀ x ∈ xs, x.Nonneg) : (kind.contents M tables (xs.map ZSet.distinct)).distinct =
      (kind.contents M tables xs).distinct := by
  cases kind with
  | join f =>
    match xs with
    | [] | [_] | _ :: _ :: _ :: _ => rfl
    | [x, y] => exact ZSet.distinct_join_distinct (hxs x (by simp)) (hxs y (by simp)) _
  | map | filter | sum => exact distinct_contents_distinct hpull nofun fun _ => hxs
  | _ => cases hpull

/-- What a filter makes of distinct rows is distinct. -/
theorem OperatorKind.distinct_filter {M : Meaning} {tables : Tables} {p : Expr} (xs : List ZSet) :
    ((filter p).contents M tables (xs.map ZSet.distinct)).distinct =
      (filter p).contents M tables (xs.map ZSet.distinct) := by
  match xs with
  | [] | _ :: _ :: _ => exact ZSet.distinct_zero
  | [x] =>
    have hkeep := ZSet.distinct_keepRows (M.keep p) x.distinct
    rwa [ZSet.distinct_distinct] at hkeep

namespace Circuit

/-- A join of two distincts makes every row once at most. -/
def JoinsOnce (M : Meaning) (tables : Tables) (c : Circuit) : Prop :=
  ∀ op ∈ c.operators, ∀ f, op.kind = .join f → (∀ i ∈ op.inputs, i.kind = .distinct) →
    ∀ row, op.contents M tables row ≤ 1

end Circuit

section Kept

variable (M : Meaning) (tables : Tables)

/-- The operator holds what another one does; a distinct reads no negative weights, and stands for a
distinct or for rows. -/
structure KeepsRows (op op' : Operator) : Prop where
  contents : op'.contents M tables = op.contents M tables
  below : op'.kind.isDistinct → ∀ y ∈ op'.inputs, (y.contents M tables).Nonneg
  origin : op'.kind.isDistinct → op.kind = .distinct ∨ op.ty.zsetElement?.isSome

/-- The operator is a distinct, or it is of the same kind over what the inputs hold. -/
structure KeepsReads (op op' : Operator) : Prop extends KeepsRows M tables op op' where
  inputs : op'.kind.isDistinct = false →
    op'.kind = op.kind ∧ Forall₂ (KeepsRows M tables) op.inputs op'.inputs

end Kept

section Visit

variable {M : Meaning} {tables : Tables} {c : Circuit} {ctx₀ ctx : Context}
  {done rest : List Operator} {r : Rebuild} {op : Operator}

/-- Below distincts that stand for operators there are no negative weights. -/
theorem nonneg_under {js ops inner : List Operator} (hops : Forall₂ (KeepsRows M tables) js ops)
    (hunder : Forall₂ (fun op i => op.kind.isDistinct ∧ op.inputs = [i]) ops inner) :
    ∀ y ∈ inner, (y.contents M tables).Nonneg := by
  intro y hy
  obtain ⟨d, hd, hdistinct, hinputs⟩ := forall₂_mem hunder.flip hy
  obtain ⟨j, -, hkeeps⟩ := forall₂_mem hops.flip hd
  exact hkeeps.below hdistinct y (by simp [hinputs])

theorem KeepsReads.contents_eq (x x' : Operator) (h : KeepsReads M tables x x') :
    x'.contents M tables = x.contents M tables := h.contents

variable (hc : c.WellFormed ctx₀) (hsplit : c.operators = done ++ op :: rest)
  (h : Rebuild.Sound c ctx₀ (KeepsReads M tables) done done r ctx)

include hc hsplit h

theorem keepsRows_mappedInputs : Forall₂ (KeepsRows M tables) op.inputs (r.mappedInputs op) := by
  unfold Rebuild.mappedInputs
  rw [List.forall₂_map_right_iff, List.forall₂_same]
  exact fun i hi => (h.stands_input hc hsplit hi).sem.toKeepsRows

/-- An operator that stays, over what stands for its inputs. -/
theorem keepsReads_kept (hnonneg : ∀ i ∈ op.inputs, (i.contents M tables).Nonneg) {op' : Operator}
    (hkind : op'.kind = op.kind) (hinputs : op'.inputs = r.mappedInputs op) :
    KeepsReads M tables op op' := by
  refine ⟨⟨contents_kept hc hsplit h KeepsReads.contents_eq hkind hinputs, fun _ y hy => ?_,
    fun hdistinct => .inl (isDistinct_iff.1 (hkind ▸ hdistinct))⟩, fun _ => ?_⟩
  · rw [hinputs] at hy
    obtain ⟨i, hi, rfl⟩ := List.mem_map.1 hy
    rw [(h.stands_input hc hsplit hi).sem.contents]
    exact hnonneg i hi
  · rw [hinputs]
    exact ⟨hkind, keepsRows_mappedInputs hc hsplit h⟩

/-- A distinct of a distinct is the inner one. -/
theorem keepsReads_collapsed {i : Operator} (hkind : op.kind = .distinct) (hi : op.inputs = [i])
    (hdistinct : (r.mapped i).kind.isDistinct) : KeepsReads M tables op (r.mapped i) := by
  refine ⟨⟨contents_collapsed hc hsplit h KeepsReads.contents_eq hkind hi hdistinct,
    (h.stands_input hc hsplit (i := i) (by simp [hi])).sem.below, fun _ => .inl hkind⟩,
    fun hno => ?_⟩
  rw [hdistinct] at hno
  cases hno

/-- A distinct over a copy of what the distinct reads, over what is below the distincts there. -/
theorem keepsReads_stripped {i copy op' : Operator} {inner : List Operator}
    (hkind : op.kind = .distinct) (hi : op.inputs = [i])
    (hpull : DistinctElision.isPullable (r.mapped i).kind)
    (hunder : Forall₂ (fun op i => op.kind.isDistinct ∧ op.inputs = [i]) (r.mapped i).inputs inner)
    (hcopy : copy.kind = (r.mapped i).kind) (hinner : copy.inputs = inner)
    (hkind' : op'.kind = .distinct) (hinputs' : op'.inputs = [copy]) :
    KeepsReads M tables op op' := by
  have hstands := h.stands_input hc hsplit (i := i) (by simp [hi])
  have hnodistinct : (r.mapped i).kind.isDistinct = false := by
    cases hk : (r.mapped i).kind <;> simp_all [DistinctElision.isPullable, OperatorKind.isDistinct]
  have hnonneg : ∀ x ∈ inner.map (Operator.contents M tables), x.Nonneg :=
    List.forall_mem_map.2 (nonneg_under (hstands.sem.inputs hnodistinct).2 hunder)
  refine ⟨⟨contents_stripped hc hsplit h KeepsReads.contents_eq hkind hi hunder hcopy hinner hkind'
    hinputs' (OperatorKind.distinct_contents_of_nonneg hpull hnonneg), fun _ y hy => ?_,
    fun _ => .inl hkind⟩, fun hno => ?_⟩
  · obtain rfl : y = copy := by simpa [hinputs'] using hy
    rw [Operator.contents_eq, hcopy, hinner]
    exact OperatorKind.nonneg_contents (OperatorKind.keepsSign_of_isPullable hpull) hnonneg
  · rw [hkind'] at hno
    cases hno

/-- A distinct that stands for an operator with indexed values stands for a distinct. -/
theorem distinct_of_indexed {i : Operator} (hi : i ∈ op.inputs)
    (hdistinct : (r.mapped i).kind.isDistinct) (hindexed : i.ty.indexedParts?.isSome) :
    i.kind = .distinct := by
  rcases (h.stands_input hc hsplit hi).sem.origin hdistinct with hkind | hrows
  · exact hkind
  · unfold Ty.zsetElement? at hrows
    unfold Ty.indexedParts? at hindexed
    split at hrows
    · rename_i hk
      simp [hk] at hindexed
    · cases hrows

/-- A filter of a distinct is a distinct of the filter, and so is a join of two distincts that makes
every row once at most. -/
theorem keepsReads_pushed (hjoins : c.JoinsOnce M tables) {moved op' : Operator}
    {inner : List Operator} (hkind : (∃ p, op.kind = .filter p) ∨ ∃ f, op.kind = .join f)
    (hunder : Forall₂ (fun op i => op.kind.isDistinct ∧ op.inputs = [i]) (r.mappedInputs op) inner)
    (hmoved : moved.kind = op.kind) (hinner : moved.inputs = inner)
    (hkind' : op'.kind = .distinct) (hinputs' : op'.inputs = [moved])
    (hweights : (op.contents M tables).Nonneg) : KeepsReads M tables op op' := by
  have hop : op ∈ c.operators := by simp [hsplit]
  have hnonneg : ∀ x ∈ inner.map (Operator.contents M tables), x.Nonneg :=
    List.forall_mem_map.2 (nonneg_under (keepsRows_mappedInputs hc hsplit h) hunder)
  have hpull : DistinctElision.isPullable op.kind := by
    rcases hkind with ⟨_, hkind⟩ | ⟨_, hkind⟩ <;> rw [hkind] <;> rfl
  have hchecked := hc.checked op hop
  rw [Operator.Checked] at hchecked
  refine ⟨⟨contents_pushed hc hsplit h KeepsReads.contents_eq hunder hmoved hinner hkind' hinputs'
    ?_, fun _ y hy => ?_, fun _ => .inr ?_⟩, fun hno => ?_⟩
  · rw [← OperatorKind.distinct_contents_of_nonneg hpull hnonneg]
    rcases hkind with ⟨p, hkind⟩ | ⟨f, hkind⟩
    · rw [hkind]
      exact OperatorKind.distinct_filter _
    · have hcontents := contents_mappedInputs hc hsplit h KeepsReads.contents_eq
      rw [contents_under_distinct M tables hunder] at hcontents
      rw [← hcontents]
      refine hweights.distinct_eq (hjoins op hop f hkind fun i hi => ?_)
      rw [hkind] at hchecked
      obtain ⟨d, -, hdistinct, -⟩ := forall₂_mem hunder (List.mem_map_of_mem hi)
      exact distinct_of_indexed hc hsplit h hi hdistinct
        (hchecked.join_indexed i.ty (List.mem_map_of_mem hi))
  · obtain rfl : y = moved := by simpa [hinputs'] using hy
    rw [Operator.contents_eq, hmoved, hinner]
    exact OperatorKind.nonneg_contents (OperatorKind.keepsSign_of_isPullable hpull) hnonneg
  · rcases hkind with ⟨p, hkind⟩ | ⟨f, hkind⟩
    · rw [hkind] at hchecked
      exact hchecked.filter_rows
    · rw [hkind] at hchecked
      exact hchecked.join_rows
  · rw [hkind'] at hno
    cases hno

/-- Moving the next distinct keeps every relation. -/
theorem ends_visit_nonneg (hnonneg : ∀ x ∈ c.operators, (x.contents M tables).Nonneg)
    (hjoins : c.JoinsOnce M tables) :
    Compile.Ends (DistinctElision.visit r op) ctx
      (Rebuild.Sound c ctx₀ (KeepsReads M tables) (done ++ [op]) (done ++ [op])) := by
  have hop : op ∈ c.operators := by simp [hsplit]
  refine DistinctElision.ends_visit hc hsplit h fun op' houtcome => ?_
  cases houtcome with
  | kept hkind hinputs =>
    exact keepsReads_kept hc hsplit h (fun i hi => hnonneg i (hc.earlier.mem hop hi)) hkind hinputs
  | collapsed hkind hi hdistinct => exact keepsReads_collapsed hc hsplit h hkind hi hdistinct
  | stripped hkind hi hpull hunder hcopy hinner hkind' hinputs' =>
    exact keepsReads_stripped hc hsplit h hkind hi hpull hunder hcopy hinner hkind' hinputs'
  | pushed hkind hunder hmoved hinner hkind' hinputs' =>
    exact keepsReads_pushed hc hsplit h hjoins hkind hunder hmoved hinner hkind' hinputs'
      (hnonneg op hop)

end Visit

namespace Circuit

variable {M : Meaning} {tables : Tables} {c : Circuit} {ctx : Context} {known : List Operator}

/-- Moving distincts keeps the sources and what every sink holds, and the circuit stays one that
could be assembled. -/
theorem Assembled.ends_elideDistincts (hc : c.Assembled ctx)
    (hnonneg : ∀ op ∈ c.operators, (op.contents M tables).Nonneg)
    (hjoins : c.JoinsOnce M tables) :
    Compile.Ends c.elideDistincts ctx fun c' ctx' =>
      c'.Assembled ctx' ∧ c'.sources = c.sources ∧ c'.views M tables = c.views M tables := by
  have hsinkless := hc.wellFormed_sinkless
  have hbase : Compile.Ends (c.sinkless.operators.foldlM DistinctElision.visit (.start c)) ctx
      fun r ctx' => Rebuild.Sound c.sinkless ctx (KeepsReads M tables) c.sinkless.operators
        c.sinkless.operators r ctx' ∧ r.Tracks c.sinkless.operators := by
    refine Compile.Ends.foldlM (fun done r ctx' =>
      Rebuild.Sound c.sinkless ctx (KeepsReads M tables) done done r ctx' ∧ r.Tracks done) _
      (fun done op rest r ctx' hsplit h => ?_)
      ⟨Rebuild.sound_start hsinkless, rfl, List.forall_mem_nil _⟩
    have hends := ends_visit_nonneg hsinkless hsplit h.1
      (fun x hx => hnonneg x (mem_of_sinkless hx)) fun x hx => hjoins x (mem_of_sinkless hx)
    have hvisits := DistinctElision.yields_visit h.1 hsinkless hsplit
    refine (hends.and hvisits).mono fun r' ctx'' h' => ?_
    obtain ⟨hsound, emitted, new, hvisited, rfl⟩ := h'
    exact ⟨hsound, h.2.turn hsinkless hsplit
      (hvisited.turn (hsinkless.checked op (by simp [hsplit])))⟩
  have hcopied := hc.ends_sinks (fun op op' => op'.contents M tables = op.contents M tables) hbase
    (fun r op hop => DistinctElision.visit_of_isSink hop r) (fun _ _ h => h.contents)
    fun op _ op' hkind hinputs => by
      have hheld := (List.forall₂_eq_eq_eq ▸ List.forall₂_map_left_iff.2
        (List.forall₂_map_right_iff.2 (hinputs.imp fun _ _ h => h.symm)) :
        op.inputs.map (Operator.contents M tables) = op'.inputs.map (Operator.contents M tables))
      rw [op'.contents_eq, op.contents_eq, hkind, hheld]
  unfold elideDistincts rebuild
  rw [Compile.ends_bind]
  refine hcopied.mono fun r ctx' hr => ?_
  obtain ⟨base, htracks, h⟩ := hr
  rw [Compile.ends_pure]
  split
  · exact ⟨hc.mono h.later, rfl, rfl⟩
  · refine ⟨h.assembled, ?_, ?_⟩
    · rw [h.sources, htracks.sources, ← hsinkless.sectioned.sources_eq]
      rfl
    · rw [views, h.sinks, ← hc.sectioned.sinks_eq, List.map_map]
      refine List.map_congr_left fun op hop => ?_
      have hstands := h.stands op (by simp [operators, hop])
      exact Prod.ext (hstands.sinkKind (hc.sectioned.sinks op hop)) hstands.sem

/-- Let operators that constructors made in one context be added in any order and number, and every
operator read earlier ones. Where no stream has negative weights and no join of two distincts makes
a row twice, moving distincts succeeds. It returns a circuit in order with the same sources, and
every sink keeps its rows and weights. -/
theorem elision_keeps_views (name : String) {ops : List Operator}
    (hknown : Operator.Crafted ctx known) (hops : ∀ op ∈ ops, op ∈ known) :
    let c := (empty name).addAll ops
    Operator.ReadsEarlier c.operators →
      (∀ op ∈ c.operators, (op.contents M tables).Nonneg) → c.JoinsOnce M tables →
      Compile.Ends c.elideDistincts ctx fun c' ctx' =>
        c'.Assembled ctx' ∧ c'.sources = c.sources ∧ c'.views M tables = c.views M tables :=
  fun hearlier =>
    (((gathered_empty name).addAll hknown hops).assembled hknown hearlier).ends_elideDistincts

namespace Purchases

def row : Ty := Ty.tuple [Ty.int32, Ty.int32]
def customer : Ty := Ty.tuple [Ty.int32]

/-- Purchases under their customers. -/
def byCustomer : Expr :=
  let purchase : Param := Lower.rowParam row
  Expr.closure [purchase] (Expr.rawTuple [Expr.tuple [⟨.field purchase.var 0, Ty.int32⟩],
    ⟨.deref purchase.var, row⟩])

/-- The customer of two purchases. -/
def both : Expr :=
  let key : Param := ⟨"k", Ty.ref customer⟩
  Expr.closure [key, ⟨"l", Ty.ref row⟩, ⟨"r", Ty.ref row⟩] ⟨.deref key.var, customer⟩

def table : Operator := ⟨0, Names.nth "stream" 0, .source "Purchase", [], Ty.zset row, true⟩

def indexed : Operator :=
  ⟨1, Names.nth "stream" 1, .index byCustomer, [table], Ty.indexedZSet customer row, true⟩

def once : Operator := ⟨2, Names.nth "stream" 2, .distinct, [indexed], indexed.ty, false⟩

def paired : Operator :=
  ⟨3, Names.nth "stream" 3, .join both, [once, once], Ty.zset customer, true⟩

def view : Operator := ⟨4, Names.nth "stream" 4, .sink "Customers", [paired], paired.ty, true⟩

/-- A view of the same rows, which reads the other one. -/
def copied : Operator := ⟨5, Names.nth "stream" 5, .sink "Copied", [view], paired.ty, true⟩

def circuit : Circuit := ⟨"purchases", [], [table], [indexed, once, paired], [view, copied]⟩

/-- The context after some operators were made. -/
def drawn (n : Nat) : Context := ⟨Names.empty.setIssued "stream" n, n⟩

theorem crafted : Operator.Crafted (drawn 6) [copied, view, paired, once, indexed, table] := by
  have htable : Operator.Crafted (drawn 1) [table] :=
    .make (.start .empty) (by simp [table]) (show table.construct .empty = _ by cbv)
  have hindexed : Operator.Crafted (drawn 2) [indexed, table] :=
    .make htable (by simp [indexed]) (show indexed.construct _ = _ by cbv)
  have honce : Operator.Crafted (drawn 3) [once, indexed, table] :=
    .make hindexed (by simp [once]) (show once.construct _ = _ by cbv)
  have hpaired : Operator.Crafted (drawn 4) [paired, once, indexed, table] :=
    .make honce (by simp [paired]) (show paired.construct _ = _ by cbv)
  have hview : Operator.Crafted (drawn 5) [view, paired, once, indexed, table] :=
    .make hpaired (by simp [view]) (show view.construct _ = _ by cbv)
  exact .make hview (by simp [copied]) (show copied.construct _ = _ by cbv)

theorem addAll_eq :
    (empty "purchases").addAll [table, indexed, once, paired, view, copied] = circuit := by
  cbv

theorem assembled : circuit.Assembled (drawn 6) := by
  have hgathered : circuit.Gathered [copied, view, paired, once, indexed, table] :=
    addAll_eq ▸ (gathered_empty "purchases").addAll crafted (by simp)
  refine hgathered.assembled crafted (hgathered.readsEarlier_iff.2 ?_)
  simp [SinksLast, circuit, indexed, once, paired, table, OperatorKind.isSink]

def purchase (customer item : Int) : Val :=
  Val.tuple [.atom (.int .w32 customer), .atom (.int .w32 item)]

def named (customer : Int) : Val := Val.tuple [.atom (.int .w32 customer)]

theorem row_byCustomer (c i : Int) :
    (Engine.meaning .summing).row byCustomer (purchase c i) = Val.pair (named c) (purchase c i) :=
  Engine.row_closure ⟨4, rfl⟩

theorem pair_both : (Engine.meaning .summing).pair both = fun k _ _ => k := by
  funext k a b
  have happly : Engine.apply .summing both [Val.ref k, Val.ref a, Val.ref b] = some k :=
    Engine.apply_closure_iff.2 ⟨rfl, 0, 2, rfl⟩
  simp [Engine.meaning, happly]

/-- The customers of a table of purchases, for every two of them. -/
theorem contents_paired (tables : Tables) : paired.contents (Engine.meaning .summing) tables =
    let x := ((tables "Purchase").mapRows ((Engine.meaning .summing).row byCustomer)).distinct
    ZSet.join (fun k _ _ => k) x x := by
  rw [← pair_both]
  rfl

theorem nonneg_circuit {tables : Tables} (h : (tables "Purchase").Nonneg) :
    ∀ op ∈ circuit.operators, (op.contents (Engine.meaning .summing) tables).Nonneg := by
  have honce : (once.contents (Engine.meaning .summing) tables).Nonneg := .distinct _
  have hpaired : (paired.contents (Engine.meaning .summing) tables).Nonneg := honce.join honce _
  simp only [circuit, operators, List.cons_append, List.nil_append, List.forall_mem_cons]
  exact ⟨h, h.mapRows _, honce, hpaired, hpaired, hpaired, List.forall_mem_nil _⟩

/-- The same purchase, made twice. -/
noncomputable def repeated : Tables := fun _ => Finsupp.single (purchase 7 1) 2

theorem contents_repeated : paired.contents (Engine.meaning .summing) repeated =
    Finsupp.single (named 7) 1 := by
  rw [contents_paired, repeated, ZSet.mapRows_single, row_byCustomer,
    ZSet.distinct_single_of_pos (by decide)]
  exact ZSet.join_single _ _ _ _ _ _

theorem repeated_keeps_views :
    circuit.views (Engine.meaning .summing) repeated =
        [(.sink "Customers", Finsupp.single (named 7) 1),
          (.sink "Copied", Finsupp.single (named 7) 1)] ∧
      Compile.Ends circuit.elideDistincts (drawn 6) fun c' ctx' =>
        c'.Assembled ctx' ∧ c'.sources = circuit.sources ∧
          c'.views (Engine.meaning .summing) repeated =
            circuit.views (Engine.meaning .summing) repeated := by
  have hops : ∀ op ∈ [table, indexed, once, paired, view, copied],
      op ∈ [copied, view, paired, once, indexed, table] := by simp
  have hearlier := assembled.earlier
  have hjoins : circuit.JoinsOnce (Engine.meaning .summing) repeated := by
    simp only [JoinsOnce, circuit, operators, List.cons_append, List.nil_append,
      List.forall_mem_cons]
    refine ⟨(fun _ h => by cases h), (fun _ h => by cases h), (fun _ h => by cases h),
      (fun _ _ _ row => ?_), (fun _ h => by cases h), (fun _ h => by cases h),
      List.forall_mem_nil _⟩
    rw [contents_repeated, Finsupp.single_apply]
    split <;> simp
  refine ⟨?_, ?_⟩
  · rw [← contents_repeated]
    rfl
  · have hnonneg := nonneg_circuit (show (repeated "Purchase").Nonneg from .single (by decide) _)
    rw [← addAll_eq] at hearlier hnonneg hjoins ⊢
    exact elision_keeps_views "purchases" crafted hops hearlier hnonneg hjoins

/-- Two purchases of one customer. -/
noncomputable def separate : Tables := fun _ =>
  Finsupp.single (purchase 7 1) 1 + Finsupp.single (purchase 7 2) 1

/-- The join over what is below the distincts, and the distinct after it. -/
def merged : Operator :=
  let moved : Operator :=
    ⟨6, Names.nth "stream" 3, .join both, [indexed, indexed], paired.ty, true⟩
  ⟨7, Names.nth "stream" 6, .distinct, [moved], paired.ty, false⟩

/-- The views over it. -/
def mergedView : Operator :=
  ⟨8, Names.nth "stream" 4, .sink "Customers", [merged], paired.ty, true⟩

def mergedCopied : Operator :=
  ⟨9, Names.nth "stream" 5, .sink "Copied", [mergedView], paired.ty, true⟩

theorem elide_circuit : (circuit.elideDistincts (drawn 6)).1.map Circuit.sinks =
    .ok [mergedView, mergedCopied] := by
  cbv

/-- A join of two distincts may make a row several times; it is left once. -/
theorem separate_views_change :
    circuit.views (Engine.meaning .summing) separate =
        [(.sink "Customers", Finsupp.single (named 7) 4),
          (.sink "Copied", Finsupp.single (named 7) 4)] ∧
      Compile.Ends circuit.elideDistincts (drawn 6) fun c' _ =>
        c'.views (Engine.meaning .summing) separate =
          [(.sink "Customers", Finsupp.single (named 7) 1),
            (.sink "Copied", Finsupp.single (named 7) 1)] := by
  have hne : Val.pair (named 7) (purchase 7 1) ≠ Val.pair (named 7) (purchase 7 2) := by
    simp [Val.pair, named, purchase, Val.tuple]
  have hindexed : indexed.contents (Engine.meaning .summing) separate =
      Finsupp.single (Val.pair (named 7) (purchase 7 1)) 1 +
        Finsupp.single (Val.pair (named 7) (purchase 7 2)) 1 := by
    change ZSet.mapRows ((Engine.meaning .summing).row byCustomer) (separate "Purchase") = _
    rw [separate, map_add, ZSet.mapRows_single, ZSet.mapRows_single, row_byCustomer,
      row_byCustomer]
  have honce : once.contents (Engine.meaning .summing) separate =
      indexed.contents (Engine.meaning .summing) separate := by
    change ZSet.distinct (indexed.contents (Engine.meaning .summing) separate) = _
    rw [hindexed]
    ext row
    simp only [ZSet.distinct_apply, Finsupp.add_apply, Finsupp.single_apply]
    split <;> split <;> simp_all
  have hjoin : ZSet.join (fun k _ _ => k) (indexed.contents (Engine.meaning .summing) separate)
      (indexed.contents (Engine.meaning .summing) separate) = Finsupp.single (named 7) 4 := by
    rw [hindexed, ZSet.join_add_left, ZSet.join_add_right, ZSet.join_add_right]
    simp only [ZSet.join_single, ← Finsupp.single_add]
    rfl
  have hpaired : paired.contents (Engine.meaning .summing) separate =
      Finsupp.single (named 7) 4 := by
    rw [← hjoin, ← honce, ← pair_both]
    rfl
  have hmerged : merged.contents (Engine.meaning .summing) separate =
      Finsupp.single (named 7) 1 := by
    change (ZSet.join ((Engine.meaning .summing).pair both)
      (indexed.contents (Engine.meaning .summing) separate)
      (indexed.contents (Engine.meaning .summing) separate)).distinct = _
    rw [pair_both, hjoin, ZSet.distinct_single_of_pos (by decide)]
  refine ⟨?_, (Compile.ends_of_map elide_circuit).mono fun c' _ hsinks => ?_⟩
  · rw [← hpaired]
    rfl
  · rw [views, hsinks, ← hmerged]
    rfl

end Purchases

end Circuit

end ViewCircuit
