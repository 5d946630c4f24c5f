import ViewCircuit.Proofs.Grouping

/-! Windows. Rows are put under their partition and order values, and for each such key the rows in
the frame around it are folded. Joined with the results of its key, every row is kept as it is, with
the values of the calls over its own frame beside it. -/
namespace ViewCircuit

open List (Forall₂)
open scoped Classical

namespace Val

/-- Whether a distance lies in a range. -/
def Within (range : Val) (d : ℤ) : Prop :=
  match range with
  | node (.range hasStart hasStop inclusive) ends =>
    (hasStart → ∀ start ∈ ends.head?, start.integer ≤ d) ∧
    (hasStop → ∀ stop ∈ ends.getLast?, if inclusive then d ≤ stop.integer else d < stop.integer)
  | _ => False

/-- The order value of a key, which stands behind its partition values. -/
def orderValue (key : Val) : ℤ := (key.cells.getLast?.getD null).integer

/-- Keys of one partition, the second within the range around the first. -/
def Frames (range key k : Val) : Prop :=
  k.cells.dropLast = key.cells.dropLast ∧ range.Within (k.orderValue - key.orderValue)

variable {range row r : Val} {partition : List Nat} {order : Nat}

theorem frames_pick :
    range.Frames (row.pick (partition ++ [order])) (r.pick (partition ++ [order])) ↔
      r.pick partition = row.pick partition ∧
        range.Within ((r.cell order).integer - (row.cell order).integer) := by
  have hcells : ∀ r : Val, (r.pick (partition ++ [order])).cells =
      partition.map r.cell ++ [r.cell order] := fun r => List.map_append
  have hpartition : r.pick partition = row.pick partition ↔
      partition.map r.cell = partition.map row.cell := by simp [pick, tuple]
  simp only [Frames, orderValue, hcells, List.dropLast_concat, List.getLast?_concat,
    Option.getD_some, hpartition]

end Val

namespace WindowBound

/-- Distance of a bound from the current row; an open end has none. -/
def distance? : WindowBound → Option ℤ
  | unbounded => none
  | currentRow => some 0
  | preceding n => some (-n)
  | following n => some n

/-- Whether a distance is neither before the lower nor after the upper bound. -/
def Between (lower upper : WindowBound) (d : ℤ) : Prop :=
  (∀ l ∈ lower.distance?, l ≤ d) ∧ ∀ u ∈ upper.distance?, d ≤ u

theorem offset?_eq_ok {b : WindowBound} {o : Option Int} (h : b.offset? = .ok o) :
    o = b.distance? := by
  have hmagnitude : ∀ {n : Nat} {m : Int}, (if n < 1 <<< 63 then .ok (n : Int)
      else fault (.windowOffset n) : Except CompileError Int) = .ok m → m = n := by
    intro n m h
    split at h
    · cases h
      rfl
    · cases h
  cases b with
  | unbounded | currentRow =>
    cases h
    rfl
  | preceding n | following n =>
    obtain ⟨m, hm, h⟩ := except_bind_eq_ok.1 h
    cases h
    rw [hmagnitude hm]
    rfl

end WindowBound

section Frame

variable {rt : Runtime} {lower upper b : WindowBound} {order : Ty}

/-- The end of a frame evaluates to the distance of its bound. -/
theorem frameEnd_eq_ok (rt : Runtime) {e? : Option Expr} (horder : order.isInteger)
    (hnull : order.mayBeNull = false) (h : Lower.frameEnd order b = .ok e?) :
    e? = none ∧ b.distance? = none ∨ ∃ e v, e? = some e ∧ Evals rt [] e v 0 ∧
      b.distance? = some v.integer := by
  obtain ⟨o, ho, h⟩ := except_bind_eq_ok.1 h
  obtain rfl := WindowBound.offset?_eq_ok ho
  cases hdistance : b.distance? with
  | none =>
    rw [hdistance] at h
    cases h
    exact .inl ⟨rfl, rfl⟩
  | some i =>
    rw [hdistance] at h
    obtain ⟨e, he, h⟩ := except_bind_eq_ok.1 h
    cases h
    obtain ⟨literal, hliteral, he⟩ := except_bind_eq_ok.1 he
    obtain ⟨kind, n⟩ := order
    obtain rfl : n = false := hnull
    cases he
    cases kind with
    | integer width =>
      unfold Value.literal at hliteral
      dsimp only at hliteral
      split at hliteral
      · cases hliteral
        exact .inr ⟨_, .atom (.int width i), rfl,
          (evals_head rfl).2 ⟨[], evalsAll_nil.2 ⟨rfl, rfl⟩, rfl⟩, rfl⟩
      · cases hliteral
    | _ => cases horder

/-- The frame of two bounds is the range between them. -/
theorem exists_range {start stop : Option Expr} {frame : Expr} (horder : order.isInteger)
    (hnull : order.mayBeNull = false) (hstart : Lower.frameEnd order lower = .ok start)
    (hstop : Lower.frameEnd order upper = .ok stop)
    (h : Expr.range start stop true = .ok frame) :
    ∃ range, valueOf rt [] frame = some range ∧ ∀ d, range.Within d ↔ lower.Between upper d := by
  obtain ⟨args, rfl⟩ := range_eq_ok h
  have hvalue : ∀ {vs}, EvalsAll rt [] (start.toList ++ stop.toList) vs 0 →
      valueOf rt [] ⟨.range start stop true, Ty.user "Range" args⟩ =
        some (.node (.range start.isSome stop.isSome true) vs) :=
    fun hvs => valueOf_eq_some.2 ⟨0, (evals_head rfl).2 ⟨_, hvs, rfl⟩⟩
  have hnone : EvalsAll rt [] [] [] 0 := evalsAll_nil.2 ⟨rfl, rfl⟩
  have hone : ∀ {e v}, Evals rt [] e v 0 → EvalsAll rt [] [e] [v] 0 :=
    fun he => evalsAll_cons.2 ⟨_, 0, _, 0, he, hnone, rfl, rfl⟩
  rcases frameEnd_eq_ok rt horder hnull hstart with
    ⟨rfl, hlower⟩ | ⟨s, v, rfl, hs, hlower⟩ <;>
  rcases frameEnd_eq_ok rt horder hnull hstop with
    ⟨rfl, hupper⟩ | ⟨e, w, rfl, he, hupper⟩
  · refine ⟨_, hvalue hnone, fun d => ?_⟩
    simp [Val.Within, WindowBound.Between, hlower, hupper]
  · refine ⟨_, hvalue (hone he), fun d => ?_⟩
    simp [Val.Within, WindowBound.Between, hlower, hupper]
  · refine ⟨_, hvalue (hone hs), fun d => ?_⟩
    simp [Val.Within, WindowBound.Between, hlower, hupper]
  · refine ⟨_, hvalue (evalsAll_cons.2 ⟨_, 0, _, 0, hs, hone he, rfl, rfl⟩), fun d => ?_⟩
    simp [Val.Within, WindowBound.Between, hlower, hupper]

end Frame

/-- Windows fold, for every key, the values in the range around it. -/
structure Engine.FramesRanges (E : Engine) : Prop where
  frame {window : Expr} {range : Val} (h : valueOf E.runtime [] window = some range) (x : ZSet)
    (key : Val) : E.frame window x key = x.valuesUnder (range.Frames key)

/-- A join of rows with what there is once for each of their keys. -/
theorem ZSet.join_perKey (f : Val → Val → Val → Val) (key g : Val → Val) (x : ZSet) :
    join f (x.mapRows fun row => Val.pair (key row) row)
      (∑ k ∈ x.support.image key, Finsupp.single (Val.pair k (g k)) 1) =
        x.mapRows fun row => f (key row) row (g (key row)) := by
  change (Finsupp.mapDomain _ x).sum _ = Finsupp.mapDomain _ x
  have hterm : ∀ row w k, (Finsupp.single (Val.pair k (g k)) (1 : ℤ)).sum
      (fun r w' => joinRow f (Val.pair (key row) row) r (w * w')) =
        if key row = k then Finsupp.single (f (key row) row (g k)) w else 0 := by
    intro row w k
    rw [Finsupp.sum_single_index (by simp [joinRow_zero]), mul_one]
    rfl
  rw [Finsupp.sum_mapDomain_index]
  · refine Finsupp.sum_congr fun row hrow => ?_
    have hmem : key row ∈ x.support.image key := Finset.mem_image_of_mem key hrow
    rw [← Finsupp.sum_finsetSum_index]
    · simp only [hterm]
      rw [Finset.sum_ite_eq, if_pos hmem]
    · simp [joinRow_zero]
    · simp [mul_add, joinRow_add]
  · simp [joinRow_zero]
  · simp [add_mul, joinRow_add]

/-- The rows in the frame around a row: those of its partition with an order value within the bounds
around its own. -/
noncomputable def ZSet.frame (partition : List Nat) (order : Nat) (lower upper : WindowBound)
    (x : ZSet) (row : Val) : ZSet :=
  x.keepRows fun r => r.pick partition = row.pick partition ∧
    lower.Between upper ((r.cell order).integer - (row.cell order).integer)

namespace Lower

variable {E : Engine} {tables : Tables} {input left right op : Operator} {types ks us : List Ty}
  {x : ZSet} {domains : Nat → Domain} {calls : List AggregateCall} {fold window body : Expr}
  {key : Val → Val} {range : Val}

/-- For every key the rows in the frame around it are folded. -/
theorem returns_windowAggregate (hE : E.FramesRanges)
    (hwindow : valueOf E.runtime [] window = some range)
    (hin : input.Keyed E tables ks types key x) (hkey : ∀ row ∈ x.support, (key row).IsRow ks)
    (hx : x.Nonneg) (hfold : E.FoldsCalls domains types calls fold us) :
    Returns (emit (Operator.windowAggregate input window fold)) fun op =>
      op.PerKey E tables ks us (x.support.image key) fun k =>
        E.meaning.fold fold (x.keepRows fun row => range.Frames k (key row)) := by
  refine (returns_emit Operator.makes_windowAggregate).mono fun op hop => ?_
  obtain ⟨htyped, hcontents⟩ := hop
  obtain ⟨acc, hty⟩ := hfold.ty
  rw [List.map_singleton, hin.ty] at htyped
  refine perKey_of_fold (htyped.fold_ty (.inr ⟨window, rfl⟩) hty) ?_ hkey hin.rows hx hfold
  rw [hcontents, List.map_singleton, hin.contents]
  have hframe : ∀ k, E.meaning.frame window fold (x.mapRows fun row => Val.pair (key row) row) k =
      E.meaning.fold fold (x.keepRows fun row => range.Frames k (key row)) := by
    intro k
    rw [← ZSet.valuesUnder_mapRows_pair, ← hE.frame hwindow]
    rfl
  exact ZSet.perKey_congr fun k _ => hframe k

/-- Rows beside the results of their keys. -/
theorem returns_withResults {k l r : Ty} {g : Val → Val}
    (hleft : left.Keyed E tables ks types key x)
    (hright : right.PerKey E tables ks us (x.support.image key) g)
    (hty : body.ty = Ty.tuple (types ++ us))
    (hbody : ∀ row ∈ x.support, body.Delivers E.runtime (joinEnv (key row) row (g (key row)))
      (row.beside (g (key row)))) :
    Returns (emit (Operator.join left right
      (Expr.closure [⟨"k", k⟩, ⟨"l", l⟩, ⟨"r", r⟩] body))) fun op =>
        op.Carries E tables (types ++ us) (x.mapRows fun row => row.beside (g (key row))) := by
  refine (returns_emit Operator.makes_join).mono fun op hop => ?_
  obtain ⟨htyped, hcontents⟩ := hop
  refine ⟨?_, ?_, fun row hrow => ?_⟩
  · rw [htyped.join_closure, hty]
  · rw [hcontents, List.map_cons, List.map_singleton, hleft.contents, hright.contents]
    refine (ZSet.join_perKey _ key g x).trans (ZSet.mapRows_congr fun row hrow => ?_)
    have happly : E.apply (Expr.closure [⟨"k", k⟩, ⟨"l", l⟩, ⟨"r", r⟩] body)
        [Val.ref (key row), Val.ref row, Val.ref (g (key row))] =
          some (row.beside (g (key row))) :=
      Engine.apply_closure_iff.2 ⟨rfl, 0, (hbody row hrow).evals⟩
    simp [Engine.meaning, happly]
  · obtain ⟨r, hr, rfl⟩ := ZSet.mem_mapRows hrow
    have hrow := (hbody r hr).datum
    rwa [hty] at hrow

variable {node : String} {partition : List Nat} {order : Nat} {lower upper : WindowBound}

/-- A window keeps every row, with the values of the calls over its frame beside it. -/
theorem returns_window (hE : E.FoldsAll) (hframes : E.FramesRanges) (hrt : E.runtime.Aggregating)
    (hin : input.Carries E tables types x) (hx : x.Nonneg)
    (hsupported : ∀ call ∈ calls, call.Supported E.runtime domains types) :
    Returns (Lower.window node input partition order lower upper calls) fun op =>
      ∃ results : Val → Val,
        (∀ row ∈ x.support, Forall₂ (fun call v => AggregateCall.Computes domains call
          (x.frame partition order lower upper row) v) calls (results row).cells) ∧
        op.contents E.meaning tables = x.mapRows fun row => row.beside (results row) := by
  refine returns_checked fun fields hfields => ?_
  obtain rfl := Except.ok.inj ((rowFields_of_ty hin.ty).symm.trans hfields)
  dsimp only
  split
  · exact returns_check nofun
  rename_i hrange
  obtain ⟨ks, hks⟩ :
      ∃ ks : List Ty, (partition ++ [order]).map (fun c => types[c]?) = ks.map some :=
    exists_types fun c hc => by simpa using List.find?_eq_none.1 hrange c hc
  split
  · rename_i hnone
    obtain rfl := List.isEmpty_iff.1 hnone
    refine returns_pure ⟨fun _ => Val.unit, fun _ _ => .nil, ?_⟩
    rw [hin.contents, ZSet.mapRows_congr (g := id) fun row hrow => ?_]
    · exact Finsupp.mapDomain_id.symm
    · exact (congrArg Val.tuple (List.append_nil _)).trans (hin.rows row hrow).eq_tuple.symm
  split
  · exact fun _ _ _ _ _ h => by cases h
  rename_i horder
  obtain ⟨hinteger, hnull⟩ := by simpa using horder
  refine returns_checked fun start hstart => returns_checked fun stop hstop =>
    returns_checked fun frame hframe => returns_checked fun element helement =>
    returns_checked fun fold hfold => ?_
  obtain rfl := Except.ok.inj ((element_of_ty hin.ty).symm.trans helement)
  obtain ⟨accumulators, haccumulators, hfold⟩ := except_bind_eq_ok.1 hfold
  obtain ⟨us, hfold⟩ := exists_foldsCalls hE hrt hsupported haccumulators hfold
  obtain ⟨range, hwindow, hwithin⟩ := exists_range hinteger hnull hstart hstop hframe
  have hkey : ∀ row ∈ x.support, (row.pick (partition ++ [order])).IsRow ks :=
    fun row hrow => (hin.rows row hrow).pick hks
  refine (returns_picked hin hks).bind fun indexed hindexed => ?_
  refine (returns_windowAggregate hframes hwindow hindexed hkey hx hfold).bind
    fun windowed hwindowed => ?_
  refine returns_checked fun parts hparts => ?_
  obtain rfl := Except.ok.inj ((indexedParts_of_ty hwindowed.ty).symm.trans hparts)
  refine returns_checked fun ls hls => returns_checked fun rs hrs => ?_
  have hty := type_of_sideBySide hls hrs
  refine (returns_withResults hindexed hwindowed hty fun row hrow => ?_).mono
    fun op hop => ⟨_, fun row hrow => ?_, hop.contents⟩
  · exact delivers_sideBySide (hin.rows row hrow)
      (hwindowed.value _ (Finset.mem_image_of_mem _ hrow)) hls hrs
  · have hrows : (x.keepRows fun r => range.Frames (row.pick (partition ++ [order]))
        (r.pick (partition ++ [order]))) = x.frame partition order lower upper row :=
      ZSet.keepRows_congr fun r _ => Val.frames_pick.trans (and_congr_right' (hwithin _))
    rw [← hrows]
    exact hfold.computes (hx.keepRows _) fun r hr => hin.rows r (ZSet.mem_keepRows hr)

end Lower

/-- Rows of one width stay different with anything beside them. -/
theorem Val.IsRow.eq_of_beside {types : List Ty} {row row' v v' : Val} (h : row.IsRow types)
    (h' : row'.IsRow types) (heq : row.beside v = row'.beside v') : row = row' := by
  have hcells : row.cells ++ v.cells = row'.cells ++ v'.cells := congrArg Val.cells heq
  have hlength : row.cells.length = row'.cells.length := h.length.trans h'.length.symm
  rw [h.eq_tuple, h'.eq_tuple, List.append_inj_left hcells hlength]

/-- An engine that calculates with integers, and frames ranges. -/
noncomputable def Engine.framing : Engine :=
  { Engine.calculating with
    frame := fun window x key =>
      match valueOf Runtime.arithmetic [] window with
      | some range => x.valuesUnder (range.Frames key)
      | none => 0 }

theorem Engine.framing_foldsAll : Engine.framing.FoldsAll :=
  ⟨calculating_foldsAll.nodup, calculating_foldsAll.mem_iff⟩

theorem Engine.framing_framesRanges : Engine.framing.FramesRanges where
  frame {window range} h x key := by
    have hvalue : valueOf Runtime.arithmetic [] window = some range := h
    simp only [framing, hvalue]

namespace Rel

variable {a : Rel} {relations : List (String × Operator)} {partition : List Nat} {order : Nat}
  {lower upper : WindowBound} {calls : List AggregateCall} {input op : Operator} {types : List Ty}
  {c₀ c₁ c : Circuit} {ctx₀ ctx₁ ctx : Context}

/-- A window makes its operators from the stream of its input. -/
theorem window_returns {p : Operator → Prop}
    (hinput : a.stream relations c₀ ctx₀ = (.ok (input, c₁), ctx₁))
    (h : (Rel.window a partition [order] lower upper calls).stream relations c₀ ctx₀ =
      (.ok (op, c), ctx))
    (hpost : ∀ node, Lower.Returns
      (Lower.window node input partition order lower upper calls) p) : p op := by
  rw [stream] at h
  split at h
  · cases h
  · obtain ⟨i, c₂, ctx₂, hi, h⟩ := Lower.bind_eq_ok.1 h
    obtain ⟨⟨⟨⟩⟩, ⟨⟩⟩ := hinput.symm.trans hi
    exact hpost _ _ _ _ _ _ h

/-- The stream of a window is a member of the circuit, which stays in order. It puts out every row
of its input with its weight, and beside it the values of the calls over the rows in its frame;
nothing else is put out, and no two rows become one. -/
theorem rows_of_window (hinput : a.stream relations c₀ ctx₀ = (.ok (input, c₁), ctx₁))
    (htypes : input.ty = Ty.zset (Ty.tuple types))
    (h : (Rel.window a partition [order] lower upper calls).stream relations c₀ ctx₀ =
      (.ok (op, c), ctx)) :
    (c₀.Hosts relations ctx₀ → c.WellFormed ctx ∧ c₀.Grows c ∧ op ∈ c.operators) ∧
    ∀ (E : Engine) (tables : Tables) (domains : Nat → Domain), E.FoldsAll → E.FramesRanges →
      E.runtime.Aggregating → (∀ call ∈ calls, call.Supported E.runtime domains types) →
      (input.contents E.meaning tables).Fits input.ty →
      (input.contents E.meaning tables).Nonneg →
      ∃ results : Val → Val,
        (∀ row ∈ (input.contents E.meaning tables).support,
          Forall₂ (fun call v => AggregateCall.Computes domains call
            ((input.contents E.meaning tables).frame partition order lower upper row) v)
              calls (results row).cells) ∧
        (∀ row ∈ (input.contents E.meaning tables).support,
          op.contents E.meaning tables (row.beside (results row)) =
            input.contents E.meaning tables row) ∧
        ∀ r ∈ (op.contents E.meaning tables).support,
          ∃! row, row ∈ (input.contents E.meaning tables).support ∧
            r = row.beside (results row) := by
  refine ⟨fun hhosts => hhosts.stream h, ?_⟩
  intro E tables domains hE hframes hrt hsupported hfits hnonneg
  have hin := carries_of_fits htypes hfits
  obtain ⟨results, hresults, hcontents⟩ := window_returns (p := fun op => ∃ results : Val → Val,
    (∀ row ∈ (input.contents E.meaning tables).support, Forall₂ _ calls (results row).cells) ∧
      op.contents E.meaning tables = _) hinput h
    fun _ => Lower.returns_window hE hframes hrt hin hnonneg hsupported
  have hinj : Set.InjOn (fun row => row.beside (results row))
      ((input.contents E.meaning tables).support : Set Val) :=
    fun row hrow row' hrow' heq => (hin.rows row hrow).eq_of_beside (hin.rows row' hrow') heq
  refine ⟨results, hresults, fun row hrow => ?_, fun r hr => ?_⟩
  · rw [hcontents]
    exact Finsupp.mapDomain_apply' _ _ subset_rfl hinj hrow
  · rw [hcontents] at hr
    obtain ⟨row, hrow, rfl⟩ := ZSet.mem_mapRows hr
    exact ⟨row, ⟨hrow, rfl⟩, fun row' h => hinj h.1 hrow h.2.symm⟩

section Visits

/-- Visits have a page, which may be unknown, and a day. -/
def visitStream : Operator :=
  ⟨0, "stream0", .source "Visit", [], Ty.zset (Ty.tuple [Ty.int32.nullable, Ty.int32]), true⟩

def visitTables : Circuit := { Circuit.empty "visits" with sources := [visitStream] }

def visitTable : Table := ⟨"Visit", [⟨"page", Ty.int32.nullable⟩, ⟨"day", Ty.int32⟩], []⟩

theorem hosts_visits : visitTables.Hosts [("Visit", visitStream)] ⟨⟨[("stream", 1)]⟩, 1⟩ := by
  have hadded : [visitTable].foldlM Plan.addTableStream [] (Circuit.empty "visits") Context.empty =
      (.ok ([("Visit", visitStream)], visitTables), ⟨⟨[("stream", 1)]⟩, 1⟩) := rfl
  exact Plan.hosts_tables hadded

/-- A visit of an unknown page. -/
def visit (day : ℤ) : Val := Val.tuple [Val.null, .atom (.int .w32 day)]

/-- Two visits on the first day and one on the second. -/
noncomputable def visitRows : Tables
  | "Visit" => Finsupp.single (visit 1) 2 + Finsupp.single (visit 2) 1
  | _ => 0

/-- The visits of a page on a day and the day before. -/
def recentVisits : Rel :=
  .window (.scan "Visit") [0] [1] (.preceding 1) .currentRow [⟨.count, none, false⟩]

theorem fits_visits : (visitRows "Visit").Fits visitStream.ty := by
  have hvisit : ∀ day, (visit day).IsRow [Ty.int32.nullable, Ty.int32] := fun day =>
    Val.isRow_tuple.2 (.cons ⟨rfl, .atom rfl⟩ (.cons (Val.isDatum_integer .w32 day) .nil))
  exact ZSet.Fits.add (.single (hvisit 1)) (.single (hvisit 2))

theorem nonneg_visits : (visitRows "Visit").Nonneg :=
  .add (.single (by decide) _) (.single (by decide) _)

theorem frame_visits (day : ℤ) : (visitRows "Visit").frame [0] 1 (.preceding 1) .currentRow
    (visit day) = (if -1 ≤ 1 - day ∧ 1 ≤ day then Finsupp.single (visit 1) 2 else 0) +
      if -1 ≤ 2 - day ∧ 2 ≤ day then Finsupp.single (visit 2) 1 else 0 := by
  rw [visitRows, ZSet.frame, map_add, ZSet.keepRows_single, ZSet.keepRows_single]
  simp [WindowBound.Between, WindowBound.distance?, visit, Val.pick, Val.cell, Val.integer]

/-- Visits of the first day have two visits in their frame, that of the second day has all three. -/
theorem visits_window_rows : ∃ op c ctx, recentVisits.stream [("Visit", visitStream)] visitTables
      ⟨⟨[("stream", 1)]⟩, 1⟩ = (.ok (op, c), ctx) ∧
    c.WellFormed ctx ∧ op ∈ c.operators ∧
    op.contents (Engine.meaning .framing) visitRows
      ((visit 1).beside (Val.tuple [Val.int64 2])) = 2 ∧
    op.contents (Engine.meaning .framing) visitRows
      ((visit 2).beside (Val.tuple [Val.int64 3])) = 1 := by
  have hok : (recentVisits.stream [("Visit", visitStream)] visitTables
      ⟨⟨[("stream", 1)]⟩, 1⟩).1.isOk := by decide +kernel
  obtain ⟨⟨op, c⟩, ctx, h⟩ := Compile.exists_of_isOk hok
  obtain ⟨hmember, hrows⟩ := rows_of_window (a := .scan "Visit") rfl rfl h
  obtain ⟨hc, -, hop⟩ := hmember hosts_visits
  obtain ⟨results, hresults, hweights, -⟩ := hrows .framing visitRows
    (fun _ => Domain.integers .w32) Engine.framing_foldsAll Engine.framing_framesRanges
    Runtime.arithmetic_aggregating
    (fun call _ => AggregateCall.supported_arithmetic (by simp [Ty.nullable, Ty.int32, Ty.withNull])
      call) fits_visits nonneg_visits
  -- the one value beside a visit is the size of its frame
  have hweight : ∀ day n, ((visitRows "Visit").frame [0] 1 (.preceding 1) .currentRow
      (visit day)).size = n → visit day ∈ (visitRows "Visit").support →
      op.contents (Engine.meaning .framing) visitRows ((visit day).beside
        (Val.tuple [Val.int64 n])) = visitRows "Visit" (visit day) := by
    intro day n hn hday
    obtain ⟨v, _, hv, hnil, hcells⟩ := List.forall₂_cons_left_iff.1 (hresults _ hday)
    obtain rfl := List.forall₂_nil_left_iff.1 hnil
    obtain rfl : v = Val.int64 n := hn ▸ hv
    have hrow := hweights _ hday
    rw [Val.beside, hcells] at hrow
    exact hrow
  have hne : visit 1 ≠ visit 2 := by simp [visit, Val.tuple]
  have hfirst : visitRows "Visit" (visit 1) = 2 := by simp [visitRows, hne]
  have hsecond : visitRows "Visit" (visit 2) = 1 := by simp [visitRows, hne.symm]
  refine ⟨op, c, ctx, h, hc, hop, ?_, ?_⟩
  · rw [hweight 1 2 (by simp [frame_visits])
      (Finsupp.mem_support_iff.2 (by simp [hfirst])), hfirst]
  · rw [hweight 2 3 (by simp [frame_visits, ZSet.size_add_single])
      (Finsupp.mem_support_iff.2 (by simp [hsecond])), hsecond]

end Visits

end Rel

end ViewCircuit
