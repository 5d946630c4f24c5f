import ViewCircuit.Circuit.Visit
import ViewCircuit.Proofs.Construct
import ViewCircuit.Proofs.Liveness

/-! The order in which a circuit lists its operators: sources, then interior operators, then sinks,
each in the order in which they were added. Whatever was added, it is an order in which they can be
evaluated exactly when no interior operator reads a sink; this is also when copying every operator
gives the circuit back. -/
namespace ViewCircuit

namespace Operator

/-- Operators that constructors made one after another in one context, over those made before. -/
inductive Crafted : Context → List Operator → Prop
  | start (ctx : Context) : Crafted ctx []
  | make {ctx ctx' : Context} {ops : List Operator} {template op : Operator} : Crafted ctx ops →
      (∀ i ∈ template.inputs, i ∈ ops) → template.construct ctx = (.ok op, ctx') →
      Crafted ctx' (op :: ops)
  /-- The context may be used in between. -/
  | draw {ctx ctx' : Context} {ops : List Operator} : Crafted ctx ops → ctx.Extends ctx' →
      Crafted ctx' ops

namespace Crafted

variable {ctx : Context} {ops : List Operator}

theorem checked (h : Crafted ctx ops) : ∀ op ∈ ops, op.Checked := by
  induction h with
  | start => simp
  | make hops hin hrun ih =>
    obtain ⟨ty, hmade, htyped, -⟩ :=
      makes_construct (fun i hi => (ih i (hin i hi)).isCollection) _ _ _ hrun
    exact List.forall_mem_cons.2 ⟨hmade.checked htyped, ih⟩
  | draw _ _ ih => exact ih

/-- What was made last is new, and reads what was made before. -/
theorem made {ctx' : Context} {template op : Operator} (h : Crafted ctx ops)
    (hin : ∀ i ∈ template.inputs, i ∈ ops) (hrun : template.construct ctx = (.ok op, ctx')) :
    op.New ctx ctx' ∧ op.inputs = template.inputs := by
  obtain ⟨ty, hmade, -⟩ :=
    makes_construct (fun i hi => (h.checked i (hin i hi)).isCollection) _ _ _ hrun
  exact ⟨hmade.toNew, hmade.inputs⟩

theorem named (h : Crafted ctx ops) : ∀ op ∈ ops, op.Named ctx := by
  induction h with
  | start => simp
  | make hops hin hrun ih =>
    obtain ⟨hnew, -⟩ := hops.made hin hrun
    rw [hnew.context]
    refine List.forall_mem_cons.2 ⟨⟨_, by simp, hnew.name⟩, fun op hop => ?_⟩
    obtain ⟨n, hn, hname⟩ := ih op hop
    exact ⟨n, by simp; omega, hname⟩
  | draw _ hctx ih =>
    intro op hop
    obtain ⟨n, hn, hname⟩ := ih op hop
    exact ⟨n, Nat.lt_of_lt_of_le hn hctx.streams, hname⟩

/-- A stream name stands for one operator. -/
theorem eq_of_name (h : Crafted ctx ops) : ∀ a ∈ ops, ∀ b ∈ ops, a.name = b.name → a = b := by
  induction h with
  | start => simp
  | @make ctx ctx' ops template op hops hin hrun ih =>
    obtain ⟨hnew, -⟩ := hops.made hin hrun
    have hfresh : ∀ x ∈ ops, x.name ≠ op.name := by
      intro x hx hname
      obtain ⟨n, hn, hxname⟩ := hops.named x hx
      have := Names.nth_injective (hxname.symm.trans (hname.trans hnew.name))
      omega
    intro a ha b hb hab
    rcases List.mem_cons.1 ha with heq | ha <;> rcases List.mem_cons.1 hb with heq' | hb
    · rw [heq, heq']
    · exact absurd (heq ▸ hab.symm) (hfresh b hb)
    · exact absurd (heq' ▸ hab) (hfresh a ha)
    · exact ih a ha b hb hab
  | draw _ _ ih => exact ih

theorem distinguished (h : Crafted ctx ops) : Distinguished ctx ops := by
  induction h with
  | start => exact ⟨by simp, by simp⟩
  | make hops hin hrun ih =>
    obtain ⟨hnew, -⟩ := hops.made hin hrun
    exact ih.cons hnew.id (by simp [hnew.context])
  | draw _ hctx ih => exact ih.mono hctx

theorem reads (h : Crafted ctx ops) : ∀ op ∈ ops, ∀ i ∈ op.inputs, i ∈ ops := by
  induction h with
  | start => simp
  | make hops hin hrun ih =>
    obtain ⟨-, hinputs⟩ := hops.made hin hrun
    refine List.forall_mem_cons.2 ⟨fun i hi => ?_, fun op hop i hi => ?_⟩
    · exact List.mem_cons_of_mem _ (hin i (hinputs ▸ hi))
    · exact List.mem_cons_of_mem _ (ih op hop i hi)
  | draw _ _ ih => exact ih

end Crafted

end Operator

namespace Circuit

/-- Adds operators one after another, and passes over those that cannot be added. -/
def addAll (c : Circuit) (ops : List Operator) : Circuit :=
  ops.foldl (fun c op => match c.add op with
    | .ok c' => c'
    | .error _ => c) c

/-- No operator between the sources and the sinks reads a sink. -/
def SinksLast (c : Circuit) : Prop := ∀ op ∈ c.interior, ∀ i ∈ op.inputs, i.kind.isSink = false

/-- A circuit that operators of a collection were added to. -/
structure Gathered (known : List Operator) (c : Circuit) : Prop extends c.Listed where
  members : ∀ op ∈ c.operators, op ∈ known
  earlier : c.SinksLast → Operator.ReadsEarlier c.operators

variable {ctx : Context} {known : List Operator} {c : Circuit}

theorem gathered_empty (name : String) : (empty name).Gathered known where
  sectioned := ⟨by simp [empty], by simp [empty], by simp [empty]⟩
  members := by simp [empty, operators]
  names := by simp [empty, operators]
  reads := by simp [empty, operators]
  earlier _ := Operator.readsEarlier_nil

/-- Of a sink that was added last, or of none, the interior reads no more sinks. -/
theorem SinksLast.of_insert {op : Operator} (h : (c.insert op).SinksLast) :
    c.SinksLast ∧
      (op.kind.isSource = false → op.kind.isSink = false →
        ∀ i ∈ op.inputs, i.kind.isSink = false) := by
  unfold SinksLast at h ⊢
  rw [interior_insert] at h
  constructor
  · intro x hx
    refine h x ?_
    split
    · exact hx
    · exact List.mem_append_left _ hx
  · intro hsource hsink
    exact h op (by simp [hsource, hsink])

theorem Gathered.insert (hknown : Operator.Crafted ctx known) (hc : c.Gathered known)
    {op : Operator} (hop : op ∈ known) {c' : Circuit} (hadd : c.add op = .ok c') :
    c'.Gathered known := by
  obtain ⟨hdeclared, hfresh, rfl⟩ := add_eq_ok_iff.1 hadd
  have hinputs : ∀ i ∈ op.inputs, i ∈ c.operators := by
    intro i hi
    -- the declared stream of that name is the one that is read, for both are known
    obtain ⟨x, hx, hname⟩ := List.mem_map.1 (hdeclared i hi)
    rwa [← hknown.eq_of_name x (hc.members x hx) i (hknown.reads op hop i hi) hname]
  have hmem : ∀ x ∈ (c.insert op).operators, x = op ∨ x ∈ c.operators :=
    fun x hx => mem_operators_insert.1 hx
  refine { sectioned := hc.sectioned.insert op, names := ?names, reads := ?reads,
           members := ?members, earlier := ?earlier }
  case names =>
    exact ((c.perm_operators_insert op).map _).nodup_iff.2 (List.nodup_cons.2 ⟨hfresh, hc.names⟩)
  case reads =>
    intro x hx i hi
    rcases hmem x hx with rfl | hx
    · exact mem_operators_insert.2 (.inr (hinputs i hi))
    · exact mem_operators_insert.2 (.inr (hc.reads x hx i hi))
  case members =>
    intro x hx
    rcases hmem x hx with rfl | hx
    · exact hop
    · exact hc.members x hx
  case earlier =>
    intro hlast
    obtain ⟨hbefore, hop'⟩ := hlast.of_insert
    obtain ⟨before, after, hold, hnew, hearlier⟩ :=
      hc.sectioned.insert_split (hknown.checked op hop) hinputs hop'
    rw [hnew]
    exact (hold ▸ hc.earlier hbefore).insert hearlier

theorem Gathered.addAll (hknown : Operator.Crafted ctx known) (hc : c.Gathered known)
    {ops : List Operator} (hops : ∀ op ∈ ops, op ∈ known) : (c.addAll ops).Gathered known := by
  unfold Circuit.addAll
  induction ops generalizing c with
  | nil => exact hc
  | cons op ops ih =>
    rw [List.forall_mem_cons] at hops
    rw [List.foldl_cons]
    refine ih ?_ hops.2
    split
    · rename_i hadd
      exact hc.insert hknown hops.1 hadd
    · exact hc

theorem Gathered.assembled (hknown : Operator.Crafted ctx known) (hc : c.Gathered known)
    (hearlier : Operator.ReadsEarlier c.operators) : c.Assembled ctx where
  sectioned := hc.sectioned
  names := hc.names
  earlier := hearlier
  named op hop := hknown.named op (hc.members op hop)
  nodes := hknown.distinguished.subset hc.members
  checked op hop := hknown.checked op (hc.members op hop)

/-- Every operator comes after all it reads exactly when the interior reads no sink. -/
theorem Gathered.readsEarlier_iff (hc : c.Gathered known) :
    Operator.ReadsEarlier c.operators ↔ c.SinksLast := by
  refine ⟨fun h op hop i hi => ?_, hc.earlier⟩
  obtain ⟨before, after, hsplit⟩ := List.append_of_mem hop
  have hi := h (c.sources ++ before) op (after ++ c.sinks) (by simp [operators, hsplit]) i hi
  rcases List.mem_append.1 hi with hi | hi
  · cases hk : i.kind.isSink
    · rfl
    · have := OperatorKind.isSource_of_isSink hk
      rw [hc.sectioned.sources i hi] at this
      cases this
  · exact (hc.sectioned.interior i (by simp [hsplit, hi])).2

/-- An operator that reads what comes later cannot be copied. -/
theorem Copied.copy_eq_error (ctx : Context) (h : c.Copied done r) (hc : c.Listed)
    (hsplit : c.operators = done ++ op :: rest) (hin : ∃ i ∈ op.inputs, i ∉ done) :
    ∃ stream, r.copy op ctx = (.error (.construction (.readBefore op.name stream)), ctx) := by
  have hop : op ∈ c.operators := by simp [hsplit]
  obtain ⟨i, hi, hlate⟩ := hin
  have hundeclared : r.result.declares i.name = false := by
    rw [Bool.eq_false_iff]
    intro hdecl
    obtain ⟨x, hx, hname⟩ := List.mem_map.1 (declares_iff.1 hdecl)
    have hxdone := (h.mem x).1 hx
    have heq : x = i := List.inj_on_of_nodup_map hc.names (by simp [hsplit, hxdone])
      (hc.reads op hop i hi) hname
    exact hlate (heq ▸ hxdone)
  obtain ⟨j, hj⟩ : ∃ j, (op.inputs.find? fun i => !r.result.declares i.name) = some j := by
    rw [← Option.isSome_iff_exists, List.find?_isSome]
    exact ⟨i, hi, by simp [hundeclared]⟩
  refine ⟨j.name, ?_⟩
  rw [h.copy_eq ctx hc hop, Rebuild.emitAs, Rebuild.emit, add, hj]
  rfl

/-- The copies go on up to the first operator that reads a later one. -/
theorem Copied.foldlM_eq_error (ctx : Context) (hc : c.Listed) {done rest : List Operator}
    {r : Rebuild} (h : c.Copied done r) (hsplit : c.operators = done ++ rest)
    (hlate : ∃ before op after, rest = before ++ op :: after ∧
      ∃ i ∈ op.inputs, i ∉ done ++ before) :
    ∃ reader stream, rest.foldlM Rebuild.copy r ctx =
      (.error (.construction (.readBefore reader stream)), ctx) := by
  induction rest generalizing done r with
  | nil =>
    obtain ⟨before, op, after, hnil, -⟩ := hlate
    simp at hnil
  | cons op rest ih =>
    rw [List.foldlM_cons, run_bind]
    by_cases hin : ∀ i ∈ op.inputs, i ∈ done
    · obtain ⟨r', hrun, h'⟩ := h.copy_eq_ok ctx hc hsplit hin
      rw [hrun]
      refine ih h' (by simpa using hsplit) ?_
      obtain ⟨before, x, after, hcons, i, hi, hout⟩ := hlate
      cases before with
      | nil =>
        obtain ⟨rfl, -⟩ := List.cons.inj hcons
        exact absurd (hin i hi) (by simpa using hout)
      | cons y before =>
        obtain ⟨rfl, rfl⟩ := List.cons.inj hcons
        exact ⟨before, x, after, rfl, i, hi, by simpa using hout⟩
    · push Not at hin
      obtain ⟨stream, hrun⟩ := h.copy_eq_error ctx hc hsplit hin
      rw [hrun]
      exact ⟨_, _, rfl⟩

theorem Listed.rebuild_copy_eq_error (hc : c.Listed)
    (hlate : ¬ Operator.ReadsEarlier c.operators) :
    ∃ reader stream, c.rebuild Rebuild.copy ctx =
      (.error (.construction (.readBefore reader stream)), ctx) := by
  unfold Operator.ReadsEarlier at hlate
  push Not at hlate
  obtain ⟨before, op, after, hsplit, i, hi, hout⟩ := hlate
  obtain ⟨reader, stream, hrun⟩ := (copied_start c).foldlM_eq_error ctx hc
    (by simp) ⟨before, op, after, hsplit, i, hi, by simpa using hout⟩
  refine ⟨reader, stream, ?_⟩
  unfold rebuild
  rw [run_bind, hrun]

/-- An operator's turn comes right after those of the operators before it, whatever the visitor. -/
theorem accept_split {σ : Type} {before after : List Operator} {op : Operator}
    (h : c.operators = before ++ op :: after) (v : Visitor σ) (s : σ) :
    c.accept v s = v.finish c
      (after.foldl v.operator (v.operator (before.foldl v.operator (v.start c s)) op)) := by
  rw [accept, h, List.foldl_append, List.foldl_cons]

/-- Let operators that constructors made in one context be added in any order and number. When no
interior operator reads a sink, every operator is listed and visited after all it reads, and copying
them all gives the circuit back. Otherwise the list is in no such order and copying fails. -/
theorem addAll_ordered_iff (name : String) {ops : List Operator}
    (hknown : Operator.Crafted ctx known) (hops : ∀ op ∈ ops, op ∈ known) :
    let c := (empty name).addAll ops
    (Operator.ReadsEarlier c.operators ↔ c.SinksLast) ∧
      (c.SinksLast → ∀ before op after, c.operators = before ++ op :: after →
        (∀ i ∈ op.inputs, i ∈ before) ∧
          ∀ {σ : Type} (v : Visitor σ) (s : σ), c.accept v s = v.finish c
            (after.foldl v.operator (v.operator (before.foldl v.operator (v.start c s)) op))) ∧
      ∀ ctx, (c.SinksLast → c.rebuild Rebuild.copy ctx = (.ok c, ctx)) ∧
        (¬ c.SinksLast → ∃ reader stream, c.rebuild Rebuild.copy ctx =
          (.error (.construction (.readBefore reader stream)), ctx)) := by
  intro c
  have hc : c.Gathered known := (gathered_empty name).addAll hknown hops
  refine ⟨hc.readsEarlier_iff, fun hlast before op after hsplit => ?_, fun ctx => ⟨?_, ?_⟩⟩
  · exact ⟨hc.earlier hlast before op after hsplit, fun v s => accept_split hsplit v s⟩
  · intro hlast
    obtain ⟨c', ctx', hrun, rfl, rfl⟩ :=
      hc.toListed.ends_rebuild_self (hc.earlier hlast) fun _ _ _ _ => rfl
    exact hrun
  · intro hlast
    exact hc.toListed.rebuild_copy_eq_error fun h => hlast (hc.readsEarlier_iff.1 h)

namespace Tapped

def table : Operator :=
  ⟨0, Names.nth "stream" 0, .source "T", [], Ty.zset (Ty.tuple [Ty.int32]), true⟩

def view : Operator := ⟨1, Names.nth "stream" 1, .sink "V", [table], table.ty, true⟩

/-- The distinct rows of the view, and so of a sink. -/
def late : Operator := ⟨2, Names.nth "stream" 2, .distinct, [view], table.ty, false⟩

/-- The distinct rows of the table. -/
def early : Operator := ⟨3, Names.nth "stream" 3, .distinct, [table], table.ty, false⟩

theorem crafted : ∃ ctx, Operator.Crafted ctx [early, late, view, table] := by
  have htable : Operator.Crafted _ [table] :=
    .make (.start .empty) (by simp [table]) (show table.construct .empty = (.ok table, _) from rfl)
  have hview : Operator.Crafted _ [view, table] :=
    .make htable (by simp [view]) (show view.construct _ = (.ok view, _) from rfl)
  have hlate : Operator.Crafted _ [late, view, table] :=
    .make hview (by simp [late]) (show late.construct _ = (.ok late, _) from rfl)
  exact ⟨_, .make hlate (by simp [early]) (show early.construct _ = (.ok early, _) from rfl)⟩

/-- After the view was added its rows can be read, and then the order is lost. A first attempt to
add the distinct rows of the table, before the table, changes nothing. -/
theorem order_lost_and_kept :
    (∃ reader stream, ((empty "c").addAll [table, view, late]).rebuild Rebuild.copy .empty =
        (.error (.construction (.readBefore reader stream)), .empty)) ∧
      ((empty "c").addAll [early, table, view, early]).rebuild Rebuild.copy .empty =
        (.ok ((empty "c").addAll [early, table, view, early]), .empty) := by
  obtain ⟨ctx, hknown⟩ := crafted
  have hlost : (empty "c").addAll [table, view, late] = ⟨"c", [], [table], [late], [view]⟩ := by
    cbv
  have hkept : (empty "c").addAll [early, table, view, early] =
      ⟨"c", [], [table], [early], [view]⟩ := by cbv
  refine ⟨((addAll_ordered_iff "c" hknown ?_).2.2 .empty).2 ?_,
    ((addAll_ordered_iff "c" hknown ?_).2.2 .empty).1 ?_⟩
  · simp
  · rw [hlost]
    intro hlast
    have := hlast late (by simp) view (by simp [late])
    cases this
  · simp
  · rw [hkept]
    intro op hop i hi
    obtain rfl := List.mem_singleton.1 hop
    obtain rfl := List.mem_singleton.1 hi
    rfl

end Tapped

end Circuit
end ViewCircuit
