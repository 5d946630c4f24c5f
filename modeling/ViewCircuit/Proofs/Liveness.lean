import ViewCircuit.Pass.Live
import ViewCircuit.Proofs.Rebuild

/-! Live streams are those of the sources and of all that a sink reads through a chain of inputs.
They are closed under inputs, so removing what is not live keeps the ends as they are, and all that
is left is live. -/
namespace ViewCircuit

/-- Whatever was reached beyond `base` has its inputs reached as well. -/
def ClosedBeyond (ops : List Operator) (base reached : List String) : Prop :=
  ∀ op ∈ ops, op.name ∈ reached → op.name ∉ base → ∀ i ∈ op.inputs, i.name ∈ reached

namespace Operator

mutual
/-- A walk keeps what was reached, reaches its start, and closes what it adds. -/
theorem reach_closed {ops : List Operator} (hinputs : ∀ op ∈ ops, ∀ i ∈ op.inputs, i ∈ ops)
    (hnames : ∀ a ∈ ops, ∀ b ∈ ops, a.name = b.name → a = b) :
    ∀ (op : Operator) (reached : List String), op ∈ ops →
    reached ⊆ op.reach reached ∧ op.name ∈ op.reach reached ∧
      ClosedBeyond ops reached (op.reach reached)
  | ⟨id, name, kind, inputs, ty, m⟩, reached, hop => by
    rw [reach]
    split
    · rename_i hmem
      refine ⟨fun _ hx => hx, by simpa using hmem, ?_⟩
      intro op _ hin hout
      exact absurd hin hout
    · obtain ⟨hsub, hall, hclosed⟩ :=
        reachAll_closed hinputs hnames inputs (name :: reached) (hinputs _ hop)
      refine ⟨fun x hx => hsub (List.mem_cons_of_mem _ hx), hsub List.mem_cons_self, ?_⟩
      intro x hx hin hout
      by_cases hxname : x.name = name
      · -- The start itself was marked before its inputs were walked.
        obtain rfl := hnames x hx _ hop hxname
        exact hall
      · exact hclosed x hx hin (by simp [hxname, hout])
theorem reachAll_closed {ops : List Operator} (hinputs : ∀ op ∈ ops, ∀ i ∈ op.inputs, i ∈ ops)
    (hnames : ∀ a ∈ ops, ∀ b ∈ ops, a.name = b.name → a = b) :
    ∀ (starts : List Operator) (reached : List String),
    (∀ i ∈ starts, i ∈ ops) → reached ⊆ reachAll starts reached ∧
      (∀ i ∈ starts, i.name ∈ reachAll starts reached) ∧
      ClosedBeyond ops reached (reachAll starts reached)
  | [], reached, _ => by
    refine ⟨fun _ hx => hx, by simp, ?_⟩
    intro op _ hin hout
    exact absurd hin hout
  | op :: rest, reached, hstarts => by
    rw [reachAll]
    obtain ⟨hsub, hall, hclosed⟩ :=
      reachAll_closed hinputs hnames rest reached fun i hi => hstarts i (List.mem_cons_of_mem _ hi)
    obtain ⟨hsub', hself, hclosed'⟩ :=
      reach_closed hinputs hnames op (reachAll rest reached) (hstarts op List.mem_cons_self)
    refine ⟨fun x hx => hsub' (hsub hx), ?_, ?_⟩
    · intro i hi
      rcases List.mem_cons.1 hi with rfl | hi
      · exact hself
      · exact hsub' (hall i hi)
    · intro x hx hin hout i hi
      by_cases hrest : x.name ∈ reachAll rest reached
      · exact hsub' (hclosed x hx hrest hout i hi)
      · exact hclosed' x hx hin hrest i hi
end

/-- The operator is the other one, or that one reads it through a chain of inputs. -/
inductive Feeds (x : Operator) : Operator → Prop
  | self : Feeds x x
  | input {op i : Operator} : i ∈ op.inputs → Feeds x i → Feeds x op

theorem Feeds.mem {ops : List Operator} (hops : ReadsEarlier ops) {x op : Operator}
    (h : x.Feeds op) (hop : op ∈ ops) : x ∈ ops := by
  induction h with
  | self => exact hop
  | input hi _ ih => exact ih (hops.mem hop hi)

mutual
/-- A walk reaches each stream once, and none but those that feed its start. -/
theorem reach_sound : ∀ (op : Operator) (reached : List String), reached.Nodup →
    (op.reach reached).Nodup ∧
      ∀ n ∈ op.reach reached, n ∈ reached ∨ ∃ x : Operator, x.Feeds op ∧ x.name = n
  | ⟨id, name, kind, inputs, ty, m⟩, reached, hnodup => by
    rw [reach]
    split
    · exact ⟨hnodup, fun n hn => .inl hn⟩
    · rename_i hnew
      have hcons : (name :: reached).Nodup := List.nodup_cons.2 ⟨by simpa using hnew, hnodup⟩
      obtain ⟨hall, hsound⟩ := reachAll_sound inputs (name :: reached) hcons
      refine ⟨hall, fun n hn => ?_⟩
      rcases hsound n hn with hmem | ⟨i, hi, x, hx, hname⟩
      · rcases List.mem_cons.1 hmem with rfl | hmem
        · exact .inr ⟨_, .self, rfl⟩
        · exact .inl hmem
      · exact .inr ⟨x, .input hi hx, hname⟩
theorem reachAll_sound : ∀ (starts : List Operator) (reached : List String), reached.Nodup →
    (reachAll starts reached).Nodup ∧ ∀ n ∈ reachAll starts reached,
      n ∈ reached ∨ ∃ i ∈ starts, ∃ x : Operator, x.Feeds i ∧ x.name = n
  | [], reached, hnodup => ⟨hnodup, fun n hn => .inl hn⟩
  | op :: rest, reached, hnodup => by
    rw [reachAll]
    obtain ⟨hrest, hsound⟩ := reachAll_sound rest reached hnodup
    obtain ⟨hself, hsound'⟩ := reach_sound op (reachAll rest reached) hrest
    refine ⟨hself, fun n hn => ?_⟩
    rcases hsound' n hn with hmem | ⟨x, hx, hname⟩
    · rcases hsound n hmem with hold | ⟨i, hi, hx⟩
      · exact .inl hold
      · exact .inr ⟨i, List.mem_cons_of_mem _ hi, hx⟩
    · exact .inr ⟨op, List.mem_cons_self, x, hx, hname⟩
end

end Operator

namespace Circuit

variable {ctx : Context} {c : Circuit}

/-- The streams of all sources and sinks are among these, with those their operators read. -/
structure Covered (c : Circuit) (kept : List String) : Prop where
  closed : ClosedBeyond c.operators [] kept
  ends : ∀ op ∈ c.operators, op.kind.isSource || op.kind.isSink → op.name ∈ kept

/-- Only sources stand before a source. -/
theorem Sectioned.isSource_of_before (hc : c.Sectioned) {before after : List Operator}
    {op : Operator} (hsplit : c.operators = before ++ op :: after) (hop : op.kind.isSource) :
    ∀ x ∈ before, x.kind.isSource := by
  rw [operators, List.append_assoc] at hsplit
  rcases List.append_eq_append_iff.1 hsplit with ⟨mid, rfl, hmid⟩ | ⟨mid, hsources, -⟩
  · -- then the source itself would stand among the others
    have hrest : op ∈ c.interior ++ c.sinks := by simp [hmid]
    rcases List.mem_append.1 hrest with hin | hin
    · simp [(hc.interior op hin).1] at hop
    · simp [OperatorKind.isSource_of_isSink (hc.sinks op hin)] at hop
  · exact fun x hx => hc.sources x (by simp [hsources, hx])

/-- Marking one more operator keeps the marked streams closed, and marks it if it is a source or a
sink. -/
theorem Ordered.live_step (hc : c.Ordered) {reached : List String} {before after : List Operator}
    {op : Operator} (hsplit : c.operators = before ++ op :: after)
    (hclosed : ClosedBeyond c.operators [] reached)
    (hends : ∀ x ∈ before, x.kind.isSource || x.kind.isSink → x.name ∈ reached) :
    reached ⊆ liveVisitor.operator reached op ∧
      (op.kind.isSource || op.kind.isSink → op.name ∈ liveVisitor.operator reached op) ∧
      ClosedBeyond c.operators [] (liveVisitor.operator reached op) := by
  have hop : op ∈ c.operators := by simp [hsplit]
  have hinputs : ∀ op ∈ c.operators, ∀ i ∈ op.inputs, i ∈ c.operators :=
    fun op hop i hi => hc.earlier.mem hop hi
  obtain ⟨hsub, hself, hreach⟩ :=
    Operator.reach_closed hinputs (fun a ha b hb => hc.eq_of_name ha hb) op reached hop
  cases hkind : op.kind with
  | source table =>
    have hsources : ∀ i ∈ op.inputs, i.name ∈ reached := fun i hi => by
      have hi' := hc.earlier before op after hsplit i hi
      have hsource := hc.sectioned.isSource_of_before hsplit (by rw [hkind]; rfl) i hi'
      exact hends i hi' (by simp [hsource])
    have hstep : liveVisitor.operator reached op =
        if reached.contains op.name then reached else op.name :: reached := by
      simp [Visitor.operator, liveVisitor, hkind]
    rw [hstep]
    split
    · rename_i hmem
      exact ⟨fun _ hx => hx, fun _ => by simpa using hmem, hclosed⟩
    · refine ⟨fun _ hx => List.mem_cons_of_mem _ hx, fun _ => List.mem_cons_self, ?_⟩
      intro x hx hin _ i hi
      rcases List.mem_cons.1 hin with hxname | hin
      · rw [hc.eq_of_name hx hop hxname] at hi
        exact List.mem_cons_of_mem _ (hsources i hi)
      · exact List.mem_cons_of_mem _ (hclosed x hx hin (by simp) i hi)
  | sink view =>
    have hstep : liveVisitor.operator reached op = op.reach reached := by
      simp [Visitor.operator, liveVisitor, hkind]
    rw [hstep]
    refine ⟨hsub, fun _ => hself, ?_⟩
    intro x hx hin _ i hi
    by_cases hold : x.name ∈ reached
    · exact hsub (hclosed x hx hold (by simp) i hi)
    · exact hreach x hx hin hold i hi
  | _ =>
    have hstep : liveVisitor.operator reached op = reached := by
      simp [Visitor.operator, liveVisitor, hkind]
    rw [hstep]
    exact ⟨fun _ hx => hx, by simp [OperatorKind.isSource, OperatorKind.isSink], hclosed⟩

/-- The live streams are closed under inputs and hold those of all sources and sinks. -/
theorem Ordered.covered_live (hc : c.Ordered) : c.Covered c.live := by
  have hlive : c.live = c.operators.foldl liveVisitor.operator [] := rfl
  suffices hrun : ∀ (before rest : List Operator) (reached : List String),
      c.operators = before ++ rest → ClosedBeyond c.operators [] reached →
      (∀ x ∈ before, x.kind.isSource || x.kind.isSink → x.name ∈ reached) →
      c.Covered (rest.foldl liveVisitor.operator reached) by
    rw [hlive]
    exact hrun [] c.operators [] rfl (fun _ _ hin => by simp at hin) (by simp)
  intro before rest
  induction rest generalizing before with
  | nil =>
    intro reached hsplit hclosed hends
    exact ⟨hclosed, by simpa [hsplit] using hends⟩
  | cons op rest ih =>
    intro reached hsplit hclosed hends
    obtain ⟨hsub, hend, hstep⟩ := hc.live_step hsplit hclosed hends
    refine ih (before ++ [op]) _ (by simp [hsplit]) hstep ?_
    rw [List.forall_mem_append, List.forall_mem_singleton]
    exact ⟨fun x hx hxend => hsub (hends x hx hxend), hend⟩

/-- A source, or an operator that feeds a sink. -/
def Live (c : Circuit) (op : Operator) : Prop :=
  op.kind.isSource ∨ ∃ sink ∈ c.operators, sink.kind.isSink ∧ op.Feeds sink

/-- Live streams are listed once, and belong to live operators. -/
theorem Ordered.live_sound (hc : c.Ordered) :
    c.live.Nodup ∧ ∀ n ∈ c.live, ∃ op ∈ c.operators, op.name = n ∧ c.Live op := by
  have hlive : c.live = c.operators.foldl liveVisitor.operator [] := rfl
  suffices hrun : ∀ (ops : List Operator) (reached : List String), (∀ op ∈ ops, op ∈ c.operators) →
      reached.Nodup → (∀ n ∈ reached, ∃ op ∈ c.operators, op.name = n ∧ c.Live op) →
      (ops.foldl liveVisitor.operator reached).Nodup ∧
      ∀ n ∈ ops.foldl liveVisitor.operator reached, ∃ op ∈ c.operators, op.name = n ∧ c.Live op by
    rw [hlive]
    exact hrun c.operators [] (fun _ hop => hop) List.nodup_nil nofun
  intro ops
  induction ops with
  | nil => exact fun reached _ hnodup hsound => ⟨hnodup, hsound⟩
  | cons op ops ih =>
    intro reached hops hnodup hsound
    obtain ⟨hop, hops⟩ := List.forall_mem_cons.1 hops
    suffices hstep : (liveVisitor.operator reached op).Nodup ∧
        ∀ n ∈ liveVisitor.operator reached op, ∃ op ∈ c.operators, op.name = n ∧ c.Live op from
      ih _ hops hstep.1 hstep.2
    cases hkind : op.kind with
    | source table =>
      have hself : c.Live op := .inl (by rw [hkind]; rfl)
      have hstep : liveVisitor.operator reached op =
          if reached.contains op.name then reached else op.name :: reached := by
        simp [Visitor.operator, liveVisitor, hkind]
      rw [hstep]
      split
      · exact ⟨hnodup, hsound⟩
      · rename_i hnew
        exact ⟨List.nodup_cons.2 ⟨by simpa using hnew, hnodup⟩,
          List.forall_mem_cons.2 ⟨⟨op, hop, rfl, hself⟩, hsound⟩⟩
    | sink view =>
      have hstep : liveVisitor.operator reached op = op.reach reached := by
        simp [Visitor.operator, liveVisitor, hkind]
      obtain ⟨hreach, hfeeds⟩ := Operator.reach_sound op reached hnodup
      rw [hstep]
      refine ⟨hreach, fun n hn => (hfeeds n hn).elim (hsound n) ?_⟩
      rintro ⟨x, hx, hname⟩
      exact ⟨x, hx.mem hc.earlier hop, hname, .inr ⟨op, hop, by rw [hkind]; rfl, hx⟩⟩
    | _ =>
      have hstep : liveVisitor.operator reached op = reached := by
        simp [Visitor.operator, liveVisitor, hkind]
      rw [hstep]
      exact ⟨hnodup, hsound⟩

/-- The live streams are those of the live operators. -/
theorem Ordered.mem_live_iff (hc : c.Ordered) {op : Operator} (hop : op ∈ c.operators) :
    op.name ∈ c.live ↔ c.Live op := by
  obtain ⟨hclosed, hends⟩ := hc.covered_live
  constructor
  · intro hmem
    obtain ⟨x, hx, hname, hlive⟩ := hc.live_sound.2 op.name hmem
    exact hc.eq_of_name hx hop hname ▸ hlive
  · rintro (hsource | ⟨sink, hsink, hkind, hfeeds⟩)
    · exact hends op hop (by simp [hsource])
    · have hstart := hends sink hsink (by simp [hkind])
      clear hkind
      induction hfeeds with
      | self => exact hstart
      | input hi _ ih => exact ih (hc.earlier.mem hsink hi) (hclosed _ hsink hstart (by simp) _ hi)

/-- When there are as many live streams as operators, all operators are live. -/
theorem Ordered.live_of_length (hc : c.Ordered) (h : c.live.length = c.size) :
    ∀ op ∈ c.operators, c.Live op := by
  obtain ⟨hnodup, hsound⟩ := hc.live_sound
  have hsub : c.live ⊆ c.operators.map Operator.name := by
    intro n hn
    obtain ⟨op, hop, rfl, -⟩ := hsound n hn
    exact List.mem_map_of_mem hop
  have hperm := (hnodup.subperm hsub).perm_of_length_le (by simp [h, size])
  exact fun op hop => (hc.mem_live_iff hop).1 (hperm.mem_iff.2 (List.mem_map_of_mem hop))

/-! ### Keeping the operators of listed streams -/

/-- The circuit with only the interior operators whose streams are listed. -/
def restrict (c : Circuit) (kept : List String) : Circuit :=
  { c with interior := c.interior.filter fun op => kept.contains op.name }

variable {kept : List String}

theorem Covered.operators_restrict (h : c.Covered kept) (hc : c.Sectioned) :
    (c.restrict kept).operators = c.operators.filter fun op => kept.contains op.name := by
  have hsources : c.sources.filter (fun op => kept.contains op.name) = c.sources :=
    List.filter_eq_self.2 fun op hop => by
      simpa using h.ends op (by simp [operators, hop]) (by simp [hc.sources op hop])
  have hsinks : c.sinks.filter (fun op => kept.contains op.name) = c.sinks :=
    List.filter_eq_self.2 fun op hop => by
      simpa using h.ends op (by simp [operators, hop]) (by simp [hc.sinks op hop])
  simp only [operators, restrict, List.filter_append, hsources, hsinks]

theorem Covered.mem_restrict (h : c.Covered kept) (hc : c.Sectioned) {op : Operator} :
    op ∈ (c.restrict kept).operators ↔ op ∈ c.operators ∧ op.name ∈ kept := by
  simp [h.operators_restrict hc]

theorem Sectioned.restrict (hc : c.Sectioned) (kept : List String) : (c.restrict kept).Sectioned :=
  ⟨hc.sources, fun op hop => hc.interior op (List.mem_filter.1 hop).1, hc.sinks⟩

/-- What is kept still reads operators before it. -/
theorem Ordered.restrict (hc : c.Ordered) (h : c.Covered kept) : (c.restrict kept).Ordered := by
  have hops := h.operators_restrict hc.sectioned
  refine ⟨hc.sectioned.restrict kept, ?_, ?_⟩
  · rw [hops]
    exact hc.names.sublist (List.filter_sublist.map _)
  · intro before op after hsplit i hi
    rw [hops] at hsplit
    obtain ⟨pre, post, hpre, rfl, hpost⟩ := List.filter_eq_append_iff.1 hsplit
    obtain ⟨mid, after', rfl, hmid, hop, -⟩ := List.filter_eq_cons_iff.1 hpost
    have hop : op.name ∈ kept := by simpa using hop
    have hi' : i ∈ pre ++ mid := hc.earlier (pre ++ mid) op after' (by simp [hpre]) i hi
    have hkept := h.closed op (by simp [hpre]) hop (by simp) i hi
    rcases List.mem_append.1 hi' with hin | hin
    · exact List.mem_filter.2 ⟨hin, by simpa using hkept⟩
    · exact absurd (by simpa using hkept) (hmid i hin)

theorem WellFormed.restrict (hc : c.WellFormed ctx) (h : c.Covered kept) :
    (c.restrict kept).WellFormed ctx := by
  have hmem : ∀ op ∈ (c.restrict kept).operators, op ∈ c.operators :=
    fun op hop => ((h.mem_restrict hc.sectioned).1 hop).1
  have hrest : (c.restrict kept).Assembled ctx :=
    ⟨hc.ordered.restrict h, fun op hop => hc.named op (hmem op hop), hc.nodes.subset hmem,
      fun op hop => hc.checked op (hmem op hop)⟩
  exact hrest.wellFormed fun op hop => hc.readsNoSink op (hmem op hop)

/-- What holds of a circuit while the operators of `kept` are copied. -/
structure Compacting (c : Circuit) (kept : List String) (done : List Operator) (r : Rebuild) :
    Prop where
  name : r.result.name = c.name
  declarations : r.result.declarations = c.declarations
  mapped : ∀ op ∈ c.operators, r.mapped op = op
  mem : ∀ op, op ∈ r.result.operators ↔ op ∈ done ∧ op.name ∈ kept
  sources : r.result.sources = done.filter fun op => op.kind.isSource && kept.contains op.name
  interior : r.result.interior =
    done.filter fun op => !(op.kind.isSource || op.kind.isSink) && kept.contains op.name
  sinks : r.result.sinks = done.filter fun op => op.kind.isSink && kept.contains op.name

theorem compacting_start (c : Circuit) (kept : List String) :
    Compacting c kept [] (Rebuild.start c) where
  name := rfl
  declarations := rfl
  mapped _ _ := rfl
  mem op := by simp [Rebuild.start, Circuit.empty, operators]
  sources := rfl
  interior := rfl
  sinks := rfl

section Step

variable {done rest : List Operator} {op : Operator} {r : Rebuild} (h : Compacting c kept done r)

include h

theorem Compacting.copy_eq_ok (ctx : Context) (hc : c.Ordered) (hkept : c.Covered kept)
    (hsplit : c.operators = done ++ op :: rest) (hop : op.name ∈ kept) :
    ∃ r', r.copy op ctx = (.ok r', ctx) ∧ Compacting c kept (done ++ [op]) r' := by
  have hmem : op ∈ c.operators := by simp [hsplit]
  have hinputs : r.mappedInputs op = op.inputs := by
    unfold Rebuild.mappedInputs
    refine (List.map_congr_left fun i hi => h.mapped i (hc.earlier.mem hmem hi)).trans ?_
    simp
  have hin : ∀ i ∈ op.inputs, i ∈ r.result.operators := fun i hi =>
    (h.mem i).2 ⟨hc.earlier done op rest hsplit i hi, hkept.closed op hmem hop (by simp) i hi⟩
  have hfresh : op.name ∉ r.result.operators.map Operator.name := by
    intro hin
    obtain ⟨x, hx, hxname⟩ := List.mem_map.1 hin
    exact Operator.name_ne_of_split hc.names hsplit x ((h.mem x).1 hx).1 hxname
  have hresult : ((r.extend op).replace op op).result = r.result.insert op := rfl
  refine ⟨(r.extend op).replace op op, ?_, ?_, ?_, ?_, ?_, ?_, ?_, ?_⟩
  · unfold Rebuild.copy Rebuild.rewire
    rw [hinputs, run_bind, withInputs_self]
    dsimp only
    rw [Rebuild.emitAs, Rebuild.emit_eq_ok hin hfresh]
    rfl
  · rw [hresult, name_insert, h.name]
  · rw [hresult, declarations_insert, h.declarations]
  · intro x hx
    rw [Rebuild.mapped_replace]
    split
    · rename_i hname
      exact (hc.eq_of_name hx hmem hname).symm
    · exact h.mapped x hx
  · intro x
    rw [hresult, mem_operators_insert, h.mem x, List.mem_append, List.mem_singleton]
    constructor
    · rintro (rfl | ⟨hx, hk⟩)
      · exact ⟨.inr rfl, hop⟩
      · exact ⟨.inl hx, hk⟩
    · rintro ⟨hx | rfl, hk⟩
      · exact .inr ⟨hx, hk⟩
      · exact .inl rfl
  · rw [hresult, sources_insert, h.sources, List.filter_append]
    cases hsource : op.kind.isSource <;> simp [hsource, hop]
  · rw [hresult, interior_insert, h.interior, List.filter_append]
    cases hsource : op.kind.isSource <;> cases hsink : op.kind.isSink <;>
      simp [hsource, hsink, hop]
  · rw [hresult, sinks_insert, h.sinks, List.filter_append]
    cases hsink : op.kind.isSink <;> simp [hsink, hop]

/-- Passing over an operator whose stream is not listed. -/
theorem Compacting.skip (hop : op.name ∉ kept) : Compacting c kept (done ++ [op]) r := by
  refine { h with mem := fun x => ?_, sources := ?_, interior := ?_, sinks := ?_ }
  · rw [h.mem x, List.mem_append, List.mem_singleton]
    constructor
    · rintro ⟨hx, hk⟩
      exact ⟨.inl hx, hk⟩
    · rintro ⟨hx | rfl, hk⟩
      · exact ⟨hx, hk⟩
      · exact absurd hk hop
  · simp [h.sources, List.filter_append, hop]
  · simp [h.interior, List.filter_append, hop]
  · simp [h.sinks, List.filter_append, hop]

/-- After all operators, those of the listed streams are there, in their order. -/
theorem Compacting.result_eq (hc : c.Sectioned) (hkept : c.Covered kept)
    (hdone : done = c.operators) : r.result = c.restrict kept := by
  subst hdone
  have hends : ∀ {isEnd : OperatorKind → Bool},
      (∀ kind, isEnd kind → kind.isSource || kind.isSink) →
      (c.operators.filter fun op => isEnd op.kind && kept.contains op.name) =
        c.operators.filter fun op => isEnd op.kind := by
    intro isEnd hend
    refine List.filter_congr fun op hop => ?_
    cases hkind : isEnd op.kind
    · rfl
    · simpa using hkept.ends op hop (hend op.kind hkind)
  have hsources : r.result.sources = c.sources := by
    rw [h.sources, hends fun kind hkind => by simp [hkind], ← hc.sources_eq]
  have hsinks : r.result.sinks = c.sinks := by
    rw [h.sinks, hends fun kind hkind => by simp [hkind], ← hc.sinks_eq]
  have hinterior : r.result.interior = c.interior.filter fun op => kept.contains op.name := by
    rw [h.interior, hc.interior_eq, List.filter_filter]
    exact List.filter_congr fun op _ => Bool.and_comm _ _
  obtain ⟨result, replaced⟩ := r
  obtain ⟨name, declarations, sources, interior, sinks⟩ := result
  obtain ⟨rfl, rfl⟩ : name = c.name ∧ declarations = c.declarations := ⟨h.name, h.declarations⟩
  obtain ⟨rfl, rfl, rfl⟩ : sources = c.sources ∧ interior = _ ∧ sinks = c.sinks :=
    ⟨hsources, hinterior, hsinks⟩
  rfl

end Step

theorem length_eq_of_allSame {as bs : List Operator} (h : Operator.allSame as bs) :
    as.length = bs.length := by
  induction as generalizing bs with
  | nil => cases bs <;> first | rfl | cases h
  | cons a as ih =>
    cases bs with
    | nil => cases h
    | cons b bs => simp [ih (Bool.and_eq_true_iff.1 h).2]

theorem restrict_eq_self (h : ∀ op ∈ c.operators, op.name ∈ kept) : c.restrict kept = c := by
  unfold restrict
  rw [List.filter_eq_self.2 fun op hop => by simpa using h op (by simp [operators, hop])]

/-- The circuit is kept when as many operators are left as there were. -/
theorem Covered.restrict_of_sameOperators (hkept : c.Covered kept) (hc : c.Sectioned)
    (h : (c.restrict kept).sameOperators c) : c.restrict kept = c := by
  have hlength := length_eq_of_allSame h
  rw [hkept.operators_restrict hc, List.length_filter_eq_length_iff] at hlength
  exact restrict_eq_self fun op hop => by simpa using hlength op hop

/-- Copying the operators of a closed set of streams that holds all sources and sinks succeeds,
and gives just those operators. -/
theorem Ordered.compact_eq (hc : c.Ordered) (hkept : c.Covered kept) (ctx : Context) :
    c.compact kept ctx = (.ok (c.restrict kept), ctx) := by
  have hrun : Compile.Ends (c.compact kept) ctx
      fun c' ctx' => c' = c.restrict kept ∧ ctx' = ctx := by
    unfold compact rebuild
    rw [Compile.ends_bind]
    refine (Compile.Ends.foldlM (fun done r ctx' => ctx' = ctx ∧ Compacting c kept done r)
      c.operators ?_ ⟨rfl, compacting_start c kept⟩).mono ?_
    · rintro before op after r _ hsplit ⟨rfl, h⟩
      split
      · rename_i hop
        obtain ⟨r', hcopy, h'⟩ := h.copy_eq_ok _ hc hkept hsplit (by simpa using hop)
        exact ⟨r', _, hcopy, rfl, h'⟩
      · rename_i hop
        exact (Compile.ends_pure _).2 ⟨rfl, h.skip (by simpa using hop)⟩
    · rintro r _ ⟨rfl, h⟩
      have hresult := h.result_eq hc.sectioned hkept rfl
      rw [Compile.ends_pure]
      refine ⟨?_, rfl⟩
      split
      · rename_i hsame
        exact (hkept.restrict_of_sameOperators hc.sectioned (hresult ▸ hsame)).symm
      · exact hresult
  obtain ⟨c', ctx', hrun, rfl, rfl⟩ := hrun
  exact hrun

/-- Removing what is not live succeeds, and gives just the live operators. -/
theorem Ordered.prune_eq (hc : c.Ordered) (ctx : Context) :
    c.prune ctx = (.ok (c.restrict c.live), ctx) := by
  unfold prune
  split
  · rename_i hlength
    have hlive := hc.live_of_length hlength
    rw [restrict_eq_self fun op hop => (hc.mem_live_iff hop).2 (hlive op hop)]
    rfl
  · exact hc.compact_eq hc.covered_live ctx

/-- Nothing is removed when all operators are live. -/
theorem Ordered.prune_self (hc : c.Ordered) (hlive : ∀ op ∈ c.operators, c.Live op)
    (ctx : Context) : c.prune ctx = (.ok c, ctx) := by
  rw [hc.prune_eq, restrict_eq_self fun op hop => (hc.mem_live_iff hop).2 (hlive op hop)]

/-- All that is left is live. -/
theorem Ordered.live_restrict (hc : c.Ordered) :
    ∀ op ∈ (c.restrict c.live).operators, (c.restrict c.live).Live op := by
  intro op hop
  obtain ⟨hop, hmem⟩ := (hc.covered_live.mem_restrict hc.sectioned).1 hop
  refine ((hc.mem_live_iff hop).1 hmem).imp_right ?_
  rintro ⟨sink, hsink, hkind, hfeeds⟩
  have hkept := hc.covered_live.ends sink hsink (by simp [hkind])
  exact ⟨sink, (hc.covered_live.mem_restrict hc.sectioned).2 ⟨hsink, hkept⟩, hkind, hfeeds⟩

/-- Operators were removed from a circuit, and the ends are as before. -/
structure Pruned (c : Circuit) (ctx : Context) (c' : Circuit) (ctx' : Context) : Prop where
  context : ctx' = ctx
  wellFormed : c'.WellFormed ctx'
  sources : c'.sources = c.sources
  sinks : c'.sinks = c.sinks
  mem : ∀ op ∈ c'.operators, op ∈ c.operators

/-- Removing what is not live succeeds and keeps the ends, and all that is left is live. -/
theorem WellFormed.ends_pruned (hc : c.WellFormed ctx) :
    Compile.Ends c.prune ctx fun c' ctx' =>
      Pruned c ctx c' ctx' ∧ ∀ op ∈ c'.operators, c'.Live op := by
  have hcovered := hc.ordered.covered_live
  refine ⟨_, _, hc.ordered.prune_eq ctx, ⟨rfl, hc.restrict hcovered, rfl, rfl, ?_⟩,
    hc.ordered.live_restrict⟩
  exact fun op hop => ((hcovered.mem_restrict hc.sectioned).1 hop).1

/-- Nothing is removed when all operators are live. -/
theorem WellFormed.ends_prune_self (hc : c.WellFormed ctx) (hlive : ∀ op ∈ c.operators, c.Live op) :
    Compile.Ends c.prune ctx fun c' ctx' => c' = c ∧ ctx' = ctx :=
  ⟨c, ctx, hc.ordered.prune_self hlive ctx, rfl, rfl⟩

theorem WellFormed.ends_prune (hc : c.WellFormed ctx) :
    Compile.Ends c.prune ctx fun c' ctx' =>
      c'.WellFormed ctx' ∧ ctx.Extends ctx' ∧ c'.sinks = c.sinks :=
  hc.ends_pruned.mono fun _ _ h => ⟨h.1.wellFormed, h.1.context ▸ .refl ctx, h.1.sinks⟩

end Circuit
end ViewCircuit
