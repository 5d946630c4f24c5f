import Mathlib.Data.List.Nodup
import Mathlib.Tactic.Tauto
import ViewCircuit.Circuit
import ViewCircuit.Proofs.Compile

/-! Well-formed circuits: every operator is typed, reads earlier members that are no sinks, and has
a stream name and a number of its own, drawn from the context in use. -/
namespace ViewCircuit

namespace Context

/-- Everything drawn in the first context is drawn in the second. -/
structure Extends (ctx ctx' : Context) : Prop where
  streams : ctx.streams ≤ ctx'.streams
  nextId : ctx.nextId ≤ ctx'.nextId

theorem Extends.refl (ctx : Context) : ctx.Extends ctx := ⟨Nat.le_refl _, Nat.le_refl _⟩

theorem Extends.trans {a b c : Context} (hab : a.Extends b) (hbc : b.Extends c) : a.Extends c :=
  ⟨Nat.le_trans hab.streams hbc.streams, Nat.le_trans hab.nextId hbc.nextId⟩

theorem extends_numbered (ctx : Context) : ctx.Extends ctx.numbered := ⟨Nat.le_refl _, by simp⟩
theorem extends_extended (ctx : Context) : ctx.Extends ctx.extended := ⟨by simp, by simp⟩

end Context

namespace Operator

/-- Every operator reads operators that stand before it. -/
def ReadsEarlier (ops : List Operator) : Prop :=
  ∀ before op after, ops = before ++ op :: after → ∀ i ∈ op.inputs, i ∈ before

/-- A number stands for one node, and it was drawn. -/
structure Distinguished (ctx : Context) (ops : List Operator) : Prop where
  below : ∀ a ∈ ops, a.id < ctx.nextId
  eq_of_id : ∀ a ∈ ops, ∀ b ∈ ops, a.id = b.id → a = b

/-- The stream name was drawn from the context. -/
def Named (ctx : Context) (op : Operator) : Prop :=
  ∃ n < ctx.streams, op.name = Names.nth "stream" n

theorem ReadsEarlier.mem {ops : List Operator} (h : ReadsEarlier ops) {op i : Operator}
    (hop : op ∈ ops) (hi : i ∈ op.inputs) : i ∈ ops := by
  obtain ⟨before, after, rfl⟩ := List.append_of_mem hop
  exact List.mem_append_left _ (h before op after rfl i hi)

theorem ReadsEarlier.insert {before after : List Operator} {op : Operator}
    (h : ReadsEarlier (before ++ after)) (hop : ∀ i ∈ op.inputs, i ∈ before) :
    ReadsEarlier (before ++ op :: after) := by
  intro pre x post hsplit i hi
  rcases List.append_eq_append_iff.1 hsplit with ⟨mid, rfl, hmid⟩ | ⟨mid, rfl, hmid⟩
  · cases mid with
    | nil =>
      obtain ⟨rfl, rfl⟩ := List.cons.inj hmid
      exact List.mem_append_left _ (hop i hi)
    | cons y mid =>
      obtain ⟨rfl, rfl⟩ := List.cons.inj hmid
      have hmem := h (before ++ mid) x post (by simp) i hi
      rcases List.mem_append.1 hmem with hb | hm
      · exact List.mem_append_left _ hb
      · exact List.mem_append_right _ (List.mem_cons_of_mem _ hm)
  · cases mid with
    | nil =>
      obtain ⟨rfl, rfl⟩ := List.cons.inj hmid
      simpa using hop i hi
    | cons y mid =>
      obtain ⟨rfl, rfl⟩ := List.cons.inj hmid
      exact h pre _ (mid ++ after) (by simp) i hi

theorem readsEarlier_nil : ReadsEarlier [] := by
  intro before op after h
  simp at h

theorem ReadsEarlier.concat {ops : List Operator} (h : ReadsEarlier ops) (op : Operator)
    (hop : ∀ i ∈ op.inputs, i ∈ ops) : ReadsEarlier (ops ++ [op]) :=
  ReadsEarlier.insert (by simpa using h) hop

/-- Under names of their own, operators are named unlike those before them. -/
theorem name_ne_of_split {ops before after : List Operator} {op : Operator}
    (hnames : (ops.map name).Nodup) (hsplit : ops = before ++ op :: after) :
    ∀ x ∈ before, x.name ≠ op.name := by
  rw [hsplit, List.map_append, List.nodup_append] at hnames
  exact fun x hx => hnames.2.2 _ (List.mem_map_of_mem hx) _ (by simp)

theorem Distinguished.mono {ctx ctx' : Context} {ops : List Operator}
    (h : Distinguished ctx ops) (hctx : ctx.Extends ctx') : Distinguished ctx' ops :=
  ⟨fun a ha => Nat.lt_of_lt_of_le (h.below a ha) hctx.nextId, h.eq_of_id⟩

theorem Distinguished.subset {ctx : Context} {ops ops' : List Operator}
    (h : Distinguished ctx ops) (hops : ∀ a ∈ ops', a ∈ ops) : Distinguished ctx ops' :=
  ⟨fun a ha => h.below a (hops a ha), fun a ha b hb => h.eq_of_id a (hops a ha) b (hops b hb)⟩

/-- A node with the next number is none of those before. -/
theorem Distinguished.cons {ctx ctx' : Context} {ops : List Operator} {op : Operator}
    (h : Distinguished ctx ops) (hid : op.id = ctx.nextId) (hnext : ctx.nextId < ctx'.nextId) :
    Distinguished ctx' (op :: ops) := by
  constructor
  · intro a ha
    rcases List.mem_cons.1 ha with rfl | ha
    · exact hid ▸ hnext
    · exact Nat.lt_trans (h.below a ha) hnext
  · intro a ha b hb hab
    rcases List.mem_cons.1 ha with ha | ha <;> rcases List.mem_cons.1 hb with hb | hb
    · rw [ha, hb]
    · have hlt := h.below b hb
      rw [ha] at hab
      omega
    · have hlt := h.below a ha
      rw [hb] at hab
      omega
    · exact h.eq_of_id a ha b hb hab

/-- Nodes of a distinguished collection that are the same are equal. -/
theorem eq_of_allSame {ctx : Context} {ops as bs : List Operator} (h : Distinguished ctx ops)
    (has : ∀ a ∈ as, a ∈ ops) (hbs : ∀ b ∈ bs, b ∈ ops) (hsame : allSame as bs) : as = bs := by
  induction as generalizing bs with
  | nil =>
    cases bs with
    | nil => rfl
    | cons b bs => simp [allSame] at hsame
  | cons a as ih =>
    cases bs with
    | nil => simp [allSame] at hsame
    | cons b bs =>
      simp only [allSame, same, Bool.and_eq_true, beq_iff_eq] at hsame
      have hab := h.eq_of_id a (has a (by simp)) b (hbs b (by simp)) hsame.1
      rw [hab, ih (fun x hx => has x (by simp [hx])) (fun x hx => hbs x (by simp [hx])) hsame.2]

end Operator

namespace Circuit

/-- A circuit whose operators could be made in a context, one after another. -/
structure WellFormed (ctx : Context) (c : Circuit) : Prop where
  sources : ∀ op ∈ c.sources, op.kind.isSource
  interior : ∀ op ∈ c.interior, op.kind.isSource = false ∧ op.kind.isSink = false
  sinks : ∀ op ∈ c.sinks, op.kind.isSink
  earlier : Operator.ReadsEarlier c.operators
  readsNoSink : ∀ op ∈ c.operators, ∀ i ∈ op.inputs, i.kind.isSink = false
  names : (c.operators.map Operator.name).Nodup
  named : ∀ op ∈ c.operators, op.Named ctx
  nodes : Operator.Distinguished ctx c.operators
  checked : ∀ op ∈ c.operators, op.Checked

/-- The circuit with an operator added to the section of its kind. -/
def insert (c : Circuit) (op : Operator) : Circuit :=
  match op.kind with
  | .source _ => { c with sources := c.sources ++ [op] }
  | .sink _ => { c with sinks := c.sinks ++ [op] }
  | _ => { c with interior := c.interior ++ [op] }

theorem declares_iff {c : Circuit} {stream : String} :
    c.declares stream ↔ stream ∈ c.operators.map Operator.name := by
  simp [declares]

/-- Adding succeeds exactly when all inputs are declared and the own stream is not. -/
theorem add_eq_ok_iff {c c' : Circuit} {op : Operator} :
    c.add op = .ok c' ↔ (∀ i ∈ op.inputs, i.name ∈ c.operators.map Operator.name) ∧
      op.name ∉ c.operators.map Operator.name ∧ c' = c.insert op := by
  unfold add
  split
  · rename_i i hi
    have hmem := List.mem_of_find?_eq_some hi
    have hdecl := List.find?_some hi
    constructor
    · intro h
      cases h
    · rintro ⟨hall, _⟩
      simp [declares_iff.2 (hall i hmem)] at hdecl
  · rename_i hnone
    have hall : ∀ i ∈ op.inputs, i.name ∈ c.operators.map Operator.name := by
      intro i hi
      have h := List.find?_eq_none.1 hnone i hi
      exact declares_iff.1 (by simpa using h)
    split
    · rename_i hdecl
      constructor
      · intro h
        cases h
      · rintro ⟨_, hfresh, _⟩
        exact absurd (declares_iff.1 hdecl) hfresh
    · rename_i hfresh
      have hfresh : op.name ∉ c.operators.map Operator.name := fun h => hfresh (declares_iff.2 h)
      have hadd : (c.insert op = c') ↔ c' = c.insert op := eq_comm
      cases hkind : op.kind <;> simp_all [insert]

section Sections

variable (c : Circuit) (op : Operator)

@[simp] theorem name_insert : (c.insert op).name = c.name := by
  unfold insert
  cases op.kind <;> rfl

@[simp] theorem declarations_insert : (c.insert op).declarations = c.declarations := by
  unfold insert
  cases op.kind <;> rfl

theorem sources_insert : (c.insert op).sources =
    if op.kind.isSource then c.sources ++ [op] else c.sources := by
  unfold insert
  cases op.kind <;> rfl

theorem interior_insert : (c.insert op).interior =
    if op.kind.isSource || op.kind.isSink then c.interior else c.interior ++ [op] := by
  unfold insert
  cases op.kind <;> rfl

theorem sinks_insert : (c.insert op).sinks =
    if op.kind.isSink then c.sinks ++ [op] else c.sinks := by
  unfold insert
  cases op.kind <;> rfl

end Sections

/-- Every operator stands in the section of its kind. -/
structure Sectioned (c : Circuit) : Prop where
  sources : ∀ op ∈ c.sources, op.kind.isSource
  interior : ∀ op ∈ c.interior, op.kind.isSource = false ∧ op.kind.isSink = false
  sinks : ∀ op ∈ c.sinks, op.kind.isSink

/-- Operators stand in the sections of their kinds, under names of their own, and read operators
before them. -/
structure Ordered (c : Circuit) : Prop where
  sectioned : c.Sectioned
  names : (c.operators.map Operator.name).Nodup
  earlier : Operator.ReadsEarlier c.operators

/-- An ordered circuit of operators that could be made in a context. Its sinks may be read. -/
structure Assembled (ctx : Context) (c : Circuit) : Prop extends Ordered c where
  named : ∀ op ∈ c.operators, op.Named ctx
  nodes : Operator.Distinguished ctx c.operators
  checked : ∀ op ∈ c.operators, op.Checked

theorem Ordered.eq_of_name {c : Circuit} (hc : c.Ordered) {a b : Operator} (ha : a ∈ c.operators)
    (hb : b ∈ c.operators) (h : a.name = b.name) : a = b :=
  List.inj_on_of_nodup_map hc.names ha hb h

section WellFormed

variable {ctx : Context} {c : Circuit}

theorem WellFormed.sectioned (hc : c.WellFormed ctx) : c.Sectioned :=
  ⟨hc.sources, hc.interior, hc.sinks⟩

theorem WellFormed.ordered (hc : c.WellFormed ctx) : c.Ordered :=
  ⟨hc.sectioned, hc.names, hc.earlier⟩

theorem WellFormed.assembled (hc : c.WellFormed ctx) : c.Assembled ctx :=
  ⟨hc.ordered, hc.named, hc.nodes, hc.checked⟩

/-- An assembled circuit is well-formed when nothing reads its sinks. -/
theorem Assembled.wellFormed (hc : c.Assembled ctx)
    (h : ∀ op ∈ c.operators, ∀ i ∈ op.inputs, i.kind.isSink = false) : c.WellFormed ctx where
  sources := hc.sectioned.sources
  interior := hc.sectioned.interior
  sinks := hc.sectioned.sinks
  earlier := hc.earlier
  readsNoSink := h
  names := hc.names
  named := hc.named
  nodes := hc.nodes
  checked := hc.checked

end WellFormed

theorem Sectioned.insert {c : Circuit} (hc : c.Sectioned) (op : Operator) :
    (c.insert op).Sectioned := by
  constructor
  case sources =>
    intro x hx
    rw [sources_insert] at hx
    split at hx
    · rcases List.mem_append.1 hx with hx | hx
      · exact hc.sources x hx
      · rwa [List.mem_singleton.1 hx]
    · exact hc.sources x hx
  case interior =>
    intro x hx
    rw [interior_insert] at hx
    split at hx
    · exact hc.interior x hx
    · rcases List.mem_append.1 hx with hx | hx
      · exact hc.interior x hx
      · rw [List.mem_singleton.1 hx]
        simp_all
  case sinks =>
    intro x hx
    rw [sinks_insert] at hx
    split at hx
    · rcases List.mem_append.1 hx with hx | hx
      · exact hc.sinks x hx
      · rwa [List.mem_singleton.1 hx]
    · exact hc.sinks x hx

/-- An added operator stands after all it reads, unless it reads a sink and is none. -/
theorem Sectioned.insert_split {c : Circuit} (hc : c.Sectioned) {op : Operator}
    (hchecked : op.Checked) (hinputs : ∀ i ∈ op.inputs, i ∈ c.operators)
    (hsink : op.kind.isSource = false → op.kind.isSink = false →
      ∀ i ∈ op.inputs, i.kind.isSink = false) :
    ∃ before after, c.operators = before ++ after ∧
      (c.insert op).operators = before ++ op :: after ∧ ∀ i ∈ op.inputs, i ∈ before := by
  unfold Circuit.insert
  split
  · rename_i table hkind
    refine ⟨c.sources, c.interior ++ c.sinks, by simp [operators], by simp [operators], ?_⟩
    have hnone : op.inputs.map Operator.ty = [] := by
      unfold Operator.Checked at hchecked
      rw [hkind] at hchecked
      exact hchecked.source_inputs
    intro i hi
    simp [List.map_eq_nil_iff.1 hnone] at hi
  · exact ⟨c.operators, [], by simp, by simp [operators], hinputs⟩
  · rename_i hnone
    have hkind : op.kind.isSource = false ∧ op.kind.isSink = false := by
      cases hk : op.kind <;> simp_all [OperatorKind.isSource, OperatorKind.isSink]
    refine ⟨c.sources ++ c.interior, c.sinks, rfl, by simp [operators], ?_⟩
    intro i hi
    rcases List.mem_append.1 (hinputs i hi) with hmem | hmem
    · exact hmem
    · have h := hc.sinks i hmem
      rw [hsink hkind.1 hkind.2 i hi] at h
      cases h

theorem perm_operators_insert (c : Circuit) (op : Operator) :
    (c.insert op).operators.Perm (op :: c.operators) := by
  unfold insert
  split
  · simp [operators]
  · simpa [operators] using List.perm_append_singleton op c.operators
  · have h : (c.sources ++ c.interior ++ op :: c.sinks).Perm
        (op :: (c.sources ++ c.interior ++ c.sinks)) := List.perm_middle
    simpa [operators] using h

theorem mem_operators_insert {c : Circuit} {op x : Operator} :
    x ∈ (c.insert op).operators ↔ x = op ∨ x ∈ c.operators :=
  (c.perm_operators_insert op).mem_iff.trans List.mem_cons

theorem Assembled.mono {ctx ctx' : Context} {c : Circuit} (hc : c.Assembled ctx)
    (hctx : ctx.Extends ctx') : c.Assembled ctx' where
  toOrdered := hc.toOrdered
  named op hop := by
    obtain ⟨n, hn, hname⟩ := hc.named op hop
    exact ⟨n, Nat.lt_of_lt_of_le hn hctx.streams, hname⟩
  nodes := hc.nodes.mono hctx
  checked := hc.checked

theorem WellFormed.mono {ctx ctx' : Context} {c : Circuit} (hc : c.WellFormed ctx)
    (hctx : ctx.Extends ctx') : c.WellFormed ctx' :=
  (hc.assembled.mono hctx).wellFormed hc.readsNoSink

theorem Assembled.insert {ctx : Context} {c : Circuit} (hc : c.Assembled ctx) {op : Operator}
    (hchecked : op.Checked) (hinputs : ∀ i ∈ op.inputs, i ∈ c.operators)
    (hsink : op.kind.isSource = false → op.kind.isSink = false →
      ∀ i ∈ op.inputs, i.kind.isSink = false)
    (hfresh : op.name ∉ c.operators.map Operator.name) (hnamed : op.Named ctx)
    (hnodes : Operator.Distinguished ctx (op :: c.operators)) : (c.insert op).Assembled ctx := by
  obtain ⟨before, after, hold, hnew, hearlier⟩ := hc.sectioned.insert_split hchecked hinputs hsink
  have hmem : ∀ x ∈ (c.insert op).operators, x = op ∨ x ∈ c.operators :=
    fun x hx => mem_operators_insert.1 hx
  refine { sectioned := hc.sectioned.insert op, names := ?names, earlier := ?earlier,
           named := ?named, nodes := ?nodes, checked := ?checked }
  case earlier =>
    rw [hnew]
    exact (hold ▸ hc.earlier).insert hearlier
  case names =>
    exact ((c.perm_operators_insert op).map _).nodup_iff.2 (List.nodup_cons.2 ⟨hfresh, hc.names⟩)
  case named =>
    intro x hx
    rcases hmem x hx with rfl | hx
    · exact hnamed
    · exact hc.named x hx
  case nodes => exact hnodes.subset fun x hx => List.mem_cons.2 (hmem x hx)
  case checked =>
    intro x hx
    rcases hmem x hx with rfl | hx
    · exact hchecked
    · exact hc.checked x hx

theorem WellFormed.insert {ctx : Context} {c : Circuit} (hc : c.WellFormed ctx) {op : Operator}
    (hchecked : op.Checked) (hinputs : ∀ i ∈ op.inputs, i ∈ c.operators)
    (hsink : ∀ i ∈ op.inputs, i.kind.isSink = false)
    (hfresh : op.name ∉ c.operators.map Operator.name) (hnamed : op.Named ctx)
    (hnodes : Operator.Distinguished ctx (op :: c.operators)) : (c.insert op).WellFormed ctx := by
  refine (hc.assembled.insert hchecked hinputs (fun _ _ => hsink) hfresh hnamed hnodes).wellFormed
    fun x hx => ?_
  rcases mem_operators_insert.1 hx with rfl | hx
  · exact hsink
  · exact hc.readsNoSink x hx

end Circuit
end ViewCircuit
