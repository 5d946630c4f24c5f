import ViewCircuit.Proofs.Relations

/-! The circuit of a plan: well-formed, with a source for each table and a sink for each view, and
with operators of lowered relations between them. -/
namespace ViewCircuit

open List (Forall₂)

namespace Plan

/-- The types that columns, scalars and literal rows name. -/
def types (p : Plan) : List Ty :=
  p.tables.flatMap Table.rowTypes ++ p.views.flatMap fun v => v.query.types

/-- Whether there are literal rows, or aggregates of all rows together. -/
def usesConstants (p : Plan) : Bool := p.views.any fun v => v.query.usesConstants

/-- The source reads the table. -/
def IsSource (t : Table) (op : Operator) : Prop :=
  op.kind = .source t.name ∧ op.ty = Ty.zset (Ty.tuple t.rowTypes)

/-- The source is marked as the table is declared: a table with a key holds no row twice. -/
def KeepsKey (t : Table) (op : Operator) : Prop :=
  op.kind = .source t.name ∧ op.isMultiset = t.primaryKey.isEmpty

/-- The sink puts out the view. -/
def IsSink (v : View) (op : Operator) : Prop := op.kind = .sink v.name

end Plan

namespace Lower

variable {fits : Literal → Ty → Prop} {constants : Prop} {c c' : Circuit} {ctx ctx' : Context}
  {op : Operator}

/-- A run over a list keeps what every step keeps of the elements before. -/
theorem run_foldlM {α β : Type} {f : β → α → Lower β} (inv : List α → β → Circuit → Context → Prop)
    {b' : β} (xs : List α)
    (step : ∀ done, ∀ x ∈ xs, ∀ b c ctx b' c' ctx', inv done b c ctx →
      f b x c ctx = (.ok (b', c'), ctx') → inv (done ++ [x]) b' c' ctx')
    {done : List α} {b : β} {c : Circuit} {ctx : Context} (hinv : inv done b c ctx)
    (h : xs.foldlM f b c ctx = (.ok (b', c'), ctx')) : inv (done ++ xs) b' c' ctx' := by
  induction xs generalizing done b c ctx with
  | nil =>
    cases h
    simpa using hinv
  | cons x xs ih =>
    rw [List.foldlM_cons] at h
    obtain ⟨⟨b₁, c₁⟩, ctx₁, hx, hxs⟩ :=
      (run_bind_eq_ok (f b x c) fun p => xs.foldlM f p.1 p.2).1 h
    rw [List.append_cons]
    exact ih (fun done y hy => step done y (List.mem_cons_of_mem _ hy))
      (step done x List.mem_cons_self b c ctx b₁ c₁ ctx₁ hinv hx) hxs

/-- Sources and sinks stand at the ends of a lowered circuit. -/
theorem lowered_emit {make : Compile Operator} {kind : OperatorKind} {inputs : List Operator}
    (hc : c.Lowered fits constants ctx) (hmakes : Operator.Makes make kind inputs)
    (hin : ∀ i ∈ inputs, c.Reads i) (hkind : kind.isSource || kind.isSink)
    (h : emit make c ctx = (.ok (op, c'), ctx')) :
    c'.Lowered fits constants ctx' ∧ c' = c.insert op ∧ op.kind = kind := by
  obtain ⟨hmake, hadd⟩ := emit_eq_ok h
  obtain ⟨ty, hmade, htyped, hmarked⟩ := hmakes ctx op ctx' hmake
  have hlowered : op.Lowered fits constants := by
    have hop := hmade.kind
    cases kind <;> simp [OperatorKind.isSource, OperatorKind.isSink] at hkind <;>
      exact ⟨by rw [hop]; rfl, hmarked, by rw [hop]; trivial,
        by simp [hop, OperatorKind.isConstant], by simp [hop],
        fun i hi hnegate => absurd hnegate (hin i (hmade.inputs ▸ hi)).2⟩
  obtain ⟨hc', hadd'⟩ := hc.insert hmade.toNew (hmade.checked htyped)
    (hmade.inputs ▸ fun i hi => (hin i hi).1) hlowered
  obtain rfl := Except.ok.inj (hadd'.symm.trans hadd)
  exact ⟨hc', rfl, hmade.kind⟩

theorem source_eq {table : String} {element : Ty} {isMultiset : Bool}
    (h : Operator.source table element isMultiset ctx = (.ok op, ctx')) :
    op.ty = Ty.zset element ∧ op.isMultiset = isMultiset := by
  cases h
  exact ⟨rfl, rfl⟩

end Lower

namespace Plan

open Lower

/-- What holds while the tables and views of a plan are added. -/
structure Adding (fits : Literal → Ty → Prop) (constants : Prop) (tables : List Table)
    (views : List View) (relations : Relations) (c : Circuit) (ctx : Context) : Prop where
  lowered : c.Lowered fits constants ctx
  sources : Forall₂ IsSource tables c.sources
  keys : Forall₂ KeepsKey tables c.sources
  sinks : Forall₂ IsSink views c.sinks
  relations : ∀ entry ∈ relations, c.Relation entry.2

variable {fits : Literal → Ty → Prop} {constants : Prop} {tables : List Table} {views : List View}
  {relations relations' : Relations} {c c' : Circuit} {ctx ctx' : Context}

theorem Adding.addTable {t : Table} (h : Adding fits constants tables [] relations c ctx)
    (hrun : addTableStream relations t c ctx = (.ok (relations', c'), ctx')) :
    Adding fits constants (tables ++ [t]) [] relations' c' ctx' := by
  unfold addTableStream at hrun
  split at hrun
  · cases hrun
  obtain ⟨⟨source, c₁⟩, ctx₁, hemit, hpure⟩ :=
    (run_bind_eq_ok (emit (Operator.source t.name (Ty.tuple t.rowTypes) t.primaryKey.isEmpty) c)
      fun p => (pure (relations ++ [(t.name, p.1)]) : Lower Relations) p.2).1 hrun
  cases hpure
  obtain ⟨hc', hinsert, hkind⟩ := lowered_emit h.lowered Operator.makes_source
    (List.forall_mem_nil _) rfl hemit
  obtain ⟨hty, hkey⟩ := source_eq (emit_eq_ok hemit).1
  have hsource : source.kind.isSource := by rw [hkind]; rfl
  have hsink : source.kind.isSink = false := by rw [hkind]; rfl
  subst hinsert
  refine ⟨hc', ?_, ?_, ?_, List.forall_mem_append.2 ⟨?_, ?_⟩⟩
  · rw [Circuit.sources_insert, if_pos hsource]
    exact List.rel_append h.sources (.cons ⟨hkind, hty⟩ .nil)
  · rw [Circuit.sources_insert, if_pos hsource]
    exact List.rel_append h.keys (.cons ⟨hkind, hkey⟩ .nil)
  · rw [Circuit.sinks_insert, hsink]
    exact h.sinks
  · intro entry hentry
    have hrelation := h.relations entry hentry
    exact { hrelation with
      reads := hrelation.reads.imp_left fun hoffers =>
        ⟨Circuit.mem_operators_insert.2 (.inr hoffers.1), hoffers.2⟩ }
  · refine List.forall_mem_singleton.2
      ⟨⟨⟨Circuit.mem_operators_insert.2 (.inl rfl), hsink⟩, by rw [hkind]; nofun⟩, ?_, ?_⟩
    · rw [hty]
      rfl
    · exact .unsigned (by rw [hkind]; rfl)

theorem Adding.addView {v : View} (h : Adding fits constants tables views relations c ctx)
    (hfits : Admits fits) (hnull : ∀ t ∈ v.query.types, t.isNullType → fits .null t)
    (hconstants : v.query.usesConstants → constants)
    (hrun : addViewStream relations v c ctx = (.ok (relations', c'), ctx')) :
    Adding fits constants tables (views ++ [v]) relations' c' ctx' := by
  unfold addViewStream at hrun
  split at hrun
  · cases hrun
  obtain ⟨⟨output, c₁⟩, ctx₁, hstream, hrest⟩ :=
    (run_bind_eq_ok (v.query.stream relations c) fun p => (do
      let _ ← emit (Operator.sink v.name p.1)
      return relations ++ [(v.name, p.1)] : Lower Relations) p.2).1 hrun
  obtain ⟨hc₁, hgrows, houtput⟩ := Rel.builds_stream hfits v.query h.relations hnull hconstants
    ctx output c₁ ctx₁ h.lowered hstream
  obtain ⟨⟨sink, c₂⟩, ctx₂, hemit, hpure⟩ :=
    (run_bind_eq_ok (emit (Operator.sink v.name output) c₁)
      fun p => (pure (relations ++ [(v.name, output)]) : Lower Relations) p.2).1 hrest
  cases hpure
  have hmakes : Operator.Makes (Operator.sink v.name output) (.sink v.name) [output] :=
    Operator.makes_sink (hc₁.wellFormed.checked output houtput.reads.1.1).isCollection
  obtain ⟨hc', hinsert, hkind⟩ := lowered_emit hc₁ hmakes
    (List.forall_mem_singleton.2 houtput.reads) rfl hemit
  have hsource : sink.kind.isSource = false := by rw [hkind]; rfl
  have hsink : sink.kind.isSink := by rw [hkind]; rfl
  subst hinsert
  have hkeep : ∀ op, c₁.Relation op → (c₁.insert sink).Relation op := fun op hop =>
    { hop with reads := hop.reads.imp_left fun hoffers =>
        ⟨Circuit.mem_operators_insert.2 (.inr hoffers.1), hoffers.2⟩ }
  refine ⟨hc', ?_, ?_, ?_, List.forall_mem_append.2 ⟨?_, ?_⟩⟩
  · rw [Circuit.sources_insert, hsource, hgrows.sources]
    exact h.sources
  · rw [Circuit.sources_insert, hsource, hgrows.sources]
    exact h.keys
  · rw [Circuit.sinks_insert, if_pos hsink, hgrows.sinks]
    exact List.rel_append h.sinks (.cons hkind .nil)
  · exact fun entry hentry => hkeep entry.2 ((h.relations entry hentry).grows hgrows)
  · exact List.forall_mem_singleton.2 (hkeep output houtput)

theorem lowered_empty (name : String) (ctx : Context) :
    (Circuit.empty name).Lowered fits constants ctx :=
  ⟨Rebuild.wellFormed_start (Circuit.empty name) ctx, nofun⟩

/-- The tables of a plan become streams that stand for them. -/
theorem hosts_tables {name : String} {ts : List Table}
    (h : ts.foldlM addTableStream [] (Circuit.empty name) ctx = (.ok (relations, c), ctx')) :
    c.Hosts relations ctx' := by
  have hstart : Adding (fun _ _ => True) True [] [] [] (Circuit.empty name) ctx :=
    ⟨lowered_empty name ctx, .nil, .nil, .nil, nofun⟩
  have hadded : Adding (fun _ _ => True) True ts [] relations c ctx' :=
    run_foldlM (fun done => Adding (fun _ _ => True) True done []) ts
      (fun _ _ _ _ _ _ _ _ _ hinv hrun => hinv.addTable hrun) hstart h
  exact ⟨hadded.lowered, hadded.relations⟩

/-- What the circuit of a plan looks like. -/
structure Implements (fits : Literal → Ty → Prop) (p : Plan) (c : Circuit) (ctx : Context) :
    Prop extends c.Lowered fits p.usesConstants ctx where
  sources : Forall₂ IsSource p.tables c.sources
  keys : Forall₂ KeepsKey p.tables c.sources
  sinks : Forall₂ IsSink p.views c.sinks

/-- Whenever a plan is lowered, the circuit is well-formed and implements the plan. -/
theorem implements_circuit {p : Plan} (hfits : Admits fits)
    (hnull : ∀ t ∈ p.types, t.isNullType → fits .null t) (h : p.circuit ctx = (.ok c, ctx')) :
    Implements fits p c ctx' := by
  obtain ⟨⟨_, c₁⟩, ctx₁, hbuild, hpure⟩ := (run_bind_eq_ok (StateT.run (do
    let tables ← p.tables.foldlM addTableStream []
    let _ ← p.views.foldlM addViewStream tables
    return () : Lower Unit) (Circuit.empty p.name)) fun out => pure out.2).1 h
  cases hpure
  obtain ⟨⟨relations, c₁⟩, ctx₁, htables, hrest⟩ :=
    (run_bind_eq_ok (p.tables.foldlM addTableStream [] (Circuit.empty p.name)) fun out => (do
      let _ ← p.views.foldlM addViewStream out.1
      return () : Lower Unit) out.2).1 hbuild
  obtain ⟨⟨relations', c₂⟩, ctx₂, hviews, hpure⟩ :=
    (run_bind_eq_ok (p.views.foldlM addViewStream relations c₁)
      fun out => (pure () : Lower Unit) out.2).1 hrest
  cases hpure
  have hstart : Adding fits p.usesConstants [] [] [] (Circuit.empty p.name) ctx :=
    ⟨lowered_empty p.name ctx, .nil, .nil, .nil, nofun⟩
  have hadded : Adding fits p.usesConstants p.tables [] relations c₁ ctx₁ :=
    run_foldlM (fun done => Adding fits p.usesConstants done []) p.tables
      (fun _ _ _ _ _ _ _ _ _ hinv hrun => hinv.addTable hrun) hstart htables
  have hall : Adding fits p.usesConstants p.tables p.views relations' c₂ ctx' := by
    refine run_foldlM (fun done => Adding fits p.usesConstants p.tables done) p.views ?_ hadded
      hviews
    intro done v hv relations c ctx relations' c' ctx' hinv hrun
    refine hinv.addView hfits (fun t ht => hnull t ?_) (fun hv' => ?_) hrun
    · exact List.mem_append_right _ (List.mem_flatMap.2 ⟨v, hv, ht⟩)
    · exact List.any_eq_true.2 ⟨v, hv, hv'⟩
  exact ⟨hall.lowered, hall.sources, hall.keys, hall.sinks⟩

/-- The sum of what each owner paid, and the owners with their payments. -/
def accounts : Plan :=
  ⟨"accounts",
    [⟨"Owner", [⟨"id", Ty.int32⟩, ⟨"name", Ty.string⟩], [0]⟩,
      ⟨"Payment", [⟨"owner", Ty.int32⟩, ⟨"amount", Ty.int32.nullable⟩], []⟩],
    [⟨"Paid", .aggregate (.scan "Payment") [0] [⟨.sum, some 1, false⟩]⟩,
      ⟨"Owed", .distinct (.join (.scan "Owner") (.scan "Payment") .left
        (.binary .eq (.column 0) (.column 2)))⟩]⟩

theorem lowers_accounts : ∃ c ctx, accounts.circuit Context.empty = (.ok c, ctx) :=
  Compile.exists_of_isOk (by decide +kernel)

end Plan

end ViewCircuit
