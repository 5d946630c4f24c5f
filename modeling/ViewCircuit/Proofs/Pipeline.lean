import ViewCircuit.Proofs.Construct
import ViewCircuit.Proofs.Functions
import ViewCircuit.Proofs.Plan

/-! The passes as a whole. On the circuit of a plan every pass succeeds and gives a well-formed
circuit with the same sources and sinks. -/
namespace ViewCircuit

open List (Forall₂)

/-- What every visit does to the ends of a circuit: it emits a source itself and no other source,
and what stands for a sink has its name. -/
structure Turn (op : Operator) (emitted : List Operator) (new : Operator) : Prop where
  sources : (emitted.filter fun x => x.kind.isSource) = [op].filter fun x => x.kind.isSource
  sinkName : op.kind.isSink → new.name = op.name

section Turns

variable {c : Circuit} {ctx : Context} {r : Rebuild} {op op' new : Operator}
  {emitted : List Operator}

theorem DistinctElision.inner_of_isPullable {kind : OperatorKind} (h : isPullable kind) :
    kind.isSource = false ∧ kind.isSink = false := by
  cases kind <;> first | exact ⟨rfl, rfl⟩ | cases h

/-- Nothing but the operator itself is a source. -/
theorem turn_of_not_source (hop : op.kind.isSource = false)
    (hemitted : ∀ x ∈ emitted, x.kind.isSource = false)
    (hname : op.kind.isSink → new.name = op.name) : Turn op emitted new := by
  refine ⟨?_, hname⟩
  rw [List.filter_eq_nil_iff.2 fun x hx => by simp [hemitted x hx]]
  simp [hop]

/-- An operator that is kept is a source only if it reads nothing, and then it is the same node. -/
theorem Operator.Over.turn (hchecked : op.Checked) (h : op.Over (r.mappedInputs op) op') :
    Turn op [op'] op' := by
  cases hsource : op.kind.isSource with
  | false =>
    exact turn_of_not_source hsource (by simpa [h.kind] using hsource) fun _ => h.name
  | true =>
    have hnone : op.inputs = [] := by
      cases hk : op.kind <;> rw [hk] at hsource <;> cases hsource
      rw [Checked, hk] at hchecked
      exact List.map_eq_nil_iff.1 hchecked.source_inputs
    obtain rfl := h.same (by simp [Rebuild.mappedInputs, hnone])
    exact ⟨rfl, fun _ => rfl⟩

theorem DistinctElision.Visited.turn (hchecked : op.Checked)
    (h : DistinctElision.Visited r op emitted new) : Turn op emitted new := by
  cases h with
  | kept hover => exact hover.turn hchecked
  | collapsed hkind =>
    exact turn_of_not_source (by rw [hkind]; rfl) (List.forall_mem_nil _)
      (by simp [hkind, OperatorKind.isSink])
  | stripped hkind _ hpull _ hcopy _ _ hover =>
    refine turn_of_not_source (by rw [hkind]; rfl) ?_ fun _ => hover.name
    simp only [List.forall_mem_cons, hover.kind, hkind, hcopy]
    exact ⟨(DistinctElision.inner_of_isPullable hpull).1, rfl, List.forall_mem_nil _⟩
  | pushed hpull _ hover hnew =>
    obtain ⟨hsource, hsink⟩ := DistinctElision.inner_of_isPullable hpull
    refine turn_of_not_source hsource ?_ (by simp [hsink])
    simp only [List.forall_mem_cons, hover.kind, hnew]
    exact ⟨hsource, rfl, List.forall_mem_nil _⟩

theorem Boundary.Visited.turn (hchecked : op.Checked)
    (h : Boundary.Visited r op emitted new) : Turn op emitted new := by
  cases h with
  | kept _ _ hover => exact hover.turn hchecked
  | source hsource hintegral =>
    have hnew : new.kind.isSource = false := by rw [hintegral]; rfl
    refine ⟨by simp [hsource, hnew], fun hsink => ?_⟩
    rw [OperatorKind.isSource_of_isSink hsink] at hsource
    cases hsource
  | sink hsink hdeltas hover =>
    refine turn_of_not_source (OperatorKind.isSource_of_isSink hsink) ?_ fun _ => hover.name
    refine List.forall_mem_append.2 ⟨fun x hx => ?_, ?_⟩
    · rw [((List.forall₂_and_left _ _).1 hdeltas).1 x hx]
      rfl
    · simp [hover.kind, OperatorKind.isSource_of_isSink hsink]

theorem Integral.Visited.turn (hchecked : op.Checked)
    (h : Integral.Visited r op emitted new) : Turn op emitted new := by
  cases h with
  | kept hover => exact hover.turn hchecked
  | pushed _ hdelta hintegral =>
    have hnew : new.kind.isSource = false := by rw [hintegral]; rfl
    cases hdelta with
    | distinct hkind hdelta | aggregate hkind hdelta | join hkind hdelta =>
      refine turn_of_not_source (by rw [hkind]; rfl) ?_ (by simp [hkind, OperatorKind.isSink])
      simp only [List.nil_append, List.forall_mem_cons, hdelta]
      exact ⟨rfl, hnew, List.forall_mem_nil _⟩
    | windowAggregate hkind hover hdelta =>
      refine turn_of_not_source (by rw [hkind]; rfl) ?_ (by simp [hkind, OperatorKind.isSink])
      simp only [List.cons_append, List.nil_append, List.forall_mem_cons, hdelta, hover.kind, hkind]
      exact ⟨rfl, rfl, hnew, List.forall_mem_nil _⟩
    | linear hlinear hover =>
      have hinner : op.kind.isSource = false ∧ op.kind.isSink = false := by
        cases hk : op.kind <;> first | exact ⟨rfl, rfl⟩ | (rw [hk] at hlinear; cases hlinear)
      refine turn_of_not_source hinner.1 ?_ (by simp [hinner.2])
      simp only [List.nil_append, List.forall_mem_cons, hover.kind]
      exact ⟨hinner.1, hnew, List.forall_mem_nil _⟩

theorem Cancel.Visited.turn (hchecked : op.Checked)
    (h : Cancel.Visited r op emitted new) : Turn op emitted new := by
  cases h with
  | kept hover => exact hover.turn hchecked
  | cancelled hkind =>
    exact turn_of_not_source (by rw [hkind]; rfl) (List.forall_mem_nil _)
      (by simp [hkind, OperatorKind.isSink])

theorem Functions.Visited.turn (hchecked : op.Checked)
    (h : Functions.Visited r op emitted new) : Turn op emitted new := by
  cases h with
  | simplified hkind hname _ _ _ hover =>
    cases hf : op.kind.function? with
    | none => exact (hover hf).turn hchecked
    | some f =>
      have hsource : op.kind.isSource = false := by
        cases hk : op.kind <;> first | rfl | (rw [hk] at hf; cases hf)
      exact turn_of_not_source hsource (by simpa [hkind] using hsource) fun _ => hname

end Turns

namespace Circuit

/-- The circuits have the same sources, and sinks for the same views with the same streams. -/
structure SameEnds (c c' : Circuit) : Prop where
  sources : c'.sources = c.sources
  sinks : Forall₂ (fun sink sink' => sink'.kind = sink.kind ∧ sink'.name = sink.name ∧
    sink'.ty = sink.ty) c.sinks c'.sinks

theorem SameEnds.refl (c : Circuit) : c.SameEnds c :=
  ⟨rfl, List.forall₂_same.2 fun _ _ => ⟨rfl, rfl, rfl⟩⟩

theorem SameEnds.trans {a b c : Circuit} (hab : a.SameEnds b) (hbc : b.SameEnds c) :
    a.SameEnds c := by
  refine ⟨hbc.sources.trans hab.sources, ?_⟩
  obtain ⟨-, hab⟩ := hab
  obtain ⟨-, hbc⟩ := hbc
  generalize a.sinks = as, b.sinks = bs, c.sinks = cs at hab hbc
  induction hab generalizing cs with
  | nil =>
    cases hbc
    exact .nil
  | cons h _ ih =>
    cases hbc with
    | cons h' hrest =>
      exact .cons ⟨h'.1.trans h.1, h'.2.1.trans h.2.1, h'.2.2.trans h.2.2⟩ (ih _ hrest)

end Circuit

/-- What is known of the operators done and what stands for them goes on to hold when it holds of
the next. -/
theorem Rebuild.forall_mapped_turn {c : Circuit} {ctx : Context} {done rest emitted : List Operator}
    {r : Rebuild} {op new : Operator} {P : Operator → Operator → Prop} (hc : c.WellFormed ctx)
    (hsplit : c.operators = done ++ op :: rest) (h : ∀ x ∈ done, P x (r.mapped x))
    (hnew : P op new) : ∀ x ∈ done ++ [op], P x ((r.turn op emitted new).mapped x) := by
  refine List.forall_mem_append.2 ⟨fun x hx => ?_, List.forall_mem_singleton.2 ?_⟩
  · rw [mapped_turn, if_neg (name_ne_of_mem hc hsplit hx)]
    exact h x hx
  · rwa [mapped_turn, if_pos rfl]

/-- The sources that were visited are the sources of the new circuit, and what stands for a sink has
its name. -/
structure Rebuild.Tracks (done : List Operator) (r : Rebuild) : Prop where
  sources : r.result.sources = done.filter fun op => op.kind.isSource
  sinkName : ∀ op ∈ done, op.kind.isSink → (r.mapped op).name = op.name

theorem Rebuild.Tracks.turn {c : Circuit} {ctx : Context} {done rest emitted : List Operator}
    {r : Rebuild} {op new : Operator} (h : r.Tracks done) (hc : c.WellFormed ctx)
    (hsplit : c.operators = done ++ op :: rest) (hturn : Turn op emitted new) :
    (r.turn op emitted new).Tracks (done ++ [op]) := by
  refine ⟨by rw [sources_turn, h.sources, hturn.sources, List.filter_append], ?_⟩
  exact forall_mapped_turn (P := fun x x' => x.kind.isSink → x'.name = x.name) hc hsplit h.sinkName
    hturn.sinkName

namespace Circuit

variable {c c' : Circuit} {ctx ctx' : Context}

/-- The circuit that a rebuild ended in, with an invariant of its steps. -/
structure Rebuilt (Inv : List Operator → Rebuild → Prop) (c : Circuit) (ctx : Context)
    (c' : Circuit) (ctx' : Context) : Prop where
  wellFormed : c'.WellFormed ctx'
  ends : c.SameEnds c'
  steps : ∃ Sem r, Rebuild.Sound c ctx Sem c.operators c.operators r ctx' ∧ Inv c.operators r ∧
    c'.operators = r.result.operators

/-- Every visit of the circuit preserves the invariant. -/
def Preserves (c : Circuit) (ctx : Context)
    (Visited : Rebuild → Operator → List Operator → Operator → Prop)
    (Inv : List Operator → Rebuild → Prop) : Prop :=
  ∀ Sem done op rest r ctx' emitted new, c.operators = done ++ op :: rest →
    Rebuild.Sound c ctx Sem done done r ctx' → Inv done r → Visited r op emitted new →
    Inv (done ++ [op]) (r.turn op emitted new)

/-- When every visit succeeds and preserves the invariant, the rebuild ends in a circuit with the
same ends. -/
theorem WellFormed.ends_turning (hc : c.WellFormed ctx) (Sem : Operator → Operator → Prop)
    {Inv : List Operator → Rebuild → Prop} {visit : Rebuild → Operator → Compile Rebuild}
    {Visited : Rebuild → Operator → List Operator → Operator → Prop}
    (step : ∀ done op rest r ctx', c.operators = done ++ op :: rest →
      Rebuild.Sound c ctx Sem done done r ctx' →
      Compile.Ends (visit r op) ctx' fun r' ctx'' =>
        Rebuild.Sound c ctx Sem (done ++ [op]) (done ++ [op]) r' ctx'' ∧
          Turns (Visited r op) r op r')
    (hturn : ∀ r op emitted new, op.Checked → Visited r op emitted new → Turn op emitted new)
    (hstart : Inv [] (Rebuild.start c)) (hinv : c.Preserves ctx Visited Inv) :
    Compile.Ends (c.rebuild visit) ctx (Rebuilt Inv c ctx) := by
  unfold rebuild
  rw [Compile.ends_bind]
  have htracks : (Rebuild.start c).Tracks [] := ⟨rfl, List.forall_mem_nil _⟩
  refine (Compile.Ends.foldlM (fun done r ctx' => Rebuild.Sound c ctx Sem done done r ctx' ∧
    r.Tracks done ∧ Inv done r) c.operators ?_ ⟨Rebuild.sound_start hc, htracks, hstart⟩).mono
    fun r ctx' h => ?_
  · intro done op rest r ctx' hsplit h
    refine (step done op rest r ctx' hsplit h.1).mono fun r' ctx'' h' => ?_
    obtain ⟨hsound, emitted, new, hvisited, rfl⟩ := h'
    have hchecked : op.Checked := hc.checked op (by simp [hsplit])
    exact ⟨hsound, h.2.1.turn hc hsplit (hturn r op emitted new hchecked hvisited),
      hinv Sem done op rest r ctx' emitted new hsplit h.1 h.2.2 hvisited⟩
  · obtain ⟨hsound, htracks, hinv⟩ := h
    have hends : c.SameEnds r.result := by
      refine ⟨by rw [htracks.sources, ← hc.sectioned.sources_eq], ?_⟩
      rw [hsound.sinks, ← hc.sectioned.sinks_eq, List.forall₂_map_right_iff, List.forall₂_same]
      intro op hop
      have hmem : op ∈ c.operators := by simp [operators, hop]
      have hstands := hsound.stands op hmem
      exact ⟨hstands.sinkKind (hc.sinks op hop), htracks.sinkName op hmem (hc.sinks op hop),
        hstands.ty⟩
    rw [Compile.ends_pure]
    split
    · rename_i hsame
      have hops : r.result.operators = c.operators := Operator.eq_of_allSame hsound.nodes
        (fun a ha => List.mem_append_right _ ha) (fun a ha => List.mem_append_left _ ha) hsame
      exact ⟨hc.mono hsound.later, .refl c, Sem, r, hsound, hinv, hops.symm⟩
    · exact ⟨hsound.wellFormed, hends, Sem, r, hsound, hinv, rfl⟩

end Circuit

section Void

/-- A meaning under which no operator makes rows of nothing. -/
noncomputable def Meaning.void : Meaning :=
  ⟨fun _ v => v, fun _ _ => True, fun _ k _ _ => k, fun _ _ => Val.null, fun _ _ _ k => k,
    fun _ => 0⟩

theorem OperatorKind.contents_void (kind : OperatorKind) {xs : List ZSet} (h : ∀ x ∈ xs, x = 0) :
    kind.contents Meaning.void (fun _ => 0) xs = 0 := by
  obtain ⟨n, rfl⟩ : ∃ n, xs = List.replicate n 0 := ⟨xs.length, List.eq_replicate_of_mem h⟩
  unfold contents
  split <;> simp_all [ZSet.join, ZSet.perKey, ZSet.keys, Meaning.void]

mutual
/-- Over empty tables all relations are empty. -/
theorem Operator.contents_void : ∀ op : Operator, op.contents Meaning.void (fun _ => 0) = 0
  | ⟨_, _, kind, inputs, _, _⟩ => by
    rw [Operator.contents]
    exact kind.contents_void (contentsAll_void inputs)
theorem Operator.contentsAll_void : ∀ ops : List Operator,
    ∀ x ∈ contentsAll Meaning.void (fun _ => 0) ops, x = 0
  | [] => nofun
  | op :: ops => List.forall_mem_cons.2 ⟨op.contents_void, contentsAll_void ops⟩
end

end Void

namespace Circuit

variable {c c' : Circuit} {ctx ctx' : Context} {fits : Literal → Ty → Prop}
  {Inv : List Operator → Rebuild → Prop}

section Passes

variable (hc : c.WellFormed ctx) (hstart : Inv [] (Rebuild.start c))

include hc hstart

theorem WellFormed.ends_elideDistincts_inv
    (hrows : ∀ d ∈ c.operators, d.kind = .distinct → d.ty.zsetElement?.isSome)
    (hinv : c.Preserves ctx DistinctElision.Visited Inv) :
    Compile.Ends c.elideDistincts ctx (Rebuilt Inv c ctx) := by
  have hnonneg : ∀ op : Operator, (op.contents Meaning.void fun _ => 0).Nonneg :=
    fun op => by rw [op.contents_void]; exact fun _ => le_rfl
  have hreads : c.DistinctsReadRows Meaning.void fun _ => 0 :=
    ⟨hrows, fun _ _ _ i _ => .inr (hnonneg i)⟩
  have hcovered : c.DifferencesCovered Meaning.void fun _ => 0 :=
    fun _ _ _ _ _ _ _ _ _ x _ _ => hnonneg x
  refine hc.ends_turning (Elided Meaning.void fun _ => 0)
    (fun done op rest r ctx' hsplit h => ?_) ?_ hstart hinv
  · exact (ends_elision_visit hc hsplit h hreads hcovered).and
      (DistinctElision.yields_visit h hc hsplit)
  · exact fun _ _ _ _ hchecked hvisited => hvisited.turn hchecked

theorem WellFormed.ends_incrementalize_inv (hwhole : ∀ op ∈ c.operators, op.kind.isWhole)
    (hinv : c.Preserves ctx Boundary.Visited Inv) :
    Compile.Ends c.incrementalize ctx (Rebuilt Inv c ctx) := by
  refine hc.ends_turning (OverBatches Meaning.void fun _ _ => 0)
    (fun done op rest r ctx' hsplit h => ?_) ?_ hstart hinv
  · exact (ends_boundary_visit hc hwhole hsplit h).and
      (Boundary.yields_visit h hc hsplit)
  · exact fun _ _ _ _ hchecked hvisited => hvisited.turn hchecked

theorem WellFormed.ends_pushIntegrals_inv (hinv : c.Preserves ctx Integral.Visited Inv) :
    Compile.Ends c.pushIntegrals ctx (Rebuilt Inv c ctx) := by
  refine hc.ends_turning (SameStream Meaning.void fun _ _ => 0)
    (fun done op rest r ctx' hsplit h => ?_) ?_ hstart hinv
  · exact (ends_integral_visit hc hsplit h).and
      (Integral.yields_visit h hc hsplit)
  · exact fun _ _ _ _ hchecked hvisited => hvisited.turn hchecked

theorem WellFormed.ends_cancel_inv (hinv : c.Preserves ctx Cancel.Visited Inv) :
    Compile.Ends (c.rebuild Cancel.visit) ctx (Rebuilt Inv c ctx) := by
  refine hc.ends_turning (SameStream Meaning.void fun _ _ => 0)
    (fun done op rest r ctx' hsplit h => ?_) ?_ hstart hinv
  · exact (ends_cancel_visit hc hsplit h).and
      (Cancel.yields_visit h hc hsplit)
  · exact fun _ _ _ _ hchecked hvisited => hvisited.turn hchecked

theorem WellFormed.ends_normalizeFunctions_inv (hfits : Admits fits)
    (hregular : ∀ op ∈ c.operators, op.kind.Regular fits)
    (hinv : c.Preserves ctx Functions.Visited Inv) :
    Compile.Ends c.normalizeFunctions ctx (Rebuilt Inv c ctx) := by
  refine hc.ends_turning (fun _ _ => True) (fun done op rest r ctx' hsplit h => ?_) ?_ hstart hinv
  · have hop := hregular op (by simp [hsplit])
    exact Functions.ends_visit h hc hsplit hfits hop fun _ _ _ => trivial
  · exact fun _ _ _ _ hchecked hvisited => hvisited.turn hchecked

end Passes

end Circuit

/-- All operators of the new circuit have a property, and what stands for one that was visited is
related to it. -/
structure Rebuild.Keeps (P : Operator → Prop) (R : Operator → Operator → Prop)
    (done : List Operator) (r : Rebuild) : Prop where
  members : ∀ op ∈ r.result.operators, P op
  mapped : ∀ op ∈ done, R op (r.mapped op)

namespace Circuit

variable {c c' : Circuit} {ctx ctx' : Context} {P : Operator → Prop}
  {R : Operator → Operator → Prop}

theorem keeps_start (c : Circuit) : (Rebuild.start c).Keeps P R [] :=
  ⟨List.forall_mem_nil _, List.forall_mem_nil _⟩

/-- It is enough to look at what one visit emits, given what stands for the inputs. -/
theorem WellFormed.preserves_keeps (hc : c.WellFormed ctx)
    {Visited : Rebuild → Operator → List Operator → Operator → Prop}
    (step : ∀ Sem done op rest r ctx' emitted new, c.operators = done ++ op :: rest →
      Rebuild.Sound c ctx Sem done done r ctx' → (∀ x ∈ r.result.operators, P x) →
      (∀ i ∈ op.inputs, R i (r.mapped i)) → Visited r op emitted new →
      (∀ x ∈ emitted, P x) ∧ R op new) : c.Preserves ctx Visited (Rebuild.Keeps P R) := by
  intro Sem done op rest r ctx' emitted new hsplit hsound h hvisited
  have hinputs : ∀ i ∈ op.inputs, R i (r.mapped i) :=
    fun i hi => h.mapped i (hc.earlier done op rest hsplit i hi)
  obtain ⟨hemitted, hnew⟩ :=
    step Sem done op rest r ctx' emitted new hsplit hsound h.members hinputs hvisited
  exact ⟨fun x hx => (Rebuild.mem_turn.1 hx).elim (hemitted x) (h.members x),
    Rebuild.forall_mapped_turn hc hsplit h.mapped hnew⟩

theorem Rebuilt.members (h : c.Rebuilt (Rebuild.Keeps P R) ctx c' ctx') :
    ∀ op ∈ c'.operators, P op := by
  obtain ⟨-, r, -, hkeeps, hops⟩ := h.steps
  exact hops ▸ hkeeps.members

end Circuit

/-- All operators of the new circuit are of kinds with a property. -/
def Rebuild.OfKinds (K : OperatorKind → Prop) (_ : List Operator) (r : Rebuild) : Prop :=
  ∀ op ∈ r.result.operators, K op.kind

section Kinds

variable {K : OperatorKind → Prop} {c : Circuit} {ctx : Context}

theorem Rebuild.ofKinds_turn {done done' emitted : List Operator} {r : Rebuild} {op new : Operator}
    (h : r.OfKinds K done) (hemitted : ∀ x ∈ emitted, K x.kind) :
    (r.turn op emitted new).OfKinds K done' :=
  fun x hx => (mem_turn.1 hx).elim (hemitted x) (h x)

theorem Circuit.Rebuilt.ofKinds {c' : Circuit} {ctx' : Context}
    (h : c.Rebuilt (Rebuild.OfKinds K) ctx c' ctx') : ∀ op ∈ c'.operators, K op.kind := by
  obtain ⟨-, r, -, hkinds, hops⟩ := h.steps
  rwa [hops]

variable (hc : c.WellFormed ctx) (hK : ∀ op ∈ c.operators, K op.kind)

include hK

theorem DistinctElision.preserves_kinds (hc : c.WellFormed ctx) (hdistinct : K .distinct) :
    c.Preserves ctx Visited (Rebuild.OfKinds K) := by
  intro Sem done op rest r ctx' emitted new hsplit hsound h hvisited
  have hop : K op.kind := hK op (by simp [hsplit])
  refine Rebuild.ofKinds_turn h ?_
  cases hvisited with
  | kept hover => simpa [hover.kind] using hop
  | collapsed => exact List.forall_mem_nil _
  | @stripped i _ _ _ _ hi _ _ hcopy _ _ hover =>
    have hmapped := h _ (hsound.stands_input hc hsplit (i := i) (by simp [hi])).mem
    simpa [hover.kind, hcopy] using ⟨hmapped, hop⟩
  | pushed _ _ hover hnew => simpa [hover.kind, hnew] using ⟨hop, hdistinct⟩

theorem Boundary.preserves_kinds (hintegrate : K .integrate) (hdifferentiate : K .differentiate) :
    c.Preserves ctx Visited (Rebuild.OfKinds K) := by
  intro Sem done op rest r ctx' emitted new hsplit hsound h hvisited
  have hop : K op.kind := hK op (by simp [hsplit])
  refine Rebuild.ofKinds_turn h ?_
  cases hvisited with
  | source _ hintegral => simpa [hintegral] using ⟨hop, hintegrate⟩
  | sink _ hdeltas hover =>
    refine List.forall_mem_append.2 ⟨fun x hx => ?_, by simpa [hover.kind] using hop⟩
    rwa [((List.forall₂_and_left _ _).1 hdeltas).1 x hx]
  | kept _ _ hover => simpa [hover.kind] using hop

theorem Integral.preserves_kinds (hintegrate : K .integrate) (hdifferentiate : K .differentiate)
    (hdistinct : K .incrementalDistinct) (hjoin : ∀ f, K (.join f) → K (.incrementalJoin f))
    (haggregate : ∀ f, K (.aggregate f) → K (.incrementalAggregate f)) :
    c.Preserves ctx Visited (Rebuild.OfKinds K) := by
  intro Sem done op rest r ctx' emitted new hsplit hsound h hvisited
  have hop : K op.kind := hK op (by simp [hsplit])
  refine Rebuild.ofKinds_turn h ?_
  cases hvisited with
  | kept hover => simpa [hover.kind] using hop
  | pushed _ hdelta hintegral =>
    cases hdelta with
    | distinct _ hdelta => simpa [hdelta, hintegral] using ⟨hdistinct, hintegrate⟩
    | aggregate hkind hdelta =>
      simpa [hdelta, hintegral] using ⟨haggregate _ (hkind ▸ hop), hintegrate⟩
    | windowAggregate _ hover hdelta =>
      simpa [hover.kind, hdelta, hintegral] using ⟨hop, hdifferentiate, hintegrate⟩
    | join hkind hdelta => simpa [hdelta, hintegral] using ⟨hjoin _ (hkind ▸ hop), hintegrate⟩
    | linear _ hover => simpa [hover.kind, hintegral] using ⟨hop, hintegrate⟩

theorem Cancel.preserves_kinds : c.Preserves ctx Visited (Rebuild.OfKinds K) := by
  intro Sem done op rest r ctx' emitted new hsplit hsound h hvisited
  have hop : K op.kind := hK op (by simp [hsplit])
  refine Rebuild.ofKinds_turn h ?_
  cases hvisited with
  | kept hover => simpa [hover.kind] using hop
  | cancelled => exact List.forall_mem_nil _

theorem Functions.preserves_kinds
    (hsimplified : ∀ op ∈ c.operators, K op.kind → K op.kind.simplified) :
    c.Preserves ctx Visited (Rebuild.OfKinds K) := by
  intro Sem done op rest r ctx' emitted new hsplit hsound h hvisited
  have hmem : op ∈ c.operators := by simp [hsplit]
  refine Rebuild.ofKinds_turn h ?_
  cases hvisited with
  | simplified hkind => simpa [hkind] using hsimplified op hmem (hK op hmem)

end Kinds

namespace OperatorKind

/-- Kinds with first-order functions; `constants` says whether constant collections may be among
them. -/
structure Standard (fits : Literal → Ty → Prop) (constants : Prop) (kind : OperatorKind) :
    Prop where
  regular : kind.Regular fits
  constant : kind.isConstant → constants

variable {fits : Literal → Ty → Prop} {constants : Prop} {kind : OperatorKind}

@[simp] theorem isConstant_simplified (kind : OperatorKind) :
    kind.simplified.isConstant = kind.isConstant := by cases kind <;> rfl

@[simp] theorem isWhole_simplified (kind : OperatorKind) :
    kind.simplified.isWhole = kind.isWhole := by cases kind <;> rfl

/-- Simplifying keeps functions first-order. -/
theorem Standard.simplified (hfits : Admits fits) (h : kind.Standard fits constants) :
    kind.simplified.Standard fits constants := by
  refine ⟨?_, fun hconstant => h.constant (by simpa using hconstant)⟩
  cases hf : kind.function? with
  | none =>
    rw [simplified_of_none hf]
    exact h.regular
  | some f =>
    rw [simplified_of_some hf]
    exact (h.regular.simplify hfits hf).1

end OperatorKind

namespace Circuit

variable {c : Circuit} {ctx : Context} {fits : Literal → Ty → Prop} {constants : Prop}

/-- A well-formed circuit of operators of such kinds. -/
structure Standard (fits : Literal → Ty → Prop) (constants : Prop) (c : Circuit) (ctx : Context) :
    Prop where
  wellFormed : c.WellFormed ctx
  kinds : ∀ op ∈ c.operators, op.kind.Standard fits constants

theorem Rebuilt.standard {c' : Circuit} {ctx' : Context}
    (h : c.Rebuilt (Rebuild.OfKinds (OperatorKind.Standard fits constants)) ctx c' ctx') :
    c'.Standard fits constants ctx' ∧ c.SameEnds c' :=
  ⟨⟨h.wellFormed, h.ofKinds⟩, h.ends⟩

theorem Pruned.sameEnds {c' : Circuit} {ctx' : Context} (h : c.Pruned ctx c' ctx') :
    c.SameEnds c' :=
  ⟨h.sources, h.sinks ▸ (SameEnds.refl c).sinks⟩

theorem Standard.ends_prune (h : c.Standard fits constants ctx) :
    Compile.Ends c.prune ctx fun c' ctx' => c'.Standard fits constants ctx' ∧ c.SameEnds c' :=
  h.wellFormed.ends_pruned.mono fun _ _ hpruned =>
    ⟨⟨hpruned.1.wellFormed, fun op hop => h.kinds op (hpruned.1.mem op hop)⟩, hpruned.1.sameEnds⟩

/-- Removing operators leaves the others as they are. -/
theorem Standard.ends_prune_forall {P : Operator → Prop} (h : c.Standard fits constants ctx)
    (hP : ∀ op ∈ c.operators, P op) :
    Compile.Ends c.prune ctx fun c' ctx' =>
      c'.Standard fits constants ctx' ∧ ∀ op ∈ c'.operators, P op :=
  (h.ends_prune.and h.wellFormed.ends_pruned.yields).mono
    fun _ _ hnew => ⟨hnew.1.1, fun op hop => hP op (hnew.2.1.mem op hop)⟩

theorem Standard.ends_incrementalize (h : c.Standard fits constants ctx)
    (hwhole : ∀ op ∈ c.operators, op.kind.isWhole) :
    Compile.Ends c.incrementalize ctx fun c' ctx' =>
      c'.Standard fits constants ctx' ∧ c.SameEnds c' :=
  (h.wellFormed.ends_incrementalize_inv nofun hwhole (Boundary.preserves_kinds h.kinds
    ⟨trivial, nofun⟩ ⟨trivial, nofun⟩)).mono fun _ _ hnew => hnew.standard

theorem Standard.ends_cancel (h : c.Standard fits constants ctx) :
    Compile.Ends (c.rebuild Cancel.visit) ctx fun c' ctx' =>
      c'.Standard fits constants ctx' ∧ c.SameEnds c' :=
  (h.wellFormed.ends_cancel_inv nofun (Cancel.preserves_kinds h.kinds)).mono
    fun _ _ hnew => hnew.standard

/-- The passes after the first two succeed on every such circuit. -/
theorem Standard.ends_apply (hfits : Admits fits) (h : c.Standard fits constants ctx) {p : Pass}
    (helision : p ≠ .distinctElision) (hincremental : p ≠ .incrementalize) :
    Compile.Ends (p.apply c) ctx fun c' ctx' =>
      c'.Standard fits constants ctx' ∧ c.SameEnds c' := by
  cases p with
  | distinctElision => exact absurd rfl helision
  | incrementalize => exact absurd rfl hincremental
  | incrementalCleanup =>
    exact (h.wellFormed.ends_pushIntegrals_inv nofun (Integral.preserves_kinds h.kinds
      ⟨trivial, nofun⟩ ⟨trivial, nofun⟩ ⟨trivial, nofun⟩ (fun _ hf => ⟨hf.regular, nofun⟩)
      fun _ hf => ⟨hf.regular, nofun⟩)).mono fun _ _ hnew => hnew.standard
  | deadCode => exact h.ends_prune
  | noIntegral =>
    change Compile.Ends c.cancelIntegrals ctx _
    unfold cancelIntegrals
    rw [Compile.ends_bind]
    refine h.ends_cancel.mono fun c₁ ctx₁ hnew => ?_
    exact hnew.1.ends_prune.mono fun c₂ ctx₂ hpruned => ⟨hpruned.1, hnew.2.trans hpruned.2⟩
  | normalFunctions =>
    exact (h.wellFormed.ends_normalizeFunctions_inv nofun hfits
      (fun op hop => (h.kinds op hop).regular)
      (Functions.preserves_kinds h.kinds fun _ _ hkind => hkind.simplified hfits)).mono
      fun _ _ hnew => hnew.standard

theorem Standard.ends_optimize (hfits : Admits fits) {ps : List Pass}
    (hps : ∀ p ∈ ps, p ≠ .distinctElision ∧ p ≠ .incrementalize) {c : Circuit} {ctx : Context}
    (h : c.Standard fits constants ctx) : Compile.Ends (c.optimize ps) ctx fun out ctx' =>
      out.1.Standard fits constants ctx' ∧ c.SameEnds out.1 := by
  induction ps generalizing c ctx with
  | nil => exact (Compile.ends_pure _).2 ⟨h, .refl c⟩
  | cons p ps ih =>
    obtain ⟨hp, hps⟩ := List.forall_mem_cons.1 hps
    refine ends_optimize_cons (fun c' ctx' => c'.Standard fits constants ctx' ∧ c.SameEnds c') ?_
    refine (h.ends_apply hfits hp.1 hp.2).mono fun next ctx' hnext => ?_
    exact (ih hps hnext.1).mono fun out ctx'' hout => ⟨hout.1, hnext.2.trans hout.2⟩

/-- Moving distincts keeps whole-relation circuits whole. -/
theorem Standard.ends_elideDistincts (h : c.Standard fits constants ctx)
    (hwhole : ∀ op ∈ c.operators, op.kind.isWhole)
    (hrows : ∀ d ∈ c.operators, d.kind = .distinct → d.ty.zsetElement?.isSome) :
    Compile.Ends c.elideDistincts ctx fun c' ctx' => c'.Standard fits constants ctx' ∧
      c.SameEnds c' ∧ ∀ op ∈ c'.operators, op.kind.isWhole := by
  have hkinds : ∀ op ∈ c.operators, op.kind.Standard fits constants ∧ op.kind.isWhole :=
    fun op hop => ⟨h.kinds op hop, hwhole op hop⟩
  have hpreserves : c.Preserves ctx DistinctElision.Visited
      (Rebuild.OfKinds fun kind => kind.Standard fits constants ∧ kind.isWhole) :=
    DistinctElision.preserves_kinds hkinds h.wellFormed ⟨⟨trivial, nofun⟩, rfl⟩
  refine (h.wellFormed.ends_elideDistincts_inv nofun hrows hpreserves).mono fun c' ctx' hnew => ?_
  exact ⟨⟨hnew.wellFormed, fun op hop => (hnew.ofKinds op hop).1⟩, hnew.ends,
    fun op hop => (hnew.ofKinds op hop).2⟩

/-- The pipeline of every configuration starts with the passes over whole relations. -/
theorem pipeline_eq (config : OptimizerConfig) : ∃ later,
    config.pipeline = (if config.optimize then [.distinctElision] else []) ++
      ((if config.incrementalize then [.incrementalize] else []) ++ later) ∧
    ∀ p ∈ later, p ≠ .distinctElision ∧ p ≠ .incrementalize := by
  unfold OptimizerConfig.pipeline
  cases config.optimize <;> cases config.incrementalize <;> cases config.simplifyFunctions <;>
    exact ⟨_, rfl, by simp⟩

/-- The passes without the step to changes. -/
theorem pipeline_whole {config : OptimizerConfig} (h : config.incrementalize = false) :
    config.pipeline = if config.optimize then .distinctElision :: .deadCode ::
      (if config.simplifyFunctions then [.normalFunctions] else []) else [] := by
  unfold OptimizerConfig.pipeline
  rw [h]
  cases config.optimize <;> cases config.simplifyFunctions <;> rfl

theorem Standard.ends_wholePipeline (hfits : Admits fits) (h : c.Standard fits constants ctx)
    (hwhole : ∀ op ∈ c.operators, op.kind.isWhole) {incremental : Bool} {later : List Pass}
    (hlater : ∀ p ∈ later, p ≠ .distinctElision ∧ p ≠ .incrementalize) :
    Compile.Ends (c.optimize ((if incremental then [.incrementalize] else []) ++ later)) ctx
      fun out ctx' => out.1.Standard fits constants ctx' ∧ c.SameEnds out.1 := by
  cases incremental with
  | false => exact h.ends_optimize hfits hlater
  | true =>
    refine ends_optimize_cons (fun c' ctx' => c'.Standard fits constants ctx' ∧ c.SameEnds c') ?_
    refine (h.ends_incrementalize hwhole).mono fun c₁ ctx₁ h₁ => ?_
    exact (h₁.1.ends_optimize hfits hlater).mono fun out ctx' hout => ⟨hout.1, h₁.2.trans hout.2⟩

/-- Every configuration's pipeline succeeds on a circuit over whole relations and keeps its ends. -/
theorem Standard.ends_pipeline (hfits : Admits fits) (h : c.Standard fits constants ctx)
    (hwhole : ∀ op ∈ c.operators, op.kind.isWhole)
    (hrows : ∀ d ∈ c.operators, d.kind = .distinct → d.ty.zsetElement?.isSome)
    (config : OptimizerConfig) :
    Compile.Ends (c.optimize config.pipeline) ctx
      fun out ctx' => out.1.Standard fits constants ctx' ∧ c.SameEnds out.1 := by
  obtain ⟨later, hpipeline, hlater⟩ := pipeline_eq config
  rw [hpipeline]
  cases config.optimize with
  | false => exact h.ends_wholePipeline hfits hwhole hlater
  | true =>
    refine ends_optimize_cons (fun c' ctx' => c'.Standard fits constants ctx' ∧ c.SameEnds c') ?_
    refine (h.ends_elideDistincts hwhole hrows).mono fun c₁ ctx₁ h₁ => ?_
    exact (h₁.1.ends_wholePipeline hfits h₁.2.2 hlater).mono
      fun out ctx' hout => ⟨hout.1, h₁.2.1.trans hout.2⟩

/-- What moving distincts establishes of the operators of a circuit and simplifying functions keeps
holds at the end of every pipeline without the step to changes. -/
theorem Standard.ends_pipeline_forall {P : Operator → Prop} (h : c.Standard fits constants ctx)
    (hwhole : ∀ op ∈ c.operators, op.kind.isWhole)
    (hrows : ∀ d ∈ c.operators, d.kind = .distinct → d.ty.zsetElement?.isSome)
    (hP : ∀ op ∈ c.operators, P op)
    (helided : Compile.Yields c.elideDistincts ctx fun c' _ => ∀ op ∈ c'.operators, P op)
    (hnormal : ∀ (c' : Circuit) ctx', c'.Standard fits constants ctx' →
      (∀ op ∈ c'.operators, P op) →
      Compile.Ends c'.normalizeFunctions ctx' fun c'' _ => ∀ op ∈ c''.operators, P op)
    {config : OptimizerConfig} (hconfig : config.incrementalize = false) :
    Compile.Ends (c.optimize config.pipeline) ctx fun out _ => ∀ op ∈ out.1.operators, P op := by
  let post (c' : Circuit) (_ : Context) : Prop := ∀ op ∈ c'.operators, P op
  rw [pipeline_whole hconfig]
  cases config.optimize with
  | false => exact (Compile.ends_pure _).2 hP
  | true =>
    refine ends_optimize_cons post
      (((h.ends_elideDistincts hwhole hrows).and helided).mono fun c₁ ctx₁ h₁ => ?_)
    refine ends_optimize_cons post ((h₁.1.1.ends_prune_forall h₁.2).mono fun c₂ ctx₂ h₂ => ?_)
    cases config.simplifyFunctions with
    | false => exact (Compile.ends_pure _).2 h₂.2
    | true =>
      refine ends_optimize_cons post ((hnormal c₂ ctx₂ h₂.1 h₂.2).mono fun c₃ ctx₃ h₃ => ?_)
      exact (Compile.ends_pure _).2 h₃

/-- Without the step to changes, every pipeline keeps whole-relation circuits whole. -/
theorem Standard.ends_pipeline_whole (hfits : Admits fits) (h : c.Standard fits constants ctx)
    (hwhole : ∀ op ∈ c.operators, op.kind.isWhole)
    (hrows : ∀ d ∈ c.operators, d.kind = .distinct → d.ty.zsetElement?.isSome)
    {config : OptimizerConfig} (hconfig : config.incrementalize = false) :
    Compile.Ends (c.optimize config.pipeline) ctx fun out ctx' =>
      out.1.Standard fits constants ctx' ∧ c.SameEnds out.1 ∧
        ∀ op ∈ out.1.operators, op.kind.isWhole := by
  have helided : Compile.Yields c.elideDistincts ctx fun c' _ =>
      ∀ op ∈ c'.operators, op.kind.isWhole :=
    ((h.ends_elideDistincts hwhole hrows).mono fun _ _ helided => helided.2.2).yields
  have hkinds := h.ends_pipeline_forall hwhole hrows hwhole helided (fun c' ctx' h' hwhole' =>
    (h'.wellFormed.ends_normalizeFunctions_inv nofun hfits
      (fun op hop => (h'.kinds op hop).regular)
      (Functions.preserves_kinds (K := fun kind => kind.isWhole) hwhole' fun op hop hkind => by
        simpa using hkind)).mono fun _ _ hnormal => hnormal.ofKinds) hconfig
  exact ((h.ends_pipeline hfits hwhole hrows config).and hkinds.yields).mono
    fun out ctx' hout => ⟨hout.1.1, hout.1.2, hout.2⟩

end Circuit

namespace Plan

/-- A circuit in which names are told apart, operators read earlier nodes and are as their
constructors make them, and the ends are those of the plan and of the lowered circuit. -/
structure Intact (p : Plan) (lowered c : Circuit) : Prop where
  names : (c.operators.map Operator.name).Nodup
  nodes : ∀ a ∈ c.operators, ∀ b ∈ c.operators, a.same b → a = b
  earlier : Operator.ReadsEarlier c.operators
  constructed : ∀ op ∈ c.operators, ∀ ctx,
    Compile.Ends op.construct ctx (Operator.Made op.kind op.inputs op.ty ctx)
  sources : c.sources = lowered.sources
  sinks : Forall₂ (fun sink sink' => sink'.kind = sink.kind ∧ sink'.name = sink.name ∧
    sink'.ty = sink.ty) lowered.sinks c.sinks
  tables : Forall₂ IsSource p.tables c.sources
  views : Forall₂ IsSink p.views c.sinks

variable {p : Plan} {c c' : Circuit} {ctx ctx' : Context} {fits : Literal → Ty → Prop}

theorem Implements.standard (h : Implements fits p c ctx) :
    c.Standard fits p.usesConstants ctx :=
  ⟨h.wellFormed, fun op hop => ⟨(h.lowered op hop).regular, (h.lowered op hop).constant⟩⟩

theorem Implements.intact (h : Implements fits p c ctx) (hc' : c'.WellFormed ctx')
    (hends : c.SameEnds c') : p.Intact c c' where
  names := hc'.names
  nodes a ha b hb hsame := hc'.nodes.eq_of_id a ha b hb (by simpa [Operator.same] using hsame)
  earlier := hc'.earlier
  constructed op hop _ := (hc'.checked op hop).ends_construct
  sources := hends.sources
  sinks := hends.sinks
  tables := hends.sources ▸ h.sources
  views := by
    have hviews := h.sinks
    have hsinks := hends.sinks
    generalize p.views = views, c.sinks = sinks, c'.sinks = sinks' at hviews hsinks
    induction hviews generalizing sinks' with
    | nil =>
      cases hsinks
      exact .nil
    | cons hview _ ih =>
      cases hsinks with
      | cons hsink hrest => exact .cons (hsink.1.trans hview) (ih _ hrest)

/-- Whenever a plan is lowered, every configuration optimizes the circuit, and both circuits are
intact. -/
theorem optimize_intact (h : p.circuit ctx = (.ok c, ctx')) :
    p.Intact c c ∧ ∀ config : OptimizerConfig,
      Compile.Ends (c.optimize config.pipeline) ctx' fun out _ => p.Intact c out.1 := by
  have himplements := implements_circuit admits_any (fun _ _ _ => trivial) h
  refine ⟨himplements.intact himplements.wellFormed (.refl c), fun config => ?_⟩
  refine (himplements.standard.ends_pipeline admits_any
    (fun op hop => (himplements.lowered op hop).whole)
    (fun d hd hkind => ((himplements.lowered d hd).distinct hkind).1) config).mono ?_
  exact fun out ctx'' hout => himplements.intact hout.1.wellFormed hout.2

theorem accounts_intact : ∃ c ctx, accounts.circuit Context.empty = (.ok c, ctx) ∧
    accounts.Intact c c ∧ ∀ config : OptimizerConfig,
      Compile.Ends (c.optimize config.pipeline) ctx fun out _ => accounts.Intact c out.1 := by
  obtain ⟨c, ctx, h⟩ := lowers_accounts
  exact ⟨c, ctx, h, optimize_intact h⟩

end Plan

end ViewCircuit
