import ViewCircuit.Proofs.Pipeline

/-! Running the default passes twice. The first run leaves distincts that cannot be moved, live
operators only and functions that are settled, and so the second run keeps every operator. -/
namespace ViewCircuit

section Under

variable {property : OperatorKind → Bool} {ops : List Operator}

/-- Operators of which one lacks the property have no inputs taken. -/
theorem inputsUnder?_eq_none {op : Operator} (hop : op ∈ ops) (h : property op.kind = false) :
    inputsUnder? property ops = none := by
  have hall : ¬ ops.all fun op => property op.kind := by
    intro hall
    rw [List.all_eq_true.1 hall op hop] at h
    cases h
  unfold inputsUnder?
  rw [if_neg (by simp [hall])]

/-- Replacing operators by others that have the property when they do, over replaced inputs. -/
theorem inputsUnder?_map {f : Operator → Operator}
    (h : ∀ op ∈ ops, property (f op).kind = property op.kind ∧ (f op).inputs = op.inputs.map f) :
    inputsUnder? property (ops.map f) = (inputsUnder? property ops).map (List.map f) := by
  have hall : ((ops.map f).all fun op => property op.kind) =
      ops.all fun op => property op.kind := by
    rw [Bool.eq_iff_iff, List.all_eq_true, List.all_eq_true, List.forall_mem_map]
    exact forall₂_congr fun op hop => by rw [(h op hop).1]
  have hinput : ∀ op ∈ ops, (f op).input? = op.input?.map f := by
    intro op hop
    unfold Operator.input?
    rw [(h op hop).2]
    cases op.inputs with
    | nil => rfl
    | cons i is => cases is <;> rfl
  have hmapM : (ops.map f).mapM Operator.input? = (ops.mapM Operator.input?).map (List.map f) := by
    clear hall h
    induction ops with
    | nil => rfl
    | cons op ops ih =>
      obtain ⟨hop, hops⟩ := List.forall_mem_cons.1 hinput
      rw [List.map_cons, List.mapM_cons, List.mapM_cons, hop, ih hops]
      cases op.input? <;> cases ops.mapM Operator.input? <;> rfl
  unfold inputsUnder?
  rw [hall, List.isEmpty_map, hmapM]
  split <;> rfl

end Under

namespace DistinctElision

theorem isDistinct_of_isPullable {kind : OperatorKind} (h : isPullable kind) :
    kind.isDistinct = false := by
  cases kind <;> first | rfl | cases h

/-- An operator through which distincts move rests over inputs that are not distinct. -/
theorem rests_of_inputs {op : Operator} (hpull : isPullable op.kind)
    (h : inputsUnder? (·.isDistinct) op.inputs = none) : op.Rests := by
  unfold Operator.Rests
  cases hk : op.kind with
  | filter | join => exact h
  | distinct => simp [hk, isPullable] at hpull
  | _ => trivial

variable {c : Circuit} {ctx₀ ctx : Context} {Sem : Operator → Operator → Prop}
  {done rest emitted inner ops : List Operator} {r : Rebuild} {op new d x : Operator}

/-- A distinct over such an operator rests. -/
theorem rests_distinct (hkind : d.kind = .distinct) (hinputs : d.inputs = [x])
    (hpull : isPullable x.kind) (h : inputsUnder? (·.isDistinct) x.inputs = none) : d.Rests := by
  unfold Operator.Rests
  rw [hkind, hinputs]
  exact List.forall_mem_singleton.2 ⟨isDistinct_of_isPullable hpull, fun _ => h⟩

/-- Below distincts that rest there are no distincts. -/
theorem inputsUnder?_inner (hrests : ∀ d ∈ ops, d.Rests)
    (hinner : inputsUnder? (·.isDistinct) ops = some inner) :
    inputsUnder? (·.isDistinct) inner = none := by
  have hforall := inputsUnder?_eq_some hinner
  cases hforall with
  | nil => rfl
  | @cons d i _ _ hd =>
    have hkind : d.kind = .distinct := by
      cases hk : d.kind <;> simp_all [OperatorKind.isDistinct]
    have hd' := hrests d List.mem_cons_self
    unfold Operator.Rests at hd'
    rw [hkind, hd.2] at hd'
    exact inputsUnder?_eq_none List.mem_cons_self (hd' i (by simp)).1

/-- What is emitted rests, when everything emitted before does. -/
theorem Visited.rests (hsound : Rebuild.Sound c ctx₀ Sem done done r ctx)
    (hc : c.WellFormed ctx₀) (hsplit : c.operators = done ++ op :: rest)
    (hrests : ∀ x ∈ r.result.operators, x.Rests) (h : Visited r op emitted new) :
    ∀ x ∈ emitted, x.Rests := by
  cases h with
  | kept _ hop' => exact List.forall_mem_singleton.2 hop'
  | collapsed => exact List.forall_mem_nil _
  | @stripped i copy _ inner hkind hi hpull hinner hcopy hinputs _ hover =>
    have hmem := (hsound.stands_input hc hsplit (i := i) (by simp [hi])).mem
    have hnone : inputsUnder? (·.isDistinct) inner = none := inputsUnder?_inner
      (fun d hd => hrests d (hsound.wellFormed.earlier.mem hmem hd)) hinner
    have hpull' : isPullable copy.kind := hcopy ▸ hpull
    refine List.forall_mem_cons.2 ⟨rests_of_inputs hpull' (hinputs ▸ hnone),
      List.forall_mem_singleton.2 ?_⟩
    exact rests_distinct (hover.kind.trans hkind) hover.inputs hpull' (hinputs ▸ hnone)
  | @pushed moved _ inner hpull hinner hover hnew hinputs =>
    have hnone : inputsUnder? (·.isDistinct) inner = none := inputsUnder?_inner
      (fun d hd => hrests d (hsound.readable_mappedInputs hc hsplit d hd).1) hinner
    have hpull' : isPullable moved.kind := hover.kind ▸ hpull
    refine List.forall_mem_cons.2 ⟨rests_of_inputs hpull' (hover.inputs ▸ hnone),
      List.forall_mem_singleton.2 ?_⟩
    exact rests_distinct hnew hinputs hpull' (hover.inputs ▸ hnone)

/-- An operator that rests is copied, when its inputs stand for themselves. -/
theorem visit_of_rests (hchecked : op.Checked) (hrests : op.Rests)
    (hmapped : ∀ i ∈ op.inputs, r.mapped i = i) : visit r op = r.copy op := by
  have hinputs : r.mappedInputs op = op.inputs := by
    rw [Rebuild.mappedInputs, List.map_congr_left hmapped, List.map_id']
  unfold visit
  unfold Operator.Rests at hrests
  split
  · rename_i hkind
    obtain ⟨i, hi, -⟩ := OperatorKind.Typed.keeps_inputs hchecked (by rw [hkind]; rfl)
    have hinput : op.input?.map r.mapped = some i := by
      rw [Operator.input?_eq_some.2 hi, Option.map_some, hmapped i (by simp [hi])]
    rw [hkind] at hrests
    obtain ⟨hdistinct, hnone⟩ := hrests i (by simp [hi])
    unfold visitDistinct
    rw [hinput]
    dsimp only
    rw [if_neg (by simp [hdistinct])]
    split
    · rfl
    · rename_i inner hsome
      obtain ⟨hpull, hsome⟩ := Option.ite_none_right_eq_some.1 hsome
      rw [hnone hpull] at hsome
      cases hsome
  · rename_i p hkind
    rw [hkind] at hrests
    rw [hinputs, hrests]
  · rename_i f hkind
    rw [hkind] at hrests
    rw [hinputs, hrests]
  · rfl

end DistinctElision

@[simp] theorem OperatorKind.isDistinct_simplified (kind : OperatorKind) :
    kind.simplified.isDistinct = kind.isDistinct := by cases kind <;> rfl

@[simp] theorem DistinctElision.isPullable_simplified (kind : OperatorKind) :
    isPullable kind.simplified = isPullable kind := by cases kind <;> rfl

/-- What stands for an operator is of its kind with the function simplified, over what stands for
its inputs; there is nothing else in the new circuit. -/
structure Rebuild.Mirrors (done : List Operator) (r : Rebuild) : Prop where
  kind : ∀ op ∈ done, (r.mapped op).kind = op.kind.simplified
  inputs : ∀ op ∈ done, (r.mapped op).inputs = op.inputs.map r.mapped
  members : ∀ x ∈ r.result.operators, ∃ op ∈ done, r.mapped op = x

section Mirrors

variable {c c' : Circuit} {ctx ctx' : Context} {fits : Literal → Ty → Prop}
  {Sem : Operator → Operator → Prop} {r : Rebuild} {op x : Operator}

theorem Functions.preserves_mirrors (hc : c.WellFormed ctx) :
    c.Preserves ctx Visited Rebuild.Mirrors := by
  intro Sem done op rest r ctx' emitted new hsplit hsound h hvisited
  have hold : ∀ x ∈ done, (r.turn op emitted new).mapped x = r.mapped x :=
    fun x hx => by rw [Rebuild.mapped_turn, if_neg (Rebuild.name_ne_of_mem hc hsplit hx)]
  have hreads : ∀ x ∈ done ++ [op], ∀ i ∈ x.inputs, i ∈ done := by
    refine List.forall_mem_append.2 ⟨fun x hx i hi => ?_, List.forall_mem_singleton.2 ?_⟩
    · obtain ⟨before, after, rfl⟩ := List.append_of_mem hx
      exact List.mem_append_left _
        (hc.earlier before x (after ++ op :: rest) (by simp [hsplit]) i hi)
    · exact hc.earlier done op rest hsplit
  have hmap : ∀ x ∈ done ++ [op],
      x.inputs.map r.mapped = x.inputs.map (r.turn op emitted new).mapped :=
    fun x hx => List.map_congr_left fun i hi => (hold i (hreads x hx i hi)).symm
  cases hvisited with
  | simplified hkind _ _ _ hinputs =>
    constructor
    case kind =>
      exact Rebuild.forall_mapped_turn (P := fun x x' => x'.kind = x.kind.simplified) hc hsplit
        h.kind hkind
    case inputs =>
      intro x hx
      rw [← hmap x hx]
      exact Rebuild.forall_mapped_turn (P := fun x x' => x'.inputs = x.inputs.map r.mapped) hc
        hsplit h.inputs hinputs x hx
    case members =>
      intro x hx
      rcases Rebuild.mem_turn.1 hx with hnew | hx
      · refine ⟨op, by simp, ?_⟩
        rw [Rebuild.mapped_turn, if_pos rfl, List.mem_singleton.1 hnew]
      · obtain ⟨y, hy, rfl⟩ := h.members x hx
        exact ⟨y, List.mem_append_left _ hy, hold y hy⟩

variable (h : r.Mirrors c.operators) (hc : c.WellFormed ctx)

include h hc

theorem Rebuild.Mirrors.feeds (hop : op ∈ c.operators) (hfeeds : x.Feeds op) :
    (r.mapped x).Feeds (r.mapped op) := by
  induction hfeeds with
  | self => exact .self
  | @input op i hi _ ih =>
    have hi' : r.mapped i ∈ (r.mapped op).inputs := by
      rw [h.inputs op hop]
      exact List.mem_map_of_mem hi
    exact .input hi' (ih (hc.earlier.mem hop hi))

/-- What stands for live operators is live. -/
theorem Rebuild.Mirrors.live (hmem : ∀ op ∈ c.operators, r.mapped op ∈ c'.operators)
    (hop : op ∈ c.operators) (hlive : c.Live op) : c'.Live (r.mapped op) := by
  refine hlive.imp (fun hsource => by simpa [h.kind op hop] using hsource) ?_
  rintro ⟨sink, hsink, hkind, hfeeds⟩
  exact ⟨r.mapped sink, hmem sink hsink, by simpa [h.kind sink hsink] using hkind,
    h.feeds hc hsink hfeeds⟩

theorem Rebuild.Mirrors.inputsUnder (hop : op ∈ c.operators)
    (hnone : inputsUnder? (·.isDistinct) op.inputs = none) :
    inputsUnder? (·.isDistinct) (r.mapped op).inputs = none := by
  have hmap : inputsUnder? (·.isDistinct) (op.inputs.map r.mapped) =
      (inputsUnder? (·.isDistinct) op.inputs).map (List.map r.mapped) :=
    inputsUnder?_map fun i hi =>
      ⟨by simp [h.kind i (hc.earlier.mem hop hi)], h.inputs i (hc.earlier.mem hop hi)⟩
  rw [h.inputs op hop, hmap, hnone, Option.map_none]

theorem Rebuild.Mirrors.rests (hop : op ∈ c.operators) (hrests : op.Rests) :
    (r.mapped op).Rests := by
  have hkind := h.kind op hop
  unfold Operator.Rests at hrests ⊢
  cases hk : op.kind with
  | distinct =>
    rw [hk] at hrests hkind
    rw [hkind, h.inputs op hop, List.forall_mem_map]
    intro i hi
    have hmem := hc.earlier.mem hop hi
    obtain ⟨hdistinct, hnone⟩ := hrests i hi
    refine ⟨by simpa [h.kind i hmem] using hdistinct, fun hpull => h.inputsUnder hc hmem (hnone ?_)⟩
    simpa [h.kind i hmem] using hpull
  | filter | join =>
    rw [hk] at hrests hkind
    rw [hkind]
    exact h.inputsUnder hc hop hrests
  | _ =>
    rw [hkind, hk]
    trivial

omit hc in
/-- Functions are settled after they were simplified. -/
theorem Rebuild.Mirrors.settled (hfits : Admits fits) (hop : op ∈ c.operators)
    (hregular : op.kind.Regular fits) {g : Expr} (hg : (r.mapped op).kind.function? = some g) :
    g.Settled := by
  rw [h.kind op hop] at hg
  cases hf : op.kind.function? with
  | none =>
    rw [OperatorKind.simplified_of_none hf, hf] at hg
    cases hg
  | some f =>
    rw [OperatorKind.simplified_of_some hf, OperatorKind.function?_withFunction, hf] at hg
    cases hg
    exact (hregular.simplify hfits hf).2.2

end Mirrors

/-- A function that is settled is kept. -/
theorem Functions.visit_of_settled {fits : Literal → Ty → Prop} {r : Rebuild} {op : Operator}
    (hregular : op.kind.Regular fits) (hsettled : ∀ f, op.kind.function? = some f → f.Settled)
    (ctx : Context) : visit r op ctx = r.copy op ctx := by
  unfold visit
  cases hf : op.kind.function? with
  | none => rfl
  | some f =>
    have hkept : f.simplify.changed = false := hsettled f hf
    dsimp only
    rw [run_bind, hregular.normalize hf ctx, hkept]
    rfl

namespace Circuit

variable {c : Circuit} {ctx : Context} {fits : Literal → Ty → Prop} {constants : Prop}

/-- There is nothing left to do for the default passes. -/
structure Final (c : Circuit) : Prop where
  rests : ∀ op ∈ c.operators, op.Rests
  live : ∀ op ∈ c.operators, c.Live op
  settled : ∀ op ∈ c.operators, ∀ f, op.kind.function? = some f → f.Settled

theorem Standard.ends_elideDistincts_rests (h : c.Standard fits constants ctx)
    (hwhole : ∀ op ∈ c.operators, op.kind.isWhole)
    (hrows : ∀ d ∈ c.operators, d.kind = .distinct → d.ty.zsetElement?.isSome) :
    Compile.Ends c.elideDistincts ctx fun c' ctx' =>
      c'.Standard fits constants ctx' ∧ ∀ op ∈ c'.operators, op.Rests := by
  have hkeeps : c.Preserves ctx DistinctElision.Visited
      (Rebuild.Keeps Operator.Rests fun _ _ => True) :=
    h.wellFormed.preserves_keeps fun Sem done op rest r ctx' emitted new hsplit hsound hmembers _
      hvisited => ⟨hvisited.rests hsound h.wellFormed hsplit hmembers, trivial⟩
  have hrests := h.wellFormed.ends_elideDistincts_inv (keeps_start c) hrows hkeeps
  exact ((h.ends_elideDistincts hwhole hrows).and hrests.yields).mono
    fun _ _ hnew => ⟨hnew.1.1, hnew.2.members⟩

theorem Standard.ends_normalizeFunctions_final (hfits : Admits fits)
    (h : c.Standard fits constants ctx) (hrests : ∀ op ∈ c.operators, op.Rests)
    (hlive : ∀ op ∈ c.operators, c.Live op) :
    Compile.Ends c.normalizeFunctions ctx fun c' ctx' =>
      c'.Standard fits constants ctx' ∧ c'.Final := by
  have hc := h.wellFormed
  have hregular : ∀ op ∈ c.operators, op.kind.Regular fits := fun op hop => (h.kinds op hop).regular
  have hstart : (Rebuild.start c).Mirrors [] :=
    ⟨List.forall_mem_nil _, List.forall_mem_nil _, List.forall_mem_nil _⟩
  have hmirrors := hc.ends_normalizeFunctions_inv hstart hfits hregular
    (Functions.preserves_mirrors hc)
  have hstandard := h.ends_apply hfits (p := .normalFunctions) nofun nofun
  refine (hstandard.and hmirrors.yields).mono fun c' ctx' hnew => ⟨hnew.1.1, ?_⟩
  obtain ⟨Sem, r, hsound, hmirrors, hops⟩ := hnew.2.steps
  have hmem : ∀ op ∈ c.operators, r.mapped op ∈ c'.operators :=
    fun op hop => hops ▸ (hsound.stands op hop).mem
  have hfrom : ∀ x ∈ c'.operators, ∃ op ∈ c.operators, r.mapped op = x := hops ▸ hmirrors.members
  constructor
  case rests =>
    intro x hx
    obtain ⟨op, hop, rfl⟩ := hfrom x hx
    exact hmirrors.rests hc hop (hrests op hop)
  case live =>
    intro x hx
    obtain ⟨op, hop, rfl⟩ := hfrom x hx
    exact hmirrors.live hc hmem hop (hlive op hop)
  case settled =>
    intro x hx f hf
    obtain ⟨op, hop, rfl⟩ := hfrom x hx
    exact hmirrors.settled hfits hop (hregular op hop) hf

/-- The default passes leave nothing to do. -/
theorem Standard.ends_default_final (hfits : Admits fits) (h : c.Standard fits constants ctx)
    (hwhole : ∀ op ∈ c.operators, op.kind.isWhole)
    (hrows : ∀ d ∈ c.operators, d.kind = .distinct → d.ty.zsetElement?.isSome) :
    Compile.Ends (c.optimize ({} : OptimizerConfig).pipeline) ctx fun out ctx' =>
      out.1.Standard fits constants ctx' ∧ out.1.Final := by
  let post (c' : Circuit) (ctx' : Context) : Prop := c'.Standard fits constants ctx' ∧ c'.Final
  change Compile.Ends (c.optimize [.distinctElision, .deadCode, .normalFunctions]) ctx _
  refine ends_optimize_cons post
    ((h.ends_elideDistincts_rests hwhole hrows).mono fun c₁ ctx₁ h₁ => ?_)
  refine ends_optimize_cons post
    ((h₁.1.ends_prune.and h₁.1.wellFormed.ends_pruned.yields).mono fun c₂ ctx₂ h₂ => ?_)
  have hrests : ∀ op ∈ c₂.operators, op.Rests := fun op hop => h₁.2 op (h₂.2.1.mem op hop)
  refine ends_optimize_cons post
    ((h₂.1.1.ends_normalizeFunctions_final hfits hrests h₂.2.2).mono fun c₃ ctx₃ h₃ => ?_)
  exact (Compile.ends_pure _).2 h₃

/-- Where there is nothing to move, every operator is kept. -/
theorem Assembled.elideDistincts_self (hc : c.Assembled ctx)
    (hrests : ∀ op ∈ c.operators, op.Rests) (ctx' : Context) :
    c.elideDistincts ctx' = (.ok c, ctx') := by
  have hrun : Compile.Ends c.elideDistincts ctx' fun c' ctx'' => c' = c ∧ ctx'' = ctx' :=
    hc.listed.ends_rebuild_self hc.earlier fun r hmapped op hop => by
      rw [DistinctElision.visit_of_rests (hc.checked op hop) (hrests op hop)
        fun i hi => hmapped i (hc.earlier.mem hop hi)]
  obtain ⟨_, _, hrun, rfl, rfl⟩ := hrun
  exact hrun

/-- Where there is nothing left to do, every default pass gives the circuit back. -/
theorem Final.ends_apply (hfinal : c.Final) (h : c.Standard fits constants ctx) :
    ∀ p ∈ ({} : OptimizerConfig).pipeline,
      Compile.Ends (p.apply c) ctx fun c' ctx' => c' = c ∧ ctx' = ctx := by
  have hc := h.wellFormed
  change ∀ p ∈ [Pass.distinctElision, .deadCode, .normalFunctions], _
  simp only [List.forall_mem_cons]
  refine ⟨?_, ?_, ?_, List.forall_mem_nil _⟩
  · exact ⟨c, ctx, hc.assembled.elideDistincts_self hfinal.rests ctx, rfl, rfl⟩
  · exact hc.ends_prune_self hfinal.live
  · exact hc.listed.ends_rebuild_self hc.earlier fun r _ op hop =>
      Functions.visit_of_settled (h.kinds op hop).regular (hfinal.settled op hop) ctx

/-- Passes that give the circuit back report that nothing changed. -/
theorem ends_optimize_self {ps : List Pass} (h : ∀ p ∈ ps,
      Compile.Ends (p.apply c) ctx fun c' ctx' => c' = c ∧ ctx' = ctx) :
    Compile.Ends (c.optimize ps) ctx fun out _ =>
      out = (c, ps.map fun p => ⟨p, c.size, c.size, false⟩) := by
  induction ps with
  | nil => exact (Compile.ends_pure _).2 rfl
  | cons p ps ih =>
    obtain ⟨hp, hps⟩ := List.forall_mem_cons.1 h
    rw [optimize, Compile.ends_bind]
    refine hp.mono fun next ctx' hnext => ?_
    obtain ⟨rfl, rfl⟩ := hnext
    dsimp only
    rw [Compile.ends_bind]
    refine (ih hps).mono fun out ctx'' hout => ?_
    rw [hout, Compile.ends_pure, List.map_cons, sameOperators, allSame_refl]
    rfl

end Circuit

namespace Plan

/-- On the circuit of a plan that went through the default passes, the same passes give the same
operators in the same order, and each reports that it changed nothing. -/
theorem default_passes_idempotent {p : Plan} {c : Circuit} {ctx ctx' : Context}
    (h : p.circuit ctx = (.ok c, ctx')) :
    Compile.Ends (c.optimize ({} : OptimizerConfig).pipeline) ctx' fun out ctx'' =>
      Compile.Ends (out.1.optimize ({} : OptimizerConfig).pipeline) ctx'' fun again _ =>
        again.1.sameOperators out.1 ∧ again.2 = ({} : OptimizerConfig).pipeline.map fun pass =>
          ⟨pass, out.1.size, out.1.size, false⟩ := by
  have himplements := implements_circuit admits_any (fun _ _ _ => trivial) h
  refine (himplements.standard.ends_default_final admits_any
    (fun op hop => (himplements.lowered op hop).whole)
    (fun d hd hkind => ((himplements.lowered d hd).distinct hkind).1)).mono fun out ctx'' hout => ?_
  refine (Circuit.ends_optimize_self (hout.2.ends_apply hout.1)).mono fun again _ hagain => ?_
  rw [hagain]
  exact ⟨Circuit.allSame_refl _, rfl⟩

theorem accounts_idempotent : ∃ c ctx, accounts.circuit Context.empty = (.ok c, ctx) ∧
    Compile.Ends (c.optimize ({} : OptimizerConfig).pipeline) ctx fun out ctx' =>
      Compile.Ends (out.1.optimize ({} : OptimizerConfig).pipeline) ctx' fun again _ =>
        again.1.sameOperators out.1 ∧ again.2 = ({} : OptimizerConfig).pipeline.map fun pass =>
          ⟨pass, out.1.size, out.1.size, false⟩ := by
  obtain ⟨c, ctx, h⟩ := lowers_accounts
  exact ⟨c, ctx, h, default_passes_idempotent h⟩

end Plan

end ViewCircuit
