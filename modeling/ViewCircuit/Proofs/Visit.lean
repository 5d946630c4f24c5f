import ViewCircuit.Pass
import ViewCircuit.Proofs.Elision
import ViewCircuit.Proofs.Incremental

/-! What one visit of each pass can do: the operators that it emits, and the one that stands for the
visited operator afterwards. Every invariant of a rebuild is derived from these. -/
namespace ViewCircuit

open List (Forall₂)

namespace Operator

/-- The operator over other inputs; the node itself over its own. -/
structure Over (op : Operator) (reads : List Operator) (op' : Operator) : Prop where
  kind : op'.kind = op.kind
  name : op'.name = op.name
  ty : op'.ty = op.ty
  isMultiset : op'.isMultiset = op.isMultiset
  inputs : op'.inputs = reads
  same : reads = op.inputs → op' = op

theorem yields_withInputs {ctx : Context} {op : Operator} {known inputs : List Operator}
    (hnodes : Distinguished ctx known) (hnew : ∀ i ∈ inputs, i ∈ known)
    (hold : ∀ i ∈ op.inputs, i ∈ known) :
    Compile.Yields (op.withInputs inputs) ctx fun op' _ => op.Over inputs op' := by
  have hcheck : Compile.Yields (Compile.ofExcept (op.checkInputs inputs)) ctx fun _ _ => True :=
    Compile.yields_ofExcept fun _ _ => trivial
  refine hcheck.bind fun _ mid _ => ?_
  split
  · rename_i hsame
    exact Compile.yields_pure
      ⟨rfl, rfl, rfl, rfl, (eq_of_allSame hnodes hnew hold hsame).symm, fun _ => rfl⟩
  · rename_i hsame
    intro op' ctx' hrun
    cases hrun
    refine ⟨rfl, rfl, rfl, rfl, rfl, fun heq => absurd ?_ hsame⟩
    rw [heq]
    exact Circuit.allSame_refl _

theorem yields_duplicate {ctx : Context} {op : Operator} {inputs : List Operator}
    (hty : inputs.map Operator.ty = op.inputs.map Operator.ty) :
    Compile.Yields (op.duplicate inputs) ctx fun copy ctx' =>
      Made op.kind inputs op.ty ctx copy ctx' ∧ copy.isMultiset = op.isMultiset := by
  intro copy ctx' hrun
  refine ⟨(ends_duplicate hty).yields copy ctx' hrun, ?_⟩
  obtain ⟨-, ctx₁, -, hrun⟩ := (Compile.bind_eq_ok _ _).1 hrun
  cases hrun
  rfl

end Operator

namespace Rebuild

/-- The rebuild after operators were emitted, with one standing for the visited operator. -/
def turn (r : Rebuild) (op : Operator) (emitted : List Operator) (new : Operator) : Rebuild :=
  (emitted.foldl extend r).replace op new

section Turn

variable {r r' : Rebuild} {op new x : Operator} {emitted : List Operator} {ctx : Context}

theorem mapped_foldl_extend (r : Rebuild) (x : Operator) (emitted : List Operator) :
    (emitted.foldl extend r).mapped x = r.mapped x := by
  induction emitted generalizing r with
  | nil => rfl
  | cons e emitted ih => rw [List.foldl_cons, ih, mapped_extend]

theorem mapped_turn : (r.turn op emitted new).mapped x =
    if x.name = op.name then new else r.mapped x := by
  rw [turn, mapped_replace, mapped_foldl_extend]

theorem mem_turn : x ∈ (r.turn op emitted new).result.operators ↔
    x ∈ emitted ∨ x ∈ r.result.operators := by
  change x ∈ (emitted.foldl extend r).result.operators ↔ _
  induction emitted generalizing r with
  | nil => simp
  | cons e emitted ih =>
    rw [List.foldl_cons, ih, List.mem_cons, extend, Circuit.mem_operators_insert, or_assoc,
      or_left_comm]

theorem sources_turn : (r.turn op emitted new).result.sources =
    r.result.sources ++ emitted.filter fun x => x.kind.isSource := by
  change (emitted.foldl extend r).result.sources = _
  induction emitted generalizing r with
  | nil => simp
  | cons e emitted ih =>
    rw [List.foldl_cons, ih, extend, Circuit.sources_insert, List.filter_cons]
    split <;> simp

theorem yields_emit : Compile.Yields (Compile.ofExcept (r.emit op)) ctx
    fun r' ctx' => r' = r.extend op ∧ ctx' = ctx := by
  refine Compile.yields_ofExcept fun r' hr' => ⟨?_, rfl⟩
  unfold emit at hr'
  obtain ⟨c, hadd, hr'⟩ := except_bind_eq_ok.1 hr'
  cases hr'
  rw [(Circuit.add_eq_ok_iff.1 hadd).2.2]
  rfl

theorem yields_emitAs : Compile.Yields (Compile.ofExcept (r.emitAs op new)) ctx
    fun r' _ => r' = (r.extend new).replace op new := by
  refine Compile.yields_ofExcept fun r' hr' => ?_
  obtain ⟨mid, hemit, hr'⟩ := except_bind_eq_ok.1 hr'
  cases hr'
  have hmid := yields_emit mid ctx (by rw [hemit]; rfl)
  rw [hmid.1]

end Turn

end Rebuild

/-- What a visit emitted, and what stands for the visited operator. -/
def Turns (Visited : List Operator → Operator → Prop) (r : Rebuild) (op : Operator)
    (r' : Rebuild) : Prop :=
  ∃ emitted new, Visited emitted new ∧ r' = r.turn op emitted new

section Visits

variable {c : Circuit} {ctx₀ ctx : Context} {Sem : Operator → Operator → Prop}
  {done rest : List Operator} {r : Rebuild} {op : Operator}
  (h : Rebuild.Sound c ctx₀ Sem done done r ctx) (hc : c.WellFormed ctx₀)
  (hsplit : c.operators = done ++ op :: rest)

include h hc hsplit

/-- The next operator over members of the rebuilt circuit. -/
theorem Rebuild.Sound.yields_withInputs {inputs : List Operator}
    (hin : ∀ i ∈ inputs, i ∈ r.result.operators) :
    Compile.Yields (op.withInputs inputs) ctx fun op' _ => op.Over inputs op' :=
  Operator.yields_withInputs h.nodes (fun i hi => List.mem_append_right _ (hin i hi))
    fun i hi => List.mem_append_left _ (hc.earlier.mem (by simp [hsplit]) hi)

theorem Rebuild.Sound.yields_rewire :
    Compile.Yields (r.rewire op) ctx fun op' _ => op.Over (r.mappedInputs op) op' :=
  h.yields_withInputs hc hsplit fun i hi => (h.readable_mappedInputs hc hsplit i hi).1

theorem Rebuild.Sound.yields_copy {Visited : List Operator → Operator → Prop}
    (hvisited : ∀ op', op.Over (r.mappedInputs op) op' → Visited [op'] op') :
    Compile.Yields (r.copy op) ctx fun r' _ => Turns Visited r op r' := by
  refine (h.yields_rewire hc hsplit).bind fun op' _ hover => ?_
  intro r' ctx' hrun
  exact ⟨[op'], op', hvisited op' hover, Rebuild.yields_emitAs r' ctx' hrun⟩

end Visits

namespace Operator

/-- Moving distincts leaves the operator as it is. -/
def Rests (op : Operator) : Prop :=
  match op.kind with
  | .distinct => ∀ i ∈ op.inputs, i.kind.isDistinct = false ∧
      (DistinctElision.isPullable i.kind → inputsUnder? (·.isDistinct) i.inputs = none)
  | .filter _ | .join _ => inputsUnder? (·.isDistinct) op.inputs = none
  | _ => True

end Operator

namespace DistinctElision

/-- A visit keeps an operator at which there is nothing to move, replaces a distinct by the distinct
below it, puts a distinct over a copy of what it reads, or moves a filter or join below. -/
inductive Visited (r : Rebuild) (op : Operator) : List Operator → Operator → Prop
  | kept {op' : Operator} : op.Over (r.mappedInputs op) op' → op'.Rests → Visited r op [op'] op'
  | collapsed {i : Operator} : op.kind = .distinct → op.inputs = [i] →
      (r.mapped i).kind.isDistinct → Visited r op [] (r.mapped i)
  | stripped {i copy op' : Operator} {inner : List Operator} : op.kind = .distinct →
      op.inputs = [i] → isPullable (r.mapped i).kind →
      inputsUnder? (·.isDistinct) (r.mapped i).inputs = some inner →
      copy.kind = (r.mapped i).kind → copy.inputs = inner →
      copy.isMultiset = (r.mapped i).isMultiset → op.Over [copy] op' →
      Visited r op [copy, op'] op'
  | pushed {moved new : Operator} {inner : List Operator} : isPullable op.kind →
      inputsUnder? (·.isDistinct) (r.mappedInputs op) = some inner → op.Over inner moved →
      new.kind = .distinct → new.inputs = [moved] → new.isMultiset = false →
      Visited r op [moved, new] new

variable {c : Circuit} {ctx₀ ctx : Context} {Sem : Operator → Operator → Prop}
  {done rest : List Operator} {r : Rebuild} {op : Operator}
  (h : Rebuild.Sound c ctx₀ Sem done done r ctx) (hc : c.WellFormed ctx₀)
  (hsplit : c.operators = done ++ op :: rest)

include h hc hsplit

theorem yields_visitDistinct (hkind : op.kind = .distinct) :
    Compile.Yields (visitDistinct r op) ctx fun r' _ => Turns (Visited r op) r op r' := by
  have hop : op ∈ c.operators := by simp [hsplit]
  obtain ⟨i, hi, -⟩ := OperatorKind.Typed.keeps_inputs (hc.checked op hop) (by rw [hkind]; rfl)
  have hinput : op.input?.map r.mapped = some (r.mapped i) := by
    rw [Operator.input?_eq_some.2 hi]
    rfl
  have hmapped : r.mappedInputs op = [r.mapped i] := by
    rw [Rebuild.mappedInputs, hi, List.map_singleton]
  have hkept : (r.mapped i).kind.isDistinct = false →
      (isPullable (r.mapped i).kind → inputsUnder? (·.isDistinct) (r.mapped i).inputs = none) →
      Compile.Yields (r.copy op) ctx fun r' _ => Turns (Visited r op) r op r' := by
    intro hdistinct hnone
    refine h.yields_copy hc hsplit fun op' hover => .kept hover ?_
    unfold Operator.Rests
    rw [hover.kind, hkind, hover.inputs, hmapped]
    exact List.forall_mem_singleton.2 ⟨hdistinct, hnone⟩
  unfold visitDistinct
  rw [hinput]
  dsimp only
  split
  · rename_i hdistinct
    exact Compile.yields_pure ⟨[], r.mapped i, .collapsed hkind hi hdistinct, rfl⟩
  rename_i hdistinct
  split
  · rename_i hnone
    refine hkept (by simpa using hdistinct) fun hpull => ?_
    rwa [if_pos hpull] at hnone
  · rename_i inner hsome
    obtain ⟨hpull, hsome⟩ := Option.ite_none_right_eq_some.1 hsome
    have hmem := (h.stands_input hc hsplit (i := i) (by simp [hi])).mem
    obtain ⟨hread, htys⟩ := h.toGrown.under_distinct
      (fun j hj => h.toGrown.readable_input hmem hj) (inputsUnder?_eq_some hsome)
    refine (Operator.yields_duplicate htys).bind fun copy ctx₁ hcopy => ?_
    obtain ⟨hmade, hmark⟩ := hcopy
    refine Rebuild.yields_emit.bind fun r₁ ctx₂ hr₁ => ?_
    obtain ⟨rfl, rfl⟩ := hr₁
    -- The copy has the next number, so it is none of the nodes that are known.
    have hnodes : Operator.Distinguished ctx₂ (copy :: (c.operators ++ r.result.operators)) :=
      h.nodes.cons hmade.id (by rw [hmade.context]; simp)
    refine (Operator.yields_withInputs hnodes (List.forall_mem_singleton.2 List.mem_cons_self)
      fun j hj => ?_).bind fun op' _ hover => ?_
    · exact List.mem_cons_of_mem _ (List.mem_append_left _ (hc.earlier.mem hop hj))
    · intro r' ctx' hrun
      exact ⟨[copy, op'], op', .stripped hkind hi hpull hsome hmade.kind hmade.inputs hmark hover,
        Rebuild.yields_emitAs r' ctx' hrun⟩

theorem yields_pushBelow {inner : List Operator} (hpull : isPullable op.kind)
    (hinner : inputsUnder? (·.isDistinct) (r.mappedInputs op) = some inner) :
    Compile.Yields (pushBelow r op inner) ctx fun r' _ => Turns (Visited r op) r op r' := by
  obtain ⟨hread, -⟩ := h.toGrown.under_distinct (h.readable_mappedInputs hc hsplit)
    (inputsUnder?_eq_some hinner)
  refine (h.yields_withInputs hc hsplit fun i hi => (hread i hi).1).bind fun moved ctx₁ hover => ?_
  refine Rebuild.yields_emit.bind fun r₁ ctx₂ hr₁ => ?_
  obtain ⟨rfl, rfl⟩ := hr₁
  intro r' ctx' hrun
  obtain ⟨new, ctx₃, hnew, hrun⟩ := (Compile.bind_eq_ok _ _).1 hrun
  obtain ⟨hmade, -⟩ := Operator.made_of_unary hnew
  exact ⟨[moved, new], new, .pushed hpull hinner hover hmade.kind hmade.inputs
    (Operator.isMultiset_of_unary hnew), Rebuild.yields_emitAs r' ctx' hrun⟩

theorem yields_visit :
    Compile.Yields (visit r op) ctx fun r' _ => Turns (Visited r op) r op r' := by
  have hkept : (∀ op' : Operator, op'.kind = op.kind → op'.inputs = r.mappedInputs op → op'.Rests) →
      Compile.Yields (r.copy op) ctx fun r' _ => Turns (Visited r op) r op r' :=
    fun hrests => h.yields_copy hc hsplit fun op' hover =>
      .kept hover (hrests op' hover.kind hover.inputs)
  unfold visit
  split
  · exact yields_visitDistinct h hc hsplit ‹_›
  · rename_i p hkind
    split
    · exact yields_pushBelow h hc hsplit (by rw [hkind]; rfl) ‹_›
    · refine hkept fun op' hkind' hinputs' => ?_
      unfold Operator.Rests
      rw [hkind', hkind, hinputs']
      assumption
  · rename_i f hkind
    split
    · exact yields_pushBelow h hc hsplit (by rw [hkind]; rfl) ‹_›
    · refine hkept fun op' hkind' hinputs' => ?_
      unfold Operator.Rests
      rw [hkind', hkind, hinputs']
      assumption
  · refine hkept fun op' hkind' _ => ?_
    unfold Operator.Rests
    rw [hkind']
    split
    · exact absurd ‹op.kind = .distinct› (by assumption)
    · exact absurd ‹op.kind = .filter _› (by simp_all)
    · exact absurd ‹op.kind = .join _› (by simp_all)
    · trivial

end DistinctElision

namespace Boundary

/-- A visit integrates a source, differentiates what a sink reads, and keeps all other operators. -/
inductive Visited (r : Rebuild) (op : Operator) : List Operator → Operator → Prop
  | source {integral : Operator} : op.kind.isSource → integral.kind = .integrate →
      integral.inputs = [op] → Visited r op [op, integral] integral
  | sink {op' : Operator} {deltas : List Operator} : op.kind.isSink →
      Forall₂ (fun delta i => delta.kind = .differentiate ∧ delta.inputs = [i]) deltas
        (r.mappedInputs op) → op.Over deltas op' → Visited r op (deltas ++ [op']) op'
  | kept {op' : Operator} : op.kind.isSource = false → op.kind.isSink = false →
      op.Over (r.mappedInputs op) op' → Visited r op [op'] op'

/-- The differences are emitted one after another, and are new nodes. -/
theorem yields_differences {r : Rebuild} {inputs known : List Operator} {ctx : Context}
    (hnodes : Operator.Distinguished ctx known) :
    Compile.Yields (differences r inputs) ctx fun out ctx' =>
      out.1 = out.2.foldl Rebuild.extend r ∧
      Forall₂ (fun delta i => delta.kind = .differentiate ∧ delta.inputs = [i]) out.2 inputs ∧
      Operator.Distinguished ctx' (out.2 ++ known) := by
  induction inputs generalizing r ctx known with
  | nil => exact Compile.yields_pure ⟨rfl, .nil, hnodes⟩
  | cons input inputs ih =>
    have hdelta : Compile.Yields (Operator.differentiate input) ctx
        (Operator.Made .differentiate [input] input.ty ctx) :=
      fun _ _ hrun => (Operator.made_of_unary hrun).1
    refine hdelta.bind fun delta ctx₁ hmade => ?_
    refine Rebuild.yields_emit.bind fun r₁ ctx₂ hr₁ => ?_
    obtain ⟨rfl, rfl⟩ := hr₁
    have hnodes' : Operator.Distinguished ctx₂ (delta :: known) :=
      hnodes.cons hmade.id (by rw [hmade.context]; simp)
    refine (ih hnodes').bind fun out ctx₃ hout => ?_
    obtain ⟨hresult, hdeltas, hknown⟩ := hout
    refine Compile.yields_pure ⟨hresult, .cons ⟨hmade.kind, hmade.inputs⟩ hdeltas,
      hknown.subset fun x hx => ?_⟩
    simp only [List.cons_append, List.mem_cons, List.mem_append] at hx ⊢
    tauto

variable {c : Circuit} {ctx₀ ctx : Context} {Sem : Operator → Operator → Prop}
  {done rest : List Operator} {r : Rebuild} {op : Operator}
  (h : Rebuild.Sound c ctx₀ Sem done done r ctx) (hc : c.WellFormed ctx₀)
  (hsplit : c.operators = done ++ op :: rest)

include h hc hsplit

theorem yields_visit :
    Compile.Yields (visit r op) ctx fun r' _ => Turns (Visited r op) r op r' := by
  unfold visit
  split
  · rename_i table hkind
    refine Rebuild.yields_emit.bind fun r₁ ctx₁ hr₁ => ?_
    obtain ⟨rfl, rfl⟩ := hr₁
    intro r' ctx' hrun
    obtain ⟨integral, ctx₂, hnew, hrun⟩ := (Compile.bind_eq_ok _ _).1 hrun
    obtain ⟨hmade, -⟩ := Operator.made_of_unary hnew
    exact ⟨[op, integral], integral, .source (by rw [hkind]; rfl) hmade.kind hmade.inputs,
      Rebuild.yields_emitAs r' ctx' hrun⟩
  · rename_i view hkind
    refine (yields_differences h.nodes).bind fun out ctx₁ hout => ?_
    obtain ⟨r₁, deltas⟩ := out
    dsimp only at hout ⊢
    obtain ⟨rfl, hdeltas, hnodes⟩ := hout
    refine (Operator.yields_withInputs hnodes (fun i hi => List.mem_append_left _ hi)
      fun i hi => ?_).bind fun op' _ hover => ?_
    · exact List.mem_append_right _
        (List.mem_append_left _ (hc.earlier.mem (by simp [hsplit]) hi))
    · intro r' ctx' hrun
      refine ⟨deltas ++ [op'], op', .sink (by rw [hkind]; rfl) hdeltas hover, ?_⟩
      rw [Rebuild.yields_emitAs r' ctx' hrun, Rebuild.turn, List.foldl_append]
      rfl
  · rename_i hsource hsink
    refine h.yields_copy hc hsplit fun op' hover => .kept ?_ ?_ hover
    · cases hk : op.kind <;> simp_all [OperatorKind.isSource]
    · cases hk : op.kind <;> simp_all [OperatorKind.isSink]

end Boundary

namespace Integral

/-- Kinds that can be moved below the integrals they read. -/
def isPushable : OperatorKind → Bool
  | .distinct | .aggregate _ | .windowAggregate .. | .join _ => true
  | kind => kind.isLinear

/-- The operator over changes whose integral stands for the visited one, and what is emitted
before it. -/
inductive Delta (r : Rebuild) (op : Operator) (deltas : List Operator) :
    List Operator → Operator → Prop
  | distinct {delta : Operator} : op.kind = .distinct → delta.kind = .incrementalDistinct →
      delta.inputs = r.mappedInputs op → Delta r op deltas [] delta
  | aggregate {delta : Operator} {fold : Expr} : op.kind = .aggregate fold →
      delta.kind = .incrementalAggregate fold → delta.inputs = r.mappedInputs op →
      Delta r op deltas [] delta
  | windowAggregate {whole delta : Operator} {window fold : Expr} :
      op.kind = .windowAggregate window fold → op.Over (r.mappedInputs op) whole →
      delta.kind = .differentiate → delta.inputs = [whole] → Delta r op deltas [whole] delta
  | join {delta : Operator} {f : Expr} : op.kind = .join f → delta.kind = .incrementalJoin f →
      delta.inputs = deltas → Delta r op deltas [] delta
  | linear {delta : Operator} : op.kind.isLinear → op.Over deltas delta → Delta r op deltas [] delta

/-- A visit moves an operator that reads integrals only below them, if it can. -/
inductive Visited (r : Rebuild) (op : Operator) : List Operator → Operator → Prop
  | kept {op' : Operator} : op.Over (r.mappedInputs op) op' →
      (isPushable op.kind → inputsUnder? (·.isIntegrate) (r.mappedInputs op) = none) →
      Visited r op [op'] op'
  | pushed {delta integral : Operator} {deltas before : List Operator} :
      inputsUnder? (·.isIntegrate) (r.mappedInputs op) = some deltas →
      Delta r op deltas before delta → integral.kind = .integrate → integral.inputs = [delta] →
      Visited r op (before ++ [delta, integral]) integral

theorem yields_emitIntegrated {r : Rebuild} {op delta : Operator} {ctx : Context} :
    Compile.Yields (emitIntegrated r op delta) ctx fun r' _ => ∃ integral : Operator,
      integral.kind = .integrate ∧ integral.inputs = [delta] ∧
        r' = r.turn op [delta, integral] integral := by
  refine Rebuild.yields_emit.bind fun r₁ ctx₁ hr₁ => ?_
  obtain ⟨rfl, rfl⟩ := hr₁
  intro r' ctx' hrun
  obtain ⟨integral, ctx₂, hnew, hrun⟩ := (Compile.bind_eq_ok _ _).1 hrun
  obtain ⟨hmade, -⟩ := Operator.made_of_unary hnew
  exact ⟨integral, hmade.kind, hmade.inputs, Rebuild.yields_emitAs r' ctx' hrun⟩

variable {c : Circuit} {ctx₀ ctx : Context} {Sem : Operator → Operator → Prop}
  {done rest : List Operator} {r : Rebuild} {op : Operator}

theorem yields_single {inputs : List Operator} :
    Compile.Yields (single inputs) ctx fun input _ => inputs = [input] := by
  unfold single
  split
  · exact Compile.yields_pure rfl
  · exact Compile.yields_throw

section Push

variable {deltas : List Operator}
  (hdeltas : inputsUnder? (·.isIntegrate) (r.mappedInputs op) = some deltas)

include hdeltas

/-- Emitting the operator over changes and its integral ends the visit. -/
theorem yields_pushed {make : Compile Operator} (hmake : Compile.Yields make ctx
      fun delta _ => Delta r op deltas [] delta) :
    Compile.Yields (do emitIntegrated r op (← make)) ctx
      fun r' _ => Turns (Visited r op) r op r' := by
  refine hmake.bind fun delta _ hdelta => ?_
  intro r' ctx' hrun
  obtain ⟨integral, hkind, hinputs, rfl⟩ := yields_emitIntegrated r' ctx' hrun
  exact ⟨[delta, integral], integral, .pushed hdeltas hdelta hkind hinputs, rfl⟩

variable (h : Rebuild.Sound c ctx₀ Sem done done r ctx) (hc : c.WellFormed ctx₀)
  (hsplit : c.operators = done ++ op :: rest)

include h hc hsplit

theorem yields_push :
    Compile.Yields (push r op (r.mappedInputs op) deltas) ctx
      fun r' _ => Turns (Visited r op) r op r' := by
  unfold push
  split
  · rename_i hkind
    refine yields_single.bind fun input _ hinput => yields_pushed hdeltas fun delta _ hdelta => ?_
    obtain ⟨hmade, -⟩ := Operator.made_of_unary hdelta
    exact .distinct hkind hmade.kind (hmade.inputs.trans hinput.symm)
  · rename_i fold hkind
    refine yields_single.bind fun input _ hinput => yields_pushed hdeltas fun delta _ hdelta => ?_
    obtain ⟨ty, _, -, hmake⟩ := (Compile.bind_eq_ok _ _).1 hdelta
    have hmade := Operator.made_of_make hmake
    exact .aggregate hkind hmade.kind (hmade.inputs.trans hinput.symm)
  · rename_i window fold hkind
    refine (h.yields_rewire hc hsplit).bind fun whole _ hwhole => ?_
    refine Rebuild.yields_emit.bind fun r₁ _ hr₁ => ?_
    obtain ⟨rfl, -⟩ := hr₁
    intro r' ctx' hrun
    obtain ⟨delta, _, hdelta, hrun⟩ := (Compile.bind_eq_ok _ _).1 hrun
    obtain ⟨hmade, -⟩ := Operator.made_of_unary hdelta
    obtain ⟨integral, hintegral, hinputs, rfl⟩ := yields_emitIntegrated r' ctx' hrun
    exact ⟨[whole, delta, integral], integral, .pushed hdeltas
      (.windowAggregate hkind hwhole hmade.kind hmade.inputs) hintegral hinputs, rfl⟩
  · rename_i f hkind
    split
    · refine yields_pushed hdeltas fun delta _ hdelta => ?_
      obtain ⟨ty, _, -, hmake⟩ := (Compile.bind_eq_ok _ _).1 hdelta
      have hmade := Operator.made_of_make hmake
      exact .join hkind hmade.kind hmade.inputs
    · exact Compile.yields_throw
  · split
    · rename_i hlinear
      obtain ⟨hread, -, -⟩ := h.toGrown.integrals (Nonempty.some inferInstance) (fun _ _ => 0)
        (h.readable_mappedInputs hc hsplit) (inputsUnder?_eq_some hdeltas)
      refine yields_pushed hdeltas fun delta ctx' hdelta => ?_
      exact .linear hlinear
        (h.yields_withInputs hc hsplit (fun i hi => (hread i hi).1) delta ctx' hdelta)
    · rename_i hlinear
      refine h.yields_copy hc hsplit fun op' hover => .kept hover fun hpush => ?_
      cases hk : op.kind <;> simp_all [isPushable]

end Push

variable (h : Rebuild.Sound c ctx₀ Sem done done r ctx) (hc : c.WellFormed ctx₀)
  (hsplit : c.operators = done ++ op :: rest)

include h hc hsplit

theorem yields_visit :
    Compile.Yields (visit r op) ctx fun r' _ => Turns (Visited r op) r op r' := by
  unfold visit
  dsimp only
  split
  · exact yields_push ‹_› h hc hsplit
  · exact h.yields_copy hc hsplit fun op' hover => .kept hover fun _ => ‹_›

end Integral

namespace Cancel

/-- A visit lets what was integrated stand for its difference, and keeps every other operator. -/
inductive Visited (r : Rebuild) (op : Operator) : List Operator → Operator → Prop
  | kept {op' : Operator} : op.Over (r.mappedInputs op) op' →
      (op.kind = .differentiate → ∀ i ∈ r.mappedInputs op, i.kind.isIntegrate = false) →
      Visited r op [op'] op'
  | cancelled {i inner : Operator} : op.kind = .differentiate → op.inputs = [i] →
      (r.mapped i).kind = .integrate → (r.mapped i).inputs = [inner] → Visited r op [] inner

variable {c : Circuit} {ctx₀ ctx : Context} {Sem : Operator → Operator → Prop}
  {done rest : List Operator} {r : Rebuild} {op : Operator}
  (h : Rebuild.Sound c ctx₀ Sem done done r ctx) (hc : c.WellFormed ctx₀)
  (hsplit : c.operators = done ++ op :: rest)

include h hc hsplit

theorem yields_visit :
    Compile.Yields (visit r op) ctx fun r' _ => Turns (Visited r op) r op r' := by
  have hop : op ∈ c.operators := by simp [hsplit]
  by_cases hkind : op.kind = .differentiate
  · obtain ⟨i, hi, -⟩ := OperatorKind.Typed.keeps_inputs (hc.checked op hop) (by rw [hkind]; rfl)
    have hmapped : r.mappedInputs op = [r.mapped i] := by
      rw [Rebuild.mappedInputs, hi, List.map_singleton]
    have hmem := (h.stands_input hc hsplit (i := i) (by simp [hi])).mem
    unfold visit
    rw [hkind, Operator.input?_eq_some.2 hi, Option.map_some]
    dsimp only
    split
    · rename_i inner hintegrate hinner
      exact Compile.yields_pure
        ⟨[], inner, .cancelled hkind hi hintegrate (Operator.input?_eq_some.1 hinner), rfl⟩
    · rename_i hne
      refine h.yields_copy hc hsplit fun op' hover => .kept hover fun _ => ?_
      rw [hmapped, List.forall_mem_singleton]
      cases hk : (r.mapped i).kind with
      | integrate =>
        obtain ⟨inner, hinner, -⟩ := OperatorKind.Typed.keeps_inputs
          (h.wellFormed.checked _ hmem) (by rw [hk]; rfl)
        exact absurd (Operator.input?_eq_some.2 hinner) (hne inner hk)
      | _ => rfl
  · have hcopy : visit r op = r.copy op := by
      unfold visit
      split
      · exact absurd ‹op.kind = .differentiate› hkind
      · rfl
    rw [hcopy]
    exact h.yields_copy hc hsplit fun op' hover => .kept hover fun hdiff => absurd hdiff hkind

end Cancel

end ViewCircuit
