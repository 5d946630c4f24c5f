import Mathlib.Logic.Basic
import ViewCircuit.Operator.Build

/-! Runs of compilation steps, and what the constructors of operators make. Types of operators
depend on the types of their inputs only. -/
namespace ViewCircuit

/-- The rest goes on from where the first step ends, unless that is an error. -/
theorem run_bind {ε σ α β : Type} (act : ExceptT ε (StateM σ) α) (next : α → ExceptT ε (StateM σ) β)
    (s : σ) : (act >>= next) s = match act s with
      | (.ok a, mid) => next a mid
      | (.error e, mid) => (.error e, mid) := by
  change ExceptT.bindCont next (act s).1 (act s).2 = _
  rcases act s with ⟨_ | a, mid⟩ <;> rfl

/-- A sequence gives a result when its first step does and the rest goes on from there. -/
theorem run_bind_eq_ok {ε σ α β : Type} {s s' : σ} (act : ExceptT ε (StateM σ) α)
    (next : α → ExceptT ε (StateM σ) β) {b : β} : (act >>= next) s = (.ok b, s') ↔
      ∃ a mid, act s = (.ok a, mid) ∧ next a mid = (.ok b, s') := by
  rw [run_bind]
  rcases act s with ⟨_ | a, mid⟩
  · constructor
    · intro h
      cases h
    · rintro ⟨_, _, h, _⟩
      cases h
  · constructor
    · intro h
      exact ⟨a, mid, rfl, h⟩
    · rintro ⟨_, _, h, hb⟩
      cases h
      exact hb

theorem except_bind_eq_ok {ε α β : Type} {x : Except ε α} {f : α → Except ε β} {b : β} :
    (x >>= f) = .ok b ↔ ∃ a, x = .ok a ∧ f a = .ok b := by
  cases x with
  | error e =>
    constructor
    · rintro ⟨⟩
    · rintro ⟨a, ⟨⟩, -⟩
  | ok a =>
    constructor
    · intro h
      exact ⟨a, rfl, h⟩
    · rintro ⟨_, ⟨⟩, h⟩
      exact h

namespace Compile

variable {α β : Type}

/-- The step succeeds, and its result and the context it leaves have a property. -/
def Ends (act : Compile α) (ctx : Context) (post : α → Context → Prop) : Prop :=
  ∃ a ctx', act ctx = (.ok a, ctx') ∧ post a ctx'

variable {ctx ctx' : Context} {act : Compile α} {post post' : α → Context → Prop}

/-- A run without an error has a result. -/
theorem exists_of_isOk (h : (act ctx).1.isOk) : ∃ a ctx', act ctx = (.ok a, ctx') := by
  cases hrun : act ctx with
  | mk result ctx' =>
    rw [hrun] at h
    cases result with
    | error => cases h
    | ok a => exact ⟨a, ctx', rfl⟩

theorem ends_of_map {f : α → β} {b : β} (h : (act ctx).1.map f = .ok b) :
    Ends act ctx fun a _ => f a = b := by
  cases hrun : act ctx with
  | mk result ctx' =>
    rw [hrun] at h
    cases result with
    | error => cases h
    | ok a => exact ⟨a, ctx', hrun, Except.ok.inj h⟩

theorem Ends.mono (h : Ends act ctx post) (hpost : ∀ a ctx', post a ctx' → post' a ctx') :
    Ends act ctx post' := by
  obtain ⟨a, ctx', ha, hp⟩ := h
  exact ⟨a, ctx', ha, hpost a ctx' hp⟩

@[simp] theorem ends_pure (a : α) : Ends (pure a) ctx post ↔ post a ctx := by
  constructor
  · rintro ⟨_, _, h, hp⟩
    cases h
    exact hp
  · intro hp
    exact ⟨a, ctx, rfl, hp⟩

theorem bind_eq_ok (act : Compile α) (next : α → Compile β) {b : β} :
    (act >>= next) ctx = (.ok b, ctx') ↔
      ∃ a mid, act ctx = (.ok a, mid) ∧ next a mid = (.ok b, ctx') :=
  run_bind_eq_ok act next

@[simp] theorem ends_bind (act : Compile α) (next : α → Compile β) {post : β → Context → Prop} :
    Ends (act >>= next) ctx post ↔ Ends act ctx fun a mid => Ends (next a) mid post := by
  constructor
  · rintro ⟨b, ctx', h, hp⟩
    obtain ⟨a, mid, ha, hb⟩ := (bind_eq_ok act next).1 h
    exact ⟨a, mid, ha, b, ctx', hb, hp⟩
  · rintro ⟨a, mid, ha, b, ctx', hb, hp⟩
    exact ⟨b, ctx', (bind_eq_ok act next).2 ⟨a, mid, ha, hb⟩, hp⟩

theorem ofExcept_eq_ok {r : Except CompileError α} {a : α} :
    ofExcept r ctx = (.ok a, ctx') ↔ r = .ok a ∧ ctx' = ctx := by
  constructor
  · intro h
    cases h
    exact ⟨rfl, rfl⟩
  · rintro ⟨rfl, rfl⟩
    rfl

@[simp] theorem ends_ofExcept {r : Except CompileError α} :
    Ends (ofExcept r) ctx post ↔ ∃ a, r = .ok a ∧ post a ctx := by
  constructor
  · rintro ⟨a, ctx', h, hp⟩
    obtain ⟨hr, rfl⟩ := ofExcept_eq_ok.1 h
    exact ⟨a, hr, hp⟩
  · rintro ⟨a, hr, hp⟩
    exact ⟨a, ctx, ofExcept_eq_ok.2 ⟨hr, rfl⟩, hp⟩

/-- A run has one outcome, so what holds of it for each index holds for all at once. -/
theorem ends_forall {ι : Type*} [Nonempty ι] {post : ι → α → Context → Prop}
    (h : ∀ i, Ends act ctx (post i)) : Ends act ctx fun a ctx' => ∀ i, post i a ctx' := by
  obtain ⟨a, ctx', ha, _⟩ := h (Classical.choice ‹_›)
  refine ⟨a, ctx', ha, fun i => ?_⟩
  obtain ⟨b, ctx'', hb, hpost⟩ := h i
  obtain ⟨hab, rfl⟩ := Prod.mk.inj (ha.symm.trans hb)
  obtain rfl := Except.ok.inj hab
  exact hpost

/-- Whatever the step returns from a context, with the context it leaves, has a property. -/
def Yields (act : Compile α) (ctx : Context) (post : α → Context → Prop) : Prop :=
  ∀ a ctx', act ctx = (.ok a, ctx') → post a ctx'

theorem Ends.yields (h : Ends act ctx post) : Yields act ctx post := by
  intro a ctx' hrun
  obtain ⟨b, ctx₁, hrun', hpost⟩ := h
  cases hrun.symm.trans hrun'
  exact hpost

theorem Ends.and (h : Ends act ctx post) (h' : Yields act ctx post') :
    Ends act ctx fun a ctx' => post a ctx' ∧ post' a ctx' := by
  obtain ⟨a, ctx', hrun, hpost⟩ := h
  exact ⟨a, ctx', hrun, hpost, h' a ctx' hrun⟩

theorem yields_pure {a : α} (h : post a ctx) : Yields (pure a) ctx post := by
  intro b ctx' hrun
  cases hrun
  exact h

theorem yields_throw {e : CompileError} : Yields (throw e) ctx post := by
  intro a ctx' hrun
  cases hrun

theorem yields_ofExcept {r : Except CompileError α} (h : ∀ a, r = .ok a → post a ctx) :
    Yields (ofExcept r) ctx post := by
  intro a ctx' hrun
  obtain ⟨ha, rfl⟩ := ofExcept_eq_ok.1 hrun
  exact h a ha

theorem Yields.bind {next : α → Compile β} {post' : β → Context → Prop} (h : Yields act ctx post)
    (hnext : ∀ a mid, post a mid → Yields (next a) mid post') :
    Yields (act >>= next) ctx post' := by
  intro b ctx' hrun
  obtain ⟨a, mid, hact, hrun⟩ := (bind_eq_ok act next).1 hrun
  exact hnext a mid (h a mid hact) b ctx' hrun

/-- What holds of the elements done so far, kept by every step, holds at the end. -/
theorem Ends.foldlM {f : α → β → Compile α} (inv : List β → α → Context → Prop) (items : List β)
    (step : ∀ before b after a ctx, items = before ++ b :: after → inv before a ctx →
      Ends (f a b) ctx (inv (before ++ [b])))
    {a : α} (h : inv [] a ctx) : Ends (items.foldlM f a) ctx (inv items) := by
  suffices hrest : ∀ before rest a ctx, items = before ++ rest → inv before a ctx →
      Ends (rest.foldlM f a) ctx (inv items) from hrest [] items a ctx rfl h
  intro before rest
  induction rest generalizing before with
  | nil =>
    intro a ctx hitems hinv
    rw [List.append_nil] at hitems
    simpa [hitems] using hinv
  | cons b rest ih =>
    intro a ctx hitems hinv
    rw [List.foldlM_cons, ends_bind]
    exact (step before b rest a ctx hitems hinv).mono fun a' ctx' h' =>
      ih (before ++ [b]) a' ctx' (by simpa using hitems) h'

end Compile

namespace Context

/-- The context after the number of a new operator was drawn. -/
def numbered (ctx : Context) : Context := { ctx with nextId := ctx.nextId + 1 }

/-- The context after a number and a stream name were drawn. -/
def extended (ctx : Context) : Context :=
  { names := (ctx.names.fresh "stream").2, nextId := ctx.nextId + 1 }

/-- How many stream names were drawn. -/
def streams (ctx : Context) : Nat := ctx.names.issued "stream"

@[simp] theorem streams_numbered (ctx : Context) : ctx.numbered.streams = ctx.streams := rfl
@[simp] theorem nextId_numbered (ctx : Context) : ctx.numbered.nextId = ctx.nextId + 1 := rfl
@[simp] theorem nextId_extended (ctx : Context) : ctx.extended.nextId = ctx.nextId + 1 := rfl
@[simp] theorem streams_extended (ctx : Context) : ctx.extended.streams = ctx.streams + 1 := by
  simp [extended, streams]

end Context

namespace OperatorKind

/-- Kinds that keep the type of their one input, whatever collection it is. -/
def keepsType : OperatorKind → Bool
  | .distinct | .negate | .noop | .integrate | .differentiate | .incrementalDistinct => true
  | _ => false

/-- The type of an operator over inputs of given types. -/
inductive Typed : OperatorKind → List Ty → Ty → Prop
  | source {table : String} {element : Ty} : Typed (.source table) [] (Ty.zset element)
  | sink {view : String} {t : Ty} : t.isCollection → Typed (.sink view) [t] t
  | map {f : Expr} {t param result : Ty} : Operator.rowParam t = .ok param →
      f.ty.functionParts? = some ([param], result) → Typed (.map f) [t] (Ty.zset result)
  | filter {f : Expr} {t element : Ty} : t.zsetElement? = some element →
      f.ty.functionParts? = some ([Ty.ref element], Ty.bool) → Typed (.filter f) [t] t
  | index {f : Expr} {t element key value : Ty} : t.zsetElement? = some element →
      f.ty.functionParts? = some ([Ty.ref element], Ty.rawTuple [key, value]) →
      Typed (.index f) [t] (Ty.indexedZSet key value)
  | join {f : Expr} {s t key x y result : Ty} : s.indexedParts? = some (key, x) →
      t.indexedParts? = some (key, y) →
      f.ty.functionParts? = some ([Ty.ref key, Ty.ref x, Ty.ref y], result) →
      Typed (.join f) [s, t] (Ty.zset result)
  | aggregate {f : Expr} {t key value acc result : Ty} : t.indexedParts? = some (key, value) →
      f.ty.kind = .user "Fold" [value, acc, result] →
      Typed (.aggregate f) [t] (Ty.indexedZSet key result)
  | windowAggregate {w f : Expr} {t key value acc result : Ty} : Operator.isRange w →
      t.indexedParts? = some (key, value) → f.ty.kind = .user "Fold" [value, acc, result] →
      Typed (.windowAggregate w f) [t] (Ty.indexedZSet key result)
  | keeps {kind : OperatorKind} {t : Ty} : kind.keepsType → t.isCollection → Typed kind [t] t
  | sum {n : Nat} {t : Ty} : t.isCollection → Typed .sum (List.replicate (n + 1) t) t
  | subtract {t : Ty} : t.isCollection → Typed .subtract [t, t] t
  | constant {e : Expr} : e.ty.isCollection → Typed (.constant e) [] e.ty
  | incrementalJoin {f : Expr} {ts : List Ty} {t : Ty} :
      Typed (.join f) ts t → Typed (.incrementalJoin f) ts t
  | incrementalAggregate {f : Expr} {ts : List Ty} {t : Ty} :
      Typed (.aggregate f) ts t → Typed (.incrementalAggregate f) ts t

theorem Typed.isCollection {kind : OperatorKind} {inputs : List Ty} {t : Ty}
    (h : kind.Typed inputs t) : t.isCollection := by
  induction h with
  | source | map | index | join | aggregate | windowAggregate => rfl
  | sink ht | keeps _ ht | sum ht | subtract ht | constant ht => exact ht
  | filter ht =>
    simp only [Ty.zsetElement?] at ht
    split at ht
    · rename_i hk
      simp [Ty.isCollection, hk]
    · cases ht
  | incrementalJoin _ ih | incrementalAggregate _ ih => exact ih

theorem Typed.source_inputs {table : String} {inputs : List Ty} {t : Ty}
    (h : (OperatorKind.source table).Typed inputs t) : inputs = [] := by
  cases h with
  | source => rfl
  | keeps hk => cases hk

theorem Typed.sink_inputs {view : String} {inputs : List Operator} {t : Ty}
    (h : (OperatorKind.sink view).Typed (inputs.map Operator.ty) t) : ∃ i, inputs = [i] := by
  generalize hts : inputs.map Operator.ty = ts at h
  cases h with
  | sink => exact List.map_eq_singleton_iff.1 hts |>.imp fun _ h => h.1
  | keeps hk => cases hk

theorem Typed.keeps_inputs {kind : OperatorKind} {inputs : List Operator} {t : Ty}
    (h : kind.Typed (inputs.map Operator.ty) t) (hk : kind.keepsType) :
    ∃ i, inputs = [i] ∧ i.ty = t := by
  generalize hts : inputs.map Operator.ty = ts at h
  cases h with
  | keeps =>
    obtain ⟨i, rfl, hi⟩ := List.map_eq_singleton_iff.1 hts
    exact ⟨i, rfl, hi⟩
  | _ => cases hk

theorem Typed.aggregate_inputs {f : Expr} {inputs : List Operator} {t : Ty}
    (h : (OperatorKind.aggregate f).Typed (inputs.map Operator.ty) t) : ∃ i, inputs = [i] := by
  generalize hts : inputs.map Operator.ty = ts at h
  cases h with
  | aggregate => exact List.map_eq_singleton_iff.1 hts |>.imp fun _ h => h.1
  | keeps hk => cases hk

theorem Typed.join_inputs {f : Expr} {inputs : List Operator} {t : Ty}
    (h : (OperatorKind.join f).Typed (inputs.map Operator.ty) t) : ∃ l r, inputs = [l, r] := by
  generalize hts : inputs.map Operator.ty = ts at h
  cases h with
  | join =>
    match inputs, hts with
    | [l, r], _ => exact ⟨l, r, rfl⟩
  | keeps hk => cases hk

theorem Typed.join_indexed {f : Expr} {inputs : List Ty} {t : Ty}
    (h : (OperatorKind.join f).Typed inputs t) : ∀ s ∈ inputs, s.indexedParts?.isSome := by
  cases h with
  | join hs ht => simp [hs, ht]
  | keeps hk => cases hk

theorem Typed.filter_rows {p : Expr} {inputs : List Ty} {t : Ty}
    (h : (OperatorKind.filter p).Typed inputs t) : t.zsetElement?.isSome := by
  cases h with
  | filter ht => simp [ht]
  | keeps hk => cases hk

theorem Typed.filter_inputs {p : Expr} {inputs : List Operator} {t : Ty}
    (h : (OperatorKind.filter p).Typed (inputs.map Operator.ty) t) : ∃ i, inputs = [i] := by
  generalize hts : inputs.map Operator.ty = ts at h
  cases h with
  | filter => exact List.map_eq_singleton_iff.1 hts |>.imp fun _ h => h.1
  | keeps hk => cases hk

theorem Typed.integrate_ty {s t : Ty} (h : OperatorKind.integrate.Typed [s] t) : s = t := by
  cases h
  rfl

/-- How an operator over inputs with these marks is marked. A table is marked as it is declared. -/
def mark? (kind : OperatorKind) (inputs : List Bool) : Option Bool :=
  match kind with
  | .source _ => none
  | .sink _ | .filter _ | .index _ | .negate | .noop | .integrate => some (inputs.any id)
  | .distinct | .aggregate _ | .windowAggregate .. | .incrementalAggregate _ => some false
  | .map _ | .join _ | .sum | .subtract | .constant _ | .differentiate | .incrementalDistinct
  | .incrementalJoin _ => some true

end OperatorKind

namespace Operator

theorem input?_eq_some {op i : Operator} : op.input? = some i ↔ op.inputs = [i] := by
  unfold input?
  split
  · rename_i j hj
    simp [hj]
  · rename_i hne
    simpa using hne i

/-- The operator fits its inputs as its constructor requires. -/
def Checked (op : Operator) : Prop := op.kind.Typed (op.inputs.map Operator.ty) op.ty

theorem Checked.isCollection {op : Operator} (h : op.Checked) : op.ty.isCollection :=
  OperatorKind.Typed.isCollection h

/-- The operator is marked as its constructor marks it. -/
def Marked (op : Operator) : Prop :=
  ∀ b ∈ op.kind.mark? (op.inputs.map Operator.isMultiset), op.isMultiset = b

/-- A node that was just numbered and named. -/
structure New (ctx : Context) (op : Operator) (ctx' : Context) : Prop where
  id : op.id = ctx.nextId
  name : op.name = Names.nth "stream" ctx.streams
  context : ctx' = ctx.extended

/-- A new node of the given kind, inputs and type. -/
structure Made (kind : OperatorKind) (inputs : List Operator) (ty : Ty) (ctx : Context)
    (op : Operator) (ctx' : Context) : Prop extends op.New ctx ctx' where
  kind : op.kind = kind
  inputs : op.inputs = inputs
  ty : op.ty = ty

theorem ends_make {kind : OperatorKind} {inputs : List Operator} {ty : Ty} {isMultiset : Bool}
    {ctx : Context} : Compile.Ends (make kind inputs ty isMultiset) ctx (Made kind inputs ty ctx) :=
  ⟨_, _, rfl, ⟨rfl, rfl, rfl⟩, rfl, rfl, rfl⟩

section Made

variable {kind : OperatorKind} {inputs : List Operator} {ty : Ty} {ctx ctx' : Context}
  {op left right : Operator}

theorem Made.checked (h : Made kind inputs ty ctx op ctx')
    (ht : kind.Typed (inputs.map Operator.ty) ty) : op.Checked := by
  unfold Checked
  rwa [h.kind, h.inputs, h.ty]

theorem made_of_make {isMultiset : Bool} (h : make kind inputs ty isMultiset ctx = (.ok op, ctx')) :
    Made kind inputs ty ctx op ctx' := by
  cases h
  exact ⟨⟨rfl, rfl, rfl⟩, rfl, rfl, rfl⟩

theorem made_of_unary {isMultiset : Bool} {input : Operator}
    (h : unary kind input isMultiset ctx = (.ok op, ctx')) :
    Made kind [input] input.ty ctx op ctx' ∧ input.ty.isCollection := by
  unfold unary at h
  split at h
  · exact ⟨made_of_make h, ‹_›⟩
  · cases h

theorem isMultiset_of_unary {isMultiset : Bool} {input : Operator}
    (h : unary kind input isMultiset ctx = (.ok op, ctx')) : op.isMultiset = isMultiset := by
  unfold unary at h
  split at h
  · cases h
    rfl
  · cases h

theorem ends_unary {isMultiset : Bool} (ht : op.ty.isCollection) :
    Compile.Ends (unary kind op isMultiset) ctx (Made kind [op] op.ty ctx) := by
  unfold unary
  rw [if_pos ht]
  exact ends_make

theorem checkClosure_eq_ok {operation : String} {f : Expr} {params : List Ty} {result : Ty}
    (h : f.ty.functionParts? = some (params, result)) :
    checkClosure operation f params = .ok result := by
  have hfind : (params.zip params).find? (fun p => !p.1.same p.2) = none := by
    rw [List.find?_eq_none]
    intro p hp
    obtain ⟨i, hi, rfl⟩ := List.mem_iff_getElem.1 hp
    simp [(Ty.same_iff _ _).2 rfl]
  unfold checkClosure
  rw [h]
  simp [hfind]

theorem joinType_eq_ok {operation : String} {f : Expr}
    (h : (OperatorKind.join f).Typed [left.ty, right.ty] ty) :
    joinType operation left right f = .ok ty := by
  cases h with
  | join hl hr hf =>
    unfold joinType expectIndexed
    rw [hl, hr]
    simp [bind, Except.bind, (Ty.same_iff _ _).2 rfl, checkClosure_eq_ok hf, pure, Except.pure]

theorem aggregateType_eq_ok {operation : String} {f : Expr}
    (h : (OperatorKind.aggregate f).Typed [op.ty] ty) : aggregateType operation op f = .ok ty := by
  cases h with
  | aggregate ht hf =>
    unfold aggregateType expectIndexed foldParts
    rw [ht, hf]
    simp [bind, Except.bind, (Ty.same_iff _ _).2 rfl, pure, Except.pure]
  | keeps hk => cases hk

theorem ends_incrementalJoin {f : Expr} (h : (OperatorKind.join f).Typed [left.ty, right.ty] ty) :
    Compile.Ends (incrementalJoin left right f) ctx
      (Made (.incrementalJoin f) [left, right] ty ctx) := by
  unfold incrementalJoin
  rw [Compile.ends_bind, Compile.ends_ofExcept, joinType_eq_ok h]
  exact ⟨ty, rfl, ends_make⟩

theorem ends_incrementalAggregate {f : Expr} (h : (OperatorKind.aggregate f).Typed [op.ty] ty) :
    Compile.Ends (incrementalAggregate op f) ctx
      (Made (.incrementalAggregate f) [op] ty ctx) := by
  unfold incrementalAggregate
  rw [Compile.ends_bind, Compile.ends_ofExcept, aggregateType_eq_ok h]
  exact ⟨ty, rfl, ends_make⟩

end Made

/-- Whatever the step makes is of the given kind over the given inputs, fits them and is marked as
they are. -/
def Makes (make : Compile Operator) (kind : OperatorKind) (inputs : List Operator) : Prop :=
  ∀ ctx op ctx', make ctx = (.ok op, ctx') →
    ∃ ty, Made kind inputs ty ctx op ctx' ∧ kind.Typed (inputs.map Operator.ty) ty ∧ op.Marked

section Makes

variable {f : Expr} {input left right : Operator} {operation : String}

theorem makes_make {kind : OperatorKind} {inputs : List Operator} {ty : Ty} {isMultiset : Bool}
    (h : kind.Typed (inputs.map Operator.ty) ty)
    (hmark : ∀ b ∈ kind.mark? (inputs.map Operator.isMultiset), isMultiset = b) :
    Makes (make kind inputs ty isMultiset) kind inputs := by
  intro ctx op ctx' hmake
  refine ⟨ty, made_of_make hmake, h, ?_⟩
  cases hmake
  exact hmark

/-- A check comes before the operator is made. -/
theorem makes_bind {α : Type} {r : Except CompileError α} {next : α → Compile Operator}
    {kind : OperatorKind} {inputs : List Operator}
    (h : ∀ a, r = .ok a → Makes (next a) kind inputs) :
    Makes (do next (← Compile.ofExcept r)) kind inputs := by
  intro ctx op ctx' hrun
  obtain ⟨a, mid, hcheck, hmake⟩ := (Compile.bind_eq_ok _ _).1 hrun
  obtain ⟨ha, rfl⟩ := Compile.ofExcept_eq_ok.1 hcheck
  exact h a ha _ op ctx' hmake

theorem makes_source {table : String} {element : Ty} {isMultiset : Bool} :
    Makes (source table element isMultiset) (.source table) [] :=
  makes_make .source nofun

theorem makes_sink {view : String} (h : input.ty.isCollection) :
    Makes (sink view input) (.sink view) [input] :=
  makes_make (.sink h) (by simp [OperatorKind.mark?])

theorem functionParts?_of_checkClosure {params : List Ty} {result : Ty}
    (h : checkClosure operation f params = .ok result) :
    f.ty.functionParts? = some (params, result) := by
  unfold checkClosure at h
  split at h
  · cases h
  · rename_i declared result' hparts
    split at h
    · cases h
    · rename_i hlength
      split at h
      · cases h
      · rename_i hfind
        cases h
        rw [hparts]
        congr 2
        refine List.ext_getElem (not_not.1 hlength) fun i hi hi' => ?_
        have hmem : (declared[i], params[i]) ∈ declared.zip params :=
          List.mem_iff_getElem.2 ⟨i, by rw [List.length_zip]; omega, by simp⟩
        have hsame := List.find?_eq_none.1 hfind _ hmem
        exact (Ty.same_iff _ _).1 (by simpa using hsame)

theorem makes_map : Makes (map input f) (.map f) [input] := by
  refine makes_bind fun param hparam => makes_bind fun result hresult =>
    makes_make ?_ (by simp [OperatorKind.mark?])
  exact .map hparam (functionParts?_of_checkClosure hresult)

theorem zsetElement?_of_expectZSet {element : Ty} (h : expectZSet operation input = .ok element) :
    input.ty.zsetElement? = some element := by
  unfold expectZSet at h
  split at h
  · cases h
    assumption
  · cases h

theorem makes_filter : Makes (filter input f) (.filter f) [input] := by
  refine makes_bind fun element helement => makes_bind fun result hresult => ?_
  by_cases hbool : result.same Ty.bool
  · obtain rfl := (Ty.same_iff _ _).1 hbool
    simp only [hbool, Bool.not_true, Bool.false_eq_true, if_false]
    refine makes_make ?_ (by simp [OperatorKind.mark?])
    exact .filter (zsetElement?_of_expectZSet helement) (functionParts?_of_checkClosure hresult)
  · intro ctx op ctx' hmake
    simp only [hbool, Bool.not_false, if_true] at hmake
    cases hmake

theorem makes_index : Makes (index input f) (.index f) [input] := by
  refine makes_bind fun element helement => makes_bind fun result hresult =>
    makes_bind fun ty hty => makes_make ?_ (by simp [OperatorKind.mark?])
  unfold pairType at hty
  split at hty
  · cases hty
    exact .index (zsetElement?_of_expectZSet helement) (functionParts?_of_checkClosure hresult)
  · cases hty

theorem indexedParts?_of_expectIndexed {parts : Ty × Ty}
    (h : expectIndexed operation input = .ok parts) : input.ty.indexedParts? = some parts := by
  unfold expectIndexed at h
  split at h
  · cases h
    assumption
  · cases h

theorem typed_of_joinType {ty : Ty} (h : joinType operation left right f = .ok ty) :
    (OperatorKind.join f).Typed [left.ty, right.ty] ty := by
  obtain ⟨⟨leftKey, leftValue⟩, hleft, h⟩ := except_bind_eq_ok.1 h
  obtain ⟨⟨rightKey, rightValue⟩, hright, h⟩ := except_bind_eq_ok.1 h
  by_cases hkeys : leftKey.same rightKey
  · obtain rfl := (Ty.same_iff _ _).1 hkeys
    simp only [hkeys, Bool.not_true, Bool.false_eq_true, if_false] at h
    obtain ⟨result, hresult, h⟩ := except_bind_eq_ok.1 h
    cases h
    exact .join (indexedParts?_of_expectIndexed hleft) (indexedParts?_of_expectIndexed hright)
      (functionParts?_of_checkClosure hresult)
  · simp only [hkeys, Bool.not_false, if_true] at h
    cases h

theorem makes_join : Makes (join left right f) (.join f) [left, right] :=
  makes_bind fun _ hty => makes_make (typed_of_joinType hty) (by simp [OperatorKind.mark?])

theorem typed_of_aggregateType {ty : Ty} (h : aggregateType operation input f = .ok ty) :
    ∃ key value acc result, input.ty.indexedParts? = some (key, value) ∧
      f.ty.kind = .user "Fold" [value, acc, result] ∧ ty = Ty.indexedZSet key result := by
  obtain ⟨⟨key, value⟩, hparts, h⟩ := except_bind_eq_ok.1 h
  obtain ⟨⟨row, result⟩, hfold, h⟩ := except_bind_eq_ok.1 h
  by_cases hrow : row.same value
  · obtain rfl := (Ty.same_iff _ _).1 hrow
    simp only [hrow, if_true] at h
    cases h
    unfold foldParts at hfold
    split at hfold
    · cases hfold
      exact ⟨_, _, _, _, indexedParts?_of_expectIndexed hparts, by assumption, rfl⟩
    · cases hfold
  · simp only [hrow] at h
    cases h

theorem makes_aggregate : Makes (aggregate input f) (.aggregate f) [input] := by
  refine makes_bind fun ty hty => makes_make ?_ (by simp [OperatorKind.mark?])
  obtain ⟨key, value, acc, result, hparts, hfold, rfl⟩ := typed_of_aggregateType hty
  exact .aggregate hparts hfold

theorem makes_windowAggregate {window : Expr} :
    Makes (windowAggregate input window f) (.windowAggregate window f) [input] := by
  unfold windowAggregate
  by_cases hrange : isRange window
  · simp only [hrange, Bool.not_true, Bool.false_eq_true, if_false]
    refine makes_bind fun ty hty => makes_make ?_ (by simp [OperatorKind.mark?])
    obtain ⟨key, value, acc, result, hparts, hfold, rfl⟩ := typed_of_aggregateType hty
    exact .windowAggregate hrange hparts hfold
  · intro ctx op ctx' hmake
    simp only [hrange, Bool.not_false, if_true] at hmake
    cases hmake

theorem makes_unary {kind : OperatorKind} {isMultiset : Bool} (hkind : kind.keepsType)
    (hmark : kind.mark? [input.isMultiset] = some isMultiset) :
    Makes (unary kind input isMultiset) kind [input] := by
  unfold unary
  by_cases hty : input.ty.isCollection
  · rw [if_pos hty]
    exact makes_make (.keeps hkind hty) (by simp [hmark])
  · intro ctx op ctx' hmake
    rw [if_neg hty] at hmake
    cases hmake

theorem eq_of_commonType {inputs : List Operator} {ty : Ty}
    (h : commonType operation inputs = .ok ty) :
    ∃ n, inputs.map Operator.ty = List.replicate (n + 1) ty := by
  unfold commonType at h
  split at h
  · cases h
  · rename_i first rest
    split at h
    · cases h
    · rename_i hfind
      cases h
      refine ⟨rest.length, List.eq_replicate_iff.2 ⟨by simp, ?_⟩⟩
      simp only [List.map_cons, List.forall_mem_cons, true_and, List.forall_mem_map]
      intro i hi
      exact (Ty.same_iff _ _).1 (by simpa using List.find?_eq_none.1 hfind i hi)

theorem makes_sum {inputs : List Operator} (h : ∀ i ∈ inputs.head?, i.ty.isCollection) :
    Makes (sum inputs) .sum inputs := by
  refine makes_bind fun ty hty => makes_make ?_ (by simp [OperatorKind.mark?])
  obtain ⟨n, htys⟩ := eq_of_commonType hty
  rw [htys]
  refine .sum ?_
  cases inputs with
  | nil => cases htys
  | cons first rest =>
    obtain ⟨rfl, -⟩ := List.cons.inj htys
    exact h first rfl

theorem makes_subtract (h : left.ty.isCollection) :
    Makes (subtract left right) .subtract [left, right] := by
  refine makes_bind fun ty hty => makes_make ?_ (by simp [OperatorKind.mark?])
  obtain ⟨n, htys⟩ := eq_of_commonType hty
  obtain ⟨hleft, hright⟩ : left.ty = ty ∧ right.ty = ty := by
    have hall := (List.eq_replicate_iff.1 htys).2
    exact ⟨hall _ (by simp), hall _ (by simp)⟩
  rw [List.map_cons, List.map_singleton, hleft, hright]
  exact .subtract (hleft ▸ h)

theorem makes_constant : Makes (constant f) (.constant f) [] := by
  unfold constant
  by_cases hty : f.ty.isCollection
  · rw [if_pos hty]
    exact makes_make (.constant hty) (by simp [OperatorKind.mark?])
  · intro ctx op ctx' hmake
    rw [if_neg hty] at hmake
    cases hmake

theorem makes_incrementalJoin :
    Makes (incrementalJoin left right f) (.incrementalJoin f) [left, right] :=
  makes_bind fun _ hty => makes_make (.incrementalJoin (typed_of_joinType hty))
    (by simp [OperatorKind.mark?])

theorem makes_incrementalAggregate :
    Makes (incrementalAggregate input f) (.incrementalAggregate f) [input] := by
  refine makes_bind fun ty hty => makes_make ?_ (by simp [OperatorKind.mark?])
  obtain ⟨key, value, acc, result, hparts, hfold, rfl⟩ := typed_of_aggregateType hty
  exact .incrementalAggregate (.aggregate hparts hfold)

end Makes

end Operator
end ViewCircuit
