import ViewCircuit.Plan.Stream
import ViewCircuit.Proofs.Elision
import ViewCircuit.Proofs.Incremental
import ViewCircuit.Proofs.Scalar

/-! Steps that add operators to a circuit. Every step keeps the circuit well-formed and adds
interior operators of a few forms only; the rules below carry this through sequences of steps. -/
namespace ViewCircuit

namespace Lower

/-- A row as the key of its own, with the unit as value. -/
def rowKey (element : Ty) : Expr :=
  Expr.closure [rowParam element]
    (Expr.rawTuple [⟨.deref (rowParam element).var, element⟩, Expr.rawTuple []])

/-- The key of a join as its row. -/
def keyRow (element : Ty) : Expr :=
  Expr.closure [⟨"k", Ty.ref element⟩, ⟨"l", Ty.ref Ty.unit⟩, ⟨"r", Ty.ref Ty.unit⟩]
    ⟨.deref (Expr.var "k" (Ty.ref element)), element⟩

/-- One key for all rows. -/
def oneKey (element : Ty) : Expr :=
  Expr.closure [rowParam element]
    (Expr.rawTuple [Expr.tuple [], ⟨.deref (rowParam element).var, element⟩])

/-- The same row for all rows. -/
def fixedRow (element : Ty) (cells : List (Literal × Ty)) : Expr :=
  Expr.closure [rowParam element] (Expr.tuple (cells.map fun cell => Expr.literal cell.1 cell.2))

end Lower

namespace OperatorKind

/-- Operators without negative weights in what they put out, whatever they read. -/
def isUnsigned : OperatorKind → Bool
  | .source _ | .distinct | .aggregate _ | .windowAggregate .. => true
  | _ => false

def isConstant : OperatorKind → Bool
  | .constant _ => true
  | _ => false

end OperatorKind

namespace Operator

/-- Operators that put out no negative weights by the way they are built, although rows are taken
away below some of them. -/
inductive Positive : Operator → Prop
  | unsigned {op : Operator} : op.kind.isUnsigned → Positive op
  | keeps {op : Operator} : op.kind.keepsSign → (∀ i ∈ op.inputs, Positive i) → Positive op
  | constant {op : Operator} {rows : List (Expr × Int)} {ty : Ty} :
      op.kind = .constant ⟨.literal (.zset rows), ty⟩ → (∀ row ∈ rows, 0 ≤ row.2) → Positive op
  /-- The rows of one side of a join, less those that have a partner. -/
  | unmatched {op side kept left right set : Operator} {key l r : Ty} :
      op.kind = .subtract → op.inputs = [side, kept] → Positive side →
      kept.kind = .join (Lower.keyRow key) → kept.inputs = [left, right] →
      left.kind = .index (Lower.rowKey l) → left.inputs = [side] →
      right.kind = .index (Lower.rowKey r) → right.inputs = [set] →
      set.kind = .distinct → Positive op
  /-- At most one row, and a fixed row that is taken away once for it. -/
  | defaulted {op flat grouped indexed constant negated replaced : Operator} {f fold : Expr}
      {element rowType ty : Ty} {cells : List (Literal × Ty)} :
      op.kind = .sum → op.inputs = [flat, constant, negated] →
      flat.kind = .map f → flat.inputs = [grouped] → grouped.kind = .aggregate fold →
      grouped.inputs = [indexed] → indexed.kind = .index (Lower.oneKey element) →
      constant.kind = .constant ⟨.literal (.zset
        [(Expr.tuple (cells.map fun cell => Expr.literal cell.1 cell.2), 1)]), ty⟩ →
      negated.kind = .negate → negated.inputs = [replaced] →
      replaced.kind = .map (Lower.fixedRow rowType cells) → replaced.inputs = [flat] →
      (∀ cell ∈ cells, (cell.1.atom? cell.2).isSome) → Positive op

/-- What holds of every operator of a lowered circuit; `constants` says whether there may be
constant collections. -/
structure Lowered (fits : Literal → Ty → Prop) (constants : Prop) (op : Operator) : Prop where
  whole : op.kind.isWhole
  marked : op.Marked
  regular : op.kind.Regular fits
  constant : op.kind.isConstant → constants
  distinct : op.kind = .distinct →
    op.ty.zsetElement?.isSome ∧ ∀ i ∈ op.inputs, i.IsDifference ∨ i.Positive
  negations : ∀ i ∈ op.inputs, i.kind = .negate → op.kind = .sum

end Operator

namespace Circuit

/-- A member that is no sink. -/
def Offers (c : Circuit) (op : Operator) : Prop := op ∈ c.operators ∧ op.kind.isSink = false

/-- A member that may be read; what takes rows away is for sums only. -/
def Reads (c : Circuit) (op : Operator) : Prop := c.Offers op ∧ op.kind ≠ .negate

/-- A stream that stands for a relation. -/
structure Relation (c : Circuit) (op : Operator) : Prop where
  reads : c.Reads op
  rows : op.ty.zsetElement?.isSome
  positive : op.Positive

/-- The circuit gained interior operators. -/
structure Grows (c c' : Circuit) : Prop where
  sources : c'.sources = c.sources
  sinks : c'.sinks = c.sinks
  mem : ∀ op ∈ c.operators, op ∈ c'.operators

/-- The circuit is well-formed and all its operators are those of lowered plans. -/
structure Lowered (fits : Literal → Ty → Prop) (constants : Prop) (c : Circuit) (ctx : Context) :
    Prop where
  wellFormed : c.WellFormed ctx
  lowered : ∀ op ∈ c.operators, op.Lowered fits constants

variable {a b c : Circuit} {op : Operator}

theorem Grows.refl (c : Circuit) : c.Grows c := ⟨rfl, rfl, fun _ h => h⟩

theorem Grows.trans (hab : a.Grows b) (hbc : b.Grows c) : a.Grows c :=
  ⟨hbc.sources.trans hab.sources, hbc.sinks.trans hab.sinks, fun op h => hbc.mem op (hab.mem op h)⟩

theorem Offers.grows (h : a.Offers op) (hab : a.Grows b) : b.Offers op := ⟨hab.mem op h.1, h.2⟩

theorem Reads.grows (h : a.Reads op) (hab : a.Grows b) : b.Reads op := ⟨h.1.grows hab, h.2⟩

theorem Relation.grows (h : a.Relation op) (hab : a.Grows b) : b.Relation op :=
  ⟨h.reads.grows hab, h.rows, h.positive⟩

/-- A new operator over members can be added to a well-formed circuit. -/
theorem WellFormed.insert_new {ctx ctx' : Context} (hc : c.WellFormed ctx) (hnew : op.New ctx ctx')
    (hchecked : op.Checked) (hin : ∀ i ∈ op.inputs, c.Offers i) :
    (c.insert op).WellFormed ctx' ∧ c.add op = .ok (c.insert op) := by
  have hctx : ctx.Extends ctx' := hnew.context ▸ ctx.extends_extended
  have hfresh : op.name ∉ c.operators.map Operator.name := by
    intro hmem
    obtain ⟨x, hx, hname⟩ := List.mem_map.1 hmem
    obtain ⟨n, hn, hxname⟩ := hc.named x hx
    have := Names.nth_injective (hxname.symm.trans (hname.trans hnew.name))
    omega
  have hnamed : op.Named ctx' :=
    ⟨ctx.streams, by rw [hnew.context, Context.streams_extended]; omega, hnew.name⟩
  have hnodes : Operator.Distinguished ctx' (op :: c.operators) :=
    hc.nodes.cons hnew.id (by rw [hnew.context, Context.nextId_extended]; omega)
  refine ⟨(hc.mono hctx).insert hchecked (fun i hi => (hin i hi).1)
    (fun i hi => (hin i hi).2) hfresh hnamed hnodes, ?_⟩
  exact add_eq_ok_iff.2 ⟨fun i hi => List.mem_map_of_mem (hin i hi).1, hfresh, rfl⟩

/-- An operator over members of a lowered circuit can be added to it. -/
theorem Lowered.insert {fits : Literal → Ty → Prop} {constants : Prop} {ctx ctx' : Context}
    (hc : c.Lowered fits constants ctx) (hnew : op.New ctx ctx') (hchecked : op.Checked)
    (hin : ∀ i ∈ op.inputs, c.Offers i) (hlowered : op.Lowered fits constants) :
    (c.insert op).Lowered fits constants ctx' ∧ c.add op = .ok (c.insert op) := by
  obtain ⟨hwell, hadd⟩ := hc.wellFormed.insert_new hnew hchecked hin
  refine ⟨⟨hwell, fun x hx => ?_⟩, hadd⟩
  rcases mem_operators_insert.1 hx with rfl | hx
  · exact hlowered
  · exact hc.lowered x hx

theorem grows_insert (hsource : op.kind.isSource = false) (hsink : op.kind.isSink = false) :
    c.Grows (c.insert op) where
  sources := by simp [sources_insert, hsource]
  sinks := by simp [sinks_insert, hsink]
  mem x hx := mem_operators_insert.2 (.inr hx)

end Circuit

namespace Lower

variable {α β : Type}

/-- What the step returns has a property, and the circuit stays a lowered one that only gained
interior operators. -/
def Builds (fits : Literal → Ty → Prop) (constants : Prop) (act : Lower α) (c : Circuit)
    (post : α → Circuit → Prop) : Prop :=
  ∀ ctx a c' ctx', c.Lowered fits constants ctx → act c ctx = (.ok (a, c'), ctx') →
    c'.Lowered fits constants ctx' ∧ c.Grows c' ∧ post a c'

/-- The operator was added with a kind and inputs, and fits the inputs. -/
structure Emitted (kind : OperatorKind) (inputs : List Operator) (op : Operator) (c : Circuit) :
    Prop where
  offers : c.Offers op
  kind : op.kind = kind
  inputs : op.inputs = inputs
  checked : op.Checked

theorem Emitted.reads {kind : OperatorKind} {inputs : List Operator} {op : Operator} {c : Circuit}
    (h : Emitted kind inputs op c) (hkind : kind ≠ .negate) : c.Reads op :=
  ⟨h.offers, h.kind ▸ hkind⟩

variable {fits : Literal → Ty → Prop} {constants : Prop} {c : Circuit}
  {act : Lower α} {post mid : α → Circuit → Prop}

section Rules

theorem Builds.mono (h : Builds fits constants act c mid)
    (hpost : ∀ a c', c.Grows c' → mid a c' → post a c') : Builds fits constants act c post := by
  intro ctx a c' ctx' hc hrun
  obtain ⟨hc', hgrows, hmid⟩ := h ctx a c' ctx' hc hrun
  exact ⟨hc', hgrows, hpost a c' hgrows hmid⟩

theorem builds_pure {a : α} (h : post a c) : Builds fits constants (pure a) c post := by
  intro ctx a c' ctx' hc hrun
  cases hrun
  exact ⟨hc, Circuit.Grows.refl c, h⟩

theorem builds_throw {e : CompileError} : Builds fits constants (throw e) c post := by
  intro ctx a c' ctx' hc hrun
  cases hrun

theorem Builds.bind {next : α → Lower β} {post : β → Circuit → Prop}
    (h : Builds fits constants act c mid)
    (hnext : ∀ a c', c.Grows c' → mid a c' → Builds fits constants (next a) c' post) :
    Builds fits constants (act >>= next) c post := by
  intro ctx b c' ctx' hc hrun
  obtain ⟨⟨a, c₁⟩, ctx₁, hact, hrun⟩ := (run_bind_eq_ok (act c) fun p => next p.1 p.2).1 hrun
  obtain ⟨hc₁, hgrows, hmid⟩ := h ctx a c₁ ctx₁ hc hact
  obtain ⟨hc', hgrows', hpost⟩ := hnext a c₁ hgrows hmid ctx₁ b c' ctx' hc₁ hrun
  exact ⟨hc', hgrows.trans hgrows', hpost⟩

/-- Two first steps and what follows either. -/
theorem builds_ite_bind {p : Prop} [Decidable p] {act' : Lower α} {next : α → Lower β}
    {post : β → Circuit → Prop} (h : Builds fits constants act c mid)
    (h' : Builds fits constants act' c mid)
    (hnext : ∀ a c', c.Grows c' → mid a c' → Builds fits constants (next a) c' post) :
    Builds fits constants (if p then act >>= next else act' >>= next) c post := by
  split
  · exact h.bind hnext
  · exact h'.bind hnext

/-- A check leaves the circuit as it is. -/
theorem builds_check {r : Except CompileError α} (h : ∀ a, r = .ok a → post a c) :
    Builds fits constants (check r) c post := by
  intro ctx a c' ctx' hc hrun
  obtain ⟨a', ctx₁, hcheck, hpure⟩ :=
    (run_bind_eq_ok (Compile.ofExcept r) fun a => pure (a, c)).1 hrun
  obtain ⟨hr, rfl⟩ := Compile.ofExcept_eq_ok.1 hcheck
  cases hpure
  exact ⟨hc, Circuit.Grows.refl c, h _ hr⟩

theorem builds_checked {r : Except CompileError α} {next : α → Lower β}
    {post : β → Circuit → Prop} (h : ∀ a, r = .ok a → Builds fits constants (next a) c post) :
    Builds fits constants (check r >>= next) c post := by
  have hcheck : Builds fits constants (check r) c fun a c' => r = .ok a ∧ c' = c :=
    builds_check fun a ha => ⟨ha, rfl⟩
  refine hcheck.bind fun a c' _ ha => ?_
  obtain ⟨ha, rfl⟩ := ha
  exact h a ha

theorem emit_eq_ok {make : Compile Operator} {c c' : Circuit} {ctx ctx' : Context} {op : Operator}
    (h : emit make c ctx = (.ok (op, c'), ctx')) :
    make ctx = (.ok op, ctx') ∧ c.add op = .ok c' := by
  obtain ⟨⟨op₁, c₁⟩, ctx₁, hlift, hadd⟩ :=
    (run_bind_eq_ok (StateT.lift make c) fun p => (do
      set (← check ((← get).add p.1))
      return p.1 : Lower Operator) p.2).1 h
  obtain ⟨op₂, ctx₂, hmake, hpure⟩ := (run_bind_eq_ok make fun a => pure (a, c)).1 hlift
  cases hpure
  obtain ⟨⟨c₂, c₃⟩, ctx₃, hcheck, hset⟩ :=
    (run_bind_eq_ok (check (c.add op₁) c) fun p => (do
      set p.1
      return op₁ : Lower Operator) p.2).1 hadd
  obtain ⟨c₄, ctx₄, hadded, hpure⟩ :=
    (run_bind_eq_ok (Compile.ofExcept (c.add op₁)) fun a => pure (a, c)).1 hcheck
  obtain ⟨hcircuit, rfl⟩ := Compile.ofExcept_eq_ok.1 hadded
  cases hpure
  cases hset
  exact ⟨hmake, hcircuit⟩

/-- An interior operator is added over members. -/
theorem builds_emit {make : Compile Operator} {kind : OperatorKind} {inputs : List Operator}
    (hmakes : (∀ i ∈ inputs, i.ty.isCollection) → Operator.Makes make kind inputs)
    (hin : ∀ i ∈ inputs, c.Offers i) (hsource : kind.isSource = false)
    (hsink : kind.isSink = false)
    (hlowered : ∀ op : Operator, op.kind = kind → op.inputs = inputs → op.Checked → op.Marked →
      op.Lowered fits constants) :
    Builds fits constants (emit make) c (Emitted kind inputs) := by
  intro ctx op c' ctx' hc hrun
  obtain ⟨hmake, hadd⟩ := emit_eq_ok hrun
  have hcollections : ∀ i ∈ inputs, i.ty.isCollection :=
    fun i hi => (hc.wellFormed.checked i (hin i hi).1).isCollection
  obtain ⟨ty, hmade, htyped, hmarked⟩ := hmakes hcollections ctx op ctx' hmake
  have hchecked := hmade.checked htyped
  obtain ⟨hc', hadd'⟩ := hc.insert hmade.toNew hchecked (hmade.inputs ▸ hin)
    (hlowered op hmade.kind hmade.inputs hchecked hmarked)
  obtain rfl := Except.ok.inj (hadd'.symm.trans hadd)
  refine ⟨hc', Circuit.grows_insert (hmade.kind ▸ hsource) (hmade.kind ▸ hsink), ?_⟩
  exact ⟨⟨Circuit.mem_operators_insert.2 (.inl rfl), hmade.kind ▸ hsink⟩, hmade.kind,
    hmade.inputs, hchecked⟩

/-- Every step of a sequence returns something with a property that stays as the circuit grows. -/
theorem builds_mapM {f : α → Lower β} {post : β → Circuit → Prop}
    (hgrows : ∀ b c c', c.Grows c' → post b c → post b c') (xs : List α) {c : Circuit}
    (step : ∀ x ∈ xs, ∀ c', c.Grows c' → Builds fits constants (f x) c' post) :
    Builds fits constants (xs.mapM f) c fun ys c' => ∀ y ∈ ys, post y c' := by
  induction xs generalizing c with
  | nil => exact builds_pure nofun
  | cons x xs ih =>
    rw [List.mapM_cons]
    refine (step x List.mem_cons_self c (.refl c)).bind fun y c₁ h₁ hy => ?_
    refine (ih fun x' hx' c' h' => step x' (List.mem_cons_of_mem _ hx') c' (h₁.trans h')).bind
      fun ys c₂ h₂ hys => builds_pure ?_
    exact List.forall_mem_cons.2 ⟨hgrows y c₁ c₂ h₂ hy, hys⟩

theorem builds_foldlM {f : β → α → Lower β} {inv : β → Circuit → Prop} (xs : List α) {b : β}
    {c : Circuit} (hb : inv b c)
    (step : ∀ x ∈ xs, ∀ b c', c.Grows c' → inv b c' → Builds fits constants (f b x) c' inv) :
    Builds fits constants (xs.foldlM f b) c inv := by
  induction xs generalizing b c with
  | nil => exact builds_pure hb
  | cons x xs ih =>
    rw [List.foldlM_cons]
    refine (step x List.mem_cons_self b c (.refl c) hb).bind fun b₁ c₁ h₁ hb₁ => ?_
    exact ih hb₁ fun x' hx' b' c' h' => step x' (List.mem_cons_of_mem _ hx') b' c' (h₁.trans h')

end Rules

end Lower

end ViewCircuit
