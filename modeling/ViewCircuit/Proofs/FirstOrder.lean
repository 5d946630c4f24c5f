import ViewCircuit.Expr.Normal
import ViewCircuit.Proofs.Redex
import ViewCircuit.Proofs.Simplify

/-! Expressions without closures, blocks and matches. They compute data from data, and a reduction
finds nothing to do in them. -/
namespace ViewCircuit

open List (Forall₂)

/-- Variables, conditionals and nodes that combine the values of their parts. -/
inductive Plain : Expr → Prop
  | var {name : String} {ty : Ty} : Plain ⟨.var name, ty⟩
  | ite {condition yes no : Expr} {ty : Ty} : Plain condition → Plain yes → Plain no →
      Plain ⟨.ite condition yes no, ty⟩
  | head {e : Expr} {head : Head} {parts : List Expr} : e.form.head? = some (head, parts) →
      (∀ part ∈ parts, Plain part) → Plain e

section Data

variable {rt : Runtime} {ρ : Env} {k : Nat}

/-- Equal values without closures are built alike. -/
theorem structural_data : Structural fun v w => v = w ∧ v.isData where
  atom := by
    intro a w
    constructor
    · rintro ⟨rfl, -⟩
      rfl
    · rintro rfl
      exact ⟨rfl, rfl⟩
  node := by
    intro shape vs w
    constructor
    · rintro ⟨rfl, hdata⟩
      refine ⟨vs, rfl, List.forall₂_same.2 fun v hv => ⟨rfl, Val.allData_iff.1 hdata v hv⟩⟩
    · rintro ⟨ws, rfl, hws⟩
      induction hws with
      | nil => exact ⟨rfl, rfl⟩
      | cons hvw _ ih =>
        obtain ⟨hsame, hdata⟩ := ih
        obtain ⟨-, rfl⟩ := Val.node.inj hsame
        obtain ⟨rfl, hv⟩ := hvw
        exact ⟨rfl, Val.allData_iff.2 (List.forall_mem_cons.2 ⟨hv, Val.allData_iff.1 hdata⟩)⟩
  closure := by
    rintro _ _ _ _ _ ⟨-, hdata⟩
    cases hdata

/-- All variables have data as values. -/
def Env.IsData (ρ : Env) : Prop := ∀ x v, ρ.lookup x = some v → v.isData

theorem Plain.isData {e : Expr} (he : Plain e) (hρ : ρ.IsData) {v : Val}
    (hv : Evals rt ρ e v k) : v.isData := by
  induction he generalizing v k with
  | var => exact hρ _ v (evals_var.1 hv).1
  | ite _ _ _ _ ihyes ihno =>
    obtain ⟨b, l, m, -, hv, -⟩ := evals_ite.1 hv
    cases b with
    | true => exact ihyes hv
    | false => exact ihno hv
  | head hform _ ih =>
    obtain ⟨vs, hvs, hv⟩ := (evals_head hform).1 hv
    have hdata : ∀ u ∈ vs, u.isData := fun u hu => by
      obtain ⟨part, l, hpart, hu⟩ := hvs.mem hu
      exact ih part hpart hu
    obtain ⟨_, -, rfl, hw⟩ :=
      structural_data.combine (List.forall₂_same.2 fun u hu => ⟨rfl, hdata u hu⟩) hv
    exact hw

end Data

section Redexes

variable {e : Expr}

theorem Plain.every {P : Expr → Prop} (hP : ∀ x, Plain x → P x) (he : Plain e) : e.Every P := by
  induction he with
  | var => exact .intro (hP _ .var) nofun
  | ite hcondition hyes hno ihcondition ihyes ihno =>
    exact .intro (hP _ (.ite hcondition hyes hno)) (by simp [Form.parts, ihcondition, ihyes, ihno])
  | head hform hparts ih =>
    refine .intro (hP _ (.head hform hparts)) ?_
    rw [parts_of_head? hform]
    exact ih

theorem Plain.redexFree (he : Plain e) : e.RedexFree := by
  refine he.every fun x hx => ?_
  obtain _ | _ | ⟨hform, -⟩ := hx
  · rfl
  · rfl
  · exact Expr.isRedex_of_head? hform

theorem Plain.patternsSatisfy (he : Plain e) (Q : Literal → Prop) : e.PatternsSatisfy Q := by
  refine he.every fun x hx => ?_
  obtain _ | _ | ⟨hform, -⟩ := hx
  · simp [Expr.patternLiterals]
  · simp [Expr.patternLiterals]
  · simp [Expr.patternLiterals_of_head? hform]

theorem Plain.idle (he : Plain e) {fuel : Nat} (hfuel : e.depth ≤ fuel) :
    Reduce.Idle (Reduce.expr fuel) e :=
  Reduce.idle_of_redexFree he.redexFree (he.patternsSatisfy _) hfuel

end Redexes

/-- Normalizing what a reduction leaves as it is means simplifying it. -/
theorem normalize_of_idle {e : Expr} {ctx : Context}
    (h : Reduce.Idle (Reduce.expr (reductionFuel e)) e) :
    e.normalize ctx = (.ok ⟨e.simplify.value, e.simplify.changed, 0 + e.simplify.fired⟩, ctx) :=
  (Compile.bind_eq_ok _ _).2 ⟨_, _, Reduce.reduce_of_idle h ctx, rfl⟩

/-- Whether a literal has no parts. -/
def Literal.isSimple : Literal → Bool
  | .zset _ | .vec _ => false
  | _ => true

/-- The literal has a value, which belongs to the type. -/
def Literal.Fits (value : Literal) (t : Ty) : Prop := ∃ a, value.atom? t = some a ∧ a.Fits t

/-- Expressions without closures, blocks and matches in which every node has the type that its
constructor computes, every variable has the type of its binder, and every simple literal stands
under a type that `fits` allows. -/
inductive FirstOrder (fits : Literal → Ty → Prop) (Γ : TyEnv) : Expr → Prop
  | literal {value : Literal} {t : Ty} : value.isSimple → fits value t →
      FirstOrder fits Γ (Expr.literal value t)
  | zset {element : Ty} {rows : List (Expr × Int)} {e : Expr} :
      (∀ row ∈ rows, FirstOrder fits Γ row.1) → Expr.zset element rows = .ok e →
      FirstOrder fits Γ e
  | var {name : String} {t : Ty} : Γ.lookup name = some t → t.isAny = false →
      FirstOrder fits Γ (Expr.var name t)
  | field {base e : Expr} {index : Nat} : FirstOrder fits Γ base →
      Expr.field base index = .ok e → FirstOrder fits Γ e
  | deref {operand e : Expr} : FirstOrder fits Γ operand → Expr.deref operand = .ok e →
      FirstOrder fits Γ e
  | unary {op : UnaryOp} {operand e : Expr} : FirstOrder fits Γ operand →
      Expr.unary op operand = .ok e → FirstOrder fits Γ e
  | binary {op : BinaryOp} {left right e : Expr} : FirstOrder fits Γ left →
      FirstOrder fits Γ right → Expr.binary op left right = .ok e → FirstOrder fits Γ e
  | call {function : String} {args : List Expr} {result : Ty} :
      (∀ arg ∈ args, FirstOrder fits Γ arg) → FirstOrder fits Γ (Expr.call function args result)
  | tuple {fields : List Expr} : (∀ field ∈ fields, FirstOrder fits Γ field) →
      FirstOrder fits Γ (Expr.tuple fields)
  | rawTuple {fields : List Expr} : (∀ field ∈ fields, FirstOrder fits Γ field) →
      FirstOrder fits Γ (Expr.rawTuple fields)
  | some {operand e : Expr} : FirstOrder fits Γ operand → Expr.someOf operand = .ok e →
      FirstOrder fits Γ e
  | ite {condition yes no e : Expr} : FirstOrder fits Γ condition → FirstOrder fits Γ yes →
      FirstOrder fits Γ no → Expr.ite condition yes no = .ok e → FirstOrder fits Γ e
  | cast {operand : Expr} {ty : Ty} : FirstOrder fits Γ operand →
      FirstOrder fits Γ (Expr.cast operand ty)
  | isNull {operand : Expr} : FirstOrder fits Γ operand →
      FirstOrder fits Γ (Expr.isNull operand)

namespace FirstOrder

variable {fits : Literal → Ty → Prop} {Γ : TyEnv} {e : Expr}

theorem wellTyped (h : FirstOrder Literal.Fits Γ e) : WellTyped Γ e := by
  induction h with
  | literal _ hfits =>
    obtain ⟨a, ha, hfits⟩ := hfits
    exact .literal ha hfits
  | zset _ he ih => exact .zset ih he
  | var hname hany => exact .var hname hany
  | field _ he ih => exact .field ih he
  | deref _ he ih => exact .deref ih he
  | unary _ he ih => exact .unary ih he
  | binary _ _ he ihleft ihright => exact .binary ihleft ihright he
  | call _ ih => exact .call ih
  | tuple _ ih => exact .tuple ih
  | rawTuple _ ih => exact .rawTuple ih
  | some _ he ih => exact .some ih he
  | ite _ _ _ he ihcondition ihyes ihno => exact .ite ihcondition ihyes ihno he
  | cast _ ih => exact .cast ih
  | isNull _ ih => exact .isNull ih

theorem plain (h : FirstOrder fits Γ e) : Plain e := by
  have hone : ∀ {form : Form} {ty : Ty} {head : Head} {operand : Expr}, Plain operand →
      form.head? = Option.some (head, [operand]) → Plain ⟨form, ty⟩ :=
    fun hoperand hform => .head hform (by simpa using hoperand)
  induction h with
  | @literal value t hsimple hfits =>
    cases value with
    | zset | vec => cases hsimple
    | _ => exact .head rfl (by simp)
  | zset _ he ih =>
    obtain ⟨-, rfl⟩ := zset_eq_ok he
    exact .head rfl (List.forall_mem_map.2 ih)
  | var => exact .var
  | field _ he ih =>
    obtain ⟨_, -, rfl⟩ := field_eq_ok he
    exact hone ih rfl
  | deref _ he ih =>
    unfold Expr.deref at he
    split at he
    · cases he
      exact hone ih rfl
    · cases he
      exact hone ih rfl
    · cases he
  | unary _ he ih =>
    obtain ⟨-, rfl⟩ := unary_eq_ok he
    exact hone ih rfl
  | binary _ _ he ihleft ihright =>
    obtain ⟨_, -, rfl⟩ := binary_eq_ok he
    exact .head rfl (by simp [ihleft, ihright])
  | call _ ih | tuple _ ih | rawTuple _ ih => exact .head rfl ih
  | some _ he ih =>
    unfold Expr.someOf at he
    split at he
    · cases he
    · cases he
      exact hone ih rfl
  | ite _ _ _ he ihcondition ihyes ihno =>
    obtain ⟨-, -, rfl⟩ := ite_eq_ok he
    exact .ite ihcondition ihyes ihno
  | cast _ ih | isNull _ ih => exact hone ih rfl

end FirstOrder

/-- Functions without free variables and with a first-order body. -/
inductive Lambda (fits : Literal → Ty → Prop) : Expr → Prop
  | intro {params : List Param} {body : Expr} : (∀ p ∈ params, p.ty.isAny = false) →
      FirstOrder fits (params.map Param.entry).reverse body → Lambda fits (Expr.closure params body)

/-- Folds by such functions. -/
inductive Folding (fits : Literal → Ty → Prop) : Expr → Prop
  | intro {row : Ty} {zero step last e : Expr} : FirstOrder fits [] zero → Lambda fits step →
      Lambda fits last → Expr.fold row zero step last = .ok e → Folding fits e

/-- Literal collections of such rows. -/
inductive Listing (fits : Literal → Ty → Prop) : Expr → Prop
  | intro {element : Ty} {rows : List (Expr × Int)} {e : Expr} :
      (∀ row ∈ rows, FirstOrder fits [] row.1) → Expr.zset element rows = .ok e → Listing fits e

/-- Functions that put the row they get among what they make of it. -/
inductive Expr.KeepsRow : Expr → Prop
  | intro {p : Param} {parts : List Expr} {row tuple ty : Ty} : ⟨.deref p.var, row⟩ ∈ parts →
      KeepsRow ⟨.closure [p] ⟨.rawTuple parts, tuple⟩, ty⟩

/-- Operators that compute by such functions, folds and collections. Indexing loses no row. -/
def OperatorKind.Regular (fits : Literal → Ty → Prop) : OperatorKind → Prop
  | .map f | .filter f | .join f | .incrementalJoin f => Lambda fits f
  | .index f => Lambda fits f ∧ f.KeepsRow
  | .aggregate f | .windowAggregate _ f | .incrementalAggregate f => Folding fits f
  | .constant e => Listing fits e
  | _ => True

section Closed

variable {fits : Literal → Ty → Prop} {f : Expr}

theorem Lambda.wellTyped (h : Lambda Literal.Fits f) : WellTyped [] f := by
  obtain ⟨hparams, hbody⟩ := h
  refine .closure hparams ?_
  rw [List.append_nil]
  exact hbody.wellTyped

theorem Folding.wellTyped (h : Folding Literal.Fits f) : WellTyped [] f := by
  obtain ⟨hzero, hstep, hlast, hf⟩ := h
  exact .fold hzero.wellTyped hstep.wellTyped hlast.wellTyped hf

theorem Listing.firstOrder (h : Listing fits f) : FirstOrder fits [] f := by
  obtain ⟨hrows, hf⟩ := h
  exact .zset hrows hf

theorem Lambda.idle (h : Lambda fits f) {fuel : Nat} (hfuel : f.depth ≤ fuel) :
    Reduce.Idle (Reduce.expr fuel) f := by
  obtain ⟨-, hbody⟩ := h
  simp only [Expr.closure, Expr.depth] at hfuel
  obtain ⟨fuel, rfl⟩ := Nat.exists_eq_add_of_le' (Nat.le_of_add_left_le hfuel)
  exact fun s hs => Reduce.leaves_closure hs (hbody.plain.idle (by omega))

theorem Folding.idle (h : Folding fits f) {fuel : Nat} (hfuel : f.depth ≤ fuel) :
    Reduce.Idle (Reduce.expr fuel) f := by
  obtain ⟨hzero, hstep, hlast, hf⟩ := h
  obtain ⟨-, result, -, rfl⟩ := fold_eq_ok hf
  simp only [Expr.depth] at hfuel
  obtain ⟨fuel, rfl⟩ := Nat.exists_eq_add_of_le' (Nat.le_of_add_left_le hfuel)
  refine fun s hs => Reduce.node_of_leaves rfl fun part hpart => ?_
  simp only [List.mem_cons, List.not_mem_nil, or_false] at hpart
  rcases hpart with rfl | rfl | rfl
  · exact hzero.plain.idle (by omega) s hs
  · exact hstep.idle (by omega) s hs
  · exact hlast.idle (by omega) s hs

/-- A reduction finds nothing to do in the function of such an operator. -/
theorem OperatorKind.Regular.idle {kind : OperatorKind} (h : kind.Regular fits)
    (hf : kind.function? = some f) {fuel : Nat} (hfuel : f.depth ≤ fuel) :
    Reduce.Idle (Reduce.expr fuel) f := by
  cases kind with
  | map | filter | join | incrementalJoin =>
    obtain rfl := Option.some.inj hf
    exact Lambda.idle h hfuel
  | index =>
    obtain rfl := Option.some.inj hf
    exact h.1.idle hfuel
  | aggregate | windowAggregate | incrementalAggregate =>
    obtain rfl := Option.some.inj hf
    exact Folding.idle h hfuel
  | constant =>
    obtain rfl := Option.some.inj hf
    exact (Listing.firstOrder h).plain.idle hfuel
  | _ => cases hf

/-- Normalizing the function of such an operator is simplifying it. -/
theorem OperatorKind.Regular.normalize {kind : OperatorKind} (h : kind.Regular fits)
    (hf : kind.function? = some f) (ctx : Context) :
    f.normalize ctx =
      (.ok ⟨f.simplify.value, f.simplify.changed, 0 + f.simplify.fired⟩, ctx) :=
  normalize_of_idle (h.idle hf (Nat.le_add_right _ _))

end Closed

end ViewCircuit
