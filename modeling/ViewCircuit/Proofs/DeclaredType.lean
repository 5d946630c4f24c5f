import ViewCircuit.Proofs.Functions
import ViewCircuit.Proofs.Normalized
import ViewCircuit.Proofs.SimplyTyped

/-! Normalizing keeps the declared type. What the constructors make is simply typed when no wildcard
occurs, and reduction keeps such types; of the simplifications only that of a NULL check has a type
of its own, which is the one of the check wherever reduction puts it. -/
namespace ViewCircuit

open Reduce

namespace Ty

mutual
/-- Whether the wildcard occurs in the type, at any depth. -/
def mentionsAny : Ty → Bool
  | ⟨kind, _⟩ => kindMentionsAny kind
def kindMentionsAny : Kind → Bool
  | .any => true
  | .tuple ts | .rawTuple ts | .user _ ts => someMentionsAny ts
  | .zset t | .vec t | .ref t => mentionsAny t
  | .indexedZSet key value => mentionsAny key || mentionsAny value
  | .struct _ fields => fieldMentionsAny fields
  | .function params result => someMentionsAny params || mentionsAny result
  | .bool | .integer _ | .float | .double | .decimal .. | .string | .date | .timestamp | .interval
  | .usize | .null => false
def someMentionsAny : List Ty → Bool
  | [] => false
  | t :: ts => mentionsAny t || someMentionsAny ts
def fieldMentionsAny : List (String × Ty) → Bool
  | [] => false
  | (_, t) :: fields => mentionsAny t || fieldMentionsAny fields
end

theorem isAny_of_mentionsAny {t : Ty} (h : t.mentionsAny = false) : t.isAny = false := by
  obtain ⟨kind, mayBeNull⟩ := t
  cases kind with
  | any => cases h
  | _ => rfl

theorem mentionsAny_of_mem {ts : List Ty} (h : someMentionsAny ts = false) :
    ∀ t ∈ ts, t.mentionsAny = false := by
  induction ts with
  | nil => exact nofun
  | cons t ts ih =>
    obtain ⟨ht, hts⟩ := Bool.or_eq_false_iff.1 h
    exact List.forall_mem_cons.2 ⟨ht, ih hts⟩

theorem isAny_of_functionParts? {t result : Ty} {params : List Ty} (h : t.mentionsAny = false)
    (hparts : t.functionParts? = some (params, result)) : ∀ p ∈ params, p.isAny = false := by
  obtain ⟨kind, mayBeNull⟩ := t
  cases kind with
  | function ps r =>
    obtain ⟨rfl, rfl⟩ := Prod.mk.inj (Option.some.inj hparts)
    obtain ⟨hparams, -⟩ := Bool.or_eq_false_iff.1 h
    exact fun p hp => isAny_of_mentionsAny (mentionsAny_of_mem hparams p hp)
  | _ => cases hparts

end Ty

/-- The node has the type that its constructor computes; some constructors are told a type. -/
def Expr.Constructed (e : Expr) : Prop :=
  match e.form with
  | .literal (.zset rows) => ∃ element, Expr.zset element rows = .ok e
  | .literal (.vec items) => ∃ element, Expr.vec element items = .ok e
  | .field base index => Expr.field base index = .ok e
  | .unary op operand => Expr.unary op operand = .ok e
  | .binary op left right => Expr.binary op left right = .ok e
  | .apply function args => Expr.apply function args = .ok e
  | .closure params body => Expr.closure params body = e
  | .tuple fields => Expr.tuple fields = e
  | .rawTuple fields => Expr.rawTuple fields = e
  | .struct _ fields => Expr.struct e.ty fields = .ok e
  | .block body => Expr.block body = e
  | .ite condition yes no => Expr.ite condition yes no = .ok e
  | .cases scrutinee arms => Expr.cases scrutinee arms = .ok e
  | .isNull operand => Expr.isNull operand = e
  | .borrow operand => Expr.borrow operand = e
  | .deref operand => Expr.deref operand = .ok e
  | .range start stop inclusive => Expr.range start stop inclusive = .ok e
  | .some operand => Expr.someOf operand = .ok e
  | .fold zero increment post => ∃ row, Expr.fold row zero increment post = .ok e
  | .literal _ | .var _ | .call .. | .cast _ => True

mutual
/-- Every variable that a closure binds has the type of the parameter. -/
inductive ParamsTyped : ParamTypes → Expr → Prop
  | head {Γ : ParamTypes} {e : Expr} {head : Head} {parts : List Expr} :
      e.form.head? = some (head, parts) → (∀ part ∈ parts, ParamsTyped Γ part) → ParamsTyped Γ e
  | var {Γ : ParamTypes} {name : String} {ty : Ty} : Γ.Allows name ty →
      ParamsTyped Γ ⟨.var name, ty⟩
  | apply {Γ : ParamTypes} {function : Expr} {args : List Expr} {ty : Ty} :
      ParamsTyped Γ function → (∀ arg ∈ args, ParamsTyped Γ arg) →
      ParamsTyped Γ ⟨.apply function args, ty⟩
  | closure {Γ : ParamTypes} {params : List Param} {body : Expr} {ty : Ty} :
      ParamsTyped (Γ.params params) body → ParamsTyped Γ ⟨.closure params body, ty⟩
  | block {Γ : ParamTypes} {body : Block} {ty : Ty} : ParamsTypedBlock Γ body →
      ParamsTyped Γ ⟨.block body, ty⟩
  | ite {Γ : ParamTypes} {condition yes no : Expr} {ty : Ty} : ParamsTyped Γ condition →
      ParamsTyped Γ yes → ParamsTyped Γ no → ParamsTyped Γ ⟨.ite condition yes no, ty⟩
  | cases {Γ : ParamTypes} {scrutinee : Expr} {arms : List (Pattern × Expr)} {ty : Ty} :
      ParamsTyped Γ scrutinee → (∀ arm ∈ arms, ParamsTyped (Γ.hide arm.1.bindings) arm.2) →
      ParamsTyped Γ ⟨.cases scrutinee arms, ty⟩

/-- As above, for the rest of a block; its names are no parameters. -/
inductive ParamsTypedBlock : ParamTypes → Block → Prop
  | done {Γ : ParamTypes} {result : Option Expr} : (∀ e ∈ result, ParamsTyped Γ e) →
      ParamsTypedBlock Γ (.done result)
  | bind {Γ : ParamTypes} {name : String} {ty : Ty} {mutable : Bool} {init : Option Expr}
      {rest : Block} : (∀ e ∈ init, ParamsTyped Γ e) → ParamsTypedBlock (Γ.hide [name]) rest →
      ParamsTypedBlock Γ (.bind name ty mutable init rest)
  | exec {Γ : ParamTypes} {e : Expr} {rest : Block} : ParamsTyped Γ e →
      ParamsTypedBlock Γ rest → ParamsTypedBlock Γ (.exec e rest)
end

/-- The node has the type that its constructor computes, without a wildcard in it. -/
def Expr.Declared (e : Expr) : Prop := e.Constructed ∧ e.ty.mentionsAny = false

mutual
/-- What the constructors make is simply typed. -/
theorem ParamsTyped.simplyTyped : ∀ {Γ : ParamTypes} {e : Expr}, ParamsTyped Γ e →
    e.Every Expr.Declared → SimplyTyped Γ e
  | _, _, .head hform hparts, he => .head hform fun part hpart =>
    (hparts part hpart).simplyTyped (he.part part (parts_of_head? hform ▸ hpart))
  | _, _, .var hname, _ => .var hname
  | _, _, .apply hfunction hargs, he => by
    obtain ⟨hpart, hparts⟩ := List.forall_mem_cons.1 he.part
    exact simplyTyped_apply he.self.1 (hfunction.simplyTyped hpart)
      (fun arg harg => (hargs arg harg).simplyTyped (hparts arg harg))
      fun _ _ => Ty.isAny_of_functionParts? hpart.self.2
  | Γ, _, @ParamsTyped.closure _ params body ty hbody, he => by
    have hconstructed : Expr.closure params body = ⟨.closure params body, ty⟩ := he.self.1
    rw [← hconstructed]
    exact .closure (hbody.simplyTyped (he.part body (List.mem_singleton_self _)))
  | _, _, .block hbody, he => .block (hbody.simplyTyped he.part)
  | _, _, .ite hcondition hyes hno, he =>
    .ite (hcondition.simplyTyped (he.part _ (by simp [Form.parts])))
      (hyes.simplyTyped (he.part _ (by simp [Form.parts])))
      (hno.simplyTyped (he.part _ (by simp [Form.parts])))
  | _, _, .cases hscrutinee harms, he => by
    obtain ⟨hpart, hparts⟩ := List.forall_mem_cons.1 he.part
    exact .cases (hscrutinee.simplyTyped hpart) fun arm harm =>
      (harms arm harm).simplyTyped (hparts arm.2 (List.mem_map_of_mem harm))
theorem ParamsTypedBlock.simplyTyped : ∀ {Γ : ParamTypes} {b : Block}, ParamsTypedBlock Γ b →
    (∀ part ∈ b.parts, part.Every Expr.Declared) → SimplyTypedBlock Γ b
  | _, _, .done hresult, hparts => .done fun e he =>
    (hresult e he).simplyTyped (hparts e (Option.mem_toList.2 he))
  | _, _, .bind hinit hrest, hparts => by
    obtain ⟨hpart, hparts⟩ := List.forall_mem_append.1 hparts
    exact .bind (fun e he => (hinit e he).simplyTyped (hpart e (Option.mem_toList.2 he)))
      (hrest.simplyTyped hparts)
  | _, _, .exec he hrest, hparts => by
    obtain ⟨hpart, hparts⟩ := List.forall_mem_cons.1 hparts
    exact .exec (he.simplyTyped hpart) (hrest.simplyTyped hparts)
end

/-- Reduction puts a NULL check under the type that it had. -/
theorem Expr.steady_nullChecks : Expr.Steady fun _ x =>
    ∀ parts, x.form.head? = some (.isNull, parts) → x.ty = Ty.bool where
  later _ hx := hx
  rebuilt h hx := by
    cases h with
    | head hform hlength =>
      intro parts hhead
      have hform' := (head?_build hform hlength).symm.trans hhead
      obtain ⟨rfl, -⟩ := Prod.mk.inj (Option.some.inj hform')
      exact hx _ hform
    | _ => exact nofun

namespace Expr

variable {e : Expr}

theorem Constructed.nullCheck (h : e.Constructed) {parts : List Expr}
    (hhead : e.form.head? = some (.isNull, parts)) : e.ty = Ty.bool := by
  obtain ⟨form, ty⟩ := e
  cases form with
  | isNull operand => exact (congrArg Expr.ty h).symm
  | literal value => cases value <;> cases hhead
  | _ => cases hhead

theorem ty_simplify (hnull : ∀ parts, e.form.head? = some (.isNull, parts) → e.ty = Ty.bool) :
    e.simplify.value.ty = e.ty := by
  change (e.rewritten simpler?).ty = e.ty
  rw [rewritten_eq]
  cases hr : (e.overParts simpler?).simpler? with
  | none => rfl
  | some r =>
    refine ty_of_simpler? (e := e.overParts simpler?) hr fun operand hform => ?_
    obtain ⟨form, ty⟩ := e
    cases form with
    | isNull operand => exact hnull [operand] rfl
    | literal value => cases value <;> cases hform
    | _ => cases hform

end Expr

/-- An expression keeps its type when it is normalized, if every node has the type that its
constructor computes, every variable that a closure binds has the type of the parameter, and no
wildcard occurs in a type; so operators take the new function in place of the old one. -/
theorem Normalizes.ty_eq {names : Names} {e n : Expr}
    (hdeclared : e.Every Expr.Declared)
    (hparams : ParamsTyped (fun _ => none) e) (h : Normalizes names e n) :
    n.ty = e.ty ∧ ∀ (op : Operator) (ctx : Context), op.kind.function? = some e →
      Compile.Ends (op.withFunction n) ctx (op.Refitted n ctx) := by
  obtain ⟨fuel, r, s, hr, rfl⟩ := h
  have hrules := whole_eq_ok hr
  have htyped := hrules.typed (.empty _ _) (hparams.simplyTyped hdeclared)
  have hnull := (hrules.every Expr.steady_nullChecks .empty
    (hdeclared.mono fun _ hx _ hhead => hx.1.nullCheck hhead)).self.2
  have hty : r.value.simplify.value.ty = e.ty := (Expr.ty_simplify hnull).trans htyped.2
  exact ⟨hty, fun op ctx hop => Operator.ends_withFunction hop hty⟩

/-- Passes a NULL check to a function that applies it. -/
def checkThrough : Expr :=
  let check := Ty.function [Ty.int32] Ty.bool
  ⟨.apply (Expr.closure [⟨"f", check⟩] (Expr.closure [⟨"y", Ty.int32⟩]
      ⟨.apply (Expr.var "f" check) [Expr.var "y" Ty.int32], Ty.bool⟩))
    [Expr.closure [⟨"x", Ty.int32⟩] (Expr.isNull (Expr.var "x" Ty.int32))], check⟩

theorem declared_checkThrough : checkThrough.Every Expr.Declared := by
  have hvar : ∀ x t, t.mentionsAny = false → (Expr.var x t).Every Expr.Declared :=
    fun _ _ ht => .intro ⟨trivial, ht⟩ nofun
  have happly : checkThrough.Constructed := by
    change Expr.apply _ _ = _
    with_unfolding_all rfl
  refine .intro ⟨happly, rfl⟩ (List.forall_mem_cons.2 ⟨?_, List.forall_mem_singleton.2 ?_⟩)
  · refine .intro ⟨rfl, rfl⟩ (List.forall_mem_singleton.2 ?_)
    refine .intro ⟨rfl, rfl⟩ (List.forall_mem_singleton.2 (.intro ⟨?_, rfl⟩ ?_))
    · change Expr.apply _ _ = _
      with_unfolding_all rfl
    · exact List.forall_mem_cons.2 ⟨hvar _ _ rfl, List.forall_mem_singleton.2 (hvar _ _ rfl)⟩
  · refine .intro ⟨rfl, rfl⟩ (List.forall_mem_singleton.2 ?_)
    exact .intro ⟨rfl, rfl⟩ (List.forall_mem_singleton.2 (hvar _ _ rfl))

theorem paramsTyped_checkThrough : ParamsTyped (fun _ => none) checkThrough := by
  have hparam : ∀ {Γ : ParamTypes} {x : String} {t : Ty}, Γ x = some t →
      ParamsTyped Γ (Expr.var x t) := fun h => .var fun t' ht' => Option.some.inj (h.symm.trans ht')
  refine .apply (.closure (.closure (.apply (hparam rfl) ?_))) ?_
  · exact List.forall_mem_singleton.2 (hparam rfl)
  · refine List.forall_mem_singleton.2 (.closure (.head rfl ?_))
    exact List.forall_mem_singleton.2 (hparam rfl)

/-- The check comes to stand where it is applied, and gives way to its outcome. -/
theorem normalizes_checkThrough : ∃ n, Normalizes .empty checkThrough n ∧
    n = Expr.closure [⟨"y", Ty.int32⟩] (Expr.bool false) ∧ n.ty = checkThrough.ty ∧
    ∀ (op : Operator) (ctx : Context), op.kind.function? = some checkThrough →
      Compile.Ends (op.withFunction n) ctx (op.Refitted n ctx) := by
  have hr : checkThrough.normalize Context.empty = (.ok ⟨Expr.closure [⟨"y", Ty.int32⟩]
      (Expr.bool false), true, 3⟩, Context.empty) := by with_unfolding_all rfl
  have hn := normalizes_of_normalize hr
  exact ⟨_, hn, rfl, hn.ty_eq declared_checkThrough paramsTyped_checkThrough⟩

end ViewCircuit
