import ViewCircuit.Proofs.BottomUp

/-! Replacing variables. A traversal that returns what it did not change, and notices changes part
by part, gives what rebuilding every node would give, and returns the node itself exactly when no
occurrence was replaced. -/
namespace ViewCircuit

namespace Expr

mutual
/-- The expression built anew, with every variable, bound or free, replaced where there is a
replacement. Nodes keep their types, and binders and patterns stay. -/
def withVars (f : String → Ty → Option Expr) : Expr → Expr
  | ⟨.var name, ty⟩ => (f name ty).getD ⟨.var name, ty⟩
  | ⟨.literal (.zset rows), ty⟩ => ⟨.literal (.zset (withVarsRows f rows)), ty⟩
  | ⟨.literal (.vec items), ty⟩ => ⟨.literal (.vec (withVarsAll f items)), ty⟩
  | ⟨.literal value, ty⟩ => ⟨.literal value, ty⟩
  | ⟨.field base index, ty⟩ => ⟨.field (base.withVars f) index, ty⟩
  | ⟨.unary op operand, ty⟩ => ⟨.unary op (operand.withVars f), ty⟩
  | ⟨.binary op left right, ty⟩ => ⟨.binary op (left.withVars f) (right.withVars f), ty⟩
  | ⟨.apply function args, ty⟩ => ⟨.apply (function.withVars f) (withVarsAll f args), ty⟩
  | ⟨.call function args, ty⟩ => ⟨.call function (withVarsAll f args), ty⟩
  | ⟨.closure params body, ty⟩ => ⟨.closure params (body.withVars f), ty⟩
  | ⟨.tuple fields, ty⟩ => ⟨.tuple (withVarsAll f fields), ty⟩
  | ⟨.rawTuple fields, ty⟩ => ⟨.rawTuple (withVarsAll f fields), ty⟩
  | ⟨.struct name fields, ty⟩ => ⟨.struct name (withVarsAll f fields), ty⟩
  | ⟨.block body, ty⟩ => ⟨.block (withVarsBlock f body), ty⟩
  | ⟨.ite condition yes no, ty⟩ =>
    ⟨.ite (condition.withVars f) (yes.withVars f) (no.withVars f), ty⟩
  | ⟨.cases scrutinee arms, ty⟩ => ⟨.cases (scrutinee.withVars f) (withVarsArms f arms), ty⟩
  | ⟨.cast operand, ty⟩ => ⟨.cast (operand.withVars f), ty⟩
  | ⟨.isNull operand, ty⟩ => ⟨.isNull (operand.withVars f), ty⟩
  | ⟨.borrow operand, ty⟩ => ⟨.borrow (operand.withVars f), ty⟩
  | ⟨.deref operand, ty⟩ => ⟨.deref (operand.withVars f), ty⟩
  | ⟨.range start stop inclusive, ty⟩ =>
    ⟨.range (withVarsOption f start) (withVarsOption f stop) inclusive, ty⟩
  | ⟨.some operand, ty⟩ => ⟨.some (operand.withVars f), ty⟩
  | ⟨.fold zero increment post, ty⟩ =>
    ⟨.fold (zero.withVars f) (increment.withVars f) (post.withVars f), ty⟩
def withVarsAll (f : String → Ty → Option Expr) : List Expr → List Expr
  | [] => []
  | e :: es => e.withVars f :: withVarsAll f es
def withVarsOption (f : String → Ty → Option Expr) : Option Expr → Option Expr
  | none => none
  | some e => some (e.withVars f)
def withVarsRows (f : String → Ty → Option Expr) : List (Expr × Int) → List (Expr × Int)
  | [] => []
  | (e, w) :: rows => (e.withVars f, w) :: withVarsRows f rows
def withVarsArms (f : String → Ty → Option Expr) : List (Pattern × Expr) → List (Pattern × Expr)
  | [] => []
  | (p, e) :: arms => (p, e.withVars f) :: withVarsArms f arms
def withVarsBlock (f : String → Ty → Option Expr) : Block → Block
  | .done result => .done (withVarsOption f result)
  | .bind name ty mutable init rest =>
    .bind name ty mutable (withVarsOption f init) (withVarsBlock f rest)
  | .exec e rest => .exec (e.withVars f) (withVarsBlock f rest)
end

/-- The variable is read somewhere in the expression, under this type, be it bound or free. -/
inductive Occurs (name : String) (ty : Ty) : Expr → Prop
  | var : Occurs name ty ⟨.var name, ty⟩
  | part {e part : Expr} : part ∈ e.form.parts → Occurs name ty part → Occurs name ty e

variable {f : String → Ty → Option Expr}

section Rebuilt

theorem withVarsAll_eq (es : List Expr) : withVarsAll f es = es.map (withVars f) := by
  induction es with
  | nil => rfl
  | cons e es ih => rw [withVarsAll, ih, List.map_cons]

theorem withVarsOption_eq (o : Option Expr) : withVarsOption f o = o.map (withVars f) := by
  cases o <;> rfl

theorem withVarsRows_eq (rows : List (Expr × Int)) :
    withVarsRows f rows = rows.map fun row => (row.1.withVars f, row.2) := by
  induction rows with
  | nil => rfl
  | cons row rows ih => rw [withVarsRows, ih, List.map_cons]

theorem withVarsArms_eq (arms : List (Pattern × Expr)) :
    withVarsArms f arms = arms.map fun arm => (arm.1, arm.2.withVars f) := by
  induction arms with
  | nil => rfl
  | cons arm arms ih => rw [withVarsArms, ih, List.map_cons]

theorem withVarsBlock_eq : ∀ b : Block, withVarsBlock f b = b.mapParts (withVars f)
  | .done result => congrArg Block.done (withVarsOption_eq result)
  | .bind name ty mutable init rest =>
    congrArg₂ (Block.bind name ty mutable) (withVarsOption_eq init) (withVarsBlock_eq rest)
  | .exec e rest => congrArg (Block.exec (e.withVars f)) (withVarsBlock_eq rest)

end Rebuilt

/-- What stands for a variable, if the node is one and has a replacement. -/
def replacement? (f : String → Ty → Option Expr) (e : Expr) : Option Expr :=
  match e.form with
  | .var name => f name e.ty
  | _ => none

theorem replaceVars_eq (e : Expr) : e.replaceVars f = e.bottomUp (replacement? f) := rfl

/-- Only variables are replaced, and variables have no parts. -/
theorem withVars_eq (e : Expr) :
    e.withVars f = (replacement? f e).getD ⟨e.form.mapParts (withVars f), e.ty⟩ := by
  obtain ⟨form, ty⟩ := e
  cases form with
  | literal value =>
    cases value <;>
      simp [withVars, replacement?, Form.mapParts, withVarsRows_eq, withVarsAll_eq]
  | _ =>
    simp [withVars, replacement?, Form.mapParts, withVarsAll_eq, withVarsOption_eq,
      withVarsArms_eq, withVarsBlock_eq]

theorem replacement?_mapParts {g : Expr → Expr} (e : Expr) :
    replacement? f ⟨e.form.mapParts g, e.ty⟩ = replacement? f e := by
  obtain ⟨form, ty⟩ := e
  cases form with
  | literal value => cases value <;> rfl
  | _ => rfl

/-- A traversal gives what building every node anew gives. -/
theorem value_replaceVars (e : Expr) : (e.replaceVars f).value = e.withVars f := by
  have hparts : e.form.mapParts (rewritten (replacement? f)) = e.form.mapParts (withVars f) :=
    Form.mapParts_congr fun part hpart => value_replaceVars part
  change e.rewritten (replacement? f) = e.withVars f
  rw [rewritten_eq, overParts_eq, hparts, replacement?_mapParts, withVars_eq]
termination_by e.depth
decreasing_by exact depth_lt_of_mem_parts hpart

theorem occurs_iff {name : String} {ty : Ty} {e : Expr} : e.Occurs name ty ↔
    e = ⟨.var name, ty⟩ ∨ ∃ part ∈ e.form.parts, part.Occurs name ty := by
  constructor
  · rintro (_ | ⟨hpart, hoccurs⟩)
    · exact .inl rfl
    · exact .inr ⟨_, hpart, hoccurs⟩
  · rintro (rfl | ⟨part, hpart, hoccurs⟩)
    · exact .var
    · exact .part hpart hoccurs

theorem replacement?_eq_none_iff {e : Expr} : replacement? f e = none ↔
    ∀ name ty, e = ⟨.var name, ty⟩ → f name ty = none := by
  obtain ⟨form, ty⟩ := e
  cases form with
  | var name =>
    constructor
    · rintro h _ _ ⟨⟩
      exact h
    · exact fun h => h name ty rfl
  | _ => exact ⟨nofun, fun _ => rfl⟩

/-- A node is kept when none of the variables in it has a replacement, except where a pattern
differs from itself. -/
theorem unchanged_iff_occurs {e : Expr} (hnan : e.PatternsSatisfy fun l => l.isNaN = false) :
    (e.replaceVars f).changed = false ↔ ∀ name ty, e.Occurs name ty → f name ty = none := by
  induction hnan with
  | @intro e hpatterns _ ih =>
    have hnode : replacement? f (e.overParts (replacement? f)) = replacement? f e := by
      rw [overParts_eq, replacement?_mapParts]
    rw [replaceVars_eq, unchanged_iff, hnode, replacement?_eq_none_iff]
    constructor
    · rintro ⟨hparts, -, hself⟩ name ty hoccurs
      rcases occurs_iff.1 hoccurs with he | ⟨part, hpart, hoccurs⟩
      · exact hself name ty he
      · exact (ih part hpart).1 (hparts part hpart) name ty hoccurs
    · intro h
      refine ⟨fun part hpart => ?_, hpatterns, fun name ty he => h name ty (he ▸ .var)⟩
      exact (ih part hpart).2 fun name ty hoccurs => h name ty (.part hpart hoccurs)

end Expr

/-- Replacing variables gives what building every node anew gives, and the node itself exactly when
no variable that occurs in it has a replacement. -/
theorem replaceVars_rebuilds (f : String → Ty → Option Expr) {e : Expr}
    (hnan : e.PatternsSatisfy fun l => l.isNaN = false) :
    (e.replaceVars f).value = e.withVars f ∧
      ((e.replaceVars f).changed = false ∧ (e.replaceVars f).value = e ↔
        ∀ name ty, e.Occurs name ty → f name ty = none) := by
  have hkept : (e.replaceVars f).changed = false → (e.replaceVars f).value = e :=
    Expr.eq_of_unchanged
  refine ⟨e.value_replaceVars, fun h => (Expr.unchanged_iff_occurs hnan).1 h.1, fun h => ?_⟩
  have hunchanged := (Expr.unchanged_iff_occurs hnan).2 h
  exact ⟨hunchanged, hkept hunchanged⟩

/-- One name is read in place of another. -/
def readInstead (old new name : String) (ty : Ty) : Option Expr :=
  if name = old then some (Expr.var new ty) else none

/-- A function that matches on what it is passed, with an arm that shadows its parameter. -/
def matchOnCopy (read : String) : Expr :=
  let x := Expr.var read Ty.int32
  let arms : List (Pattern × Expr) := [(.literal (.int 5), x), (.ident "x" false, x)]
  Expr.closure [⟨"x", Ty.int32⟩] (Expr.block (.bind "y" Ty.int32 false (some x)
    (.done (some ⟨.cases (Expr.var "y" Ty.int32) arms, Ty.int32⟩))))

/-- All places that read the name change, and the parameter and the pattern do not; a name that is
read nowhere leaves the node. -/
theorem replaceVars_matchOnCopy : (matchOnCopy "x").PatternsSatisfy (fun l => l.isNaN = false) ∧
    ((matchOnCopy "x").replaceVars (readInstead "x" "a")).value = matchOnCopy "a" ∧
    ∀ ty, ¬ (matchOnCopy "x").Occurs "b" ty := by
  have hvar : ∀ x, (Expr.var x Ty.int32).PatternsSatisfy fun l => l.isNaN = false :=
    fun _ => Expr.patternsSatisfy_leaf rfl rfl
  have hpatterns : (matchOnCopy "x").PatternsSatisfy fun l => l.isNaN = false := by
    refine Expr.patternsSatisfy_node rfl (List.forall_mem_singleton.2 ?_)
    refine Expr.patternsSatisfy_node rfl (List.forall_mem_cons.2 ⟨hvar "x", ?_⟩)
    refine List.forall_mem_singleton.2 (.intro ?_ ?_)
    · exact List.forall_mem_singleton.2 rfl
    · exact List.forall_mem_cons.2 ⟨hvar "y", List.forall_mem_cons.2
        ⟨hvar "x", List.forall_mem_singleton.2 (hvar "x")⟩⟩
  have hkept : (matchOnCopy "x").replaceVars (readInstead "b" "a") =
      Reduct.kept (matchOnCopy "x") := by
    with_unfolding_all rfl
  refine ⟨hpatterns, ?_, fun ty hoccurs => ?_⟩
  · rw [(replaceVars_rebuilds (readInstead "x" "a") hpatterns).1]
    with_unfolding_all rfl
  · have hnone := (replaceVars_rebuilds (readInstead "b" "a") hpatterns).2.1
      ⟨congrArg Reduct.changed hkept, congrArg Reduct.value hkept⟩ "b" ty hoccurs
    simp [readInstead] at hnone

end ViewCircuit
