import Mathlib.Algebra.Order.BigOperators.Group.List
import Mathlib.Algebra.Order.Group.Nat
import ViewCircuit.Proofs.NormalForm
import ViewCircuit.Proofs.Settled

/-! A single pass of simplifications. Every rule makes its node smaller, so what a pass returns has
lost at least one node for each rule that was applied; it has none left to apply, but for literals
of patterns, which are copied. -/
namespace ViewCircuit

namespace Expr

mutual
/-- How many nodes an expression has, those in literals of patterns included. -/
def size : Expr → Nat
  | ⟨form, _⟩ => sizeForm form + 1
def sizeForm : Form → Nat
  | .literal value => sizeLiteral value
  | .var _ => 0
  | .field e _ | .unary _ e | .cast e | .isNull e | .borrow e | .deref e | .some e => e.size
  | .binary _ l r => l.size + r.size
  | .apply f args => f.size + sizeAll args
  | .call _ es | .tuple es | .rawTuple es | .struct _ es => sizeAll es
  | .closure _ body => body.size
  | .block body => sizeBlock body
  | .ite c y n => c.size + y.size + n.size
  | .cases e arms => e.size + sizeArms arms
  | .range start stop _ => sizeOption start + sizeOption stop
  | .fold z i p => z.size + i.size + p.size
def sizeLiteral : Literal → Nat
  | .zset rows => sizeRows rows
  | .vec items => sizeAll items
  | _ => 0
def sizePattern : Pattern → Nat
  | .literal value => sizeLiteral value
  | .tuple items => sizePatterns items
  | .some inner => sizePattern inner
  | .ident _ _ | .wildcard => 0
def sizePatterns : List Pattern → Nat
  | [] => 0
  | p :: ps => sizePattern p + sizePatterns ps
def sizeAll : List Expr → Nat
  | [] => 0
  | e :: es => e.size + sizeAll es
def sizeOption : Option Expr → Nat
  | none => 0
  | some e => e.size
def sizeRows : List (Expr × Int) → Nat
  | [] => 0
  | (e, _) :: rows => e.size + sizeRows rows
def sizeArms : List (Pattern × Expr) → Nat
  | [] => 0
  | (p, e) :: arms => sizePattern p + e.size + sizeArms arms
def sizeBlock : Block → Nat
  | .done result => sizeOption result
  | .bind _ _ _ init rest => sizeOption init + sizeBlock rest
  | .exec e rest => e.size + sizeBlock rest
end

section Sizes

theorem sizeAll_eq (es : List Expr) : sizeAll es = (es.map size).sum := by
  induction es with
  | nil => rfl
  | cons e es ih => rw [sizeAll, ih, List.map_cons, List.sum_cons]

theorem sizeOption_eq (o : Option Expr) : sizeOption o = (o.toList.map size).sum := by
  cases o <;> simp [sizeOption]

theorem sizeRows_eq (rows : List (Expr × Int)) :
    sizeRows rows = ((rows.map Prod.fst).map size).sum := by
  induction rows with
  | nil => rfl
  | cons row rows ih => simp [sizeRows, ih]

theorem sizeBlock_eq : ∀ b : Block, sizeBlock b = (b.parts.map size).sum
  | .done result => sizeOption_eq result
  | .bind _ _ _ init rest => by
    simp [sizeBlock, Block.parts, sizeOption_eq, sizeBlock_eq rest]
  | .exec e rest => by simp [sizeBlock, Block.parts, sizeBlock_eq rest]

mutual
theorem sizePattern_eq : ∀ p : Pattern, sizePattern p = (p.literals.map sizeLiteral).sum
  | .literal value => by simp [sizePattern, Pattern.literals]
  | .tuple items => sizePatterns_eq items
  | .some inner => sizePattern_eq inner
  | .ident _ _ | .wildcard => rfl
theorem sizePatterns_eq : ∀ ps : List Pattern,
    sizePatterns ps = ((Pattern.literalsAll ps).map sizeLiteral).sum
  | [] => rfl
  | p :: ps => by
    rw [sizePatterns, sizePattern_eq p, sizePatterns_eq ps, Pattern.literalsAll, List.map_append,
      List.sum_append]
end

theorem sizeArms_eq (arms : List (Pattern × Expr)) : sizeArms arms =
    ((arms.map Prod.snd).map size).sum +
      ((arms.flatMap fun arm => arm.1.literals).map sizeLiteral).sum := by
  induction arms with
  | nil => rfl
  | cons arm arms ih =>
    simp only [sizeArms, ih, sizePattern_eq, List.map_cons, List.sum_cons, List.flatMap_cons,
      List.map_append, List.sum_append]
    omega

/-- A node has the nodes of its parts, those in its patterns and itself. -/
theorem size_eq (e : Expr) : e.size =
    (e.form.parts.map size).sum + (e.patternLiterals.map sizeLiteral).sum + 1 := by
  obtain ⟨form, ty⟩ := e
  cases form with
  | literal value =>
    cases value <;>
      simp [size, sizeForm, sizeLiteral, Form.parts, Form.head?, patternLiterals, sizeAll_eq,
        sizeRows_eq]
  | block body => simp [size, sizeForm, Form.parts, patternLiterals, sizeBlock_eq]
  | cases scrutinee arms =>
    simp [size, sizeForm, Form.parts, patternLiterals, sizeArms_eq, Nat.add_assoc]
  | ite | fold => simp [size, sizeForm, Form.parts, patternLiterals, Nat.add_assoc]
  | _ => simp [size, sizeForm, Form.parts, patternLiterals, sizeAll_eq, sizeOption_eq]

theorem size_pos (e : Expr) : 0 < e.size := by
  rw [size_eq]
  exact Nat.succ_pos _

end Sizes

variable {e r : Expr} {Q : Literal → Prop}

/-- A simplification makes its node smaller. -/
theorem size_of_simpler? (hr : e.simpler? = some r) : r.size < e.size := by
  obtain ⟨form, ty⟩ := e
  cases form with
  | isNull operand =>
    obtain ⟨-, hr⟩ := Option.ite_none_left_eq_some.1 hr
    obtain rfl := Option.some.inj hr
    exact Nat.succ_lt_succ operand.size_pos
  | cast operand =>
    obtain ⟨-, hr⟩ := Option.ite_none_right_eq_some.1 hr
    obtain rfl := Option.some.inj hr
    exact Nat.succ_lt_succ operand.size_pos
  | ite condition yes no =>
    obtain ⟨b, -, hr⟩ := simpler?_ite hr
    have hbranch : (if b then yes else no).size ≤ yes.size + no.size := by
      cases b
      · exact Nat.le_add_left _ _
      · exact Nat.le_add_right _ _
    have hcondition := condition.size_pos
    rcases (chosen?_eq_some hr).2 with rfl | ⟨rfl, -⟩
    · simp only [size, sizeForm]
      omega
    · simp only [size, sizeForm]
      omega
  | binary op left right =>
    have hleft := left.size_pos
    have hright := right.size_pos
    obtain ⟨-, -, hr | hr⟩ := simpler?_binary hr <;>
      obtain ⟨-, ⟨-, rfl⟩ | ⟨-, rfl⟩⟩ := absorb?_eq_some hr
    all_goals
      simp only [bool, literal, size, sizeForm, sizeLiteral]
      omega
  | _ => cases hr

/-- A rule that makes nodes smaller takes at least one node away each time it is applied. -/
theorem size_rewritten {rule : Expr → Option Expr}
    (hrule : ∀ e r, rule e = some r → r.size < e.size) (e : Expr) :
    (e.rewritten rule).size + (e.bottomUp rule).fired ≤ e.size := by
  have hparts : ((e.form.parts.map (rewritten rule)).map size).sum + allFired rule e.form.parts ≤
      (e.form.parts.map size).sum := by
    rw [List.map_map, allFired, ← List.sum_map_add]
    exact List.sum_le_sum fun part hpart => size_rewritten hrule part
  have hover : (e.overParts rule).size + allFired rule e.form.parts ≤ e.size := by
    rw [size_eq, size_eq e, parts_overParts, (alike_overParts rule e).patterns]
    omega
  rw [rewritten_eq, fired_bottomUp, fired_bottomUpForm]
  cases hr : rule (e.overParts rule) with
  | none => simpa using hover
  | some r =>
    have hlt := hrule _ r hr
    simp only [Option.getD_some, Option.isSome_some, Bool.toNat_true]
    omega
termination_by e.depth
decreasing_by exact depth_lt_of_mem_parts hpart

/-- A simplification copies the patterns of what it keeps. -/
theorem PatternsSatisfy.of_simpler? (h : e.PatternsSatisfy Q) (hr : e.simpler? = some r) :
    r.PatternsSatisfy Q := by
  obtain ⟨b, rfl⟩ | ⟨ty, rfl⟩ | ⟨-, -, part, hpart, rfl | rfl⟩ := simpler?_eq_some hr
  · exact patternsSatisfy_leaf rfl rfl
  · exact patternsSatisfy_leaf rfl rfl
  · exact h.part _ hpart
  · exact patternsSatisfy_node rfl (List.forall_mem_singleton.2 (h.part _ hpart))

/-- All literals in patterns of the result were in patterns before. -/
theorem PatternsSatisfy.simplify (h : e.PatternsSatisfy Q) :
    e.simplify.value.PatternsSatisfy Q := by
  induction h with
  | @intro e hpatterns _ ih =>
    change (e.rewritten simpler?).PatternsSatisfy Q
    have hover : (e.overParts simpler?).PatternsSatisfy Q := by
      refine .intro ((alike_overParts simpler? e).patterns ▸ hpatterns) ?_
      rw [parts_overParts]
      exact List.forall_mem_map.2 ih
    rw [rewritten_eq]
    cases hr : (e.overParts simpler?).simpler? with
    | none => exact hover
    | some r => exact hover.of_simpler? hr

end Expr

/-- One pass of simplifications leaves nothing to do, but for nodes in the literals of patterns. It
returns the node itself exactly when it applied no rule, and a smaller one otherwise; the next pass
returns that one as it is. -/
theorem simplify_normal {e : Expr} (hnan : e.PatternsSatisfy fun l => l.isNaN = false) :
    (∀ x : Expr, x.Inside e.simplify.value → x.simpler?.isSome → x.InPattern e) ∧
      (e.simplify.changed = false ∧ e.simplify.value = e ↔ e.simplify.fired = 0) ∧
      (0 < e.simplify.fired → e.simplify.value.size < e.size) ∧
      e.simplify.value.simplify = Reduct.kept e.simplify.value := by
  have hsettled := Expr.settled_simplify hnan
  refine ⟨fun x hx hsome => ?_, ?_, fun hfired => ?_, hsettled.simplify⟩
  · have hpatterns := (Expr.Inside.patternsSatisfy e .refl).simplify
    refine (hsettled.every.inPattern hpatterns hx).resolve_left fun hnode => ?_
    rw [hnode.2] at hsome
    cases hsome
  · have hfired : e.simplify.changed = false ↔ e.simplify.fired = 0 :=
      Expr.unchanged_iff_fired hnan
    exact ⟨fun hkept => hfired.1 hkept.1, fun hnone =>
      ⟨hfired.2 hnone, Expr.eq_of_unchanged (hfired.2 hnone)⟩⟩
  · have hsize := Expr.size_rewritten (fun _ _ hr => Expr.size_of_simpler? hr) e
    change e.simplify.value.size + e.simplify.fired ≤ e.size at hsize
    omega

/-- A match with an arm in which one simplification leads to the next. -/
def guardedMatch : Expr :=
  let t := Expr.var "t" Ty.int32
  let x := Expr.var "x" Ty.bool
  let both : Expr := ⟨.binary .and (Expr.bool true) (Expr.var "y" Ty.bool), Ty.bool⟩
  ⟨.cases t [(.literal (.int 5), ⟨.ite (Expr.isNull t) x both, Ty.bool⟩), (.wildcard, x)], Ty.bool⟩

theorem patternsSatisfy_guardedMatch :
    guardedMatch.PatternsSatisfy fun l => l.isNaN = false := by
  have hvar : ∀ x ty, (Expr.var x ty).PatternsSatisfy fun l => l.isNaN = false :=
    fun _ _ => Expr.patternsSatisfy_leaf rfl rfl
  have hcheck : (Expr.isNull (Expr.var "t" Ty.int32)).PatternsSatisfy fun l => l.isNaN = false :=
    Expr.patternsSatisfy_node rfl (List.forall_mem_singleton.2 (hvar _ _))
  have hboth : Expr.PatternsSatisfy (fun l => l.isNaN = false)
      ⟨.binary .and (Expr.bool true) (Expr.var "y" Ty.bool), Ty.bool⟩ :=
    Expr.patternsSatisfy_node rfl (List.forall_mem_cons.2
      ⟨Expr.patternsSatisfy_leaf rfl rfl, List.forall_mem_singleton.2 (hvar _ _)⟩)
  refine .intro (List.forall_mem_singleton.2 rfl) (List.forall_mem_cons.2 ⟨hvar _ _, ?_⟩)
  refine List.forall_mem_cons.2 ⟨?_, List.forall_mem_singleton.2 (hvar _ _)⟩
  exact Expr.patternsSatisfy_node rfl (List.forall_mem_cons.2
    ⟨hcheck, List.forall_mem_cons.2 ⟨hvar _ _, List.forall_mem_singleton.2 hboth⟩⟩)

/-- The null check is false, the conjunction is its other side, and that is what the conditional
chooses. -/
theorem simplify_guardedMatch : ∃ r, guardedMatch.simplify = ⟨r, true, 3⟩ ∧
    r = ⟨.cases (Expr.var "t" Ty.int32) [(.literal (.int 5), Expr.var "y" Ty.bool),
      (.wildcard, Expr.var "x" Ty.bool)], Ty.bool⟩ ∧
    (∀ x : Expr, x.Inside r → x.simpler?.isSome → x.InPattern guardedMatch) ∧
    r.size < guardedMatch.size ∧ r.simplify = Reduct.kept r := by
  have hr : guardedMatch.simplify = ⟨⟨.cases (Expr.var "t" Ty.int32)
      [(.literal (.int 5), Expr.var "y" Ty.bool), (.wildcard, Expr.var "x" Ty.bool)],
      Ty.bool⟩, true, 3⟩ := by with_unfolding_all rfl
  obtain ⟨hnodes, -, hsize, hagain⟩ := simplify_normal patternsSatisfy_guardedMatch
  rw [hr] at hnodes hsize hagain
  exact ⟨_, hr, rfl, hnodes, hsize (Nat.succ_pos 2), hagain⟩

/-- A match on a literal that holds a null check. -/
def matchOnNullCheck : Expr :=
  ⟨.cases (Expr.literal (.vec [Expr.bool false]) (Ty.vec Ty.bool))
    [(.literal (.vec [Expr.isNull (Expr.int32 1)]), Expr.int32 2), (.wildcard, Expr.int32 3)],
    Ty.int32⟩

/-- Its pattern stays as it is. -/
theorem simplify_matchOnNullCheck :
    (Expr.vec Ty.bool [Expr.bool false]).bind (fun scrutinee => Expr.cases scrutinee
      [(.literal (.vec [Expr.isNull (Expr.int32 1)]), Expr.int32 2), (.wildcard, Expr.int32 3)]) =
        .ok matchOnNullCheck ∧
    matchOnNullCheck.PatternsSatisfy (fun l => l.isNaN = false) ∧
    ∃ x : Expr, x.Inside matchOnNullCheck.simplify.value ∧ x.simpler?.isSome := by
  refine ⟨by with_unfolding_all rfl, .intro (List.forall_mem_singleton.2 rfl) ?_, ?_⟩
  · have hitems : Expr.PatternsSatisfy (fun l => l.isNaN = false)
        (Expr.literal (.vec [Expr.bool false]) (Ty.vec Ty.bool)) :=
      Expr.patternsSatisfy_node rfl
        (List.forall_mem_singleton.2 (Expr.patternsSatisfy_leaf rfl rfl))
    refine List.forall_mem_cons.2 ⟨hitems, List.forall_mem_cons.2 ⟨?_, ?_⟩⟩
    · exact Expr.patternsSatisfy_leaf rfl rfl
    · exact List.forall_mem_singleton.2 (Expr.patternsSatisfy_leaf rfl rfl)
  · have hr : matchOnNullCheck.simplify.value = matchOnNullCheck := by with_unfolding_all rfl
    rw [hr]
    exact ⟨_, .pattern List.mem_cons_self (List.mem_singleton_self _) .refl, rfl⟩

end ViewCircuit
