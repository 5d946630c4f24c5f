import ViewCircuit.Proofs.Simplify

/-! Expressions in which nothing is left to simplify: a pass returns them as they are, and one pass
leads to them from every expression. -/
namespace ViewCircuit

namespace Expr

variable {e r : Expr}

/-- A pass finds nothing to simplify. -/
def Settled (e : Expr) : Prop := e.simplify.changed = false

/-- A pass returns a settled expression as it is. -/
theorem Settled.simplify (h : e.Settled) : e.simplify = Reduct.kept e := bottomUp_eq_kept_iff.2 h

/-- Nothing is left to do at a node when nothing is left in its parts, no pattern differs from
itself and no rule applies. -/
theorem settled_iff : e.Settled ↔ (∀ part ∈ e.form.parts, part.Settled) ∧
    (∀ l ∈ e.patternLiterals, l.isNaN = false) ∧ e.simpler? = none := by
  unfold Settled simplify
  rw [unchanged_iff]
  refine and_congr_right fun hparts => and_congr_right fun hpatterns => ?_
  have hkept : (bottomUpForm simpler? e.form).changed = false := by
    rw [changed_bottomUpForm]
    simpa [anyChanged] using ⟨hparts, hpatterns⟩
  have hover : e.overParts simpler? = e := by
    obtain ⟨form, ty⟩ := e
    exact congrArg (Expr.mk · ty) (form_eq_of_unchanged hkept)
  rw [hover]

/-- No rule applies at any node that traversals enter. -/
theorem Settled.every {e : Expr} (h : e.Settled) : e.Every fun x =>
    (∀ l ∈ x.patternLiterals, l.isNaN = false) ∧ x.simpler? = none :=
  have hnode := settled_iff.1 h
  .intro hnode.2 fun part hpart => Settled.every (hnode.1 part hpart)
termination_by e.depth
decreasing_by exact depth_lt_of_mem_parts hpart

theorem Settled.patternsSatisfy (h : e.Settled) : e.PatternsSatisfy fun l => l.isNaN = false :=
  h.every.mono fun _ hx => hx.1

theorem settled_closure {params : List Param} {body : Expr} {ty : Ty} :
    Settled ⟨.closure params body, ty⟩ ↔ body.Settled := by
  simp [settled_iff (e := ⟨.closure params body, ty⟩), Form.parts, patternLiterals, simpler?]

/-- A simplification gives a truth value, a NULL, or a part of the node under the type of the node,
which is then a conditional or boolean. -/
theorem simpler?_eq_some (hr : e.simpler? = some r) :
    (∃ b, r = Expr.bool b) ∨ (∃ ty, r = noneOf ty) ∨
      (e.form.isIte ∨ e.ty = Ty.bool) ∧ r.ty = e.ty ∧
        ∃ part ∈ e.form.parts, r = part ∨ r = ⟨.some part, e.ty⟩ := by
  obtain ⟨form, ty⟩ := e
  cases form with
  | isNull operand =>
    obtain ⟨-, hr⟩ := Option.ite_none_left_eq_some.1 hr
    exact .inl ⟨_, (Option.some.inj hr).symm⟩
  | cast operand =>
    obtain ⟨-, hr⟩ := Option.ite_none_right_eq_some.1 hr
    exact .inr (.inl ⟨_, (Option.some.inj hr).symm⟩)
  | ite condition yes no =>
    obtain ⟨b, -, hr⟩ := simpler?_ite hr
    obtain ⟨hty, hr⟩ := chosen?_eq_some hr
    refine .inr (.inr ⟨.inl rfl, hty, _, ?_, hr.imp_right And.left⟩)
    cases b <;> simp [Form.parts]
  | binary op left right =>
    obtain ⟨-, hbool, hr | hr⟩ := simpler?_binary hr <;>
      obtain ⟨hty, ⟨-, rfl⟩ | ⟨-, rfl⟩⟩ := absorb?_eq_some hr
    · exact .inl ⟨_, rfl⟩
    · exact .inr (.inr ⟨.inr hbool, hty.trans hbool.symm, r, by simp [Form.parts], .inl rfl⟩)
    · exact .inl ⟨_, rfl⟩
    · exact .inr (.inr ⟨.inr hbool, hty.trans hbool.symm, r, by simp [Form.parts], .inl rfl⟩)
  | _ => cases hr

/-- What a rule makes of a node over settled parts is settled. -/
theorem settled_of_simpler? (hr : e.simpler? = some r)
    (hparts : ∀ part ∈ e.form.parts, part.Settled) : r.Settled := by
  obtain ⟨b, rfl⟩ | ⟨ty, rfl⟩ | ⟨-, -, part, hpart, rfl | rfl⟩ := simpler?_eq_some hr
  · rfl
  · rfl
  · exact hparts _ hpart
  · exact settled_iff.2 ⟨List.forall_mem_singleton.2 (hparts _ hpart), nofun, rfl⟩

/-- One pass is enough, except where a pattern differs from itself: nothing is left to simplify in
what it returns. -/
theorem settled_simplify (h : e.PatternsSatisfy fun l => l.isNaN = false) :
    e.simplify.value.Settled := by
  induction h with
  | @intro e hpatterns _ ih =>
    change (e.rewritten simpler?).Settled
    rw [rewritten_eq]
    have hparts : ∀ part ∈ (e.overParts simpler?).form.parts, part.Settled := by
      rw [parts_overParts]
      exact List.forall_mem_map.2 ih
    cases hr : (e.overParts simpler?).simpler? with
    | none => exact settled_iff.2 ⟨hparts, (alike_overParts simpler? e).patterns ▸ hpatterns, hr⟩
    | some r => exact settled_of_simpler? hr hparts

end Expr
end ViewCircuit
