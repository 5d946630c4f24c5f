import ViewCircuit.Proofs.Normal
import ViewCircuit.Proofs.Visit

/-! Normalizing the functions of a circuit. On first-order functions every visit succeeds and emits
the operator with its function simplified, one operator for each. -/
namespace ViewCircuit

namespace OperatorKind

/-- The kind with its function simplified. -/
def simplified (kind : OperatorKind) : OperatorKind :=
  match kind.function? with
  | some f => kind.withFunction f.simplify.value
  | none => kind

theorem withFunction_self {kind : OperatorKind} {f : Expr} (h : kind.function? = some f) :
    kind.withFunction f = kind := by
  cases kind <;> first | (cases h; rfl) | rfl

theorem simplified_of_some {kind : OperatorKind} {f : Expr} (h : kind.function? = some f) :
    kind.simplified = kind.withFunction f.simplify.value := by
  simp [simplified, h]

theorem simplified_of_none {kind : OperatorKind} (h : kind.function? = none) :
    kind.simplified = kind := by
  simp [simplified, h]

/-- A function that is settled stays. -/
theorem simplified_of_settled {kind : OperatorKind}
    (h : ∀ f, kind.function? = some f → f.Settled) : kind.simplified = kind := by
  cases hf : kind.function? with
  | none => exact simplified_of_none hf
  | some f =>
    rw [simplified_of_some hf, show f.simplify.value = f from Expr.eq_of_unchanged (h f hf)]
    exact withFunction_self hf

@[simp] theorem isSource_simplified (kind : OperatorKind) :
    kind.simplified.isSource = kind.isSource := by cases kind <;> rfl

@[simp] theorem isSink_simplified (kind : OperatorKind) :
    kind.simplified.isSink = kind.isSink := by cases kind <;> rfl

/-- An operator fits its inputs as well with another function of the same type. -/
theorem Typed.withFunction {kind : OperatorKind} {f g : Expr} {inputs : List Ty} {t : Ty}
    (h : kind.Typed inputs t) (hf : kind.function? = some f) (hg : g.ty = f.ty) :
    (kind.withFunction g).Typed inputs t := by
  induction h with
  | source | sum | subtract => cases hf
  | sink => cases hf
  | map hparam hparts =>
    cases hf
    exact .map hparam (hg ▸ hparts)
  | filter hzset hparts =>
    cases hf
    exact .filter hzset (hg ▸ hparts)
  | index hzset hparts =>
    cases hf
    exact .index hzset (hg ▸ hparts)
  | join hs ht hparts =>
    cases hf
    exact .join hs ht (hg ▸ hparts)
  | aggregate hparts hfold =>
    cases hf
    exact .aggregate hparts (hg ▸ hfold)
  | windowAggregate hrange hparts hfold =>
    cases hf
    exact .windowAggregate hrange hparts (hg ▸ hfold)
  | @keeps kind t hkeeps hcoll => cases kind <;> simp [function?, keepsType] at hf hkeeps
  | constant hcoll =>
    cases hf
    rw [← hg] at hcoll ⊢
    exact .constant hcoll
  | incrementalJoin hjoin ih =>
    cases hf
    exact .incrementalJoin (ih rfl)
  | incrementalAggregate haggregate ih =>
    cases hf
    exact .incrementalAggregate (ih rfl)

end OperatorKind

namespace Operator

/-- A new node for the operator, with another function of the same type. -/
structure Refitted (op : Operator) (function : Expr) (ctx : Context) (op' : Operator)
    (ctx' : Context) : Prop where
  id : op'.id = ctx.nextId
  context : ctx' = ctx.numbered
  kind : op'.kind = op.kind.withFunction function
  name : op'.name = op.name
  ty : op'.ty = op.ty
  isMultiset : op'.isMultiset = op.isMultiset
  inputs : op'.inputs = op.inputs

theorem ends_withFunction {op : Operator} {f g : Expr} {ctx : Context}
    (hf : op.kind.function? = some f) (hg : g.ty = f.ty) :
    Compile.Ends (op.withFunction g) ctx (op.Refitted g ctx) := by
  have hsame : f.ty.same g.ty := (Ty.same_iff _ _).2 hg.symm
  unfold withFunction
  rw [hf]
  simp only [hsame, Bool.not_true, Bool.false_eq_true, if_false]
  exact ⟨_, _, rfl, rfl, rfl, rfl, rfl, rfl, rfl, rfl⟩

end Operator

namespace Functions

/-- A visit emits the operator over what stands for its inputs, with its function simplified if it
has one. -/
inductive Visited (r : Rebuild) (op : Operator) : List Operator → Operator → Prop
  | simplified {op' : Operator} : op'.kind = op.kind.simplified → op'.name = op.name →
      op'.ty = op.ty → op'.isMultiset = op.isMultiset → op'.inputs = r.mappedInputs op →
      (op.kind.function? = none → op.Over (r.mappedInputs op) op') → Visited r op [op'] op'

variable {fits : Literal → Ty → Prop} {c : Circuit} {ctx₀ ctx : Context}
  {Sem : Operator → Operator → Prop} {done rest : List Operator} {r : Rebuild} {op : Operator}
  (h : Rebuild.Sound c ctx₀ Sem done done r ctx) (hc : c.WellFormed ctx₀)
  (hsplit : c.operators = done ++ op :: rest)

include h hc hsplit

/-- Emits a new node under the name of the next operator, which is no sink. -/
theorem emitAs_renewed {op' : Operator} {ctx₁ : Context} (hctx : ctx.Extends ctx₁)
    (hid : op'.id = ctx₁.nextId) (hname : op'.name = op.name) (hty : op'.ty = op.ty)
    (hchecked : op'.Checked) (hin : ∀ i ∈ op'.inputs, r.Readable i)
    (hsink : op.kind.isSink = false) (hsink' : op'.kind.isSink = false) (hsem : Sem op op') :
    r.emitAs op op' = .ok ((r.extend op').replace op op') ∧
      Rebuild.Sound c ctx₀ Sem (done ++ [op]) (done ++ [op]) ((r.extend op').replace op op')
        ctx₁.numbered := by
  have hop : op ∈ c.operators := by simp [hsplit]
  have hctx' := hctx.trans ctx₁.extends_numbered
  have hnamed : op'.Named ctx₁.numbered := by
    obtain ⟨m, hm, hopname⟩ := hc.named op hop
    exact ⟨m, Nat.lt_of_lt_of_le hm (h.later.trans hctx').streams, hname.trans hopname⟩
  have hgrown := h.toGrown.mono fun x (hx : x ∈ done) => List.mem_append_left [op] hx
  obtain ⟨hemit, hgrown⟩ := hgrown.extend hctx' hchecked hin
    (hname ▸ h.toGrown.name_fresh hc hsplit) hnamed (.inl (by simp [hname]))
    (.inr (hid ▸ (h.later.trans hctx).nextId)) ((h.nodes.mono hctx).cons hid (by simp))
  refine ⟨by rw [Rebuild.emitAs, hemit]; rfl, (h.extend hgrown hsink').stand hc hsplit
    (fun _ hx => hx) ?_ hsink⟩
  exact ⟨Circuit.mem_operators_insert.2 (.inl rfl), hty, hsink'.trans hsink.symm,
    fun hs => by simp [hsink] at hs, hsem⟩

theorem ends_visit (hfits : Admits fits) (hregular : op.kind.Regular fits)
    (hsem : ∀ op' : Operator, op'.kind = op.kind.simplified → op'.inputs = r.mappedInputs op →
      Sem op op') :
    Compile.Ends (visit r op) ctx fun r' ctx' =>
      Rebuild.Sound c ctx₀ Sem (done ++ [op]) (done ++ [op]) r' ctx' ∧
        Turns (Visited r op) r op r' := by
  have hop : op ∈ c.operators := by simp [hsplit]
  have hcopy : op.kind.simplified = op.kind → Compile.Ends (r.copy op) ctx fun r' ctx' =>
      Rebuild.Sound c ctx₀ Sem (done ++ [op]) (done ++ [op]) r' ctx' ∧
        Turns (Visited r op) r op r' := by
    intro hkept
    refine (h.ends_copy hc hsplit fun op' hkind => hsem op' (hkind.trans hkept.symm)).and ?_
    exact h.yields_copy hc hsplit fun op' hover =>
      .simplified (hover.kind.trans hkept.symm) hover.name hover.ty hover.isMultiset hover.inputs
        fun _ => hover
  unfold visit
  cases hf : op.kind.function? with
  | none => exact hcopy (OperatorKind.simplified_of_none hf)
  | some f =>
    have hnormal := hregular.normalize hf ctx
    obtain ⟨-, hty, -⟩ := hregular.simplify hfits hf
    have hsimplified := OperatorKind.simplified_of_some hf
    dsimp only
    rw [Compile.ends_bind]
    refine ⟨_, _, hnormal, ?_⟩
    beta_reduce
    split
    · rename_i hkept
      refine hcopy (OperatorKind.simplified_of_settled fun g hg => ?_)
      cases hf.symm.trans hg
      exact (Bool.not_eq_true' _).mp hkept
    · rw [Compile.ends_bind]
      refine (h.ends_rewire hc hsplit).mono fun rewired ctx₁ hre => ?_
      have hrewired : rewired.kind.function? = some f := by rw [hre.kind, hf]
      have hchecked : rewired.Checked :=
        hre.checked (hc.checked op hop) (h.mappedInputs_ty hc hsplit)
      have hnosink : op.kind.isSink = false := by
        cases hk : op.kind <;> first | rfl | (rw [hk] at hf; cases hf)
      rw [Compile.ends_bind]
      refine (Operator.ends_withFunction hrewired hty).mono fun op' ctx₂ hfit => ?_
      have hkind : op'.kind = op.kind.simplified := by rw [hfit.kind, hre.kind, hsimplified]
      have hinputs := hfit.inputs.trans hre.inputs
      have hchecked' : op'.Checked := by
        rw [Operator.Checked, hfit.kind, hfit.inputs, hfit.ty]
        exact hchecked.withFunction hrewired hty
      obtain rfl := hfit.context
      obtain ⟨hemit, hsound⟩ := emitAs_renewed h hc hsplit hre.extends hfit.id
        (hfit.name.trans hre.name) (hfit.ty.trans hre.ty) hchecked'
        (hinputs ▸ h.readable_mappedInputs hc hsplit) hnosink (by simp [hkind, hnosink])
        (hsem op' hkind hinputs)
      rw [Compile.ends_ofExcept]
      exact ⟨_, hemit, hsound, [op'], op', .simplified hkind (hfit.name.trans hre.name)
        (hfit.ty.trans hre.ty) (hfit.isMultiset.trans hre.isMultiset) hinputs
        fun hnone => by simp [hf] at hnone, rfl⟩

end Functions

end ViewCircuit
