import ViewCircuit.Proofs.Rebuild

/-! Rebuilding circuits with sinks that read sinks. All but the sinks are rebuilt as a well-formed
circuit of their own; then the sinks are copied, one after another. -/
namespace ViewCircuit

open List (Forall₂)

namespace Circuit

variable {c : Circuit} {ctx : Context}

/-- The circuit without its sinks. -/
def sinkless (c : Circuit) : Circuit := { c with sinks := [] }

theorem operators_sinkless (c : Circuit) : c.operators = c.sinkless.operators ++ c.sinks := by
  simp [operators, sinkless]

theorem mem_of_sinkless {op : Operator} (h : op ∈ c.sinkless.operators) : op ∈ c.operators :=
  c.operators_sinkless ▸ List.mem_append_left _ h

theorem Assembled.wellFormed_sinkless (hc : c.Assembled ctx) : c.sinkless.WellFormed ctx := by
  have hbefore : Operator.ReadsEarlier c.sinkless.operators := by
    intro before op after hsplit
    exact hc.earlier before op (after ++ c.sinks) (by rw [operators_sinkless, hsplit]; simp)
  have hnosink : ∀ op ∈ c.sinkless.operators, op.kind.isSink = false := by
    intro op hop
    rcases List.mem_append.1 (show op ∈ c.sources ++ c.interior by simpa [operators, sinkless]
      using hop) with hop | hop
    · have hsource := hc.sectioned.sources op hop
      cases hk : op.kind <;> simp_all [OperatorKind.isSource, OperatorKind.isSink]
    · exact (hc.sectioned.interior op hop).2
  have hnames := hc.names
  rw [operators_sinkless, List.map_append] at hnames
  have hsinkless : c.sinkless.Assembled ctx :=
    { sectioned := ⟨hc.sectioned.sources, hc.sectioned.interior, by simp [sinkless]⟩
      names := hnames.of_append_left
      earlier := hbefore
      named := fun op hop => hc.named op (mem_of_sinkless hop)
      nodes := hc.nodes.subset fun op hop => mem_of_sinkless hop
      checked := fun op hop => hc.checked op (mem_of_sinkless hop) }
  exact hsinkless.wellFormed fun op hop i hi => hnosink i (hbefore.mem hop hi)

end Circuit

namespace Rebuild

/-- What holds while sinks are copied after the rebuild of all else, which ended in `base`:
something stands for each operator of `done`, and nothing was added but sinks. -/
structure Trailing (c : Circuit) (ctx₀ : Context) (Sem : Operator → Operator → Prop)
    (base : Rebuild) (done : List Operator) (r : Rebuild) (ctx : Context) : Prop where
  assembled : r.result.Assembled ctx
  nodes : Operator.Distinguished ctx (c.operators ++ r.result.operators)
  later : ctx₀.Extends ctx
  names : ∀ op ∈ r.result.operators, op.name ∈ done.map Operator.name ∨
    ∃ n, ctx₀.streams ≤ n ∧ op.name = Names.nth "stream" n
  stands : ∀ op ∈ done, Stands Sem r op (r.mapped op)
  sources : r.result.sources = base.result.sources
  sinks : r.result.sinks = (done.filter fun op => op.kind.isSink).map r.mapped
  added : ∀ op ∈ r.result.operators, op ∈ base.result.operators ∨ op.kind.isSink

variable {c : Circuit} {ctx₀ ctx : Context} {Sem Sem' : Operator → Operator → Prop}
  {done rest : List Operator} {base r : Rebuild} {op : Operator}

/-- When all but the sinks were rebuilt, the sinks can be copied. -/
theorem Sound.trailing (hc : c.Assembled ctx₀)
    (h : Sound c.sinkless ctx₀ Sem c.sinkless.operators c.sinkless.operators r ctx)
    (hsem : ∀ op op', Sem op op' → Sem' op op') :
    Trailing c ctx₀ Sem' r c.sinkless.operators r ctx := by
  -- A rebuilt node is one of the circuit or has a number that was not drawn for those.
  have hold : ∀ a ∈ c.operators, ∀ b ∈ r.result.operators, a.id = b.id → a = b := by
    intro a ha b hb hab
    rcases h.drawn b hb with hb | hlate
    · exact hc.nodes.eq_of_id a ha b (Circuit.mem_of_sinkless hb) hab
    · have := hc.nodes.below a ha
      omega
  constructor
  case assembled => exact h.wellFormed.assembled
  case nodes =>
    constructor
    · intro a ha
      rcases List.mem_append.1 ha with ha | ha
      · exact (hc.nodes.mono h.later).below a ha
      · exact h.nodes.below a (List.mem_append_right _ ha)
    · intro a ha b hb hab
      rcases List.mem_append.1 ha with ha | ha <;> rcases List.mem_append.1 hb with hb | hb
      · exact hc.nodes.eq_of_id a ha b hb hab
      · exact hold a ha b hb hab
      · exact (hold b hb a ha hab.symm).symm
      · exact h.nodes.eq_of_id a (List.mem_append_right _ ha) b (List.mem_append_right _ hb) hab
  case later => exact h.later
  case names => exact h.names
  case stands =>
    intro op hop
    have hstands := h.stands op hop
    exact { hstands with sem := hsem _ _ hstands.sem }
  case sources => rfl
  case sinks => exact h.sinks
  case added => exact fun _ hop => .inl hop

section Copy

variable (h : Trailing c ctx₀ Sem base done r ctx) (hc : c.Assembled ctx₀)
  (hsplit : c.operators = done ++ op :: rest)

include h hc hsplit

theorem Trailing.name_fresh : op.name ∉ r.result.operators.map Operator.name := by
  intro hmem
  obtain ⟨x, hx, hname⟩ := List.mem_map.1 hmem
  rcases h.names x hx with hdone | ⟨n, hn, hfresh⟩
  · obtain ⟨y, hy, hyname⟩ := List.mem_map.1 hdone
    exact Operator.name_ne_of_split hc.names hsplit y hy (hyname.trans hname)
  · obtain ⟨m, hm, hopname⟩ := hc.named op (by simp [hsplit])
    have heq : m = n := Names.nth_injective (hopname.symm.trans (hname.symm.trans hfresh))
    have := hn
    omega

/-- A sink emitted over what stands for its inputs stands for itself. -/
theorem Trailing.extend {op' : Operator} {ctx' : Context} (hsink : op.kind.isSink)
    (hre : op.Rewired (r.mappedInputs op) ctx op' ctx')
    (hin : ∀ i ∈ r.mappedInputs op, i ∈ r.result.operators)
    (hty : (r.mappedInputs op).map Operator.ty = op.inputs.map Operator.ty)
    (hsem : Sem op op') :
    Trailing c ctx₀ Sem base (done ++ [op]) ((r.extend op').replace op op') ctx' := by
  have hop : op ∈ c.operators := by simp [hsplit]
  have hmapped : ∀ x ∈ done, ((r.extend op').replace op op').mapped x = r.mapped x := by
    intro x hx
    rw [mapped_replace, if_neg (Operator.name_ne_of_split hc.names hsplit x hx), mapped_extend]
  have hself : ((r.extend op').replace op op').mapped op = op' := by
    rw [mapped_replace, if_pos rfl]
  have hresult : ((r.extend op').replace op op').result = r.result.insert op' := rfl
  have hsink' : op'.kind.isSink := hre.kind ▸ hsink
  have hnodes := hre.distinguished h.nodes (List.mem_append_left _ hop)
  constructor
  case assembled =>
    obtain ⟨m, hm, hname⟩ := hc.named op hop
    have hle := (h.later.trans hre.extends).streams
    refine (h.assembled.mono hre.extends).insert (hre.checked (hc.checked op hop) hty)
      (hre.inputs ▸ hin) (by simp [hsink']) (hre.name ▸ h.name_fresh hc hsplit)
      ⟨m, Nat.lt_of_lt_of_le hm hle, hre.name.trans hname⟩ (hnodes.subset fun x hx => ?_)
    simp only [List.mem_cons, List.mem_append] at hx ⊢
    tauto
  case nodes =>
    refine hnodes.subset fun x hx => ?_
    rw [hresult, List.mem_append, Circuit.mem_operators_insert] at hx
    simp only [List.mem_cons, List.mem_append]
    tauto
  case later => exact h.later.trans hre.extends
  case names =>
    intro x hx
    rw [hresult, Circuit.mem_operators_insert] at hx
    rcases hx with rfl | hx
    · exact .inl (by simp [hre.name])
    · exact (h.names x hx).imp_left fun hmem => by simp [List.mem_map.1 hmem]
  case stands =>
    intro x hx
    rcases List.mem_append.1 hx with hx | hx
    · rw [hmapped x hx]
      exact (h.stands x hx).mono fun _ => mem_extend
    · rw [List.mem_singleton.1 hx, hself]
      exact ⟨Circuit.mem_operators_insert.2 (.inl rfl), hre.ty, by rw [hre.kind],
        fun _ => hre.kind, hsem⟩
  case sources =>
    have hsource : op'.kind.isSource = false := OperatorKind.isSource_of_isSink hsink'
    rw [hresult, Circuit.sources_insert, hsource, if_neg Bool.false_ne_true, h.sources]
  case sinks =>
    rw [hresult, Circuit.sinks_insert, if_pos hsink', h.sinks, List.filter_append,
      List.map_append, List.map_congr_left fun x hx => (hmapped x (List.mem_filter.1 hx).1).symm]
    simp [hsink, hself]
  case added =>
    intro x hx
    rw [hresult, Circuit.mem_operators_insert] at hx
    rcases hx with rfl | hx
    · exact .inr hsink'
    · exact h.added x hx

theorem Trailing.ends_copy (hsink : op.kind.isSink)
    (hsem : ∀ op', op'.kind = op.kind → Forall₂ Sem op.inputs op'.inputs → Sem op op') :
    Compile.Ends (r.copy op) ctx (Trailing c ctx₀ Sem base (done ++ [op])) := by
  have hdone : ∀ i ∈ op.inputs, i ∈ done := hc.earlier done op rest hsplit
  have hin : ∀ i ∈ r.mappedInputs op, i ∈ r.result.operators :=
    List.forall_mem_map.2 fun i hi => (h.stands i (hdone i hi)).mem
  have htys : (r.mappedInputs op).map Operator.ty = op.inputs.map Operator.ty := by
    rw [mappedInputs, List.map_map]
    exact List.map_congr_left fun i hi => (h.stands i (hdone i hi)).ty
  have hrelated : Forall₂ Sem op.inputs (r.mappedInputs op) := by
    rw [mappedInputs, List.forall₂_map_right_iff, List.forall₂_same]
    exact fun i hi => (h.stands i (hdone i hi)).sem
  have hwith : Compile.Ends (op.withInputs (r.mappedInputs op)) ctx
      (op.Rewired (r.mappedInputs op) ctx) :=
    Operator.ends_withInputs h.nodes (fun i hi => List.mem_append_right _ (hin i hi))
      (fun i hi => List.mem_append_left _ (hc.earlier.mem (by simp [hsplit]) hi)) htys
  unfold copy
  rw [Compile.ends_bind]
  refine hwith.mono fun op' ctx' hre => ?_
  have hemit := emit_eq_ok (hre.inputs ▸ hin) (hre.name ▸ h.name_fresh hc hsplit)
  rw [Compile.ends_ofExcept]
  exact ⟨_, by rw [emitAs, hemit]; rfl, h.extend hc hsplit hsink hre hin htys
    (hsem op' hre.kind (hre.inputs ▸ hrelated))⟩

end Copy

end Rebuild

namespace Circuit

variable {c : Circuit} {ctx : Context} {Sem Sem' : Operator → Operator → Prop}
  {visit : Rebuild → Operator → Compile Rebuild}

/-- A rebuild of all but the sinks that ends goes on to the sinks when these are copied. -/
theorem Assembled.ends_sinks (hc : c.Assembled ctx) (Sem' : Operator → Operator → Prop)
    {P : Rebuild → Prop}
    (hbase : Compile.Ends (c.sinkless.operators.foldlM visit (Rebuild.start c)) ctx fun r ctx' =>
      Rebuild.Sound c.sinkless ctx Sem c.sinkless.operators c.sinkless.operators r ctx' ∧ P r)
    (hvisit : ∀ (r : Rebuild) (op : Operator), op.kind.isSink → visit r op = r.copy op)
    (hsem : ∀ op op', Sem op op' → Sem' op op')
    (hsinks : ∀ op ∈ c.sinks, ∀ op' : Operator, op'.kind = op.kind →
      Forall₂ Sem' op.inputs op'.inputs → Sem' op op') :
    Compile.Ends (c.operators.foldlM visit (Rebuild.start c)) ctx fun r ctx' =>
      ∃ base, P base ∧ Rebuild.Trailing c ctx Sem' base c.operators r ctx' := by
  rw [operators_sinkless, List.foldlM_append, Compile.ends_bind]
  refine hbase.mono fun base mid h => ?_
  refine (Compile.Ends.foldlM
    (fun done r ctx' => Rebuild.Trailing c ctx Sem' base (c.sinkless.operators ++ done) r ctx') _
    (fun done op rest r ctx' hsplit hr => ?_) (by simpa using h.1.trailing hc hsem)).mono
    fun r ctx' hr => ⟨base, h.2, hr⟩
  have hop : op ∈ c.sinks := by simp [hsplit]
  rw [hvisit r op (hc.sectioned.sinks op hop), ← List.append_assoc]
  exact hr.ends_copy hc (by rw [operators_sinkless, hsplit, List.append_assoc])
    (hc.sectioned.sinks op hop) (hsinks op hop)

end Circuit
end ViewCircuit
