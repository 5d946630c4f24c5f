import Mathlib.Data.List.Basic
import ViewCircuit.Proofs.Compile

/-! Operators that fit their inputs are those that the constructors accept. -/
namespace ViewCircuit.Operator

/-- Makes an operator anew: its constructor, on the inputs and the function that it has. -/
def construct (op : Operator) : Compile Operator :=
  match op.kind, op.inputs with
  | .source table, [] => source table (op.ty.zsetElement?.getD op.ty) op.isMultiset
  | .sink view, [input] => sink view input
  | .map f, [input] => map input f
  | .filter f, [input] => filter input f
  | .index f, [input] => index input f
  | .join f, [left, right] => join left right f
  | .aggregate f, [input] => aggregate input f
  | .windowAggregate window f, [input] => windowAggregate input window f
  | .distinct, [input] => distinct input
  | .sum, inputs => sum inputs
  | .subtract, [left, right] => subtract left right
  | .negate, [input] => negate input
  | .constant e, [] => constant e
  | .noop, [input] => noop input
  | .integrate, [input] => integrate input
  | .differentiate, [input] => differentiate input
  | .incrementalDistinct, [input] => incrementalDistinct input
  | .incrementalJoin f, [left, right] => incrementalJoin left right f
  | .incrementalAggregate f, [input] => incrementalAggregate input f
  | _, _ => throw (.invariant .inputCount)

variable {ctx : Context} {input left right : Operator} {f : Expr} {ty : Ty}

theorem ends_map {param result : Ty} (hparam : rowParam input.ty = .ok param)
    (hf : f.ty.functionParts? = some ([param], result)) :
    Compile.Ends (map input f) ctx (Made (.map f) [input] (Ty.zset result) ctx) := by
  unfold map
  simp only [hparam, checkClosure_eq_ok hf, Compile.ends_bind, Compile.ends_ofExcept,
    Except.ok.injEq, exists_eq_left']
  exact ends_make

theorem expectZSet_eq_ok {operation : String} {element : Ty}
    (h : input.ty.zsetElement? = some element) : expectZSet operation input = .ok element := by
  unfold expectZSet
  rw [h]

theorem ends_filter {element : Ty} (helement : input.ty.zsetElement? = some element)
    (hf : f.ty.functionParts? = some ([Ty.ref element], Ty.bool)) :
    Compile.Ends (filter input f) ctx (Made (.filter f) [input] input.ty ctx) := by
  have hbool : Ty.bool.same Ty.bool := (Ty.same_iff _ _).2 rfl
  unfold filter
  simp only [expectZSet_eq_ok helement, checkClosure_eq_ok hf, Compile.ends_bind,
    Compile.ends_ofExcept, Except.ok.injEq, exists_eq_left', hbool, Bool.not_true,
    Bool.false_eq_true, if_false]
  exact ends_make

theorem ends_index {element key value : Ty} (helement : input.ty.zsetElement? = some element)
    (hf : f.ty.functionParts? = some ([Ty.ref element], Ty.rawTuple [key, value])) :
    Compile.Ends (index input f) ctx (Made (.index f) [input] (Ty.indexedZSet key value) ctx) := by
  have hpair : pairType (Ty.rawTuple [key, value]) = .ok (Ty.indexedZSet key value) := rfl
  unfold index
  simp only [expectZSet_eq_ok helement, checkClosure_eq_ok hf, hpair, Compile.ends_bind,
    Compile.ends_ofExcept, Except.ok.injEq, exists_eq_left']
  exact ends_make

theorem ends_join (h : (OperatorKind.join f).Typed [left.ty, right.ty] ty) :
    Compile.Ends (join left right f) ctx (Made (.join f) [left, right] ty ctx) := by
  unfold join
  simp only [joinType_eq_ok h, Compile.ends_bind, Compile.ends_ofExcept, Except.ok.injEq,
    exists_eq_left']
  exact ends_make

theorem ends_aggregate (h : (OperatorKind.aggregate f).Typed [input.ty] ty) :
    Compile.Ends (aggregate input f) ctx (Made (.aggregate f) [input] ty ctx) := by
  unfold aggregate
  simp only [aggregateType_eq_ok h, Compile.ends_bind, Compile.ends_ofExcept, Except.ok.injEq,
    exists_eq_left']
  exact ends_make

theorem ends_windowAggregate {window : Expr} (hrange : isRange window)
    (h : (OperatorKind.aggregate f).Typed [input.ty] ty) :
    Compile.Ends (windowAggregate input window f) ctx
      (Made (.windowAggregate window f) [input] ty ctx) := by
  unfold windowAggregate
  simp only [hrange, Bool.not_true, Bool.false_eq_true, if_false, aggregateType_eq_ok h,
    Compile.ends_bind, Compile.ends_ofExcept, Except.ok.injEq, exists_eq_left']
  exact ends_make

/-- Inputs of one type have it in common. -/
theorem commonType_eq_ok {operation : String} {inputs : List Operator} {n : Nat}
    (h : inputs.map Operator.ty = List.replicate (n + 1) ty) :
    commonType operation inputs = .ok ty := by
  cases inputs with
  | nil => cases h
  | cons first rest =>
    rw [List.map_cons, List.replicate_succ] at h
    obtain ⟨hfirst, hrest⟩ := List.cons.inj h
    have hsame : ∀ i ∈ rest, i.ty = first.ty := by
      intro i hi
      have hmem : i.ty ∈ rest.map Operator.ty := List.mem_map_of_mem hi
      rw [hrest] at hmem
      rw [hfirst, (List.mem_replicate.1 hmem).2]
    have hnone : rest.find? (fun i => !i.ty.same first.ty) = none := by
      rw [List.find?_eq_none]
      intro i hi
      simp [(Ty.same_iff _ _).2 (hsame i hi)]
    unfold commonType
    dsimp only
    rw [hnone]
    exact congrArg _ hfirst

theorem ends_sum {inputs : List Operator} {n : Nat}
    (h : inputs.map Operator.ty = List.replicate (n + 1) ty) :
    Compile.Ends (sum inputs) ctx (Made .sum inputs ty ctx) := by
  unfold sum
  simp only [commonType_eq_ok h, Compile.ends_bind, Compile.ends_ofExcept, Except.ok.injEq,
    exists_eq_left']
  exact ends_make

theorem ends_subtract (hleft : left.ty = ty) (hright : right.ty = ty) :
    Compile.Ends (subtract left right) ctx (Made .subtract [left, right] ty ctx) := by
  have htys : [left, right].map Operator.ty = List.replicate (1 + 1) ty := by
    simp [hleft, hright, List.replicate]
  unfold subtract
  simp only [commonType_eq_ok htys, Compile.ends_bind, Compile.ends_ofExcept, Except.ok.injEq,
    exists_eq_left']
  exact ends_make

theorem ends_constant (h : f.ty.isCollection) :
    Compile.Ends (constant f) ctx (Made (.constant f) [] f.ty ctx) := by
  unfold constant
  rw [if_pos h]
  exact ends_make

/-- The constructor accepts what fits, and makes an operator of the same type. -/
theorem Checked.ends_construct {op : Operator} (h : op.Checked) :
    Compile.Ends op.construct ctx (Made op.kind op.inputs op.ty ctx) := by
  obtain ⟨id, name, kind, inputs, ty, isMultiset⟩ := op
  change kind.Typed (inputs.map Operator.ty) ty at h
  unfold construct
  dsimp only
  generalize hts : inputs.map Operator.ty = ts at h
  cases h with
  | source =>
    obtain rfl := List.map_eq_nil_iff.1 hts
    exact ends_make
  | sink ht =>
    obtain ⟨input, rfl, rfl⟩ := List.map_eq_singleton_iff.1 hts
    exact ends_make
  | map hparam hf =>
    obtain ⟨input, rfl, rfl⟩ := List.map_eq_singleton_iff.1 hts
    exact ends_map hparam hf
  | filter helement hf =>
    obtain ⟨input, rfl, rfl⟩ := List.map_eq_singleton_iff.1 hts
    exact ends_filter helement hf
  | index helement hf =>
    obtain ⟨input, rfl, rfl⟩ := List.map_eq_singleton_iff.1 hts
    exact ends_index helement hf
  | join hs ht hf =>
    match inputs, hts with
    | [left, right], hts =>
      obtain ⟨rfl, rfl⟩ : left.ty = _ ∧ right.ty = _ := by simpa using hts
      exact ends_join (.join hs ht hf)
  | aggregate hparts hf =>
    obtain ⟨input, rfl, rfl⟩ := List.map_eq_singleton_iff.1 hts
    exact ends_aggregate (.aggregate hparts hf)
  | windowAggregate hrange hparts hf =>
    obtain ⟨input, rfl, rfl⟩ := List.map_eq_singleton_iff.1 hts
    exact ends_windowAggregate hrange (.aggregate hparts hf)
  | keeps hkeeps ht =>
    obtain ⟨input, rfl, rfl⟩ := List.map_eq_singleton_iff.1 hts
    cases kind <;> first | exact ends_unary ht | cases hkeeps
  | sum ht => exact ends_sum hts
  | subtract ht =>
    obtain ⟨left, right, rfl⟩ := List.length_eq_two.1 (by simpa using congrArg List.length hts)
    obtain ⟨hleft, hright⟩ : left.ty = _ ∧ right.ty = _ := by simpa using hts
    exact ends_subtract hleft hright
  | constant he =>
    obtain rfl := List.map_eq_nil_iff.1 hts
    exact ends_constant he
  | incrementalJoin hjoin =>
    subst hts
    obtain ⟨left, right, rfl⟩ := hjoin.join_inputs
    exact ends_incrementalJoin hjoin
  | incrementalAggregate haggregate =>
    subst hts
    obtain ⟨input, rfl⟩ := haggregate.aggregate_inputs
    exact ends_incrementalAggregate haggregate

/-- A constructor makes operators of its kind over the inputs it is given. -/
theorem makes_construct {template : Operator} (h : ∀ i ∈ template.inputs, i.ty.isCollection) :
    Makes template.construct template.kind template.inputs := by
  obtain ⟨id, name, kind, inputs, ty, isMultiset⟩ := template
  unfold construct
  dsimp only at h ⊢
  split
  · exact makes_source
  · exact makes_sink (h _ (by simp))
  · exact makes_map
  · exact makes_filter
  · exact makes_index
  · exact makes_join
  · exact makes_aggregate
  · exact makes_windowAggregate
  · exact makes_unary rfl (by simp [OperatorKind.mark?])
  · exact makes_sum fun i hi => h i (List.mem_of_mem_head? hi)
  · exact makes_subtract (h _ (by simp))
  · exact makes_unary rfl (by simp [OperatorKind.mark?])
  · exact makes_constant
  · exact makes_unary rfl (by simp [OperatorKind.mark?])
  · exact makes_unary rfl (by simp [OperatorKind.mark?])
  · exact makes_unary rfl (by simp [OperatorKind.mark?])
  · exact makes_unary rfl (by simp [OperatorKind.mark?])
  · exact makes_incrementalJoin
  · exact makes_incrementalAggregate
  · intro ctx op ctx' hrun
    cases hrun

end ViewCircuit.Operator
