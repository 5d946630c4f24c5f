import ViewCircuit.Proofs.Accumulate

/-! The fold of a list of aggregate calls. All calls share one tuple of slots, of which each finds
its own: what they hold after some rows a step over one more row keeps, so a run over all rows ends
with what every call has of them, and the last step makes one value of each. -/
namespace ViewCircuit

open List (Forall₂)
open scoped Classical

section Slots

variable {α β : Type} {f : Accumulator → Nat → Except CompileError (List α)}
  {R : Accumulator → List Val → Prop} {S : Accumulator → List β → Prop} {Q : α → β → Prop}
  {accumulators : List Accumulator} {parts : List (List Val)} {vs : List Val} {types : List Ty}

/-- Each accumulator finds its own slots at the position that it is given, so what it makes of them
alone it makes among the others. -/
theorem forall₂_of_collectSlots (hlength : ∀ a part, R a part → part.length = a.zero.length)
    (hf : ∀ a part first here, R a part → (∀ i v, part[i]? = some v → vs[first + i]? = some v) →
      (∀ i t, (a.zero.map Expr.ty)[i]? = some t → types[first + i]? = some t) →
      f a first = .ok here → ∃ out, S a out ∧ Forall₂ Q here out)
    (hparts : Forall₂ R accumulators parts) {first : Nat} (hvs : vs.drop first = parts.flatten)
    (htypes : types.drop first = (accumulators.flatMap Accumulator.zero).map Expr.ty)
    {es : List α} (h : collectSlots f accumulators first = .ok es) :
    ∃ outs, Forall₂ S accumulators outs ∧ Forall₂ Q es outs.flatten := by
  induction hparts generalizing first es with
  | nil =>
    cases h
    exact ⟨[], .nil, .nil⟩
  | @cons a part accumulators parts hpart _ ih =>
    obtain ⟨here, hhere, h⟩ := except_bind_eq_ok.1 h
    obtain ⟨later, hlater, h⟩ := except_bind_eq_ok.1 h
    cases h
    rw [List.flatten_cons] at hvs
    rw [List.flatMap_cons, List.map_append] at htypes
    have hlen := hlength a part hpart
    have hvsHere : ∀ i v, part[i]? = some v → vs[first + i]? = some v := by
      intro i v hv
      have hi : i < part.length := (List.getElem?_eq_some_iff.1 hv).1
      rw [← List.getElem?_drop, hvs, List.getElem?_append_left hi, hv]
    have htypesHere : ∀ i t, (a.zero.map Expr.ty)[i]? = some t → types[first + i]? = some t := by
      intro i t ht
      have hi : i < (a.zero.map Expr.ty).length := (List.getElem?_eq_some_iff.1 ht).1
      rw [← List.getElem?_drop, htypes, List.getElem?_append_left hi, ht]
    have hvsLater : vs.drop (first + a.zero.length) = parts.flatten := by
      rw [← List.drop_drop, hvs, ← hlen, List.drop_left]
    have htypesLater : types.drop (first + a.zero.length) =
        (accumulators.flatMap Accumulator.zero).map Expr.ty := by
      rw [← List.drop_drop, htypes, ← List.length_map (f := Expr.ty), List.drop_left]
    obtain ⟨out, hout, hQ⟩ := hf a part first here hpart hvsHere htypesHere hhere
    obtain ⟨outs, houts, hQs⟩ := ih hvsLater htypesLater hlater
    exact ⟨out :: outs, .cons hout houts, List.rel_append hQ hQs⟩

theorem forall₂_comp {γ δ ε : Type} {P : γ → δ → Prop} {P' : δ → ε → Prop} {cs : List γ}
    {ds : List δ} {es : List ε} (h : Forall₂ P cs ds) (h' : Forall₂ P' ds es) :
    Forall₂ (fun c e => ∃ d, P c d ∧ P' d e) cs es := by
  induction h generalizing es with
  | nil =>
    cases h'
    exact .nil
  | cons hcd _ ih =>
    cases h' with
    | cons hde hes => exact .cons ⟨_, hcd, hde⟩ (ih hes)

theorem forall₂_flatten_singletons {P : Accumulator → β → Prop} {outs : List (List β)}
    (h : Forall₂ (fun a out => ∃ v, out = [v] ∧ P a v) accumulators outs) :
    Forall₂ P accumulators outs.flatten := by
  induction h with
  | nil => exact .nil
  | cons hout _ ih =>
    obtain ⟨v, rfl, hv⟩ := hout
    exact .cons hv ih

end Slots

/-- Folds take every row of a collection once. -/
structure Engine.FoldsAll (E : Engine) : Prop where
  nodup (x : ZSet) : (E.order x).Nodup
  mem_iff {x : ZSet} {row : Val} : row ∈ E.order x ↔ row ∈ x.support

namespace Engine.FoldsAll

variable {E : Engine}

theorem sum_order (hE : E.FoldsAll) (x : ZSet) :
    ((E.order x).map fun row => Finsupp.single row (x row)).sum = x := by
  have hsupport : (E.order x).toFinset = x.support := by
    ext row
    rw [List.mem_toFinset, hE.mem_iff]
  rw [← List.sum_toFinset _ (hE.nodup x), hsupport]
  exact Finsupp.sum_single x

/-- What a step over one row keeps, a run over all rows keeps. -/
theorem exists_foldlM {f : Val → Val → ℤ → Option Val} {Inv : ZSet → Val → Prop} {x y : ZSet}
    {rows : List Val} (hrows : ∀ row ∈ rows, ∀ z acc, Inv z acc →
      ∃ acc', f acc row (x row) = some acc' ∧ Inv (z + Finsupp.single row (x row)) acc')
    {acc : Val} (hacc : Inv y acc) :
    ∃ acc', (rows.map fun row => (row, x row)).foldlM (fun acc r => f acc r.1 r.2) acc =
      some acc' ∧ Inv (y + (rows.map fun row => Finsupp.single row (x row)).sum) acc' := by
  induction rows generalizing y acc with
  | nil => exact ⟨acc, rfl, by simpa using hacc⟩
  | cons row rows ih =>
    obtain ⟨hrow, hrows⟩ := List.forall_mem_cons.1 hrows
    obtain ⟨acc₁, hstep, hacc₁⟩ := hrow y acc hacc
    obtain ⟨acc', hrun, hacc'⟩ := ih hrows hacc₁
    refine ⟨acc', ?_, ?_⟩
    · rw [List.map_cons, List.foldlM_cons, hstep]
      exact hrun
    · rwa [List.map_cons, List.sum_cons, ← add_assoc]

end Engine.FoldsAll

section Folds

variable {E : Engine} {domains : Nat → Domain} {types : List Ty} {accumulators : List Accumulator}

/-- The tuple of all slots before the first row. -/
abbrev slots (accumulators : List Accumulator) : Expr :=
  Expr.tuple (accumulators.flatMap Accumulator.zero)

/-- The parameter that binds the slots. -/
abbrev accParam (accumulators : List Accumulator) : Param := ⟨"acc", (slots accumulators).ty⟩

/-- The accumulator holds what its calls have of the rows so far. -/
structure Accumulated (rt : Runtime) (domains : Nat → Domain) (types : List Ty)
    (accumulators : List Accumulator) (x : ZSet) (acc : Val) : Prop where
  nonneg : x.Nonneg
  datum : acc.IsDatum (slots accumulators).ty
  parts : ∃ parts, Forall₂ (fun a part => a.Supported rt domains types ∧ a.Holds domains x part)
    accumulators parts ∧ acc = Val.tuple parts.flatten

theorem exists_zero {rt : Runtime}
    (hsupported : ∀ a ∈ accumulators, a.Supported rt domains types) :
    ∃ acc, (slots accumulators).Delivers rt [] acc ∧
      Accumulated rt domains types accumulators 0 acc := by
  have hparts : ∃ parts, Forall₂ (fun a part => a.Supported rt domains types ∧
      a.Holds domains 0 part) accumulators parts ∧
      Forall₂ (Expr.Delivers rt []) (accumulators.flatMap Accumulator.zero) parts.flatten := by
    induction accumulators with
    | nil => exact ⟨[], .nil, .nil⟩
    | cons a rest ih =>
      obtain ⟨ha, hrest⟩ := List.forall_mem_cons.1 hsupported
      obtain ⟨parts, hparts, hdelivers⟩ := ih hrest
      obtain ⟨part, hpart, hzero⟩ : ∃ part, a.Holds domains 0 part ∧
          Forall₂ (Expr.Delivers rt []) a.zero part := a.holds_zero
      exact ⟨part :: parts, .cons ⟨ha, hpart⟩ hparts, List.rel_append hzero hdelivers⟩
  obtain ⟨parts, hparts, hdelivers⟩ := hparts
  have htuple := delivers_tuple hdelivers
  exact ⟨_, htuple, fun _ => le_rfl, htuple.datum, parts, hparts, rfl⟩

namespace Accumulated

variable {rt : Runtime} {ρ : Env} {x : ZSet} {acc row : Val} {k : ℤ} {read t w : Expr}

/-- Each accumulator reads slots of its own. -/
theorem reads {vs part : List Val} {a : Accumulator} {first : Nat}
    (hread : read.Delivers rt ρ (Val.tuple vs))
    (hty : read.ty = (slots accumulators).ty)
    (hvs : ∀ i v, part[i]? = some v → vs[first + i]? = some v)
    (htypes : ∀ i t, (a.zero.map Expr.ty)[i]? = some t →
      ((accumulators.flatMap Accumulator.zero).map Expr.ty)[first + i]? = some t)
    (hlength : part.length = a.zero.length) :
    a.Reads rt ρ (fun i => Expr.field read (first + i)) part := by
  intro i v e hv he
  obtain ⟨hdelivers, he⟩ := hread.field hty (hvs i v hv) he
  refine ⟨hdelivers, ?_⟩
  have hi : i < (a.zero.map Expr.ty).length := by
    rw [List.length_map, ← hlength]
    exact (List.getElem?_eq_some_iff.1 hv).1
  have hslot := List.getElem?_eq_getElem hi
  rwa [hslot, ← htypes i _ hslot]

theorem step (h : Accumulated rt domains types accumulators x acc) (hrt : rt.Aggregating)
    (hread : read.Delivers rt ρ acc)
    (hty : read.ty = (slots accumulators).ty)
    (ht : t.RefersTo rt ρ types row) (hw : w.Delivers rt ρ (Val.int64 k)) (hwty : w.ty = Ty.int64)
    (hk : 0 < k) {steps : List Expr}
    (hsteps : collectSlots (fun a first => a.step (fun i => Expr.field read (first + i)) t w)
      accumulators 0 = .ok steps)
    (hstepty : (Expr.tuple steps).ty = (slots accumulators).ty) :
    ∃ acc', (Expr.tuple steps).Delivers rt ρ acc' ∧
      Accumulated rt domains types accumulators (x + Finsupp.single row k) acc' := by
  obtain ⟨parts, hparts, rfl⟩ := h.parts
  obtain ⟨outs, houts, hdelivers⟩ := forall₂_of_collectSlots
    (S := fun a out =>
      a.Supported rt domains types ∧ a.Holds domains (x + Finsupp.single row k) out)
    (Q := Expr.Delivers rt ρ) (fun _ _ hpart => hpart.2.length)
    (fun a part first here hpart hvs htypes hhere => by
      obtain ⟨out, hout, hdelivers⟩ := hpart.2.step hrt hpart.1
        (reads hread hty hvs htypes hpart.2.length) h.nonneg hk ht hw hwty hhere
      exact ⟨out, ⟨hpart.1, hout⟩, hdelivers⟩)
    hparts (List.drop_zero ..) (List.drop_zero ..) hsteps
  have htuple := delivers_tuple hdelivers
  exact ⟨_, htuple, h.nonneg.add_single hk, hstepty ▸ htuple.datum, outs, houts, rfl⟩

theorem results (h : Accumulated rt domains types accumulators x acc) (hrt : rt.Aggregating)
    (hread : read.Delivers rt ρ acc)
    (hty : read.ty = (slots accumulators).ty) {es : List Expr}
    (hes : collectSlots (fun a first => do
      return [← a.result fun i => Expr.field read (first + i)]) accumulators 0 = .ok es) :
    ∃ vs, Forall₂ (Expr.Delivers rt ρ) es vs ∧
      Forall₂ (fun a v => a.Computes domains x v) accumulators vs := by
  obtain ⟨parts, hparts, rfl⟩ := h.parts
  obtain ⟨outs, houts, hdelivers⟩ := forall₂_of_collectSlots
    (S := fun a out => ∃ v, out = [v] ∧ a.Computes domains x v)
    (Q := Expr.Delivers rt ρ) (fun _ _ hpart => hpart.2.length)
    (fun a part first here hpart hvs htypes hhere => by
      obtain ⟨e, he, hhere⟩ := except_bind_eq_ok.1 hhere
      cases hhere
      obtain ⟨v, hv, hdelivers⟩ := hpart.2.result hrt hpart.1
        (reads hread hty hvs htypes hpart.2.length) h.nonneg he
      exact ⟨[v], ⟨v, rfl, hv⟩, .cons hdelivers .nil⟩)
    hparts (List.drop_zero ..) (List.drop_zero ..) hes
  exact ⟨outs.flatten, hdelivers, forall₂_flatten_singletons houts⟩

end Accumulated

/-- Steps and results of a fold, over the slots of its accumulators. -/
theorem foldExpr_eq_ok {row : Ty} {fold : Expr} (h : foldExpr row accumulators = .ok fold) :
    ∃ steps es, collectSlots (fun a first => a.step
        (fun i => Expr.field (accParam accumulators).var (first + i))
        (Param.var ⟨"t", Ty.ref row⟩) (Param.var ⟨"w", Ty.int64⟩)) accumulators 0 = .ok steps ∧
      collectSlots (fun a first => do
        return [← a.result fun i => Expr.field (accParam accumulators).var (first + i)])
          accumulators 0 = .ok es ∧
      (Expr.tuple steps).ty = (slots accumulators).ty ∧
      fold = ⟨.fold (slots accumulators)
        (Expr.closure [accParam accumulators, ⟨"t", Ty.ref row⟩, ⟨"w", Ty.int64⟩]
          (Expr.tuple steps)) (Expr.closure [accParam accumulators] (Expr.tuple es)),
        Ty.user "Fold" [row, (slots accumulators).ty, Ty.tuple (es.map Expr.ty)]⟩ := by
  obtain ⟨steps, hsteps, h⟩ := except_bind_eq_ok.1 h
  obtain ⟨es, hes, h⟩ := except_bind_eq_ok.1 h
  obtain ⟨hincrement, result, hpost, rfl⟩ := fold_eq_ok h
  obtain rfl : Ty.tuple (es.map Expr.ty) = result := (Prod.mk.inj (Option.some.inj hpost)).2
  have hparts := congrArg Ty.functionParts? hincrement
  exact ⟨steps, es, hsteps, hes, (Prod.mk.inj (Option.some.inj hparts)).2, rfl⟩

theorem fold_closures {zero step last : Expr} {params params' : List Param} {ty : Ty} {x : ZSet}
    {z acc v : Val} (hzero : Evals E.runtime [] zero z 0)
    (hrun : ((E.order x).map fun row => (row, x row)).foldlM (fun acc r =>
      (Env.close [] params step).call E.runtime [acc, Val.ref r.1, Val.int64 r.2]) z = some acc)
    (hlast : (Env.close [] params' last).call E.runtime [acc] = some v) :
    E.fold ⟨.fold zero (Expr.closure params step) (Expr.closure params' last), ty⟩ x = some v := by
  have hstep : Evals E.runtime [] (Expr.closure params step) (Env.close [] params step) 0 :=
    evals_closure.2 ⟨rfl, rfl⟩
  have hlast' : Evals E.runtime [] (Expr.closure params' last) (Env.close [] params' last) 0 :=
    evals_closure.2 ⟨rfl, rfl⟩
  have hparts := evalsAll_cons.2 ⟨_, 0, _, 0, hzero, evalsAll_cons.2 ⟨_, 0, _, 0, hstep,
    evalsAll_cons.2 ⟨_, 0, _, 0, hlast', evalsAll_nil.2 ⟨rfl, rfl⟩, rfl, rfl⟩, rfl, rfl⟩, rfl, rfl⟩
  refine Option.bind_eq_some_iff.2 ⟨_, valueOf_eq_some.2 ⟨0, (evals_head rfl).2
    ⟨_, hparts, rfl⟩⟩, ?_⟩
  exact Option.bind_eq_some_iff.2 ⟨acc, hrun, hlast⟩

/-- The fold of aggregate calls gives one value for each call. -/
theorem exists_fold (hE : E.FoldsAll) (hrt : E.runtime.Aggregating)
    (hsupported : ∀ a ∈ accumulators, a.Supported E.runtime domains types) {fold : Expr}
    (h : foldExpr (Ty.tuple types) accumulators = .ok fold) :
    ∃ acc us, fold.ty = Ty.user "Fold" [Ty.tuple types, acc, Ty.tuple us] ∧
      ∀ x : ZSet, x.Nonneg → (∀ row ∈ x.support, row.IsRow types) → ∃ vs,
        E.fold fold x = some (Val.tuple vs) ∧ (Val.tuple vs).IsRow us ∧
        Forall₂ (fun a v => a.Computes domains x v) accumulators vs := by
  obtain ⟨steps, es, hsteps, hes, hstepty, rfl⟩ := foldExpr_eq_ok h
  refine ⟨_, es.map Expr.ty, rfl, fun x hx hrows => ?_⟩
  obtain ⟨zero, hzero, haccumulated⟩ := exists_zero hsupported
  have hrun : ∀ row ∈ E.order x, ∀ z acc, Accumulated E.runtime domains types accumulators z acc →
      ∃ acc', (Env.close [] [accParam accumulators, ⟨"t", Ty.ref (Ty.tuple types)⟩,
        ⟨"w", Ty.int64⟩] (Expr.tuple steps)).call E.runtime
          [acc, Val.ref row, Val.int64 (x row)] = some acc' ∧
        Accumulated E.runtime domains types accumulators (z + Finsupp.single row (x row)) acc' := by
    intro row hrow z acc hacc
    have hrow := hE.mem_iff.1 hrow
    let ρ : Env := [("w", Val.int64 (x row)), ("t", Val.ref row), ("acc", acc)]
    have hread : (accParam accumulators).var.Delivers E.runtime ρ acc :=
      ⟨evals_var.2 ⟨rfl, rfl⟩, hacc.datum⟩
    have ht : Expr.RefersTo E.runtime ρ (Param.var ⟨"t", Ty.ref (Ty.tuple types)⟩) types row :=
      ⟨rfl, evals_var.2 ⟨rfl, rfl⟩, hrows row hrow⟩
    have hw : Expr.Delivers E.runtime ρ (Param.var ⟨"w", Ty.int64⟩) (Val.int64 (x row)) :=
      ⟨evals_var.2 ⟨rfl, rfl⟩, rfl, .atom rfl⟩
    obtain ⟨acc', hacc', hnext⟩ := hacc.step hrt hread rfl ht hw rfl
      (hx.mem_support.1 hrow) hsteps hstepty
    exact ⟨acc', Val.call_eq_some.2 ⟨ρ, _, rfl, 0, hacc'.evals⟩, hnext⟩
  obtain ⟨acc, hfold, hacc⟩ := Engine.FoldsAll.exists_foldlM (x := x)
    (f := fun acc row k => (Env.close [] _ _).call E.runtime [acc, Val.ref row, Val.int64 k])
    hrun haccumulated
  rw [zero_add, hE.sum_order] at hacc
  have hread : (accParam accumulators).var.Delivers E.runtime [("acc", acc)] acc :=
    ⟨evals_var.2 ⟨rfl, rfl⟩, hacc.datum⟩
  obtain ⟨vs, hvs, hcomputes⟩ := hacc.results hrt hread rfl hes
  have htuple := delivers_tuple hvs
  refine ⟨vs, fold_closures hzero.evals hfold ?_, htuple.datum, hcomputes⟩
  exact Val.call_eq_some.2 ⟨[("acc", acc)], _, rfl, 0, htuple.evals⟩

end Folds

/-- The fold makes rows of some types out of rows, with the value of each call. -/
structure Engine.FoldsCalls (E : Engine) (domains : Nat → Domain) (types : List Ty)
    (calls : List AggregateCall) (fold : Expr) (us : List Ty) : Prop where
  ty : ∃ acc, fold.ty.kind = .user "Fold" [Ty.tuple types, acc, Ty.tuple us]
  row {x : ZSet} : x.Nonneg → (∀ row ∈ x.support, row.IsRow types) →
    (E.meaning.fold fold x).IsRow us
  computes {x : ZSet} : x.Nonneg → (∀ row ∈ x.support, row.IsRow types) →
    Forall₂ (fun call v => AggregateCall.Computes domains call x v) calls
      (E.meaning.fold fold x).cells

theorem exists_foldsCalls {E : Engine} {domains : Nat → Domain} {types : List Ty}
    {calls : List AggregateCall} {accumulators : List Accumulator} {fold : Expr} (hE : E.FoldsAll)
    (hrt : E.runtime.Aggregating)
    (hsupported : ∀ call ∈ calls, call.Supported E.runtime domains types)
    (haccumulators : calls.mapM (fun call => call.accumulator types) = .ok accumulators)
    (h : foldExpr (Ty.tuple types) accumulators = .ok fold) :
    ∃ us, E.FoldsCalls domains types calls fold us := by
  have hcalls := mapM_eq_ok.1 haccumulators
  have hall : ∀ a ∈ accumulators, a.Supported E.runtime domains types :=
    forall_mem_of_mapM haccumulators fun call hcall a ha =>
      (AggregateCall.of_accumulator ha).1 E.runtime (hsupported call hcall)
  obtain ⟨acc, us, hty, hfold⟩ := exists_fold hE hrt hall h
  refine ⟨us, ⟨acc, congrArg Ty.kind hty⟩, fun hx hrows => ?_, fun {x} hx hrows => ?_⟩
  · obtain ⟨vs, hvs, hrow, -⟩ := hfold _ hx hrows
    simpa [Engine.meaning, hvs] using hrow
  · obtain ⟨vs, hvs, -, hcomputes⟩ := hfold _ hx hrows
    have hvalue : E.meaning.fold fold x = Val.tuple vs := by simp [Engine.meaning, hvs]
    rw [hvalue, Val.cells_tuple]
    refine (forall₂_comp hcalls hcomputes).imp fun call v h => ?_
    obtain ⟨a, ha, hv⟩ := h
    exact (AggregateCall.of_accumulator ha).2 x v hv

/-- An engine that calculates with integers and folds the rows of a collection in any order. -/
noncomputable def Engine.calculating : Engine :=
  { Engine.summing with runtime := Runtime.arithmetic }

theorem Engine.calculating_foldsAll : Engine.calculating.FoldsAll where
  nodup x := x.support.nodup_toList
  mem_iff := Finset.mem_toList

end ViewCircuit
