import ViewCircuit.Proofs.Conformance
import ViewCircuit.Proofs.Construct
import ViewCircuit.Proofs.Rows

/-! Set operations of any number of streams of one type. They can always be lowered, and from inputs
without negative weights they make rows whose weights the input weights determine. -/
namespace ViewCircuit

open List (Forall₂)
open scoped Classical

namespace ZSet

/-- What an input at a position of a difference counts for: its distinct rows, up for the first
input and down for the others. -/
noncomputable def differenceTerm (x : ZSet) (position : ℕ) : ZSet :=
  if position = 0 then x.distinct else -x.distinct

theorem sum_differenceTerm {α : Type} (f : α → ZSet) (first : α) (rest : List α) :
    ((first :: rest).zipIdx.map fun term => (f term.1).differenceTerm term.2).sum =
      (f first).distinct - (rest.map fun x => (f x).distinct).sum := by
  have hrest : ∀ n, ((rest.zipIdx (n + 1)).map fun term => (f term.1).differenceTerm term.2).sum =
      -(rest.map fun x => (f x).distinct).sum := by
    induction rest with
    | nil => exact fun _ => neg_zero.symm
    | cons x rest ih =>
      intro n
      have hx : (f x).differenceTerm (n + 1) = -(f x).distinct := if_neg (Nat.succ_ne_zero n)
      rw [List.zipIdx_cons, List.map_cons, List.sum_cons, ih, hx, List.map_cons, List.sum_cons,
        neg_add]
  rw [List.zipIdx_cons, List.map_cons, List.sum_cons, hrest, ← sub_eq_add_neg]
  rfl

end ZSet

namespace Circuit

/-- A member that may be read and puts out rows of the type. -/
structure Supplies (c : Circuit) (t : Ty) (op : Operator) : Prop where
  offers : c.Offers op
  ty : op.ty = Ty.zset t

variable {c c' : Circuit} {t : Ty} {op : Operator}

theorem Supplies.grows (h : c.Supplies t op) (hc : c.Grows c') : c'.Supplies t op :=
  ⟨h.offers.grows hc, h.ty⟩

end Circuit

namespace Lower

variable {α β : Type}

/-- The step succeeds whatever was drawn from the context so far. The circuit stays well-formed and
gains interior operators only, and what the step returns has a property. -/
def Completes (act : Lower α) (c : Circuit) (post : α → Circuit → Prop) : Prop :=
  ∀ ctx, c.WellFormed ctx → ∃ a c' ctx',
    act c ctx = (.ok (a, c'), ctx') ∧ c'.WellFormed ctx' ∧ c.Grows c' ∧ post a c'

section Rules

variable {c : Circuit} {act : Lower α} {post mid : α → Circuit → Prop}

theorem Completes.mono (h : Completes act c mid) (hpost : ∀ a c', mid a c' → post a c') :
    Completes act c post := by
  intro ctx hc
  obtain ⟨a, c', ctx', hrun, hc', hgrows, hmid⟩ := h ctx hc
  exact ⟨a, c', ctx', hrun, hc', hgrows, hpost a c' hmid⟩

theorem completes_pure {a : α} (h : post a c) : Completes (pure a) c post :=
  fun ctx hc => ⟨a, c, ctx, rfl, hc, .refl c, h⟩

theorem Completes.bind {next : α → Lower β} {post : β → Circuit → Prop}
    (h : Completes act c mid)
    (hnext : ∀ a c', c.Grows c' → mid a c' → Completes (next a) c' post) :
    Completes (act >>= next) c post := by
  intro ctx hc
  obtain ⟨a, c₁, ctx₁, hact, hc₁, hgrows, hmid⟩ := h ctx hc
  obtain ⟨b, c', ctx', hrun, hc', hgrows', hpost⟩ := hnext a c₁ hgrows hmid ctx₁ hc₁
  exact ⟨b, c', ctx', bind_eq_ok.2 ⟨a, c₁, ctx₁, hact, hrun⟩, hc', hgrows.trans hgrows', hpost⟩

/-- A check that passes leaves the circuit as it is. -/
theorem completes_checked {r : Except CompileError α} {a : α} {next : α → Lower β}
    {post : β → Circuit → Prop} (hr : r = .ok a) (h : Completes (next a) c post) :
    Completes (check r >>= next) c post := by
  subst hr
  exact h

theorem emit_of_add {make : Compile Operator} {op : Operator} {c' : Circuit} {ctx ctx' : Context}
    (hmake : make ctx = (.ok op, ctx')) (hadd : c.add op = .ok c') :
    emit make c ctx = (.ok (op, c'), ctx') := by
  refine bind_eq_ok.2 ⟨op, c, ctx', ?_, ?_⟩
  · exact (run_bind_eq_ok make fun a => pure (a, c)).2 ⟨op, ctx', hmake, rfl⟩
  · change (check (c.add op) >>= fun added => (do
      set added
      return op : Lower Operator)) c ctx' = _
    rw [hadd]
    rfl

/-- An operator that its constructor makes of members is added to them. -/
theorem completes_emit {make : Compile Operator} {kind : OperatorKind} {inputs : List Operator}
    {ty : Ty} (hmake : ∀ ctx, Compile.Ends make ctx (Operator.Made kind inputs ty ctx))
    (htyped : kind.Typed (inputs.map Operator.ty) ty) (hin : ∀ i ∈ inputs, c.Offers i)
    (hsource : kind.isSource = false) (hsink : kind.isSink = false) :
    Completes (emit make) c fun op c' => Emitted kind inputs op c' ∧ op.ty = ty := by
  intro ctx hc
  obtain ⟨op, ctx', hrun, hmade⟩ := hmake ctx
  obtain ⟨hc', hadd⟩ := hc.insert_new hmade.toNew (hmade.checked htyped) (hmade.inputs ▸ hin)
  refine ⟨op, c.insert op, ctx', emit_of_add hrun hadd, hc',
    Circuit.grows_insert (hmade.kind ▸ hsource) (hmade.kind ▸ hsink), ?_, hmade.ty⟩
  exact ⟨⟨Circuit.mem_operators_insert.2 (.inl rfl), hmade.kind ▸ hsink⟩, hmade.kind,
    hmade.inputs, hmade.checked htyped⟩

theorem completes_mapM {f : α → Lower β} {post : α → β → Circuit → Prop}
    (hgrows : ∀ a b c c', c.Grows c' → post a b c → post a b c') (xs : List α) {c : Circuit}
    (step : ∀ x ∈ xs, ∀ c', c.Grows c' → Completes (f x) c' (post x)) :
    Completes (xs.mapM f) c fun ys c' => Forall₂ (fun x y => post x y c') xs ys := by
  induction xs generalizing c with
  | nil => exact completes_pure .nil
  | cons x xs ih =>
    rw [List.mapM_cons]
    refine (step x List.mem_cons_self c (.refl c)).bind fun y c₁ h₁ hy => ?_
    have hrest := ih fun x' hx' c' h' => step x' (List.mem_cons_of_mem _ hx') c' (h₁.trans h')
    intro ctx hc₁
    obtain ⟨ys, c₂, ctx₂, hrun, hc₂, h₂, hys⟩ := hrest ctx hc₁
    exact ⟨y :: ys, c₂, ctx₂, bind_eq_ok.2 ⟨ys, c₂, ctx₂, hrun, rfl⟩, hc₂, h₂,
      .cons (hgrows x y c₁ c₂ h₂ hy) hys⟩

/-- What holds of the elements done so far, kept by every step, holds at the end. -/
theorem completes_foldlM {f : β → α → Lower β} (inv : List α → β → Circuit → Prop) (xs : List α)
    {b : β} {c : Circuit} (hb : inv [] b c)
    (step : ∀ done x, x ∈ xs → ∀ b c', c.Grows c' → inv done b c' →
      Completes (f b x) c' (inv (done ++ [x]))) : Completes (xs.foldlM f b) c (inv xs) := by
  suffices hrest : ∀ rest done b c', (∀ x ∈ rest, x ∈ xs) → c.Grows c' → inv done b c' →
      Completes (rest.foldlM f b) c' (inv (done ++ rest)) from
    hrest xs [] b c (fun _ h => h) (.refl c) hb
  intro rest
  induction rest with
  | nil =>
    intro done b c' _ _ hinv
    rw [List.append_nil]
    exact completes_pure hinv
  | cons x rest ih =>
    intro done b c' hmem hgrows hinv
    rw [List.foldlM_cons]
    refine (step done x (hmem x List.mem_cons_self) b c' hgrows hinv).bind fun b₁ c₁ h₁ hb₁ => ?_
    have hrest := ih (done ++ [x]) b₁ c₁ (fun y hy => hmem y (List.mem_cons_of_mem _ hy))
      (hgrows.trans h₁) hb₁
    rwa [List.append_assoc] at hrest

end Rules

section Streams

variable {c : Circuit} {t : Ty} {input rows set : Operator} {inputs : List Operator}

theorem element_eq_ok (h : input.ty = Ty.zset t) : element input = .ok t := by
  simp [element, h, Ty.zset, Ty.zsetElement?]

theorem Emitted.contents {kind : OperatorKind} {op : Operator} (h : Emitted kind inputs op c)
    (M : Meaning) (tables : Tables) :
    op.contents M tables = kind.contents M tables (inputs.map (Operator.contents M tables)) := by
  rw [op.contents_eq, h.kind, h.inputs]

/-- Operators of one input that keep its type. -/
theorem completes_unary {kind : OperatorKind} {isMultiset : Bool} (hkind : kind.keepsType)
    (hin : c.Supplies t input) :
    Completes (emit (Operator.unary kind input isMultiset)) c fun op c' => c'.Supplies t op ∧
      ∀ M tables, op.contents M tables = kind.contents M tables [input.contents M tables] := by
  have hty : input.ty.isCollection := by
    rw [hin.ty]
    rfl
  have hinterior : kind.isSource = false ∧ kind.isSink = false := by
    cases kind <;> first | exact ⟨rfl, rfl⟩ | cases hkind
  refine (completes_emit (fun _ => Operator.ends_unary hty) (.keeps hkind hty)
    (List.forall_mem_singleton.2 hin.offers) hinterior.1 hinterior.2).mono fun op c' hop => ?_
  exact ⟨⟨hop.1.offers, hop.2.trans hin.ty⟩, hop.1.contents⟩

theorem completes_distinct (hin : c.Supplies t input) :
    Completes (emit (Operator.distinct input)) c fun op c' => c'.Supplies t op ∧
      ∀ M tables, op.contents M tables = (input.contents M tables).distinct :=
  completes_unary rfl hin

theorem completes_negate (hin : c.Supplies t input) :
    Completes (emit (Operator.negate input)) c fun op c' => c'.Supplies t op ∧
      ∀ M tables, op.contents M tables = -input.contents M tables :=
  completes_unary rfl hin

theorem completes_sum (hnonempty : inputs ≠ []) (hin : ∀ i ∈ inputs, c.Supplies t i) :
    Completes (emit (Operator.sum inputs)) c fun op c' => c'.Supplies t op ∧
      ∀ M tables, op.contents M tables = (inputs.map (Operator.contents M tables)).sum := by
  obtain ⟨n, hn⟩ := Nat.exists_eq_add_one_of_ne_zero (mt List.length_eq_zero_iff.1 hnonempty)
  have htys : inputs.map Operator.ty = List.replicate (n + 1) (Ty.zset t) :=
    List.eq_replicate_iff.2 ⟨by rw [List.length_map, hn], List.forall_mem_map.2 fun i hi =>
      (hin i hi).ty⟩
  have htyped : OperatorKind.sum.Typed (inputs.map Operator.ty) (Ty.zset t) := htys ▸ .sum rfl
  exact (completes_emit (fun _ => Operator.ends_sum htys) htyped (fun i hi => (hin i hi).offers)
    rfl rfl).mono fun op c' hop => ⟨⟨hop.1.offers, hop.2⟩, hop.1.contents⟩

/-- Indexing by whole rows has no condition on the rows. -/
theorem completes_indexRow (hin : c.Supplies t input) :
    Completes (indexRow input) c fun op c' => c'.Offers op ∧ op.ty = Ty.indexedZSet t Ty.unit ∧
      ∀ (E : Engine) tables, op.contents E.meaning tables =
        (input.contents E.meaning tables).mapRows fun row => Val.pair row Val.unit := by
  have helement : input.ty.zsetElement? = some t := by
    rw [hin.ty]
    rfl
  have hfunction : rowFunction input (fun t => do
      return Expr.rawTuple [← Expr.deref t, Expr.rawTuple []]) = .ok (rowKey t) := by
    unfold rowFunction
    rw [element_eq_ok hin.ty]
    rfl
  refine completes_checked hfunction ?_
  refine (completes_emit (fun _ => Operator.ends_index helement rfl)
    (.index helement rfl) (List.forall_mem_singleton.2 hin.offers) rfl rfl).mono fun op c' hop => ?_
  refine ⟨hop.1.offers, hop.2, fun E tables => ?_⟩
  rw [hop.1.contents, ← Engine.row_rowKey (E := E) t]
  rfl

/-- Of two streams of one type, the join by whole rows multiplies the weights of equal rows. -/
theorem completes_semiJoin (hrows : c.Supplies t rows) (hset : c.Supplies t set) :
    Completes (semiJoin rows set) c fun op c' => c'.Supplies t op ∧ ∀ (E : Engine) tables,
      op.contents E.meaning tables = rows.contents E.meaning tables * set.contents E.meaning tables
      := by
  refine completes_checked (element_eq_ok hrows.ty) ?_
  refine (completes_indexRow hrows).bind fun left c₁ h₁ hleft => ?_
  refine (completes_indexRow (hset.grows h₁)).bind fun right c₂ h₂ hright => ?_
  obtain ⟨hleft, hleftTy, hleftContents⟩ := hleft
  obtain ⟨hright, hrightTy, hrightContents⟩ := hright
  refine completes_checked rfl ?_
  have hjoin : (OperatorKind.join (keyRow t)).Typed [left.ty, right.ty] (Ty.zset t) := by
    rw [hleftTy, hrightTy]
    exact .join rfl rfl rfl
  refine (completes_emit (fun _ => Operator.ends_join hjoin) hjoin ?_ rfl rfl).mono
    fun op c' hop => ⟨⟨hop.1.offers, hop.2⟩, fun E tables => ?_⟩
  · exact List.forall_mem_cons.2 ⟨hleft.grows h₂, List.forall_mem_singleton.2 hright⟩
  · rw [hop.1.contents, List.map_cons, List.map_singleton, hleftContents, hrightContents,
      ← ZSet.join_keys, ← Engine.pair_keyRow (E := E) t]
    rfl

/-- Whole-row joins of the distinct rows multiply zeros and ones. -/
theorem completes_intersect {first : Operator} {rest : List Operator}
    (hin : ∀ i ∈ first :: rest, c.Supplies t i) :
    Completes (intersect (first :: rest)) c fun op c' => c'.Supplies t op ∧
      ∀ (E : Engine) tables row, op.contents E.meaning tables row =
        ((first :: rest).map fun i => (i.contents E.meaning tables).distinct row).prod := by
  obtain ⟨hfirst, hrest⟩ := List.forall_mem_cons.1 hin
  refine (completes_distinct hfirst).bind fun start c₁ h₁ hstart => ?_
  refine completes_foldlM (fun done acc c' => c'.Supplies t acc ∧
    ∀ (E : Engine) tables row, acc.contents E.meaning tables row =
      ((first :: done).map fun i => (i.contents E.meaning tables).distinct row).prod) rest
    ⟨hstart.1, fun E tables row => ?_⟩ fun done input hinput acc c₂ h₂ hacc => ?_
  · rw [hstart.2, List.map_singleton, List.prod_singleton]
  · refine (completes_distinct ((hrest input hinput).grows (h₁.trans h₂))).bind
      fun set c₃ h₃ hset => ?_
    refine (completes_semiJoin (hacc.1.grows h₃) hset.1).mono fun op c' hop =>
      ⟨hop.1, fun E tables row => ?_⟩
    rw [hop.2, Finsupp.mul_apply, hacc.2, hset.2, ← List.cons_append, List.map_append,
      List.prod_append, List.map_singleton, List.prod_singleton]

/-- The distinct rows of the others are taken away from those of the first. -/
theorem completes_minus {first : Operator} {rest : List Operator}
    (hin : ∀ i ∈ first :: rest, c.Supplies t i) :
    Completes (minus (first :: rest)) c fun op c' => c'.Supplies t op ∧ ∀ M tables,
      op.contents M tables = ((first.contents M tables).distinct -
        (rest.map fun i => (i.contents M tables).distinct).sum).distinct := by
  have hterms : Completes ((first :: rest).zipIdx.mapM fun term => do
      let rows ← emit (Operator.distinct term.1)
      if term.2 = 0 then return rows else emit (Operator.negate rows)) c fun terms c' =>
        Forall₂ (fun term op => c'.Supplies t op ∧ ∀ M tables, op.contents M tables =
          (Operator.contents M tables term.1).differenceTerm term.2)
            (first :: rest).zipIdx terms := by
    refine completes_mapM (fun _ _ c₁ c₂ h hop => ⟨hop.1.grows h, hop.2⟩) _
      fun term hterm c₁ h₁ => ?_
    obtain ⟨input, i⟩ := term
    have hinput : input ∈ first :: rest := (List.mem_zipIdx' hterm).2 ▸ List.getElem_mem _
    refine (completes_distinct ((hin input hinput).grows h₁)).bind fun rows c₂ h₂ hrows => ?_
    split
    · rename_i hi
      subst hi
      exact completes_pure ⟨hrows.1, fun M tables => (hrows.2 M tables).trans (if_pos rfl).symm⟩
    · rename_i hi
      refine (completes_negate hrows.1).mono fun op c' hop => ⟨hop.1, fun M tables => ?_⟩
      rw [hop.2, hrows.2]
      exact (if_neg hi).symm
  refine hterms.bind fun terms c₁ h₁ hterms => ?_
  have hnonempty : terms ≠ [] := by
    rintro rfl
    cases hterms
  have hsupplies : ∀ i ∈ terms, c₁.Supplies t i := by
    intro i hi
    obtain ⟨term, -, hterm⟩ := forall₂_mem hterms.flip hi
    exact hterm.1
  refine (completes_sum hnonempty hsupplies).bind fun sum c₂ h₂ hsum => ?_
  refine (completes_distinct hsum.1).mono fun op c' hop => ⟨hop.1, fun M tables => ?_⟩
  rw [hop.2, hsum.2, ← ZSet.sum_differenceTerm]
  congr 2
  rw [← List.forall₂_eq_eq_eq, List.forall₂_map_left_iff, List.forall₂_map_right_iff]
  exact hterms.flip.imp fun _ _ h => h.2 M tables

end Streams

end Lower

/-- Set operations on relations of one type. -/
inductive SetOperation where
  | unionAll
  | union
  | except
  | intersect

namespace SetOperation

def rel : SetOperation → List Rel → Rel
  | unionAll, inputs => .union inputs true
  | union, inputs => .union inputs false
  | except, inputs => .minus inputs false
  | intersect, inputs => .intersect inputs false

/-- Lowers the operation over the streams of its inputs. -/
def lower : SetOperation → List Operator → Lower Operator
  | unionAll, ops => Lower.emit (Operator.sum ops)
  | union, ops => do Lower.emit (Operator.distinct (← Lower.emit (Operator.sum ops)))
  | except, ops => Lower.minus ops
  | intersect, ops => Lower.intersect ops

/-- Weight of a row, from its weights in the inputs. -/
def weight : SetOperation → List ℤ → ℤ
  | unionAll, ws => ws.sum
  | union, ws => if ∃ w ∈ ws, 0 < w then 1 else 0
  | except, [] => 0
  | except, w :: ws => if 0 < w ∧ ∀ v ∈ ws, ¬0 < v then 1 else 0
  | intersect, ws => if ∀ w ∈ ws, 0 < w then 1 else 0

end SetOperation

namespace ZSet

theorem listSum_apply (xs : List ZSet) (row : Val) : xs.sum row = (xs.map fun x => x row).sum :=
  map_list_sum (Finsupp.applyAddHom row) xs

theorem distinct_sum_apply {xs : List ZSet} (h : ∀ x ∈ xs, x.Nonneg) (row : Val) :
    xs.sum.distinct row = SetOperation.union.weight (xs.map fun x => x row) := by
  simp [SetOperation.weight, Nonneg.listSum_pos h]

theorem distinct_sub_apply (first : ZSet) (rest : List ZSet) (row : Val) :
    (first.distinct - (rest.map distinct).sum).distinct row =
    SetOperation.except.weight ((first :: rest).map fun x => x row) := by
  have hrest : ∀ x ∈ rest.map distinct, x.Nonneg := List.forall_mem_map.2 fun x _ => .distinct x
  have hnonneg := Nonneg.listSum hrest row
  have hpos := Nonneg.listSum_pos hrest row
  simp only [List.mem_map, exists_exists_and_eq_and, distinct_pos] at hpos
  have hone : first.distinct row ≤ 1 := by
    rw [distinct_apply]
    split <;> omega
  have hfirst := distinct_pos first row
  have hkept : 0 < (first.distinct - (rest.map distinct).sum) row ↔
      0 < first row ∧ ∀ v ∈ rest.map fun x => x row, ¬0 < v := by
    have hnone : (∀ v ∈ rest.map fun x => x row, ¬0 < v) ↔ ¬0 < (rest.map distinct).sum row := by
      rw [hpos, List.forall_mem_map]
      push Not
      rfl
    rw [hnone, Finsupp.sub_apply]
    omega
  rw [distinct_apply]
  exact if_congr hkept rfl rfl

theorem prod_distinct_apply (xs : List ZSet) (row : Val) : (xs.map fun x => x.distinct row).prod =
    SetOperation.intersect.weight (xs.map fun x => x row) := by
  induction xs with
  | nil => simp [SetOperation.weight]
  | cons x xs ih =>
    rw [List.map_cons, List.prod_cons, ih, distinct_apply]
    simp only [SetOperation.weight, List.map_cons, List.forall_mem_cons]
    by_cases hx : 0 < x row <;> simp [hx]

end ZSet

namespace Rel

variable {relations : List (String × Operator)} {inputs : List Rel} {ops : List Operator}
  {c₀ c : Circuit} {ctx₀ ctx : Context} {t : Ty}

theorem exists_cons_of_streams (hinputs : inputs ≠ [])
    (h : streams relations inputs c₀ ctx₀ = (.ok (ops, c), ctx)) : ∃ op rest, ops = op :: rest := by
  cases inputs with
  | nil => exact absurd rfl hinputs
  | cons r rs =>
    rw [streams] at h
    obtain ⟨op, c₁, ctx₁, -, h⟩ := Lower.bind_eq_ok.1 h
    obtain ⟨rest, c₂, ctx₂, -, h⟩ := Lower.bind_eq_ok.1 h
    cases h
    exact ⟨op, rest, rfl⟩

theorem stream_setOperation (o : SetOperation) :
    (o.rel inputs).stream relations = streams relations inputs >>= o.lower := by
  cases o with
  | unionAll =>
    rw [SetOperation.rel, stream]
    simp only [if_true, bind_pure]
    rfl
  | union | except | intersect =>
    rw [SetOperation.rel, stream]
    rfl

end Rel

namespace SetOperation

variable {c : Circuit} {t : Ty} {first : Operator} {rest : List Operator}

theorem completes_lower (o : SetOperation) (hin : ∀ i ∈ first :: rest, c.Supplies t i) :
    Lower.Completes (o.lower (first :: rest)) c fun op c' => c'.Supplies t op ∧
      ∀ (E : Engine) tables, (∀ i ∈ first :: rest, (i.contents E.meaning tables).Nonneg) → ∀ row,
        op.contents E.meaning tables row =
          o.weight ((first :: rest).map fun i => i.contents E.meaning tables row) := by
  cases o with
  | unionAll =>
    refine (Lower.completes_sum (List.cons_ne_nil first rest) hin).mono fun op c' hop =>
      ⟨hop.1, fun E tables _ row => ?_⟩
    rw [hop.2, ZSet.listSum_apply, List.map_map]
    rfl
  | union =>
    refine (Lower.completes_sum (List.cons_ne_nil first rest) hin).bind fun sum c₁ _ hsum => ?_
    refine (Lower.completes_distinct hsum.1).mono fun op c' hop =>
      ⟨hop.1, fun E tables hnonneg row => ?_⟩
    rw [hop.2, hsum.2, ZSet.distinct_sum_apply (List.forall_mem_map.2 hnonneg), List.map_map]
    rfl
  | except =>
    refine (Lower.completes_minus hin).mono fun op c' hop => ⟨hop.1, fun E tables _ row => ?_⟩
    have hweight := ZSet.distinct_sub_apply (first.contents E.meaning tables)
      (rest.map (Operator.contents E.meaning tables)) row
    rw [List.map_map, ← List.map_cons (f := Operator.contents E.meaning tables),
      List.map_map] at hweight
    rw [hop.2]
    exact hweight
  | intersect =>
    refine (Lower.completes_intersect hin).mono fun op c' hop => ⟨hop.1, fun E tables _ row => ?_⟩
    have hweight :=
      ZSet.prod_distinct_apply ((first :: rest).map (Operator.contents E.meaning tables)) row
    rw [List.map_map, List.map_map] at hweight
    rw [hop.2]
    exact hweight

end SetOperation

namespace Rel

variable {relations : List (String × Operator)} {inputs : List Rel} {ops : List Operator}
  {c₀ c : Circuit} {ctx₀ ctx : Context} {t : Ty}

/-- A set operation of one or more streams of one type can be lowered, and from inputs without
negative weights it makes the rows of its weights: all together, those of some input, those of the
first and no other input, or those of all inputs. -/
theorem setOperation_rows (o : SetOperation) (hinputs : inputs ≠ [])
    (h : streams relations inputs c₀ ctx₀ = (.ok (ops, c), ctx)) (hc : c.WellFormed ctx)
    (hops : ∀ op ∈ ops, c.Offers op ∧ op.ty = Ty.zset t) :
    ∃ op c' ctx', (o.rel inputs).stream relations c₀ ctx₀ = (.ok (op, c'), ctx') ∧
      op.ty = Ty.zset t ∧ ∀ (E : Engine) tables,
        (∀ i ∈ ops, (i.contents E.meaning tables).Nonneg) → ∀ row,
          op.contents E.meaning tables row =
            o.weight (ops.map fun i => i.contents E.meaning tables row) := by
  obtain ⟨first, rest, rfl⟩ := exists_cons_of_streams hinputs h
  have hsupplies : ∀ i ∈ first :: rest, c.Supplies t i := fun i hi => ⟨(hops i hi).1, (hops i hi).2⟩
  obtain ⟨op, c', ctx', hrun, -, -, hop, hweights⟩ := o.completes_lower hsupplies ctx hc
  refine ⟨op, c', ctx', ?_, hop.ty, hweights⟩
  rw [stream_setOperation]
  exact Lower.bind_eq_ok.2 ⟨first :: rest, c, ctx, h, hrun⟩

section Ledger

def dueStream : Operator :=
  ⟨0, Names.nth "stream" 0, .source "Due", [], Ty.zset (Ty.tuple [Ty.int32.nullable]), true⟩

def paidStream : Operator :=
  ⟨1, Names.nth "stream" 1, .source "Paid", [], Ty.zset (Ty.tuple [Ty.int32.nullable]), true⟩

/-- Amounts that are due and that were paid. -/
def ledger : Circuit := { Circuit.empty "ledger" with sources := [dueStream, paidStream] }

def ledgerContext : Context := Context.empty.extended.extended

theorem wellFormed_ledger : ledger.WellFormed ledgerContext := by
  have hdue : dueStream.New Context.empty Context.empty.extended := ⟨rfl, rfl, rfl⟩
  have hpaid : paidStream.New Context.empty.extended ledgerContext := ⟨rfl, rfl, rfl⟩
  have hempty := Rebuild.wellFormed_start (Circuit.empty "ledger") Context.empty
  exact ((hempty.insert_new hdue .source nofun).1.insert_new hpaid .source nofun).1

/-- An amount, or an unknown one. -/
def amount (v : Val) : Val := Val.tuple [v]

/-- Twice an unknown amount and once a known one are due, an unknown one was paid. -/
noncomputable def ledgerRows : Tables
  | "Due" => Finsupp.single (amount .null) 2 + Finsupp.single (amount (.atom (.int .w32 5))) 1
  | "Paid" => Finsupp.single (amount .null) 1
  | _ => 0

/-- Unknown amounts are the same row, and count once. -/
theorem ledger_intersection_rows : ∃ op c ctx,
    (SetOperation.intersect.rel [.scan "Due", .scan "Paid", .scan "Due"]).stream
      [("Due", dueStream), ("Paid", paidStream)] ledger ledgerContext = (.ok (op, c), ctx) ∧
    op.contents (Engine.meaning .summing) ledgerRows (amount .null) = 1 ∧
    op.contents (Engine.meaning .summing) ledgerRows (amount (.atom (.int .w32 5))) = 0 := by
  have hne : amount .null ≠ amount (.atom (.int .w32 5)) := nofun
  have hdue : ledgerRows "Due" (amount .null) = 2 ∧
      ledgerRows "Due" (amount (.atom (.int .w32 5))) = 1 := by
    simp [ledgerRows, hne, hne.symm]
  have hpaid : ledgerRows "Paid" (amount .null) = 1 ∧
      ledgerRows "Paid" (amount (.atom (.int .w32 5))) = 0 := by
    simp [ledgerRows, hne]
  have hnonneg : (ledgerRows "Due").Nonneg ∧ (ledgerRows "Paid").Nonneg :=
    ⟨fun row => add_nonneg (ZSet.Nonneg.single (by decide) _ row)
      (ZSet.Nonneg.single (by decide) _ row), ZSet.Nonneg.single (by decide) _⟩
  have hinputs : streams [("Due", dueStream), ("Paid", paidStream)]
      [.scan "Due", .scan "Paid", .scan "Due"] ledger ledgerContext =
        (.ok ([dueStream, paidStream, dueStream], ledger), ledgerContext) := rfl
  have hops : ∀ op ∈ [dueStream, paidStream, dueStream],
      ledger.Offers op ∧ op.ty = Ty.zset (Ty.tuple [Ty.int32.nullable]) := by
    simp [Circuit.Offers, ledger, Circuit.operators, dueStream, paidStream, OperatorKind.isSink]
  obtain ⟨op, c, ctx, hrun, -, hrows⟩ := setOperation_rows .intersect (List.cons_ne_nil _ _)
    hinputs wellFormed_ledger hops
  have hweights := hrows .summing ledgerRows (by
    simp only [List.forall_mem_cons]
    exact ⟨hnonneg.1, hnonneg.2, hnonneg.1, List.forall_mem_nil _⟩)
  refine ⟨op, c, ctx, hrun, ?_, ?_⟩
  · refine (hweights _).trans ?_
    change SetOperation.intersect.weight [ledgerRows "Due" _, ledgerRows "Paid" _,
      ledgerRows "Due" _] = 1
    rw [hdue.1, hpaid.1]
    rfl
  · refine (hweights _).trans ?_
    change SetOperation.intersect.weight [ledgerRows "Due" _, ledgerRows "Paid" _,
      ledgerRows "Due" _] = 0
    rw [hdue.2, hpaid.2]
    rfl

end Ledger

end Rel

end ViewCircuit
