import ViewCircuit.Proofs.Engine
import ViewCircuit.Proofs.Normal
import ViewCircuit.Proofs.ScalarType

/-! Ranges of integers. Lowering writes an integer only under a width that holds it, so first-order
functions compute integers in range from integers in range, as far as the runtime does. -/
namespace ViewCircuit

/-- An integer is in the range of its width. -/
def Atom.inRange : Atom → Bool
  | .int width i => width.holds i
  | _ => true

mutual
/-- Whether all integers of a value are in the ranges of their widths. -/
def Val.inRange : Val → Bool
  | .atom a => a.inRange
  | .node _ parts => Val.allInRange parts
  | .closure _ values _ _ => Val.allInRange values
def Val.allInRange : List Val → Bool
  | [] => true
  | v :: vs => v.inRange && Val.allInRange vs
end

/-- An integer is written under a width that holds it. -/
def Literal.InRange (value : Literal) (t : Ty) : Prop := ∀ a, value.atom? t = some a → a.inRange

def Head.InRange (head : Head) (t : Ty) : Prop :=
  match head with
  | .literal value => value.InRange t
  | _ => True

/-- From integers in range, the runtime computes integers in range. -/
def Runtime.Ranged (rt : Runtime) : Prop :=
  ∀ i vs v, (∀ u ∈ vs, u.inRange) → rt i vs = some v → v.inRange

def Env.InRange (ρ : Env) : Prop := ∀ x v, ρ.lookup x = some v → v.inRange

def ZSet.InRange (x : ZSet) : Prop := ∀ row ∈ x.support, row.inRange

section Values

variable {v w : Val} {vs : List Val}

theorem Val.allInRange_iff : allInRange vs ↔ ∀ v ∈ vs, v.inRange := by
  induction vs with
  | nil => simp [allInRange]
  | cons v vs ih => simp [allInRange, ih]

@[simp] theorem Val.inRange_node {shape : Shape} :
    (node shape vs).inRange ↔ ∀ v ∈ vs, v.inRange := by
  rw [inRange, allInRange_iff]

@[simp] theorem Val.inRange_ref : (ref v).inRange ↔ v.inRange := by simp [ref]

@[simp] theorem Val.inRange_tuple : (tuple vs).inRange ↔ ∀ v ∈ vs, v.inRange := by simp [tuple]

@[simp] theorem Val.inRange_pair : (pair v w).inRange ↔ v.inRange ∧ w.inRange := by simp [pair]

/-- Parts of a value have integers of the value. -/
theorem Val.inRange_field {index : Nat} (h : v.inRange) (hw : v.field? index = some w) :
    w.inRange := by
  unfold field? at hw
  split at hw
  · exact inRange_node.1 h w (List.mem_of_getElem? hw)
  · simp only [inRange_node, List.forall_mem_singleton] at h
    exact h w (List.mem_of_getElem? hw)
  · cases hw

theorem Val.inRange_deref (h : v.inRange) (hw : v.deref? = some w) : w.inRange := by
  unfold deref? at hw
  split at hw
  · obtain rfl := Option.some.inj hw
    exact inRange_ref.1 h
  · cases hw

/-- The rows of a literal collection. -/
theorem Val.inRange_rows (h : v.inRange) : v.rows.InRange := by
  intro row hrow
  unfold rows at hrow
  split at hrow
  · obtain ⟨x, hx, hrow⟩ := ZSet.mem_listSum hrow
    obtain ⟨r, hr, rfl⟩ := List.mem_map.1 hx
    obtain rfl := Finset.mem_singleton.1 (Finsupp.support_single_subset hrow)
    exact inRange_node.1 h _ (List.of_mem_zip hr).1
  · simp at hrow

end Values

section Literals

/-- A value of a plan is written after its range is checked. -/
theorem Value.literal_inRange {value : Value} {t : Ty} {l : Literal}
    (h : value.literal t = .ok l) : l.InRange t.nonNull := by
  obtain ⟨kind, n⟩ := t
  intro a ha
  unfold Value.literal at h
  split at h <;> rename_i hkind <;> try split at h
  all_goals first
    | cases h
      simp only at hkind
      subst hkind
      obtain rfl := Option.some.inj ha
      first
        | rfl
        | rwa [Atom.inRange, holds_eq_fitsWidth]
    | cases h

theorem admits_inRange : Admits Literal.InRange where
  null _ _ ha := by
    obtain rfl := Option.some.inj ha
    rfl
  bool _ _ ha := by
    obtain rfl := Option.some.inj ha
    rfl
  int64 _ _ ha := by
    obtain rfl := Option.some.inj ha
    rfl
  value := Value.literal_inRange

end Literals

section Evaluation

variable {rt : Runtime} (hrt : rt.Ranged)

include hrt

theorem Runtime.Ranged.run {i : Instruction} {vs : List Val} {v : Val}
    (hvs : ∀ u ∈ vs, u.inRange) (hv : rt.run i vs = some v) : v.inRange := by
  unfold Runtime.run at hv
  split at hv
  · exact hrt i vs v hvs (Option.filter_eq_some_iff.1 hv).1
  · cases hv

/-- A node over values in range has a value in range. -/
theorem inRange_combine {head : Head} {ty : Ty} {vs : List Val} {v : Val}
    (hhead : head.InRange ty) (hvs : ∀ u ∈ vs, u.inRange)
    (hv : head.combine rt ty vs = some v) : v.inRange := by
  unfold Head.combine at hv
  split at hv
  case h_1 =>
    obtain ⟨a, ha, rfl⟩ := Option.map_eq_some_iff.1 hv
    exact hhead a ha
  case h_4 => exact Val.inRange_field (by simpa using hvs) hv
  case h_5 => exact hrt.run hvs hv
  case h_6 =>
    unfold BinaryOp.eval at hv
    split at hv
    · obtain rfl := Option.some.inj hv
      rfl
    · obtain rfl := Option.some.inj hv
      rfl
    · exact hrt.run hvs hv
  case h_7 => exact hrt.run hvs hv
  case h_11 =>
    unfold Val.cast at hv
    split at hv
    · obtain rfl := Option.some.inj (Option.ite_none_right_eq_some.1 hv).2
      rfl
    · exact hrt.run hvs hv
  case h_14 => exact Val.inRange_deref (by simpa using hvs) hv
  case h_18 => cases hv
  all_goals
    obtain rfl := Option.some.inj hv
    first
      | rfl
      | simpa using hvs

theorem inRange_head {ρ : Env} {form : Form} {ty : Ty} {head : Head} {parts : List Expr} {v : Val}
    {k : Nat} (hv : Evals rt ρ ⟨form, ty⟩ v k) (hform : form.head? = some (head, parts))
    (hhead : head.InRange ty) (hparts : ∀ part ∈ parts, ∀ v k, Evals rt ρ part v k → v.inRange) :
    v.inRange := by
  obtain ⟨vs, hvs, hv⟩ := (evals_head hform).1 hv
  refine inRange_combine hrt hhead (fun u hu => ?_) hv
  obtain ⟨part, l, hpart, hu⟩ := hvs.mem hu
  exact hparts part hpart u l hu

/-- First-order expressions compute integers in range from integers in range. -/
theorem FirstOrder.inRange {Γ : TyEnv} {ρ : Env} {e : Expr} {v : Val} {k : Nat}
    (he : FirstOrder Literal.InRange Γ e) (hρ : ρ.InRange) (hv : Evals rt ρ e v k) : v.inRange := by
  have hone : ∀ {form : Form} {ty : Ty} {head : Head} {operand : Expr} {v : Val} {k : Nat},
      Evals rt ρ ⟨form, ty⟩ v k → form.head? = Option.some (head, [operand]) → head.InRange ty →
      (∀ {v k}, Evals rt ρ operand v k → v.inRange) → v.inRange := fun hv hform hhead ih =>
    inRange_head hrt hv hform hhead (List.forall_mem_singleton.2 fun _ _ => ih)
  induction he generalizing v k with
  | @literal value t hsimple hfits =>
    cases value with
    | zset | vec => cases hsimple
    | _ => exact inRange_head hrt hv rfl hfits (List.forall_mem_nil _)
  | zset _ he ih =>
    obtain ⟨-, rfl⟩ := zset_eq_ok he
    exact inRange_head hrt hv rfl trivial (List.forall_mem_map.2 fun row hrow _ _ => ih row hrow)
  | var => exact hρ _ v (evals_var.1 hv).1
  | field _ he ih =>
    obtain ⟨_, -, rfl⟩ := field_eq_ok he
    exact hone hv rfl trivial ih
  | deref _ he ih =>
    obtain ⟨_, rfl⟩ := deref_eq_ok he
    exact hone hv rfl trivial ih
  | unary _ he ih =>
    obtain ⟨-, rfl⟩ := unary_eq_ok he
    exact hone hv rfl trivial ih
  | binary _ _ he ihleft ihright =>
    obtain ⟨_, -, rfl⟩ := binary_eq_ok he
    refine inRange_head hrt hv rfl trivial ?_
    exact List.forall_mem_cons.2 ⟨fun _ _ => ihleft, List.forall_mem_singleton.2 fun _ _ => ihright⟩
  | call _ ih | tuple _ ih | rawTuple _ ih =>
    exact inRange_head hrt hv rfl trivial fun part hpart _ _ => ih part hpart
  | some _ he ih =>
    obtain ⟨-, rfl⟩ := someOf_eq_ok he
    exact hone hv rfl trivial ih
  | ite _ _ _ he _ ihyes ihno =>
    obtain ⟨-, -, rfl⟩ := ite_eq_ok he
    obtain ⟨b, l, m, -, hv, -⟩ := evals_ite.1 hv
    cases b with
    | true => exact ihyes hv
    | false => exact ihno hv
  | cast _ ih | isNull _ ih => exact hone hv rfl trivial ih

end Evaluation

theorem inRange_zip {names : List String} {args : List Val} (h : ∀ a ∈ args, a.inRange) :
    Env.InRange (names.zip args).reverse := by
  intro x v hv
  obtain ⟨before, after, hsplit, -⟩ := List.lookup_eq_some_iff.1 hv
  have hmem : (x, v) ∈ (names.zip args).reverse := by simp [hsplit]
  exact h v (List.of_mem_zip (List.mem_reverse.1 hmem)).2

/-- A fold computes its start, takes the rows one after another and computes its result. -/
theorem Engine.fold_eq_some {E : Engine} {zero step last : Expr} {ty : Ty} {x : ZSet} {v : Val}
    (h : E.fold ⟨.fold zero step last, ty⟩ x = some v) :
    ∃ z k acc, Evals E.runtime [] zero z k ∧
      ((E.order x).map fun row => (row, x row)).foldlM (fun acc row =>
        E.apply step [acc, Val.ref row.1, .atom (.int .w64 row.2)]) z = some acc ∧
      E.apply last [acc] = some v := by
  obtain ⟨c, hc, hv⟩ := Option.bind_eq_some_iff.1 h
  obtain ⟨k, hc⟩ := valueOf_eq_some.1 hc
  obtain ⟨_, hparts, hc⟩ := (evals_head rfl).1 hc
  obtain ⟨z, l, _, _, hz, hrest, rfl, -⟩ := evalsAll_cons.1 hparts
  obtain ⟨s, _, _, _, hs, hrest', rfl, -⟩ := evalsAll_cons.1 hrest
  obtain ⟨p, _, _, _, hp, hrest'', rfl, -⟩ := evalsAll_cons.1 hrest'
  obtain ⟨rfl, -⟩ := evalsAll_nil.1 hrest''
  obtain rfl := Option.some.inj hc
  obtain ⟨acc, hacc, hv⟩ := Option.bind_eq_some_iff.1 hv
  refine ⟨z, l, acc, hz, ?_, ?_⟩
  · simp only [apply, valueOf_eq_some.2 ⟨_, hs⟩, Option.bind_some]
    exact hacc
  · simp only [apply, valueOf_eq_some.2 ⟨_, hp⟩, Option.bind_some]
    exact hv

section Functions

variable {E : Engine} (hrt : E.runtime.Ranged) {f : Expr} {v : Val}

include hrt

theorem Lambda.inRange (hf : Lambda Literal.InRange f) {args : List Val}
    (hargs : ∀ a ∈ args, a.inRange) (hv : E.apply f args = some v) : v.inRange := by
  obtain ⟨-, hbody⟩ := hf
  obtain ⟨-, k, hv⟩ := Engine.apply_closure_iff.1 hv
  exact hbody.inRange hrt (inRange_zip hargs) hv

theorem Lambda.inRange_foldlM (hf : Lambda Literal.InRange f) {rows : List (Val × ℤ)}
    (hrows : ∀ row ∈ rows, row.1.inRange) {a : Val} (ha : a.inRange)
    (hv : rows.foldlM (fun acc row =>
      E.apply f [acc, Val.ref row.1, .atom (.int .w64 row.2)]) a = some v) : v.inRange := by
  induction rows generalizing a with
  | nil =>
    obtain rfl := Option.some.inj hv
    exact ha
  | cons row rows ih =>
    rw [List.foldlM_cons] at hv
    obtain ⟨b, hb, hv⟩ := Option.bind_eq_some_iff.1 hv
    obtain ⟨hrow, hrows⟩ := List.forall_mem_cons.1 hrows
    refine ih hrows (hf.inRange hrt ?_ hb) hv
    simp [ha, hrow, Val.inRange, Atom.inRange, IntWidth.holds]

theorem Folding.inRange (hE : E.Lawful) (hf : Folding Literal.InRange f) {x : ZSet}
    (hx : x.InRange) (hv : E.fold f x = some v) : v.inRange := by
  obtain ⟨hzero, hstep, hlast, hf⟩ := hf
  obtain ⟨-, result, -, rfl⟩ := fold_eq_ok hf
  obtain ⟨z, k, acc, hz, hacc, hv⟩ := Engine.fold_eq_some hv
  have hstart : z.inRange := hzero.inRange hrt (ρ := []) nofun hz
  have hrows : ∀ row ∈ (E.order x).map fun row => (row, x row), row.1.inRange :=
    List.forall_mem_map.2 fun row hrow => hx row (hE.order x row hrow)
  exact hlast.inRange hrt
    (List.forall_mem_singleton.2 (hstep.inRange_foldlM hrt hrows hstart hacc)) hv

theorem Listing.inRange (hf : Listing Literal.InRange f)
    (hv : valueOf E.runtime [] f = some v) : v.inRange := by
  obtain ⟨k, hv⟩ := valueOf_eq_some.1 hv
  exact hf.firstOrder.inRange hrt (ρ := []) nofun hv

end Functions

theorem int32Sums_ranged : int32Sums.Ranged := by
  intro i vs v _ hv
  unfold int32Sums at hv
  split at hv
  · obtain ⟨hrange, hv⟩ := Option.ite_none_right_eq_some.1 hv
    obtain rfl := Option.some.inj hv
    simpa only [Val.inRange, Atom.inRange, holds_eq_fitsWidth, fitsWidth, Bool.and_eq_true,
      decide_eq_true_eq] using hrange
  · cases hv

end ViewCircuit
