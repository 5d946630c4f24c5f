import ViewCircuit.Plan.Circuit
import ViewCircuit.Proofs.Lowering

/-! Relational operators as streams. Whatever a relation is lowered to is a collection of rows that
no function of the circuit can make negative, in a circuit that stays well-formed. -/
namespace ViewCircuit

namespace OperatorKind

/-- Operators that compute something of what they read, distincts apart. -/
def isDerived : OperatorKind → Bool
  | .map _ | .filter _ | .index _ | .join _ | .aggregate _ | .windowAggregate .. | .sum | .subtract
  | .negate | .noop => true
  | _ => false

variable {kind : OperatorKind} {f : Expr} {inputs : List Ty} {t : Ty}

theorem Typed.map_rows (h : (OperatorKind.map f).Typed inputs t) : t.zsetElement?.isSome := by
  cases h with
  | map => rfl
  | keeps hkeeps => cases hkeeps

theorem Typed.join_rows (h : (OperatorKind.join f).Typed inputs t) : t.zsetElement?.isSome := by
  cases h with
  | join => rfl
  | keeps hkeeps => cases hkeeps

theorem Typed.constant_ty {e : Expr} (h : (OperatorKind.constant e).Typed inputs t) : t = e.ty := by
  cases h with
  | constant => rfl
  | keeps hkeeps => cases hkeeps

/-- Sums, differences and operators of one input keep the type of what they read. -/
theorem Typed.eq_of_mem (h : kind.Typed inputs t)
    (hkind : kind.keepsType ∨ kind = .sum ∨ kind = .subtract) : ∀ s ∈ inputs, s = t := by
  cases h with
  | keeps => simp
  | sum => exact fun s hs => (List.mem_replicate.1 hs).2
  | subtract => simp
  | _ => simp [keepsType] at hkind

/-- They read something. -/
theorem Typed.exists_mem (h : kind.Typed inputs t)
    (hkind : kind.keepsType ∨ kind = .sum ∨ kind = .subtract) : ∃ s, s ∈ inputs := by
  cases h with
  | keeps => exact ⟨t, by simp⟩
  | sum => exact ⟨t, by simp⟩
  | subtract => exact ⟨t, by simp⟩
  | _ => simp [keepsType] at hkind

end OperatorKind

namespace Lower

variable {fits : Literal → Ty → Prop} {constants : Prop} {c : Circuit} {f : Expr}
  {op input left right : Operator} {inputs : List Operator}

section Emit

/-- Sums may take rows away; all else reads rows that are there. -/
theorem builds_computed {make : Compile Operator} {kind : OperatorKind}
    (hmakes : (∀ i ∈ inputs, i.ty.isCollection) → Operator.Makes make kind inputs)
    (hin : ∀ i ∈ inputs, c.Offers i) (hkind : kind.isDerived) (hregular : kind.Regular fits)
    (hnegations : ∀ i ∈ inputs, i.kind = .negate → kind = .sum) :
    Builds fits constants (emit make) c (Emitted kind inputs) := by
  refine builds_emit hmakes hin ?_ ?_ ?_
  · cases kind <;> first | rfl | cases hkind
  · cases kind <;> first | rfl | cases hkind
  · intro op hop hinputs _ hmarked
    refine ⟨?_, hmarked, hop ▸ hregular, ?_, ?_, by rwa [hop, hinputs]⟩
    · rw [hop]
      cases kind <;> first | rfl | cases hkind
    · rw [hop]
      cases kind <;> simp_all [OperatorKind.isConstant, OperatorKind.isDerived]
    · rw [hop]
      rintro rfl
      cases hkind

theorem builds_derived {make : Compile Operator} {kind : OperatorKind}
    (hmakes : (∀ i ∈ inputs, i.ty.isCollection) → Operator.Makes make kind inputs)
    (hin : ∀ i ∈ inputs, c.Reads i) (hkind : kind.isDerived) (hregular : kind.Regular fits) :
    Builds fits constants (emit make) c (Emitted kind inputs) :=
  builds_computed hmakes (fun i hi => (hin i hi).1) hkind hregular
    fun i hi hnegate => absurd hnegate (hin i hi).2

theorem builds_map (hin : c.Reads input) (hf : Lambda fits f) :
    Builds fits constants (emit (Operator.map input f)) c (Emitted (.map f) [input]) :=
  builds_derived (fun _ => Operator.makes_map) (by simpa using hin) rfl hf

theorem builds_filter (hin : c.Reads input) (hf : Lambda fits f) :
    Builds fits constants (emit (Operator.filter input f)) c (Emitted (.filter f) [input]) :=
  builds_derived (fun _ => Operator.makes_filter) (by simpa using hin) rfl hf

theorem builds_index (hin : c.Reads input) (hf : Lambda fits f) (hrow : f.KeepsRow) :
    Builds fits constants (emit (Operator.index input f)) c (Emitted (.index f) [input]) :=
  builds_derived (fun _ => Operator.makes_index) (by simpa using hin) rfl ⟨hf, hrow⟩

theorem builds_join (hleft : c.Reads left) (hright : c.Reads right) (hf : Lambda fits f) :
    Builds fits constants (emit (Operator.join left right f)) c (Emitted (.join f) [left, right]) :=
  builds_derived (fun _ => Operator.makes_join) (by simpa using ⟨hleft, hright⟩) rfl hf

theorem builds_sum (hin : ∀ i ∈ inputs, c.Offers i) :
    Builds fits constants (emit (Operator.sum inputs)) c (Emitted .sum inputs) :=
  builds_computed (fun h => Operator.makes_sum fun i hi => h i (List.mem_of_mem_head? hi)) hin rfl
    trivial fun _ _ _ => rfl

theorem builds_subtract (hleft : c.Reads left) (hright : c.Reads right) :
    Builds fits constants (emit (Operator.subtract left right)) c
      (Emitted .subtract [left, right]) :=
  builds_derived (fun h => Operator.makes_subtract (h left (by simp)))
    (by simpa using ⟨hleft, hright⟩) rfl trivial

theorem builds_negate (hin : c.Reads input) :
    Builds fits constants (emit (Operator.negate input)) c (Emitted .negate [input]) :=
  builds_derived (fun _ => Operator.makes_unary rfl (by simp [OperatorKind.mark?]))
    (by simpa using hin) rfl trivial

/-- A distinct reads rows of no negative weight, or a difference. -/
theorem builds_distinct (hin : c.Reads input) (hrows : input.ty.zsetElement?.isSome)
    (hweights : input.IsDifference ∨ input.Positive) :
    Builds fits constants (emit (Operator.distinct input)) c fun op c' =>
      c'.Relation op ∧ op.kind = .distinct := by
  have hemit : Builds fits constants (emit (Operator.distinct input)) c
      fun op c' => Emitted .distinct [input] op c' := by
    refine builds_emit (fun _ => Operator.makes_unary rfl rfl) (by simpa using hin.1) rfl rfl ?_
    intro op hkind hinputs hchecked hmarked
    refine ⟨by rw [hkind]; rfl, hmarked, by rw [hkind]; trivial, by rw [hkind]; nofun,
      fun _ => ⟨?_, ?_⟩, by simp [hinputs, hin.2]⟩
    · have hty := hchecked.eq_of_mem (.inl (by rw [hkind]; rfl)) input.ty (by simp [hinputs])
      rwa [← hty]
    · simpa [hinputs] using hweights
  refine hemit.mono fun op c' _ hop =>
    ⟨⟨hop.reads nofun, ?_, .unsigned (by rw [hop.kind]; rfl)⟩, hop.kind⟩
  have hty := hop.checked.eq_of_mem (.inl (by rw [hop.kind]; rfl)) input.ty (by simp [hop.inputs])
  rwa [← hty]

/-- A literal collection of rows with weight one. -/
theorem builds_constant {element : Ty} {rows : List (Expr × Int)} {value : Expr}
    (hconstants : constants) (hrows : ∀ row ∈ rows, FirstOrder fits [] row.1)
    (hvalue : Expr.zset element rows = .ok value) :
    Builds fits constants (emit (Operator.constant value)) c (Emitted (.constant value) []) := by
  refine builds_emit (fun _ => Operator.makes_constant) nofun rfl rfl ?_
  intro op hkind hinputs _ hmarked
  refine ⟨by rw [hkind]; rfl, hmarked, by rw [hkind]; exact .intro hrows hvalue,
    fun _ => hconstants, by rw [hkind]; nofun, by simp [hinputs]⟩

theorem Emitted.relation_map (h : Emitted (.map f) [input] op c) (hpos : input.Positive) :
    c.Relation op where
  reads := h.reads nofun
  rows := by
    have hchecked := h.checked
    rw [Operator.Checked, h.kind] at hchecked
    exact hchecked.map_rows
  positive := .keeps (by rw [h.kind]; rfl) (by simpa [h.inputs] using hpos)

theorem Emitted.relation_filter (h : Emitted (.filter f) [input] op c) (hpos : input.Positive) :
    c.Relation op where
  reads := h.reads nofun
  rows := by
    have hchecked := h.checked
    rw [Operator.Checked, h.kind] at hchecked
    exact hchecked.filter_rows
  positive := .keeps (by rw [h.kind]; rfl) (by simpa [h.inputs] using hpos)

theorem Emitted.relation_join (h : Emitted (.join f) [left, right] op c) (hleft : left.Positive)
    (hright : right.Positive) : c.Relation op where
  reads := h.reads nofun
  rows := by
    have hchecked := h.checked
    rw [Operator.Checked, h.kind] at hchecked
    exact hchecked.join_rows
  positive := .keeps (by rw [h.kind]; rfl) (by simpa [h.inputs] using ⟨hleft, hright⟩)

theorem Emitted.positive_index (h : Emitted (.index f) [input] op c) (hpos : input.Positive) :
    op.Positive :=
  .keeps (by rw [h.kind]; rfl) (by simpa [h.inputs] using hpos)

/-- Sums and differences of rows are rows. -/
theorem Emitted.rows_of_mem {kind : OperatorKind} (h : Emitted kind inputs op c)
    (hkind : kind.keepsType ∨ kind = .sum ∨ kind = .subtract) (hin : input ∈ inputs)
    (hrows : input.ty.zsetElement?.isSome) : op.ty.zsetElement?.isSome := by
  have hchecked := h.checked
  rw [Operator.Checked, h.kind, h.inputs] at hchecked
  rwa [← hchecked.eq_of_mem hkind input.ty (List.mem_map_of_mem hin)]

theorem Emitted.rows {kind : OperatorKind} (h : Emitted kind inputs op c)
    (hkind : kind.keepsType ∨ kind = .sum ∨ kind = .subtract)
    (hrows : ∀ i ∈ inputs, i.ty.zsetElement?.isSome) : op.ty.zsetElement?.isSome := by
  have hchecked := h.checked
  rw [Operator.Checked, h.kind, h.inputs] at hchecked
  obtain ⟨s, hs⟩ := hchecked.exists_mem hkind
  obtain ⟨i, hi, -⟩ := List.mem_map.1 hs
  exact h.rows_of_mem hkind hi (hrows i hi)

theorem Emitted.relation_sum (h : Emitted .sum inputs op c)
    (hin : ∀ i ∈ inputs, c.Relation i) : c.Relation op where
  reads := h.reads nofun
  rows := h.rows (.inr (.inl rfl)) fun i hi => (hin i hi).rows
  positive := .keeps (by rw [h.kind]; rfl) (h.inputs ▸ fun i hi => (hin i hi).positive)

end Emit

section Rows

variable {element : Ty} {body : Expr → Except CompileError Expr} {e : Expr}

theorem rowFunction_eq_ok (h : rowFunction input body = .ok f) : ∃ element e,
    input.ty.zsetElement? = some element ∧ body (rowParam element).var = .ok e ∧
      f = Expr.closure [rowParam element] e := by
  obtain ⟨t, ht, h⟩ := except_bind_eq_ok.1 h
  obtain ⟨e, he, h⟩ := except_bind_eq_ok.1 h
  cases h
  refine ⟨t, e, ?_, he, rfl⟩
  unfold Lower.element at ht
  split at ht
  · cases ht
    assumption
  · cases ht

/-- Types of the variables of a function of one row. -/
abbrev rowScope (element : Ty) : TyEnv := [("t", Ty.ref element)]

theorem firstOrder_row : FirstOrder fits (rowScope element) (rowParam element).var := .var rfl rfl

theorem lambda_row (h : FirstOrder fits (rowScope element) e) :
    Lambda fits (Expr.closure [rowParam element] e) :=
  .intro (List.forall_mem_singleton.2 rfl) h

theorem firstOrder_columns {Γ : TyEnv} {t : Expr} {cs : List Nat} {es : List Expr}
    (ht : FirstOrder fits Γ t) (h : columns t cs = .ok es) : ∀ e ∈ es, FirstOrder fits Γ e :=
  forall_mem_of_mapM h fun _ _ _ he => .field ht he

theorem builds_mapRow {fields : Expr → Except CompileError (List Expr)} (hin : c.Relation input)
    (hfields : ∀ element es, fields (rowParam element).var = .ok es →
      ∀ e ∈ es, FirstOrder fits (rowScope element) e) :
    Builds fits constants (mapRow input fields) c fun op c' => c'.Relation op := by
  refine builds_checked fun f hf => ?_
  obtain ⟨element, e, -, he, rfl⟩ := rowFunction_eq_ok hf
  obtain ⟨es, hes, he⟩ := except_bind_eq_ok.1 he
  cases he
  exact (builds_map hin.reads (lambda_row (.tuple (hfields element es hes)))).mono
    fun op c' _ hop => hop.relation_map hin.positive

theorem builds_rowFilter {condition : Scalar} (hfits : Admits fits) (hin : c.Relation input)
    (hnull : ∀ t ∈ condition.types, t.isNullType → fits .null t) :
    Builds fits constants (filter input condition) c fun op c' => c'.Relation op := by
  refine builds_checked fun f hf => ?_
  obtain ⟨element, e, -, he, rfl⟩ := rowFunction_eq_ok hf
  obtain ⟨s, hs, he⟩ := except_bind_eq_ok.1 he
  have hcondition := firstOrder_condition hfits
    (firstOrder_scalar hfits firstOrder_row condition hnull hs) he
  exact (builds_filter hin.reads (lambda_row hcondition)).mono
    fun op c' _ hop => hop.relation_filter hin.positive

theorem firstOrder_conjunction {Γ : TyEnv} {first : Expr} {rest : List Expr}
    (hfirst : FirstOrder fits Γ first) (hrest : ∀ e ∈ rest, FirstOrder fits Γ e)
    (h : rest.foldlM (Expr.binary .and) first = .ok e) : FirstOrder fits Γ e := by
  induction rest generalizing first with
  | nil =>
    cases h
    exact hfirst
  | cons second rest ih =>
    obtain ⟨both, hboth, h⟩ := except_bind_eq_ok.1 h
    obtain ⟨hsecond, hrest⟩ := List.forall_mem_cons.1 hrest
    exact ih (.binary hfirst hsecond hboth) hrest h

theorem firstOrder_allOf {Γ : TyEnv} {es : List Expr} (hes : ∀ e ∈ es, FirstOrder fits Γ e)
    (h : allOf es = .ok (some e)) : FirstOrder fits Γ e := by
  cases es with
  | nil => cases h
  | cons first rest =>
    obtain ⟨conjunction, hconjunction, h⟩ := except_bind_eq_ok.1 h
    cases h
    obtain ⟨hfirst, hrest⟩ := List.forall_mem_cons.1 hes
    exact firstOrder_conjunction hfirst hrest hconjunction

theorem builds_dropNullKeys {keys : List Nat} (hin : c.Relation input) :
    Builds fits constants (dropNullKeys input keys) c fun op c' => c'.Relation op := by
  refine builds_checked fun fields _ => builds_checked fun element _ => builds_checked fun checks
    hchecks => builds_checked fun predicate? hpredicate => ?_
  cases predicate? with
  | none => exact builds_pure hin
  | some predicate =>
    have hall : ∀ e ∈ checks, FirstOrder fits (rowScope element) e := by
      refine forall_mem_of_mapM hchecks fun key _ e he => ?_
      obtain ⟨column, hcolumn, he⟩ := except_bind_eq_ok.1 he
      exact .unary (.isNull (.field firstOrder_row hcolumn)) he
    exact (builds_filter hin.reads (lambda_row (firstOrder_allOf hall hpredicate))).mono
      fun op c' _ hop => hop.relation_filter hin.positive

theorem builds_indexWith {keys : Expr → Except CompileError (List Expr)} (hin : c.Relation input)
    (hkeys : ∀ element es, keys (rowParam element).var = .ok es →
      ∀ e ∈ es, FirstOrder fits (rowScope element) e) :
    Builds fits constants (indexWith input keys) c fun op c' =>
      ∃ element es, keys (rowParam element).var = .ok es ∧
        Emitted (.index (Expr.closure [rowParam element]
          (Expr.rawTuple [Expr.tuple es, ⟨.deref (rowParam element).var, element⟩])))
          [input] op c' := by
  refine builds_checked fun f hf => ?_
  obtain ⟨element, e, -, he, rfl⟩ := rowFunction_eq_ok hf
  obtain ⟨es, hes, he⟩ := except_bind_eq_ok.1 he
  cases he
  refine (builds_index hin.reads (lambda_row (.rawTuple ?_))
    (.intro (List.mem_cons_of_mem _ List.mem_cons_self))).mono
    fun op c' _ hop => ⟨element, es, hes, hop⟩
  simp only [List.forall_mem_cons]
  exact ⟨.tuple (hkeys element es hes), .deref firstOrder_row rfl, List.forall_mem_nil _⟩

theorem builds_indexRow (hin : c.Relation input) :
    Builds fits constants (indexRow input) c fun op c' =>
      ∃ element, Emitted (.index (rowKey element)) [input] op c' := by
  refine builds_checked fun f hf => ?_
  obtain ⟨element, e, -, he, rfl⟩ := rowFunction_eq_ok hf
  cases he
  refine (builds_index hin.reads (lambda_row (.rawTuple ?_)) (.intro List.mem_cons_self)).mono
    fun op c' _ hop => ⟨element, hop⟩
  simp only [List.forall_mem_cons]
  exact ⟨.deref firstOrder_row rfl, .rawTuple (List.forall_mem_nil _), List.forall_mem_nil _⟩

end Rows

section Joins

/-- Types of the variables of the function of a join. -/
abbrev joinScope (key l r : Ty) : TyEnv := [("r", Ty.ref r), ("l", Ty.ref l), ("k", Ty.ref key)]

theorem lambda_join {key l r : Ty} {e : Expr} (h : FirstOrder fits (joinScope key l r) e) :
    Lambda fits (Expr.closure [⟨"k", Ty.ref key⟩, ⟨"l", Ty.ref l⟩, ⟨"r", Ty.ref r⟩] e) := by
  refine .intro ?_ h
  simp only [List.forall_mem_cons]
  exact ⟨rfl, rfl, rfl, List.forall_mem_nil _⟩

/-- Both rows side by side. -/
theorem firstOrder_sideBySide {key l r : Ty} {m n : Nat} {ls rs : List Expr}
    (hls : columns (Param.var ⟨"l", Ty.ref l⟩) (List.range m) = .ok ls)
    (hrs : columns (Param.var ⟨"r", Ty.ref r⟩) (List.range n) = .ok rs) :
    FirstOrder fits (joinScope key l r) (Expr.tuple (ls ++ rs)) := by
  refine .tuple (List.forall_mem_append.2 ⟨firstOrder_columns ?_ hls, firstOrder_columns ?_ hrs⟩)
  · exact .var rfl rfl
  · exact .var rfl rfl

theorem firstOrder_keyColumn {Γ : TyEnv} {t e : Expr} {column : Nat} (ht : FirstOrder fits Γ t)
    (h : keyColumn t column = .ok e) : FirstOrder fits Γ e := by
  obtain ⟨field, hfield, h⟩ := except_bind_eq_ok.1 h
  have hbase : FirstOrder fits Γ field := .field ht hfield
  obtain rfl := Except.ok.inj h
  split
  · exact .cast hbase
  · exact hbase

theorem types_foldl_and (first : Scalar) (rest : List Scalar) :
    (rest.foldl (Scalar.binary .and) first).types = first.types ++ rest.flatMap Scalar.types := by
  induction rest generalizing first with
  | nil => simp
  | cons second rest ih => simp [ih, Scalar.types]

theorem types_conjuncts (s : Scalar) : ∀ term ∈ s.conjuncts, ∀ t ∈ term.types, t ∈ s.types := by
  fun_induction Scalar.conjuncts s with
  | case1 left right ihl ihr =>
    intro term hterm t ht
    simp only [Scalar.types, List.mem_append]
    rcases List.mem_append.1 hterm with hterm | hterm
    · exact .inl (ihl term hterm t ht)
    · exact .inr (ihr term hterm t ht)
  | case2 s _ =>
    intro term hterm t ht
    obtain rfl := List.mem_singleton.1 hterm
    exact ht

theorem builds_innerJoin {condition : Scalar} (hfits : Admits fits) (hleft : c.Relation left)
    (hright : c.Relation right) (hnull : ∀ t ∈ condition.types, t.isNullType → fits .null t) :
    Builds fits constants (join left right condition) c fun op c' => c'.Relation op := by
  refine builds_checked fun leftFields _ => builds_checked fun rightFields _ => ?_
  refine (builds_dropNullKeys hleft).bind fun left' c₁ h₁ hleft' => ?_
  refine (builds_dropNullKeys (hright.grows h₁)).bind fun right' c₂ h₂ hright' => ?_
  refine (builds_indexWith (hleft'.grows h₂) fun element es hes => ?_).bind
    fun leftIndexed c₃ h₃ hli => ?_
  · exact forall_mem_of_mapM hes fun _ _ _ he => firstOrder_keyColumn firstOrder_row he
  refine (builds_indexWith (hright'.grows h₃) fun element es hes => ?_).bind
    fun rightIndexed c₄ h₄ hri => ?_
  · exact forall_mem_of_mapM hes fun _ _ _ he => firstOrder_keyColumn firstOrder_row he
  obtain ⟨_, _, -, hli⟩ := hli
  obtain ⟨_, _, -, hri⟩ := hri
  refine builds_checked fun parts _ => ?_
  obtain ⟨key, value⟩ := parts
  refine builds_checked fun l _ => builds_checked fun r _ => builds_checked fun ls hls =>
    builds_checked fun rs hrs => ?_
  refine (builds_join ((hli.reads nofun).grows h₄) (hri.reads nofun)
    (lambda_join (firstOrder_sideBySide hls hrs))).bind fun joined c₅ _ hjoined => ?_
  have hrelation : c₅.Relation joined := hjoined.relation_join
    (hli.positive_index hleft'.positive) (hri.positive_index hright'.positive)
  split
  · exact builds_pure hrelation
  · rename_i first rest hresidual
    refine builds_rowFilter hfits hrelation fun t ht => hnull t ?_
    rw [types_foldl_and] at ht
    obtain ⟨term, hterm, ht⟩ : ∃ term ∈ first :: rest, t ∈ term.types := by
      rcases List.mem_append.1 ht with ht | ht
      · exact ⟨first, List.mem_cons_self, ht⟩
      · obtain ⟨term, hterm, ht⟩ := List.mem_flatMap.1 ht
        exact ⟨term, List.mem_cons_of_mem _ hterm, ht⟩
    rw [← hresidual] at hterm
    exact types_conjuncts condition term (List.mem_filter.1 hterm).1 t ht

/-- The rows that occur in a set, read through a join by whole rows. -/
structure SemiJoined (rows set kept : Operator) (c : Circuit) : Prop where
  relation : c.Relation kept
  shape : ∃ left right key l r, kept.kind = .join (keyRow key) ∧ kept.inputs = [left, right] ∧
    left.kind = .index (rowKey l) ∧ left.inputs = [rows] ∧
    right.kind = .index (rowKey r) ∧ right.inputs = [set]

theorem builds_semiJoin {rows set : Operator} (hrows : c.Relation rows) (hset : c.Relation set) :
    Builds fits constants (semiJoin rows set) c (SemiJoined rows set) := by
  refine builds_checked fun key _ => ?_
  refine (builds_indexRow hrows).bind fun left c₁ h₁ hleft => ?_
  refine (builds_indexRow (hset.grows h₁)).bind fun right c₂ h₂ hright => ?_
  obtain ⟨l, hleft⟩ := hleft
  obtain ⟨r, hright⟩ := hright
  refine builds_checked fun body hbody => ?_
  cases hbody
  have hkey : FirstOrder fits (joinScope key Ty.unit Ty.unit) (Expr.var "k" (Ty.ref key)) :=
    .var rfl rfl
  refine (builds_join ((hleft.reads nofun).grows h₂) (hright.reads nofun)
    (lambda_join (.deref hkey rfl))).mono fun kept c₃ _ hkept => ?_
  exact ⟨hkept.relation_join (hleft.positive_index hrows.positive)
    (hright.positive_index hset.positive), left, right, key, l, r, hkept.kind, hkept.inputs,
    hleft.kind, hleft.inputs, hright.kind, hright.inputs⟩

theorem builds_unmatched {side inner : Operator} {cs : List Nat} (hside : c.Relation side)
    (hinner : c.Relation inner) :
    Builds fits constants (unmatched side inner cs) c fun op c' => c'.Relation op := by
  refine (builds_mapRow hinner fun _ _ hes => firstOrder_columns firstOrder_row hes).bind
    fun projected c₁ h₁ hprojected => ?_
  refine (builds_distinct hprojected.reads hprojected.rows (.inr hprojected.positive)).bind
    fun set c₂ h₂ hset => ?_
  obtain ⟨hset, hdistinct⟩ := hset
  refine (builds_semiJoin ((hside.grows h₁).grows h₂) hset).bind fun kept c₃ h₃ hkept => ?_
  obtain ⟨hkept, left, right, key, l, r, hkind, hinputs, hleft, hside', hright, hset'⟩ := hkept
  have hside₃ := ((hside.grows h₁).grows h₂).grows h₃
  refine (builds_subtract hside₃.reads hkept.reads).mono fun op c₄ _ hop => ?_
  refine ⟨hop.reads nofun, hop.rows (.inr (.inr rfl)) ?_, .unmatched hop.kind hop.inputs
    hside.positive hkind hinputs hleft hside' hright hset' hdistinct⟩
  simp [hside.rows, hkept.rows]

theorem firstOrder_castTo {Γ : TyEnv} {e : Expr} {ty : Ty} (he : FirstOrder fits Γ e) :
    FirstOrder fits Γ (castTo e ty) := by
  unfold castTo
  split
  · exact he
  · exact .cast he

theorem builds_pad {rows : Operator} {output : List Ty} {offset : Nat} (hfits : Admits fits)
    (hrows : c.Relation rows) :
    Builds fits constants (pad rows output offset) c fun op c' => c'.Relation op := by
  refine builds_checked fun fields _ => builds_mapRow hrows fun element es hes => ?_
  refine forall_mem_of_mapM hes fun column _ e he => ?_
  obtain ⟨ty, i⟩ := column
  dsimp only at he
  split at he
  · obtain ⟨field, hfield, he⟩ := except_bind_eq_ok.1 he
    cases he
    exact firstOrder_castTo (.field firstOrder_row hfield)
  · cases he
    exact firstOrder_noneOf hfits ty

/-- The padded rows of an outer side, and what is done with them. -/
theorem builds_padded {side inner : Operator} {cs : List Nat} {output : List Ty} {offset : Nat}
    {needed : Prop} [Decidable needed] {next : List Operator → Lower Operator}
    {post : Operator → Circuit → Prop} (hfits : Admits fits) (hside : c.Relation side)
    (hinner : c.Relation inner)
    (hnext : ∀ ops c', c.Grows c' → (∀ i ∈ ops, c'.Relation i) →
      Builds fits constants (next ops) c' post) :
    Builds fits constants (if needed then do
        let rows ← unmatched side inner cs
        let padded ← pad rows output offset
        let ops ← pure [padded]
        next ops
      else do
        let ops ← pure []
        next ops) c post := by
  split
  · refine (builds_unmatched hside hinner).bind fun rows c₁ h₁ hrows => ?_
    refine (builds_pad hfits hrows).bind fun padded c₂ h₂ hpadded => ?_
    exact hnext [padded] c₂ (h₁.trans h₂) (by simpa using hpadded)
  · exact hnext [] c (.refl c) nofun

theorem builds_outerJoin {kind : JoinKind} {inner : Operator} (hfits : Admits fits)
    (hleft : c.Relation left) (hright : c.Relation right) (hinner : c.Relation inner) :
    Builds fits constants (outerJoin kind left right inner) c fun op c' => c'.Relation op := by
  refine builds_checked fun leftFields _ => builds_checked fun rightFields _ =>
    builds_checked fun innerFields _ => ?_
  have hwiden : Builds fits constants (mapRow inner fun t =>
      (kind.columns leftFields rightFields).zipIdx.mapM fun x => do
        return castTo (← Expr.field t x.2) x.1) c fun op c' => c'.Relation op := by
    refine builds_mapRow hinner fun element es hes => forall_mem_of_mapM hes fun column _ e he => ?_
    obtain ⟨field, hfield, he⟩ := except_bind_eq_ok.1 he
    cases he
    exact firstOrder_castTo (.field firstOrder_row hfield)
  refine builds_ite_bind hwiden (builds_pure hinner) fun both c₁ h₁ hboth => ?_
  refine builds_padded hfits (hleft.grows h₁) (hinner.grows h₁) fun lefts c₂ h₂ hlefts => ?_
  have h₁₂ := h₁.trans h₂
  refine builds_padded hfits (hright.grows h₁₂) (hinner.grows h₁₂) fun rights c₃ h₃ hrights => ?_
  have hall : ∀ i ∈ both :: lefts ++ rights, c₃.Relation i := by
    refine List.forall_mem_append.2 ⟨List.forall_mem_cons.2 ⟨?_, ?_⟩, hrights⟩
    · exact hboth.grows (h₂.trans h₃)
    · exact fun i hi => (hlefts i hi).grows h₃
  exact (builds_sum fun i hi => (hall i hi).reads.1).mono fun op c₄ h₄ hop =>
    hop.relation_sum fun i hi => (hall i hi).grows h₄

end Joins

section Sets

theorem builds_relation_distinct (hin : c.Relation input) :
    Builds fits constants (emit (Operator.distinct input)) c fun op c' => c'.Relation op :=
  (builds_distinct hin.reads hin.rows (.inr hin.positive)).mono fun _ _ _ hop => hop.1

theorem builds_intersect (hin : ∀ i ∈ inputs, c.Relation i) :
    Builds fits constants (intersect inputs) c fun op c' => c'.Relation op := by
  cases inputs with
  | nil => exact builds_check nofun
  | cons first rest =>
    obtain ⟨hfirst, hrest⟩ := List.forall_mem_cons.1 hin
    refine (builds_relation_distinct hfirst).bind fun start c₁ h₁ hstart => ?_
    refine builds_foldlM rest hstart fun input hinput acc c₂ h₂ hacc => ?_
    refine (builds_relation_distinct (((hrest input hinput).grows h₁).grows h₂)).bind
      fun set c₃ h₃ hset => ?_
    exact (builds_semiJoin (hacc.grows h₃) hset).mono fun _ _ _ hop => hop.relation

/-- A term of a difference: rows that are taken, or rows that are taken away. -/
structure Term (op : Operator) (c : Circuit) : Prop where
  offers : c.Offers op
  rows : op.ty.zsetElement?.isSome
  sign : op.kind = .negate ∨ op.Positive

theorem builds_term {i : Nat} (hin : c.Relation input) :
    Builds fits constants (do
      let rows ← emit (Operator.distinct input)
      if i = 0 then return rows else emit (Operator.negate rows)) c Term := by
  refine (builds_relation_distinct hin).bind fun rows c₁ _ hrows => ?_
  split
  · exact builds_pure ⟨hrows.reads.1, hrows.rows, .inr hrows.positive⟩
  · refine (builds_negate hrows.reads).mono fun op c₂ _ hop => ?_
    exact ⟨hop.offers, hop.rows (.inl rfl) (by simpa using hrows.rows), .inl hop.kind⟩

theorem builds_minus (hin : ∀ i ∈ inputs, c.Relation i) :
    Builds fits constants (minus inputs) c fun op c' => c'.Relation op := by
  have hterms : Builds fits constants (inputs.zipIdx.mapM fun x => do
      let rows ← emit (Operator.distinct x.1)
      if x.2 = 0 then return rows else emit (Operator.negate rows)) c
      fun terms c' => ∀ t ∈ terms, Term t c' := by
    refine builds_mapM ?_ inputs.zipIdx ?_
    · exact fun op c c' hgrows h => ⟨h.offers.grows hgrows, h.rows, h.sign⟩
    · intro x hx c' hgrows
      exact builds_term ((hin x.1 (List.fst_mem_of_mem_zipIdx hx)).grows hgrows)
  refine hterms.bind fun terms c₁ _ hterms => ?_
  refine (builds_sum fun i hi => (hterms i hi).offers).bind fun sum c₂ _ hsum => ?_
  have hrows := hsum.rows (.inr (.inl rfl)) fun i hi => (hterms i hi).rows
  refine (builds_distinct (hsum.reads nofun) hrows ?_).mono fun op c₃ _ hop => hop.1
  by_cases hneg : ∃ i ∈ terms, i.kind = .negate
  · exact .inl ⟨hsum.kind, hsum.inputs ▸ hneg⟩
  · refine .inr (.keeps (by rw [hsum.kind]; rfl) (hsum.inputs ▸ fun i hi => ?_))
    exact (hterms i hi).sign.resolve_left fun hkind => hneg ⟨i, hi, hkind⟩

end Sets

section Aggregates

theorem indexedParts_eq_ok {parts : Ty × Ty} (h : indexedParts op = .ok parts) :
    op.ty.indexedParts? = some parts := by
  unfold indexedParts at h
  split at h
  · cases h
    assumption
  · cases h

theorem rowParam_of_indexedParts {t key value : Ty} (h : t.indexedParts? = some (key, value)) :
    Operator.rowParam t = .ok (Ty.rawTuple [Ty.ref key, Ty.ref value]) := by
  obtain ⟨kind, n⟩ := t
  cases kind with
  | indexedZSet k v =>
    obtain ⟨rfl, rfl⟩ := Prod.mk.inj (Option.some.inj h)
    rfl
  | _ => cases h

/-- The rows of an indexed stream are a map of it. -/
theorem builds_flatten {grouped : Operator} (hin : c.Reads grouped) (hpos : grouped.Positive) :
    Builds fits constants (flatten grouped) c fun op c' =>
      c'.Relation op ∧ ∃ f, op.kind = .map f ∧ op.inputs = [grouped] := by
  refine builds_checked fun parts hparts => ?_
  obtain ⟨key, value⟩ := parts
  refine builds_checked fun param hparam => ?_
  rw [rowParam_of_indexedParts (indexedParts_eq_ok hparts)] at hparam
  cases hparam
  have hpart : ∀ (i n : Nat) (es : List Expr), ((List.range n).mapM fun j => do
      Expr.field (← Expr.field (Param.var ⟨"kv", Ty.rawTuple [Ty.ref key, Ty.ref value]⟩) i) j) =
        .ok es →
      ∀ e ∈ es, FirstOrder fits [("kv", Ty.rawTuple [Ty.ref key, Ty.ref value])] e := by
    intro i n es hes
    refine forall_mem_of_mapM hes fun j _ e he => ?_
    obtain ⟨side, hside, he⟩ := except_bind_eq_ok.1 he
    exact .field (.field (.var rfl rfl) hside) he
  refine builds_checked fun keys hkeys => builds_checked fun values hvalues => ?_
  have hlambda : Lambda fits (Expr.closure [⟨"kv", Ty.rawTuple [Ty.ref key, Ty.ref value]⟩]
      (Expr.tuple (keys ++ values))) :=
    .intro (List.forall_mem_singleton.2 rfl)
      (.tuple (List.forall_mem_append.2 ⟨hpart 0 _ keys hkeys, hpart 1 _ values hvalues⟩))
  exact (builds_map hin hlambda).mono fun op c' _ hop =>
    ⟨hop.relation_map hpos, _, hop.kind, hop.inputs⟩

/-- The literal of a call over no rows, and its type. -/
def emptyCell (a : Accumulator) (result : Ty) : Literal × Ty :=
  match a with
  | .count _ => (.int 0, Ty.int64)
  | _ => (.null, result.nullable)

theorem emptyValue_eq (a : Accumulator) (result : Ty) :
    a.emptyValue result = Expr.literal (emptyCell a result).1 (emptyCell a result).2 := by
  cases a <;> rfl

theorem atom?_emptyCell (a : Accumulator) (result : Ty) :
    ((emptyCell a result).1.atom? (emptyCell a result).2).isSome := by
  cases a <;> rfl

/-- The aggregate of all rows as one group, as rows. -/
structure Grouped (flat : Operator) (c : Circuit) : Prop where
  relation : c.Relation flat
  shape : ∃ f fold element grouped indexed, flat.kind = .map f ∧ flat.inputs = [grouped] ∧
    grouped.kind = .aggregate fold ∧ grouped.inputs = [indexed] ∧
    indexed.kind = .index (oneKey element)

theorem builds_defaultWhenEmpty {flat : Operator} {accumulators : List Accumulator}
    (hfits : Admits fits) (hconstants : constants) (hflat : Grouped flat c) :
    Builds fits constants (defaultWhenEmpty flat accumulators) c fun op c' => c'.Relation op := by
  refine builds_checked fun types _ => builds_checked fun rowType _ => ?_
  set cells := (accumulators.zip types).map fun x => emptyCell x.1 x.2 with hcells
  have hrow : (accumulators.zip types).map (fun x => x.1.emptyValue x.2) =
      cells.map fun cell => Expr.literal cell.1 cell.2 := by
    rw [hcells, List.map_map]
    exact List.map_congr_left fun x _ => emptyValue_eq x.1 x.2
  have hfirst : ∀ Γ, FirstOrder fits Γ
      (Expr.tuple (cells.map fun cell => Expr.literal cell.1 cell.2)) := by
    intro Γ
    rw [← hrow]
    refine .tuple (List.forall_mem_map.2 fun x _ => ?_)
    exact Accumulator.firstOrder_emptyValue hfits x.1 x.2
  have hatoms : ∀ cell ∈ cells, (cell.1.atom? cell.2).isSome :=
    List.forall_mem_map.2 fun x _ => atom?_emptyCell x.1 x.2
  rw [hrow]
  refine builds_checked fun value hvalue => ?_
  refine (builds_constant hconstants (List.forall_mem_singleton.2 (hfirst [])) hvalue).bind
    fun constant c₁ h₁ hconstant => ?_
  obtain ⟨-, rfl⟩ := zset_eq_ok hvalue
  have hflat₁ := hflat.relation.grows h₁
  refine (builds_map hflat₁.reads (lambda_row (hfirst _))).bind fun replaced c₂ h₂ hreplaced => ?_
  refine (builds_negate (hreplaced.reads nofun)).bind fun negated c₃ h₃ hnegated => ?_
  refine (builds_sum ?_).mono fun op c₄ h₄ hop => ⟨hop.reads nofun, ?_, ?_⟩
  · simp only [List.forall_mem_cons]
    exact ⟨(hflat₁.reads.1.grows h₂).grows h₃, (hconstant.offers.grows h₂).grows h₃,
      hnegated.offers, List.forall_mem_nil _⟩
  · exact hop.rows_of_mem (.inr (.inl rfl)) List.mem_cons_self hflat₁.rows
  · obtain ⟨f, fold, element, grouped, indexed, hf, hgrouped, hfold, hindexed, hkey⟩ := hflat.shape
    exact .defaulted hop.kind hop.inputs hf hgrouped hfold hindexed hkey hconstant.kind
      hnegated.kind hnegated.inputs hreplaced.kind hreplaced.inputs hatoms

theorem builds_aggregate {fold : Expr} (hin : c.Reads input) (hf : Folding fits fold) :
    Builds fits constants (emit (Operator.aggregate input fold)) c
      (Emitted (.aggregate fold) [input]) :=
  builds_derived (fun _ => Operator.makes_aggregate) (by simpa using hin) rfl hf

theorem builds_aggregates {group : List Nat} {calls : List AggregateCall} (hfits : Admits fits)
    (hin : c.Relation input) (hconstants : group.isEmpty → calls.isEmpty = false → constants) :
    Builds fits constants (aggregate input group calls) c fun op c' => c'.Relation op := by
  refine builds_checked fun fields _ => ?_
  have hcolumns : ∀ element es, columns (rowParam element).var group = .ok es →
      ∀ e ∈ es, FirstOrder fits (rowScope element) e :=
    fun _ _ hes => firstOrder_columns firstOrder_row hes
  split
  · exact builds_check nofun
  split
  · refine (builds_mapRow hin hcolumns).bind fun keys c₁ _ hkeys => ?_
    exact builds_relation_distinct hkeys
  rename_i hcalls
  refine builds_checked fun accumulators _ => builds_checked fun fold hfold => ?_
  obtain ⟨row, -, hfold⟩ := except_bind_eq_ok.1 hfold
  refine (builds_indexWith hin hcolumns).bind fun indexed c₁ _ hindexed => ?_
  obtain ⟨element, es, hes, hindexed⟩ := hindexed
  refine (builds_aggregate (hindexed.reads nofun) (folding_foldExpr hfits hfold)).bind
    fun grouped c₂ _ hgrouped => ?_
  refine (builds_flatten (hgrouped.reads nofun) (.unsigned (by rw [hgrouped.kind]; rfl))).bind
    fun flat c₃ _ hflat => ?_
  obtain ⟨hflat, f, hf, hinputs⟩ := hflat
  split
  · rename_i hgroup
    refine builds_defaultWhenEmpty hfits (hconstants hgroup (by simpa using hcalls)) ⟨hflat, ?_⟩
    obtain rfl := List.isEmpty_iff.1 hgroup
    cases hes
    exact ⟨f, fold, element, grouped, indexed, hf, hinputs, hgrouped.kind, hgrouped.inputs,
      hindexed.kind⟩
  · exact builds_pure hflat

/-- A fold over frames never makes negative weights. -/
theorem builds_windowAggregate {frame fold : Expr} (hin : c.Reads input)
    (hf : Folding fits fold) :
    Builds fits constants (emit (Operator.windowAggregate input frame fold)) c
      (Emitted (.windowAggregate frame fold) [input]) :=
  builds_derived (fun _ => Operator.makes_windowAggregate) (by simpa using hin) rfl hf

theorem builds_window {node : String} {partition : List Nat} {order : Nat}
    {lower upper : WindowBound} {calls : List AggregateCall} (hfits : Admits fits)
    (hin : c.Relation input) :
    Builds fits constants (window node input partition order lower upper calls) c
      fun op c' => c'.Relation op := by
  refine builds_checked fun fields _ => ?_
  dsimp only
  split
  · exact builds_check nofun
  split
  · exact builds_pure hin
  split
  · exact builds_throw
  refine builds_checked fun start _ => builds_checked fun stop _ => builds_checked fun frame _ =>
    builds_checked fun row _ => builds_checked fun fold hfold => ?_
  obtain ⟨accumulators, -, hfold⟩ := except_bind_eq_ok.1 hfold
  refine (builds_indexWith hin fun _ _ hes => firstOrder_columns firstOrder_row hes).bind
    fun indexed c₁ _ hindexed => ?_
  obtain ⟨_, _, -, hindexed⟩ := hindexed
  refine (builds_windowAggregate (hindexed.reads nofun) (folding_foldExpr hfits hfold)).bind
    fun windowed c₂ h₂ hwindowed => ?_
  refine builds_checked fun parts _ => ?_
  obtain ⟨key, results⟩ := parts
  refine builds_checked fun ls hls => builds_checked fun rs hrs => ?_
  exact (builds_join ((hindexed.reads nofun).grows h₂) (hwindowed.reads nofun)
    (lambda_join (firstOrder_sideBySide hls hrs))).mono fun op c₃ _ hop =>
      hop.relation_join (hindexed.positive_index hin.positive)
        (.unsigned (by rw [hwindowed.kind]; rfl))

theorem builds_values {types : List Ty} {rows : List (List Value)} (hfits : Admits fits)
    (hconstants : constants) (hnull : ∀ t ∈ types, t.isNullType → fits .null t) :
    Builds fits constants (values types rows) c fun op c' => c'.Relation op := by
  refine builds_checked fun tuples htuples => builds_checked fun value hvalue => ?_
  have hrows : ∀ row ∈ tuples.map fun t => (t, (1 : Int)), FirstOrder fits [] row.1 := by
    refine List.forall_mem_map.2 (forall_mem_of_mapM htuples fun row _ e he => ?_)
    unfold valuesRow at he
    split at he
    · cases he
    · obtain ⟨cells, hcells, he⟩ := except_bind_eq_ok.1 he
      cases he
      refine .tuple (forall_mem_of_mapM hcells fun cell hcell e he => ?_)
      exact firstOrder_value hfits (hnull cell.2 (List.of_mem_zip hcell).2) he
  refine (builds_constant hconstants hrows hvalue).mono fun op c' _ hop => ?_
  obtain ⟨-, rfl⟩ := zset_eq_ok hvalue
  refine ⟨hop.reads nofun, ?_, .constant hop.kind (List.forall_mem_map.2 fun _ _ => by simp)⟩
  have hchecked := hop.checked
  rw [Operator.Checked, hop.kind] at hchecked
  rw [hchecked.constant_ty]
  rfl

end Aggregates

end Lower

namespace Rel

mutual
/-- The types that scalars and literal rows name. -/
def types : Rel → List Ty
  | .scan _ => []
  | .project input exprs => input.types ++ exprs.flatMap Scalar.types
  | .filter input condition => input.types ++ condition.types
  | .join left right _ condition => left.types ++ right.types ++ condition.types
  | .aggregate input _ _ => input.types
  | .union inputs _ | .minus inputs _ | .intersect inputs _ => typesAll inputs
  | .distinct input => input.types
  | .values columns _ => columns
  | .window input _ _ _ _ _ => input.types
def typesAll : List Rel → List Ty
  | [] => []
  | r :: rs => r.types ++ typesAll rs
end

mutual
/-- Whether there are literal rows, or aggregates of all rows together. -/
def usesConstants : Rel → Bool
  | .scan _ => false
  | .project input _ | .filter input _ | .distinct input | .window input _ _ _ _ _ =>
    input.usesConstants
  | .join left right _ _ => left.usesConstants || right.usesConstants
  | .aggregate input group calls => group.isEmpty && !calls.isEmpty || input.usesConstants
  | .union inputs _ | .minus inputs _ | .intersect inputs _ => anyUsesConstants inputs
  | .values _ _ => true
def anyUsesConstants : List Rel → Bool
  | [] => false
  | r :: rs => r.usesConstants || anyUsesConstants rs
end

open Lower

variable {fits : Literal → Ty → Prop} {constants : Prop} {c : Circuit}
  {relations : List (String × Operator)}

mutual
/-- The stream of a relation stands for it. -/
theorem builds_stream (hfits : Admits fits) : ∀ (r : Rel) {c : Circuit},
    (∀ entry ∈ relations, c.Relation entry.2) →
    (∀ t ∈ r.types, t.isNullType → fits .null t) → (r.usesConstants → constants) →
    Builds fits constants (r.stream relations) c fun op c' => c'.Relation op
  | .scan table, c, hrelations, _, _ => by
    unfold stream
    split
    · rename_i op hlookup
      obtain ⟨before, after, hsplit, -⟩ := List.lookup_eq_some_iff.1 hlookup
      exact builds_pure (hrelations (table, op) (by simp [hsplit]))
    · exact builds_check nofun
  | .project input exprs, c, hrelations, hnull, hconstants => by
    rw [types, List.forall_mem_append] at hnull
    unfold stream
    refine (builds_stream hfits input hrelations hnull.1 hconstants).bind fun op c' _ hop => ?_
    refine builds_mapRow hop fun element es hes => forall_mem_of_mapM hes fun s hs e he => ?_
    exact firstOrder_scalar hfits firstOrder_row s
      (fun t ht => hnull.2 t (List.mem_flatMap.2 ⟨s, hs, ht⟩)) he
  | .filter input condition, c, hrelations, hnull, hconstants => by
    rw [types, List.forall_mem_append] at hnull
    unfold stream
    refine (builds_stream hfits input hrelations hnull.1 hconstants).bind fun op c' _ hop => ?_
    exact builds_rowFilter hfits hop hnull.2
  | .join left right kind condition, c, hrelations, hnull, hconstants => by
    rw [types, List.forall_mem_append, List.forall_mem_append] at hnull
    rw [usesConstants, Bool.or_eq_true] at hconstants
    unfold stream
    refine (builds_stream hfits left hrelations hnull.1.1 fun h => hconstants (.inl h)).bind
      fun l c₁ h₁ hl => ?_
    refine (builds_stream hfits right (fun entry hentry => (hrelations entry hentry).grows h₁)
      hnull.1.2 fun h => hconstants (.inr h)).bind fun r c₂ h₂ hr => ?_
    refine (builds_innerJoin hfits (hl.grows h₂) hr hnull.2).bind fun inner c₃ h₃ hinner => ?_
    split
    · exact builds_pure hinner
    · exact builds_outerJoin hfits ((hl.grows h₂).grows h₃) (hr.grows h₃) hinner
  | .aggregate input group calls, c, hrelations, hnull, hconstants => by
    rw [usesConstants, Bool.or_eq_true, Bool.and_eq_true, Bool.not_eq_true'] at hconstants
    unfold stream
    split
    · exact builds_throw
    · refine (builds_stream hfits input hrelations hnull fun h => hconstants (.inr h)).bind
        fun op c' _ hop => ?_
      exact builds_aggregates hfits hop fun hgroup hcalls => hconstants (.inl ⟨hgroup, hcalls⟩)
  | .union inputs all, c, hrelations, hnull, hconstants => by
    unfold stream
    refine (builds_streams hfits inputs hrelations hnull hconstants).bind fun ops c₁ _ hops => ?_
    refine (builds_sum fun i hi => (hops i hi).reads.1).bind fun sum c₂ h₂ hsum => ?_
    have hrelation := hsum.relation_sum fun i hi => (hops i hi).grows h₂
    split
    · exact builds_pure hrelation
    · exact builds_relation_distinct hrelation
  | .minus inputs all, c, hrelations, hnull, hconstants => by
    unfold stream
    split
    · exact builds_throw
    · exact (builds_streams hfits inputs hrelations hnull hconstants).bind
        fun ops c₁ _ hops => builds_minus hops
  | .intersect inputs all, c, hrelations, hnull, hconstants => by
    unfold stream
    split
    · exact builds_throw
    · exact (builds_streams hfits inputs hrelations hnull hconstants).bind
        fun ops c₁ _ hops => builds_intersect hops
  | .distinct input, c, hrelations, hnull, hconstants => by
    unfold stream
    exact (builds_stream hfits input hrelations hnull hconstants).bind
      fun op c' _ hop => builds_relation_distinct hop
  | .values columns rows, c, _, hnull, hconstants => by
    unfold stream
    exact builds_values hfits (hconstants rfl) hnull
  | .window input partition order lower upper calls, c, hrelations, hnull, hconstants => by
    unfold stream
    dsimp only
    split
    · split
      · exact builds_throw
      · exact (builds_stream hfits input hrelations hnull hconstants).bind
          fun op c' _ hop => builds_window hfits hop
    · exact builds_throw
theorem builds_streams (hfits : Admits fits) : ∀ (rs : List Rel) {c : Circuit},
    (∀ entry ∈ relations, c.Relation entry.2) →
    (∀ t ∈ typesAll rs, t.isNullType → fits .null t) → (anyUsesConstants rs → constants) →
    Builds fits constants (streams relations rs) c fun ops c' => ∀ op ∈ ops, c'.Relation op
  | [], c, _, _, _ => by
    unfold streams
    exact builds_pure nofun
  | r :: rs, c, hrelations, hnull, hconstants => by
    rw [typesAll, List.forall_mem_append] at hnull
    rw [anyUsesConstants, Bool.or_eq_true] at hconstants
    unfold streams
    refine (builds_stream hfits r hrelations hnull.1 fun h => hconstants (.inl h)).bind
      fun op c₁ h₁ hop => ?_
    refine (builds_streams hfits rs (fun entry hentry => (hrelations entry hentry).grows h₁)
      hnull.2 fun h => hconstants (.inr h)).bind fun ops c₂ h₂ hops => builds_pure ?_
    exact List.forall_mem_cons.2 ⟨hop.grows h₂, hops⟩
end

end Rel

namespace Circuit

variable {c₀ c : Circuit} {ctx₀ ctx : Context} {relations : List (String × Operator)}

/-- A circuit under way in which streams stand for the relations of these names. -/
structure Hosts (relations : List (String × Operator)) (c : Circuit) (ctx : Context) : Prop where
  lowered : c.Lowered (fun _ _ => True) True ctx
  relations : ∀ entry ∈ relations, c.Relation entry.2

/-- The stream of a relation is a member of the circuit, which is in order and has only gained
interior operators. -/
theorem Hosts.stream (h : c₀.Hosts relations ctx₀) {r : Rel} {op : Operator}
    (hrun : r.stream relations c₀ ctx₀ = (.ok (op, c), ctx)) :
    c.WellFormed ctx ∧ c₀.Grows c ∧ op ∈ c.operators := by
  obtain ⟨hc, hgrows, hop⟩ := Rel.builds_stream admits_any r h.relations (fun _ _ _ => trivial)
    (fun _ => trivial) ctx₀ op c ctx h.lowered hrun
  exact ⟨hc.wellFormed, hgrows, hop.reads.1.1⟩

end Circuit

end ViewCircuit
