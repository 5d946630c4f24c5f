import ViewCircuit.Proofs.Rows

/-! Scalars as SQL reads them. NULL is the unknown truth value for logical operators, a value like
any other for IS DISTINCT FROM, and the result of every other operator that has it as an operand.
What types do to values that are not NULL is left open, and so is where it fails. -/
namespace ViewCircuit

/-- Truth values; the unknown one is none. -/
abbrev Truth := Option Bool

namespace Truth

def and : Truth → Truth → Truth
  | some false, _ | _, some false => some false
  | some true, some true => some true
  | _, _ => none

def or : Truth → Truth → Truth
  | some true, _ | _, some true => some true
  | some false, some false => some false
  | _, _ => none

def toVal : Truth → Val
  | some b => Val.bool b
  | none => Val.null

end Truth

namespace Val

/-- The truth value of a boolean or NULL. -/
def truth? : Val → Option Truth
  | atom (.bool b) => some (some b)
  | atom .null => some none
  | _ => none

/-- A number that nothing can be divided by. A decimal is one if its digits are. -/
def isZero : Val → Bool
  | atom (.int _ i) => i == 0
  | atom (.usize n) => n == 0
  | atom (.float x) | atom (.double x) => x.isZero
  | atom (.decimal _ _ text) =>
    let digits := (text.toList.takeWhile fun c => c != 'e' && c != 'E').filter Char.isDigit
    !digits.isEmpty && digits.all (· == '0')
  | _ => false

end Val

/-- The value of a literal of a type. Integers stand for numbers of other types too. -/
def Value.val? (value : Value) (ty : Ty) : Option Val :=
  match value, ty.kind with
  | .null, _ => some Val.null
  | .bool b, .bool => some (Val.bool b)
  | .int i, .integer width => some (.atom (.int width i))
  | .int i, .usize => some (.atom (.usize i.toNat))
  | .int i, .decimal precision scale => some (.atom (.decimal precision scale (toString i)))
  | .int i, .float => some (.atom (.float (Double.ofInt i)))
  | .int i, .double => some (.atom (.double (Double.ofInt i)))
  | .float x, .float => some (.atom (.float x))
  | .float x, .double => some (.atom (.double x))
  | .decimal d, .decimal precision scale => some (.atom (.decimal precision scale d))
  | .string s, .string => some (.atom (.string s))
  | .date d, .date => some (.atom (.date d))
  | .timestamp t, .timestamp => some (.atom (.timestamp t))
  | _, _ => none

/-- Operators and conversions on values that are not NULL; none where they fail. -/
structure Sql where
  binary : BinaryOp → Val → Val → Option Val
  neg : Val → Option Val
  convert : Ty → Val → Option Val

namespace Sql

variable (S : Sql)

/-- A binary operator. Division by zero yields NULL, too. -/
def combine (op : BinaryOp) (v w : Val) : Option Val :=
  match op with
  | .and => do return (Truth.and (← v.truth?) (← w.truth?)).toVal
  | .or => do return (Truth.or (← v.truth?) (← w.truth?)).toVal
  | .isDistinct =>
    if v.isNull || w.isNull then some (Val.bool (v.isNull != w.isNull)) else S.binary .neq v w
  | op =>
    if v.isNull || w.isNull || (op == .div && w.isZero) then some Val.null else S.binary op v w

def apply (op : SqlUnary) (v : Val) : Option Val :=
  match op with
  | .isNull => some (Val.bool v.isNull)
  | .isNotNull => some (Val.bool !v.isNull)
  | .neg => if v.isNull then some Val.null else S.neg v
  | .not => v.truth?.map fun t => Truth.toVal (t.map Bool.not)
  | .isTrue => v.truth?.map fun t => Val.bool (t == some true)
  | .isFalse => v.truth?.map fun t => Val.bool (t == some false)
  | .isNotTrue => v.truth?.map fun t => Val.bool (t != some true)
  | .isNotFalse => v.truth?.map fun t => Val.bool (t != some false)

/-- A conversion. NULL has no place in a type that is not nullable. -/
def cast (ty : Ty) (v : Val) : Option Val :=
  if v.isNull then if ty.mayBeNull then some Val.null else none else S.convert ty v

end Sql

namespace Scalar

mutual
/-- The value over a row, if nothing fails. -/
def value (S : Sql) (row : Val) : Scalar → Option Val
  | .column index => row.cells[index]?
  | .literal v ty => v.val? ty
  | .unary op operand => do S.apply op (← operand.value S row)
  | .binary op left right => do S.combine op (← left.value S row) (← right.value S row)
  | .cast operand ty => do S.cast ty (← operand.value S row)
  | .case branches otherwise => branchValue S row branches (otherwise.value S row)
/-- The value of the first branch whose condition is true. -/
def branchValue (S : Sql) (row : Val) : List (Scalar × Scalar) → Option Val → Option Val
  | [], otherwise => otherwise
  | (w, t) :: rest, otherwise => do
    let condition ← (← w.value S row).truth?
    if condition = some true then t.value S row else branchValue S row rest otherwise
end

end Scalar

/-- The primitive that computes an operator on operands that may be NULL. -/
def SqlUnary.primitive? : SqlUnary → Option UnaryPrimitive
  | .isNull | .isNotNull => none
  | .not => some .not
  | .neg => some .neg
  | .isTrue => some .isTrue
  | .isFalse => some .isFalse
  | .isNotTrue => some .isNotTrue
  | .isNotFalse => some .isNotFalse

/-- Every function of the table of primitives computes the operator of SQL that it is named for, and
native operators do so on values that are not NULL. A conversion to the type of a value keeps it. -/
structure Runtime.Realizes (rt : Runtime) (S : Sql) : Prop where
  binary {op : BinaryOp} {s t : Ty} {p : Primitive} {v w u : Val} :
    Primitive.binary op s t = .ok p → v.IsDatum s → w.IsDatum t → S.combine op v w = some u →
    rt.run (.call p.name p.result) [v, w] = some u
  unary {op : SqlUnary} {q : UnaryPrimitive} {t : Ty} {p : Primitive} {v u : Val} :
    op.primitive? = some q → Primitive.unary q t = .ok p → v.IsDatum t → S.apply op v = some u →
    rt.run (.call p.name p.result) [v] = some u
  native {op : BinaryOp} {s t : Ty} {p : Primitive} {v w u : Val} : op.isNative →
    Primitive.binary op s t = .ok p → v.IsDatum s → w.IsDatum t → v.isNull = false →
    w.isNull = false → S.combine op v w = some u → rt.run (.binary op) [v, w] = some u
  not (b : Bool) : rt.run (.unary .not) [Val.bool b] = some (Val.bool !b)
  neg {t : Ty} {v u : Val} : t.isNumeric → v.IsDatum t → v.isNull = false → S.neg v = some u →
    rt.run (.unary .neg) [v] = some u
  cast {s t : Ty} {v u : Val} : v.IsDatum s → v.isNull = false → S.convert t v = some u →
    rt.run (.cast t) [v] = some u
  same {t : Ty} {v u : Val} : v.IsDatum t → v.isNull = false → S.convert t v = some u → u = v

section Atomic

variable {t : Ty}

/-- A type that has operators, and values without parts only. -/
def Ty.IsAtomic (t : Ty) : Prop := ∃ family, Family.ofTy? t = some family

theorem Ty.isAtomic_of_isNumeric (h : t.isNumeric) : t.IsAtomic := by
  unfold Ty.isNumeric at h
  unfold IsAtomic Family.ofTy?
  split at h <;> simp_all

theorem Val.HasTy.isData {v : Val} (h : v.HasTy t) (ht : t.IsAtomic) : v.isData := by
  obtain ⟨family, ht⟩ := ht
  unfold Family.ofTy? at ht
  cases h with
  | atom => rfl
  | tuple hts =>
    unfold Ty.tupleFields? at hts
    split at hts <;> simp_all
  | _ => cases ht

end Atomic

namespace Primitive

variable {op : BinaryOp} {s t : Ty} {p : Primitive}

theorem kind_binaryResult :
    (binaryResult op s t).kind = if op.isComparison then .bool else s.kind := by
  unfold binaryResult
  cases op <;> rfl

theorem mayBeNull_binaryResult (h : op ≠ .isDistinct) :
    (binaryResult op s t).mayBeNull = (s.mayBeNull || t.mayBeNull || op == .div) := by
  unfold binaryResult
  cases op <;> simp_all [BinaryOp.isComparison, Ty.withNull, Ty.nullable, Ty.bool]

theorem isAtomic_binary (h : binary op s t = .ok p) : p.result.IsAtomic := by
  obtain ⟨-, rfl⟩ := binary_eq_ok h
  have hkind : (binaryResult op s t).kind = _ := kind_binaryResult
  split at hkind
  · exact ⟨.boolean, by unfold Family.ofTy?; rw [hkind]⟩
  · unfold binary at h
    split at h
    · cases h
    · rename_i family hfamily
      exact ⟨family, by unfold Family.ofTy? at hfamily ⊢; rwa [hkind]⟩

theorem isAtomic_unary {op : UnaryPrimitive} (h : unary op t = .ok p) : p.result.IsAtomic := by
  obtain ⟨-, rfl⟩ := unary_eq_ok h
  dsimp only
  split
  · exact ⟨.boolean, rfl⟩
  · unfold unary at h
    split at h
    · cases h
    · exact ⟨_, ‹_›⟩

theorem kind_of_not (h : unary .not t = .ok p) : t.kind = .bool := by
  unfold unary at h
  split at h
  · cases h
  · rename_i family hfamily
    split at h
    · cases h
    · rename_i hsupports
      obtain rfl : family = .boolean := by simpa [unarySupports] using hsupports
      unfold Family.ofTy? at hfamily
      split at hfamily <;> simp_all

end Primitive

/-- Operators on values that are not NULL keep to the type of their first operand, but comparisons
yield booleans. A conversion makes data of its type. -/
structure Sql.Typed (S : Sql) : Prop where
  compare {op : BinaryOp} {v w u : Val} : op.isComparison → S.binary op v w = some u →
    ∃ b, u = Val.bool b
  binary {op : BinaryOp} {v w u : Val} {t : Ty} : op.isComparison = false → v.HasTy t →
    S.binary op v w = some u → u.HasTy t.nonNull
  neg {v u : Val} {t : Ty} : v.HasTy t → S.neg v = some u → u.HasTy t.nonNull
  convert {v u : Val} {t : Ty} : S.convert t v = some u → u.HasTy t ∧ (v.isData → u.isData)
  same {v u : Val} {t : Ty} : v.HasTy t → S.convert t v = some u → u = v

section Results

variable {S : Sql} {op : BinaryOp} {s t : Ty} {p : Primitive} {v w u : Val}

/-- Booleans and NULL are what has a truth value. -/
theorem Val.truth?_eq_some {b : Truth} : v.truth? = some b ↔ v = b.toVal := by
  unfold truth? Truth.toVal
  constructor
  · intro h
    split at h <;> cases h <;> rfl
  · rintro rfl
    cases b <;> rfl

theorem Truth.hasTy {b : Truth} (ht : t.kind = .bool) (hb : b = none → t.mayBeNull) :
    b.toVal.HasTy t := by
  cases b with
  | none => exact .atom (hb rfl)
  | some b => exact .bool ht

theorem Truth.mayBeNull {b : Truth} (h : b.toVal.HasTy t) (hb : b = none) : t.mayBeNull := by
  subst hb
  exact Val.HasTy.mayBeNull h rfl

theorem Truth.known_and {b c : Truth} (h : Truth.and b c = none) : b = none ∨ c = none :=
  match b, c with
  | none, _ => .inl rfl
  | some _, none => .inr rfl
  | some b, some c => by cases b <;> cases c <;> cases h

theorem Truth.known_or {b c : Truth} (h : Truth.or b c = none) : b = none ∨ c = none :=
  match b, c with
  | none, _ => .inl rfl
  | some _, none => .inr rfl
  | some b, some c => by cases b <;> cases c <;> cases h

/-- A connective of truth values has an unknown result of unknown operands only. -/
theorem hasTy_logical (hop : op.isLogical) (hp : Primitive.binary op s t = .ok p)
    {connective : Truth → Truth → Truth}
    (hknown : ∀ b c, connective b c = none → b = none ∨ c = none) (hv : v.HasTy s)
    (hw : w.HasTy t) (hu : (do return (connective (← v.truth?) (← w.truth?)).toVal) = some u) :
    u.HasTy p.result := by
  obtain ⟨b, hb, hu⟩ := Option.bind_eq_some_iff.1 hu
  obtain ⟨c, hc, hu⟩ := Option.bind_eq_some_iff.1 hu
  cases hu
  obtain rfl := Val.truth?_eq_some.1 hb
  obtain rfl := Val.truth?_eq_some.1 hc
  rw [(logical_types hop hp).2.2]
  refine Truth.hasTy rfl fun hnone => ?_
  rcases hknown b c hnone with hnone | hnone
  · simp [Truth.mayBeNull hv hnone]
  · simp [Truth.mayBeNull hw hnone]

/-- What an operator yields has the type that the table of primitives tells. -/
theorem Sql.Typed.combine (hS : S.Typed) (hp : Primitive.binary op s t = .ok p) (hv : v.HasTy s)
    (hw : w.HasTy t) (hu : S.combine op v w = some u) : u.HasTy p.result := by
  have hresult := (Primitive.binary_eq_ok hp).2
  have hkind : p.result.kind = if op.isComparison then .bool else s.kind :=
    hresult ▸ Primitive.kind_binaryResult
  unfold Sql.combine at hu
  split at hu
  · exact hasTy_logical rfl hp (fun _ _ => Truth.known_and) hv hw hu
  · exact hasTy_logical rfl hp (fun _ _ => Truth.known_or) hv hw hu
  · split at hu
    · cases hu
      exact .bool hkind
    · obtain ⟨b, rfl⟩ := hS.compare rfl hu
      exact .bool hkind
  · rename_i hop
    split at hu
    · rename_i hnull
      cases hu
      refine .atom ?_
      change p.result.mayBeNull
      rw [hresult, Primitive.mayBeNull_binaryResult hop]
      simp only [Bool.or_eq_true, Bool.and_eq_true] at hnull ⊢
      rcases hnull with (hnull | hnull) | hdiv
      · exact .inl (.inl (hv.mayBeNull hnull))
      · exact .inl (.inr (hw.mayBeNull hnull))
      · exact .inr hdiv.1
    · cases hcomparison : op.isComparison with
      | true =>
        obtain ⟨b, rfl⟩ := hS.compare hcomparison hu
        exact .bool (by simpa [hcomparison] using hkind)
      | false =>
        refine (hS.binary hcomparison hv hu).widen ?_ (by simp [Ty.nonNull])
        simpa [hcomparison, Ty.nonNull] using hkind

theorem Sql.hasTy_not (ht : t.kind = .bool) (hv : v.HasTy t) (hu : S.apply .not v = some u) :
    u.HasTy t := by
  obtain ⟨b, hb, rfl⟩ := Option.map_eq_some_iff.1 hu
  obtain rfl := Val.truth?_eq_some.1 hb
  exact Truth.hasTy ht fun hnone => Truth.mayBeNull hv (by simpa using hnone)

theorem Sql.Typed.hasTy_neg (hS : S.Typed) (hv : v.HasTy t) (hu : S.apply .neg v = some u) :
    u.HasTy t := by
  unfold Sql.apply at hu
  dsimp only at hu
  split at hu
  · rename_i hnull
    cases hu
    rwa [Val.eq_null_of_isNull hnull] at hv
  · exact (hS.neg hv hu).widen rfl (by simp [Ty.nonNull])

theorem Sql.Typed.apply {op : SqlUnary} {q : UnaryPrimitive} (hS : S.Typed)
    (hop : op.primitive? = some q) (hp : Primitive.unary q t = .ok p) (hv : v.HasTy t)
    (hu : S.apply op v = some u) : u.HasTy p.result := by
  obtain ⟨-, rfl⟩ := Primitive.unary_eq_ok hp
  cases op with
  | isNull | isNotNull => cases hop
  | not =>
    cases hop
    exact Sql.hasTy_not (Primitive.kind_of_not hp) hv hu
  | neg =>
    cases hop
    exact hS.hasTy_neg hv hu
  | isTrue | isFalse | isNotTrue | isNotFalse =>
    cases hop
    obtain ⟨b, -, rfl⟩ := Option.map_eq_some_iff.1 hu
    exact .bool rfl

end Results

section Names

/-- The first word of a name. -/
def firstWord (f : String) : List Char := f.toList.takeWhile (· != '_')

/-- The operator that a function of two operands computes. -/
def BinaryOp.ofFunction? (f : String) : Option BinaryOp :=
  Primitive.listedOps.find? fun op => firstWord op.key == firstWord f

/-- The operator that a function of one operand computes. -/
def SqlUnary.ofFunction? (f : String) : Option SqlUnary :=
  [.not, .neg, .isTrue, .isFalse, .isNotTrue, .isNotFalse].find? fun op =>
    op.primitive?.any fun q => Runtime.implements q.key f

theorem firstWord_append (key rest : String) : firstWord (key ++ "_" ++ rest) = firstWord key := by
  unfold firstWord
  rw [String.append_assoc, String.toList_append]
  induction key.toList with
  | nil => simp [String.toList_append]
  | cons c cs ih => rw [List.cons_append, List.takeWhile_cons, List.takeWhile_cons, ih]

theorem BinaryOp.ofFunction?_key (op : BinaryOp) : ofFunction? op.key = some op := by
  cases op <;> with_unfolding_all rfl

variable {s t : Ty} {p : Primitive}

theorem BinaryOp.ofFunction?_name {op : BinaryOp} (h : Primitive.binary op s t = .ok p) :
    ofFunction? p.name = some op := by
  obtain ⟨-, rfl⟩ := Primitive.binary_eq_ok h
  have hname : ∃ rest, Primitive.binaryName op s t = op.key ++ "_" ++ rest := by
    unfold Primitive.binaryName
    split
    · obtain rfl : op = .isDistinct := by simpa using ‹(op == .isDistinct) = true›
      exact ⟨Primitive.nullMark s ++ "_" ++ Primitive.nullMark t, by
        simp [BinaryOp.key, String.append_assoc]⟩
    · exact ⟨Primitive.operandName s ++ "_" ++ Primitive.operandName t, by
        simp [String.append_assoc]⟩
  obtain ⟨rest, hrest⟩ := hname
  have hkey := ofFunction?_key op
  unfold ofFunction? at hkey ⊢
  dsimp only
  rw [hrest, firstWord_append]
  exact hkey

theorem SqlUnary.ofFunction?_name {op : SqlUnary} {q : UnaryPrimitive}
    (hop : op.primitive? = some q) (h : Primitive.unary q t = .ok p) :
    ofFunction? p.name = some op := by
  obtain ⟨-, rfl⟩ := Primitive.unary_eq_ok h
  cases op <;> cases hop <;>
    simp [ofFunction?, List.find?, primitive?, Runtime.implements, UnaryPrimitive.key,
      List.isPrefixOf, String.toList_append]

end Names

section Runtime

open scoped Classical

/-- The runtime of the operators: functions are found by their names. -/
noncomputable def Sql.runtime (S : Sql) : Runtime
  | .unary .not, [v] => S.apply .not v
  | .unary .neg, [v] => S.apply .neg v
  | .binary op, [v, w] => S.combine op v w
  | .cast t, [v] => S.convert t v
  | .call f t, [v] =>
    ((SqlUnary.ofFunction? f).bind fun op => S.apply op v).filter fun u => u.HasTy t
  | .call f t, [v, w] =>
    ((BinaryOp.ofFunction? f).bind fun op => S.combine op v w).filter fun u => u.HasTy t
  | _, _ => none

variable {S : Sql}

theorem Sql.Typed.runtime (hS : S.Typed) : S.runtime.Typed := by
  intro i ts t vs v hsig hvs hv
  unfold Sql.runtime at hv
  split at hv
  · cases hsig with
    | not ht =>
      obtain ⟨hw, -⟩ := List.forall₂_cons.1 hvs
      exact Sql.hasTy_not (Ty.kind_of_isBool ht) hw hv
  · cases hsig with
    | neg =>
      obtain ⟨hw, -⟩ := List.forall₂_cons.1 hvs
      exact hS.hasTy_neg hw hv
  · cases hsig with
    | binary hp =>
      obtain ⟨hl, hr⟩ := List.forall₂_cons.1 hvs
      exact hS.combine hp hl (List.forall₂_cons.1 hr).1 hv
  · cases hsig with
    | cast => exact (hS.convert hv).1
  · cases hsig with
    | call => simpa using (Option.filter_eq_some_iff.1 hv).2
  · cases hsig with
    | call => simpa using (Option.filter_eq_some_iff.1 hv).2
  · cases hv

/-- The functions by name are those that the table names. -/
theorem Sql.Typed.realizes (hS : S.Typed) : S.runtime.Realizes S where
  binary {op s t p v w u} hp hv hw hu := by
    have hresult := hS.combine hp hv.2 hw.2 hu
    refine Runtime.run_eq_some.2 ⟨by simp [Val.allData, hv.1, hw.1],
      Option.filter_eq_some_iff.2 ⟨?_, by simpa using hresult⟩,
      hresult.isData (Primitive.isAtomic_binary hp)⟩
    rw [BinaryOp.ofFunction?_name hp]
    exact hu
  unary {op q t p v u} hop hp hv hu := by
    have hresult := hS.apply hop hp hv.2 hu
    refine Runtime.run_eq_some.2 ⟨by simp [Val.allData, hv.1],
      Option.filter_eq_some_iff.2 ⟨?_, by simpa using hresult⟩,
      hresult.isData (Primitive.isAtomic_unary hp)⟩
    rw [SqlUnary.ofFunction?_name hop hp]
    exact hu
  native {op s t p v w u} _ hp hv hw _ _ hu :=
    Runtime.run_eq_some.2 ⟨by simp [Val.allData, hv.1, hw.1], hu,
      (hS.combine hp hv.2 hw.2 hu).isData (Primitive.isAtomic_binary hp)⟩
  not b := by cases b <;> rfl
  neg {t v u} ht hv hnull hu := by
    have hresult : S.apply .neg v = some u := by rwa [Sql.apply, hnull, if_neg Bool.false_ne_true]
    exact Runtime.run_eq_some.2 ⟨by simp [Val.allData, hv.1], hresult,
      (hS.hasTy_neg hv.2 hresult).isData (Ty.isAtomic_of_isNumeric ht)⟩
  cast hv hnull hu := by
    obtain ⟨-, hdata⟩ := hS.convert hu
    exact Runtime.run_eq_some.2 ⟨by simp [Val.allData, hv.1], hu, hdata hv.1⟩
  same hv _ hu := hS.same hv.2 hu

/-- A number of 32 bits, unless it is out of range. -/
def Val.int32? (i : Int) : Option Val :=
  if fitsWidth .w32 i then some (.atom (.int .w32 i)) else none

/-- Sums, quotients and equality of numbers of 32 bits; conversions keep values. -/
noncomputable def Sql.int32 : Sql where
  binary
    | .add, .atom (.int .w32 i), .atom (.int .w32 j) => Val.int32? (i + j)
    | .div, .atom (.int .w32 i), .atom (.int .w32 j) => Val.int32? (i.tdiv j)
    | .eq, .atom (.int .w32 i), .atom (.int .w32 j) => some (Val.bool (i == j))
    | .neq, .atom (.int .w32 i), .atom (.int .w32 j) => some (Val.bool (i != j))
    | _, _, _ => none
  neg
    | .atom (.int .w32 i) => Val.int32? (-i)
    | _ => none
  convert t v := if v.HasTy t then some v else none

theorem Val.HasTy.int32 {i j : Int} {t : Ty} {u : Val} (h : (Val.atom (.int .w32 i)).HasTy t)
    (hu : Val.int32? j = some u) : u.HasTy t.nonNull := by
  unfold Val.int32? at hu
  split at hu
  · obtain rfl := Option.some.inj hu
    cases h with
    | atom hkind => exact .atom hkind
    | any => exact .any rfl nofun
    | user => exact .user rfl
    | indexed => exact .indexed rfl
  · cases hu

theorem Sql.int32_typed : Sql.int32.Typed where
  compare {op v w u} hop hu := by
    unfold int32 at hu
    dsimp only at hu
    split at hu
    · cases hop
    · cases hop
    · exact ⟨_, (Option.some.inj hu).symm⟩
    · exact ⟨_, (Option.some.inj hu).symm⟩
    · cases hu
  binary {op v w u t} hop hv hu := by
    unfold int32 at hu
    dsimp only at hu
    split at hu
    · exact hv.int32 hu
    · exact hv.int32 hu
    · cases hop
    · cases hop
    · cases hu
  neg {v u t} hv hu := by
    unfold int32 at hu
    dsimp only at hu
    split at hu
    · exact hv.int32 hu
    · cases hu
  convert {v u t} hu := by
    unfold int32 at hu
    dsimp only at hu
    split at hu
    · obtain rfl := Option.some.inj hu
      exact ⟨‹_›, id⟩
    · cases hu
  same {v u t} hv hu := by
    unfold int32 at hu
    dsimp only at hu
    rw [if_pos hv] at hu
    exact (Option.some.inj hu).symm

end Runtime

end ViewCircuit
