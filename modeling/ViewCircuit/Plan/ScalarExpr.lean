import ViewCircuit.Expr.Build
import ViewCircuit.Plan.Dump

/-! Plan scalars as expressions over one row. Operators on operands that are not null stay as they
are; the others become calls of runtime functions. -/
namespace ViewCircuit

open ViewCircuit.Expr (noneOf someOf)

def fitsWidth (width : IntWidth) (i : Int) : Bool :=
  match width with
  | .w16 => -32768 ≤ i && i < 32768
  | .w32 => -2147483648 ≤ i && i < 2147483648
  | .w64 => true

/-- The literal of a value that is not NULL under a type of the kind. -/
def Value.literal (value : Value) (ty : Ty) : Except CompileError Literal :=
  match value, ty.kind with
  | .bool b, .bool => .ok (.bool b)
  | .int i, .integer width =>
    if fitsWidth width i then .ok (.int i) else fault (.literalRange i ty)
  | .int i, .usize => if 0 ≤ i then .ok (.usize i.toNat) else fault (.negativeLiteral i ty)
  | .int i, .decimal .. => .ok (.decimal (toString i))
  | .int i, .float | .int i, .double => .ok (.float (Double.ofInt i))
  | .float x, .float | .float x, .double => .ok (.float x)
  | .decimal d, .decimal .. => .ok (.decimal d)
  | .string s, .string => .ok (.string s)
  | .date d, .date => .ok (.date d)
  | .timestamp t, .timestamp => .ok (.timestamp t)
  | _, _ => fault (.literalType value.dump ty)

/-- A value of a type. NULL makes the type nullable, and any other value of a nullable type is
wrapped. -/
def Value.toExpr (value : Value) (ty : Ty) : Except CompileError Expr :=
  match value with
  | .null => .ok (Expr.literal .null (if ty.isNullType then ty else ty.nullable))
  | value => do
    let e := Expr.literal (← value.literal ty) ty.nonNull
    if ty.mayBeNull then someOf e else return e

def callUnary (op : UnaryPrimitive) (operand : Expr) : Except CompileError Expr := do
  let p ← Primitive.unary op operand.ty
  return Expr.call p.name [operand] p.result

/-- A unary operator. An untyped NULL stands for an unknown boolean, except under negation, which
keeps it, and under null checks. -/
def SqlUnary.apply (op : SqlUnary) (operand : Expr) : Except CompileError Expr :=
  let untyped := operand.ty.isNullType
  let truth := if untyped then Expr.cast operand Ty.bool.nullable else operand
  match op with
  | .isNull => .ok (Expr.isNull operand)
  | .isNotNull => Expr.unary .not (Expr.isNull operand)
  | .neg =>
    if untyped then .ok operand
    else if operand.ty.mayBeNull then callUnary .neg operand
    else Expr.unary .neg operand
  | .not => if truth.ty.mayBeNull then callUnary .not truth else Expr.unary .not truth
  | .isTrue => if truth.ty.mayBeNull then callUnary .isTrue truth else .ok truth
  | .isNotFalse => if truth.ty.mayBeNull then callUnary .isNotFalse truth else .ok truth
  | .isFalse => if truth.ty.mayBeNull then callUnary .isFalse truth else Expr.unary .not truth
  | .isNotTrue => if truth.ty.mayBeNull then callUnary .isNotTrue truth else Expr.unary .not truth

/-- A binary operator on operands of which none is an untyped NULL. -/
def BinaryOp.combine (op : BinaryOp) (left right : Expr) : Except CompileError Expr := do
  if op.isNative && !left.ty.mayBeNull && !right.ty.mayBeNull then Expr.binary op left right
  else
    let p ← Primitive.binary op left.ty right.ty
    return Expr.call p.name [left, right] p.result

/-- A binary operator. An untyped NULL takes the type of the other operand; two of them make one. -/
def BinaryOp.apply (op : BinaryOp) (left right : Expr) : Except CompileError Expr :=
  match left.ty.isNullType, right.ty.isNullType with
  | true, true => .ok Expr.null
  | true, false => op.combine (Expr.cast left right.ty.nullable) right
  | false, true => op.combine left (Expr.cast right left.ty.nullable)
  | false, false => op.combine left right

/-- A condition keeps a row only when it is true, so NULL counts as false. -/
def Expr.toCondition (e : Expr) : Except CompileError Expr :=
  if e.ty.isNullType then .ok (Expr.bool false)
  else if !e.ty.isBool then fault (.conditionType e.ty)
  else if e.ty.mayBeNull then callUnary .isTrue e
  else .ok e

/-- Shape shared by the values that are not untyped NULLs, and whether any value may be NULL. -/
def commonShape : List Expr → Option Ty → Bool → Except CompileError (Option Ty × Bool)
  | [], shape, nullable => .ok (shape, nullable)
  | e :: es, shape, nullable =>
    if e.ty.isNullType then commonShape es shape true
    else
      match shape with
      | none => commonShape es (some e.ty.nonNull) (nullable || e.ty.mayBeNull)
      | some s =>
        if s.sameShape e.ty then commonShape es shape (nullable || e.ty.mayBeNull)
        else fault (.caseTypes s e.ty)

/-- A branch value brought to the type of the whole case. -/
def coerce (ty : Ty) (e : Expr) : Except CompileError Expr :=
  if e.ty.isNullType then .ok (Expr.cast e ty)
  else if ty.mayBeNull && !e.ty.mayBeNull then someOf e
  else .ok e

/-- Nested conditionals from the last branch to the first. -/
def caseChain (ty : Ty) : List (Expr × Expr) → Expr → Except CompileError Expr
  | [], otherwise => coerce ty otherwise
  | (condition, value) :: rest, otherwise => do
    let no ← caseChain ty rest otherwise
    Expr.ite condition (← coerce ty value) no

def caseExpr (branches : List (Expr × Expr)) (otherwise : Expr) : Except CompileError Expr := do
  match ← commonShape (branches.map Prod.snd ++ [otherwise]) none false with
  | (none, _) => return Expr.null
  | (some shape, nullable) => caseChain (shape.withNull nullable) branches otherwise

namespace Scalar

mutual
/-- The scalar as an expression over `row`. -/
def toExpr (row : Expr) : Scalar → Except CompileError Expr
  | .column index => Expr.field row index
  | .literal value ty => value.toExpr ty
  | .unary op operand => do op.apply (← operand.toExpr row)
  | .binary op left right => do
    let l ← left.toExpr row
    op.apply l (← right.toExpr row)
  | .cast operand ty => do
    let e ← operand.toExpr row
    return if e.ty.same ty then e else Expr.cast e ty
  | .case branches otherwise => do
    let bs ← branchesToExpr row branches
    caseExpr bs (← otherwise.toExpr row)
def branchesToExpr (row : Expr) : List (Scalar × Scalar) → Except CompileError (List (Expr × Expr))
  | [] => .ok []
  | (w, t) :: rest => do
    let condition ← (← w.toExpr row).toCondition
    let value ← t.toExpr row
    return (condition, value) :: (← branchesToExpr row rest)
end

/-- The scalar as a condition over `row`. -/
def toCondition (row : Expr) (s : Scalar) : Except CompileError Expr := do
  (← s.toExpr row).toCondition

end Scalar
end ViewCircuit
