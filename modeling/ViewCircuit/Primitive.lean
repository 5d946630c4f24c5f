import ViewCircuit.Error

/-! Operators of the language and the runtime functions that implement them for given types. -/
namespace ViewCircuit

inductive UnaryOp where
  | not | neg
  deriving DecidableEq, Repr

def UnaryOp.symbol : UnaryOp → String
  | .not => "!"
  | .neg => "-"

inductive BinaryOp where
  | add | sub | mul | div | mod
  | eq | neq | lt | gt | lte | gte
  | and | or
  | bitAnd | bitOr | bitXor | shl | shr
  | min | max
  | isDistinct
  deriving DecidableEq, Repr

namespace BinaryOp

/-- The sign written between operands, or the name of an operator without one. -/
def symbol : BinaryOp → String
  | .add => "+"
  | .sub => "-"
  | .mul => "*"
  | .div => "/"
  | .mod => "%"
  | .eq => "=="
  | .neq => "!="
  | .lt => "<"
  | .gt => ">"
  | .lte => "<="
  | .gte => ">="
  | .and => "&&"
  | .or => "||"
  | .bitAnd => "&"
  | .bitOr => "|"
  | .bitXor => "^"
  | .shl => "<<"
  | .shr => ">>"
  | .min => "min"
  | .max => "max"
  | .isDistinct => "is_distinct"

/-- The word for the operator in names of runtime functions. -/
def key : BinaryOp → String
  | .add => "plus"
  | .sub => "minus"
  | .mul => "times"
  | .div => "div"
  | .mod => "mod"
  | .eq => "eq"
  | .neq => "neq"
  | .lt => "lt"
  | .gt => "gt"
  | .lte => "lte"
  | .gte => "gte"
  | .and => "and"
  | .or => "or"
  | .bitAnd => "band"
  | .bitOr => "bor"
  | .bitXor => "bxor"
  | .shl => "shiftl"
  | .shr => "shiftr"
  | .min => "min"
  | .max => "max"
  | .isDistinct => "is_distinct"

/-- Whether operands that are not null can be combined directly. Division can not: by zero it
yields NULL. -/
def isNative : BinaryOp → Bool
  | .div | .min | .max | .isDistinct => false
  | _ => true

def isComparison : BinaryOp → Bool
  | .eq | .neq | .lt | .gt | .lte | .gte | .isDistinct => true
  | _ => false

def isShift : BinaryOp → Bool
  | .shl | .shr => true
  | _ => false

def isLogical : BinaryOp → Bool
  | .and | .or => true
  | _ => false

def isBitwise : BinaryOp → Bool
  | .bitAnd | .bitOr | .bitXor => true
  | _ => false

def isExtremum : BinaryOp → Bool
  | .min | .max => true
  | _ => false

end BinaryOp

/-- Unary operators with a runtime function. -/
inductive UnaryPrimitive where
  | not | neg | abs | isTrue | isFalse | isNotTrue | isNotFalse
  deriving DecidableEq, Repr

namespace UnaryPrimitive

def key : UnaryPrimitive → String
  | .not => "not"
  | .neg => "neg"
  | .abs => "abs"
  | .isTrue => "is_true"
  | .isFalse => "is_false"
  | .isNotTrue => "is_not_true"
  | .isNotFalse => "is_not_false"

def isPredicate : UnaryPrimitive → Bool
  | .isTrue | .isFalse | .isNotTrue | .isNotFalse => true
  | _ => false

end UnaryPrimitive

/-- Operand types that share one table of operators. -/
inductive Family where
  | boolean | arithmetic | floating | string | temporal
  deriving DecidableEq, Repr

namespace Family

def ofTy? (t : Ty) : Option Family :=
  match t.kind with
  | .bool => some .boolean
  | .integer _ | .decimal .. | .usize => some .arithmetic
  | .float | .double => some .floating
  | .string => some .string
  | .date | .timestamp => some .temporal
  | _ => none

def supports (family : Family) (op : BinaryOp) : Bool :=
  match family with
  | .boolean => op == .eq || op == .neq || op.isLogical || op.isExtremum || op == .isDistinct
  | .arithmetic => !op.isLogical
  | .floating => !(op.isLogical || op == .mod || op.isShift || op.isBitwise)
  | .string => op == .eq || op == .neq || op == .isDistinct
  | .temporal => op.isComparison || op.isExtremum

def isNumeric : Family → Bool
  | .arithmetic | .floating => true
  | _ => false

end Family

/-- A runtime function: its name and the type of what it returns. -/
structure Primitive where
  name : String
  result : Ty
  deriving DecidableEq

namespace Primitive

def nullMark (t : Ty) : String := if t.mayBeNull then "N" else ""

/-- Short name and null mark of an operand. -/
def operandName (t : Ty) : String := t.shortName?.getD "" ++ nullMark t

def binaryResult (op : BinaryOp) (left right : Ty) : Ty :=
  let anyNull := left.mayBeNull || right.mayBeNull
  if op == .isDistinct then Ty.bool
  else if op.isComparison then Ty.bool.withNull anyNull
  else if op == .div then left.nullable
  else left.withNull anyNull

def binaryName (op : BinaryOp) (left right : Ty) : String :=
  if op == .isDistinct then "is_distinct_" ++ nullMark left ++ "_" ++ nullMark right
  else op.key ++ "_" ++ operandName left ++ "_" ++ operandName right

/-- A shift takes any integer on the right, every other operator two operands of one shape. -/
def compatible (op : BinaryOp) (left right : Ty) : Bool :=
  if op.isShift then right.isInteger else left.sameShape right

/-- The function for a binary operator. The left operand chooses the table. -/
def binary (op : BinaryOp) (left right : Ty) : Except CompileError Primitive :=
  match Family.ofTy? left with
  | none => .error (.noPrimitive op.symbol left)
  | some family =>
    if !family.supports op then .error (.noPrimitive op.symbol left)
    else if !compatible op left right then
      .error (.construction (.operandTypes op.symbol left right))
    else .ok ⟨binaryName op left right, binaryResult op left right⟩

def unarySupports (op : UnaryPrimitive) (family : Family) : Bool :=
  match op with
  | .neg | .abs => family.isNumeric
  | _ => family == .boolean

def unary (op : UnaryPrimitive) (operand : Ty) : Except CompileError Primitive :=
  match Family.ofTy? operand with
  | none => .error (.noPrimitive op.key operand)
  | some family =>
    if !unarySupports op family then .error (.noPrimitive op.key operand)
    else
      .ok ⟨op.key ++ "_" ++ operandName operand ++ "_", if op.isPredicate then Ty.bool else operand⟩

/-- One accumulation step. The runtime's step functions are generic, so their names show
nullability only. -/
def aggregate (op : BinaryOp) (accumulator value : Ty) : Except CompileError Primitive :=
  match Family.ofTy? accumulator with
  | none => .error (.noPrimitive op.symbol accumulator)
  | some family =>
    if !(op.isExtremum || (op == .add && family.isNumeric)) then
      .error (.noPrimitive op.symbol accumulator)
    else if !accumulator.sameShape value then
      .error (.construction (.aggregateOperand op.key value accumulator))
    else
      .ok ⟨"agg_" ++ op.key ++ "_" ++ nullMark accumulator ++ "_" ++ nullMark value,
        accumulator.withNull (accumulator.mayBeNull || value.mayBeNull)⟩

/-- Operators in the order in which the runtime's functions are listed. -/
def listedOps : List BinaryOp :=
  [.eq, .neq, .lt, .gt, .lte, .gte, .add, .sub, .mod, .mul, .div, .shr, .shl, .bitAnd, .bitOr,
   .bitXor, .min, .max, .and, .or, .isDistinct]

def listedTypes : List Ty :=
  [Ty.bool, Ty.int16, Ty.int32, Ty.int64, Ty.float, Ty.double, Ty.string, Ty.date, Ty.timestamp]

/-- Every binary function of the runtime, each operand in both nullabilities. -/
def specializations : List Primitive :=
  listedTypes.flatMap fun t =>
    listedOps.flatMap fun op =>
      let right := if op.isShift then Ty.int32 else t
      [(false, false), (false, true), (true, false), (true, true)].filterMap fun (l, r) =>
        (binary op (t.withNull l) (right.withNull r)).toOption

end Primitive
end ViewCircuit
