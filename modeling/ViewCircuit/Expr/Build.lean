import ViewCircuit.Expr

/-! Checked construction of expressions: each function computes the type of the node it makes. -/
namespace ViewCircuit

/-- Fails with a construction fault. -/
def fault {α : Type} (f : Fault) : Except CompileError α := .error (.construction f)

def Param.var (p : Param) : Expr := ⟨.var p.name, p.ty⟩

namespace Expr

def literal (value : Literal) (ty : Ty) : Expr := ⟨.literal value, ty⟩
def bool (b : Bool) : Expr := literal (.bool b) Ty.bool
def int32 (i : Int) : Expr := literal (.int i) Ty.int32
def int64 (i : Int) : Expr := literal (.int i) Ty.int64
def usize (n : Nat) : Expr := literal (.usize n) Ty.usize
def double (x : Double) : Expr := literal (.float x) Ty.double
def string (s : String) : Expr := literal (.string s) Ty.string
/-- The empty option over a type. -/
def noneOf (ty : Ty) : Expr := literal .null ty.nullable
/-- The untyped NULL. -/
def null : Expr := literal .null Ty.null

def int (value : Int) (ty : Ty) : Except CompileError Expr :=
  if ty.isInteger then .ok (literal (.int value) ty) else fault (.integerLiteral value ty)

def zset (element : Ty) (rows : List (Expr × Int)) : Except CompileError Expr :=
  match rows.find? fun r => !r.1.ty.same element with
  | some (row, _) => fault (.mismatch "zset literal row" element row.ty)
  | none => .ok (literal (.zset rows) (Ty.zset element))

def vec (element : Ty) (items : List Expr) : Except CompileError Expr :=
  match items.find? fun e => !e.ty.same element with
  | some item => fault (.mismatch "vec literal item" element item.ty)
  | none => .ok (literal (.vec items) (Ty.vec element))

def var (name : String) (ty : Ty) : Expr := ⟨.var name, ty⟩

/-- A position of a tuple or struct, looking through one reference. -/
def field (base : Expr) (index : Nat) : Except CompileError Expr :=
  let target := base.ty.deref?.getD base.ty
  if target.mayBeNull then fault (.fieldOfNullable index target)
  else
    match target.field? index with
    | some ty => .ok ⟨.field base index, ty⟩
    | none => fault (.noField target index)

def borrow (operand : Expr) : Expr := ⟨.borrow operand, Ty.ref operand.ty⟩

def deref (operand : Expr) : Except CompileError Expr :=
  match operand.ty.kind with
  | .ref inner => .ok ⟨.deref operand, inner⟩
  | .any => .ok ⟨.deref operand, Ty.any⟩
  | _ => fault (.derefOf operand.ty)

def unary (op : UnaryOp) (operand : Expr) : Except CompileError Expr :=
  let fits := match op with
    | .not => operand.ty.isBool
    | .neg => operand.ty.isNumeric
  if fits then .ok ⟨.unary op operand, operand.ty⟩ else fault (.unaryOperand op.symbol operand.ty)

def binary (op : BinaryOp) (left right : Expr) : Except CompileError Expr := do
  let p ← Primitive.binary op left.ty right.ty
  return ⟨.binary op left right, p.result⟩

def call (function : String) (args : List Expr) (result : Ty) : Expr :=
  ⟨.call function args, result⟩

/-- Arguments have exactly the types of the parameters; a wildcard takes any. -/
def apply (function : Expr) (args : List Expr) : Except CompileError Expr :=
  match function.ty.functionParts? with
  | none => fault (.applyOf function.ty)
  | some (params, result) =>
    if params.length ≠ args.length then fault (.arity params.length args.length)
    else
      match (params.zip args).find? fun (p, a) => !p.isAny && !p.same a.ty with
      | some (p, a) => fault (.mismatch "closure argument" p a.ty)
      | none => .ok ⟨.apply function args, result⟩

def closure (params : List Param) (body : Expr) : Expr :=
  ⟨.closure params body, Ty.function (params.map Param.ty) body.ty⟩

def tuple (fields : List Expr) : Expr := ⟨.tuple fields, Ty.tuple (fields.map Expr.ty)⟩
def rawTuple (fields : List Expr) : Expr := ⟨.rawTuple fields, Ty.rawTuple (fields.map Expr.ty)⟩

def struct (ty : Ty) (fields : List Expr) : Except CompileError Expr :=
  match ty.kind with
  | .struct name declared =>
    if declared.length ≠ fields.length then
      fault (.structFields name declared.length fields.length)
    else
      match (declared.zip fields).find? fun (d, e) => !d.2.same e.ty with
      | some ((field, t), e) => fault (.mismatch ("field " ++ name ++ "." ++ field) t e.ty)
      | none => .ok ⟨.struct name fields, ty⟩
  | _ => fault (.structType ty)

def someOf (operand : Expr) : Except CompileError Expr :=
  if operand.ty.mayBeNull then fault (.someOf operand.ty)
  else .ok ⟨.some operand, operand.ty.nullable⟩

end Expr

/-- The result a block ends in. -/
def Block.result? : Block → Option Expr
  | .done result => result
  | .bind _ _ _ _ rest => rest.result?
  | .exec _ rest => rest.result?

namespace Expr

/-- A block has the type of its result, or the unit type. -/
def block (body : Block) : Expr := ⟨.block body, (body.result?.map Expr.ty).getD Ty.unit⟩

def ite (condition yes no : Expr) : Except CompileError Expr :=
  if !condition.ty.same Ty.bool then fault (.mismatch "if condition" Ty.bool condition.ty)
  else if !yes.ty.sameShape no.ty then fault (.mismatch "else branch" yes.ty no.ty)
  else .ok ⟨.ite condition yes no, yes.ty.withNull (yes.ty.mayBeNull || no.ty.mayBeNull)⟩

/-- All arms have one shape, and the match is nullable if an arm is. -/
def armsType (first : Ty) : List (Pattern × Expr) → Except CompileError Ty
  | [] => .ok first
  | (_, body) :: arms =>
    if body.ty.sameShape first then
      armsType (first.withNull (first.mayBeNull || body.ty.mayBeNull)) arms
    else fault (.mismatch "match arm" first body.ty)

def cases (scrutinee : Expr) (arms : List (Pattern × Expr)) : Except CompileError Expr :=
  match arms with
  | [] => fault .noArms
  | (_, body) :: rest => do return ⟨.cases scrutinee arms, ← armsType body.ty rest⟩

def cast (operand : Expr) (ty : Ty) : Expr := ⟨.cast operand, ty⟩
def isNull (operand : Expr) : Expr := ⟨.isNull operand, Ty.bool⟩

def range (start stop : Option Expr) (inclusive : Bool) : Except CompileError Expr :=
  let make (element : Ty) : Expr := ⟨.range start stop inclusive, Ty.user "Range" [element]⟩
  match start, stop with
  | some s, some e =>
    if s.ty.same e.ty then .ok (make s.ty) else fault (.mismatch "range end" s.ty e.ty)
  | some s, none => .ok (make s.ty)
  | none, some e => .ok (make e.ty)
  | none, none => .ok (make Ty.any)

/-- A fold over rows: the step maps accumulator, row and weight to the accumulator, the last step
the accumulator to the result. -/
def fold (row : Ty) (zero increment post : Expr) : Except CompileError Expr :=
  let acc := zero.ty
  let expected := Ty.function [acc, Ty.ref row, Ty.int64] acc
  if !increment.ty.same expected then fault (.mismatch "fold increment" expected increment.ty)
  else
    match post.ty.functionParts? with
    | some ([p], result) =>
      if p.same acc then .ok ⟨.fold zero increment post, Ty.user "Fold" [row, acc, result]⟩
      else fault (.mismatch "fold post-processing" (Ty.function [acc] Ty.any) post.ty)
    | _ => fault (.mismatch "fold post-processing" (Ty.function [acc] Ty.any) post.ty)

end Expr
end ViewCircuit
