import ViewCircuit.Plan
import ViewCircuit.Double.Shortest
import ViewCircuit.Ty.Dump

/-! The structural text of plan nodes, as it appears in error messages. -/
namespace ViewCircuit

open Text (applied listed record flag quoted naturals)

def Value.dump : Value → String
  | .null => "Null"
  | .bool b => applied "Bool" (flag b)
  | .int i => applied "Int" (toString i)
  | .float x => applied "Float" x.text
  | .decimal s => applied "Decimal" (quoted s)
  | .string s => applied "String" (quoted s)
  | .date d => applied "Date" (toString d)
  | .timestamp t => applied "Timestamp" (toString t)

def SqlUnary.dump : SqlUnary → String
  | .not => "Not"
  | .neg => "Neg"
  | .isNull => "IsNull"
  | .isNotNull => "IsNotNull"
  | .isTrue => "IsTrue"
  | .isFalse => "IsFalse"
  | .isNotTrue => "IsNotTrue"
  | .isNotFalse => "IsNotFalse"

def BinaryOp.dump : BinaryOp → String
  | .add => "Add"
  | .sub => "Sub"
  | .mul => "Mul"
  | .div => "Div"
  | .mod => "Mod"
  | .eq => "Eq"
  | .neq => "Neq"
  | .lt => "Lt"
  | .gt => "Gt"
  | .lte => "Lte"
  | .gte => "Gte"
  | .and => "And"
  | .or => "Or"
  | .bitAnd => "BitAnd"
  | .bitOr => "BitOr"
  | .bitXor => "BitXor"
  | .shl => "Shl"
  | .shr => "Shr"
  | .min => "Min"
  | .max => "Max"
  | .isDistinct => "IsDistinct"

mutual
def Scalar.dump : Scalar → String
  | .column index => record "Column" [("index", toString index)]
  | .literal value ty => record "Literal" [("value", value.dump), ("ty", ty.dump)]
  | .unary op operand => record "Unary" [("op", op.dump), ("operand", operand.dump)]
  | .binary op left right =>
    record "Binary" [("op", op.dump), ("left", left.dump), ("right", right.dump)]
  | .cast operand ty => record "Cast" [("operand", operand.dump), ("ty", ty.dump)]
  | .case branches otherwise =>
    record "Case"
      [("branches", listed (Scalar.branchDumps branches)), ("otherwise", otherwise.dump)]
def Scalar.branchDumps : List (Scalar × Scalar) → List String
  | [] => []
  | (w, t) :: rest =>
    record "CaseBranch" [("when", w.dump), ("then", t.dump)] :: Scalar.branchDumps rest
end

def JoinKind.dump : JoinKind → String
  | .inner => "Inner"
  | .left => "Left"
  | .right => "Right"
  | .full => "Full"

def AggregateFunction.dump : AggregateFunction → String
  | .count => "Count"
  | .sum => "Sum"
  | .min => "Min"
  | .max => "Max"
  | .avg => "Avg"

def AggregateCall.dump (c : AggregateCall) : String :=
  let argument := match c.argument with
    | none => "None"
    | some n => applied "Some" (toString n)
  record "AggregateCall"
    [("function", c.function.dump), ("argument", argument), ("distinct", flag c.distinct)]

def WindowBound.dump : WindowBound → String
  | .unbounded => "Unbounded"
  | .currentRow => "CurrentRow"
  | .preceding n => applied "Preceding" (toString n)
  | .following n => applied "Following" (toString n)

mutual
def Rel.dump : Rel → String
  | .scan table => record "Scan" [("table", quoted table)]
  | .project input exprs =>
    record "Project" [("input", input.dump), ("exprs", listed (exprs.map Scalar.dump))]
  | .filter input condition =>
    record "Filter" [("input", input.dump), ("condition", condition.dump)]
  | .join left right kind condition =>
    record "Join" [("left", left.dump), ("right", right.dump), ("kind", kind.dump),
      ("condition", condition.dump)]
  | .aggregate input group calls =>
    record "Aggregate" [("input", input.dump), ("group", naturals group),
      ("calls", listed (calls.map AggregateCall.dump))]
  | .union inputs all => record "Union" [("inputs", listed (Rel.dumps inputs)), ("all", flag all)]
  | .minus inputs all => record "Minus" [("inputs", listed (Rel.dumps inputs)), ("all", flag all)]
  | .intersect inputs all =>
    record "Intersect" [("inputs", listed (Rel.dumps inputs)), ("all", flag all)]
  | .distinct input => record "Distinct" [("input", input.dump)]
  | .values columns rows =>
    record "Values" [("columns", listed (columns.map Ty.dump)),
      ("rows", listed (rows.map fun row => listed (row.map Value.dump)))]
  | .window input partition order lower upper calls =>
    record "Window" [("input", input.dump), ("partition", naturals partition),
      ("order", naturals order), ("lower", lower.dump), ("upper", upper.dump),
      ("calls", listed (calls.map AggregateCall.dump))]
def Rel.dumps : List Rel → List String
  | [] => []
  | r :: rs => r.dump :: Rel.dumps rs
end

end ViewCircuit
