import ViewCircuit.Plan
import ViewCircuit.Double.Shortest
import ViewCircuit.Ty.Codec

/-! Plans as JSON. Relations are tagged by `op` and scalars by `expr`; absent optional fields take
their defaults, and writing fills them all in. -/
namespace ViewCircuit

/-- A double as a number with its shortest digits. -/
def Double.toJson (x : Double) : Json :=
  let d := if x.isZero || !x.isFinite then ⟨0, 0⟩ else x.shortest
  .num (.dec x.negative d.digits d.scale)

namespace Value

def toJson : Value → Json
  | .null => .str "null"
  | .bool b => .obj [("bool", .bool b)]
  | .int i => .obj [("int", .ofInt i)]
  | .float x => .obj [("float", x.toJson)]
  | .decimal s => .obj [("decimal", .str s)]
  | .string s => .obj [("string", .str s)]
  | .date d => .obj [("date", .ofInt d)]
  | .timestamp t => .obj [("timestamp", .ofInt t)]

def ofJson? (style : Json.Style) : Json → Option Value
  | .str "null" => some .null
  | .obj [("null", content)] => if style.isContent content then some .null else none
  | .obj [("bool", j)] => j.bool?.map .bool
  | .obj [("int", j)] => j.int64?.map .int
  | .obj [("float", j)] => j.double?.map .float
  | .obj [("decimal", j)] => j.str?.map .decimal
  | .obj [("string", j)] => j.str?.map .string
  | .obj [("date", j)] => j.int32?.map .date
  | .obj [("timestamp", j)] => j.int64?.map .timestamp
  | _ => none

end Value

/-- The name of a constant in a table of names. -/
def nameIn {α : Type} [DecidableEq α] (table : List (String × α)) (a : α) : String :=
  ((table.find? fun e => e.2 = a).map Prod.fst).getD ""

def SqlUnary.names : List (String × SqlUnary) :=
  [("not", .not), ("neg", .neg), ("is_null", .isNull), ("is_not_null", .isNotNull),
   ("is_true", .isTrue), ("is_false", .isFalse), ("is_not_true", .isNotTrue),
   ("is_not_false", .isNotFalse)]

def BinaryOp.names : List (String × BinaryOp) :=
  [("add", .add), ("sub", .sub), ("mul", .mul), ("div", .div), ("mod", .mod), ("eq", .eq),
   ("neq", .neq), ("lt", .lt), ("gt", .gt), ("lte", .lte), ("gte", .gte), ("and", .and),
   ("or", .or), ("bit_and", .bitAnd), ("bit_or", .bitOr), ("bit_xor", .bitXor), ("shl", .shl),
   ("shr", .shr), ("min", .min), ("max", .max), ("is_distinct", .isDistinct)]

def JoinKind.names : List (String × JoinKind) :=
  [("inner", .inner), ("left", .left), ("right", .right), ("full", .full)]

def AggregateFunction.names : List (String × AggregateFunction) :=
  [("count", .count), ("sum", .sum), ("min", .min), ("max", .max), ("avg", .avg)]

namespace Scalar

mutual
def toJson : Scalar → Json
  | .column index => .obj [("expr", .str "column"), ("index", .ofNat index)]
  | .literal value ty =>
    .obj [("expr", .str "literal"), ("value", value.toJson), ("ty", ty.toJson)]
  | .unary op operand =>
    .obj [("expr", .str "unary"), ("op", .str (nameIn SqlUnary.names op)),
      ("operand", operand.toJson)]
  | .binary op left right =>
    .obj [("expr", .str "binary"), ("op", .str (nameIn BinaryOp.names op)), ("left", left.toJson),
      ("right", right.toJson)]
  | .cast operand ty => .obj [("expr", .str "cast"), ("operand", operand.toJson), ("ty", ty.toJson)]
  | .case branches otherwise =>
    .obj [("expr", .str "case"), ("branches", .arr (branchesToJson branches)),
      ("otherwise", otherwise.toJson)]
def branchesToJson : List (Scalar × Scalar) → List Json
  | [] => []
  | (w, t) :: rest => .obj [("when", w.toJson), ("then", t.toJson)] :: branchesToJson rest
end

def tags : List String := ["column", "literal", "unary", "binary", "cast", "case"]

mutual
/-- Only the tag hangs on the style; the rest of a tagged record is held back. -/
def ofJson? (style : Json.Style) (j : Json) : Option Scalar := do
  match ← j.tag? style "expr" tags with
  | "column" => return .column (← j.field? ["expr", "index"] "index" Json.nat64?)
  | "literal" =>
    let names := ["expr", "value", "ty"]
    return .literal (← j.field? names "value" (Value.ofJson? .held))
      (← j.field? names "ty" (Ty.ofJson? .held))
  | "unary" =>
    let names := ["expr", "op", "operand"]
    let op ← j.field? names "op" (Json.constant? .held SqlUnary.names)
    let ⟨operand, _⟩ ← j.child? names "operand"
    return .unary op (← ofJson? .held operand)
  | "binary" =>
    let names := ["expr", "op", "left", "right"]
    let op ← j.field? names "op" (Json.constant? .held BinaryOp.names)
    let ⟨left, _⟩ ← j.child? names "left"
    let ⟨right, _⟩ ← j.child? names "right"
    return .binary op (← ofJson? .held left) (← ofJson? .held right)
  | "cast" =>
    let names := ["expr", "operand", "ty"]
    let ⟨operand, _⟩ ← j.child? names "operand"
    return .cast (← ofJson? .held operand) (← j.field? names "ty" (Ty.ofJson? .held))
  | "case" =>
    let names := ["expr", "branches", "otherwise"]
    let ⟨branches, _⟩ ← j.child? names "branches"
    let ⟨otherwise, _⟩ ← j.child? names "otherwise"
    return .case (← branchesOfJson? branches) (← ofJson? .held otherwise)
  | _ => none
termination_by sizeOf j
decreasing_by all_goals assumption
def branchesOfJson? (j : Json) : Option (List (Scalar × Scalar)) :=
  match j with
  | .arr items => branchItemsOfJson? items
  | _ => none
termination_by sizeOf j
decreasing_by
  simp only [Json.arr.sizeOf_spec]
  omega
def branchItemsOfJson? (items : List Json) : Option (List (Scalar × Scalar)) :=
  match items with
  | [] => some []
  | j :: rest => do
    let ⟨w, _⟩ ← j.child? ["when", "then"] "when"
    let ⟨t, _⟩ ← j.child? ["when", "then"] "then"
    return (← ofJson? .held w, ← ofJson? .held t) :: (← branchItemsOfJson? rest)
termination_by sizeOf items
decreasing_by
  all_goals simp only [List.cons.sizeOf_spec]
  all_goals omega
end

end Scalar

namespace AggregateCall

def fields : List String := ["function", "argument", "distinct"]

def toJson (c : AggregateCall) : Json :=
  .obj [("function", .str (nameIn AggregateFunction.names c.function)),
    ("argument", Json.ofOption .ofNat c.argument), ("distinct", .bool c.distinct)]

def argument? : Json → Option (Option Nat)
  | .null => some none
  | j => j.nat64?.map some

def ofJson? (style : Json.Style) (j : Json) : Option AggregateCall := do
  return {
    function := ← j.field? fields "function" (Json.constant? style AggregateFunction.names)
    argument := ← j.fieldD? fields "argument" none argument?
    distinct := ← j.fieldD? fields "distinct" false Json.bool? }

end AggregateCall

namespace WindowBound

def toJson : WindowBound → Json
  | .unbounded => .str "unbounded"
  | .currentRow => .str "current_row"
  | .preceding n => .obj [("preceding", .ofNat n)]
  | .following n => .obj [("following", .ofNat n)]

def constants : List (String × WindowBound) :=
  [("unbounded", .unbounded), ("current_row", .currentRow)]

def ofJson? (style : Json.Style) : Json → Option WindowBound
  | .obj [("preceding", j)] => j.nat64?.map .preceding
  | .obj [("following", j)] => j.nat64?.map .following
  | j => j.constant? style constants

end WindowBound

namespace Rel

def indicesToJson (ns : List Nat) : Json := .arr (ns.map .ofNat)

mutual
def toJson : Rel → Json
  | .scan table => .obj [("op", .str "scan"), ("table", .str table)]
  | .project input exprs =>
    .obj [("op", .str "project"), ("input", input.toJson),
      ("exprs", .arr (exprs.map Scalar.toJson))]
  | .filter input condition =>
    .obj [("op", .str "filter"), ("input", input.toJson), ("condition", condition.toJson)]
  | .join left right kind condition =>
    .obj [("op", .str "join"), ("left", left.toJson), ("right", right.toJson),
      ("kind", .str (nameIn JoinKind.names kind)), ("condition", condition.toJson)]
  | .aggregate input group calls =>
    .obj [("op", .str "aggregate"), ("input", input.toJson), ("group", indicesToJson group),
      ("calls", .arr (calls.map AggregateCall.toJson))]
  | .union inputs all =>
    .obj [("op", .str "union"), ("inputs", .arr (toJsons inputs)), ("all", .bool all)]
  | .minus inputs all =>
    .obj [("op", .str "minus"), ("inputs", .arr (toJsons inputs)), ("all", .bool all)]
  | .intersect inputs all =>
    .obj [("op", .str "intersect"), ("inputs", .arr (toJsons inputs)), ("all", .bool all)]
  | .distinct input => .obj [("op", .str "distinct"), ("input", input.toJson)]
  | .values columns rows =>
    .obj [("op", .str "values"), ("columns", .arr (columns.map Ty.toJson)),
      ("rows", .arr (rows.map fun row => .arr (row.map Value.toJson)))]
  | .window input partition order lower upper calls =>
    .obj [("op", .str "window"), ("input", input.toJson), ("partition", indicesToJson partition),
      ("order", indicesToJson order), ("lower", lower.toJson), ("upper", upper.toJson),
      ("calls", .arr (calls.map AggregateCall.toJson))]
def toJsons : List Rel → List Json
  | [] => []
  | r :: rs => r.toJson :: toJsons rs
end

def tags : List String :=
  ["scan", "project", "filter", "join", "aggregate", "union", "minus", "intersect", "distinct",
   "values", "window"]

mutual
/-- Only the tag hangs on the style; the rest of a tagged record is held back. -/
def ofJson? (style : Json.Style) (j : Json) : Option Rel := do
  match ← j.tag? style "op" tags with
  | "scan" => return .scan (← j.field? ["op", "table"] "table" Json.str?)
  | "project" =>
    let names := ["op", "input", "exprs"]
    let ⟨input, _⟩ ← j.child? names "input"
    return .project (← ofJson? .held input)
      (← j.field? names "exprs" (Json.list? (Scalar.ofJson? .held)))
  | "filter" =>
    let names := ["op", "input", "condition"]
    let ⟨input, _⟩ ← j.child? names "input"
    return .filter (← ofJson? .held input) (← j.field? names "condition" (Scalar.ofJson? .held))
  | "join" =>
    let names := ["op", "left", "right", "kind", "condition"]
    let ⟨left, _⟩ ← j.child? names "left"
    let ⟨right, _⟩ ← j.child? names "right"
    return .join (← ofJson? .held left) (← ofJson? .held right)
      (← j.field? names "kind" (Json.constant? .held JoinKind.names))
      (← j.field? names "condition" (Scalar.ofJson? .held))
  | "aggregate" =>
    let names := ["op", "input", "group", "calls"]
    let ⟨input, _⟩ ← j.child? names "input"
    return .aggregate (← ofJson? .held input) (← j.field? names "group" (Json.list? Json.nat64?))
      (← j.field? names "calls" (Json.list? (AggregateCall.ofJson? .held)))
  | "union" =>
    let ⟨inputs, _⟩ ← j.child? ["op", "inputs", "all"] "inputs"
    return .union (← listOfJson? inputs) (← j.field? ["op", "inputs", "all"] "all" Json.bool?)
  | "minus" =>
    let ⟨inputs, _⟩ ← j.child? ["op", "inputs", "all"] "inputs"
    return .minus (← listOfJson? inputs) (← j.field? ["op", "inputs", "all"] "all" Json.bool?)
  | "intersect" =>
    let ⟨inputs, _⟩ ← j.child? ["op", "inputs", "all"] "inputs"
    return .intersect (← listOfJson? inputs) (← j.field? ["op", "inputs", "all"] "all" Json.bool?)
  | "distinct" =>
    let ⟨input, _⟩ ← j.child? ["op", "input"] "input"
    return .distinct (← ofJson? .held input)
  | "values" =>
    let names := ["op", "columns", "rows"]
    return .values (← j.field? names "columns" (Json.list? (Ty.ofJson? .held)))
      (← j.field? names "rows" (Json.list? (Json.list? (Value.ofJson? .held))))
  | "window" =>
    let names := ["op", "input", "partition", "order", "lower", "upper", "calls"]
    let ⟨input, _⟩ ← j.child? names "input"
    return .window (← ofJson? .held input) (← j.field? names "partition" (Json.list? Json.nat64?))
      (← j.field? names "order" (Json.list? Json.nat64?))
      (← j.fieldD? names "lower" .unbounded (WindowBound.ofJson? .held))
      (← j.fieldD? names "upper" .currentRow (WindowBound.ofJson? .held))
      (← j.field? names "calls" (Json.list? (AggregateCall.ofJson? .held)))
  | _ => none
termination_by sizeOf j
def listOfJson? (j : Json) : Option (List Rel) :=
  match j with
  | .arr items => itemsOfJson? items
  | _ => none
termination_by sizeOf j
def itemsOfJson? (items : List Json) : Option (List Rel) :=
  match items with
  | [] => some []
  | j :: rest => do return (← ofJson? .held j) :: (← itemsOfJson? rest)
termination_by sizeOf items
end

end Rel

namespace Column

def toJson (c : Column) : Json := .obj [("name", .str c.name), ("ty", c.ty.toJson)]

def ofJson? (style : Json.Style) (j : Json) : Option Column := do
  return ⟨← j.field? ["name", "ty"] "name" Json.str?,
    ← j.field? ["name", "ty"] "ty" (Ty.ofJson? style)⟩

end Column

namespace Table

def fields : List String := ["name", "columns", "primary_key"]

def toJson (t : Table) : Json :=
  .obj [("name", .str t.name), ("columns", .arr (t.columns.map Column.toJson)),
    ("primary_key", Rel.indicesToJson t.primaryKey)]

def ofJson? (style : Json.Style) (j : Json) : Option Table := do
  return {
    name := ← j.field? fields "name" Json.str?
    columns := ← j.field? fields "columns" (Json.list? (Column.ofJson? style))
    primaryKey := ← j.fieldD? fields "primary_key" [] (Json.list? Json.nat64?) }

end Table

namespace View

def toJson (v : View) : Json := .obj [("name", .str v.name), ("query", v.query.toJson)]

/-- The query is held back as a whole, so all of it must be readable. -/
def ofJson? (style : Json.Style) (j : Json) : Option View := do
  let query ← (j.get? ["name", "query"] "query").filter Json.isReadable
  return ⟨← j.field? ["name", "query"] "name" Json.str?, ← Rel.ofJson? style query⟩

end View

namespace Plan

def fields : List String := ["name", "tables", "views"]

def toJson (p : Plan) : Json :=
  .obj [("name", .str p.name), ("tables", .arr (p.tables.map Table.toJson)),
    ("views", .arr (p.views.map View.toJson))]

def ofJson? (style : Json.Style) (j : Json) : Option Plan := do
  return {
    name := ← j.fieldD? fields "name" "circuit" Json.str?
    tables := ← j.field? fields "tables" (Json.list? (Table.ofJson? style))
    views := ← j.field? fields "views" (Json.list? (View.ofJson? style)) }

end Plan
end ViewCircuit
