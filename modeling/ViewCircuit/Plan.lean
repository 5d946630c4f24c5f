import ViewCircuit.Double
import ViewCircuit.Primitive

/-! Typed relational plans: tables, and views as trees of relational operators over them. -/
namespace ViewCircuit

/-- Literal values of plans. Dates count days and timestamps milliseconds from the epoch. -/
inductive Value where
  | null
  | bool (value : Bool)
  | int (value : Int)
  | float (value : Double)
  | decimal (text : String)
  | string (value : String)
  | date (days : Int)
  | timestamp (millis : Int)
  deriving DecidableEq

inductive SqlUnary where
  | not | neg | isNull | isNotNull | isTrue | isFalse | isNotTrue | isNotFalse
  deriving DecidableEq, Repr

/-- Scalars over the columns of the input row. -/
inductive Scalar where
  | column (index : Nat)
  | literal (value : Value) (ty : Ty)
  | unary (op : SqlUnary) (operand : Scalar)
  | binary (op : BinaryOp) (left right : Scalar)
  | cast (operand : Scalar) (ty : Ty)
  /-- Pairs of a condition and a value, and the value when no condition is true. -/
  | case (branches : List (Scalar × Scalar)) (otherwise : Scalar)

inductive JoinKind where
  | inner | left | right | full
  deriving DecidableEq, Repr

inductive AggregateFunction where
  | count | sum | min | max | avg
  deriving DecidableEq, Repr

/-- A count without an argument counts rows. -/
structure AggregateCall where
  function : AggregateFunction
  argument : Option Nat
  distinct : Bool
  deriving DecidableEq, Repr

/-- One end of a window frame, measured from the order value of the current row. -/
inductive WindowBound where
  | unbounded
  | currentRow
  | preceding (offset : Nat)
  | following (offset : Nat)
  deriving DecidableEq, Repr

inductive Rel where
  /-- A table or an earlier view. -/
  | scan (table : String)
  | project (input : Rel) (exprs : List Scalar)
  | filter (input : Rel) (condition : Scalar)
  /-- The condition reads the left row followed by the right one. -/
  | join (left right : Rel) (kind : JoinKind) (condition : Scalar)
  /-- Group columns followed by one column for each call. -/
  | aggregate (input : Rel) (group : List Nat) (calls : List AggregateCall)
  | union (inputs : List Rel) (all : Bool)
  | minus (inputs : List Rel) (all : Bool)
  | intersect (inputs : List Rel) (all : Bool)
  | distinct (input : Rel)
  | values (columns : List Ty) (rows : List (List Value))
  /-- The input row followed by one column for each call. -/
  | window (input : Rel) (partition order : List Nat) (lower upper : WindowBound)
      (calls : List AggregateCall)

structure Column where
  name : String
  ty : Ty
  deriving DecidableEq

/-- A table with key columns holds no row twice. -/
structure Table where
  name : String
  columns : List Column
  primaryKey : List Nat
  deriving DecidableEq

structure View where
  name : String
  query : Rel

structure Plan where
  name : String
  tables : List Table
  views : List View

def Table.rowTypes (t : Table) : List Ty := t.columns.map Column.ty

namespace AggregateCall

def countStar : AggregateCall := ⟨.count, none, false⟩

end AggregateCall

namespace Scalar

def int32 (i : Int) : Scalar := .literal (.int i) Ty.int32
def boolean (b : Bool) : Scalar := .literal (.bool b) Ty.bool
def null : Scalar := .literal .null Ty.null

end Scalar

namespace Plan

def empty (name : String) : Plan := ⟨name, [], []⟩

def addTable (p : Plan) (name : String) (columns : List Column) (primaryKey : List Nat) : Plan :=
  { p with tables := p.tables ++ [⟨name, columns, primaryKey⟩] }

def addView (p : Plan) (name : String) (query : Rel) : Plan :=
  { p with views := p.views ++ [⟨name, query⟩] }

end Plan
end ViewCircuit
