import ViewCircuit.Expr

/-! Stream operators. An operator holds the operators it reads, so it is the tree of its inputs. -/
namespace ViewCircuit

inductive OperatorKind where
  /-- Input relation. -/
  | source (table : String)
  /-- Output relation. -/
  | sink (view : String)
  | map (function : Expr)
  | filter (predicate : Expr)
  /-- Splits each row into a key and a value. -/
  | index (function : Expr)
  /-- Pairs rows of two indexed collections with equal keys. -/
  | join (function : Expr)
  /-- Folds the values of each key. -/
  | aggregate (fold : Expr)
  /-- Folds, for each key, the values in a range around it. -/
  | windowAggregate (window fold : Expr)
  /-- Weight one for every row of positive weight. -/
  | distinct
  | sum
  | subtract
  | negate
  | constant (value : Expr)
  | noop
  /-- Running sum of a stream of changes. -/
  | integrate
  /-- Change since the step before. -/
  | differentiate
  /-- Change of the distinct rows of the integral it reads. -/
  | incrementalDistinct
  /-- Change of a join, from the changes of its inputs. -/
  | incrementalJoin (function : Expr)
  /-- Change of an aggregate of the integral it reads. -/
  | incrementalAggregate (fold : Expr)
  deriving BEq

namespace OperatorKind

def operation : OperatorKind → String
  | .source _ => "source"
  | .sink _ => "sink"
  | .map _ => "map"
  | .filter _ => "filter"
  | .index _ => "index_with"
  | .join _ => "join"
  | .aggregate _ => "stream_aggregate"
  | .windowAggregate .. => "window_aggregate"
  | .distinct => "distinct"
  | .sum => "sum"
  | .subtract => "minus"
  | .negate => "neg"
  | .constant _ => "constant"
  | .noop => "noop"
  | .integrate => "integrate"
  | .differentiate => "differentiate"
  | .incrementalDistinct => "incremental_distinct"
  | .incrementalJoin _ => "incremental_join"
  | .incrementalAggregate _ => "incremental_aggregate"

/-- Whether the operator commutes with integration of all its inputs. -/
def isLinear : OperatorKind → Bool
  | .map _ | .filter _ | .index _ | .negate | .noop | .sum | .subtract => true
  | _ => false

def isSource : OperatorKind → Bool
  | .source _ => true
  | _ => false

def isSink : OperatorKind → Bool
  | .sink _ => true
  | _ => false

def isDistinct : OperatorKind → Bool
  | .distinct => true
  | _ => false

def isIntegrate : OperatorKind → Bool
  | .integrate => true
  | _ => false

/-- The expression an operator applies. -/
def function? : OperatorKind → Option Expr
  | .map f | .filter f | .index f | .join f | .aggregate f | .windowAggregate _ f | .constant f
  | .incrementalJoin f | .incrementalAggregate f => some f
  | _ => none

/-- The same kind with another expression; kinds without one stay. -/
def withFunction (kind : OperatorKind) (f : Expr) : OperatorKind :=
  match kind with
  | .map _ => .map f
  | .filter _ => .filter f
  | .index _ => .index f
  | .join _ => .join f
  | .aggregate _ => .aggregate f
  | .windowAggregate window _ => .windowAggregate window f
  | .constant _ => .constant f
  | .incrementalJoin _ => .incrementalJoin f
  | .incrementalAggregate _ => .incrementalAggregate f
  | kind => kind

@[simp] theorem operation_withFunction (kind : OperatorKind) (f : Expr) :
    (kind.withFunction f).operation = kind.operation := by cases kind <;> rfl

@[simp] theorem function?_withFunction (kind : OperatorKind) (f : Expr) :
    (kind.withFunction f).function? = kind.function?.map fun _ => f := by cases kind <;> rfl

end OperatorKind

/-- An operator and the stream it produces. `id` tells nodes apart: a step that changes nothing
keeps it, and two operators may be equal in all else. -/
structure Operator where
  id : Nat
  name : String
  kind : OperatorKind
  inputs : List Operator
  ty : Ty
  /-- Whether rows may have weights other than zero and one. -/
  isMultiset : Bool

namespace Operator

def operation (op : Operator) : String := op.kind.operation

/-- The input of an operator with exactly one. -/
def input? (op : Operator) : Option Operator :=
  match op.inputs with
  | [input] => some input
  | _ => none

/-- The same node. -/
def same (a b : Operator) : Bool := a.id == b.id

def allSame : List Operator → List Operator → Bool
  | [], [] => true
  | a :: as, b :: bs => a.same b && allSame as bs
  | _, _ => false

mutual
/-- Equal in everything but the numbers of the nodes. -/
def equal : Operator → Operator → Bool
  | ⟨_, n, k, is, t, m⟩, ⟨_, n', k', is', t', m'⟩ =>
    k == k' && n == n' && equalAll is is' && t.same t' && m == m'
def equalAll : List Operator → List Operator → Bool
  | [], [] => true
  | a :: as, b :: bs => equal a b && equalAll as bs
  | _, _ => false
end

end Operator
end ViewCircuit
