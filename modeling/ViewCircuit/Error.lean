import ViewCircuit.Ty
import ViewCircuit.Text.Quoted

/-! Why a compilation fails: each cause is a constructor, its wording stands in one place. -/
namespace ViewCircuit

/-- Faults of a stream operator, reported under the operation's name. -/
inductive OperatorFault where
  | functionType (found : Ty)
  | parameterCount (declared expected : Nat)
  | parameterType (declared provided : Ty)
  | notZSet (stream : String) (found : Ty)
  | notIndexed (stream : String) (found : Ty)
  | notCollection (stream : String) (found : Ty)
  | notFold (found : Ty)
  | notRange (found : Ty)
  | noInputs
  | inputType (stream : String) (found expected : Ty)
  | inputCount (given expected : Nat)
  | predicateResult (found : Ty)
  | pairResult (found : Ty)
  | keyTypes (left right : Ty)
  | foldRow (row value : Ty)
  | constantType (found : Ty)
  | noFunction
  | functionReplacement (found expected : Ty)
  deriving DecidableEq

def OperatorFault.message : OperatorFault → String
  | .functionType t => "function has non-function type " ++ t.text
  | .parameterCount d e => s!"function takes {d} parameters, expected {e}"
  | .parameterType d p => "parameter has type " ++ d.text ++ ", input provides " ++ p.text
  | .notZSet s t => "input " ++ s ++ " is " ++ t.text ++ ", expected a ZSet"
  | .notIndexed s t => "input " ++ s ++ " is " ++ t.text ++ ", expected an IndexedZSet"
  | .notCollection s t => "input " ++ s ++ " is " ++ t.text
  | .notFold t => "expected a Fold, found " ++ t.text
  | .notRange t => "window has type " ++ t.text ++ ", expected a Range"
  | .noInputs => "needs at least one input"
  | .inputType s f e => "input " ++ s ++ " is " ++ f.text ++ ", expected " ++ e.text
  | .inputCount g e => s!"{g} inputs given, {e} expected"
  | .predicateResult t => "predicate returns " ++ t.text ++ ", expected bool"
  | .pairResult t => "function returns " ++ t.text ++ ", expected a (key, value) pair"
  | .keyTypes l r => "key types differ: " ++ l.text ++ " and " ++ r.text
  | .foldRow r v => "fold over " ++ r.text ++ " applied to values of type " ++ v.text
  | .constantType t => "value has type " ++ t.text ++ ", expected a collection"
  | .noFunction => "operator has no function"
  | .functionReplacement f e =>
    "replacement function has type " ++ f.text ++ ", expected " ++ e.text

/-- Inconsistent types or shapes of what is being built. -/
inductive Fault where
  | nullableStruct (name : String)
  | duplicateField (field name : String)
  | operandTypes (symbol : String) (left right : Ty)
  | aggregateOperand (key : String) (value accumulator : Ty)
  | integerLiteral (value : Int) (ty : Ty)
  | mismatch (what : String) (expected found : Ty)
  | fieldOfNullable (index : Nat) (ty : Ty)
  | noField (ty : Ty) (index : Nat)
  | derefOf (ty : Ty)
  | unaryOperand (symbol : String) (ty : Ty)
  | applyOf (ty : Ty)
  | arity (params args : Nat)
  | structType (ty : Ty)
  | structFields (name : String) (declared given : Nat)
  | someOf (ty : Ty)
  | noArms
  | operator (operation : String) (fault : OperatorFault)
  | notCollection (ty : Ty)
  | notStruct (ty : Ty)
  | structTwice (name : String)
  | readBefore (reader stream : String)
  | streamTwice (name : String)
  | tableTwice (name : String)
  | viewCollides (name : String)
  | unknownRelation (name : String)
  | notTuples (stream : String) (ty : Ty)
  | notZSet (stream : String) (ty : Ty)
  | valuesRow (given expected : Nat)
  | conditionType (ty : Ty)
  | literalRange (value : Int) (ty : Ty)
  | negativeLiteral (value : Int) (ty : Ty)
  | literalType (value : String) (ty : Ty)
  | caseTypes (first other : Ty)
  | argumentRange (function : String) (column width : Nat)
  | noArgument (function : String)
  | groupColumn (column width : Nat)
  | windowColumn (column width : Nat)
  | windowOffset (offset : Nat)
  | emptyIntersect
  deriving DecidableEq

def Fault.message : Fault → String
  | .nullableStruct n => "struct type " ++ n ++ " cannot be nullable"
  | .duplicateField f n => "duplicate field name " ++ f ++ " in struct " ++ n
  | .operandTypes s l r => "operands of `" ++ s ++ "` have types " ++ l.text ++ " and " ++ r.text
  | .aggregateOperand k v a =>
    "aggregate `" ++ k ++ "` of " ++ v.text ++ " into accumulator " ++ a.text
  | .integerLiteral i t => s!"integer literal {i} with non-integer type " ++ t.text
  | .mismatch w e f => w ++ ": expected " ++ e.text ++ ", found " ++ f.text
  | .fieldOfNullable i t => s!"field {i} of nullable value of type " ++ t.text
  | .noField t i => "type " ++ t.text ++ s!" has no field {i}"
  | .derefOf t => "dereference of non-reference type " ++ t.text
  | .unaryOperand s t => "operator " ++ s ++ " applied to " ++ t.text
  | .applyOf t => "apply of non-function type " ++ t.text
  | .arity p a => s!"closure with {p} parameters called with {a} arguments"
  | .structType t => "struct expression with non-struct type " ++ t.text
  | .structFields n d g => "struct " ++ n ++ s!" has {d} fields, {g} given"
  | .someOf t => "Some of already nullable type " ++ t.text
  | .noArms => "match without arms"
  | .operator op f => op ++ ": " ++ f.message
  | .notCollection t => "expected a collection type, found " ++ t.text
  | .notStruct t => "only struct types can be declared, found " ++ t.text
  | .structTwice n => "struct " ++ n ++ " declared twice"
  | .readBefore r s => r ++ " reads " ++ s ++ " before it is declared"
  | .streamTwice n => "stream " ++ n ++ " declared twice"
  | .tableTwice n => "table " ++ n ++ " declared twice"
  | .viewCollides n => "view " ++ n ++ " collides with an earlier relation"
  | .unknownRelation n => "scan of unknown relation " ++ n
  | .notTuples s t => "relation " ++ s ++ " has type " ++ t.text ++ ", expected a ZSet of tuples"
  | .notZSet s t => "relation " ++ s ++ " has type " ++ t.text ++ ", expected a ZSet"
  | .valuesRow g e => s!"VALUES row has {g} fields, expected {e}"
  | .conditionType t => "condition has type " ++ t.text ++ ", expected bool"
  | .literalRange i t => s!"literal {i} out of range for " ++ t.text
  | .negativeLiteral i t => s!"negative literal {i} of type " ++ t.text
  | .literalType v t => "literal " ++ v ++ " cannot have type " ++ t.text
  | .caseTypes a b => "CASE branches have types " ++ a.text ++ " and " ++ b.text
  | .argumentRange f c w => f ++ s!" argument {c} out of range for {w} columns"
  | .noArgument f => f ++ " without an argument"
  | .groupColumn c w => s!"group column {c} out of range for {w} columns"
  | .windowColumn c w => s!"window column {c} out of range for {w} columns"
  | .windowOffset n => s!"window offset {n} out of range"
  | .emptyIntersect => "INTERSECT without inputs"

/-- Constructs without an implementation. -/
inductive Gap where
  | primitive (what : String) (ty : Ty)
  | distinctAggregate
  | exceptAll
  | intersectAll
  | windowOrders (count : Nat)
  | distinctWindow
  | windowOrderType (ty : Ty)
  deriving DecidableEq

def Gap.message : Gap → String
  | .primitive w t => "could not find `" ++ w ++ "` for type " ++ t.text
  | .distinctAggregate => "DISTINCT aggregates are not supported"
  | .exceptAll => "EXCEPT ALL is not supported"
  | .intersectAll => "INTERSECT ALL is not supported"
  | .windowOrders n => s!"window ordered by {n} columns, expected one"
  | .distinctWindow => "DISTINCT window aggregates are not supported"
  | .windowOrderType t => "window ordered by " ++ t.text ++ ", expected a non-null integer"

/-- Broken bookkeeping of a traversal. -/
inductive Breach where
  | popEmpty
  | noScope
  | scopesOpen (count : Nat)
  | inputCount
  | notIndexed (operation : String)
  deriving DecidableEq

def Breach.message : Breach → String
  | .popEmpty => "pop of empty scope stack"
  | .noScope => "Empty context"
  | .scopesOpen n => s!"{n} scopes left open"
  | .inputCount => "expected exactly one input"
  | .notIndexed op => op ++ " produced a non-indexed stream"

inductive CompileError where
  | construction (fault : Fault)
  /-- `node` is the printed part of the plan, or the quoted type, that has no implementation. -/
  | unimplemented (node : String) (gap : Gap)
  | invariant (breach : Breach)
  /-- A reduction did not end within its fuel. -/
  | exhausted
  deriving DecidableEq

namespace CompileError

def message : CompileError → String
  | .construction f => "IR construction error: " ++ f.message
  | .unimplemented node gap => "Unimplemented: " ++ gap.message ++ " (at " ++ node ++ ")"
  | .invariant b => "Internal invariant violated: " ++ b.message
  | .exhausted => "reduction ran out of fuel"

/-- Every failure but a missing implementation is a fault of what was built, not of the plan. -/
def isInternal : CompileError → Bool
  | .unimplemented .. => false
  | _ => true

/-- The runtime has no function `what` for the type. -/
def noPrimitive (what : String) (ty : Ty) : CompileError :=
  .unimplemented (Text.quoted ty.text) (.primitive what ty)

end CompileError

/-- The first entry that occurs earlier in the list. -/
def firstRepeat? (names : List String) : Option String :=
  (names.zipIdx.find? fun (n, i) => (names.take i).contains n).map Prod.fst

/-- A struct type: field names are unique and a struct is never nullable. -/
def Ty.structure? (name : String) (fields : List (String × Ty)) (mayBeNull : Bool) :
    Except CompileError Ty :=
  if mayBeNull then .error (.construction (.nullableStruct name))
  else
    match firstRepeat? (fields.map Prod.fst) with
    | some f => .error (.construction (.duplicateField f name))
    | none => .ok ⟨.struct name fields, false⟩

end ViewCircuit
