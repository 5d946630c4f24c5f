import ViewCircuit.Context
import ViewCircuit.Expr.Build
import ViewCircuit.Operator

/-! Checked construction of operators: the embedded function must fit the streams that are read. -/
namespace ViewCircuit.Operator

variable {α : Type}

/-- Fails with a fault under the name of an operation. -/
def fault (operation : String) (f : OperatorFault) : Except CompileError α :=
  .error (.construction (.operator operation f))

/-- What a function over the rows of a collection takes. -/
def rowParam (collection : Ty) : Except CompileError Ty :=
  match collection.kind with
  | .zset element => .ok (Ty.ref element)
  | .indexedZSet key value => .ok (Ty.rawTuple [Ty.ref key, Ty.ref value])
  | _ => .error (.construction (.notCollection collection))

/-- The result type of a function that must take exactly `params`. -/
def checkClosure (operation : String) (function : Expr) (params : List Ty) :
    Except CompileError Ty :=
  match function.ty.functionParts? with
  | none => fault operation (.functionType function.ty)
  | some (declared, result) =>
    if declared.length ≠ params.length then
      fault operation (.parameterCount declared.length params.length)
    else
      match (declared.zip params).find? fun (d, p) => !d.same p with
      | some (d, p) => fault operation (.parameterType d p)
      | none => .ok result

def expectZSet (operation : String) (input : Operator) : Except CompileError Ty :=
  match input.ty.zsetElement? with
  | some element => .ok element
  | none => fault operation (.notZSet input.name input.ty)

def expectIndexed (operation : String) (input : Operator) : Except CompileError (Ty × Ty) :=
  match input.ty.indexedParts? with
  | some parts => .ok parts
  | none => fault operation (.notIndexed input.name input.ty)

/-- Row and result types of a fold. -/
def foldParts (operation : String) (fold : Expr) : Except CompileError (Ty × Ty) :=
  match fold.ty.kind with
  | .user "Fold" [row, _, result] => .ok (row, result)
  | _ => fault operation (.notFold fold.ty)

/-- The one type of all inputs, of which there must be some. -/
def commonType (operation : String) (inputs : List Operator) : Except CompileError Ty :=
  match inputs with
  | [] => fault operation .noInputs
  | first :: rest =>
    match rest.find? fun i => !i.ty.same first.ty with
    | some i => fault operation (.inputType i.name i.ty first.ty)
    | none => .ok first.ty

/-- A new operator with a number and a stream of its own. -/
def make (kind : OperatorKind) (inputs : List Operator) (ty : Ty) (isMultiset : Bool) :
    Compile Operator := do
  let id ← Compile.freshId
  let name ← Compile.freshStream
  return { id, name, kind, inputs, ty, isMultiset }

def source (table : String) (element : Ty) (isMultiset : Bool) : Compile Operator :=
  make (.source table) [] (Ty.zset element) isMultiset

def sink (view : String) (input : Operator) : Compile Operator :=
  make (.sink view) [input] input.ty input.isMultiset

def map (input : Operator) (function : Expr) : Compile Operator := do
  let param ← Compile.ofExcept (rowParam input.ty)
  let result ← Compile.ofExcept (checkClosure "map" function [param])
  make (.map function) [input] (Ty.zset result) true

def filter (input : Operator) (predicate : Expr) : Compile Operator := do
  let element ← Compile.ofExcept (expectZSet "filter" input)
  let result ← Compile.ofExcept (checkClosure "filter" predicate [Ty.ref element])
  if !result.same Ty.bool then Compile.ofExcept (fault "filter" (.predicateResult result))
  else make (.filter predicate) [input] input.ty input.isMultiset

/-- The collection of key and value pairs that a function of this result type makes. -/
def pairType (result : Ty) : Except CompileError Ty :=
  match result with
  | ⟨.rawTuple [key, value], false⟩ => .ok (Ty.indexedZSet key value)
  | _ => fault "index_with" (.pairResult result)

def index (input : Operator) (function : Expr) : Compile Operator := do
  let element ← Compile.ofExcept (expectZSet "index_with" input)
  let result ← Compile.ofExcept (checkClosure "index_with" function [Ty.ref element])
  let ty ← Compile.ofExcept (pairType result)
  make (.index function) [input] ty input.isMultiset

/-- The type of a join of two indexed streams under a function. -/
def joinType (operation : String) (left right : Operator) (function : Expr) :
    Except CompileError Ty := do
  let (leftKey, leftValue) ← expectIndexed operation left
  let (rightKey, rightValue) ← expectIndexed operation right
  if !leftKey.same rightKey then fault operation (.keyTypes leftKey rightKey)
  else
    let result ← checkClosure operation function
      [Ty.ref leftKey, Ty.ref leftValue, Ty.ref rightValue]
    return Ty.zset result

/-- Joins on equal keys; the function takes the key and the two values. -/
def join (left right : Operator) (function : Expr) : Compile Operator := do
  let ty ← Compile.ofExcept (joinType "join" left right function)
  make (.join function) [left, right] ty true

def incrementalJoin (left right : Operator) (function : Expr) : Compile Operator := do
  let ty ← Compile.ofExcept (joinType "incremental_join" left right function)
  make (.incrementalJoin function) [left, right] ty true

/-- The type of a fold over the values of each key. -/
def aggregateType (operation : String) (input : Operator) (fold : Expr) :
    Except CompileError Ty := do
  let (key, value) ← expectIndexed operation input
  let (row, result) ← foldParts operation fold
  if row.same value then return Ty.indexedZSet key result
  else fault operation (.foldRow row value)

def aggregate (input : Operator) (fold : Expr) : Compile Operator := do
  let ty ← Compile.ofExcept (aggregateType "stream_aggregate" input fold)
  make (.aggregate fold) [input] ty false

def incrementalAggregate (input : Operator) (fold : Expr) : Compile Operator := do
  let ty ← Compile.ofExcept (aggregateType "incremental_aggregate" input fold)
  make (.incrementalAggregate fold) [input] ty false

def isRange (window : Expr) : Bool :=
  match window.ty.kind with
  | .user "Range" _ => true
  | _ => false

def windowAggregate (input : Operator) (window fold : Expr) : Compile Operator := do
  if !isRange window then Compile.ofExcept (fault "window_aggregate" (.notRange window.ty))
  else
    let ty ← Compile.ofExcept (aggregateType "window_aggregate" input fold)
    make (.windowAggregate window fold) [input] ty false

/-- An operator that keeps the type of its one input, which must be a collection. -/
def unary (kind : OperatorKind) (input : Operator) (isMultiset : Bool) : Compile Operator :=
  if input.ty.isCollection then make kind [input] input.ty isMultiset
  else Compile.ofExcept (fault kind.operation (.notCollection input.name input.ty))

def distinct (input : Operator) : Compile Operator := unary .distinct input false
def incrementalDistinct (input : Operator) : Compile Operator :=
  unary .incrementalDistinct input true
def negate (input : Operator) : Compile Operator := unary .negate input input.isMultiset
def noop (input : Operator) : Compile Operator := unary .noop input input.isMultiset
def integrate (input : Operator) : Compile Operator := unary .integrate input input.isMultiset
def differentiate (input : Operator) : Compile Operator := unary .differentiate input true

def sum (inputs : List Operator) : Compile Operator := do
  let ty ← Compile.ofExcept (commonType "sum" inputs)
  make .sum inputs ty true

def subtract (left right : Operator) : Compile Operator := do
  let ty ← Compile.ofExcept (commonType "minus" [left, right])
  make .subtract [left, right] ty true

def constant (value : Expr) : Compile Operator :=
  if value.ty.isCollection then make (.constant value) [] value.ty true
  else Compile.ofExcept (fault "constant" (.constantType value.ty))

/-- The operator with another function of the same type. -/
def withFunction (op : Operator) (function : Expr) : Compile Operator := do
  match op.kind.function? with
  | none => Compile.ofExcept (fault op.operation .noFunction)
  | some current =>
    if !current.ty.same function.ty then
      Compile.ofExcept (fault op.operation (.functionReplacement function.ty current.ty))
    else return { op with id := ← Compile.freshId, kind := op.kind.withFunction function }

/-- The operator with the very function it has: the node itself. -/
def withSameFunction (op : Operator) : Except CompileError Operator :=
  match op.kind.function? with
  | none => fault op.operation .noFunction
  | some _ => .ok op

/-- New inputs must be as many as the old ones and have their types. -/
def checkInputs (op : Operator) (inputs : List Operator) : Except CompileError Unit :=
  if inputs.length ≠ op.inputs.length then
    fault op.operation (.inputCount inputs.length op.inputs.length)
  else
    match (inputs.zip op.inputs).find? fun (new, old) => !new.ty.same old.ty with
    | some (new, old) => fault op.operation (.inputType new.name new.ty old.ty)
    | none => .ok ()

/-- A new node for the operator over other inputs. -/
def forceInputs (op : Operator) (inputs : List Operator) : Compile Operator := do
  Compile.ofExcept (op.checkInputs inputs)
  return { op with id := ← Compile.freshId, inputs }

/-- The operator over other inputs; the node itself when they are the nodes it reads already. -/
def withInputs (op : Operator) (inputs : List Operator) : Compile Operator := do
  Compile.ofExcept (op.checkInputs inputs)
  if allSame inputs op.inputs then return op
  else return { op with id := ← Compile.freshId, inputs }

/-- A copy under a stream of its own. -/
def duplicate (op : Operator) (inputs : List Operator) : Compile Operator := do
  Compile.ofExcept (op.checkInputs inputs)
  let id ← Compile.freshId
  return { op with id, name := ← Compile.freshStream, inputs }

end ViewCircuit.Operator
