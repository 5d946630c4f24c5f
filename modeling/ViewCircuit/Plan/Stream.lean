import ViewCircuit.Circuit
import ViewCircuit.Operator.Build
import ViewCircuit.Plan.Fold

/-! Relational operators as streams of a growing circuit. Every relation is a collection of
tuples. -/
namespace ViewCircuit

/-- A step that adds operators to a circuit. -/
abbrev Lower (α : Type) := StateT Circuit (ExceptT CompileError (StateM Context)) α

namespace Lower

variable {α : Type}

def check (r : Except CompileError α) : Lower α := StateT.lift (Compile.ofExcept r)

/-- Makes an operator and adds it. -/
def emit (make : Compile Operator) : Lower Operator := do
  let op ← StateT.lift make
  set (← check ((← get).add op))
  return op

/-- Column types of the rows of a relation. -/
def rowFields (op : Operator) : Except CompileError (List Ty) :=
  match op.ty.zsetElement?.bind Ty.tupleFields? with
  | some fields => .ok fields
  | none => fault (.notTuples op.name op.ty)

def element (op : Operator) : Except CompileError Ty :=
  match op.ty.zsetElement? with
  | some t => .ok t
  | none => fault (.notZSet op.name op.ty)

/-- The parameter that binds one row. -/
def rowParam (element : Ty) : Param := ⟨"t", Ty.ref element⟩

/-- A function of one row of a relation. -/
def rowFunction (input : Operator) (body : Expr → Except CompileError Expr) :
    Except CompileError Expr := do
  let t := rowParam (← element input)
  return Expr.closure [t] (← body t.var)

/-- Maps every row to a tuple. -/
def mapRow (input : Operator) (fields : Expr → Except CompileError (List Expr)) :
    Lower Operator := do
  let function ← check (rowFunction input fun t => do return Expr.tuple (← fields t))
  emit (Operator.map input function)

def project (input : Operator) (exprs : List Scalar) : Lower Operator :=
  mapRow input fun t => exprs.mapM (Scalar.toExpr t)

def filter (input : Operator) (condition : Scalar) : Lower Operator := do
  let predicate ← check (rowFunction input fun t => condition.toCondition t)
  emit (Operator.filter input predicate)

/-- Columns of a row. -/
def columns (t : Expr) (cs : List Nat) : Except CompileError (List Expr) := cs.mapM (Expr.field t)

/-- Conjunction of conditions, if there are any. -/
def allOf : List Expr → Except CompileError (Option Expr)
  | [] => .ok none
  | first :: rest => do return some (← rest.foldlM (Expr.binary .and) first)

/-- Drops the rows with NULL in one of the columns; a NULL key never matches. -/
def dropNullKeys (input : Operator) (keys : List Nat) : Lower Operator := do
  let fields ← check (rowFields input)
  let t := rowParam (← check (element input))
  let nullable := keys.filter fun c => (fields[c]?.map Ty.mayBeNull).getD false
  let checks ← check (nullable.mapM fun c => do
    Expr.unary .not (Expr.isNull (← Expr.field t.var c)))
  match ← check (allOf checks) with
  | some predicate => emit (Operator.filter input (Expr.closure [t] predicate))
  | none => return input

/-- Indexes the rows by the keys a function makes of them. -/
def indexWith (input : Operator) (keys : Expr → Except CompileError (List Expr)) :
    Lower Operator := do
  let function ← check (rowFunction input fun t => do
    let ks ← keys t
    return Expr.rawTuple [Expr.tuple ks, ← Expr.deref t])
  emit (Operator.index input function)

/-- A join key, which is not null. -/
def keyColumn (t : Expr) (c : Nat) : Except CompileError Expr := do
  let e ← Expr.field t c
  return if e.ty.mayBeNull then Expr.cast e e.ty.nonNull else e

def indexedParts (op : Operator) : Except CompileError (Ty × Ty) :=
  match op.ty.indexedParts? with
  | some parts => .ok parts
  | none => .error (.invariant (.notIndexed op.operation))

end Lower

namespace Scalar

/-- The conjuncts at the top of a condition, from left to right. -/
def conjuncts : Scalar → List Scalar
  | .binary .and left right => left.conjuncts ++ right.conjuncts
  | s => [s]

def isTrueLiteral : Scalar → Bool
  | .literal (.bool true) ty => ty.same Ty.bool
  | _ => false

/-- Left and right column of a conjunct that equates columns of one shape across a join. -/
def equiKey? (left right : List Ty) : Scalar → Option (Nat × Nat)
  | .binary .eq (.column a) (.column b) =>
    let width := left.length
    let sides :=
      if a < width ∧ width ≤ b then some (a, b - width)
      else if b < width ∧ width ≤ a then some (b, a - width)
      else none
    sides.filter fun (l, r) =>
      match left[l]?, right[r]? with
      | some lt, some rt => lt.sameShape rt
      | _, _ => false
  | _ => none

end Scalar

/-- Columns of a join: those of a side that may lack a partner become nullable. -/
def JoinKind.columns (kind : JoinKind) (left right : List Ty) : List Ty :=
  let widen (pad : Bool) (ty : Ty) := if pad then ty.nullable else ty
  left.map (widen (kind == .right || kind == .full)) ++
    right.map (widen (kind == .left || kind == .full))

namespace Lower

def castTo (e : Expr) (ty : Ty) : Expr := if e.ty.same ty then e else Expr.cast e ty

/-- The inner join: equated columns become keys, what is left of the condition a filter. -/
def join (left right : Operator) (condition : Scalar) : Lower Operator := do
  let leftFields ← check (rowFields left)
  let rightFields ← check (rowFields right)
  let terms := condition.conjuncts
  let keys := terms.filterMap (Scalar.equiKey? leftFields rightFields)
  let residual := terms.filter fun s =>
    (s.equiKey? leftFields rightFields).isNone && !s.isTrueLiteral
  let left ← dropNullKeys left (keys.map Prod.fst)
  let right ← dropNullKeys right (keys.map Prod.snd)
  let leftIndexed ← indexWith left fun t => keys.mapM fun k => keyColumn t k.1
  let rightIndexed ← indexWith right fun t => keys.mapM fun k => keyColumn t k.2
  let (key, _) ← check (indexedParts leftIndexed)
  let k : Param := ⟨"k", Ty.ref key⟩
  let l : Param := ⟨"l", Ty.ref (← check (element left))⟩
  let r : Param := ⟨"r", Ty.ref (← check (element right))⟩
  let ls ← check (columns l.var (List.range leftFields.length))
  let rs ← check (columns r.var (List.range rightFields.length))
  let joined ← emit
    (Operator.join leftIndexed rightIndexed (Expr.closure [k, l, r] (Expr.tuple (ls ++ rs))))
  match residual with
  | [] => return joined
  | first :: rest => filter joined (rest.foldl (.binary .and) first)

/-- Indexes by whole rows, with the unit as value. -/
def indexRow (input : Operator) : Lower Operator := do
  let function ← check (rowFunction input fun t => do
    return Expr.rawTuple [← Expr.deref t, Expr.rawTuple []])
  emit (Operator.index input function)

/-- Rows that occur in `set`, with the product of both weights. -/
def semiJoin (rows set : Operator) : Lower Operator := do
  let rowType ← check (element rows)
  let left ← indexRow rows
  let right ← indexRow set
  let k : Param := ⟨"k", Ty.ref rowType⟩
  let l : Param := ⟨"l", Ty.ref Ty.unit⟩
  let r : Param := ⟨"r", Ty.ref Ty.unit⟩
  let body ← check (Expr.deref k.var)
  emit (Operator.join left right (Expr.closure [k, l, r] body))

/-- Rows of one side of a join that have no partner; `cs` are its columns in the joined row. -/
def unmatched (side inner : Operator) (cs : List Nat) : Lower Operator := do
  let projected ← mapRow inner fun t => columns t cs
  let matched ← emit (Operator.distinct projected)
  let kept ← semiJoin side matched
  emit (Operator.subtract side kept)

/-- Widens rows to the output columns, with NULL outside their own from `offset` on. -/
def pad (rows : Operator) (output : List Ty) (offset : Nat) : Lower Operator := do
  let width := (← check (rowFields rows)).length
  mapRow rows fun t => output.zipIdx.mapM fun (ty, i) => do
    if offset ≤ i ∧ i < offset + width then return castTo (← Expr.field t (i - offset)) ty
    else return Expr.noneOf ty

/-- The inner rows in the output types, and the padded rows of each outer side. -/
def outerJoin (kind : JoinKind) (left right inner : Operator) : Lower Operator := do
  let leftFields ← check (rowFields left)
  let rightFields ← check (rowFields right)
  let output := kind.columns leftFields rightFields
  let width := leftFields.length
  let innerFields ← check (rowFields inner)
  let widened := (innerFields.zip output).any fun (a, b) => !a.same b
  let both ← if widened then
      mapRow inner fun t => output.zipIdx.mapM fun (ty, i) => do return castTo (← Expr.field t i) ty
    else pure inner
  let lefts ← if kind == .left || kind == .full then do
      let rows ← unmatched left inner (List.range width)
      pure [← pad rows output 0]
    else pure []
  let rights ← if kind == .right || kind == .full then do
      let rows ← unmatched right inner (List.range' width (output.length - width))
      pure [← pad rows output width]
    else pure []
  emit (Operator.sum (both :: lefts ++ rights))

/-- Whole-row joins of the distinct rows of all inputs. -/
def intersect (inputs : List Operator) : Lower Operator := do
  match inputs with
  | [] => check (fault .emptyIntersect)
  | first :: rest =>
    let start ← emit (Operator.distinct first)
    rest.foldlM (fun acc input => do
      let set ← emit (Operator.distinct input)
      semiJoin acc set) start

/-- Distinct rows of the first input, less the distinct rows of each other one. -/
def minus (inputs : List Operator) : Lower Operator := do
  let terms ← inputs.zipIdx.mapM fun (input, i) => do
    let rows ← emit (Operator.distinct input)
    if i = 0 then return rows else emit (Operator.negate rows)
  let sum ← emit (Operator.sum terms)
  emit (Operator.distinct sum)

/-- Key and value tuples of an indexed stream side by side. -/
def flatten (grouped : Operator) : Lower Operator := do
  let (key, value) ← check (indexedParts grouped)
  let kv : Param := ⟨"kv", ← check (Operator.rowParam grouped.ty)⟩
  let part (i : Nat) (ty : Ty) : Except CompileError (List Expr) := do
    (List.range ((ty.tupleFields?.map List.length).getD 0)).mapM fun j => do
      Expr.field (← Expr.field kv.var i) j
  let keys ← check (part 0 key)
  let values ← check (part 1 value)
  emit (Operator.map grouped (Expr.closure [kv] (Expr.tuple (keys ++ values))))

/-- Adds the default row exactly when there is no other row: the constant is taken away once for
every row of the aggregate. -/
def defaultWhenEmpty (aggregated : Operator) (accumulators : List Accumulator) :
    Lower Operator := do
  let types ← check (rowFields aggregated)
  let row := Expr.tuple ((accumulators.zip types).map fun (a, ty) => a.emptyValue ty)
  let rowType ← check (element aggregated)
  let value ← check (Expr.zset rowType [(row, 1)])
  let constant ← emit (Operator.constant value)
  let replaced ← emit (Operator.map aggregated (Expr.closure [rowParam rowType] row))
  let negated ← emit (Operator.negate replaced)
  emit (Operator.sum [aggregated, constant, negated])

/-- Grouped aggregates. Without calls the groups are the distinct keys; without group columns there
is one row even over no input. -/
def aggregate (input : Operator) (group : List Nat) (calls : List AggregateCall) :
    Lower Operator := do
  let fields ← check (rowFields input)
  match group.find? fun g => fields.length ≤ g with
  | some g => check (fault (.groupColumn g fields.length))
  | none =>
    if calls.isEmpty then
      let keys ← mapRow input fun t => columns t group
      emit (Operator.distinct keys)
    else
      let accumulators ← check (calls.mapM fun c => c.accumulator fields)
      let fold ← check (do foldExpr (← element input) accumulators)
      let indexed ← indexWith input fun t => columns t group
      let grouped ← emit (Operator.aggregate indexed fold)
      let flat ← flatten grouped
      if group.isEmpty then defaultWhenEmpty flat accumulators else return flat

end Lower

/-- Distance of a frame bound from the current row; none when there is no bound. -/
def WindowBound.offset? (b : WindowBound) : Except CompileError (Option Int) :=
  let magnitude (n : Nat) : Except CompileError Int :=
    if n < 1 <<< 63 then .ok n else fault (.windowOffset n)
  match b with
  | .unbounded => .ok none
  | .currentRow => .ok (some 0)
  | .preceding n => do return some (-(← magnitude n))
  | .following n => do return some (← magnitude n)

namespace Lower

def frameEnd (order : Ty) (b : WindowBound) : Except CompileError (Option Expr) := do
  match ← b.offset? with
  | none => return none
  | some offset => return some (← (Value.int offset).toExpr order)

/-- Each row with the aggregates over the frame around it: rows are keyed by partition and order
columns, folded over the frame, and joined with the results of their key. -/
def window (node : String) (input : Operator) (partition : List Nat) (order : Nat)
    (lower upper : WindowBound) (calls : List AggregateCall) : Lower Operator := do
  let fields ← check (rowFields input)
  let width := fields.length
  match (partition ++ [order]).find? fun c => width ≤ c with
  | some c => check (fault (.windowColumn c width))
  | none =>
    if calls.isEmpty then return input
    else
      let orderType := (fields[order]?).getD Ty.any
      if !orderType.isInteger || orderType.mayBeNull then
        throw (.unimplemented node (.windowOrderType orderType))
      else
        let start ← check (frameEnd orderType lower)
        let stop ← check (frameEnd orderType upper)
        let frame ← check (Expr.range start stop true)
        let row ← check (element input)
        let fold ← check (do foldExpr row (← calls.mapM fun c => c.accumulator fields))
        let indexed ← indexWith input fun t => columns t (partition ++ [order])
        let windowed ← emit (Operator.windowAggregate indexed frame fold)
        let (key, results) ← check (indexedParts windowed)
        let extra := (results.tupleFields?.map List.length).getD 0
        let k : Param := ⟨"k", Ty.ref key⟩
        let l : Param := ⟨"l", Ty.ref row⟩
        let r : Param := ⟨"r", Ty.ref results⟩
        let ls ← check (columns l.var (List.range width))
        let rs ← check (columns r.var (List.range extra))
        emit (Operator.join indexed windowed (Expr.closure [k, l, r] (Expr.tuple (ls ++ rs))))

/-- One tuple of literal rows. -/
def valuesRow (columns : List Ty) (row : List Value) : Except CompileError Expr :=
  if row.length ≠ columns.length then fault (.valuesRow row.length columns.length)
  else do return Expr.tuple (← (row.zip columns).mapM fun (v, ty) => v.toExpr ty)

def values (columns : List Ty) (rows : List (List Value)) : Lower Operator := do
  let tuples ← check (rows.mapM (valuesRow columns))
  let value ← check (Expr.zset (Ty.tuple columns) (tuples.map fun t => (t, 1)))
  emit (Operator.constant value)

end Lower

namespace Rel

open Lower

mutual
/-- The stream of a relation; `relations` holds the streams of tables and earlier views. -/
def stream (relations : List (String × Operator)) : Rel → Lower Operator
  | .scan table =>
    match relations.lookup table with
    | some op => return op
    | none => check (fault (.unknownRelation table))
  | .project input exprs => do Lower.project (← input.stream relations) exprs
  | .filter input condition => do Lower.filter (← input.stream relations) condition
  | .join left right kind condition => do
    let l ← left.stream relations
    let r ← right.stream relations
    let inner ← Lower.join l r condition
    if kind == .inner then return inner else outerJoin kind l r inner
  | .aggregate input group calls => do
    if calls.any AggregateCall.distinct then
      throw (.unimplemented (Rel.dump (.aggregate input group calls)) .distinctAggregate)
    else Lower.aggregate (← input.stream relations) group calls
  | .union inputs all => do
    let sum ← emit (Operator.sum (← streams relations inputs))
    if all then return sum else emit (Operator.distinct sum)
  | .minus inputs all => do
    if all then throw (.unimplemented (Rel.dump (.minus inputs all)) .exceptAll)
    else Lower.minus (← streams relations inputs)
  | .intersect inputs all => do
    if all then throw (.unimplemented (Rel.dump (.intersect inputs all)) .intersectAll)
    else Lower.intersect (← streams relations inputs)
  | .distinct input => do emit (Operator.distinct (← input.stream relations))
  | .values columns rows => Lower.values columns rows
  | .window input partition order lower upper calls => do
    let node := Rel.dump (.window input partition order lower upper calls)
    match order with
    | [o] =>
      if calls.any AggregateCall.distinct then throw (.unimplemented node .distinctWindow)
      else Lower.window node (← input.stream relations) partition o lower upper calls
    | order => throw (.unimplemented node (.windowOrders order.length))
def streams (relations : List (String × Operator)) : List Rel → Lower (List Operator)
  | [] => return []
  | r :: rs => do
    let op ← r.stream relations
    return op :: (← streams relations rs)
end

end Rel
end ViewCircuit
