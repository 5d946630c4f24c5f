import ViewCircuit.Plan.ScalarExpr

/-! Aggregate calls as one fold. Its accumulator is a tuple with one or two slots for each call. -/
namespace ViewCircuit

/-- How a call accumulates; a count skips the rows where its column is NULL. -/
inductive Accumulator where
  | count (column : Option Nat)
  | sum (column : Nat) (ty : Ty)
  | extremum (op : BinaryOp) (column : Nat) (ty : Ty)
  /-- A sum and a count, divided at the end. -/
  | avg (column : Nat) (ty : Ty)

namespace AggregateCall

def columnType (c : AggregateCall) (fields : List Ty) (column : Nat) : Except CompileError Ty :=
  match fields[column]? with
  | some ty => .ok ty
  | none => fault (.argumentRange c.function.dump column fields.length)

def required (c : AggregateCall) : Except CompileError Nat :=
  match c.argument with
  | some column => .ok column
  | none => fault (.noArgument c.function.dump)

def accumulator (c : AggregateCall) (fields : List Ty) : Except CompileError Accumulator := do
  match c.function with
  | .count =>
    match c.argument with
    | none => return .count none
    | some column =>
      let _ ← c.columnType fields column
      return .count (some column)
  | .sum =>
    let column ← c.required
    return .sum column (← c.columnType fields column)
  | .min =>
    let column ← c.required
    return .extremum .min column (← c.columnType fields column)
  | .max =>
    let column ← c.required
    return .extremum .max column (← c.columnType fields column)
  | .avg =>
    let column ← c.required
    return .avg column (← c.columnType fields column)

end AggregateCall

/-- A weight or count as a value of a column's type. -/
def weightAs (w : Expr) (ty : Ty) : Expr :=
  if w.ty.same ty.nonNull then w else Expr.cast w ty.nonNull

def accumulate (op : BinaryOp) (acc value : Expr) : Except CompileError Expr := do
  let p ← Primitive.aggregate op acc.ty value.ty
  return Expr.call p.name [acc, value] p.result

/-- Adds the weight, unless the value is NULL. -/
def countStep (acc : Expr) (value : Option Expr) (w : Expr) : Except CompileError Expr := do
  let counted ← Expr.binary .add acc w
  match value with
  | some v => if v.ty.mayBeNull then Expr.ite (Expr.isNull v) acc counted else return counted
  | none => return counted

/-- Adds the value times the weight. -/
def sumStep (acc value : Expr) (ty : Ty) (w : Expr) : Except CompileError Expr := do
  accumulate .add acc (← BinaryOp.mul.apply value (weightAs w ty))

namespace Accumulator

/-- Initial values of the slots. -/
def zero : Accumulator → List Expr
  | .count _ => [Expr.int64 0]
  | .sum _ ty | .extremum _ _ ty => [Expr.noneOf ty]
  | .avg _ ty => [Expr.noneOf ty, Expr.int64 0]

/-- Values of the slots after one more row `t` of weight `w`; `slot` reads them before. -/
def step (a : Accumulator) (slot : Nat → Except CompileError Expr) (t w : Expr) :
    Except CompileError (List Expr) := do
  match a with
  | .count none => return [← countStep (← slot 0) none w]
  | .count (some column) =>
    let value ← Expr.field t column
    return [← countStep (← slot 0) (some value) w]
  | .sum column ty => return [← sumStep (← slot 0) (← Expr.field t column) ty w]
  | .extremum op column _ => return [← accumulate op (← slot 0) (← Expr.field t column)]
  | .avg column ty =>
    let total ← sumStep (← slot 0) (← Expr.field t column) ty w
    let count ← countStep (← slot 1) (some (← Expr.field t column)) w
    return [total, count]

/-- The value of the call from its slots. -/
def result (a : Accumulator) (slot : Nat → Except CompileError Expr) :
    Except CompileError Expr := do
  match a with
  | .avg _ ty => BinaryOp.div.apply (← slot 0) (weightAs (← slot 1) ty)
  | _ => slot 0

/-- The value of the call over no rows. -/
def emptyValue (a : Accumulator) (result : Ty) : Expr :=
  match a with
  | .count _ => Expr.int64 0
  | _ => Expr.noneOf result

end Accumulator

/-- Runs over accumulators with the position of their first slot. -/
def collectSlots {α : Type} (f : Accumulator → Nat → Except CompileError (List α)) :
    List Accumulator → Nat → Except CompileError (List α)
  | [], _ => .ok []
  | a :: as, first => do
    let here ← f a first
    return here ++ (← collectSlots f as (first + a.zero.length))

/-- The fold that computes all accumulators over rows of type `row`. -/
def foldExpr (row : Ty) (accumulators : List Accumulator) : Except CompileError Expr := do
  let zero := Expr.tuple (accumulators.flatMap Accumulator.zero)
  let acc : Param := ⟨"acc", zero.ty⟩
  let t : Param := ⟨"t", Ty.ref row⟩
  let w : Param := ⟨"w", Ty.int64⟩
  let slot (first i : Nat) := Expr.field acc.var (first + i)
  let steps ← collectSlots (fun a first => a.step (slot first) t.var w.var) accumulators 0
  let results ← collectSlots (fun a first => do return [← a.result (slot first)]) accumulators 0
  Expr.fold row zero (Expr.closure [acc, t, w] (Expr.tuple steps))
    (Expr.closure [acc] (Expr.tuple results))

end ViewCircuit
