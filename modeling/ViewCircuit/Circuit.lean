import ViewCircuit.Context
import ViewCircuit.Operator

/-! Circuits: operators in an order in which each reads only what was declared before it. -/
namespace ViewCircuit

structure Circuit where
  name : String
  /-- Struct types that expressions refer to. -/
  declarations : List Ty
  sources : List Operator
  interior : List Operator
  sinks : List Operator

namespace Circuit

def empty (name : String) : Circuit := ⟨name, [], [], [], []⟩

/-- Sources, then interior operators, then sinks. -/
def operators (c : Circuit) : List Operator := c.sources ++ c.interior ++ c.sinks

def size (c : Circuit) : Nat := c.operators.length

/-- Whether a stream of that name has been declared. -/
def declares (c : Circuit) (stream : String) : Bool := c.operators.any fun op => op.name == stream

def operator? (c : Circuit) (stream : String) : Option Operator :=
  c.operators.find? fun op => op.name == stream

def source? (c : Circuit) (table : String) : Option Operator :=
  c.sources.find? fun op => match op.kind with
    | .source t => t == table
    | _ => false

def sink? (c : Circuit) (view : String) : Option Operator :=
  c.sinks.find? fun op => match op.kind with
    | .sink v => v == view
    | _ => false

/-- Both hold the same nodes in the same order. -/
def sameOperators (c d : Circuit) : Bool := Operator.allSame c.operators d.operators

def structName? (t : Ty) : Option String :=
  match t.kind with
  | .struct name _ => some name
  | _ => none

/-- Declares a struct type, once. -/
def addDeclaration (c : Circuit) (ty : Ty) : Except CompileError Circuit :=
  match structName? ty with
  | none => .error (.construction (.notStruct ty))
  | some name =>
    if c.declarations.any fun d => structName? d == some name then
      .error (.construction (.structTwice name))
    else .ok { c with declarations := c.declarations ++ [ty] }

/-- Puts an operator into the section of its kind. Its inputs must be declared and its own stream
must not be. -/
def add (c : Circuit) (op : Operator) : Except CompileError Circuit :=
  match op.inputs.find? fun i => !c.declares i.name with
  | some i => .error (.construction (.readBefore op.name i.name))
  | none =>
    if c.declares op.name then .error (.construction (.streamTwice op.name))
    else
      match op.kind with
      | .source _ => .ok { c with sources := c.sources ++ [op] }
      | .sink _ => .ok { c with sinks := c.sinks ++ [op] }
      | _ => .ok { c with interior := c.interior ++ [op] }

end Circuit
end ViewCircuit
