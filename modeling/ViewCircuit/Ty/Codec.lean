import ViewCircuit.Json
import ViewCircuit.Ty

/-! Types as JSON: constant kinds by name, the others as an object with the kind as its only key. -/
namespace ViewCircuit.Ty

def widths : List (String × IntWidth) := [("w16", .w16), ("w32", .w32), ("w64", .w64)]

def widthName : IntWidth → String
  | .w16 => "w16"
  | .w32 => "w32"
  | .w64 => "w64"

/-- The kinds without parts. -/
def constants : List (String × Kind) :=
  [("bool", .bool), ("float", .float), ("double", .double), ("string", .string), ("date", .date),
   ("timestamp", .timestamp), ("interval", .interval), ("u_size", .usize), ("null", .null),
   ("any", .any)]

mutual
def toJson : Ty → Json
  | ⟨kind, mayBeNull⟩ => .obj [("kind", kindToJson kind), ("may_be_null", .bool mayBeNull)]
def kindToJson : Kind → Json
  | .bool => .str "bool"
  | .integer w => .obj [("integer", .str (widthName w))]
  | .float => .str "float"
  | .double => .str "double"
  | .decimal p s => .obj [("decimal", .obj [("precision", .ofNat p), ("scale", .ofNat s)])]
  | .string => .str "string"
  | .date => .str "date"
  | .timestamp => .str "timestamp"
  | .interval => .str "interval"
  | .usize => .str "u_size"
  | .null => .str "null"
  | .tuple fields => .obj [("tuple", .arr (toJsons fields))]
  | .rawTuple fields => .obj [("raw_tuple", .arr (toJsons fields))]
  | .zset element => .obj [("z_set", toJson element)]
  | .indexedZSet key value =>
    .obj [("indexed_z_set", .obj [("key", toJson key), ("value", toJson value)])]
  | .vec element => .obj [("vec", toJson element)]
  | .struct name fields =>
    .obj [("struct", .obj [("name", .str name), ("fields", .arr (fieldsToJson fields))])]
  | .function params result =>
    .obj [("function", .obj [("params", .arr (toJsons params)), ("result", toJson result)])]
  | .ref inner => .obj [("ref", toJson inner)]
  | .user name args => .obj [("user", .obj [("name", .str name), ("args", .arr (toJsons args))])]
  | .any => .str "any"
def toJsons : List Ty → List Json
  | [] => []
  | t :: ts => toJson t :: toJsons ts
def fieldsToJson : List (String × Ty) → List Json
  | [] => []
  | (name, t) :: fs => .obj [("name", .str name), ("ty", toJson t)] :: fieldsToJson fs
end

mutual
def ofJson? (style : Json.Style) (j : Json) : Option Ty := do
  let ⟨kind, _⟩ ← j.child? ["kind", "may_be_null"] "kind"
  let mayBeNull ← j.fieldD? ["kind", "may_be_null"] "may_be_null" false Json.bool?
  return ⟨← kindOfJson? style kind, mayBeNull⟩
termination_by sizeOf j
decreasing_by assumption
def kindOfJson? (style : Json.Style) (j : Json) : Option Kind :=
  match j with
  | .str s => constants.lookup s
  | .obj [("integer", w)] => (w.constant? style widths).map .integer
  | .obj [("decimal", r)] => if !style.admits r then none else do
    let names := ["precision", "scale"]
    return .decimal (← r.field? names "precision" Json.nat32?)
      (← r.field? names "scale" Json.nat32?)
  | .obj [("tuple", ts)] => (listOfJson? style ts).map .tuple
  | .obj [("raw_tuple", ts)] => (listOfJson? style ts).map .rawTuple
  | .obj [("z_set", t)] => (ofJson? style t).map .zset
  | .obj [("indexed_z_set", r)] => if !style.admits r then none else do
    let ⟨key, _⟩ ← r.child? ["key", "value"] "key"
    let ⟨value, _⟩ ← r.child? ["key", "value"] "value"
    return .indexedZSet (← ofJson? style key) (← ofJson? style value)
  | .obj [("vec", t)] => (ofJson? style t).map .vec
  | .obj [("struct", r)] => if !style.admits r then none else do
    let name ← r.field? ["name", "fields"] "name" Json.str?
    let ⟨fields, _⟩ ← r.child? ["name", "fields"] "fields"
    return .struct name (← fieldsOfJson? style fields)
  | .obj [("function", r)] => if !style.admits r then none else do
    let ⟨params, _⟩ ← r.child? ["params", "result"] "params"
    let ⟨result, _⟩ ← r.child? ["params", "result"] "result"
    return .function (← listOfJson? style params) (← ofJson? style result)
  | .obj [("ref", t)] => (ofJson? style t).map .ref
  | .obj [("user", r)] => if !style.admits r then none else do
    let name ← r.field? ["name", "args"] "name" Json.str?
    let ⟨args, _⟩ ← r.child? ["name", "args"] "args"
    return .user name (← listOfJson? style args)
  | .obj [(tag, content)] => if style.isContent content then constants.lookup tag else none
  | _ => none
termination_by sizeOf j
decreasing_by
  all_goals simp only [Json.obj.sizeOf_spec, List.cons.sizeOf_spec, List.nil.sizeOf_spec,
    Prod.mk.sizeOf_spec]
  all_goals omega
def listOfJson? (style : Json.Style) (j : Json) : Option (List Ty) :=
  match j with
  | .arr items => itemsOfJson? style items
  | _ => none
termination_by sizeOf j
decreasing_by
  simp only [Json.arr.sizeOf_spec]
  omega
def itemsOfJson? (style : Json.Style) (items : List Json) : Option (List Ty) :=
  match items with
  | [] => some []
  | j :: rest => do return (← ofJson? style j) :: (← itemsOfJson? style rest)
termination_by sizeOf items
decreasing_by
  all_goals simp only [List.cons.sizeOf_spec]
  all_goals omega
def fieldsOfJson? (style : Json.Style) (j : Json) : Option (List (String × Ty)) :=
  match j with
  | .arr items => fieldItemsOfJson? style items
  | _ => none
termination_by sizeOf j
decreasing_by
  simp only [Json.arr.sizeOf_spec]
  omega
def fieldItemsOfJson? (style : Json.Style) (items : List Json) : Option (List (String × Ty)) :=
  match items with
  | [] => some []
  | j :: rest => do
    let name ← j.field? ["name", "ty"] "name" Json.str?
    let ⟨ty, _⟩ ← j.child? ["name", "ty"] "ty"
    return (name, ← ofJson? style ty) :: (← fieldItemsOfJson? style rest)
termination_by sizeOf items
decreasing_by
  all_goals simp only [List.cons.sizeOf_spec]
  all_goals omega
end

end ViewCircuit.Ty
