import ViewCircuit.Ty
import ViewCircuit.Text.Dump

/-! The structural text of a type. -/
namespace ViewCircuit.Ty

open Text (applied listed record flag quoted)

def widthDump : IntWidth → String
  | .w16 => "W16"
  | .w32 => "W32"
  | .w64 => "W64"

mutual
def dump : Ty → String
  | ⟨kind, mayBeNull⟩ => record "Type" [("kind", kindDump kind), ("may_be_null", flag mayBeNull)]
def kindDump : Kind → String
  | .bool => "Bool"
  | .integer w => applied "Integer" (widthDump w)
  | .float => "Float"
  | .double => "Double"
  | .decimal p s => record "Decimal" [("precision", toString p), ("scale", toString s)]
  | .string => "String"
  | .date => "Date"
  | .timestamp => "Timestamp"
  | .interval => "Interval"
  | .usize => "USize"
  | .null => "Null"
  | .tuple fields => applied "Tuple" (listed (dumps fields))
  | .rawTuple fields => applied "RawTuple" (listed (dumps fields))
  | .zset element => applied "ZSet" (dump element)
  | .indexedZSet key value => record "IndexedZSet" [("key", dump key), ("value", dump value)]
  | .vec element => applied "Vec" (dump element)
  | .struct name fields =>
    record "Struct" [("name", quoted name), ("fields", listed (fieldDumps fields))]
  | .function params result =>
    record "Function" [("params", listed (dumps params)), ("result", dump result)]
  | .ref inner => applied "Ref" (dump inner)
  | .user name args => record "User" [("name", quoted name), ("args", listed (dumps args))]
  | .any => "Any"
def dumps : List Ty → List String
  | [] => []
  | t :: ts => dump t :: dumps ts
def fieldDumps : List (String × Ty) → List String
  | [] => []
  | (name, t) :: fs =>
    record "StructField" [("name", quoted name), ("ty", dump t)] :: fieldDumps fs
end

end ViewCircuit.Ty
