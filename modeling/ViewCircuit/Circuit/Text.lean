import ViewCircuit.Circuit.Visit
import ViewCircuit.Json.Writer
import ViewCircuit.Operator.Text
import ViewCircuit.Ty.Codec

/-! Three renderings of a circuit: a listing, a graph and a summary. -/
namespace ViewCircuit

namespace Circuit

/-- The listing, one operator a line. -/
def text (c : Circuit) : String :=
  let declared := c.declarations.map fun d => "    struct " ++ d.text ++ ";\n"
  let listed := c.operators.map fun op => "    " ++ op.text ++ ";\n"
  "circuit " ++ c.name ++ " \x7b\n" ++ String.join (declared ++ listed) ++ "\x7d"

/-- A label inside quotes of the graph language. -/
def label (s : String) : String :=
  String.ofList (s.toList.flatMap fun c => if c = '\\' ∨ c = '\"' then ['\\', c] else [c])

/-- The graph of the circuit: a box for each operator and an edge for each input. -/
def graphVisitor : Visitor String where
  start c out := out ++ "digraph " ++ c.name ++ " \x7b\n"
  enter op out :=
    let box := "  " ++ op.name ++ " [ shape=box,label=\"" ++ label op.text ++ "\" ]\n"
    let edges := op.inputs.map fun i => "  " ++ i.name ++ " -> " ++ op.name ++ ";\n"
    (false, out ++ box ++ String.join edges)
  leave _ out := out
  finish _ out := out ++ "\x7d\n"

def dot (c : Circuit) : String := c.accept graphVisitor ""

end Circuit

/-- The summary of one operator; absent parts are left out. -/
def Operator.summary (op : Operator) : Json :=
  let relation := match op.kind with
    | .source table => [("relation", Json.str table)]
    | .sink view => [("relation", Json.str view)]
    | _ => []
  let function := match op.kind with
    | .windowAggregate window fold => [("function", Json.str (window.text ++ ", " ++ fold.text))]
    | kind => (kind.function?.map fun f => ("function", Json.str f.text)).toList
  .obj ([("name", .str op.name), ("operation", .str op.operation)] ++ relation ++
    [("inputs", .ofStrings (op.inputs.map Operator.name)), ("output_type", op.ty.toJson)] ++
    function ++ [("multiset", .bool op.isMultiset)])

namespace Circuit

def summary (c : Circuit) : Json :=
  .obj [("name", .str c.name), ("sources", .arr (c.sources.map Operator.summary)),
    ("operators", .arr (c.interior.map Operator.summary)),
    ("sinks", .arr (c.sinks.map Operator.summary))]

def json (c : Circuit) : String := c.summary.pretty 0

end Circuit
end ViewCircuit
