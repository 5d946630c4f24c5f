import ViewCircuit.Expr.Text
import ViewCircuit.Operator

/-! One line of a circuit listing. -/
namespace ViewCircuit.Operator

/-- Input streams and expressions of an operator, as they stand between its brackets. -/
def arguments (op : Operator) : List String :=
  let inputs := op.inputs.map Operator.name
  match op.kind with
  | .source table => [Text.quoted table]
  | .sink view => [Text.quoted view, inputs.headD "?"]
  | .windowAggregate window fold => inputs ++ [window.text, fold.text]
  | kind => inputs ++ (kind.function?.map Expr.text).toList

def text (op : Operator) : String :=
  "let " ++ op.name ++ ": " ++ op.ty.text ++ " = " ++ op.operation ++ "(" ++
    Ty.commas op.arguments ++ ")"

end ViewCircuit.Operator
