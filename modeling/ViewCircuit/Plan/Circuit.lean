import ViewCircuit.Plan.Stream

/-! The circuit of a plan: a source for each table and a sink for each view, over whole
relations. -/
namespace ViewCircuit.Plan

open Lower

/-- Streams by relation name. -/
abbrev Relations := List (String × Operator)

def addTableStream (relations : Relations) (t : Table) : Lower Relations := do
  if (relations.lookup t.name).isSome then check (fault (.tableTwice t.name))
  else
    let source ← emit (Operator.source t.name (Ty.tuple t.rowTypes) t.primaryKey.isEmpty)
    return relations ++ [(t.name, source)]

def addViewStream (relations : Relations) (v : View) : Lower Relations := do
  if (relations.lookup v.name).isSome then check (fault (.viewCollides v.name))
  else
    let output ← v.query.stream relations
    let _ ← emit (Operator.sink v.name output)
    return relations ++ [(v.name, output)]

def circuit (p : Plan) : Compile Circuit := do
  let build : Lower Unit := do
    let tables ← p.tables.foldlM addTableStream []
    let _ ← p.views.foldlM addViewStream tables
    return ()
  let (_, c) ← build.run (Circuit.empty p.name)
  return c

end ViewCircuit.Plan
