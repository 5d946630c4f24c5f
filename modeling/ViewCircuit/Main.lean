import ViewCircuit.Cli

/-! The program: reads the files and variables that matter, runs, and prints. -/
namespace ViewCircuit.Cli

/-- The files among the paths that can be read. -/
def readFiles (paths : List String) : IO Files := do
  let found ← paths.mapM fun (path : String) => do
    try
      return some (path, ← IO.FS.readFile path)
    catch _ =>
      return none
  return found.filterMap id

def readVariables (names : List String) : IO (List (String × String)) := do
  let found ← names.mapM fun (name : String) => do
    return (← IO.getEnv name).map (name, ·)
  return found.filterMap id

def perform (request : Request) : IO UInt32 := do
  let world : World := ⟨← readFiles request.paths, ← readVariables Config.variableNames⟩
  let outcome := request.outcome world
  IO.eprint outcome.printed.err
  IO.print outcome.printed.out
  return outcome.code.toUInt32

end ViewCircuit.Cli

def main (args : List String) : IO UInt32 :=
  ViewCircuit.Cli.perform (ViewCircuit.Cli.request args)
