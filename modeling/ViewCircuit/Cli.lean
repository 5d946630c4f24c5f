import ViewCircuit.Circuit.Text
import ViewCircuit.Config.Load
import ViewCircuit.Json.Reader
import ViewCircuit.Pass
import ViewCircuit.Plan.Codec

/-! The command line: its options, and what a run prints. -/
namespace ViewCircuit.Cli

inductive Format where
  | text | dot | json
  deriving DecidableEq, Repr

def Format.names : List (String × Format) := [("text", .text), ("dot", .dot), ("json", .json)]

structure Options where
  plan : Option String := none
  config : Option String := none
  incrementalize : Bool := false
  noOptimize : Bool := false
  format : Option Format := none
  stats : Bool := false
  listPrimitives : Bool := false
  deriving DecidableEq, Repr

/-- What the arguments ask for. -/
inductive Request where
  | run (options : Options)
  | help
  | misuse
  deriving DecidableEq, Repr

namespace Options

/-- Sets the plan's path, which is given once and is not empty. -/
def setPlan? (o : Options) (path : String) : Option Options :=
  if o.plan.isSome || path.isEmpty then none else some { o with plan := some path }

/-- Sets a switch, which is given at most once. -/
def switch? (o : Options) : String → Option Options
  | "incrementalize" => if o.incrementalize then none else some { o with incrementalize := true }
  | "no-optimize" => if o.noOptimize then none else some { o with noOptimize := true }
  | "stats" => if o.stats then none else some { o with stats := true }
  | "list-primitives" => if o.listPrimitives then none else some { o with listPrimitives := true }
  | _ => none

/-- Sets an option that has a value and is given at most once. -/
def setValue? (o : Options) (name value : String) : Option Options :=
  match name with
  | "config" =>
    if o.config.isSome || value.isEmpty then none else some { o with config := some value }
  | "format" => do
    let format ← Format.names.lookup value
    if o.format.isSome then none else some { o with format := some format }
  | _ => none

def takesValue (name : String) : Bool := name == "config" || name == "format"

/-- An argument that starts with a dash and holds more is no value. -/
def isValue (arg : String) : Bool := arg == "-" || !arg.startsWith "-"

end Options

/-- Everything after the options' end is a path. -/
def readPaths : List String → Options → Request
  | [], o => .run o
  | path :: rest, o =>
    match o.setPlan? path with
    | some o => readPaths rest o
    | none => .misuse

/-- Reads arguments from left to right; the first fault or call for help decides. -/
def readArgs : List String → Options → Request
  | [], o => .run o
  | arg :: rest, o =>
    match arg.toList with
    | ['-', '-'] => readPaths rest o
    | '-' :: '-' :: long =>
      let name := String.ofList (long.takeWhile (· != '='))
      match long.dropWhile (· != '=') with
      | '=' :: value =>
        match o.setValue? name (String.ofList value) with
        | some o => readArgs rest o
        | none => .misuse
      | _ =>
        if name == "help" then .help
        else if Options.takesValue name then
          match rest with
          | value :: rest =>
            if Options.isValue value then
              match o.setValue? name value with
              | some o => readArgs rest o
              | none => .misuse
            else .misuse
          | [] => .misuse
        else
          match o.switch? name with
          | some o => readArgs rest o
          | none => .misuse
    | '-' :: 'h' :: _ => .help
    | '-' :: _ :: _ => .misuse
    | _ =>
      match o.setPlan? arg with
      | some o => readArgs rest o
      | none => .misuse

def helpText : String := String.intercalate "\n" [
  "Compile a relational plan into a dataflow circuit and print it",
  "",
  "Usage: deltaplan-debug [OPTIONS] [PLAN]",
  "",
  "Arguments:",
  "  [PLAN]  JSON file holding the plan",
  "",
  "Options:",
  "      --config <CONFIG>  Configuration file; defaults to deltaplan.toml and " ++
    "DELTAPLAN_* variables",
  "      --incrementalize   Produce an incremental circuit",
  "      --no-optimize      Skip the optimizer (incrementalization still runs)",
  "      --format <FORMAT>  [default: text] [possible values: text, dot, json]",
  "      --stats            Print per-pass statistics to stderr",
  "      --list-primitives  List the runtime functions the primitive table can name, then exit",
  "  -h, --help             Print help",
  ""]

/-- Why a run fails. -/
inductive Failure where
  | configFile (path : String)
  | config
  | noPlan
  | unreadable (path : String)
  | malformed (path : String)
  | rejected (name : String) (cause : CompileError)
  /-- The run breaks off before it can say why. -/
  | aborted

def Failure.message : Failure → String
  | .configFile path => "failed to load config from " ++ path
  | .config => "failed to load configuration"
  | .noPlan => "no plan file given (see --help)"
  | .unreadable path => "failed to read " ++ path
  | .malformed path => "failed to parse plan " ++ path
  | .rejected name _ => "failed to compile plan " ++ name
  | .aborted => ""

/-- What a run prints on its two channels. -/
structure Printed where
  out : String := ""
  err : String := ""
  deriving DecidableEq, Repr

def Options.loadConfig (o : Options) (world : World) : Except Failure Config := do
  let config ← match Config.load world ((o.config.map ([·])).getD Config.standardFiles) with
    | .ok c => .ok c
    | .error .refused => .error ((o.config.map .configFile).getD .config)
    | .error .aborted => .error .aborted
  let chosen := config.optimizer
  return { config with optimizer := { chosen with
    incrementalize := chosen.incrementalize || o.incrementalize
    optimize := chosen.optimize && !o.noOptimize } }

def primitiveLines : String :=
  String.join (Primitive.specializations.map fun p => p.name ++ ": " ++ p.result.text ++ "\n")

def padRight (width : Nat) (s : String) : String :=
  s ++ String.ofList (List.replicate (width - s.length) ' ')

def padLeft (width : Nat) (s : String) : String :=
  String.ofList (List.replicate (width - s.length) ' ') ++ s

def statsLine (s : PassStats) : String :=
  padRight 22 s.pass.name ++ " " ++ padLeft 5 (toString s.before) ++ " -> " ++
    padRight 5 (toString s.after) ++ " " ++ (if s.changed then "changed" else "") ++ "\n"

def parsePlan? (text : String) : Option Plan := do
  Plan.ofJson? .document (← Json.read? text)

def Options.readPlan (o : Options) (world : World) : Except Failure Plan :=
  match o.plan with
  | none => .error .noPlan
  | some path =>
    match world.files.read? path with
    | none => .error (.unreadable path)
    | some text =>
      match parsePlan? text with
      | none => .error (.malformed path)
      | some plan => .ok plan

def Options.run (o : Options) (world : World) : Except Failure Printed := do
  let config ← o.loadConfig world
  if o.listPrimitives then return { out := primitiveLines }
  let plan ← o.readPlan world
  match plan.compileFresh config.optimizer with
  | .error e => .error (.rejected plan.name e)
  | .ok (circuit, stats) =>
    return {
      out := match o.format.getD .text with
        | .text => circuit.text
        | .dot => circuit.dot
        | .json => circuit.json ++ "\n"
      err := if o.stats then String.join (stats.map statsLine) else "" }

/-- Paths that a request may read. -/
def Request.paths : Request → List String
  | .run o => o.plan.toList ++ o.config.toList ++ Config.standardFiles
  | _ => []

structure Outcome where
  code : Nat
  printed : Printed
  deriving DecidableEq, Repr

/-- The whole run of a request. -/
def Request.outcome (r : Request) (world : World) : Outcome :=
  match r with
  | .misuse => ⟨2, { err := "error: wrong arguments; for more information, try --help\n" }⟩
  | .help => ⟨0, { out := helpText }⟩
  | .run o =>
    match o.run world with
    | .ok printed => ⟨0, printed⟩
    | .error .aborted => ⟨101, {}⟩
    | .error e => ⟨1, { err := "Error: " ++ e.message ++ "\n" }⟩

def request (args : List String) : Request := readArgs args {}

end ViewCircuit.Cli
