import ViewCircuit.Config.Environment
import ViewCircuit.Toml.Document
import ViewCircuit.Toml.Writer

/-! Loading a configuration: each file over the one before, and the environment over them all. -/
namespace ViewCircuit

/-- Files by their path. -/
abbrev Files := List (String × String)

namespace Files

/-- The parts of a path below the working directory; `none` where no file can be meant. -/
def parts? (path : String) : Option (List String) :=
  let parts := path.splitOn "/"
  match parts.getLast? with
  | none | some "" | some "." => none
  | _ =>
    let later := parts.tail.filter fun p => p != "" && p != "."
    some (parts.head?.toList.filter (· != ".") ++ later)

def read? (files : Files) (path : String) : Option String := do
  let parts ← parts? path
  (files.find? fun f => parts? f.1 == some parts).map Prod.snd

end Files

/-- What a program can see of its surroundings. -/
structure World where
  files : Files := []
  environment : List (String × String) := []

namespace Config

def toSetting (c : Config) : Setting :=
  .table [
    ("optimizer", .table [("incrementalize", .flag c.optimizer.incrementalize),
      ("simplify_functions", .flag c.optimizer.simplifyFunctions),
      ("optimize", .flag c.optimizer.optimize)]),
    ("logging", .table [("level", .text c.logging.level), ("format", .text c.logging.format)])]

/-- The files of the working directory that are looked for. -/
def standardFiles : List String := ["deltaplan.toml", "deltaplan.local.toml"]

/-- The variables that set something. -/
def variableNames : List String :=
  let within (group : String) (names : List String) : List String :=
    (group :: names.map (group ++ "__" ++ ·)).map ("DELTAPLAN_" ++ ·.map Char.toUpper)
  within "optimizer" OptimizerConfig.fields ++ within "logging" LoggingConfig.fields

/-- The settings of the files, each over those before it. A missing file sets nothing. -/
def layered (files : Files) (paths : List String) : Option Setting :=
  paths.foldlM (fun done path =>
    match files.read? path with
    | none => some done
    | some text => (Toml.parse? text).map (·.onto done)) (toSetting {})

def ofToml? (text : String) : Option Config := do
  ofSetting? ((← Toml.parse? text).onto (toSetting {}))

/-- Why no configuration is loaded. -/
inductive LoadError where
  /-- A file or a setting is malformed. -/
  | refused
  /-- A variable breaks off the run. -/
  | aborted
  deriving DecidableEq, Repr

def load (world : World) (paths : List String) : Except LoadError Config :=
  match Environment.settings world.environment with
  | .error _ => .error .aborted
  | .ok above =>
    match (layered world.files paths).bind fun below => ofSetting? (above.onto below) with
    | some c => .ok c
    | none => .error .refused

def toToml (c : Config) : String :=
  let flag (b : Bool) := if b then "true" else "false"
  String.intercalate "\n" [
    "[optimizer]",
    "incrementalize = " ++ flag c.optimizer.incrementalize,
    "simplify_functions = " ++ flag c.optimizer.simplifyFunctions,
    "optimize = " ++ flag c.optimizer.optimize,
    "",
    "[logging]",
    "level = " ++ Toml.string c.logging.level,
    "format = " ++ Toml.string c.logging.format,
    ""]

end Config
end ViewCircuit
