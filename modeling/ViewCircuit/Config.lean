import ViewCircuit.Json
import ViewCircuit.Text.Blank

/-! Settings of the compiler and their JSON form. -/
namespace ViewCircuit

structure OptimizerConfig where
  /-- Consume and produce changes instead of whole relations. -/
  incrementalize : Bool := false
  simplifyFunctions : Bool := true
  /-- Without it only the step to changes is made. -/
  optimize : Bool := true
  deriving DecidableEq, Repr

structure LoggingConfig where
  level : String := "info"
  format : String := "text"
  deriving DecidableEq, Repr

structure Config where
  optimizer : OptimizerConfig := {}
  logging : LoggingConfig := {}
  deriving DecidableEq, Repr

namespace OptimizerConfig

def incremental : OptimizerConfig := { incrementalize := true }

def fields : List String := ["incrementalize", "simplify_functions", "optimize"]

def toJson (c : OptimizerConfig) : Json :=
  .obj [("incrementalize", .bool c.incrementalize),
    ("simplify_functions", .bool c.simplifyFunctions), ("optimize", .bool c.optimize)]

def ofJson? (j : Json) : Option OptimizerConfig := do
  return {
    incrementalize := ← j.fieldD? fields "incrementalize" false Json.bool?
    simplifyFunctions := ← j.fieldD? fields "simplify_functions" true Json.bool?
    optimize := ← j.fieldD? fields "optimize" true Json.bool? }

end OptimizerConfig

namespace LoggingConfig

def fields : List String := ["level", "format"]

def toJson (c : LoggingConfig) : Json :=
  .obj [("level", .str c.level), ("format", .str c.format)]

def ofJson? (j : Json) : Option LoggingConfig := do
  return {
    level := ← j.fieldD? fields "level" "info" Json.str?
    format := ← j.fieldD? fields "format" "text" Json.str? }

/-- What decides which events are logged: the variable when it is not blank, else the level. -/
def directive (c : LoggingConfig) (override : Option String) : String :=
  match override with
  | some v => if v.toList.all Text.isBlank then c.level else v
  | none => c.level

end LoggingConfig

namespace Config

def fields : List String := ["optimizer", "logging"]

def toJson (c : Config) : Json :=
  .obj [("optimizer", c.optimizer.toJson), ("logging", c.logging.toJson)]

def ofJson? (j : Json) : Option Config := do
  return {
    optimizer := ← j.fieldD? fields "optimizer" {} OptimizerConfig.ofJson?
    logging := ← j.fieldD? fields "logging" {} LoggingConfig.ofJson? }

end Config
end ViewCircuit
