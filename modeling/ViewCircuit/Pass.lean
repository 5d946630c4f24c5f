import ViewCircuit.Config
import ViewCircuit.Pass.Functions
import ViewCircuit.Pass.Incremental
import ViewCircuit.Plan.Circuit

/-! The passes over a circuit, the pipeline of a configuration, and compilation as a whole. -/
namespace ViewCircuit

inductive Pass where
  | distinctElision | incrementalize | incrementalCleanup | deadCode | noIntegral | normalFunctions
  deriving DecidableEq, Repr

namespace Pass

def name : Pass → String
  | .distinctElision => "distinct_elision"
  | .incrementalize => "incrementalize"
  | .incrementalCleanup => "incremental_cleanup"
  | .deadCode => "dead_code"
  | .noIntegral => "no_integral"
  | .normalFunctions => "function_rewrite"

def all : List Pass :=
  [.distinctElision, .incrementalize, .incrementalCleanup, .deadCode, .noIntegral, .normalFunctions]

def ofName? (name : String) : Option Pass := all.find? fun p => p.name == name

def apply : Pass → Circuit → Compile Circuit
  | .distinctElision => Circuit.elideDistincts
  | .incrementalize => Circuit.incrementalize
  | .incrementalCleanup => Circuit.pushIntegrals
  | .deadCode => Circuit.prune
  | .noIntegral => Circuit.cancelIntegrals
  | .normalFunctions => Circuit.normalizeFunctions

end Pass

/-- What one pass did to a circuit. -/
structure PassStats where
  pass : Pass
  before : Nat
  after : Nat
  changed : Bool
  deriving DecidableEq, Repr

/-- The passes of a configuration, in order. -/
def OptimizerConfig.pipeline (c : OptimizerConfig) : List Pass :=
  let only (b : Bool) (p : Pass) := if b then [p] else []
  only c.optimize .distinctElision ++
  only c.incrementalize .incrementalize ++
  only (c.incrementalize && c.optimize) .incrementalCleanup ++
  only c.optimize .deadCode ++
  only (c.optimize && c.incrementalize) .noIntegral ++
  only (c.optimize && c.simplifyFunctions) .normalFunctions

namespace Circuit

/-- Runs passes one after another and reports on each. -/
def optimize (c : Circuit) : List Pass → Compile (Circuit × List PassStats)
  | [] => return (c, [])
  | p :: ps => do
    let next ← p.apply c
    let stats : PassStats := ⟨p, c.size, next.size, !next.sameOperators c⟩
    let (last, rest) ← next.optimize ps
    return (last, stats :: rest)

end Circuit

/-- The circuit of a plan after the passes of a configuration. -/
def Plan.compile (p : Plan) (config : OptimizerConfig) : Compile (Circuit × List PassStats) := do
  (← p.circuit).optimize config.pipeline

/-- A compilation from an empty context. -/
def Plan.compileFresh (p : Plan) (config : OptimizerConfig) :
    Except CompileError (Circuit × List PassStats) :=
  ((p.compile config).run Context.empty).1

end ViewCircuit
