import ViewCircuit.Circuit
import ViewCircuit.Circuit.Rebuild
import ViewCircuit.Circuit.Text
import ViewCircuit.Circuit.Visit
import ViewCircuit.Cli
import ViewCircuit.Config
import ViewCircuit.Config.Environment
import ViewCircuit.Config.Load
import ViewCircuit.Config.Setting
import ViewCircuit.Context
import ViewCircuit.Double
import ViewCircuit.Double.Shortest
import ViewCircuit.Error
import ViewCircuit.Expr
import ViewCircuit.Expr.BottomUp
import ViewCircuit.Expr.Build
import ViewCircuit.Expr.Collect
import ViewCircuit.Expr.Depth
import ViewCircuit.Expr.Normal
import ViewCircuit.Expr.Reduce
import ViewCircuit.Expr.Simplify
import ViewCircuit.Expr.Text
import ViewCircuit.Json
import ViewCircuit.Json.Reader
import ViewCircuit.Json.Writer
import ViewCircuit.Main
import ViewCircuit.Names
import ViewCircuit.Operator
import ViewCircuit.Operator.Build
import ViewCircuit.Operator.Text
import ViewCircuit.Pass
import ViewCircuit.Pass.Distinct
import ViewCircuit.Pass.Functions
import ViewCircuit.Pass.Incremental
import ViewCircuit.Pass.Live
import ViewCircuit.Plan
import ViewCircuit.Plan.Circuit
import ViewCircuit.Plan.Codec
import ViewCircuit.Plan.Dump
import ViewCircuit.Plan.Fold
import ViewCircuit.Plan.ScalarExpr
import ViewCircuit.Plan.Stream
import ViewCircuit.Primitive
import ViewCircuit.Proofs.Accumulate
import ViewCircuit.Proofs.Approx
import ViewCircuit.Proofs.Balanced
import ViewCircuit.Proofs.Binders
import ViewCircuit.Proofs.Binding
import ViewCircuit.Proofs.Bracket
import ViewCircuit.Proofs.BottomUp
import ViewCircuit.Proofs.Changes
import ViewCircuit.Proofs.Coincidence
import ViewCircuit.Proofs.Collect
import ViewCircuit.Proofs.Compile
import ViewCircuit.Proofs.Complete
import ViewCircuit.Proofs.Condition
import ViewCircuit.Proofs.Conformance
import ViewCircuit.Proofs.Construct
import ViewCircuit.Proofs.Declaration
import ViewCircuit.Proofs.DeclaredType
import ViewCircuit.Proofs.Draws
import ViewCircuit.Proofs.Elision
import ViewCircuit.Proofs.Engine
import ViewCircuit.Proofs.Eval
import ViewCircuit.Proofs.FirstOrder
import ViewCircuit.Proofs.Folds
import ViewCircuit.Proofs.FreeVariables
import ViewCircuit.Proofs.Functions
import ViewCircuit.Proofs.Grouping
import ViewCircuit.Proofs.Head
import ViewCircuit.Proofs.Idempotent
import ViewCircuit.Proofs.Incremental
import ViewCircuit.Proofs.Join
import ViewCircuit.Proofs.Liveness
import ViewCircuit.Proofs.Lowering
import ViewCircuit.Proofs.Multiset
import ViewCircuit.Proofs.Names
import ViewCircuit.Proofs.Nonnegative
import ViewCircuit.Proofs.Normal
import ViewCircuit.Proofs.NormalForm
import ViewCircuit.Proofs.Normalized
import ViewCircuit.Proofs.NullTypes
import ViewCircuit.Proofs.Numbers
import ViewCircuit.Proofs.Occurrences
import ViewCircuit.Proofs.OnePass
import ViewCircuit.Proofs.OuterJoin
import ViewCircuit.Proofs.Pairs
import ViewCircuit.Proofs.Pipeline
import ViewCircuit.Proofs.Plan
import ViewCircuit.Proofs.Positive
import ViewCircuit.Proofs.Pruning
import ViewCircuit.Proofs.Rebuild
import ViewCircuit.Proofs.Redex
import ViewCircuit.Proofs.Reduce
import ViewCircuit.Proofs.Related
import ViewCircuit.Proofs.Relations
import ViewCircuit.Proofs.Resting
import ViewCircuit.Proofs.RoundTrip
import ViewCircuit.Proofs.Rows
import ViewCircuit.Proofs.Rules
import ViewCircuit.Proofs.Run
import ViewCircuit.Proofs.Scalar
import ViewCircuit.Proofs.ScalarType
import ViewCircuit.Proofs.ScalarValue
import ViewCircuit.Proofs.Scope
import ViewCircuit.Proofs.ScopeHistory
import ViewCircuit.Proofs.SetOperations
import ViewCircuit.Proofs.Settled
import ViewCircuit.Proofs.Simplify
import ViewCircuit.Proofs.SimplyTyped
import ViewCircuit.Proofs.Sinks
import ViewCircuit.Proofs.Soundness
import ViewCircuit.Proofs.Sql
import ViewCircuit.Proofs.Stream
import ViewCircuit.Proofs.Termination
import ViewCircuit.Proofs.Totals
import ViewCircuit.Proofs.Traversal
import ViewCircuit.Proofs.Typing
import ViewCircuit.Proofs.Value
import ViewCircuit.Proofs.Views
import ViewCircuit.Proofs.Visit
import ViewCircuit.Proofs.WellFormed
import ViewCircuit.Proofs.Window
import ViewCircuit.Proofs.ZSet
import ViewCircuit.Scope
import ViewCircuit.Text.Blank
import ViewCircuit.Text.Dump
import ViewCircuit.Text.Escape
import ViewCircuit.Text.Quoted
import ViewCircuit.Text.Unprinted
import ViewCircuit.Toml.Date
import ViewCircuit.Toml.Document
import ViewCircuit.Toml.Value
import ViewCircuit.Toml.Writer
import ViewCircuit.Ty
import ViewCircuit.Ty.Codec
import ViewCircuit.Ty.Dump
