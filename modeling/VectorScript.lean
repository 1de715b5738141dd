import VectorScript.Builtin
import VectorScript.Builtin.Arrangement
import VectorScript.Builtin.Catalog
import VectorScript.Builtin.Elementwise
import VectorScript.Builtin.Geometry
import VectorScript.Builtin.Statistics
import VectorScript.Command
import VectorScript.Command.Arguments
import VectorScript.Context
import VectorScript.Dependency
import VectorScript.Dependency.Graph
import VectorScript.EvalError
import VectorScript.Evaluation
import VectorScript.Expr
import VectorScript.Expr.Parser
import VectorScript.Main
import VectorScript.Meaning
import VectorScript.Meaning.Access
import VectorScript.Meaning.ArrayLiteral
import VectorScript.Meaning.BuiltinCall
import VectorScript.Meaning.Comprehension
import VectorScript.Meaning.Elementwise
import VectorScript.Meaning.Range
import VectorScript.Meaning.Segments
import VectorScript.NameTable
import VectorScript.Nesting
import VectorScript.Proofs.ArrayLimits
import VectorScript.Proofs.BalancedTokens
import VectorScript.Proofs.BroadcastFolds
import VectorScript.Proofs.Broadcasting
import VectorScript.Proofs.CarefulEvaluation
import VectorScript.Proofs.CheckedCollections
import VectorScript.Proofs.CheckedEvaluation
import VectorScript.Proofs.CheckedReads
import VectorScript.Proofs.Concatenation
import VectorScript.Proofs.CountedLengths
import VectorScript.Proofs.CycleFreedom
import VectorScript.Proofs.DependencySearch
import VectorScript.Proofs.EarlierRequests
import VectorScript.Proofs.ErrorSites
import VectorScript.Proofs.EvaluationCases
import VectorScript.Proofs.EvaluationSteps
import VectorScript.Proofs.ExprForms
import VectorScript.Proofs.FixedShapes
import VectorScript.Proofs.Following
import VectorScript.Proofs.FollowingEvaluation
import VectorScript.Proofs.FollowingNodes
import VectorScript.Proofs.Foretelling
import VectorScript.Proofs.ForetellingCollections
import VectorScript.Proofs.ForetellingComprehensions
import VectorScript.Proofs.ForetellingExpressions
import VectorScript.Proofs.ForetellingNodes
import VectorScript.Proofs.ForetellingSteps
import VectorScript.Proofs.FreeNames
import VectorScript.Proofs.FreeOccurrences
import VectorScript.Proofs.GraphLaws
import VectorScript.Proofs.Guarded
import VectorScript.Proofs.GuardedMemory
import VectorScript.Proofs.HigherLimits
import VectorScript.Proofs.Invalidation
import VectorScript.Proofs.KeptElements
import VectorScript.Proofs.KernelErrors
import VectorScript.Proofs.KernelLaws
import VectorScript.Proofs.LengthBounds
import VectorScript.Proofs.LinkedScopes
import VectorScript.Proofs.LiteralValues
import VectorScript.Proofs.LoneItems
import VectorScript.Proofs.MatchedBrackets
import VectorScript.Proofs.NarrowedRequests
import VectorScript.Proofs.Noninterference
import VectorScript.Proofs.ParserForms
import VectorScript.Proofs.PartialRequests
import VectorScript.Proofs.PlacedTokens
import VectorScript.Proofs.PlacelessReading
import VectorScript.Proofs.PrintedStatements
import VectorScript.Proofs.QuantilePositions
import VectorScript.Proofs.ReachedLengths
import VectorScript.Proofs.ReadingOrder
import VectorScript.Proofs.Redefinition
import VectorScript.Proofs.Refusals
import VectorScript.Proofs.ReportedCycles
import VectorScript.Proofs.RequestEffects
import VectorScript.Proofs.Rounding
import VectorScript.Proofs.ScalarReads
import VectorScript.Proofs.ScalarText
import VectorScript.Proofs.ScriptLines
import VectorScript.Proofs.SegmentCalls
import VectorScript.Proofs.SegmentLaws
import VectorScript.Proofs.SeriesText
import VectorScript.Proofs.SessionRuns
import VectorScript.Proofs.SessionTables
import VectorScript.Proofs.SessionUpdates
import VectorScript.Proofs.SettledMemory
import VectorScript.Proofs.ShapeRules
import VectorScript.Proofs.Simulation
import VectorScript.Proofs.SimulationEvaluation
import VectorScript.Proofs.SimulationMemory
import VectorScript.Proofs.SimulationNodes
import VectorScript.Proofs.Snippets
import VectorScript.Proofs.Sorting
import VectorScript.Proofs.SourceTiling
import VectorScript.Proofs.SuccessfulRuns
import VectorScript.Proofs.Termination
import VectorScript.Proofs.TokenSpans
import VectorScript.Proofs.TotalOrder
import VectorScript.Proofs.Unrolling
import VectorScript.Scalar.Basic
import VectorScript.Scalar.Decimal
import VectorScript.Scalar.Functions
import VectorScript.Scope
import VectorScript.Series
import VectorScript.Series.Builder
import VectorScript.Session
import VectorScript.Settings
import VectorScript.Shape
import VectorScript.Span
import VectorScript.Statement
import VectorScript.Statement.Brackets
import VectorScript.Statement.Parser
import VectorScript.SyntaxError
import VectorScript.Token
import VectorScript.Token.Piece
