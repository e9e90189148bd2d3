import PseudoCost.Text
import PseudoCost.Text.Glyph
import PseudoCost.Text.Letter
import PseudoCost.Text.Composition
import PseudoCost.Number.Exact
import PseudoCost.Number.Rounding
import PseudoCost.Number.Numeral
import PseudoCost.Number.Scalar
import PseudoCost.Number.Double
import PseudoCost.Token
import PseudoCost.Token.Lexer
import PseudoCost.Token.Cursor
import PseudoCost.Token.Stream
import PseudoCost.Expr
import PseudoCost.Program
import PseudoCost.Expr.Printer
import PseudoCost.Program.Outline
import PseudoCost.Program.Geometry
import PseudoCost.Token.Reading
import PseudoCost.Expr.Reading
import PseudoCost.Program.Reading
import PseudoCost.Growth
import PseudoCost.Loop
import PseudoCost.LineCost
import PseudoCost.CallGraph
import PseudoCost.Recurrence.SizeChange
import PseudoCost.Recurrence
import PseudoCost.Recurrence.Paths
import PseudoCost.Cost
import PseudoCost.Recurrence.Master
import PseudoCost.Recurrence.Characteristic
import PseudoCost.Cost.Structural
import PseudoCost.Recurrence.Derivation
import PseudoCost.Recurrence.Solution
import PseudoCost.Recurrence.CallTree
import PseudoCost.Report
import PseudoCost.JsonValue
import PseudoCost.JsonWriter
import PseudoCost.Report.Json
import PseudoCost.Report.Summary
import PseudoCost.Metrics
import PseudoCost.Metrics.Probe
import PseudoCost.Analysis
import PseudoCost.Diagnostic
import PseudoCost.CommandLine
import PseudoCost.CommandLine.Session
import PseudoCost.Main
import PseudoCost.Proofs.Reachability
import PseudoCost.Proofs.Calls
import PseudoCost.Proofs.Costing
import PseudoCost.Proofs.Transparency
import PseudoCost.Proofs.Operations
import PseudoCost.Proofs.Reals
import PseudoCost.Proofs.GrowthOrder
import PseudoCost.Proofs.Patterns
import PseudoCost.Proofs.CaseOrder
import PseudoCost.Proofs.CalleeBound
import PseudoCost.Proofs.MasterTheorem
import PseudoCost.Proofs.LinearRecurrence
import PseudoCost.Proofs.Glyphs
import PseudoCost.Proofs.Tiling
import PseudoCost.Proofs.Rendering
import PseudoCost.Proofs.ReadingRules
import PseudoCost.Proofs.ExprReading
import PseudoCost.Proofs.StatementReading
import PseudoCost.Proofs.ProgramReading
import PseudoCost.Proofs.Forward
import PseudoCost.Proofs.Lockstep
import PseudoCost.Proofs.LockstepExpr
import PseudoCost.Proofs.LockstepStmt
import PseudoCost.Proofs.LockstepProgram
import PseudoCost.Proofs.RelaxedConditional
import PseudoCost.Proofs.SolverAgreement
import PseudoCost.Proofs.LocalCost
import PseudoCost.Proofs.LargestLine
import PseudoCost.Proofs.WeightedCosts
import PseudoCost.Proofs.UnreachableProcedures
import PseudoCost.Proofs.RenamedCosts
import PseudoCost.Proofs.JsonReading
import PseudoCost.Proofs.JsonWriting
import PseudoCost.Proofs.ReportReading
import PseudoCost.Proofs.OwnWork
import PseudoCost.Proofs.ReadingFailures
import PseudoCost.Proofs.SourceErrors
import PseudoCost.Proofs.BoundedSearches
import PseudoCost.Proofs.CheckedSolver
import PseudoCost.Proofs.CheckedStages
import PseudoCost.Proofs.CheckedAnalysis
import PseudoCost.Proofs.Scripts
import PseudoCost.Proofs.ReadingBounds
import PseudoCost.Proofs.ScriptedReading
import PseudoCost.Proofs.ErrorPrefix
import PseudoCost.Proofs.Concatenation
import PseudoCost.Proofs.Scanning
import PseudoCost.Proofs.Utf8
import PseudoCost.Proofs.LineComposition
import PseudoCost.Proofs.Folding
import PseudoCost.Proofs.CanonicalText
import PseudoCost.Proofs.TakenTokens
import PseudoCost.Proofs.ExprGrammar
import PseudoCost.Proofs.ExprCompleteness
import PseudoCost.Proofs.Precedence
import PseudoCost.Proofs.StmtGrammar
import PseudoCost.Proofs.ProgramGrammar
import PseudoCost.Proofs.TokenCounts
import PseudoCost.Proofs.Intervals
import PseudoCost.Proofs.NumberText
import PseudoCost.Proofs.PrintedTokens
import PseudoCost.Proofs.PhraseParts
import PseudoCost.Proofs.PrintedReading
import PseudoCost.Proofs.CallChains
import PseudoCost.Proofs.DoubleDistance
import PseudoCost.Proofs.ExecutionPaths
import PseudoCost.Proofs.LoopControl
import PseudoCost.Proofs.WorstPath
import PseudoCost.Proofs.PathValues
import PseudoCost.Proofs.NearestSelfCaller
import PseudoCost.Proofs.RepeatedNames
import PseudoCost.Proofs.BuiltinStatements
import PseudoCost.Proofs.BranchedLoops
import PseudoCost.Proofs.TreeLevels
import PseudoCost.Proofs.Assumptions
import PseudoCost.Proofs.LineWalk
import PseudoCost.Proofs.LineRows
import PseudoCost.Proofs.ConstantOffsets
import PseudoCost.Proofs.GrowthAlgebra
import PseudoCost.Proofs.Resolving
import PseudoCost.Proofs.Bisection
import PseudoCost.Proofs.ArgumentOrder
import PseudoCost.Proofs.MeasuredRuns
