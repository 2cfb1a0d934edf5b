import Packrat.CommandLine.Folder
import Packrat.Main
import Packrat.Proofs.BuiltGrammar
import Packrat.Proofs.Runs
import Packrat.Proofs.Trees
import Packrat.Proofs.Evaluation
import Packrat.Proofs.Matching
import Packrat.Proofs.Parsing
import Packrat.Proofs.Depth
import Packrat.Proofs.Tiling
import Packrat.Proofs.Derivation
import Packrat.Proofs.PlainMatching
import Packrat.Proofs.Transparency
import Packrat.Proofs.Probes
import Packrat.Proofs.ErrorReports
import Packrat.Proofs.LeftRecursion
import Packrat.Proofs.Growth
import Packrat.Proofs.Delimiters
import Packrat.Proofs.ErrorPlacement
import Packrat.Proofs.DelimitedParses
import Packrat.Proofs.NestedGrowth
import Packrat.Proofs.Lexemes
import Packrat.Proofs.Operands
import Packrat.Proofs.RoundTrip
import Packrat.Proofs.Canonical
import Packrat.Proofs.Rereading
import Packrat.Proofs.Counters
import Packrat.Proofs.Projection
import Packrat.Proofs.Strictness
import Packrat.Proofs.Switching
import Packrat.Proofs.CleanTrees
import Packrat.Proofs.Refusals
import Packrat.Proofs.Translation
import Packrat.Proofs.Plausibility
import Packrat.Proofs.RenumberedRuns
import Packrat.Proofs.RuleOrder
import Packrat.Proofs.LiteralSkips
import Packrat.Proofs.Foreseen
import Packrat.Proofs.GarbledParses
import Packrat.Proofs.ScatteredCopies
import Packrat.Proofs.Retention
import Packrat.Proofs.Layout
import Packrat.Proofs.Verdicts
import Packrat.Proofs.Legibility
import Packrat.Proofs.CallOrder
import Packrat.Proofs.WorkBound
import Packrat.Proofs.Copies
import Packrat.Proofs.Discovery
import Packrat.Proofs.OneOrMore
import Packrat.Proofs.TreeJson
import Packrat.Proofs.Courses
import Packrat.Proofs.Locality
import Packrat.Proofs.Moments
import Packrat.Proofs.TidyCharts
import Packrat.Proofs.Separation
import Packrat.Proofs.RangeChecks
