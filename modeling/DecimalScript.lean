import DecimalScript.Benchmark.Basic
import DecimalScript.Benchmark.Coverage
import DecimalScript.Benchmark.Datum
import DecimalScript.Benchmark.Fingerprint
import DecimalScript.Benchmark.History
import DecimalScript.Benchmark.Measure
import DecimalScript.Benchmark.Place
import DecimalScript.Benchmark.SelfCheck
import DecimalScript.Benchmark.Share
import DecimalScript.Benchmark.Verdict
import DecimalScript.Benchmark.Workload
import DecimalScript.Binary64.Arithmetic
import DecimalScript.Binary64.Basic
import DecimalScript.Binary64.Function
import DecimalScript.Binary64.Text
import DecimalScript.CommandLine.Arguments
import DecimalScript.CommandLine.Folder
import DecimalScript.CommandLine.Override
import DecimalScript.CommandLine.Run
import DecimalScript.Decimal.Arithmetic
import DecimalScript.Decimal.Basic
import DecimalScript.Decimal.Power
import DecimalScript.Decimal.Rounding
import DecimalScript.Decimal.Text
import DecimalScript.Digest.Sha256
import DecimalScript.Document.Basic
import DecimalScript.Document.Reader
import DecimalScript.Env
import DecimalScript.Eval.Function
import DecimalScript.Eval.Loop
import DecimalScript.Eval.Number
import DecimalScript.Eval.State
import DecimalScript.Eval.Term
import DecimalScript.Eval.Trace
import DecimalScript.Fault
import DecimalScript.Grammar.Lexeme
import DecimalScript.Grammar.Parse
import DecimalScript.Grammar.Program
import DecimalScript.Grammar.Rules
import DecimalScript.Main
import DecimalScript.Session
import DecimalScript.Term.Basic
import DecimalScript.Term.OfTree
import DecimalScript.Text.Blank
import DecimalScript.Text.Digit
import DecimalScript.Text.Line
import DecimalScript.Text.Quoted
import DecimalScript.Text.Shown
import DecimalScript.Tree.Basic
import DecimalScript.Tree.Outline
import DecimalScript.Value
import DecimalScript.Proofs.Calculation
import DecimalScript.Proofs.Reading
import DecimalScript.Proofs.Frame
import DecimalScript.Proofs.Exits
import DecimalScript.Proofs.Course
import DecimalScript.Proofs.Layer
import DecimalScript.Proofs.LoopStack
import DecimalScript.Proofs.Rules
import DecimalScript.Proofs.Regular
import DecimalScript.Proofs.Agreement
import DecimalScript.Proofs.Origin
import DecimalScript.Proofs.Containment
import DecimalScript.Proofs.Finite
import DecimalScript.Proofs.Double
import DecimalScript.Proofs.Standard
import DecimalScript.Proofs.StandardPreservation
import DecimalScript.Proofs.Environment
import DecimalScript.Proofs.NumericIndependence
import DecimalScript.Proofs.TwoRunRules
import DecimalScript.Proofs.TwoRunEvaluation
import DecimalScript.Proofs.TwoRunRelations
import DecimalScript.Proofs.Footprint
import DecimalScript.Proofs.Visibility
import DecimalScript.Proofs.Tracing
import DecimalScript.Proofs.Definedness
import DecimalScript.Proofs.Exact
import DecimalScript.Proofs.Remainder
import DecimalScript.Proofs.Power
import DecimalScript.Proofs.Literal
import DecimalScript.Proofs.PowerRemainder
import DecimalScript.Proofs.ReadBack
import DecimalScript.Proofs.Spans
import DecimalScript.Proofs.Precedence
import DecimalScript.Proofs.Whole
import DecimalScript.Proofs.Identifier
import DecimalScript.Proofs.Precision
import DecimalScript.Proofs.Relocation
import DecimalScript.Proofs.Displacement
import DecimalScript.Proofs.Reports
import DecimalScript.Proofs.Printing
import DecimalScript.Proofs.Nesting
import DecimalScript.Proofs.Locality
import DecimalScript.Proofs.Crossing
import DecimalScript.Proofs.Succession
import DecimalScript.Proofs.Splitting
import DecimalScript.Proofs.Units
import DecimalScript.Proofs.Summation
import DecimalScript.Proofs.Modulus
import DecimalScript.Proofs.Trips
import DecimalScript.Proofs.Halves
import DecimalScript.Proofs.DoubleRounding
import DecimalScript.Proofs.Products
import DecimalScript.Proofs.Advance
import DecimalScript.Proofs.Clauses
import DecimalScript.Proofs.WholePower
import DecimalScript.Proofs.Law
import DecimalScript.Proofs.PrecisionCall
import DecimalScript.Proofs.Landmark
import DecimalScript.Proofs.Culprit
import DecimalScript.Proofs.Resumption
import DecimalScript.Proofs.Refusal
import DecimalScript.Proofs.StandardAlongCourse
import DecimalScript.Proofs.Legibility
import DecimalScript.Proofs.Placement
import DecimalScript.Proofs.Announcement
import DecimalScript.Proofs.Margin
import DecimalScript.Proofs.Padding
import DecimalScript.Proofs.Conjunction
import DecimalScript.Proofs.Compound
import DecimalScript.Proofs.Overrides
import DecimalScript.Proofs.Separation
import DecimalScript.Proofs.EntryOrder
