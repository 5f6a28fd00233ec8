import DecimalScript.Benchmark.Basic
import DecimalScript.Document.Basic

/-! Running all benchmarks once while the covered lines are recorded. -/

namespace DecimalScript.Benchmark

structure CoverageSettings where
  source : List String
  leftOut : List String
  branch : Bool
  deriving DecidableEq, Repr

/-- The lines of the project, without those of the files that are left out. -/
def CoverageSettings.standard (leftOut : List String) : CoverageSettings :=
  ⟨["/repo"], leftOut, false⟩

/-- The report with the errors of benchmarks, the line that is printed, and what was done. -/
structure CoverageRun where
  out : String
  report : Document
  events : List Event
  deriving Repr

/-- Sets the benchmark up and runs what there is to run. -/
def Description.once (b : Description) : Trial Unit := do
  let given ← b.setUp []
  if given.isNone then
    let _ ← b.runResult []

def coverageLine (totals : Document) (benches errors : Nat) : String :=
  let count (key : String) : String := toString ((totals.get key).integer?.getD 0)
  "coverage: " ++ (totals.get "percent_covered").number.fixedText 1 ++ "% (" ++
    count "covered_lines" ++ "/" ++ count "num_statements" ++ " stmts, " ++
    toString benches ++ " benches, " ++ toString errors ++ " errors)\n"

/-- Runs the benchmarks and completes the report of the recording. Functions that cannot
be loaded are an error of their own. -/
def recordCoverage (functions : Except Raised (List Description)) (report : Document) : CoverageRun :=
  let (loaded, failures) := match functions with
    | .ok functions => (functions, [])
    | .error error => ([], [("_import_error", error.report)])
  let rows := (benchmarks loaded).map fun b => (b.name, b.once.run)
  let errors := failures ++ rows.filterMap fun (name, result, _) =>
    match result with
    | .ok () => none
    | .error halt => some (name, halt.report)
  let details := ((report.get "meta").put "_pti_bench_errors"
      (.object (errors.map fun (name, message) => (name, .text message)))).put
    "_pti_n_benches" (.integer rows.length)
  { out := coverageLine (report.get "totals") rows.length errors.length
    report := report.put "meta" details
    events := ⟨.start, ""⟩ :: (rows.flatMap fun (_, _, events) => events) ++
      [⟨.stop, ""⟩, ⟨.report, "True"⟩] }

end DecimalScript.Benchmark
