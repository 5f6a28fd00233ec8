import DecimalScript.Session

/-! Programs of the language that are run to measure its evaluator, several times on one state. -/

namespace DecimalScript.Benchmark

/-- A loop with a step inside a program whose own variable the loop changes: the whole numbers
up to the last one are added to a start value. -/
def stepAndScope (last : Int) : String :=
  "total = 42; for i in 1 .. " ++ toString last ++ " by 1 (total += i); total"

/-- The program of a workload by its name and its sizes. -/
def workload? (name : String) (sizes : List (String × Int)) : Option String :=
  match name, sizes with
  | "bench_for_step_and_scope", [("loop_end", last)] => some (stepAndScope last)
  | _, _ => none

/-- Runs a program several times on one state and gives the text of each result. -/
def repeated (program : String) : (runs : Nat) → State → List (Except Failure String)
  | 0, _ => []
  | runs + 1, s =>
    let (result, s) := s.execute program
    result.map Value.plainText :: repeated program runs s

end DecimalScript.Benchmark
