import DecimalScript.Document.Basic

/-! Judging what the checks of a benchmark found. -/

namespace DecimalScript.Benchmark

inductive Verdict where
  | error
  | returnsNone
  | unstable
  | returnsInput
  | lowOwnTime
  | paramInvariant
  | tooFast
  | projectModified
  /-- Sound, but not tried with two rows of arguments. -/
  | okUnparam
  | ok
  deriving DecidableEq, Repr

def Verdict.name : Verdict → String
  | .error => "error"
  | .returnsNone => "returns-none"
  | .unstable => "unstable"
  | .returnsInput => "returns-input"
  | .lowOwnTime => "low-repo-time"
  | .paramInvariant => "param-invariant"
  | .tooFast => "too-fast"
  | .projectModified => "repo-modified"
  | .okUnparam => "ok-unparam"
  | .ok => "ok"

/-- Whether the benchmark has to be mended. -/
def Verdict.isBad : Verdict → Bool
  | .ok | .okUnparam => false
  | _ => true

def resultType (row : Document) : String := (row.get "ret_type").text?.getD "?"

/-- The least share of own time over all runs. -/
def leastOwnShare (row : Document) : Option Binary64 :=
  match ((row.get "repo_frac").numbers).map (·.2) with
  | [] => none
  | x :: rest => some (Binary64.least x rest)

def milliseconds (row : Document) : List Binary64 := (row.get "repo_tt_ms").numbers.map (·.2)

def allEqual : List String → Bool
  | [] => true
  | s :: rest => rest.all (· == s)

/-- The verdict on a row of findings: the first fault in the order of the verdicts. -/
def verdict (modified : Bool) (row : Document) : Verdict :=
  let type := resultType row
  let stable := (row.get "fp_stable").texts
  let prints := ((row.get "fp_by_param").entries).filterMap fun (_, print) => print.text?
  let half := (Binary64.ofInt 1).div (Binary64.ofInt 2)
  if type = "?" || type.startsWith "<" then .error
  else if type = "NoneType" then .returnsNone
  else if stable.isEmpty || !allEqual stable then .unstable
  else if (row.get "param_fps").texts.contains (stable.headD "") then .returnsInput
  else if (leastOwnShare row).any (·.below half) then .lowOwnTime
  else if 2 ≤ prints.length && allEqual prints then .paramInvariant
  else if !(milliseconds row).isEmpty &&
      (Binary64.median (milliseconds row)).below (Binary64.ofInt 1) then .tooFast
  else if modified then .projectModified
  else if prints.length < 2 then .okUnparam
  else .ok

end DecimalScript.Benchmark
