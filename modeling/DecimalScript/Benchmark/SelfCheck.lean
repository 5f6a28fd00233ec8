import DecimalScript.Benchmark.Fingerprint
import DecimalScript.Benchmark.Share

/-! Whether the results of benchmarks can be checked: fingerprints of repeated runs and of
runs with other arguments, and the times of those runs. -/

namespace DecimalScript.Benchmark

/-- What one profiled run shows: shares of the whole and milliseconds in own files. -/
structure Timing where
  own : Binary64
  compiled : Binary64
  milliseconds : Binary64
  deriving Repr

/-- A part of the whole with three decimal places, zero if there is no whole. -/
def part (seconds whole : Binary64) : Binary64 :=
  if whole.isZero then .zero false else (seconds.div whole).roundTo 3

def compiledSeconds (profile : List Sample) : Binary64 :=
  Binary64.sum ((profile.filter fun s => !isOwn s.file && isCompiled s.file).map (·.seconds))

def Description.timing (b : Description) : Timing :=
  { own := part (ownSeconds b.profile) b.totalSeconds
    compiled := part (compiledSeconds b.profile) b.totalSeconds
    milliseconds := ((ownSeconds b.profile).mul (Binary64.ofInt 1000)).roundTo 3 }

def Description.plainRun (b : Description) (arguments : Arguments) : Trial Datum := do
  match ← b.setUp arguments with
  | some result => return result
  | none => b.runResult arguments

/-- A run with a profile, which leaves out the set-up. -/
def Description.profiledRun (b : Description) (arguments : Arguments) : Trial Datum := do
  let given ← b.setUp arguments
  b.note .enable
  let result ← match given with
    | some result => pure result
    | none => b.runResult arguments
  b.note .disable
  return result

/-- What the checks of one benchmark found. -/
structure Findings where
  resultType : String
  /-- The fingerprints of the two runs without arguments. -/
  stable : List String
  byParam : List (String × String)
  paramPrints : List String
  timings : List (String × Timing)
  deriving Repr

def Findings.failed (halt : Halt) : Findings := ⟨halt.mark, [], [], [], []⟩

/-- Arguments as a key of a report. -/
def argumentsKey (arguments : Arguments) : String :=
  if arguments.isEmpty then "-"
  else ",".intercalate (arguments.map fun (name, value) => name ++ "=" ++ value.plain)

def defaultKey : String := "<default>"

/-- Runs the benchmark twice as it is, and once with each row of its arguments. -/
def Description.checkTrial (b : Description) (c : Conventions) : Trial Findings := do
  let first ← b.plainRun []
  let second ← b.profiledRun []
  let results ← b.params.mapM fun arguments => do
    let result ← b.profiledRun arguments
    return (argumentsKey arguments, fingerprint c result)
  return {
    resultType := first.typeName
    stable := [fingerprint c first, fingerprint c second]
    byParam := results
    paramPrints :=
      b.params.flatMap fun arguments => arguments.map fun (_, value) => fingerprint c value
    timings := (defaultKey :: results.map (·.1)).map fun key => (key, b.timing) }

def Description.check (b : Description) (c : Conventions) : Findings × List Event :=
  let (result, events) := (b.checkTrial c).run
  (match result with
    | .ok findings => findings
    | .error halt => .failed halt, events)

/-- An object in which a later entry of a key replaces the earlier one. -/
def objectOf (entries : List (String × Document)) : Document :=
  .object (entries.foldl (fun rest (key, value) => Document.putEntry key value rest) [])

def Findings.document (f : Findings) : Document :=
  let times (field : Timing → Binary64) : Document :=
    objectOf (f.timings.map fun (key, timing) => (key, .double (field timing)))
  .object
    [("ret_type", .text f.resultType),
     ("fp_stable", .array (f.stable.map .text)),
     ("fp_by_param", objectOf (f.byParam.map fun (key, print) => (key, .text print))),
     ("param_fps", .array (f.paramPrints.map .text)),
     ("repo_frac", times Timing.own),
     ("ext_frac", times Timing.compiled),
     ("repo_tt_ms", times Timing.milliseconds)]

def selfChecks (c : Conventions) (functions : List Description) : Survey :=
  let rows := (benchmarks functions).map fun b => (b.name, b.check c)
  { document := .object
      [("semcheck", .object (rows.map fun (name, findings, _) => (name, findings.document)))]
    events := rows.flatMap fun (_, _, events) => events }

end DecimalScript.Benchmark
