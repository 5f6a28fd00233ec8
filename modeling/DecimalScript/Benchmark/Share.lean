import DecimalScript.Benchmark.Basic
import DecimalScript.Benchmark.Place
import DecimalScript.Document.Basic

/-! How much of a benchmark's time is spent in the project's own files, and where most of
the rest goes. -/

namespace DecimalScript.Benchmark

/-- Adds a time to the times by label. -/
def addTime (label : String) (seconds : Binary64) : List (String × Binary64) → List (String × Binary64)
  | [] => [(label, (Binary64.zero false).add seconds)]
  | (l, t) :: rest =>
    if l = label then (l, t.add seconds) :: rest else (l, t) :: addTime label seconds rest

def ownSeconds (profile : List Sample) : Binary64 :=
  Binary64.sum ((profile.filter fun s => isOwn s.file).map (·.seconds))

def foreignTimes (profile : List Sample) : List (String × Binary64) :=
  (profile.filter fun s => !isOwn s.file).foldl (fun times s => addTime (label s.file) s.seconds times) []

def percent (part whole : Binary64) : Binary64 :=
  (((Binary64.ofInt 100).mul part).div whole).roundTo 1

/-- The two largest times, the larger first; of equal times the later label first. -/
def largestTwo (times : List (String × Binary64)) : List (String × Binary64) :=
  (times.mergeSort fun (l, t) (m, u) => u.below t || (t.rank == u.rank && m ≤ l)).take 2

/-- The share of the project's own files, and the places with the most time outside. -/
structure Share where
  own : Binary64
  hot : List (Binary64 × String)
  deriving Repr

/-- A time in place of none at all. -/
def leastSeconds : Binary64 := Binary64.ofRatio false 1 1000000000

def Description.shareOf (b : Description) : Share :=
  let whole := if b.totalSeconds.isZero then leastSeconds else b.totalSeconds
  { own := percent (ownSeconds b.profile) whole
    hot := (largestTwo (foreignTimes b.profile)).map fun (l, t) => (percent t whole, l) }

/-- Sets the benchmark up, then profiles one run; what has nothing to run is profiled
while it is set up again. -/
def Description.shareTrial (b : Description) : Trial Share := do
  let _ ← b.setUp []
  b.note .enable
  if b.closure then
    let _ ← b.runResult []
  else
    let _ ← b.setUp []
  b.note .disable
  return b.shareOf

/-- The share that stands for a benchmark that failed. -/
def Share.failed (halt : Halt) : Share := ⟨Binary64.ofInt (-1), [(.zero false, halt.mark)]⟩

def Description.share (b : Description) : Share × List Event :=
  let (result, events) := b.shareTrial.run
  (match result with
    | .ok share => share
    | .error halt => Share.failed halt, events)

/-- Rows of a report by benchmark. -/
structure Survey where
  document : Document
  events : List Event
  deriving Repr

def Survey.unloadable (error : Raised) : Survey :=
  ⟨.object [("_import_error", .text error.report)], []⟩

def shares (functions : List Description) : Survey :=
  let rows := (benchmarks functions).map fun b => (b.name, b.share)
  { document := .object
      [("repo_time_pct", .object (rows.map fun (name, share, _) => (name, .double share.own))),
       ("hot_ext", .object (rows.map fun (name, share, _) =>
         (name, .array (share.hot.map fun (part, l) => .array [.double part, .text l]))))]
    events := rows.flatMap fun (_, _, events) => events }

end DecimalScript.Benchmark
