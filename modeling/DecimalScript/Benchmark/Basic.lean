import DecimalScript.Benchmark.Datum
import DecimalScript.Binary64.Arithmetic

/-! Benchmarks as they are described, and trials of them. A benchmark is set up, which
gives something to run or the result itself; running it gives the result. -/

namespace DecimalScript.Benchmark

/-- An error by its kind and its text. -/
structure Raised where
  kind : String
  message : String
  deriving DecidableEq, Repr

def Raised.report (r : Raised) : String := r.kind ++ ": " ++ r.message

/-- The time spent in one function, by the file that holds it. -/
structure Sample where
  file : String
  seconds : Binary64
  deriving DecidableEq, Repr

abbrev Arguments := List (String × Datum)

structure Description where
  name : String
  /-- The results in turn. -/
  returns : List Datum
  /-- The argument that is the result instead. -/
  echo : Option String
  /-- Whether the set-up gives something to run. -/
  closure : Bool
  /-- The arguments that the benchmark is tried with. -/
  params : List Arguments
  raiseSetup : Option Raised
  raiseRun : Option Raised
  /-- Whether the time runs out before there is a result. -/
  alarm : Bool
  profile : List Sample
  /-- The time of the whole profile, if it is not the sum of its samples. -/
  total : Option Binary64
  deriving Repr, Inhabited

def Description.totalSeconds (b : Description) : Binary64 :=
  b.total.getD (Binary64.sum (b.profile.map (·.seconds)))

/-- The benchmarks among the functions, by their names. -/
def benchmarks (functions : List Description) : List Description :=
  (functions.filter fun b => b.name.startsWith "bench_").mergeSort fun a b => a.name ≤ b.name

/-! ### Events -/

inductive Action where
  | setup
  | run
  | enable
  | disable
  | start
  | stop
  | report
  deriving DecidableEq, Repr

def Action.name : Action → String
  | .setup => "setup"
  | .run => "run"
  | .enable => "enable"
  | .disable => "disable"
  | .start => "start"
  | .stop => "stop"
  | .report => "report"

structure Event where
  action : Action
  subject : String
  deriving DecidableEq, Repr

/-! ### Trials -/

/-- Why a trial ended early. -/
inductive Halt where
  | raised (error : Raised)
  | timeout
  deriving DecidableEq, Repr

/-- The reason in place of a type or a label. -/
def Halt.mark : Halt → String
  | .raised error => "<" ++ error.kind ++ ">"
  | .timeout => "<timeout>"

def Halt.report : Halt → String
  | .raised error => error.report
  | .timeout => "timeout"

/-- How far a benchmark has come: the number of results so far and the events. -/
structure Progress where
  results : Nat := 0
  events : List Event := []
  deriving DecidableEq, Repr

abbrev Trial := ExceptT Halt (StateM Progress)

def Trial.run {α : Type} (trial : Trial α) : Except Halt α × List Event :=
  let (result, progress) := (ExceptT.run trial).run {}
  (result, progress.events)

namespace Description

def note (b : Description) (action : Action) : Trial Unit :=
  modify fun p => { p with events := p.events ++ [⟨action, b.name⟩] }

/-- The next of the results in turn. -/
def nextResult (b : Description) : Trial Datum := do
  let p ← get
  set { p with results := p.results + 1 }
  return b.returns.getD (p.results % b.returns.length) .none

/-- The result: an error, then the end of time, then the echo, then the results in turn. -/
def result (b : Description) (arguments : Arguments) : Trial Datum :=
  match b.raiseRun with
  | some error => throw (.raised error)
  | none =>
    if b.alarm then throw .timeout
    else match b.echo with
      | some name => pure ((arguments.lookup name).getD (b.returns.headD .none))
      | none => b.nextResult

/-- Sets a benchmark up, and gives its result if there is nothing to run. -/
def setUp (b : Description) (arguments : Arguments) : Trial (Option Datum) := do
  b.note .setup
  if let some error := b.raiseSetup then throw (.raised error)
  if b.closure then return none else some <$> b.result arguments

def runResult (b : Description) (arguments : Arguments) : Trial Datum := do
  b.note .run
  b.result arguments

end Description

end DecimalScript.Benchmark
