import DecimalScript.Benchmark.Basic
import DecimalScript.Benchmark.History
import DecimalScript.Benchmark.Place
import DecimalScript.Benchmark.Verdict
import DecimalScript.Text.Line

/-! One round of measuring: the coverage of the benchmarks, the share of own time and the
self-checks, each from a tool that is started for it, in one report and one record. -/

namespace DecimalScript.Benchmark

inductive Ending where
  | exited (code : Int) (stdout stderr : String)
  | notStarted (error : Raised)
  deriving DecidableEq, Repr

inductive Tool where
  | coverage
  | shares
  | changes
  | checks
  deriving DecidableEq, Repr

/-- All that a round finds outside. A tool that is missing is not started. -/
structure Readings where
  coverage : Ending
  report : Option Document
  shares : Option Ending
  changes : Ending
  checks : Option Ending
  /-- The text of the benchmarks. -/
  source : Option String
  /-- The lines of the rounds before. -/
  history : List String
  /-- The clock before and after the coverage was recorded. -/
  started : Binary64
  ended : Binary64
  now : Binary64
  deriving Repr

/-- What a round gives. -/
structure Measurement where
  code : Int
  out : String
  err : String
  tools : List Tool
  appended : List Document
  deriving Repr

/-! ### Texts -/

def padRight (width : Nat) (s : String) : String :=
  s ++ String.ofList (List.replicate (width - s.length) ' ')

def padLeft (width : Nat) (s : String) : String :=
  String.ofList (List.replicate (width - s.length) ' ') ++ s

/-- Lines with an empty line in front; no lines give nothing. -/
def spaced (lines : List String) : List String := if lines.isEmpty then [] else "" :: lines

/-! ### Tools -/

/-- The document in the last line that a tool printed. -/
def lastDocument (stdout : String) : Document :=
  let lines := (Text.lines stdout).filter fun line => Text.trim line != ""
  (lines.getLast?.bind Document.ofText?).getD .null

def Ending.document : Ending → Document
  | .exited _ stdout _ => lastDocument stdout
  | .notStarted _ => .null

/-- What a tool, or its failure to start, leaves on the error channel. -/
def Ending.complaint (tool : String) : Ending → String
  | .exited _ _ stderr => stderr
  | .notStarted error => "[" ++ tool ++ " runner: " ++ error.report ++ "]\n"

/-- The files that were changed: the lines of the status after two letters and a blank. -/
def changedFiles : Ending → List String
  | .exited _ stdout _ =>
    ((Text.lines stdout).filter fun line => Text.trim line != "").filterMap fun line =>
      let file := String.ofList (line.toList.drop 3)
      if file = benchmarkFile then none else some file
  | .notStarted _ => []

/-! ### The table of files -/

/-- The parts that lead from the project to a file. -/
def relativeParts : List String → List String → List String
  | p :: ps, q :: qs => if p = q then relativeParts ps qs else ".." :: ps.map (fun _ => "..") ++ q :: qs
  | ps, qs => ps.map (fun _ => "..") ++ qs

/-- The name of a file in the table: its path from the project, cut to a width. -/
def tableName (file : String) : String :=
  let path := "/".intercalate (relativeParts projectParts (partsOf file))
  String.ofList ((if path = "" then "." else path).toList.take 60)

def missingText (lines : List Document) : String :=
  let shown := (lines.take 12).filterMap fun line => line.integer?.map toString
  ",".intercalate shown ++ if 12 < lines.length then "…" else ""

def countText (doc : Document) (key : String) : String := toString ((doc.get key).integer?.getD 0)

/-- A line of the table up to the percentage. -/
def tableLine (width : Nat) (name stmts miss : String) (covered : Binary64) : String :=
  padRight width name ++ "  " ++ padLeft 5 stmts ++ "  " ++ padLeft 4 miss ++ "  " ++
    padLeft 4 (covered.fixedText 0) ++ "%"

/-- The table of files, the least covered first, and the totals. -/
def table (report : Document) : List String :=
  let covered (file : Document) : Binary64 := ((file.get "summary").get "percent_covered").number
  let files := ((report.get "files").entries.map fun (path, file) => (tableName path, file)).mergeSort
    fun (_, f) (_, g) => !(covered g).below (covered f)
  let width := (files.map fun (name, _) => name.length).foldl max 4
  let rule := String.ofList (List.replicate (width + 42) '-')
  let line : String × Document → String := fun (name, file) =>
    let summary := file.get "summary"
    tableLine width name (countText summary "num_statements") (countText summary "missing_lines")
      (covered file) ++ "  " ++ missingText (file.get "missing_lines").items
  let totals := report.get "totals"
  let count (key : String) : Int := (totals.get key).integer?.getD 0
  [padRight width "Name" ++ "  Stmts  Miss  Cover  Missing", rule] ++ files.map line ++
    [rule, tableLine width "TOTAL" (toString (count "num_statements"))
      (toString (count "num_statements" - count "covered_lines"))
      (totals.get "percent_covered").number]

/-! ### Sections -/

/-- The errors of benchmarks while the coverage was recorded. -/
def benchErrors (report : Document) : List (String × Document) :=
  ((report.get "meta").get "_pti_bench_errors").entries

def errorLines (errors : List (String × Document)) : List String :=
  if errors.isEmpty then []
  else (toString errors.length ++ " bench error(s):") ::
    (errors.take 8).map fun (name, message) => "  " ++ name ++ ": " ++ message.text?.getD ""

def changeLines (files : List String) : List String :=
  if files.isEmpty then []
  else ("** repo modified (" ++ toString files.length ++
      " file(s)) — revert these; only microbench.py is yours to edit:") ::
    (files.take 10).map ("   " ++ ·)

/-- The share of own time below which a benchmark is marked. -/
def shareFloor : Binary64 := Binary64.ofInt 45

/-- Whether a benchmark ran and its share is below the floor. -/
def isBelowFloor (share : Binary64) : Bool := !share.below (.zero false) && share.below shareFloor

def markText (marked : Bool) : String := if marked then "  * " else "    "

/-- Where the time outside goes. -/
def hotText (hot : List Document) : String :=
  if hot.isEmpty then ""
  else " (hot: " ++ " ".intercalate (hot.map fun pair =>
    (pair.items.getD 1 .null).text?.getD "" ++ " " ++
      (pair.items.getD 0 .null).number.fixedText 0 ++ "%") ++ ")"

def shareLines (shares : List (String × Binary64)) (hot : Document) : List String :=
  if shares.isEmpty then []
  else "repo_time (target 50%; * = below 45%):" ::
    (shares.mergeSort fun (_, x) (_, y) => !y.below x).map fun (name, share) =>
      let failed := share.below (.zero false)
      markText (isBelowFloor share) ++ padRight 32 name ++
        padLeft 6 ((if failed then .zero false else share).fixedText 1) ++ "%" ++
        (if failed then "  <error>"
         else if isBelowFloor share then hotText (hot.get name).items else "")

/-- What to do about the verdicts. -/
def advice : List String :=
  ["  returns-none: run() has no return — collect and return the call results",
   "  unstable: seed RNG in setup; avoid time/uuid/id in the return",
   "  returns-input: return repo output, not the parameter value",
   "  low-repo-time: <50% of run() time is in repo code — move glue to setup",
   "  param-invariant: return something derived from run()'s work, not setup",
   "  repo-modified: revert edits to repo files (git checkout -- <path>)"]

/-- A benchmark with what the checks found and the verdict on it. -/
structure Judged where
  name : String
  row : Document
  verdict : Verdict
  deriving Repr

def judge (modified : Bool) (checks : Document) : List Judged :=
  checks.entries.filterMap fun (name, row) =>
    if row.isObject then some ⟨name, row, Benchmark.verdict modified row⟩ else none

def Judged.line (j : Judged) : String :=
  let own := (Binary64.ofInt 100).mul ((leastOwnShare j.row).getD (.zero false))
  markText j.verdict.isBad ++ padRight 32 j.name ++ " " ++ padRight 16 j.verdict.name ++ " (" ++
    resultType j.row ++ ", repo " ++ own.fixedText 0 ++ "%) " ++
    (Binary64.median (milliseconds j.row)).fixedText 1 ++ "ms"

/-- The benchmarks that have to be mended come first. -/
def checkLines (judged : List Judged) : List String :=
  if judged.isEmpty then []
  else
    let named := judged.mergeSort fun a b => a.name ≤ b.name
    "self-check (* = fix needed):" :: advice ++
      ((named.filter fun j => j.verdict.isBad) ++ (named.filter fun j => !j.verdict.isBad)).map
        Judged.line

/-! ### The round -/

/-- The number of lines that begin a benchmark. -/
def benchmarkCount (source : Option String) : Nat :=
  ((source.getD "").splitOn "\n").countP fun line => line.startsWith "def bench_"

/-- What a round found out. -/
structure Round where
  number : Nat
  benches : Nat
  errors : Nat
  totals : Document
  /-- The shares of own time as they were given. -/
  given : Document
  judged : List Judged
  seconds : Binary64
  deriving Repr

namespace Round

def shares (r : Round) : List (String × Binary64) := r.given.numbers

/-- The shares of the benchmarks that ran. -/
def ran (r : Round) : List Binary64 := (r.shares.map (·.2)).filter fun x => !x.below (.zero false)

def below (r : Round) : Nat := r.ran.countP isBelowFloor

/-- The number below the floor, if a benchmark ran at all. -/
def below? (r : Round) : Option Nat := if r.ran.isEmpty then none else some r.below

def bad (r : Round) : Nat := r.judged.countP fun j => j.verdict.isBad

def coverage (r : Round) : Binary64 := (r.totals.get "percent_covered").number

def statusLine (r : Round) : String :=
  "[round " ++ toString r.number ++ ": " ++ toString r.benches ++ " benches, " ++
    r.coverage.fixedText 1 ++ "% covered" ++
    (if r.shares.isEmpty then ""
     else ", " ++ toString r.below ++ "/" ++ toString r.ran.length ++ " below repo_time 45%") ++
    (if r.judged.isEmpty then ""
     else ", " ++ toString r.bad ++ "/" ++ toString r.judged.length ++ " not self-checking") ++
    ", measured in " ++ r.seconds.fixedText 1 ++ "s]"

def record (r : Round) (now : Binary64) (records : List Document) : Document :=
  .object
    [("round", .integer r.number),
     ("ts", .double now),
     ("wall_since_prev_s", .double (secondsSince now records)),
     ("coverage_pct", (r.totals.get? "percent_covered").getD (.double (.zero false))),
     ("covered_lines", .integer ((r.totals.get "covered_lines").integer?.getD 0)),
     ("num_statements", .integer ((r.totals.get "num_statements").integer?.getD 0)),
     ("n_bench_fns", .integer r.benches),
     ("n_bench_errors", .integer r.errors),
     ("cov_measure_s", .double (r.seconds.roundTo 3)),
     ("repo_time_pct", .object r.given.entries),
     ("n_below_repo_time", r.below?.elim .null fun n => .integer n),
     ("semcheck", .object (r.judged.map fun j => (j.name, .text j.verdict.name))),
     ("n_not_self_checking", .integer r.bad)]

end Round

def Stop.reason : Stop → String
  | .noneBelow => "0 below"
  | .noImprovement p =>
    "no improvement in " ++ toString p.rounds ++ " rounds; best " ++ toString p.best ++ " below"

def Stop.line (stop : Stop) : String :=
  ">>> STOP: repo_time converged (" ++ stop.reason ++ "). Finalize microbench.py now. <<<"

/-- A round whose coverage could not be recorded. -/
def failedRound (code : Int) (stdout stderr : String) : Measurement :=
  { code := if code = 0 then 1 else code
    out := "coverage measurement failed (exit " ++ toString code ++ ")\n" ++ stdout ++ "\n"
    err := stderr
    tools := [.coverage]
    appended := [] }

/-- A round whose coverage was recorded. -/
def completeRound (readings : Readings) (report : Document) (stderr : String) : Measurement :=
  let shared := (readings.shares.map Ending.document).getD .null
  let checked := (readings.checks.map Ending.document).getD .null
  let files := if readings.checks.isSome then changedFiles readings.changes else []
  let errors := benchErrors report
  let round : Round :=
    { number := roundNumber readings.history
      benches := benchmarkCount readings.source
      errors := errors.length
      totals := report.get "totals"
      given := shared.get "repo_time_pct"
      judged := judge (!files.isEmpty) (checked.get "semcheck")
      seconds := readings.ended.sub readings.started }
  let records := records? readings.history
  let stop := stop? (records.getD []) round.coverage round.below?
  let lines := table report ++ spaced (errorLines errors) ++
    spaced (shareLines round.shares (shared.get "hot_ext")) ++ spaced (changeLines files) ++
    spaced (checkLines round.judged) ++ spaced [round.statusLine] ++
    spaced (stop.toList.map Stop.line)
  { code := 0
    out := String.join (lines.map (· ++ "\n"))
    err := stderr ++ (readings.shares.map (Ending.complaint "repotime")).getD "" ++
      (readings.checks.map (Ending.complaint "semcheck")).getD ""
    tools := [.coverage] ++ (readings.shares.map fun _ => Tool.shares).toList ++
      (if readings.checks.isSome then [.changes, .checks] else [])
    appended := (records.map (round.record readings.now)).toList }

def measure (readings : Readings) : Measurement :=
  match readings.coverage, readings.report with
  | .exited 0 _ stderr, some report => completeRound readings report stderr
  | .exited code stdout stderr, _ => failedRound code stdout stderr
  | .notStarted error, _ => failedRound 1 "" (error.report ++ "\n")

end DecimalScript.Benchmark
