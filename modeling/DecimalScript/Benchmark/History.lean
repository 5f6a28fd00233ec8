import DecimalScript.Document.Reader
import DecimalScript.Text.Blank

/-! The rounds of measuring. Each round leaves a line with a document; the rounds before
tell whether measuring has come to an end. -/

namespace DecimalScript.Benchmark

def roundLines (lines : List String) : List String := lines.filter fun line => Text.trim line != ""

def roundNumber (lines : List String) : Nat := (roundLines lines).length + 1

/-- The documents of earlier rounds, or `none` if one of them cannot be read. -/
def records? (lines : List String) : Option (List Document) :=
  (roundLines lines).mapM fun line => (Document.ofText? line).filter Document.isObject

/-- The seconds since the round before, with two decimal places. -/
def secondsSince (now : Binary64) (records : List Document) : Binary64 :=
  match (records.getLast?.bind fun record => (record.get "ts").number?) with
  | some before => (now.sub before).roundTo 2
  | none => .zero false

/-! ### The end of measuring -/

/-- The best count so far, and the number of rounds since it was first reached. -/
structure Plateau where
  best : Int
  rounds : Nat
  deriving DecidableEq, Repr

/-- One more round: a better count starts anew. -/
def Plateau.next (p : Plateau) (count : Int) : Plateau :=
  if count < p.best then ⟨count, 0⟩ else ⟨p.best, p.rounds + 1⟩

def plateau (first : Int) (counts : List Int) : Plateau := counts.foldl Plateau.next ⟨first, 0⟩

/-- Why measuring has come to an end. -/
inductive Stop where
  | noneBelow
  | noImprovement (plateau : Plateau)
  deriving DecidableEq, Repr

/-- The coverage from which on measuring can end. -/
def enoughCoverage : Binary64 := Binary64.ofInt 60

/-- The rounds without improvement after which measuring ends. -/
def patience : Nat := 3

def recordedCounts (records : List Document) : List Int :=
  records.filterMap fun record => (record.get "n_below_repo_time").integer?

/-- Whether measuring ends with a round: there is enough coverage, and no benchmark is below
the floor, or their number has not gone down for some rounds. -/
def stop? (records : List Document) (coverage : Binary64) (count : Option Nat) : Option Stop :=
  match count with
  | none => none
  | some count =>
    if coverage.below enoughCoverage then none
    else if count = 0 then some .noneBelow
    else
      let plateau := match recordedCounts records ++ [(count : Int)] with
        | [] => ⟨count, 0⟩
        | first :: rest => plateau first rest
      if patience ≤ plateau.rounds then some (.noImprovement plateau) else none

end DecimalScript.Benchmark
