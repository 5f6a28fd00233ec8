import DecimalScript.Env
import DecimalScript.Fault

/-! The state of a running program, and the ways in which a calculation ends. -/

namespace DecimalScript

/-- A line of output, written by `print` or by tracing. -/
inductive Line where
  | printed (text : String)
  | traced (text : String)
  deriving DecidableEq, Repr

def Line.text : Line → String
  | printed text | traced text => text

structure State where
  env : Env := {}
  /-- The number of decimal places that values are rounded to. -/
  places : Nat := 10
  /-- The number of digits that calculations work with. -/
  digits : Nat := 28
  tracing : Bool := false
  /-- The lines of the program, for tracing. -/
  source : List String := []
  /-- The variables of the running loops, the innermost first. -/
  loops : List String := []
  /-- The output so far, the latest line first. -/
  output : List Line := []
  deriving Inhabited

/-- A jump to one of the running loops, which is named by its variable. -/
inductive Signal where
  | leave (name : String) (result : Value)
  | skip (name : String)
  deriving DecidableEq, Repr

def Signal.target : Signal → String
  | leave name _ | skip name => name

/-- How a calculation ends without a value. -/
inductive Exit where
  | fault (fault : Fault)
  | signal (signal : Signal)
  /-- A loop ran more often than it was allowed to. -/
  | exhausted
  deriving DecidableEq, Repr

/-- A calculation with a state, which stays as the calculation left it also when
there is no value. -/
abbrev Run := ExceptT Exit (StateM State)

namespace Run

def fail {α : Type} (fault : Fault) : Run α := throw (.fault fault)

def blame {α : Type} (cause : Cause) : Run α := fail (.script cause none)

def blameAt {α : Type} (cause : Cause) (pos : Pos) : Run α := fail (.script cause (some pos))

/-- Fails with a cause at the place of a node, which has to have one. -/
def blameNode {α : Type} (cause : Cause) : Option Pos → Run α
  | some pos => blameAt cause pos
  | none => fail .noPlace

/-- The value of a decimal calculation. -/
def decimal {α : Type} : Except Decimal.Trap α → Run α
  | .ok x => pure x
  | .error condition => fail (.trap condition)

def write (line : Line) : Run Unit :=
  modify fun s => { s with output := line :: s.output }

/-- The value of a variable that has to be there. -/
def lookup (name : String) : Run Value := do
  match (← get).env.get? name with
  | some value => pure value
  | none => fail .variableGone

def setVariable (name : String) (value : Value) : Run Unit :=
  modify fun s => { s with env := s.env.set name value }

def eraseVariable (name : String) : Run Unit :=
  modify fun s => { s with env := s.env.erase name }

/-- Runs a calculation and tells a signal that it ended with from a value. -/
def catchSignal {α : Type} (run : Run α) : Run (α ⊕ Signal) := fun s =>
  match run s with
  | (.ok value, s) => (.ok (.inl value), s)
  | (.error (.signal signal), s) => (.ok (.inr signal), s)
  | (.error exit, s) => (.error exit, s)

end Run

end DecimalScript
