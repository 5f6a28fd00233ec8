import DecimalScript.Eval.Term
import DecimalScript.Grammar.Program
import DecimalScript.Term.OfTree
import DecimalScript.Text.Line

/-! Running programs one after the other on one state. -/

namespace DecimalScript

/-- Why a program gave no value. -/
inductive Failure where
  | mistake (mistake : Grammar.Mistake)
  | exit (exit : Exit)
  deriving DecidableEq, Repr

namespace State

def piText : String := "3.141592653589793"

def eText : String := "2.718281828459045"

/-- A constant to the places that a new state has. -/
def constant (digits : Nat) (text : String) : Value :=
  match Decimal.ofText text >>= Decimal.toPlaces digits 10 with
  | .ok x => .decimal x
  | .error _ => .none

/-- A state with the constants and the given variables, which may replace them. -/
def new (digits : Nat) (given : List (String × Value)) (tracing : Bool) : State :=
  let constants : Env := ⟨[("pi", constant digits piText), ("e", constant digits eText)]⟩
  { env := given.foldl (fun env (name, value) => env.set name value) constants
    digits, tracing }

/-- Runs a calculation; its output alone is in the new state. -/
def run {α : Type} (calculation : Run α) (s : State) : Except Failure α × State :=
  let (result, s) := calculation { s with output := [] }
  (result.mapError .exit, s)

/-- The largest number of passes of a loop. -/
def passLimit : Nat := 1000000000

/-- Evaluates a tree with a limit for the passes of each loop. -/
def evaluateWithin (limit : Nat) (tree : Tree) (s : State) : Except Failure Value × State :=
  s.run (Run.eval limit (Term.ofTree tree))

/-- Runs the program that a text writes, with a limit for the passes of each loop. A
text that is no program changes nothing. -/
def executeWithin (limit : Nat) (text : String) (s : State) : Except Failure Value × State :=
  match Grammar.parse text with
  | .error mistake => (.error (.mistake mistake), { s with output := [] })
  | .ok tree => evaluateWithin limit tree { s with source := Text.lines text }

def evaluate (tree : Tree) (s : State) : Except Failure Value × State :=
  evaluateWithin passLimit tree s

def execute (text : String) (s : State) : Except Failure Value × State :=
  executeWithin passLimit text s

def format (value : Value) (s : State) : Except Failure String :=
  (s.run (Run.format value)).1

/-- Everything that was written. -/
def outputText (s : State) : String :=
  String.join (s.output.reverse.map (·.text ++ "\n"))

end State

/-- What can be done with a state from outside. -/
inductive Step where
  | execute (text : String)
  | assign (name : String) (value : Value)
  | format (value : Value)
  /-- A new state takes the place of the old one and keeps its digits. -/
  | renew (given : List (String × Value)) (tracing : Bool)

/-- Takes a step, with a limit for the passes of each loop. -/
def Step.takeWithin (limit : Nat) (s : State) : Step → Except Failure Value × State
  | .execute text => s.executeWithin limit text
  | .assign name value => s.run (Run.setVariable name value *> pure .none)
  | .format value => s.run (Value.text <$> Run.format value)
  | .renew given tracing => (.ok .none, State.new s.digits given tracing)

end DecimalScript
