import DecimalScript.Eval.Number
import DecimalScript.Term.Basic
import DecimalScript.Text.Blank

/-! What tracing writes: the line of a statement before it runs, and its effect
after it. -/

namespace DecimalScript.Run

def whenTracing (run : Run Unit) : Run Unit := do
  if (← get).tracing then run else pure ()

/-- A line of the program without the blanks around it, empty if there is none. -/
def sourceLine (source : List String) (line : Nat) : String :=
  if line = 0 then "" else ((source[line - 1]?).map Text.trim).getD ""

/-- The line of a statement that is about to run. -/
def announce : Option Pos → Run Unit
  | none => fail .noPlace
  | some pos =>
    if pos.line = 0 then pure ()
    else do
      let s ← get
      write (.traced ("- " ++ Nat.repr pos.line ++ ": " ++ sourceLine s.source pos.line))

/-- The value that a variable has now. -/
def announceVariable (name : String) : Run Unit := do
  let text ← format (← lookup name)
  write (.traced ("+ " ++ name ++ " = " ++ text))

/-- What a statement did. -/
def announceEffect (note : Note) (value : Value) : Run Unit :=
  match note, value with
  | .assigned name, _ => announceVariable name
  | .silent, _ | .result, .none => pure ()
  | .result, value => do write (.traced ("+ " ++ (← format value)))

/-- The head of a loop with the numbers it runs over. -/
def announceLoop (name : String) (start stop step : Decimal) (showsStep : Bool)
    (pos : Option Pos) : Run Unit :=
  match pos with
  | none => fail .noPlace
  | some pos => do
    let stepText ← if showsStep then (" by " ++ ·) <$> format (.decimal step) else pure ""
    let startText ← format (.decimal start)
    let stopText ← format (.decimal stop)
    write (.traced ("- " ++ Nat.repr pos.line ++ ": for " ++ name ++ " in " ++
      startText ++ " .. " ++ stopText ++ stepText))

end DecimalScript.Run
