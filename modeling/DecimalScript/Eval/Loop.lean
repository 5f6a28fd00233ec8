import DecimalScript.Eval.Trace

/-! Loops over a range of numbers. The variable of a loop can be changed by its
body; the loop goes on from the value that it finds. -/

namespace DecimalScript

/-- The numbers of a loop. -/
structure Range where
  name : String
  start : Decimal
  stop : Decimal
  step : Decimal
  showsStep : Bool
  pos : Option Pos

/-- What a loop has done so far. -/
structure Progress where
  /-- The value of the last pass through the body that gave one. -/
  result : Value := .none
  /-- The variable at the end of the last pass, if there was one. -/
  last : Option Decimal := none

namespace Run

/-- The state without the loop, if it is the innermost of those that run. -/
def endLoop (name : String) (s : State) : State :=
  match s.loops with
  | top :: rest => if top = name then { s with loops := rest } else s
  | [] => s

/-- Runs a loop's calculation while its variable counts among the running loops. -/
def insideLoop {α : Type} (name : String) (pos : Option Pos) (run : Run α) : Run α := fun s =>
  if s.loops.contains name then blameNode (.loopVariableInUse name) pos s
  else
    let (result, s) := run { s with loops := name :: s.loops }
    (result, endLoop name s)

/-- Whether the loop goes on with this value of its variable. -/
def goesOn (range : Range) (up : Bool) (current : Decimal) : Run Bool :=
  decimal (current.ordered (if up then Ordering.isLE else Ordering.isGE) range.stop)

def loopNumber (name : String) : Run Decimal := do toDecimal (← lookup name)

/-- Shows the head of the loop before its first pass, and the variable before each. -/
def announcePass (range : Range) (progress : Progress) : Run Unit := do
  if progress.last.isNone then
    announceLoop range.name range.start range.stop range.step range.showsStep range.pos
  announceVariable range.name

/-- One pass through the body, and whether it leaves the loop. Signals to other
loops go on outwards. -/
def pass (name : String) (body : Run Value) (progress : Progress) : Run (Progress × Bool) := do
  match ← catchSignal body with
  | .inl result => return ({ result, last := some (← loopNumber name) }, false)
  | .inr signal =>
    if signal.target = name then
      let last := some (← loopNumber name)
      match signal with
      | .leave _ result => return ({ result, last }, true)
      | .skip _ => return ({ progress with last }, false)
    else throw (.signal signal)

/-- Moves the variable on by a step. -/
def advance (range : Range) : Run Unit := do
  let next ← add (← loopNumber range.name) range.step
  setVariable range.name (.decimal next)

/-- Passes through the body as long as the loop goes on, at most `limit` times. -/
def passes (range : Range) (up : Bool) (body : Run Value) : (limit : Nat) → Progress → Run Progress
  | 0, _ => throw .exhausted
  | limit + 1, progress => do
    if ← goesOn range up (← loopNumber range.name) then
      whenTracing (announcePass range progress)
      let (progress, left) ← pass range.name body progress
      if left then return progress
      else
        advance range
        passes range up body limit progress
    else return progress

/-- Gives the variable of a loop that has ended its value: the one of the last pass
if it was defined before the loop, and none otherwise. -/
def settle (name : String) (before : Option Value) (progress : Progress) : Run Unit :=
  match before with
  | none => eraseVariable name
  | some value =>
    match progress.last with
    | none => setVariable name value
    | some last => setVariable name (.decimal last)

/-- Gives the variable of a loop its first value. Known then are the value that it
had before, and whether the loop counts up. -/
def prepare (range : Range) : Run (Option Value × Bool) := do
  if ← decimal (range.step.equal .zero) then blameNode .zeroStep range.pos
  else
    let before := (← get).env.get? range.name
    setVariable range.name (.decimal (← round range.start))
    return (before, ← decimal (range.step.ordered Ordering.isGT .zero))

/-- A loop over a range whose numbers are known. -/
def loopOver (limit : Nat) (range : Range) (body : Run Value) : Run Value := do
  let (before, up) ← prepare range
  let progress ← passes range up body limit {}
  settle range.name before progress
  return progress.result

end Run

end DecimalScript
