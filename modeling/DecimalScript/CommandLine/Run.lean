import DecimalScript.CommandLine.Arguments
import DecimalScript.CommandLine.Folder
import DecimalScript.CommandLine.Override
import DecimalScript.Session

/-! Running a script from the command line. -/

namespace DecimalScript.CommandLine

inductive Ending where
  | code (n : Nat)
  | readingDirectory
  | failure (failure : Failure)
  deriving DecidableEq, Repr

structure Report where
  ending : Ending
  out : String := ""
  err : String := ""
  deriving DecidableEq, Repr

/-- Runs a program, with a limit for the passes of each loop, and shows its value, if it has one.
Errors that programs make are reported; all else that stops it is passed on. -/
def runProgram (limit : Nat) (program : String) (overrides : List (String × Decimal))
    (tracing : Bool) : Report :=
  let given := overrides.map fun (name, x) => (name, Value.decimal x)
  let (result, s) := (State.new 28 given tracing).executeWithin limit program
  let shown : Except Failure String := match result with
    | .error failure => .error failure
    | .ok .none => .ok ""
    | .ok value => (s.format value).map (· ++ "\n")
  match shown with
  | .ok text => { ending := .code 0, out := s.outputText ++ text }
  | .error (.exit (.fault (.script cause pos))) =>
    { ending := .code 1, out := s.outputText, err := cause.report pos ++ "\n" }
  | .error failure => { ending := .failure failure, out := s.outputText }

/-- Runs the script at a path with the variables that the texts give. -/
def runScript (limit : Nat) (folder : Folder) (script : String) (items : List String)
    (tracing : Bool) : Report :=
  let path := cleanPath script
  match folder.entry path with
  | .missing => { ending := .code 2, err := "Script not found: " ++ path ++ "\n" }
  | entry =>
    match readOverrides items with
    | .error bad => { ending := .code 2, err := bad.message ++ "\n" }
    | .ok overrides =>
      match entry with
      | .file content =>
        runProgram limit (String.ofList (Text.unifyLineEnds content.toList)) overrides tracing
      | _ => { ending := .readingDirectory }

def run (limit : Nat) (folder : Folder) (arguments : List String) : Report :=
  match readArguments arguments with
  | .error complaint => { ending := .code 2, err := complaint.report }
  | .ok .help => { ending := .code 0, out := helpText }
  | .ok (.run script items tracing) => runScript limit folder script items tracing

end DecimalScript.CommandLine
