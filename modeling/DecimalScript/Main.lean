import DecimalScript.CommandLine.Run

/-! The command line program. -/

namespace DecimalScript.CommandLine

/-- The file that the arguments name, if it can be read. -/
def readFolder (arguments : List String) : IO Folder := do
  match readArguments arguments with
  | .ok (.run script _ _) =>
    try return [(script, ← IO.FS.readFile script)]
    catch _ => return []
  | _ => return []

end DecimalScript.CommandLine

def main (arguments : List String) : IO UInt32 := do
  let folder ← DecimalScript.CommandLine.readFolder arguments
  let report := DecimalScript.CommandLine.run DecimalScript.State.passLimit folder arguments
  IO.print report.out
  IO.eprint report.err
  match report.ending with
  | .code n => return n.toUInt32
  | .readingDirectory =>
    IO.eprintln "the script is a directory"
    return 1
  | .failure _ =>
    IO.eprintln "the script was stopped"
    return 1
