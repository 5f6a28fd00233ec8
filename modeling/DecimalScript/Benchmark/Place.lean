/-! The files of a profile: those of the measured project, and labels for the others. -/

namespace DecimalScript.Benchmark

def projectParts : List String := ["repo"]

/-- The parts of a path from the root: a part that goes up takes the part before it away. -/
def resolveParts (above : List String) : List String → List String
  | [] => above.reverse
  | part :: rest =>
    if part = "" || part = "." then resolveParts above rest
    else if part = ".." then resolveParts above.tail rest
    else resolveParts (part :: above) rest

/-- The parts of a path, where a relative path starts at the project. -/
def partsOf (file : String) : List String :=
  let start := if file.startsWith "/" then [] else projectParts.reverse
  resolveParts start (file.splitOn "/")

/-- The last part of a path as it is written. -/
def baseName (file : String) : String := (file.splitOn "/").getLastD ""

/-- Directories whose files are not the project's own work. -/
def isForeign (directory : String) : Bool :=
  ["venv", "build", "dist", "vendor", "node_modules"].contains directory ||
    directory.endsWith ".egg-info"

def benchmarkFile : String := "microbench.py"

/-- Whether a file is the project's own work. The benchmarks and the measuring tools are not. -/
def isOwn (file : String) : Bool :=
  if file = "~" || file.startsWith "<" then false
  else match partsOf file with
    | "repo" :: part :: rest =>
      let name := rest.getLastD part
      !name.startsWith "_pti_" && name != benchmarkFile &&
        !((part :: rest).dropLast.any isForeign)
    | _ => false

/-- Whether a file holds compiled code: built in, or a library of the machine. -/
def isCompiled (file : String) : Bool :=
  file = "~" || file.endsWith ".so" || file.endsWith ".pyd"

/-- A file name without the ending of sources; a name that is the ending alone stays. -/
def stem (name : String) : String :=
  if name.endsWith ".py" && 2 < (name.toList.dropWhile (· == '.')).length then
    String.ofList (name.toList.take (name.length - 3))
  else name

/-- What a file that is not the project's own is called in a report. -/
def label (file : String) : String :=
  if file = "~" then "builtins"
  else if baseName file = benchmarkFile then "<run() body>"
  else stem (baseName file)

end DecimalScript.Benchmark
