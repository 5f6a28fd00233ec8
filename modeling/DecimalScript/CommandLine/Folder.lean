/-! The files that a script can be read from, by their paths. -/

namespace DecimalScript.CommandLine

/-- The parts of a path; empty ones and single points do not count. -/
def pathParts (path : String) : List String :=
  (path.splitOn "/").filter fun part => part != "" && part != "."

/-- A path with its parts alone. Two slashes in front are kept, more are one. -/
def cleanPath (path : String) : String :=
  let root :=
    if path.startsWith "///" then "/" else if path.startsWith "//" then "//"
    else if path.startsWith "/" then "/" else ""
  let clean := root ++ "/".intercalate (pathParts path)
  if clean = "" then "." else clean

inductive Entry where
  | missing
  | directory
  | file (content : String)
  deriving DecidableEq, Repr

abbrev Folder := List (String × String)

/-- What stands at the parts of a path, seen from a directory of the folder. -/
def Folder.walk (folder : Folder) (directory : List String) : List String → Entry
  | [] => .directory
  | ".." :: rest =>
    if directory.isEmpty then (if rest.isEmpty then .directory else .missing)
    else folder.walk directory.dropLast rest
  | part :: rest =>
    let here := directory ++ [part]
    match folder.find? (fun (path, _) => pathParts path == here) with
    | some (_, content) => if rest.isEmpty then .file content else .missing
    | none =>
      if folder.any fun (path, _) => here.isPrefixOf (pathParts path) then folder.walk here rest
      else .missing

/-- What stands at a path. A path from the root is found only as it is written. -/
def Folder.entry (folder : Folder) (path : String) : Entry :=
  match folder.find? (fun (other, _) => cleanPath other == cleanPath path) with
  | some (_, content) => .file content
  | none =>
    if path.startsWith "/" then (if (pathParts path).isEmpty then .directory else .missing)
    else folder.walk [] (pathParts path)

end DecimalScript.CommandLine
