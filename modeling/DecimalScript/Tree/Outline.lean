import DecimalScript.Tree.Basic

/-! Trees as indented text, one line for a node or a token. -/

namespace DecimalScript.Tree

def indent (depth : Nat) : String := String.ofList (List.replicate (2 * depth) ' ')

mutual

/-- The lines of a tree at a depth. A node with a token as its only child has the
text of the token on its own line, after a tabulator. -/
def outlineAt (depth : Nat) : Tree → String
  | .node label _ children =>
    indent depth ++ label.name ++
      match children with
      | [.token _ text _] => "\t" ++ text ++ "\n"
      | [.value v] => "\t" ++ v.plainText ++ "\n"
      | children => "\n" ++ outlineAll (depth + 1) children
  | .token _ text _ => indent depth ++ text ++ "\n"
  | .value v => indent depth ++ v.plainText ++ "\n"

def outlineAll (depth : Nat) : List Tree → String
  | [] => ""
  | child :: rest => outlineAt depth child ++ outlineAll depth rest

end

/-- The outline of a node; a token alone has none. -/
def outline? : Tree → Option String
  | tree@(.node ..) => some (outlineAt 0 tree)
  | _ => none

/-- A program of two assignments to show an outline of. -/
def sampleProgram : String := "x = 5\ny = 10"

end DecimalScript.Tree
