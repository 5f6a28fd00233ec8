import DecimalScript.Term.Basic

/-! From trees to terms. Every tree has a term; what a tree lacks shows when its
term is evaluated, and not before. -/

namespace DecimalScript

/-- Something found in a tree, with its depth below the root. -/
abbrev Found (α : Type) := Option (Nat × α)

/-- The deeper of two finds, of equally deep ones the left. -/
def Found.deeper {α : Type} : Found α → Found α → Found α
  | none, found => found
  | found, none => found
  | some (m, a), some (n, b) => if m < n then some (n, b) else some (m, a)

def Found.below {α : Type} (found : Found α) : Found α := found.map fun (n, a) => (n + 1, a)

/-- A term, and what the nodes around it need of its tree. -/
structure Draft where
  term : Term
  /-- The terms of the children. -/
  items : List Term := []
  /-- The terms of the children that are arguments of `print`. -/
  printed : List Term := []
  /-- The deepest clause with the name of the loop to leave. -/
  exit : Found (Except Defect String) := none
  /-- The deepest clause with a condition. -/
  guard : Found Term := none
  /-- The deepest clause with the name of the loop to go on with. -/
  next : Found (Except Defect String) := none
  deriving Inhabited

/-- A child of a node with its draft. -/
structure Part where
  tree : Tree
  draft : Draft

namespace Part

def term (part : Part) : Term := part.draft.term

def isToken (part : Part) (terminal : Terminal) : Bool :=
  match part.tree with
  | .token t _ _ => t == terminal
  | _ => false

def isNode (part : Part) (label : Label) : Bool :=
  match part.tree with
  | .node l _ _ => l == label
  | _ => false

/-- The text of a token and its place. -/
def token (part : Part) : Except Defect (String × Pos) :=
  match part.tree with
  | .token _ text pos => .ok (text, pos)
  | _ => .error .wrongKind

/-- The term of a child that is read as the right operand of an operator. -/
def rightOf (operator : Part) (right : Term) : Term :=
  match operator.token with
  | .ok _ => right
  | .error defect => .malformed defect

/-- Whether a token has the given text. -/
def reads (part : Part) (text : String) : Bool :=
  match part.token with
  | .ok (t, _) => t == text
  | .error _ => false

end Part

namespace Term

def ofFirst : List Part → Term
  | part :: _ => part.term
  | [] => .malformed .missing

/-- Does something with the first child, which has to be a token. -/
def withToken (parts : List Part) (f : String → Pos → Term) : Term :=
  match parts with
  | [] => .malformed .missing
  | part :: _ =>
    match part.token with
    | .ok (text, pos) => f text pos
    | .error defect => .malformed defect

/-- The operands after the first, each with its operator. A last operator without
an operand is malformed. -/
def operands : List Part → List (Part × Term)
  | [] => []
  | [operator] => [(operator, operator.rightOf (.malformed .missing))]
  | operator :: right :: rest => (operator, operator.rightOf right.term) :: operands rest

def ofSum : List Part → Term
  | [] => .malformed .missing
  | first :: rest =>
    (operands rest).foldl (fun left (operator, right) => .sum (!operator.reads "+") left right)
      (.numeric .sum first.term)

def productOp (operator : Part) : ProductOp :=
  if operator.reads "*" then .mul else if operator.reads "/" then .div else .mod

def ofProduct (pos : Option Pos) : List Part → Term
  | [] => .malformed .missing
  | first :: rest =>
    (operands rest).foldl (fun left (operator, right) => .product (productOp operator) left right pos)
      (.unwrapped first.term)

def ofPower (pos : Option Pos) : List Part → Term
  | [] => .malformed .missing
  | [base] => .numeric .powerBase base.term
  | base :: _ :: rest => .power base.term (ofFirst rest) pos

def ofUnary : List Part → Term
  | [] => .malformed .missing
  | [item] => item.term
  | operator :: item :: _ =>
    match operator.token with
    | .ok (text, _) => .signed (text != "+") item.term
    | .error defect => .malformed defect

/-- The children in the even places after the first. -/
def alternate : List Part → List Term
  | _ :: right :: rest => right.term :: alternate rest
  | _ => []

def ofConnective (connective : Connective) : List Part → Term
  | [] => .malformed .missing
  | first :: rest =>
    (alternate rest).foldl (.connected connective) (.boolean connective first.term)

def ofNegation : List Part → Term
  | [item] => item.term
  | _ :: item :: _ => .negated item.term
  | [] => .malformed .missing

/-- The operators of a chain of comparisons and the operands after them. -/
def links : List Part → List (String × Term)
  | operator :: right :: rest =>
    match operator.token with
    | .ok (text, _) => (text, right.term) :: links rest
    | .error defect => [("", .malformed defect)]
  | _ => []

def ofComparison : List Part → Term
  | [] => .constant (.bool true)
  | [item] => item.term
  | first :: rest => .comparison first.term ((links rest).map (·.1)) ((links rest).map (·.2))

def ofConditional (parts : List Part) : Term :=
  match parts.filter (!·.isToken .sep) with
  | [item] => item.term
  | holds :: condition :: otherwise :: _ =>
    .conditional condition.term holds.term otherwise.term
  | _ => .malformed .missing

def assignOp (text : String) : AssignOp :=
  match text with
  | "=" => .set
  | "+=" => .add
  | "-=" => .sub
  | "/=" => .div
  | "mod=" => .mod
  | text => .other text

/-- The operator of an assignment: the first child of a node. -/
def readAssignOp : List Tree → Except Defect AssignOp
  | [] => .error .missing
  | .token _ text _ :: _ => .ok (assignOp text)
  | _ => .error .wrongKind

def ofAssignment (pos : Option Pos) (parts : List Part) : Term :=
  withToken parts fun name namePos =>
    match parts.drop 1 with
    | [] => .malformed .missing
    | operator :: rest =>
      match operator.tree with
      | .node _ _ children => .assign name namePos (readAssignOp children) (ofFirst rest) pos
      | _ => .malformed .wrongKind

def ofCall (parts : List Part) : Term :=
  withToken parts fun name pos =>
    match parts.drop 1 with
    | [] => .call name pos []
    | arguments :: _ =>
      match arguments.tree with
      | .node .. => .call name pos arguments.draft.items
      | _ => .malformed .wrongKind

def ofPrint : List Part → Term
  | [] => .print []
  | arguments :: _ =>
    match arguments.tree with
    | .node .. => .print arguments.draft.printed
    | _ => .malformed .wrongKind

/-- A loop has a name, its bounds, a step if there are five children, and its body last. -/
def ofLoop (pos : Option Pos) (parts : List Part) : Term :=
  withToken parts fun name _ =>
    let child (n : Nat) : Term := ofFirst (parts.drop n)
    let showsStep := parts.length == 5
    let step := if showsStep then child 3 else .constant (.decimal .one)
    .loop name (child 1) (child 2) step showsStep (child (parts.length - 1)) pos

def clauseName : List Part → Except Defect String
  | [] => .error .missing
  | part :: _ => part.token.map (·.1)

def target (found : Found (Except Defect String)) : Target :=
  match found with
  | none => .ok none
  | some (_, name) => name.map some

/-- The condition of a statement; without one it always holds. -/
def guardOf (found : Found Term) : Term :=
  match found with
  | none => .constant (.bool true)
  | some (_, guard) => guard

/-- What tracing shows after a statement with this tree. -/
def noteOf (label : Label) (children : List Tree) : Note :=
  match label, children with
  | .assignment, .token _ name _ :: _ => .assigned name
  | .assignment, _ | .printCall, _ | .forExpr, _ => .silent
  | _, _ => .result

/-- A statement of a list; only nodes are traced. -/
def ofStatement (part : Part) : Term :=
  match part.tree with
  | .node label pos children => .traced (noteOf label children) pos part.term
  | _ => part.term

def ofStatementList (parts : List Part) : Term :=
  .sequence ((parts.filter fun part => !part.isToken .sep && !part.isNode .sep).map ofStatement)

/-- The children that are no separators. -/
def content (parts : List Part) : List Part :=
  parts.filter fun part => !part.isToken .sep && !part.isNode .sep && !part.isNode .seps

/-- The children up to the first that is a list of statements. -/
def upToList : List Part → List Part
  | [] => []
  | part :: rest => if part.isNode .statementList then [part] else part :: upToList rest

/-- The terms of the children that are arguments of `print`. -/
def printedTerms (parts : List Part) : List Term :=
  (parts.filter (·.isNode .printArg)).map Part.term

def ofNode (label : Label) (pos : Option Pos) (parts : List Part)
    (exit : Found (Except Defect String)) (guard : Found Term)
    (next : Found (Except Defect String)) : Term :=
  match label with
  | .start => .sequence ((content parts).map Part.term)
  | .statementList => ofStatementList parts
  | .statement | .expr | .atom | .printArg => ofFirst parts
  | .assignment => ofAssignment pos parts
  | .breakStmt => .leave (target exit) (guardOf guard) (ofFirst (parts.drop (parts.length - 1))) pos
  | .nextStmt => .skip (target next) (guardOf guard) pos
  | .forExpr => ofLoop pos parts
  | .block => .sequence ((upToList (content parts)).map Part.term)
  | .printCall => ofPrint parts
  | .conditionalExpr => ofConditional parts
  | .orExpr => ofConnective .or parts
  | .andExpr => ofConnective .and parts
  | .notExpr => ofNegation parts
  | .comparison => ofComparison parts
  | .sum => ofSum parts
  | .product => ofProduct pos parts
  | .power => ofPower pos parts
  | .unary => ofUnary parts
  | .number => withToken parts fun text _ => .number text
  | .var => withToken parts fun name pos => .var name pos
  | .funcCall => ofCall parts
  | .argList => .row (parts.map Part.term)
  | .printArgs => .row (printedTerms parts)
  | label => .unsupported label.name

def ofToken (terminal : Terminal) (text : String) (pos : Pos) : Term :=
  match terminal with
  | .number => .exactNumber text
  | .name => .var text pos
  | .string => .quoted text
  | _ => .constant (.text text)

end Term

/-- The deepest find of several parts. -/
def deepest {α : Type} (find : Draft → Found α) (parts : List Part) : Found α :=
  parts.foldl (fun found part => found.deeper (find part.draft).below) none

/-- What a node itself adds to the finds below it. -/
def Found.orHere {α : Type} (found : Found α) (isHere : Bool) (here : α) : Found α :=
  found <|> if isHere then some (0, here) else none

def Draft.ofNode (label : Label) (pos : Option Pos) (parts : List Part) : Draft :=
  let exit := deepest Draft.exit parts
  let guard := deepest Draft.guard parts
  let next := deepest Draft.next parts
  { term := Term.ofNode label pos parts exit guard next
    items := parts.map Part.term
    printed := Term.printedTerms parts
    exit := exit.orHere (label == .fromClause) (Term.clauseName parts)
    guard := guard.orHere (label == .whenClause) (Term.ofFirst parts)
    next := next.orHere (label == .loopVar) (Term.clauseName parts) }

mutual

def Draft.ofTree : Tree → Draft
  | .node label pos children => Draft.ofNode label pos (Draft.ofTrees children)
  | .token terminal text pos => { term := Term.ofToken terminal text pos }
  | .value v => { term := .constant v }

def Draft.ofTrees : List Tree → List Part
  | [] => []
  | tree :: rest => ⟨tree, Draft.ofTree tree⟩ :: Draft.ofTrees rest

end

def Term.ofTree (tree : Tree) : Term := (Draft.ofTree tree).term

end DecimalScript
