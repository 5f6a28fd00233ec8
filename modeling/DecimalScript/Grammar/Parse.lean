import DecimalScript.Grammar.Lexeme
import DecimalScript.Tree.Basic

/-! What a rule of the grammar makes of a text: all the ways to read its start, in
order of preference, and how far into the text the attempts came. -/

namespace DecimalScript.Grammar

/-- One way to read the start of a text. -/
structure Reading where
  /-- What the reading adds to the node around it. -/
  kids : List Tree
  /-- Where its first token starts, also one that leaves no trace in the tree. -/
  start : Option Pos
  /-- The number of characters it takes. -/
  length : Nat

def Reading.empty : Reading := ⟨[], none, 0⟩

def Reading.append (r s : Reading) : Reading :=
  ⟨r.kids ++ s.kids, r.start <|> s.start, r.length + s.length⟩

structure Parse where
  readings : List Reading
  /-- The largest number of characters before a place where a token was looked for. -/
  reach : Nat

/-- No reading, and nothing was looked for. -/
def Parse.nothing : Parse := ⟨[], 0⟩

/-- A place in the text, with the parses of the rules there. They are calculated
when they are first asked for. -/
structure Row where
  rest : List Char
  pos : Pos
  atom : Thunk Parse := Thunk.pure .nothing
  unary : Thunk Parse := Thunk.pure .nothing
  power : Thunk Parse := Thunk.pure .nothing
  product : Thunk Parse := Thunk.pure .nothing
  sum : Thunk Parse := Thunk.pure .nothing
  comparison : Thunk Parse := Thunk.pure .nothing
  negation : Thunk Parse := Thunk.pure .nothing
  conjunction : Thunk Parse := Thunk.pure .nothing
  disjunction : Thunk Parse := Thunk.pure .nothing
  conditional : Thunk Parse := Thunk.pure .nothing
  expr : Thunk Parse := Thunk.pure .nothing
  statement : Thunk Parse := Thunk.pure .nothing
  statements : Thunk Parse := Thunk.pure .nothing

/-- A parser reads at the first of the given rows; the others are the places after
it, one for each further character. -/
abbrev Parser := List Row → Parse

namespace Parser

/-- The parse of a rule at the place itself. -/
def rule (field : Row → Thunk Parse) : Parser
  | [] => .nothing
  | row :: _ => (field row).get

def empty : Parser := fun _ => ⟨[.empty], 0⟩

def followedBy (p q : Parser) : Parser := fun rows =>
  let first := p rows
  let parts := first.readings.map fun r => (r, q (rows.drop r.length))
  { readings := parts.flatMap fun (r, rest) => rest.readings.map r.append
    reach := parts.foldl (fun reach (r, rest) => max reach (r.length + rest.reach)) first.reach }

def sequence : List Parser → Parser
  | [] => empty
  | [p] => p
  | p :: rest => p.followedBy (sequence rest)

/-- Of the readings that take the same characters the first one stays. -/
def distinct : List Reading → List Reading
  | [] => []
  | r :: rest => r :: (distinct rest).filter (·.length != r.length)

/-- All readings of several parsers; where two take the same characters, the parser
written first wins. -/
def choice (parsers : List Parser) : Parser := fun rows =>
  let parses := parsers.map (· rows)
  { readings := distinct (parses.flatMap (·.readings))
    reach := parses.foldl (fun reach parse => max reach parse.reach) 0 }

/-- At most `limit` repetitions, fewer of them preferred. -/
def atMost (p : Parser) : (limit : Nat) → Parser
  | 0 => empty
  | limit + 1 => choice [empty, p.followedBy (atMost p limit)]

/-- Any number of repetitions. A text has no more tokens than places. -/
def many (p : Parser) : Parser := fun rows => atMost p rows.length rows

/-- One repetition at least. -/
def several (p : Parser) : Parser := p.followedBy (many p)

/-- Changes what each reading adds to the node around it. -/
def wrap (f : Option Pos → List Tree → List Tree) (p : Parser) : Parser := fun rows =>
  let parse := p rows
  { parse with readings := parse.readings.map fun r => { r with kids := f r.start r.kids } }

def node (label : Label) : Parser → Parser :=
  wrap fun start kids => [.node label start kids]

/-- Makes a node of a reading unless it has exactly one part, which then stands for itself. -/
def grouped (label : Label) : Parser → Parser :=
  wrap fun start kids => match kids with
    | [kid] => [kid]
    | kids => [.node label start kids]

/-- A lexeme after blanks and comments. -/
def lexed (lexeme : Lexeme) (kids : String → Pos → List Tree) : Parser
  | [] => .nothing
  | row :: later =>
    let gap := gapLength false row.rest
    match (row :: later).drop gap with
    | [] => ⟨[], gap⟩
    | here :: _ =>
      match lexeme here.rest with
      | none => ⟨[], gap⟩
      | some length =>
        let text := String.ofList (here.rest.take length)
        ⟨[⟨kids text here.pos, some here.pos, gap + length⟩], gap⟩

def token (terminal : Terminal) (lexeme : Lexeme) : Parser :=
  lexed lexeme fun text pos => [.token terminal text pos]

/-- A keyword or a punctuation mark, which leaves no token. -/
def word (spelling : String) : Parser := lexed (spelled spelling) fun _ _ => []

end Parser

end DecimalScript.Grammar
