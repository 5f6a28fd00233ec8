import DecimalScript.Grammar.Rules

/-! Reading a whole program. The places of the text get their rows from the last
to the first, so a rule finds the parses of all later places at hand; at its own
place it needs only the rules entered into the row before it. -/

namespace DecimalScript.Grammar

/-- The row of a place, before the rows of all later places. -/
def rowAt (rest : List Char) (pos : Pos) (later : List Row) : Row :=
  let row : Row := { rest, pos }
  let row := { row with atom := ⟨fun _ => atom (row :: later)⟩ }
  let row := { row with unary := ⟨fun _ => unary (row :: later)⟩ }
  let row := { row with power := ⟨fun _ => power (row :: later)⟩ }
  let row := { row with product := ⟨fun _ => product (row :: later)⟩ }
  let row := { row with sum := ⟨fun _ => sum (row :: later)⟩ }
  let row := { row with comparison := ⟨fun _ => comparison (row :: later)⟩ }
  let row := { row with negation := ⟨fun _ => negation (row :: later)⟩ }
  let row := { row with conjunction := ⟨fun _ => conjunction (row :: later)⟩ }
  let row := { row with disjunction := ⟨fun _ => disjunction (row :: later)⟩ }
  let row := { row with conditional := ⟨fun _ => conditional (row :: later)⟩ }
  let row := { row with expr := ⟨fun _ => expr (row :: later)⟩ }
  let row := { row with statement := ⟨fun _ => statement (row :: later)⟩ }
  { row with statements := ⟨fun _ => statements (row :: later)⟩ }

/-- The rows of all places of a text, its end included. -/
def rows : List Char → Pos → List Row
  | [], pos => [rowAt [] pos []]
  | c :: rest, pos =>
    let later := rows rest (pos.after c)
    rowAt (c :: rest) pos later :: later

/-- Why a text is not a program. -/
inductive Mistake where
  /-- No token that may stand here starts with this character. -/
  | unexpectedCharacter (pos : Pos)
  | unexpectedEnd
  deriving DecidableEq, Repr

/-- The mistake at the place that was reached. -/
def mistakeAt (rows : List Row) (reach : Nat) : Mistake :=
  match rows.drop reach with
  | row :: _ => if row.rest.isEmpty then .unexpectedEnd else .unexpectedCharacter row.pos
  | [] => .unexpectedEnd

/-- The tree of a program. All of the text has to be read, up to blanks and
comments at its end. -/
def parse (text : String) : Except Mistake Tree :=
  let chars := text.toList
  let rows := rows chars ⟨1, 1⟩
  let parse := Parser.rule Row.statements rows
  let isWhole (r : Reading) : Bool :=
    r.length + gapLength false (chars.drop r.length) == chars.length
  match (parse.readings.filter isWhole).flatMap (·.kids) with
  | tree :: _ => .ok tree
  | [] => .error (mistakeAt rows parse.reach)

end DecimalScript.Grammar
