import DecimalScript.Value

/-! The trees of programs: nodes named after the rules of the grammar, and tokens.
Nodes and tokens know where they start. -/

namespace DecimalScript

/-- A place in a text: lines end at line feeds, columns count characters, both from one. -/
structure Pos where
  line : Nat
  column : Nat
  deriving DecidableEq, Repr, Inhabited

def Pos.after (p : Pos) (c : Char) : Pos :=
  if c = '\n' then ⟨p.line + 1, 1⟩ else ⟨p.line, p.column + 1⟩

/-- The rules of the grammar. -/
inductive Label where
  | start | statementList | statement | assignment | assignOp | expr
  | breakStmt | nextStmt | fromClause | whenClause | loopVar
  | forExpr | block | printCall | printArgs | printArg
  | conditionalExpr | orExpr | andExpr | notExpr | comparison
  | sum | product | power | unary | atom | number | var | funcCall | argList
  | sep | seps
  /-- A rule that no grammar of this language has. -/
  | other (name : String)
  deriving DecidableEq, Repr

namespace Label

def names : List (Label × String) :=
  [(start, "start"), (statementList, "statement_list"), (statement, "statement"),
   (assignment, "assignment"), (assignOp, "assign_op"), (expr, "expr"),
   (breakStmt, "break_stmt"), (nextStmt, "next_stmt"), (fromClause, "from_clause"),
   (whenClause, "when_clause"), (loopVar, "loop_var"), (forExpr, "for_expr"), (block, "block"),
   (printCall, "print_call"), (printArgs, "print_args"), (printArg, "print_arg"),
   (conditionalExpr, "conditional_expr"), (orExpr, "or_expr"), (andExpr, "and_expr"),
   (notExpr, "not_expr"), (comparison, "comparison"), (sum, "sum"), (product, "product"),
   (power, "power"), (unary, "unary"), (atom, "atom"), (number, "number"), (var, "var"),
   (funcCall, "func_call"), (argList, "arg_list"), (sep, "sep"), (seps, "seps")]

def name : Label → String
  | other name => name
  | label => (names.lookup label).getD ""

def ofName (name : String) : Label :=
  match names.find? (·.2 == name) with
  | some (label, _) => label
  | none => other name

end Label

/-- The kinds of tokens that stay in a tree. -/
inductive Terminal where
  | sep | name | number | string
  | assign | plusAssign | minusAssign | divAssign | modAssign
  | plus | minus | star | slash | mod | pow | compOp | or | and | not
  | other (name : String)
  deriving DecidableEq, Repr

namespace Terminal

def names : List (Terminal × String) :=
  [(sep, "SEP"), (name, "NAME"), (number, "NUMBER"), (string, "STRING"), (assign, "ASSIGN"),
   (plusAssign, "PLUS_ASSIGN"), (minusAssign, "MINUS_ASSIGN"), (divAssign, "DIV_ASSIGN"),
   (modAssign, "MOD_ASSIGN"), (plus, "PLUS"), (minus, "MINUS"), (star, "STAR"), (slash, "SLASH"),
   (mod, "MOD"), (pow, "POW"), (compOp, "COMP_OP"), (or, "OR"), (and, "AND"), (not, "NOT")]

def title : Terminal → String
  | other title => title
  | terminal => (names.lookup terminal).getD ""

def ofTitle (title : String) : Terminal :=
  match names.find? (·.2 == title) with
  | some (terminal, _) => terminal
  | none => other title

end Terminal

inductive Tree where
  /-- A node without any token has no place. -/
  | node (label : Label) (pos : Option Pos) (children : List Tree)
  | token (terminal : Terminal) (text : String) (pos : Pos)
  /-- A value put into a tree as it is. -/
  | value (v : Value)
  deriving Inhabited

end DecimalScript
