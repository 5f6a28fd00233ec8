import DecimalScript.Grammar.Parse

/-! The rules of the language. In each of them the alternative written first wins
where two read the same characters. -/

namespace DecimalScript.Grammar

open Grammar.Parser

def name : Parser := token .name nameLexeme

def separator : Parser := token .sep separatorLexeme

/-- Expressions separated by commas. -/
def listOf (item : Parser) : Parser :=
  item.followedBy (many (sequence [word ",", item]))

/-- Operands with operators between them. One operand alone stands for itself. -/
def chain (label : Label) (operand : Parser) (operator : Parser) : Parser :=
  let more := operator.followedBy operand
  choice [node label (sequence [operand, more, many more]), operand]

/-! ### Operands -/

def argList : Parser := node .argList (listOf (rule Row.expr))

def funcCall : Parser :=
  node .funcCall <| choice
    [sequence [name, word "(", argList, word ")"],
     sequence [name, word "(", word ")"]]

/-- An operand in parentheses stands for itself and keeps its own place. -/
def atom : Parser := choice
  [node .number (token .number numberLexeme),
   funcCall,
   node .var name,
   sequence [word "(", rule Row.conditional, word ")"]]

def plusOrMinus : Parser := choice [token .plus (spelled "+"), token .minus (spelled "-")]

def unary : Parser := choice
  [node .unary (plusOrMinus.followedBy (rule Row.unary)),
   rule Row.atom]

/-- The power of a power is taken from the right. -/
def power : Parser := choice
  [node .power (sequence [rule Row.unary, token .pow (spelled "**"), rule Row.power]),
   rule Row.unary]

def product : Parser :=
  chain .product (rule Row.power) <| choice
    [token .star (spelled "*"), token .slash (spelled "/"), token .mod (spelled "mod")]

def sum : Parser := chain .sum (rule Row.product) plusOrMinus

def comparison : Parser := chain .comparison (rule Row.sum) (token .compOp comparisonLexeme)

def negation : Parser := choice
  [node .notExpr ((token .not (spelled "not")).followedBy (rule Row.negation)),
   rule Row.comparison]

def conjunction : Parser := chain .andExpr (rule Row.negation) (token .and (spelled "and"))

def disjunction : Parser := chain .orExpr (rule Row.conjunction) (token .or (spelled "or"))

/-! ### Expressions -/

/-- A value, or two values with a condition between them. Separators may stand
before the second value. -/
def conditional : Parser :=
  let head := [rule Row.disjunction, word "if", rule Row.disjunction, word "else"]
  node .conditionalExpr <| choice
    [rule Row.disjunction,
     sequence (head ++ [several separator, rule Row.conditional]),
     sequence (head ++ [rule Row.conditional])]

def block : Parser := node .block (sequence [word "(", rule Row.statements, word ")"])

def forExpr : Parser :=
  let head := [word "for", name, word "in", rule Row.expr, word "..", rule Row.expr]
  node .forExpr <| choice
    [sequence (head ++ [word "by", rule Row.expr, block]),
     sequence (head ++ [block])]

def printArg : Parser :=
  node .printArg <| choice [token .string stringLexeme, rule Row.expr]

def printCall : Parser :=
  node .printCall <| choice
    [sequence [word "print", word "(", node .printArgs (listOf printArg), word ")"],
     sequence [word "print", word "(", word ")"]]

def expr : Parser := choice [forExpr, block, printCall, rule Row.conditional]

/-! ### Statements -/

def assignOp : Parser :=
  node .assignOp <| choice
    [token .assign (spelled "="), token .plusAssign (spelled "+="),
     token .minusAssign (spelled "-="), token .divAssign (spelled "/="),
     token .modAssign (spelled "mod=")]

def assignment : Parser := node .assignment (sequence [name, assignOp, rule Row.expr])

def fromClause : Parser := node .fromClause (sequence [word "from", name])

def whenClause : Parser := node .whenClause (sequence [word "when", rule Row.expr])

def loopVar : Parser := node .loopVar name

def breakStmt : Parser :=
  let tail := [word "with", rule Row.expr]
  node .breakStmt <| choice
    [sequence ([word "break", fromClause, whenClause] ++ tail),
     sequence ([word "break", fromClause] ++ tail),
     sequence ([word "break", whenClause] ++ tail),
     sequence (word "break" :: tail)]

def nextStmt : Parser :=
  node .nextStmt <| choice
    [sequence [word "next", loopVar, whenClause],
     sequence [word "next", loopVar],
     sequence [word "next", whenClause],
     word "next"]

def statement : Parser := choice [assignment, breakStmt, nextStmt, rule Row.expr]

/-- Statements with separators between them, which stay in the tree. Several statements are
preferred to one that takes the same characters. -/
def statements : Parser :=
  grouped .statementList <| choice
    [sequence
      [many separator, rule Row.statement,
       several (sequence [several separator, rule Row.statement]), many separator],
     sequence [many separator, rule Row.statement, many separator],
     many separator]

end DecimalScript.Grammar
