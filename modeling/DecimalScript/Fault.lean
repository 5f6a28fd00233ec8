import DecimalScript.Tree.Basic

/-! What can go wrong in a program, by cause, and the texts of the causes. -/

namespace DecimalScript

/-- What a number was needed for. -/
inductive Usage where
  | operation | sum | product | powerBase | powerExponent | unary | compoundAssignment
  | loopStart | loopEnd | loopStep
  | other (phrase : String)
  deriving DecidableEq, Repr

def Usage.phrase : Usage → String
  | operation => "operation"
  | sum => "arithmetic operation (sum)"
  | product => "arithmetic operation (product)"
  | powerBase => "power operation (base)"
  | powerExponent => "power operation (exponent)"
  | unary => "unary operation"
  | compoundAssignment => "compound assignment"
  | loopStart => "for loop start"
  | loopEnd => "for loop end"
  | loopStep => "for loop step"
  | other phrase => phrase

/-- The connectives of truth values. -/
inductive Connective where
  | or | and
  deriving DecidableEq, Repr

def Connective.word : Connective → String
  | or => "or"
  | and => "and"

/-- The operand of a connective that was no truth value. -/
inductive Side where
  | left | right
  deriving DecidableEq, Repr

def Side.word : Side → String
  | left => "Left"
  | right => "Right"

/-- The causes of errors that programs can make. -/
inductive Cause where
  | divisionByZero | modByZero | cotangentByZero | rootByZero
  | unbound (name : String)
  | booleanAssigned (name : String)
  | booleanUsed (usage : Usage)
  | conditionNotBoolean
  | operandNotBoolean (side : Side) (connective : Connective) (typeName : String)
  | negatedNotBoolean (typeName : String)
  | breakOutsideLoop
  | nextOutsideLoop
  | loopVariableInUse (name : String)
  | loopNotFound (name : String)
  | unsupportedNode (name : String)
  | unsupportedAssignment (operator : String)
  | unknownComparison (operator : String)
  | notNumeric (typeName : String)
  | zeroStep
  | unknownFunction (name : String)
  | arity (name : String) (count : Nat)
  | precisionArgument
  | rootDomain (name : String)
  | functionDomain
  | infiniteExponent
  deriving DecidableEq, Repr

namespace Cause

/-- The kinds of causes that a caller can tell apart. -/
inductive Kind where
  | general | divisionByZero | unbound | boolean | breakOutsideLoop | nextOutsideLoop
  | duplicateLoopVariable | loopNotFound
  deriving DecidableEq, Repr

def kind : Cause → Kind
  | divisionByZero | modByZero | cotangentByZero | rootByZero => .divisionByZero
  | unbound _ => .unbound
  | booleanAssigned _ | booleanUsed _ | conditionNotBoolean | operandNotBoolean ..
  | negatedNotBoolean _ => .boolean
  | breakOutsideLoop => .breakOutsideLoop
  | nextOutsideLoop => .nextOutsideLoop
  | loopVariableInUse _ => .duplicateLoopVariable
  | loopNotFound _ => .loopNotFound
  | _ => .general

def message : Cause → String
  | divisionByZero => "division by zero"
  | modByZero => "mod division by zero"
  | cotangentByZero => "ctg division by zero"
  | rootByZero => "nrt division by zero"
  | unbound name => "Variable not found: " ++ name
  | booleanAssigned name => "Cannot assign boolean value to variable " ++ name
  | booleanUsed usage => "Cannot use boolean value in " ++ usage.phrase
  | conditionNotBoolean => "Condition in conditional expression must evaluate to boolean"
  | operandNotBoolean side connective typeName =>
    side.word ++ " operand of '" ++ connective.word ++ "' must be boolean, got " ++ typeName
  | negatedNotBoolean typeName => "Operand of 'not' must be boolean, got " ++ typeName
  | breakOutsideLoop => "break statement used outside loop"
  | nextOutsideLoop => "next statement used outside loop"
  | loopVariableInUse name => "Loop variable '" ++ name ++ "' is already in use"
  | loopNotFound name => "Loop with variable '" ++ name ++ "' not found"
  | unsupportedNode name => "Unsupported syntax node: " ++ name
  | unsupportedAssignment operator => "Unsupported assignment operator: " ++ operator
  | unknownComparison operator => "Unknown comparison operator: " ++ operator
  | notNumeric typeName => "Expected numeric value, got " ++ typeName
  | zeroStep => "Step cannot be zero"
  | unknownFunction name => "Unknown function: " ++ name
  | arity name count =>
    name ++ " expects " ++ Nat.repr count ++ (if count = 1 then " argument" else " arguments")
  | precisionArgument => "set_precision expects integer >= 0"
  | rootDomain name => name ++ " domain error"
  | functionDomain => "math domain error"
  | infiniteExponent => "cannot convert Infinity to integer"

end Cause

/-- How a tree differs from those of the grammar. -/
inductive Defect where
  /-- A node has too few children. -/
  | missing
  /-- A child is a node where a token is needed, or the other way round. -/
  | wrongKind
  deriving DecidableEq, Repr

/-- What stops a program. -/
inductive Fault where
  /-- An error with a text and, mostly, a place. -/
  | script (cause : Cause) (pos : Option Pos)
  | trap (condition : Decimal.Trap)
  /-- A number is too large for its kind. -/
  | tooLarge
  /-- Zero was raised to a negative power, or inverted, as a double. -/
  | zeroInverted
  /-- A number has no value of the kind that is needed. -/
  | noSuchValue
  /-- A string literal is not well formed. -/
  | badLiteral
  /-- A node has no place, and one is needed. -/
  | noPlace
  /-- A variable is gone that has to be there. -/
  | variableGone
  | malformed (defect : Defect)
  deriving DecidableEq, Repr

/-- The text of an error, with its place where one is known. -/
def Cause.report (cause : Cause) : Option Pos → String
  | none => cause.message
  | some pos =>
    cause.message ++ " (line " ++ Nat.repr pos.line ++ ", column " ++ Nat.repr pos.column ++ ")"

end DecimalScript
