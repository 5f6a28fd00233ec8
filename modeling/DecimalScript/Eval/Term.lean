import DecimalScript.Eval.Function
import DecimalScript.Eval.Loop
import DecimalScript.Term.Basic
import DecimalScript.Text.Quoted

/-! The value of a term. `limit` bounds how often each loop may pass through its
body; a program that ends gives the same answer with every larger limit. -/

namespace DecimalScript.Run

/-- A truth value as an operand of a connective. -/
def truth (side : Side) (connective : Connective) : Value → Run Bool
  | .bool b => pure b
  | value => blame (.operandNotBoolean side connective value.typeName)

/-- An operation on the numbers of a variable and of the value that is assigned to it. -/
def onNumbers (f : Decimal → Decimal → Run Decimal) (current value : Value) : Run Decimal := do
  let x ← numeric .compoundAssignment current
  let y ← numeric .compoundAssignment value
  f x y

/-- The number that an assignment makes of the old value of its variable and a new one. -/
def combined (op : AssignOp) (current value : Value) (pos : Option Pos) : Run Decimal :=
  match op with
  | .set | .add => onNumbers add current value
  | .sub => onNumbers sub current value
  | .div => onNumbers (div · · pos) current value
  | .mod => onNumbers (mod · · pos) current value
  | .other operator => blameNode (.unsupportedAssignment operator) pos

/-- Gives a variable a value, or changes the number it holds. -/
def assign (name : String) (namePos : Pos) (op : AssignOp) (value : Value) (pos : Option Pos) :
    Run Unit :=
  match value, op with
  | .bool _, _ => blameAt (.booleanAssigned name) namePos
  | value, .set => setVariable name value
  | value, op => do
    match (← get).env.get? name with
    | none => blameAt (.unbound name) namePos
    | some current => setVariable name (.decimal (← combined op current value pos))

/-- The running loop that a statement aims at. -/
def findLoop (target : Target) (outside : Cause) (pos : Option Pos) : Run String := do
  match (← get).loops with
  | [] => blameNode outside pos
  | innermost :: outer =>
    match target with
    | .error defect => fail (.malformed defect)
    | .ok none => pure innermost
    | .ok (some name) =>
      if (innermost :: outer).contains name then pure name
      else blameNode (.loopNotFound name) pos

/-- An operation on two numbers of a product. -/
def multiply (op : ProductOp) (x y : Decimal) (pos : Option Pos) : Run Decimal :=
  match op with
  | .mul => mul x y
  | .div => div x y pos
  | .mod => mod x y pos

/-- Writes values in one line. -/
def printValues (values : List Value) : Run Unit := do
  let texts ← values.mapM format
  write (.printed (" ".intercalate texts))

mutual

def eval (limit : Nat) : Term → Run Value
  | .constant value => pure value
  | .exactNumber text => do return .decimal (← decimal (Decimal.ofText text))
  | .number text => do return .decimal (← round (← decimal (Decimal.ofText text)))
  | .quoted literal =>
    match Text.unquote? literal with
    | some text => pure (.text text)
    | none => fail .badLiteral
  | .var name pos => do
    match (← get).env.get? name with
    | some value => pure value
    | none => blameAt (.unbound name) pos
  | .sequence items => evalSequence limit .none items
  | .traced note pos item => do
    whenTracing (announce pos)
    let value ← eval limit item
    whenTracing (announceEffect note value)
    return value
  | .assign name namePos op value pos => do
    let value ← eval limit value
    match op with
    | .error defect => fail (.malformed defect)
    | .ok op =>
      assign name namePos op value pos
      return .none
  | .leave target guard result pos => do
    let name ← findLoop target .breakOutsideLoop pos
    if (← eval limit guard).holds then
      let result ← eval limit result
      throw (.signal (.leave name result))
    else return .none
  | .skip target guard pos => do
    let name ← findLoop target .nextOutsideLoop pos
    if (← eval limit guard).holds then throw (.signal (.skip name))
    else return .none
  | .loop name start stop step showsStep body pos =>
    insideLoop name pos do
      let start ← numeric .loopStart (← eval limit start)
      let stop ← numeric .loopEnd (← eval limit stop)
      let step ← numeric .loopStep (← eval limit step)
      loopOver limit { name, start, stop, step, showsStep, pos } (eval limit body)
  | .print items => do
    printValues (← evalAll limit items)
    return .none
  | .row items => do return .rowOf (← evalAll limit items)
  | .numeric usage item => do return .decimal (← numeric usage (← eval limit item))
  | .unwrapped item => do return .decimal (← toDecimal (← eval limit item))
  | .sum minus left right => do
    let x ← numeric .sum (← eval limit left)
    let y ← numeric .sum (← eval limit right)
    return .decimal (← if minus then sub x y else add x y)
  | .product op left right pos => do
    let x ← toDecimal (← eval limit left)
    let y ← numeric .product (← eval limit right)
    return .decimal (← multiply op x y pos)
  | .power base exponent pos => do
    let x ← numeric .powerBase (← eval limit base)
    let y ← numeric .powerExponent (← eval limit exponent)
    return .power x y (← pow x y pos)
  | .signed minus item => do
    let x ← numeric .unary (← eval limit item)
    return .decimal (← if minus then negate x else pure x)
  | .call name pos items => do call name pos (← evalAll limit items)
  | .conditional condition holds otherwise => do
    match ← eval limit condition with
    | .bool true => eval limit holds
    | .bool false => eval limit otherwise
    | _ => blame .conditionNotBoolean
  | .boolean connective item => do
    return .bool (← truth .left connective (← eval limit item))
  | .connected connective left right => do
    let first ← truth .left connective (← eval limit left)
    if first = (connective = .or) then return .bool first
    else return .bool (← truth .right connective (← eval limit right))
  | .negated item => do
    match ← eval limit item with
    | .bool b => return .bool (!b)
    | value => blame (.negatedNotBoolean value.typeName)
  | .comparison first operators rest => do
    return .bool (← evalLinks limit (eval limit first) operators rest)
  | .unsupported name => blame (.unsupportedNode name)
  | .malformed defect => fail (.malformed defect)

/-- The values of all terms. -/
def evalAll (limit : Nat) : List Term → Run (List Value)
  | [] => pure []
  | item :: rest => do
    let value ← eval limit item
    let values ← evalAll limit rest
    return value :: values

/-- The value of the last term, or the given one if there is none. -/
def evalSequence (limit : Nat) (value : Value) : List Term → Run Value
  | [] => pure value
  | item :: rest => do evalSequence limit (← eval limit item) rest

/-- Whether all comparisons of a chain hold. It ends at the first that does not;
the right operand of a comparison is evaluated again as the left of the next. -/
def evalLinks (limit : Nat) (left : Run Value) : List String → List Term → Run Bool
  | operator :: operators, right :: rest => do
    let x ← numeric .operation (← left)
    let y ← numeric .operation (← eval limit right)
    if ← compare x operator y then evalLinks limit (eval limit right) operators rest
    else return false
  | _, _ => pure true

end

end DecimalScript.Run
