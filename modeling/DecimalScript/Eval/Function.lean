import DecimalScript.Eval.Number

/-! The functions that programs can call. -/

namespace DecimalScript.Run

def oneArgument (name : String) (pos : Pos) : List Value → Run Value
  | [item] => pure item
  | _ => blameAt (.arity name 1) pos

/-- The largest number of digits that calculations can work with. -/
def maxDigits : Nat := 999999999999999999

/-- The digits that calculations need for a number of places. -/
def digitsFor (places : Nat) : Nat := max 28 (places + 10)

/-- Sets the places and, if there can be so many, the digits. The value is the old
number of places. -/
def setPrecision (pos : Pos) (items : List Value) : Run Value := do
  let item ← oneArgument "set_precision" pos items
  let x ← toDecimal item
  let refuse : Run Value := blameAt .precisionArgument pos
  if !(← decimal x.isWhole) then refuse
  else if ← decimal (x.less .zero) then refuse
  else
    let old := (← get).places
    let places := (← toInt x).toNat
    modify fun s => { s with places }
    let digits := digitsFor places
    if Nat.pow 2 63 ≤ digits then fail .tooLarge
    else if maxDigits < digits then fail .noSuchValue
    else
      modify fun s => { s with digits }
      pure (.decimal (Decimal.ofNat old))

/-- A function of doubles, where it is defined. -/
def elementary (name : String) (f : Binary64.Elementary) (pos : Pos) (items : List Value) :
    Run Value := do
  let x ← toDouble (← toDecimal (← oneArgument name pos items))
  match f.apply? x with
  | some y => return .decimal (← round y.toDecimal)
  | none => blameAt .functionDomain pos

def cotangent (pos : Pos) (items : List Value) : Run Value := do
  let x ← toDouble (← toDecimal (← oneArgument "ctg" pos items))
  match Binary64.Elementary.tan.apply? x with
  | none => fail .noSuchValue
  | some tangent =>
    match tangent.reciprocal? with
    | none => blameAt .cotangentByZero pos
    | some y => return .decimal (← round y.toDecimal)

def squareRoot (pos : Pos) (items : List Value) : Run Value := do
  let x ← toDecimal (← oneArgument "sqrt" pos items)
  if ← decimal (x.less .zero) then blameAt (.rootDomain "sqrt") pos
  else
    match (← toDouble x).sqrt? with
    | some y => return .decimal (← round y.toDecimal)
    | none => fail .noSuchValue

/-- Whether a number is an even whole number. An infinity is whole but has no parity. -/
def isEven (n : Decimal) : Run Bool := do
  if ← decimal n.isWhole then return (← toInt n) % 2 == 0
  else return false

/-- A number to the power of the reciprocal of another, in doubles. -/
def inversePower (x n : Decimal) : Run Value := do
  let base ← toDouble x
  match (← toDouble n).reciprocal? with
  | none => fail .zeroInverted
  | some exponent => return .decimal (← round (← doublePower base exponent))

/-- The root of a number with any degree. -/
def root (pos : Pos) (items : List Value) : Run Value := do
  match items with
  | [first, second] =>
    let x ← toDecimal first
    let n ← toDecimal second
    if ← decimal (n.equal .zero) then blameAt .rootByZero pos
    else
      if ← isEven n then
        if ← decimal (x.less .zero) then
          return ← blameAt (.rootDomain "nrt") pos
      inversePower x n
  | _ => blameAt (.arity "nrt" 2) pos

def call (name : String) (pos : Pos) (items : List Value) : Run Value :=
  match name with
  | "set_precision" => setPrecision pos items
  | "get_precision" => do return .decimal (← round (Decimal.ofNat (← get).places))
  | "ln" => elementary name .ln pos items
  | "log2" => elementary name .log2 pos items
  | "log10" => elementary name .log10 pos items
  | "sin" => elementary name .sin pos items
  | "cos" => elementary name .cos pos items
  | "tg" => elementary name .tan pos items
  | "ctg" => cotangent pos items
  | "sqrt" => squareRoot pos items
  | "nrt" => root pos items
  | name => blameAt (.unknownFunction name) pos

end DecimalScript.Run
