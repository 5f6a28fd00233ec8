import DecimalScript.Binary64.Function
import DecimalScript.Decimal.Power
import DecimalScript.Eval.State

/-! Calculating with values: which values count as numbers, and the operations,
each of them rounded to the places of the state. -/

namespace DecimalScript.Run

/-! ### Numbers -/

/-- The number that a value stands for. Texts are read; a truth value is a text too. -/
def toDecimal : Value → Run Decimal
  | .power _ _ value => pure value
  | .decimal d => pure d
  | .integer i => pure (Decimal.ofInt i)
  | .double x => pure x.toDecimal
  | .text s => decimal (Decimal.ofText s)
  | value@(.bool _) => decimal (Decimal.ofText value.plainText)
  | value@.none | value@(.row _) => blame (.notNumeric value.typeName)

/-- The number that a value stands for, where truth values are refused. -/
def numeric (usage : Usage) : Value → Run Decimal
  | .bool _ => blame (.booleanUsed usage)
  | value => toDecimal value

def round (x : Decimal) : Run Decimal := do
  let s ← get
  decimal (x.toPlaces s.digits s.places)

/-- A calculation with the digits of the state. -/
def working (f : Nat → Decimal.Outcome) : Run Decimal := do
  let s ← get
  decimal (f s.digits)

/-- The text of a value: numbers have all their places. -/
def format : Value → Run String
  | .decimal d => do
    let s ← get
    let fixed ← decimal (d.toPlaces s.digits s.places)
    pure (fixed.toFixed s.places)
  | value => pure value.plainText

/-! ### Sums, products and quotients -/

def add (x y : Decimal) : Run Decimal := do round (← working (Decimal.add · x y))

def sub (x y : Decimal) : Run Decimal := do round (← working (Decimal.sub · x y))

def mul (x y : Decimal) : Run Decimal := do round (← working (Decimal.mul · x y))

def negate (x : Decimal) : Run Decimal := do round (← working (Decimal.neg · x))

def div (x y : Decimal) (pos : Option Pos) : Run Decimal := do
  if ← decimal (y.equal .zero) then blameNode .divisionByZero pos
  else round (← working (Decimal.div · x y))

/-- What is left of `x` below the largest multiple of the absolute value of `y`
that is not above it. -/
def mod (x y : Decimal) (pos : Option Pos) : Run Decimal := do
  if ← decimal (y.equal .zero) then blameNode .modByZero pos
  else
    let modulus ← working (Decimal.abs · y)
    let quotient ← decimal (← working (Decimal.div · x modulus)).floor
    let multiple ← working (Decimal.mul · quotient modulus)
    round (← working (Decimal.sub · x multiple))

/-! ### Powers -/

/-- A number as a whole number, towards zero. -/
def toInt : Decimal → Run Int
  | .finite negative coefficient exponent =>
    pure (Decimal.truncated negative coefficient exponent)
  | .infinity _ => fail .tooLarge
  | .nan .. => fail .noSuchValue

def toDouble (x : Decimal) : Run Binary64 :=
  match Binary64.ofDecimal? x with
  | some y => pure y
  | none => fail .noSuchValue

/-- A power of doubles as a number. One that is not real is not a number. -/
def doublePower (x y : Binary64) : Run Decimal :=
  match x.pow y with
  | .ok power => pure power.toDecimal
  | .error .overflow => fail .tooLarge
  | .error .zeroToNegative => fail .zeroInverted
  | .error .notReal => fail (.trap .invalidOperation)
  | .error .undefined => fail .noSuchValue

/-- A power: in decimals for a whole exponent, otherwise in doubles. -/
def pow (base exponent : Decimal) (pos : Option Pos) : Run Decimal := do
  if ← decimal exponent.isWhole then
    match exponent with
    | .infinity _ => blameNode .infiniteExponent pos
    | _ =>
      let n ← toInt exponent
      round (← working (Decimal.pow · base n))
  else
    round (← doublePower (← toDouble base) (← toDouble exponent))

/-- The inverse of `a` modulo `m` by Euclid's algorithm, if there is one: the pairs
are remainders with the factor of `a` that gives them. -/
def inverseFrom (m : Nat) : (limit : Nat) → (r : Int × Int) → (s : Int × Int) → Option Nat
  | 0, _, _ => none
  | limit + 1, (r, x), (s, y) =>
    if s = 0 then (if r = 1 then some (x % m).toNat else none)
    else inverseFrom m limit (s, y) (r % s, x - r / s * y)

def inverse? (a m : Nat) : Option Nat :=
  inverseFrom m (2 * Nat.log2 m + 4) (m, 0) (a % m, 1)

/-- The power of `a` modulo `m`, by squaring. -/
def powMod (a m : Nat) (n : Nat) : Nat :=
  (Decimal.binaryDigits n).foldl
    (fun power bit =>
      let square := power * power % m
      if bit then square * a % m else square)
    (1 % m)

/-- A power modulo a whole number; for a negative exponent the inverse is taken. -/
def powModInt (a n : Int) (m : Nat) : Run Nat :=
  if m = 0 then fail .noSuchValue
  else
    let a := (a % m).toNat
    if 0 ≤ n then pure (powMod a m n.toNat)
    else if m = 1 then pure 0
    else match inverse? a m with
      | some b => pure (powMod b m n.natAbs)
      | none => fail .noSuchValue

/-- A power modulo a number, without the power itself. -/
def modPow (base exponent modulus : Decimal) (pos : Option Pos) : Run Decimal := do
  if ← decimal (modulus.equal .zero) then blameNode .modByZero pos
  else
    let a ← toInt base
    let n ← toInt exponent
    let m ← toInt (← working (Decimal.abs · modulus))
    round (Decimal.ofNat (← powModInt a n m.natAbs))

/-- A remainder, where a power of whole numbers is taken modulo a whole number. -/
def modValue (left right : Value) (pos : Option Pos) : Run Decimal := do
  match left with
  | .power base exponent value =>
    let modulus ← toDecimal right
    if ← decimal base.isWhole then
      if ← decimal exponent.isWhole then
        if ← decimal modulus.isWhole then
          return ← modPow base exponent modulus pos
    mod value modulus pos
  | left =>
    let x ← toDecimal left
    let y ← toDecimal right
    mod x y pos

/-! ### Comparisons -/

def compare (x : Decimal) (operator : String) (y : Decimal) : Run Bool :=
  match operator with
  | "==" => decimal (x.equal y)
  | "!=" => decimal ((x.equal y).map (!·))
  | "<" => decimal (x.ordered Ordering.isLT y)
  | "<=" => decimal (x.ordered Ordering.isLE y)
  | ">" => decimal (x.ordered Ordering.isGT y)
  | ">=" => decimal (x.ordered Ordering.isGE y)
  | operator => blame (.unknownComparison operator)

end DecimalScript.Run
