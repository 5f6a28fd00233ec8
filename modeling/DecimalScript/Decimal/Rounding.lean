import DecimalScript.Decimal.Basic

/-! Rounding of coefficients, and how a calculated number is fitted into the
working precision and the range of exponents. -/

namespace DecimalScript.Decimal

/-- Where a value half way between two whole numbers goes. -/
inductive Tie where
  | toEven | awayFromZero
  deriving DecidableEq, Repr

/-- The whole number nearest to `num / den`. -/
def divNearest (tie : Tie) (num den : Nat) : Nat :=
  let quotient := num / den
  let twice := 2 * (num % den)
  if twice < den then quotient
  else if den < twice then quotient + 1
  else match tie with
    | .awayFromZero => quotient + 1
    | .toEven => if quotient % 2 = 0 then quotient else quotient + 1

/-- The coefficient without its last `count` digits, rounded to nearest. A
coefficient of fewer digits is below one half. -/
def dropDigits (tie : Tie) (coefficient count : Nat) : Nat :=
  if digitCount coefficient < count then 0 else divNearest tie coefficient (Nat.pow 10 count)

/-- The largest exponent of a first digit. -/
def maxExponent : Int := 999999

/-- The least exponent of a first digit before digits are lost. -/
def minExponent : Int := -999999

/-- The exponent of the last digit of the smallest numbers at a working precision. -/
def tinyExponent (digits : Nat) : Int := minExponent - (digits - 1)

/-- Rounds to at most `digits` digits, halves to even, whatever the exponent. -/
def toDigits (digits coefficient : Nat) (exponent : Int) : Nat × Int :=
  let count := digitCount coefficient - digits
  let rounded := dropDigits .toEven coefficient count
  if digits < digitCount rounded then (rounded / 10, exponent + count + 1)
  else (rounded, exponent + count)

/-- The number that a calculation with exact result
`±coefficient · 10 ^ exponent` gives: at most `digits` digits, halves to even,
no digit below the tiny exponent, and a trap above the largest exponent. -/
def finish (digits : Nat) (negative : Bool) (coefficient : Nat) (exponent : Int) : Outcome :=
  if coefficient = 0 then
    .ok (.finite negative 0 (max (tinyExponent digits) (min maxExponent exponent)))
  else if maxExponent < adjusted coefficient exponent then .error .overflow
  else
    let count := max (digitCount coefficient - digits) (tinyExponent digits - exponent).toNat
    let rounded := dropDigits .toEven coefficient count
    let (rounded, exponent) :=
      if digits < digitCount rounded then (rounded / 10, exponent + count + 1)
      else (rounded, exponent + count)
    if maxExponent < adjusted rounded exponent then .error .overflow
    else .ok (.finite negative rounded exponent)

/-- A NaN as the result of an operation keeps the last digits of its payload. -/
def quiet (digits : Nat) (negative : Bool) (payload : Nat) : Decimal :=
  .nan negative false
    (if digitCount payload ≤ digits then payload else payload % Nat.pow 10 digits)

/-- The NaN that an operation on two numbers passes on, if one of them is a NaN. -/
def passNaN (digits : Nat) (x y : Decimal) : Option Outcome :=
  if x.isSignaling || y.isSignaling then some (.error .invalidOperation)
  else match x, y with
    | .nan negative _ payload, _ => some (.ok (quiet digits negative payload))
    | _, .nan negative _ payload => some (.ok (quiet digits negative payload))
    | _, _ => none

/-- A number of the working precision, halves to even; the sign of a zero is dropped. -/
def plus (digits : Nat) (x : Decimal) : Outcome :=
  match x with
  | .finite negative coefficient exponent =>
    finish digits (negative && coefficient != 0) coefficient exponent
  | .infinity negative => .ok (.infinity negative)
  | .nan negative signaling payload =>
    if signaling then .error .invalidOperation else .ok (quiet digits negative payload)

end DecimalScript.Decimal
