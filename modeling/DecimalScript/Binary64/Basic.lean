import DecimalScript.Decimal.Rounding

/-! Double precision binary numbers by their sixty-four bits: a sign, eleven bits
of exponent and fifty-two of fraction. -/

namespace DecimalScript

structure Binary64 where
  bits : UInt64
  deriving DecidableEq, Repr, Inhabited

namespace Binary64

/-- What the bits say: a finite number is `±significand · 2 ^ exponent`. -/
inductive View where
  | finite (negative : Bool) (significand : Nat) (exponent : Int)
  | infinity (negative : Bool)
  | nan
  deriving DecidableEq, Repr

/-- The exponent of the last bit of the smallest numbers. -/
def minExponent : Int := -1074

/-- The number of values of a significand's fraction. -/
def fractions : Nat := Nat.pow 2 52

def view (x : Binary64) : View :=
  let word := x.bits.toNat
  let negative := Nat.pow 2 63 ≤ word
  let field := word / fractions % 2048
  let fraction := word % fractions
  if field = 2047 then (if fraction = 0 then .infinity negative else .nan)
  else if field = 0 then .finite negative fraction minExponent
  else .finite negative (fractions + fraction) (minExponent + field - 1)

def ofWord (negative : Bool) (word : Nat) : Binary64 :=
  ⟨UInt64.ofNat (if negative then Nat.pow 2 63 + word else word)⟩

def infinity (negative : Bool) : Binary64 := ofWord negative (2047 * fractions)

def zero (negative : Bool) : Binary64 := ofWord negative 0

def nan : Binary64 := ofWord false (2047 * fractions + fractions / 2)

def one : Binary64 := ofWord false (1023 * fractions)

def neg (x : Binary64) : Binary64 := ⟨x.bits ^^^ 0x8000000000000000⟩

def abs (x : Binary64) : Binary64 := ⟨x.bits &&& 0x7fffffffffffffff⟩

def isNaN (x : Binary64) : Bool := x.view == .nan

def isInfinite (x : Binary64) : Bool :=
  match x.view with
  | .infinity _ => true
  | _ => false

def isZero (x : Binary64) : Bool :=
  match x.view with
  | .finite _ significand _ => significand == 0
  | _ => false

/-- The sign bit of a number that is not a NaN. -/
def isNegative (x : Binary64) : Bool :=
  match x.view with
  | .finite negative .. | .infinity negative => negative
  | .nan => false

def isPositive (x : Binary64) : Bool := !x.isNaN && !x.isNegative && !x.isZero

def isWhole (x : Binary64) : Bool :=
  match x.view with
  | .finite _ significand exponent =>
    0 ≤ exponent || significand % Nat.pow 2 (-exponent).toNat == 0
  | _ => false

def isOdd (x : Binary64) : Bool :=
  match x.view with
  | .finite _ significand exponent =>
    if 0 ≤ exponent then exponent == 0 && significand % 2 == 1
    else
      let unit := Nat.pow 2 (-exponent).toNat
      significand % unit == 0 && significand / unit % 2 == 1
  | _ => false

/-! ### The nearest number -/

/-- The exponent that leaves a quotient fifty-three bits, or the least exponent. -/
def lastPlace (num den : Nat) : Int :=
  let guess : Int := (Nat.log2 num : Int) - Nat.log2 den - 52
  let fits := den * Nat.pow 2 (guess + 52).toNat ≤ num * Nat.pow 2 (-(guess + 52)).toNat
  max minExponent (if fits then guess else guess - 1)

/-- The double nearest to `±num / den`, halves to even; infinite from half a unit
above the largest number on. -/
def ofRatio (negative : Bool) (num den : Nat) : Binary64 :=
  if num = 0 then zero negative
  else
    let place := lastPlace num den
    let significand := Decimal.divNearest .toEven
      (num * Nat.pow 2 (-place).toNat) (den * Nat.pow 2 place.toNat)
    let word := (place - minExponent).toNat * fractions + significand
    if 2047 * fractions ≤ word then infinity negative else ofWord negative word

/-- The double nearest to a decimal number, or `none` for a signaling NaN. Numbers
far outside the range are settled by the place of their first digit. -/
def ofDecimal? : Decimal → Option Binary64
  | .finite negative coefficient exponent =>
    some <|
      if coefficient = 0 then zero negative
      else if 400 < Decimal.adjusted coefficient exponent then infinity negative
      else if Decimal.adjusted coefficient exponent < -400 then zero negative
      else ofRatio negative (coefficient * Nat.pow 10 exponent.toNat) (Nat.pow 10 (-exponent).toNat)
  | .infinity negative => some (infinity negative)
  | .nan _ signaling _ => if signaling then none else some nan

end Binary64

end DecimalScript
