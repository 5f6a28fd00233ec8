import DecimalScript.Decimal.Arithmetic

/-! Powers with a whole exponent: repeated squaring with guard digits, then one
rounding to the working precision. -/

namespace DecimalScript.Decimal

/-- The binary digits of a number, the first one in front. -/
def binaryDigits (n : Nat) : List Bool := (Nat.toDigits 2 n).map (· == '1')

/-- The magnitude `coefficient · 10 ^ exponent` raised to `n > 0`: for each binary
digit of `n` after the first the power is squared, and for a one it is multiplied
once more. Each step is rounded to `digits` digits. -/
def squareMultiply (digits coefficient : Nat) (exponent : Int) (n : Nat) : Nat × Int :=
  (binaryDigits n).tail.foldl
    (fun (power, place) bit =>
      let (power, place) := toDigits digits (power * power) (place + place)
      if bit then toDigits digits (power * coefficient) (place + exponent) else (power, place))
    (coefficient, exponent)

/-- The reciprocal of `coefficient · 10 ^ exponent` to `digits` digits. -/
def reciprocal (digits coefficient : Nat) (exponent : Int) : Nat × Int :=
  let shift := digitCount coefficient + digits + 1
  let num := Nat.pow 10 shift
  if num % coefficient = 0 then toDigits digits (num / coefficient) (-exponent - shift)
  else toDigits digits (num / coefficient * 10 + 1) (-exponent - shift - 1)

/-- Whether `coefficient · 10 ^ exponent` is one. -/
def isUnit (coefficient : Nat) (exponent : Int) : Bool :=
  compareFinite false coefficient exponent false 1 0 == .eq

/-- Whether the `n`-th power of a magnitude other than one is sure to leave the
range of exponents: either it starts so far from the unit place that its `n`-fold
does, or `n` has so many digits that even the closest numbers to one do. -/
def leavesRange (digits coefficient : Nat) (exponent : Int) (n : Nat) : Bool :=
  let start := adjusted coefficient exponent
  let bound := 2 * (maxExponent.toNat + digits)
  (0 < start && (bound : Int) < start * n) ||
  (start < -1 && (bound : Int) < -(start + 1) * n) ||
  4 * ((-exponent).toNat + 10) < Nat.log2 n

/-- The power of a finite number other than zero, with an exponent other than zero. -/
def powFinite (digits : Nat) (negative : Bool) (coefficient : Nat) (exponent : Int) (n : Int) :
    Outcome :=
  let negative := negative && n % 2 != 0
  let count := n.natAbs
  if isUnit coefficient exponent then .ok (.finite negative 1 0)
  else if leavesRange digits coefficient exponent count then
    let large := compareFinite false coefficient exponent false 1 0 == .gt
    if large == decide (0 < n) then .error .overflow
    else .ok (.finite negative 0 (tinyExponent digits))
  else
    let guarded := digits + digitCount count + 2
    let (power, place) :=
      if 0 < n then squareMultiply guarded coefficient exponent count
      else
        let (coefficient, exponent) := reciprocal (guarded + 1) coefficient exponent
        squareMultiply (guarded + 1) coefficient exponent count
    finish digits negative power place

/-- A number raised to a whole power. Zero to the zeroth has no value, and zero to
a negative power is infinite. -/
def pow (digits : Nat) (x : Decimal) (n : Int) : Outcome :=
  match x with
  | .nan .. => plus digits x
  | .finite negative coefficient exponent =>
    let odd := negative && n % 2 != 0
    if coefficient = 0 then
      if n = 0 then .error .invalidOperation
      else if n < 0 then .ok (.infinity odd)
      else .ok (.finite odd 0 0)
    else if n = 0 then .ok one
    else powFinite digits negative coefficient exponent n
  | .infinity negative =>
    let odd := negative && n % 2 != 0
    if n = 0 then .ok one
    else if n < 0 then .ok (.finite odd 0 0)
    else .ok (.infinity odd)

end DecimalScript.Decimal
