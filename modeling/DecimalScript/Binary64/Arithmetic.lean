import DecimalScript.Binary64.Text

/-! Sums, products and quotients of doubles, their order, and rounding to decimal
places. Each operation takes the nearest double to the exact result. -/

namespace DecimalScript.Binary64

/-- The double nearest to `±n · 2 ^ exponent`. -/
def scaled (negative : Bool) (n : Nat) (exponent : Int) : Binary64 :=
  ofRatio negative (n * Nat.pow 2 exponent.toNat) (Nat.pow 2 (-exponent).toNat)

def ofInt (i : Int) : Binary64 := ofRatio (i < 0) i.natAbs 1

/-- The sum. Opposite numbers have the sum zero, which is negative only for two
negative zeros. -/
def add (x y : Binary64) : Binary64 :=
  match x.view, y.view with
  | .finite nx sx ex, .finite ny sy ey =>
    let place := min ex ey
    let part (negative : Bool) (significand : Nat) (exponent : Int) : Int :=
      Decimal.signed negative (significand * Nat.pow 2 (exponent - place).toNat)
    let sum := part nx sx ex + part ny sy ey
    if sum = 0 then zero (nx && ny) else scaled (sum < 0) sum.natAbs place
  | .infinity nx, .infinity ny => if nx == ny then infinity nx else nan
  | .infinity negative, .finite .. | .finite .., .infinity negative => infinity negative
  | .nan, _ | _, .nan => nan

def sub (x y : Binary64) : Binary64 := x.add y.neg

def mul (x y : Binary64) : Binary64 :=
  match x.view, y.view with
  | .finite nx sx ex, .finite ny sy ey => scaled (nx != ny) (sx * sy) (ex + ey)
  | .infinity nx, .infinity ny => infinity (nx != ny)
  | .infinity nx, .finite ny significand _ | .finite nx significand _, .infinity ny =>
    if significand = 0 then nan else infinity (nx != ny)
  | .nan, _ | _, .nan => nan

/-- The quotient; a number other than zero divided by zero is infinite. -/
def div (x y : Binary64) : Binary64 :=
  match x.view, y.view with
  | .finite nx sx ex, .finite ny sy ey =>
    if sy = 0 then (if sx = 0 then nan else infinity (nx != ny))
    else ofRatio (nx != ny) (sx * Nat.pow 2 (ex - ey).toNat) (sy * Nat.pow 2 (ey - ex).toNat)
  | .finite nx .., .infinity ny => zero (nx != ny)
  | .infinity nx, .finite ny .. => infinity (nx != ny)
  | .infinity _, .infinity _ => nan
  | .nan, _ | _, .nan => nan

/-- The sum of a row of numbers, from the first on. -/
def sum (xs : List Binary64) : Binary64 := xs.foldl add (zero false)

/-! ### Order -/

/-- The place of a number in the row of all numbers, both zeros at the same place. -/
def rank (x : Binary64) : Int :=
  let word := x.bits.toNat
  if Nat.pow 2 63 ≤ word then -((word - Nat.pow 2 63 : Nat) : Int) else word

def below (x y : Binary64) : Bool := !x.isNaN && !y.isNaN && x.rank < y.rank

/-- The least of a row of numbers that begins with the given one. -/
def least (x : Binary64) (xs : List Binary64) : Binary64 :=
  xs.foldl (fun best y => if y.below best then y else best) x

/-- The number in the middle of a row, or half the sum of the two in the middle; zero
for the empty row. -/
def median (xs : List Binary64) : Binary64 :=
  let sorted := xs.mergeSort fun x y => x.rank ≤ y.rank
  let half := sorted.length / 2
  if sorted.length % 2 = 1 then sorted.getD half (zero false)
  else ((sorted.getD (half - 1) (zero false)).add (sorted.getD half (zero false))).div (ofInt 2)

/-- The greatest whole number that is not above a finite number. -/
def floor (x : Binary64) : Int :=
  match x.view with
  | .finite negative significand exponent =>
    Int.fdiv (Decimal.signed negative (significand * Nat.pow 2 exponent.toNat))
      ((Nat.pow 2 (-exponent).toNat : Nat) : Int)
  | _ => 0

/-! ### Decimal places -/

/-- How often `10 ^ (-places)` goes into `significand · 2 ^ exponent`, halves to even. -/
def placeCount (significand : Nat) (exponent places : Int) : Nat :=
  Decimal.divNearest .toEven
    (significand * Nat.pow 2 exponent.toNat * Nat.pow 10 places.toNat)
    (Nat.pow 2 (-exponent).toNat * Nat.pow 10 (-places).toNat)

/-- Beyond this place no double has digits. -/
def lastDecimalPlace : Int := 323

/-- The double nearest to the exact value rounded to decimal places, halves to even. -/
def roundTo (places : Int) (x : Binary64) : Binary64 :=
  match x.view with
  | .finite negative significand exponent =>
    if lastDecimalPlace < places then x
    else if places < -308 then zero negative
    else ofRatio negative (placeCount significand exponent places * Nat.pow 10 (-places).toNat)
      (Nat.pow 10 places.toNat)
  | _ => x

/-- The exact value with a fixed number of decimal places, halves to even. -/
def fixedText (places : Nat) (x : Binary64) : String :=
  match x.view with
  | .finite negative significand exponent =>
    Decimal.sign negative ++ Decimal.pointed places (placeCount significand exponent places)
  | _ => x.toText

end DecimalScript.Binary64
