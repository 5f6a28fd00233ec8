import DecimalScript.Binary64.Basic
import DecimalScript.Decimal.Text

/-! The shortest decimal text of a double that reads back as the same double, and
the reader. -/

namespace DecimalScript.Binary64

/-! ### The fewest digits -/

/-- The numbers that round to one double, in fractions of a common denominator:
the double itself, the ends of the interval, and whether the ends belong to it. -/
structure Interval where
  value : Nat
  low : Nat
  high : Nat
  den : Nat
  closed : Bool

/-- The interval of `significand · 2 ^ exponent`. Below a power of two the doubles
are twice as dense, so the interval reaches only half as far down. -/
def interval (significand : Nat) (exponent : Int) : Interval :=
  let down := if significand = fractions ∧ minExponent < exponent then 1 else 2
  let scale := Nat.pow 2 (exponent - 2).toNat
  { value := 4 * significand * scale
    low := (4 * significand - down) * scale
    high := (4 * significand + 2) * scale
    den := Nat.pow 2 (2 - exponent).toNat
    closed := significand % 2 = 0 }

/-- Whether the decimal `n · 10 ^ place` lies in the interval. -/
def Interval.contains (i : Interval) (n : Nat) (place : Int) : Bool :=
  let point := n * Nat.pow 10 place.toNat * i.den
  let unit := Nat.pow 10 (-place).toNat
  if i.closed then i.low * unit ≤ point && point ≤ i.high * unit
  else i.low * unit < point && point < i.high * unit

/-- The place of the first digit of the value. -/
def Interval.firstPlace (i : Interval) : Int :=
  let guess : Int := (Decimal.digitCount i.value : Int) - Decimal.digitCount i.den
  if i.den * Nat.pow 10 guess.toNat ≤ i.value * Nat.pow 10 (-guess).toNat then guess
  else guess - 1

/-- The multiple of `10 ^ place` in the interval that is nearest to the value, of
two equally near ones the even one. -/
def Interval.nearest? (i : Interval) (place : Int) : Option Nat :=
  let num := i.value * Nat.pow 10 (-place).toNat
  let den := i.den * Nat.pow 10 place.toNat
  let below := num / den
  let near := Decimal.divNearest .toEven num den
  let far := if near = below then below + 1 else below
  if i.contains near place then some near
  else if i.contains far place then some far
  else none

/-- The digits and the place of the last digit, from the coarsest place on down to
seventeen digits. -/
def Interval.shortest (i : Interval) (place : Int) : (more : Nat) → Nat × Int
  | 0 => (Decimal.divNearest .toEven (i.value * Nat.pow 10 (-place).toNat)
      (i.den * Nat.pow 10 place.toNat),
      place)
  | more + 1 =>
    match i.nearest? place with
    | some n => (n, place)
    | none => i.shortest (place - 1) more

/-- The fewest digits that read back, as a number and the place of its last digit. -/
def shortest (significand : Nat) (exponent : Int) : Nat × Int :=
  let i := interval significand exponent
  i.shortest i.firstPlace 16

/-! ### Text -/

/-- The exponent part: a small letter, a sign and two digits at least. -/
def exponentMark (exponent : Int) : String :=
  "e" ++ (if exponent < 0 then "-" else "+") ++
    String.ofList (Decimal.padded 2 exponent.natAbs)

/-- Digits as text: positional while the first digit stands between the fourth
place after the point and the sixteenth before it, with at least one place. -/
def digitsText (n : Nat) (place : Int) : String :=
  let first := Decimal.adjusted n place
  if -4 ≤ first ∧ first < 16 then
    if place < 0 then Decimal.pointed (-place).toNat n
    else Decimal.pointed 1 (n * Nat.pow 10 (place.toNat + 1))
  else Decimal.pointed (Decimal.digitCount n - 1) n ++ exponentMark first

/-- The shortest digits have no zeros at their end. -/
def withoutZeros : (limit : Nat) → Nat → Int → Nat × Int
  | 0, n, place => (n, place)
  | limit + 1, n, place =>
    if n ≠ 0 ∧ n % 10 = 0 then withoutZeros limit (n / 10) (place + 1) else (n, place)

def toText (x : Binary64) : String :=
  match x.view with
  | .nan => "nan"
  | .infinity negative => Decimal.sign negative ++ "inf"
  | .finite negative significand exponent =>
    Decimal.sign negative ++
      if significand = 0 then "0.0"
      else
        let (n, place) := shortest significand exponent
        let (n, place) := withoutZeros 17 n place
        digitsText n place

/-- The double nearest to the number that a text writes. -/
def ofText? (text : String) : Option Binary64 :=
  (Decimal.ofText? text).bind ofDecimal?

/-- The double as the decimal number of its shortest text, which has one place at
least where it is positional. -/
def toDecimal (x : Binary64) : Decimal :=
  match x.view with
  | .nan => .nan false false 0
  | .infinity negative => .infinity negative
  | .finite negative significand exponent =>
    if significand = 0 then .finite negative 0 (-1)
    else
      let (n, place) := shortest significand exponent
      let (n, place) := withoutZeros 17 n place
      if 0 ≤ place ∧ Decimal.adjusted n place < 16 then
        .finite negative (n * Nat.pow 10 (place.toNat + 1)) (-1)
      else .finite negative n place

end DecimalScript.Binary64
