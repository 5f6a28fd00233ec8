/-! Decimal numbers: a sign, a coefficient and a power of ten, with signed
infinities and the two kinds of NaN. Two numbers of one value but different
exponents, such as `1.5` and `1.50`, are different. -/

namespace DecimalScript

inductive Decimal where
  /-- The number `±coefficient · 10 ^ exponent`; a zero has a sign too. -/
  | finite (negative : Bool) (coefficient : Nat) (exponent : Int)
  | infinity (negative : Bool)
  /-- A payload of zero is not written. -/
  | nan (negative signaling : Bool) (payload : Nat)
  deriving DecidableEq, Repr, Inhabited

namespace Decimal

/-- The conditions that stop a calculation. -/
inductive Trap where
  | invalidOperation | divisionByZero | overflow
  deriving DecidableEq, Repr

/-- The result of an operation that can be stopped by a trap. -/
abbrev Outcome := Except Trap Decimal

def ofNat (n : Nat) : Decimal := .finite false n 0

def ofInt (i : Int) : Decimal := .finite (i < 0) i.natAbs 0

def zero : Decimal := ofNat 0

def one : Decimal := ofNat 1

/-- Counts on, from a count that is not too large, until the power of ten is above the number. -/
def countOn (n : Nat) : (limit : Nat) → (count : Nat) → Nat
  | 0, count => count
  | limit + 1, count => if n < Nat.pow 10 count then count else countOn n limit (count + 1)

/-- The number of digits of a coefficient; zero has one digit. The count starts from the binary
digits: `2 ^ 2136` is a little more than `10 ^ 643`. -/
def digitCount (n : Nat) : Nat := countOn n (Nat.log2 n) (Nat.log2 n * 643 / 2136 + 1)

/-- The exponent of the first digit of `coefficient · 10 ^ exponent`. -/
def adjusted (coefficient : Nat) (exponent : Int) : Int :=
  exponent + digitCount coefficient - 1

/-- The coefficient with its sign. -/
def signed (negative : Bool) (coefficient : Nat) : Int :=
  if negative then -(coefficient : Int) else coefficient

def isNaN : Decimal → Bool
  | nan .. => true
  | _ => false

def isSignaling : Decimal → Bool
  | nan _ signaling _ => signaling
  | _ => false

def isFinite : Decimal → Bool
  | finite .. => true
  | _ => false

def isZero : Decimal → Bool
  | finite _ coefficient _ => coefficient == 0
  | _ => false

def isNegative : Decimal → Bool
  | finite negative .. | infinity negative | nan negative .. => negative

/-- The whole number nearest to zero that has the integer part of the magnitude, with the sign. -/
def truncated (negative : Bool) (coefficient : Nat) (exponent : Int) : Int :=
  signed negative <|
    if 0 ≤ exponent then coefficient * Nat.pow 10 exponent.toNat
    else if digitCount coefficient ≤ (-exponent).toNat then 0
    else coefficient / Nat.pow 10 (-exponent).toNat

end Decimal

end DecimalScript
