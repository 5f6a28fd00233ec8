import DecimalScript.Decimal.Rounding

/-! Sum, difference, product, quotient, comparison and rounding to places. Every
operation but the comparisons takes the number of digits it works with. -/

namespace DecimalScript.Decimal

/-- The number of the other sign. A zero becomes the positive zero, and a NaN stays. -/
def neg (digits : Nat) : Decimal → Outcome
  | .finite negative coefficient exponent =>
    finish digits (!negative && coefficient != 0) coefficient exponent
  | .infinity negative => .ok (.infinity !negative)
  | x@(.nan ..) => plus digits x

def abs (digits : Nat) : Decimal → Outcome
  | .finite _ coefficient exponent => finish digits false coefficient exponent
  | .infinity _ => .ok (.infinity false)
  | x@(.nan ..) => plus digits x

/-! ### Sums -/

/-- The sum of two integers times `10 ^ exponent`. A sum of zero has the sign of
the operands where they agree. -/
def finishSum (digits : Nat) (bothNegative : Bool) (sum : Int) (exponent : Int) : Outcome :=
  finish digits (if sum = 0 then bothNegative else sum < 0) sum.natAbs exponent

/-- The sum of two finite numbers, of which the first has the larger exponent. A
second number far below the last digit of the result counts only by its sign,
so one unit in a place low enough stands for it. -/
def addAligned (digits : Nat) (highNegative : Bool) (high : Nat) (highExponent : Int)
    (lowNegative : Bool) (low : Nat) (lowExponent : Int) : Outcome :=
  let bothNegative := highNegative && lowNegative
  if high = 0 then finishSum digits bothNegative (signed lowNegative low) lowExponent
  else
    let floor := highExponent - 1 +
      (if digits < digitCount high then 0 else (digitCount high : Int) - digits - 1)
    let (low, lowExponent) :=
      if adjusted low lowExponent < floor then (min low 1, floor) else (low, lowExponent)
    let scaled := high * Nat.pow 10 (highExponent - lowExponent).toNat
    finishSum digits bothNegative (signed highNegative scaled + signed lowNegative low) lowExponent

def add (digits : Nat) (x y : Decimal) : Outcome :=
  match passNaN digits x y with
  | some outcome => outcome
  | none => match x, y with
    | .finite s c e, .finite t d f =>
      if f ≤ e then addAligned digits s c e t d f else addAligned digits t d f s c e
    | .infinity s, .infinity t =>
      if s = t then .ok (.infinity s) else .error .invalidOperation
    | .infinity s, _ => .ok (.infinity s)
    | _, .infinity t => .ok (.infinity t)
    | _, _ => .error .invalidOperation

/-- The same number with its sign turned, unrounded; a NaN stays. -/
def flipped : Decimal → Decimal
  | .finite negative coefficient exponent => .finite (!negative) coefficient exponent
  | .infinity negative => .infinity !negative
  | x@(.nan ..) => x

def sub (digits : Nat) (x y : Decimal) : Outcome := add digits x y.flipped

/-! ### Products and quotients -/

def mul (digits : Nat) (x y : Decimal) : Outcome :=
  match passNaN digits x y with
  | some outcome => outcome
  | none => match x, y with
    | .finite s c e, .finite t d f => finish digits (s != t) (c * d) (e + f)
    | x, y =>
      if x.isZero || y.isZero then .error .invalidOperation
      else .ok (.infinity (x.isNegative != y.isNegative))

/-- Takes zeros off the end of the coefficient until the exponent reaches `ideal`. -/
def stripZeros : (limit : Nat) → (ideal : Int) → Nat → Int → Nat × Int
  | 0, _, coefficient, exponent => (coefficient, exponent)
  | limit + 1, ideal, coefficient, exponent =>
    if exponent < ideal ∧ coefficient % 10 = 0 then
      stripZeros limit ideal (coefficient / 10) (exponent + 1)
    else (coefficient, exponent)

/-- The quotient of two finite numbers that are not zero. It is calculated to one
digit more than the working precision; a last digit of one stands for a remainder. -/
def divFinite (digits : Nat) (negative : Bool) (c : Nat) (e : Int) (d : Nat) (f : Int) : Outcome :=
  let ideal := e - f
  let shift : Int := (digitCount d : Int) - digitCount c + digits + 1
  let num := c * Nat.pow 10 shift.toNat
  let den := d * Nat.pow 10 (-shift).toNat
  if num % den = 0 then
    let (quotient, exponent) := stripZeros shift.toNat ideal (num / den) (ideal - shift)
    finish digits negative quotient exponent
  else finish digits negative (num / den * 10 + 1) (ideal - shift - 1)

def div (digits : Nat) (x y : Decimal) : Outcome :=
  match passNaN digits x y with
  | some outcome => outcome
  | none => match x, y with
    | .finite s c e, .finite t d f =>
      if d = 0 then .error (if c = 0 then .invalidOperation else .divisionByZero)
      else if c = 0 then finish digits (s != t) 0 (e - f)
      else divFinite digits (s != t) c e d f
    | .infinity _, .infinity _ => .error .invalidOperation
    | .finite s _ _, .infinity t => .ok (.finite (s != t) 0 (tinyExponent digits))
    | x, y => .ok (.infinity (x.isNegative != y.isNegative))

/-! ### Whole numbers and places -/

/-- The largest whole number that is not above the number. -/
def floor : Decimal → Outcome
  | .finite negative coefficient exponent =>
    if 0 ≤ exponent then .ok (.finite negative coefficient exponent)
    else
      let count := (-exponent).toNat
      if digitCount coefficient ≤ count then
        .ok (.finite negative (if negative && coefficient != 0 then 1 else 0) 0)
      else
        let unit := Nat.pow 10 count
        let up := negative && coefficient % unit != 0
        .ok (.finite negative (if up then coefficient / unit + 1 else coefficient / unit) 0)
  | .nan negative signaling payload =>
    if signaling then .error .invalidOperation else .ok (.nan negative false payload)
  | x => .ok x

/-- The whole number nearest to the number, halves to even. -/
def nearestWhole : Decimal → Outcome
  | .finite negative coefficient exponent =>
    if 0 ≤ exponent then .ok (.finite negative coefficient exponent)
    else .ok (.finite negative (dropDigits .toEven coefficient (-exponent).toNat) 0)
  | .nan negative signaling payload =>
    if signaling then .error .invalidOperation else .ok (.nan negative false payload)
  | x => .ok x

/-- The number with the given exponent, halves away from zero. It must fit into
the working precision. -/
def quantize (digits : Nat) (target : Int) : Decimal → Outcome
  | .finite negative coefficient exponent =>
    if maxExponent < target ∨ target < tinyExponent digits then .error .invalidOperation
    else if coefficient = 0 then finish digits negative 0 target
    else if (digits : Int) < digitCount coefficient + (exponent - target) then
      .error .invalidOperation
    else
      let rounded :=
        if target ≤ exponent then coefficient * Nat.pow 10 (exponent - target).toNat
        else dropDigits .awayFromZero coefficient (target - exponent).toNat
      if maxExponent < adjusted rounded target ∨ digits < digitCount rounded then
        .error .invalidOperation
      else finish digits negative rounded target
  | .infinity _ => .error .invalidOperation
  | x@(.nan ..) => plus digits x

/-- The places that are kept of a number of places: none of them is below the tiny exponent. -/
def keptPlaces (digits places : Nat) : Nat := min places (-tinyExponent digits).toNat

/-- The number to a count of decimal places, halves away from zero. -/
def toPlaces (digits places : Nat) (x : Decimal) : Outcome :=
  if 2 * (maxExponent.toNat + digits) < places then .error .invalidOperation
  else quantize digits (-keptPlaces digits places) x

/-! ### Comparison -/

/-- How the values of two finite numbers compare. Numbers whose first digits stand
in different places are told apart by that. -/
def compareFinite (s : Bool) (c : Nat) (e : Int) (t : Bool) (d : Nat) (f : Int) : Ordering :=
  if c = 0 ∧ d = 0 then .eq
  else if c = 0 then (if t then .gt else .lt)
  else if d = 0 then (if s then .lt else .gt)
  else if s ≠ t then (if s then .lt else .gt)
  else
    let magnitude :=
      if adjusted c e ≠ adjusted d f then compare (adjusted c e) (adjusted d f)
      else compare (c * Nat.pow 10 (e - f).toNat) (d * Nat.pow 10 (f - e).toNat)
    if s then magnitude.swap else magnitude

/-- How two numbers compare, or `none` if one is a NaN. A signaling NaN is a trap. -/
def compare? (x y : Decimal) : Except Trap (Option Ordering) :=
  if x.isSignaling || y.isSignaling then .error .invalidOperation
  else match x, y with
    | .nan .., _ | _, .nan .. => .ok none
    | .finite s c e, .finite t d f => .ok (some (compareFinite s c e t d f))
    | .infinity s, .infinity t =>
      .ok (some (if s = t then .eq else if s then .lt else .gt))
    | .infinity s, .finite .. => .ok (some (if s then .lt else .gt))
    | .finite .., .infinity t => .ok (some (if t then .gt else .lt))

/-- Whether two numbers have one value; a NaN has none. -/
def equal (x y : Decimal) : Except Trap Bool :=
  (compare? x y).map (· == some .eq)

/-- Whether the order of two numbers is one that `accept` takes; a NaN is a trap. -/
def ordered (accept : Ordering → Bool) (x y : Decimal) : Except Trap Bool := do
  match ← compare? x y with
  | some order => .ok (accept order)
  | none => .error .invalidOperation

def less (x y : Decimal) : Except Trap Bool := ordered Ordering.isLT x y

/-- Whether the number is whole; an infinity counts as whole. -/
def isWhole (x : Decimal) : Except Trap Bool := do
  equal x (← nearestWhole x)

end DecimalScript.Decimal
