import DecimalScript.Binary64.Arithmetic

/-! The elementary functions and powers of doubles, with their domains. -/

namespace DecimalScript.Binary64

def toFloat (x : Binary64) : Float := Float.ofBits x.bits

def ofFloat (x : Float) : Binary64 := ⟨x.toBits⟩

def apply (f : Float → Float) (x : Binary64) : Binary64 := ofFloat (f x.toFloat)

/-- The functions of one argument. -/
inductive Elementary where
  | ln | log2 | log10 | sin | cos | tan
  deriving DecidableEq, Repr

/-- Logarithms are defined above zero, the others for finite numbers; a NaN is passed on. -/
def Elementary.defined : Elementary → Binary64 → Bool
  | .ln, x | .log2, x | .log10, x => x.isNaN || x.isPositive
  | .sin, x | .cos, x | .tan, x => !x.isInfinite

def Elementary.value : Elementary → Binary64 → Binary64
  | .ln => apply Float.log
  | .log2 => apply Float.log2
  | .log10 => apply Float.log10
  | .sin => apply Float.sin
  | .cos => apply Float.cos
  | .tan => apply Float.tan

/-- A value for an argument, unless it is a NaN and the argument is none. -/
def real? (x y : Binary64) : Option Binary64 :=
  if y.isNaN && !x.isNaN then none else some y

/-- The value of a function where it is defined. -/
def Elementary.apply? (f : Elementary) (x : Binary64) : Option Binary64 :=
  if f.defined x then real? x (f.value x) else none

/-- The square root, or `none` where it is not real. -/
def sqrt? (x : Binary64) : Option Binary64 := real? x (apply Float.sqrt x)

/-- The reciprocal, or `none` for zero. -/
def reciprocal? (x : Binary64) : Option Binary64 :=
  if x.isZero then none else some (one.div x)

/-- Why a power is not a double. -/
inductive PowerFault where
  /-- The power is larger than every double. -/
  | overflow
  /-- Zero was raised to a negative power. -/
  | zeroToNegative
  /-- A negative number was raised to a power that is not whole. -/
  | notReal
  /-- The power is not a number. -/
  | undefined
  deriving DecidableEq, Repr

/-- The power of a finite positive base with a finite exponent. -/
def powPositive (x y : Binary64) : Except PowerFault Binary64 :=
  let power := ofFloat (Float.pow x.toFloat y.toFloat)
  if power.isInfinite then .error .overflow
  else if power.isNaN then .error .undefined
  else .ok power

def exceedsOne (x : Binary64) : Bool := one.bits < x.abs.bits

def pow (x y : Binary64) : Except PowerFault Binary64 :=
  if y.isZero then .ok one
  else if x.isNaN then .ok x
  else if y.isNaN then .ok (if x = one then one else y)
  else if y.isInfinite then
    if x.abs = one then .ok one
    else if x.exceedsOne == !y.isNegative then .ok (infinity false)
    else .ok (zero false)
  else if x.isInfinite then
    let size := if y.isNegative then zero false else infinity false
    .ok (if y.isOdd && x.isNegative then size.neg else size)
  else if x.isZero then
    if y.isNegative then .error .zeroToNegative
    else .ok (if y.isOdd then x else zero false)
  else if x.isNegative then
    if y.isWhole then do
      let power ← powPositive x.abs y
      .ok (if y.isOdd then power.neg else power)
    else do
      let _ ← powPositive x.abs y
      .error .notReal
  else powPositive x y

end DecimalScript.Binary64
