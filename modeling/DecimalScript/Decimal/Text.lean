import DecimalScript.Decimal.Basic
import DecimalScript.Text.Blank
import DecimalScript.Text.Digit

/-! Decimal numbers as text: the scientific form, which shows every digit and the
exponent, the form with a fixed number of places, and the reader. -/

namespace DecimalScript.Decimal

/-! ### Writing -/

def sign (negative : Bool) : String := if negative then "-" else ""

/-- The digits of a number, as many as `width` at least. -/
def padded (width n : Nat) : List Char :=
  let digits := Nat.toDigits 10 n
  List.replicate (width - digits.length) '0' ++ digits

/-- The digits of `n` with the last `places` of them after a point. -/
def pointed (places n : Nat) : String :=
  let digits := padded (places + 1) n
  let whole := digits.take (digits.length - places)
  if places = 0 then String.ofList whole
  else String.ofList (whole ++ '.' :: digits.drop (digits.length - places))

/-- The exponent mark: a capital letter and a sign. -/
def exponentMark (exponent : Int) : String :=
  "E" ++ (if exponent < 0 then "-" else "+") ++ Nat.repr exponent.natAbs

/-- A NaN by its name and its payload, if there is one. -/
def nanText (negative signaling : Bool) (payload : Nat) : String :=
  sign negative ++ (if signaling then "sNaN" else "NaN") ++
    (if payload = 0 then "" else Nat.repr payload)

/-- Every digit of the coefficient and the exact exponent: plain while the exponent
is not positive and the first digit stands not lower than the sixth place,
otherwise with one digit before the point and the exponent behind. -/
def toText : Decimal → String
  | .finite negative coefficient exponent =>
    sign negative ++
      if exponent ≤ 0 ∧ -6 ≤ adjusted coefficient exponent then
        pointed (-exponent).toNat coefficient
      else
        pointed (digitCount coefficient - 1) coefficient ++
          exponentMark (adjusted coefficient exponent)
  | .infinity negative => sign negative ++ "Infinity"
  | .nan negative signaling payload => nanText negative signaling payload

/-- All digits without an exponent, for a number that has no digit below the places. -/
def toFixed (places : Nat) : Decimal → String
  | .finite negative coefficient exponent =>
    sign negative ++ pointed places (coefficient * Nat.pow 10 (exponent + places).toNat)
  | x => x.toText

/-! ### Reading -/

/-- The largest exponent of a first digit in a text. -/
def maxTextExponent : Int := 999999999999999999

/-- The least exponent of a last digit in a text. -/
def minTextExponent : Int := -1999999999999999997

/-- A coefficient and an exponent that a text may have. -/
def inTextRange (coefficient : Nat) (exponent : Int) : Bool :=
  adjusted coefficient exponent ≤ maxTextExponent && minTextExponent ≤ exponent

/-- A sign, if there is one, and the rest. -/
def splitSign : List Char → Bool × List Char
  | '-' :: rest => (true, rest)
  | '+' :: rest => (false, rest)
  | rest => (false, rest)

/-- The value of the exponent part: nothing, or a mark and a number. -/
def readExponent? : List Char → Option Int
  | [] => some 0
  | c :: rest =>
    if c = 'e' ∨ c = 'E' then
      let (negative, digits) := splitSign rest
      if digits.isEmpty || !digits.all Text.isDigit then none
      else some (signed negative (Text.natOfDigits digits))
    else none

/-- A number without sign: digits, a point with digits on one side at least, an exponent. -/
def readMagnitude? (text : List Char) : Option (Nat × Int) :=
  let whole := text.takeWhile Text.isDigit
  let rest := text.dropWhile Text.isDigit
  let (fraction, rest) := match rest with
    | '.' :: rest => (rest.takeWhile Text.isDigit, rest.dropWhile Text.isDigit)
    | _ => ([], rest)
  if whole.isEmpty && fraction.isEmpty then none
  else (readExponent? rest).map fun exponent =>
    (Text.natOfDigits (whole ++ fraction), exponent - fraction.length)

/-- A NaN or an infinity by its name in small letters. -/
def readSpecial? (negative : Bool) (text : List Char) : Option Decimal :=
  if text = "inf".toList ∨ text = "infinity".toList then some (.infinity negative)
  else
    let (signaling, text) := match text with
      | 's' :: rest => (true, rest)
      | _ => (false, text)
    match text with
    | 'n' :: 'a' :: 'n' :: digits =>
      if digits.all Text.isDigit then some (.nan negative signaling (Text.natOfDigits digits))
      else none
    | _ => none

/-- The number that a text writes, exactly. White space around it and underscores
anywhere do not count, names are read in letters of either case, and a number
outside the range of exponents is not read. -/
def ofText? (text : String) : Option Decimal :=
  let chars := (Text.trimmed text.toList).filter (· != '_')
  let (negative, chars) := splitSign chars
  match readMagnitude? chars with
  | some (coefficient, exponent) =>
    if inTextRange coefficient exponent then some (.finite negative coefficient exponent) else none
  | none => readSpecial? negative (chars.map Char.toLower)

/-- The number that a text writes; any other text is an invalid operation. -/
def ofText (text : String) : Outcome :=
  match ofText? text with
  | some x => .ok x
  | none => .error .invalidOperation

end DecimalScript.Decimal
