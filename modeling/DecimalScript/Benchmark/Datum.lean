import DecimalScript.Binary64.Arithmetic
import DecimalScript.Text.Shown
import DecimalScript.Value

/-! The values that benchmarks give and take. -/

namespace DecimalScript.Benchmark

inductive Datum where
  | none
  | bool (b : Bool)
  | integer (i : Int)
  | double (x : Binary64)
  | complex (re im : Binary64)
  | text (s : String)
  | bytes (mutable : Bool) (data : List UInt8)
  | list (items : List Datum)
  | tuple (items : List Datum)
  /-- A dictionary: the keys in the order in which they came, and their values. -/
  | dict (keys values : List Datum)
  | set (frozen : Bool) (items : List Datum)
  | decimal (d : Decimal)
  | fraction (num : Int) (den : Nat)
  | power (base exponent value : Decimal)
  /-- A value that its type and its shown text make out. -/
  | shown (kind written : String)
  | object
  | type
  /-- A grid of numbers of one kind, with its extents and its memory. -/
  | grid (kind : String) (extents : List Nat) (memory : List UInt8)
  deriving Repr, Inhabited

namespace Datum

/-! ### Values that are shown -/

/-- A fraction in lowest terms, the sign with the numerator. -/
def ofRatio (num den : Int) : Datum :=
  let common := Int.gcd num den
  let num := if den < 0 then -num else num
  .fraction (num / common) (den.natAbs / common)

def call (name : String) (arguments : List String) : String :=
  name ++ "(" ++ ", ".intercalate arguments ++ ")"

def date (year month day : Int) : Datum :=
  .shown "date" (call "datetime.date" ([year, month, day].map toString))

/-- A span of time; seconds and parts of a second carry over, and parts that are zero
are not shown. -/
def span (days seconds microseconds : Int) : Datum :=
  let seconds := seconds + Int.fdiv microseconds 1000000
  let days := days + Int.fdiv seconds 86400
  let parts := [("days", days), ("seconds", Int.fmod seconds 86400),
    ("microseconds", Int.fmod microseconds 1000000)].filter (·.2 != 0)
  let arguments := if parts.isEmpty then ["0"] else parts.map fun (n, v) => n ++ "=" ++ toString v
  .shown "timedelta" (call "datetime.timedelta" arguments)

/-- A path by its parts; empty parts and single points do not count, and two slashes
in front are kept. -/
def path (text : String) : Datum :=
  let parts := (text.splitOn "/").filter fun part => part != "" && part != "."
  let root :=
    if text.startsWith "///" then "/" else if text.startsWith "//" then "//"
    else if text.startsWith "/" then "/" else ""
  let clean := root ++ "/".intercalate parts
  .shown "PurePosixPath" (call "PurePosixPath" [Text.shown (if clean = "" then "." else clean)])

/-- An identifier of thirty-two digits in five groups. -/
def uuid (text : String) : Datum :=
  let digits := (text.toList.map Char.toLower).filter fun c =>
    c.isDigit || ('a' ≤ c && c ≤ 'f')
  let groups := [(0, 8), (8, 4), (12, 4), (16, 4), (20, 12)].map fun (start, length) =>
    String.ofList ((digits.drop start).take length)
  .shown "UUID" (call "UUID" [Text.shown ("-".intercalate groups)])

/-! ### Grids -/

/-- The bytes of a number, the lowest first; negative numbers in two's complement. -/
def littleEndian : (width : Nat) → Int → List UInt8
  | 0, _ => []
  | width + 1, i => UInt8.ofNat (Int.emod i 256).toNat :: littleEndian width (i / 256)

/-- The number of bytes of a kind of whole number. -/
def wholeWidth (kind : String) : Nat :=
  if kind.endsWith "16" then 2 else if kind.endsWith "32" then 4
  else if kind.endsWith "64" then 8 else 1

/-- A number in the memory of a grid. -/
def memory (kind : String) : Datum → List UInt8
  | .double x => littleEndian 8 x.bits.toNat
  | .bool b => [if b then 1 else 0]
  | .integer i =>
    if kind.startsWith "float" then littleEndian 8 (Binary64.ofInt i).bits.toNat
    else littleEndian (wholeWidth kind) i
  | _ => []

/-! ### Types and texts -/

def typeName : Datum → String
  | .none => "NoneType"
  | .bool _ => "bool"
  | .integer _ => "int"
  | .double _ => "float"
  | .complex .. => "complex"
  | .text _ => "str"
  | .bytes mutable _ => if mutable then "bytearray" else "bytes"
  | .list _ => "list"
  | .tuple _ => "tuple"
  | .dict .. => "dict"
  | .set frozen _ => if frozen then "frozenset" else "set"
  | .decimal _ => "Decimal"
  | .fraction .. => "Fraction"
  | .power .. => "PowerValue"
  | .shown kind _ => kind
  | .object => "object"
  | .type => "type"
  | .grid .. => "ndarray"

mutual

/-- A value as it is shown inside other values. -/
def inner : Datum → String
  | .none => "None"
  | .bool b => if b then "True" else "False"
  | .integer i => toString i
  | .double x => x.toText
  | .text s => Text.shown s
  | .list items => "[" ++ ", ".intercalate (innerAll items) ++ "]"
  | .tuple items =>
    match innerAll items with
    | [one] => "(" ++ one ++ ",)"
    | row => "(" ++ ", ".intercalate row ++ ")"
  | .dict keys values =>
    "\x7b" ++ ", ".intercalate (((innerAll keys).zip (innerAll values)).map fun (k, v) => k ++ ": " ++ v)
      ++ "\x7d"
  | .decimal d => Value.quotedDecimal d
  | .fraction num den => call "Fraction" [toString num, toString den]
  | .power base exponent value => Value.plainText (.power base exponent value)
  | .shown _ written => written
  | .object | .complex .. | .bytes .. | .set .. | .type | .grid .. => ""

def innerAll : List Datum → List String
  | [] => []
  | d :: rest => inner d :: innerAll rest

end

/-- A value as it stands alone: texts without quotes, decimal numbers by their digits. -/
def plain : Datum → String
  | .text s => s
  | .decimal d => d.toText
  | .fraction num den => if den = 1 then toString num else toString num ++ "/" ++ toString den
  | d => d.inner

end Datum

end DecimalScript.Benchmark
