import DecimalScript.Binary64.Text
import DecimalScript.Text.Shown

/-! The values of programs. -/

namespace DecimalScript

inductive Value where
  | none
  | bool (b : Bool)
  | decimal (d : Decimal)
  | integer (i : Int)
  | double (x : Binary64)
  | text (s : String)
  /-- A power, which keeps the two numbers it was calculated from. -/
  | power (base exponent value : Decimal)
  /-- A row of values by its text, which is all that can be known of it. -/
  | row (shown : String)
  deriving DecidableEq, Repr, Inhabited

namespace Value

/-- The name of a value's type in messages. -/
def typeName : Value → String
  | .none => "NoneType"
  | .bool _ => "bool"
  | .decimal _ => "Decimal"
  | .integer _ => "int"
  | .double _ => "float"
  | .text _ => "str"
  | .power .. => "PowerValue"
  | .row _ => "list"

/-- The text of the row without values. -/
def emptyRow : String := "[]"

/-- Whether a value holds as a condition: nothing, `false`, zeros, the empty text and the empty
row do not. -/
def holds : Value → Bool
  | .none => false
  | .bool b => b
  | .decimal d => !d.isZero
  | .integer i => i != 0
  | .double x => !x.isZero
  | .text s => s != ""
  | .power .. => true
  | .row shown => shown != emptyRow

def quotedDecimal (d : Decimal) : String := "Decimal('" ++ d.toText ++ "')"

/-- The text of a value that is not rounded to places. -/
def plainText : Value → String
  | .none => "None"
  | .bool b => if b then "True" else "False"
  | .decimal d => d.toText
  | .integer i => toString i
  | .double x => x.toText
  | .text s => s
  | .power base exponent value =>
    "PowerValue(base=" ++ quotedDecimal base ++ ", exponent=" ++ quotedDecimal exponent ++
      ", value=" ++ quotedDecimal value ++ ")"
  | .row shown => shown

/-- The text of a value in a row. -/
def textInRow : Value → String
  | .decimal d => quotedDecimal d
  | .text s => Text.shown s
  | value => value.plainText

def rowOf (values : List Value) : Value :=
  .row ("[" ++ ", ".intercalate (values.map textInRow) ++ "]")

end Value

end DecimalScript
