import DecimalScript.Decimal.Text
import DecimalScript.Grammar.Lexeme

/-! Variables given on the command line as `name=value`. -/

namespace DecimalScript.CommandLine

inductive BadOverride where
  | noEquals
  | badName (name : String)
  | badNumber (name value : String)
  deriving DecidableEq, Repr

def BadOverride.message : BadOverride → String
  | noEquals => "Expected NAME=VALUE"
  | badName name => "Invalid variable name: " ++ name
  | badNumber name value => "Invalid numeric value for " ++ name ++ ": " ++ value

def isName (text : List Char) : Bool := Grammar.nameLexeme text == some text.length

/-- A variable and its number. Blanks around both do not count. -/
def readOverride (item : String) : Except BadOverride (String × Decimal) :=
  let chars := item.toList
  let before := chars.takeWhile (· != '=')
  match chars.dropWhile (· != '=') with
  | [] => .error .noEquals
  | _ :: after =>
    let name := Text.trimmed before
    let value := String.ofList (Text.trimmed after)
    if !isName name then .error (.badName (String.ofList name))
    else match Decimal.ofText? value with
      | some x => .ok (String.ofList name, x)
      | none => .error (.badNumber (String.ofList name) value)

/-- Enters a number for a name, in the place of an earlier one. -/
def enter (name : String) (x : Decimal) : List (String × Decimal) → List (String × Decimal)
  | [] => [(name, x)]
  | (other, y) :: rest =>
    if other = name then (name, x) :: rest else (other, y) :: enter name x rest

/-- The variables of several texts in the order of their first appearance; a later
text for a name replaces the number. The first bad text is reported. -/
def readOverrides (items : List String) : Except BadOverride (List (String × Decimal)) :=
  items.foldlM (fun overrides item => do
    let (name, x) ← readOverride item
    return enter name x overrides) []

end DecimalScript.CommandLine
