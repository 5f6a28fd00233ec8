import DecimalScript.Text.Digit

/-! The lexemes of the language. Each is a rule for how many characters at the
start of a text belong to it, the longest run that fits. Nothing is reserved: a
name may be spelled like a keyword, and where one ends needs no blank. -/

namespace DecimalScript.Grammar

/-- The length of the lexeme at the start of a text. -/
abbrev Lexeme := List Char → Option Nat

def spelled (word : String) : Lexeme := fun text =>
  if word.toList.isPrefixOf text then some word.length else none

/-- The first of several spellings that fits. -/
def oneOf (words : List String) : Lexeme := fun text =>
  words.findSome? fun word => spelled word text

def isNameStart (c : Char) : Bool := c.isAlpha || c == '_'

def isNamePart (c : Char) : Bool := c.isAlphanum || c == '_'

/-- A letter or an underscore, then letters, digits and underscores, all plain ones. -/
def nameLexeme : Lexeme
  | [] => none
  | c :: rest => if isNameStart c then some ((rest.takeWhile isNamePart).length + 1) else none

/-- A point and digits. -/
def fractionLength : List Char → Nat
  | '.' :: rest =>
    let digits := (rest.takeWhile Text.isDigit).length
    if digits = 0 then 0 else digits + 1
  | _ => 0

/-- Digits with or without a fraction, or a fraction alone. -/
def numberLexeme : Lexeme := fun text =>
  let whole := (text.takeWhile Text.isDigit).length
  let length := whole + fractionLength (text.drop whole)
  if length = 0 then none else some length

/-- The characters up to the closing quote of a string, which is the first one
with an even number of backslashes before it. -/
def stringTail (escaped : Bool) : Lexeme
  | [] => none
  | c :: rest =>
    if c = '\n' then none
    else if c = '"' && !escaped then some 1
    else (stringTail (c = '\\' && !escaped) rest).map (· + 1)

def stringLexeme : Lexeme
  | '"' :: rest => (stringTail false rest).map (· + 1)
  | _ => none

/-- A semicolon, or line feeds in a row. -/
def separatorLexeme : Lexeme
  | ';' :: _ => some 1
  | text =>
    let length := (text.takeWhile (· == '\n')).length
    if length = 0 then none else some length

def comparisonLexeme : Lexeme := oneOf ["==", "!=", "<=", "<", ">=", ">"]

def isGap (c : Char) : Bool := c == ' ' || c == '\t' || c == '\x0c' || c == '\r'

/-- The number of characters that stand before the next lexeme: blanks, and
comments from a number sign to the end of the line. -/
def gapLength (comment : Bool) : List Char → Nat
  | [] => 0
  | c :: rest =>
    if comment then (if c = '\n' then 0 else gapLength true rest + 1)
    else if isGap c then gapLength false rest + 1
    else if c = '#' then gapLength true rest + 1
    else 0

end DecimalScript.Grammar
