/-! Text in quotes, with escapes for the characters that cannot be seen. -/

namespace DecimalScript.Text

/-- A number in base sixteen with a width. -/
def hexPadded (width n : Nat) : List Char :=
  let digits := Nat.toDigits 16 n
  List.replicate (width - digits.length) '0' ++ digits

/-- A character between the given quotes. -/
def shownChar (quote c : Char) : List Char :=
  let n := c.toNat
  if c = quote || c = '\\' then ['\\', c]
  else if c = '\n' then ['\\', 'n']
  else if c = '\r' then ['\\', 'r']
  else if c = '\t' then ['\\', 't']
  else if n < 0x20 || (0x7f ≤ n && n ≤ 0xa0) || n = 0xad then '\\' :: 'x' :: hexPadded 2 n
  else [c]

/-- Single quotes, unless the text has single quotes and no double ones. -/
def shown (text : String) : String :=
  let chars := text.toList
  let quote := if chars.contains '\'' && !chars.contains '"' then '"' else '\''
  String.ofList (quote :: chars.flatMap (shownChar quote) ++ [quote])

end DecimalScript.Text
