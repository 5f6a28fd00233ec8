import DecimalScript.Text.CharName
import DecimalScript.Text.Digit

/-! String literals: what stands between the quotes, with backslash escapes. -/

namespace DecimalScript.Text

def hexValue? (c : Char) : Option Nat :=
  if '0' ≤ c ∧ c ≤ '9' then some (c.toNat - '0'.toNat)
  else if 'a' ≤ c ∧ c ≤ 'f' then some (c.toNat - 'a'.toNat + 10)
  else if 'A' ≤ c ∧ c ≤ 'F' then some (c.toNat - 'A'.toNat + 10)
  else none

def isOctal (c : Char) : Bool := '0' ≤ c && c ≤ '7'

/-- The character of a row of digits in a base, if there is one; half of a pair is none. -/
def charOfDigits? (base : Nat) (digits : List Char) : Option Char := do
  let values ← digits.mapM hexValue?
  let code := values.foldl (fun n d => base * n + d) 0
  if h : code.isValidChar then some (Char.ofNatAux code h) else none

/-- The escapes of one letter. -/
def simpleEscape? : Char → Option Char
  | '\\' => some '\\'
  | '\'' => some '\''
  | '"' => some '"'
  | 'a' => some '\x07'
  | 'b' => some '\x08'
  | 'f' => some '\x0c'
  | 'n' => some '\n'
  | 'r' => some '\r'
  | 't' => some '\t'
  | 'v' => some '\x0b'
  | _ => none

/-- The number of hexadecimal digits that an escape letter asks for. -/
def hexWidth? : Char → Option Nat
  | 'x' => some 2
  | 'u' => some 4
  | 'U' => some 8
  | _ => none

/-- The character whose name stands in braces, and how many characters that takes. -/
def readName? : List Char → Option (List Char × Nat)
  | '\x7b' :: rest =>
    let name := rest.takeWhile (· != '\x7d')
    if name.length = rest.length then none
    else (namedChar? name).map fun d => ([d], name.length + 3)
  | _ => none

/-- What an escape after its backslash stands for, and how many characters it
takes. An unknown escape stands for itself; a truncated one is refused. -/
def readEscape? : List Char → Option (List Char × Nat)
  | [] => none
  | c :: rest =>
    match simpleEscape? c with
    | some d => some ([d], 1)
    | none =>
      match hexWidth? c with
      | some width =>
        if rest.length < width then none
        else (charOfDigits? 16 (rest.take width)).map fun d => ([d], width + 1)
      | none =>
        if isOctal c then
          let digits := ((c :: rest).take 3).takeWhile isOctal
          (charOfDigits? 8 digits).map fun d => ([d], digits.length)
        else if c = 'N' then readName? rest
        else some (['\\', c], 1)

/-- The text that a literal without its quotes denotes. A carriage return or a zero
character cannot stand in it. `skip` counts the characters an escape has used. -/
def decodeFrom : (skip : Nat) → List Char → Option (List Char)
  | _, [] => some []
  | skip + 1, _ :: rest => decodeFrom skip rest
  | 0, c :: rest =>
    if c = '\\' then do
      let (text, count) ← readEscape? rest
      let more ← decodeFrom count rest
      some (text ++ more)
    else if c = '\r' ∨ c.toNat = 0 then none
    else (decodeFrom 0 rest).map (c :: ·)

/-- The text that a literal with its quotes denotes. -/
def unquote? (literal : String) : Option String :=
  match literal.toList with
  | '"' :: rest => (decodeFrom 0 rest.dropLast).map String.ofList
  | _ => none

end DecimalScript.Text
