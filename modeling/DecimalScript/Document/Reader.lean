import DecimalScript.Document.Basic

/-! Reading documents. A reader takes characters from the front of a row and gives the
rest back. -/

namespace DecimalScript.Document

/-- Reads a value and gives the characters after it. -/
abbrev Reader (α : Type) := List Char → Option (α × List Char)

def isSpace (c : Char) : Bool := c = ' ' || c = '\t' || c = '\n' || c = '\r'

def skipSpace (cs : List Char) : List Char := cs.dropWhile isSpace

/-- The rest after a word. -/
def after? (word : String) (cs : List Char) : Option (List Char) :=
  if word.toList.isPrefixOf cs then some (cs.drop word.length) else none

/-! ### Numbers -/

/-- At least one digit. -/
def digits : Reader (List Char) := fun cs =>
  let row := cs.takeWhile Char.isDigit
  if row.isEmpty then none else some (row, cs.dropWhile Char.isDigit)

/-- The whole part has no zero in front of other digits. -/
def wholePart : Reader (List Char)
  | '0' :: rest => some (['0'], rest)
  | cs => digits cs

/-- A point and digits, or nothing. -/
def fraction (cs : List Char) : List Char × List Char :=
  match cs with
  | '.' :: rest => (digits rest).elim ([], cs) fun (row, rest) => ('.' :: row, rest)
  | _ => ([], cs)

/-- The letter, a sign that may be missing, and digits, or nothing. -/
def exponent (cs : List Char) : List Char × List Char :=
  match cs with
  | e :: rest =>
    if e = 'e' || e = 'E' then
      let (sign, rest) := match rest with
        | '-' :: rest => (['-'], rest)
        | '+' :: rest => (['+'], rest)
        | _ => ([], rest)
      (digits rest).elim ([], cs) fun (row, rest) => ('e' :: sign ++ row, rest)
    else ([], cs)
  | [] => ([], cs)

/-- A number without point and exponent is whole. -/
def numeral : Reader Document := fun cs => do
  let (sign, cs) := match cs with
    | '-' :: rest => (['-'], rest)
    | _ => ([], cs)
  let (whole, cs) ← wholePart cs
  let (fractional, cs) := fraction cs
  let (power, cs) := exponent cs
  if fractional.isEmpty && power.isEmpty then
    let n := Text.natOfDigits whole
    return (.integer (if sign.isEmpty then n else -n), cs)
  else
    let x ← Binary64.ofText? (String.ofList (sign ++ whole ++ fractional ++ power))
    return (.double x, cs)

/-! ### Texts -/

def hexValue? (c : Char) : Option Nat :=
  if c.isDigit then some (c.toNat - '0'.toNat)
  else if 'a' ≤ c && c ≤ 'f' then some (c.toNat - 'a'.toNat + 10)
  else if 'A' ≤ c && c ≤ 'F' then some (c.toNat - 'A'.toNat + 10)
  else none

/-- Four digits in base sixteen. -/
def unit : Reader Nat
  | a :: b :: c :: d :: rest => do
    let n ← [a, b, c, d].foldlM (fun n c => (hexValue? c).map (16 * n + ·)) 0
    return (n, rest)
  | _ => none

/-- The character of a code, and of half a pair the sign for what cannot be shown. -/
def character (code : Nat) : Char :=
  if 0xd800 ≤ code && code < 0xe000 then Char.ofNat 0xfffd else Char.ofNat code

/-- A character by its code; the codes of a pair are one character. -/
def coded : Reader Char := fun cs => do
  let (high, rest) ← unit cs
  if 0xd800 ≤ high && high < 0xdc00 then
    if let '\\' :: 'u' :: more := rest then
      if let some (low, more) := unit more then
        if 0xdc00 ≤ low && low < 0xe000 then
          return (Char.ofNat (0x10000 + (high - 0xd800) * 0x400 + (low - 0xdc00)), more)
  return (character high, rest)

/-- The character that a letter after a backslash stands for. -/
def escaped? : Char → Option Char
  | '"' => some '"'
  | '\\' => some '\\'
  | '/' => some '/'
  | 'b' => some '\x08'
  | 'f' => some '\x0c'
  | 'n' => some '\n'
  | 'r' => some '\r'
  | 't' => some '\t'
  | _ => none

/-- The characters up to the closing quote. -/
def quoted : (limit : Nat) → Reader (List Char)
  | 0, _ => none
  | _ + 1, [] => none
  | _ + 1, '"' :: rest => some ([], rest)
  | limit + 1, '\\' :: 'u' :: rest => do
    let (c, rest) ← coded rest
    let (cs, rest) ← quoted limit rest
    return (c :: cs, rest)
  | limit + 1, '\\' :: e :: rest => do
    let c ← escaped? e
    let (cs, rest) ← quoted limit rest
    return (c :: cs, rest)
  | limit + 1, c :: rest =>
    if c.toNat < 0x20 || c = '\\' then none
    else do
      let (cs, rest) ← quoted limit rest
      return (c :: cs, rest)

def quotedText : Reader String := fun cs => do
  let (chars, rest) ← quoted (cs.length + 1) cs
  return (String.ofList chars, rest)

/-! ### Documents -/

def constants : List (String × Document) :=
  [("null", .null), ("true", .bool true), ("false", .bool false), ("NaN", .double .nan),
   ("Infinity", .double (.infinity false)), ("-Infinity", .double (.infinity true))]

def constant : Reader Document := fun cs =>
  constants.findSome? fun (word, doc) => (after? word cs).map (doc, ·)

mutual

/-- A document; `limit` bounds the number of documents inside each other and in a row. -/
def value : (limit : Nat) → Reader Document
  | 0, _ => none
  | limit + 1, cs =>
    match cs with
    | '"' :: rest => (quotedText rest).map fun (s, rest) => (.text s, rest)
    | '[' :: rest =>
      match skipSpace rest with
      | ']' :: rest => some (.array [], rest)
      | rest => (row limit rest).map fun (items, rest) => (.array items, rest)
    | '\x7b' :: rest =>
      match skipSpace rest with
      | '\x7d' :: rest => some (.object [], rest)
      | rest => (members limit [] rest).map fun (entries, rest) => (.object entries, rest)
    | cs => (constant cs).or (numeral cs)

/-- Documents with commas between them, up to the closing bracket. -/
def row : (limit : Nat) → Reader (List Document)
  | 0, _ => none
  | limit + 1, cs =>
    match value limit cs with
    | none => none
    | some (item, rest) =>
      match skipSpace rest with
      | ']' :: rest => some ([item], rest)
      | ',' :: rest => (row limit (skipSpace rest)).map fun (items, rest) => (item :: items, rest)
      | _ => none

/-- Entries up to the closing brace. A later entry of a key replaces the earlier one. -/
def members : (limit : Nat) → List (String × Document) → Reader (List (String × Document))
  | 0, _, _ => none
  | limit + 1, entries, cs =>
    match cs with
    | '"' :: rest =>
      match quotedText rest with
      | none => none
      | some (key, rest) =>
        match skipSpace rest with
        | ':' :: rest =>
          match value limit (skipSpace rest) with
          | none => none
          | some (item, rest) =>
            let entries := putEntry key item entries
            match skipSpace rest with
            | '\x7d' :: rest => some (entries, rest)
            | ',' :: rest => members limit entries (skipSpace rest)
            | _ => none
        | _ => none
    | _ => none

end

/-- The document that a text writes, with space around it. -/
def ofText? (text : String) : Option Document := do
  let cs := skipSpace text.toList
  let (doc, rest) ← value (2 * cs.length + 2) cs
  if (skipSpace rest).isEmpty then some doc else none

end DecimalScript.Document
