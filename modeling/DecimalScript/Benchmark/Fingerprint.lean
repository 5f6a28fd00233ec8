import DecimalScript.Benchmark.Datum
import DecimalScript.Binary64.Arithmetic
import DecimalScript.Binary64.Function
import DecimalScript.Digest.Sha256

/-! Fingerprints of values: the hash of an encoding in which dictionaries and sets have
no order and doubles have six digits. -/

namespace DecimalScript.Benchmark

abbrev Bytes := List UInt8

def utf8 (text : String) : Bytes := text.toUTF8.toList

/-- Lists of at most so many items are encoded whole. -/
def itemLimit : Nat := 2000

/-- What the encoding leaves open: how values are cut that are too deep or too long, and how bytes
and complex numbers are written. -/
structure Conventions where
  /-- The number of levels that are encoded. -/
  levels : Nat
  /-- What stands for a value below them. -/
  mark : Bytes
  /-- What is encoded of a long list, by its length: items by their places, and marks. -/
  excerpt : Nat → List (Nat ⊕ Bytes)
  bytes : (mutable : Bool) → Bytes → Bytes
  complex : Binary64 → Binary64 → Bytes

/-- A double with six digits; all zeros are one. -/
def sixDigits (x : Binary64) : Binary64 :=
  if x.isZero then .zero false
  else if x.isNaN || x.isInfinite then x
  else x.roundTo (5 - (Binary64.Elementary.log10.value x.abs).floor)

/-- A letter for the kind of a collection, and its size. -/
def header (kind : String) (size : Nat) : Bytes := utf8 (kind ++ toString size)

/-- A list by the encodings of its items. -/
def listBytes (c : Conventions) (items : List Bytes) : Bytes :=
  header "L" items.length ++
    if items.length ≤ itemLimit then items.flatten
    else (c.excerpt items.length).flatMap (Sum.elim (items.getD · []) id)

/-- Entries in the order of the fingerprints of their keys. -/
def byKey (entries : List (Bytes × Bytes)) : List (Bytes × Bytes) :=
  let marked := entries.map fun entry => (Sha256.hex entry.1, entry)
  (marked.mergeSort fun a b => a.1 ≤ b.1).map (·.2)

def dictBytes (entries : List (Bytes × Bytes)) : Bytes :=
  header "D" entries.length ++ (byKey entries).flatMap fun (key, value) => key ++ value

/-- The fingerprints of a set's members in their order. -/
def setBytes (members : List Bytes) : Bytes :=
  header "S" members.length ++ ((members.map Sha256.hex).mergeSort (· ≤ ·)).flatMap utf8

def extentsText (extents : List Nat) : String :=
  Datum.inner (.tuple (extents.map fun n => Datum.integer (n : Nat)))

/-- The encoding of a value down to a number of levels. -/
def encode (c : Conventions) : (levels : Nat) → Datum → Bytes
  | 0, _ => c.mark
  | levels + 1, d =>
    match d with
    | .none => utf8 "None"
    | .bool b => utf8 (if b then "True" else "False")
    | .integer i => utf8 (toString i)
    | .double x => utf8 (sixDigits x).toText
    | .complex re im => c.complex re im
    | .text s => utf8 ("s" ++ s)
    | .bytes mutable data => c.bytes mutable data
    | .list items | .tuple items => listBytes c (items.map (encode c levels))
    | .dict keys values =>
      dictBytes ((keys.map (encode c levels)).zip (values.map (encode c levels)))
    | .set _ items => setBytes (items.map (encode c levels))
    | .decimal d => utf8 (Value.quotedDecimal d)
    | .fraction num den => utf8 (Datum.inner (.fraction num den))
    | .power base exponent value =>
      dictBytes ([("base", base), ("exponent", exponent), ("value", value)].map fun (name, d) =>
        (encode c levels (.text name), encode c levels (.decimal d)))
    | .shown _ written => utf8 written
    | .object => utf8 "<builtins.object>"
    | .type => utf8 "<builtins.type>"
    | .grid kind extents memory => utf8 ("nd" ++ extentsText extents ++ kind) ++ memory

def fingerprint (c : Conventions) (d : Datum) : String := Sha256.hex (encode c c.levels d)

end DecimalScript.Benchmark
