import DecimalScript.Binary64.Arithmetic

/-! Documents of the JSON format: measurements are exchanged in them and kept in them. -/

namespace DecimalScript

/-- A document. An object has its entries in the order in which they came. -/
inductive Document where
  | null
  | bool (b : Bool)
  | integer (i : Int)
  | double (x : Binary64)
  | text (s : String)
  | array (items : List Document)
  | object (entries : List (String × Document))
  deriving Repr, Inhabited

namespace Document

/-- The entries of an object; other documents have none. -/
def entries : Document → List (String × Document)
  | .object entries => entries
  | _ => []

def items : Document → List Document
  | .array items => items
  | _ => []

def get? (doc : Document) (key : String) : Option Document := doc.entries.lookup key

def get (doc : Document) (key : String) : Document := (doc.get? key).getD .null

/-- Entries with a new value for a key, at the key's place or else at the end. -/
def putEntry (key : String) (value : Document) : List (String × Document) → List (String × Document)
  | [] => [(key, value)]
  | (k, v) :: rest => if k = key then (k, value) :: rest else (k, v) :: putEntry key value rest

/-- The object with a new value for a key; other documents count as the empty object. -/
def put (doc : Document) (key : String) (value : Document) : Document :=
  .object (putEntry key value doc.entries)

def isObject : Document → Bool
  | .object _ => true
  | _ => false

def number? : Document → Option Binary64
  | .integer i => some (Binary64.ofInt i)
  | .double x => some x
  | _ => none

def number (doc : Document) : Binary64 := doc.number?.getD (Binary64.zero false)

def integer? : Document → Option Int
  | .integer i => some i
  | _ => none

def numbers (doc : Document) : List (String × Binary64) :=
  doc.entries.filterMap fun (key, value) => value.number?.map (key, ·)

def text? : Document → Option String
  | .text s => some s
  | _ => none

def texts (doc : Document) : List String := doc.items.filterMap text?

end Document

end DecimalScript
