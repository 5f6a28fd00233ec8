import DecimalScript.Value

/-! The variables of a program and their values. -/

namespace DecimalScript

/-- Names with their values; a name stands at most once. -/
structure Env where
  entries : List (String × Value) := []
  deriving Repr, Inhabited

namespace Env

def get? (env : Env) (name : String) : Option Value := env.entries.lookup name

/-- Gives a name a value, in the place of its old one if it has one. -/
def setIn (name : String) (value : Value) : List (String × Value) → List (String × Value)
  | [] => [(name, value)]
  | (other, old) :: rest =>
    if other = name then (name, value) :: rest else (other, old) :: setIn name value rest

def set (env : Env) (name : String) (value : Value) : Env := ⟨setIn name value env.entries⟩

def erase (env : Env) (name : String) : Env := ⟨env.entries.filter (·.1 != name)⟩

end Env

end DecimalScript
