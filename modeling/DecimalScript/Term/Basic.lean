import DecimalScript.Fault

/-! The terms that are evaluated. Chains of operators are nested from the left, and
each statement knows what tracing has to say about it. -/

namespace DecimalScript

/-- What tracing shows after a statement. -/
inductive Note where
  /-- The new value of a variable. -/
  | assigned (name : String)
  /-- The value of the statement, if it has one. -/
  | result
  | silent
  deriving DecidableEq, Repr

/-- What an assignment does with the old value. -/
inductive AssignOp where
  | set | add | sub | div | mod
  | other (operator : String)
  deriving DecidableEq, Repr

inductive ProductOp where
  | mul | div | mod
  deriving DecidableEq, Repr

/-- The loop that a `break` or `next` aims at: the innermost one if it names none. -/
abbrev Target := Except Defect (Option String)

inductive Term where
  /-- A value as it is. -/
  | constant (value : Value)
  /-- A number with all its digits. -/
  | exactNumber (text : String)
  /-- A number rounded to places. -/
  | number (text : String)
  | quoted (literal : String)
  | var (name : String) (pos : Pos)
  /-- Terms one after the other; the last one gives the value. -/
  | sequence (items : List Term)
  /-- A statement that tracing announces. -/
  | traced (note : Note) (pos : Option Pos) (item : Term)
  | assign (name : String) (namePos : Pos) (op : Except Defect AssignOp) (value : Term)
      (pos : Option Pos)
  | leave (target : Target) (guard result : Term) (pos : Option Pos)
  | skip (target : Target) (guard : Term) (pos : Option Pos)
  /-- A loop; `showsStep` tells whether its step is written in the program. -/
  | loop (name : String) (start stop step : Term) (showsStep : Bool) (body : Term)
      (pos : Option Pos)
  | print (items : List Term)
  /-- The values of all terms. -/
  | row (items : List Term)
  /-- A number, for the usage that a truth value is refused for. -/
  | numeric (usage : Usage) (item : Term)
  /-- The number that a value stands for, a power by its value. -/
  | unwrapped (item : Term)
  | sum (minus : Bool) (left right : Term)
  | product (op : ProductOp) (left right : Term) (pos : Option Pos)
  | power (base exponent : Term) (pos : Option Pos)
  | signed (minus : Bool) (item : Term)
  | call (name : String) (pos : Pos) (items : List Term)
  | conditional (condition holds otherwise : Term)
  /-- A truth value as the left operand of a connective. -/
  | boolean (connective : Connective) (item : Term)
  | connected (connective : Connective) (left right : Term)
  | negated (item : Term)
  /-- A chain of comparisons; an operand between two operators belongs to both. -/
  | comparison (first : Term) (operators : List String) (rest : List Term)
  | unsupported (name : String)
  | malformed (defect : Defect)
  deriving Inhabited

end DecimalScript
