import DecimalScript.Eval.Term
import DecimalScript.Proofs.Calculation
import Mathlib

/-! The calculations with numbers only read the state: they never change it, and
where they fail it is for a reason that lies in the program. A fault that shows
a mismatch between trees and their evaluation is internal. -/

namespace DecimalScript

/-- A fault that no program should be able to cause, whatever it calculates. -/
def Fault.internal : Fault → Bool
  | .malformed _ | .noPlace | .variableGone => true
  | .script (.unsupportedNode _) _ | .script (.unsupportedAssignment _) _
  | .script (.unknownComparison _) _ => true
  | _ => false

/-- A value is of the wrong type. -/
def Cause.isMismatch : Cause → Bool
  | .booleanUsed _ | .conditionNotBoolean | .operandNotBoolean .. | .negatedNotBoolean _
  | .notNumeric _ => true
  | _ => false

/-- Mismatches are found where no place is known, and all other errors where one is. -/
def Fault.isPlaced : Fault → Bool
  | .script cause pos => pos.isNone == cause.isMismatch
  | _ => true

/-- A fault that lies in the program, with or without a place as its cause has it. -/
def Fault.ordinary (f : Fault) : Bool := !f.internal && f.isPlaced

namespace Run

/-- All ordinary faults are among the given ones. -/
def Admits (F : Fault → Prop) : Prop := ∀ f, f.ordinary → F f

theorem admits_all : Admits fun _ => True := fun _ _ => trivial

variable {α : Type} {F : Fault → Prop}

theorem blame_reads (hF : Admits F) {cause : Cause} (h : (Fault.script cause none).ordinary) :
    Reads F (blame cause : Run α) := reads_fail (hF _ h)

theorem blameAt_reads (hF : Admits F) {cause : Cause} {pos : Pos}
    (h : (Fault.script cause (some pos)).ordinary) :
    Reads F (blameAt cause pos : Run α) := reads_fail (hF _ h)

theorem blameNode_reads (hF : Admits F) {cause : Cause} {pos : Option Pos}
    (h : ∀ p, (Fault.script cause (some p)).ordinary) (hp : pos = none → F .noPlace) :
    Reads F (blameNode cause pos : Run α) := by
  cases pos with
  | none => exact reads_fail (hp rfl)
  | some p => exact blameAt_reads hF (h p)

theorem blameNode_ensures (hF : Admits F) {cause : Cause} {pos : Option Pos} {s : State}
    {value : α → State → Prop} {exit : Exit → State → Prop}
    (h : ∀ p, (Fault.script cause (some p)).ordinary) (hp : pos = none → F .noPlace)
    (he : ∀ f, F f → exit (.fault f) s) : Ensures (blameNode cause pos) s value exit := by
  cases pos with
  | none => exact he _ (hp rfl)
  | some p => exact he _ (hF _ (h p))

theorem decimal_reads (hF : Admits F) (x : Except Decimal.Trap α) : Reads F (decimal x) := by
  cases x with
  | ok x => exact reads_pure x
  | error condition => exact reads_fail (hF _ rfl)

/-! ### Numbers -/

theorem toDecimal_reads (hF : Admits F) (v : Value) : Reads F (toDecimal v) := by
  cases v with
  | none => exact blame_reads hF rfl
  | bool b => exact decimal_reads hF _
  | decimal d => exact reads_pure _
  | integer i => exact reads_pure _
  | double x => exact reads_pure _
  | text s => exact decimal_reads hF _
  | power base exponent value => exact reads_pure _
  | row shown => exact blame_reads hF rfl

theorem numeric_reads (hF : Admits F) (usage : Usage) (v : Value) : Reads F (numeric usage v) := by
  unfold numeric
  split
  · exact blame_reads hF rfl
  · exact toDecimal_reads hF v

theorem round_reads (hF : Admits F) (x : Decimal) : Reads F (round x) :=
  reads_get.bind fun _ => decimal_reads hF _

theorem working_reads (hF : Admits F) (f : Nat → Decimal.Outcome) : Reads F (working f) :=
  reads_get.bind fun _ => decimal_reads hF _

theorem rounded_reads (hF : Admits F) (f : Nat → Decimal.Outcome) :
    Reads F (do round (← working f)) :=
  (working_reads hF f).bind fun _ => round_reads hF _

theorem format_reads (hF : Admits F) (v : Value) : Reads F (format v) := by
  cases v with
  | decimal d => exact reads_get.bind fun _ => (decimal_reads hF _).bind fun _ => reads_pure _
  | _ => exact reads_pure _

theorem add_reads (hF : Admits F) (x y : Decimal) : Reads F (add x y) := rounded_reads hF _

theorem sub_reads (hF : Admits F) (x y : Decimal) : Reads F (sub x y) := rounded_reads hF _

theorem mul_reads (hF : Admits F) (x y : Decimal) : Reads F (mul x y) := rounded_reads hF _

theorem negate_reads (hF : Admits F) (x : Decimal) : Reads F (negate x) := rounded_reads hF _

theorem div_reads (hF : Admits F) (x y : Decimal) {pos : Option Pos} (hp : pos = none → F .noPlace) :
    Reads F (div x y pos) := by
  refine (decimal_reads hF _).bind fun isZero => ?_
  cases isZero with
  | true => exact blameNode_reads hF (fun _ => rfl) hp
  | false => exact rounded_reads hF _

theorem mod_reads (hF : Admits F) (x y : Decimal) {pos : Option Pos} (hp : pos = none → F .noPlace) :
    Reads F (mod x y pos) := by
  refine (decimal_reads hF _).bind fun isZero => ?_
  cases isZero with
  | true => exact blameNode_reads hF (fun _ => rfl) hp
  | false =>
    refine (working_reads hF _).bind fun modulus => (working_reads hF _).bind fun quotient => ?_
    refine (decimal_reads hF _).bind fun quotient => ?_
    exact (working_reads hF _).bind fun multiple => rounded_reads hF _

theorem multiply_reads (hF : Admits F) (op : ProductOp) (x y : Decimal) {pos : Option Pos}
    (hp : pos = none → F .noPlace) : Reads F (multiply op x y pos) := by
  cases op with
  | mul => exact mul_reads hF x y
  | div => exact div_reads hF x y hp
  | mod => exact mod_reads hF x y hp

/-! ### Powers -/

theorem toInt_reads (hF : Admits F) (x : Decimal) : Reads F (toInt x) := by
  cases x with
  | finite negative coefficient exponent => exact reads_pure _
  | infinity negative => exact reads_fail (hF _ rfl)
  | nan negative signaling payload => exact reads_fail (hF _ rfl)

theorem toDouble_reads (hF : Admits F) (x : Decimal) : Reads F (toDouble x) := by
  unfold toDouble
  split
  · exact reads_pure _
  · exact reads_fail (hF _ rfl)

theorem doublePower_reads (hF : Admits F) (x y : Binary64) : Reads F (doublePower x y) := by
  unfold doublePower
  split
  · exact reads_pure _
  all_goals exact reads_fail (hF _ rfl)

theorem pow_reads (hF : Admits F) (x y : Decimal) {pos : Option Pos} (hp : pos = none → F .noPlace) :
    Reads F (pow x y pos) := by
  refine (decimal_reads hF _).bind fun isWhole => ?_
  cases isWhole with
  | false =>
    refine (toDouble_reads hF x).bind fun base => (toDouble_reads hF y).bind fun exponent => ?_
    exact (doublePower_reads hF base exponent).bind fun power => round_reads hF power
  | true =>
    cases y with
    | infinity negative => exact blameNode_reads hF (fun _ => rfl) hp
    | _ => exact (toInt_reads hF _).bind fun n => rounded_reads hF _

/-! ### Comparisons and truth values -/

def comparisons : List String := ["==", "!=", "<", "<=", ">", ">="]

theorem compare_reads (hF : Admits F) (x y : Decimal) {operator : String}
    (h : operator ∉ comparisons → F (.script (.unknownComparison operator) none)) :
    Reads F (compare x operator y) := by
  unfold compare
  split
  case h_7 h₁ h₂ h₃ h₄ h₅ h₆ =>
    refine reads_fail (h ?_)
    simp only [comparisons, List.mem_cons, List.not_mem_nil, or_false, not_or]
    exact ⟨h₁, h₂, h₃, h₄, h₅, h₆⟩
  all_goals exact decimal_reads hF _

theorem truth_reads (hF : Admits F) (side : Side) (connective : Connective) (v : Value) :
    Reads F (truth side connective v) := by
  cases v with
  | bool b => exact reads_pure b
  | _ => exact blame_reads hF rfl

/-! ### Functions -/

theorem oneArgument_reads (hF : Admits F) (name : String) (pos : Pos) (items : List Value) :
    Reads F (oneArgument name pos items) := by
  unfold oneArgument
  split
  · exact reads_pure _
  · exact blameAt_reads hF rfl

theorem elementary_reads (hF : Admits F) (name : String) (f : Binary64.Elementary) (pos : Pos)
    (items : List Value) : Reads F (elementary name f pos items) := by
  refine (oneArgument_reads hF name pos items).bind fun item => ?_
  refine (toDecimal_reads hF item).bind fun x => ?_
  refine (toDouble_reads hF x).bind fun x => ?_
  cases f.apply? x with
  | some y => exact (round_reads hF _).bind fun _ => reads_pure _
  | none => exact blameAt_reads hF rfl

theorem cotangent_reads (hF : Admits F) (pos : Pos) (items : List Value) :
    Reads F (cotangent pos items) := by
  refine (oneArgument_reads hF _ pos items).bind fun item => ?_
  refine (toDecimal_reads hF item).bind fun x => ?_
  refine (toDouble_reads hF x).bind fun x => ?_
  cases Binary64.Elementary.tan.apply? x with
  | none => exact reads_fail (hF _ rfl)
  | some tangent =>
    cases h : tangent.reciprocal? with
    | none => simpa [h] using blameAt_reads hF rfl
    | some y => simpa [h] using (round_reads hF _).bind fun _ => reads_pure _

theorem squareRoot_reads (hF : Admits F) (pos : Pos) (items : List Value) :
    Reads F (squareRoot pos items) := by
  refine (oneArgument_reads hF _ pos items).bind fun item => ?_
  refine (toDecimal_reads hF item).bind fun x => ?_
  refine (decimal_reads hF _).bind fun isNegative => ?_
  cases isNegative with
  | true => exact blameAt_reads hF rfl
  | false =>
    refine (toDouble_reads hF x).bind fun x => ?_
    cases x.sqrt? with
    | some y => exact (round_reads hF _).bind fun _ => reads_pure _
    | none => exact reads_fail (hF _ rfl)

theorem isEven_reads (hF : Admits F) (n : Decimal) : Reads F (isEven n) := by
  refine (decimal_reads hF _).bind fun isWhole => ?_
  cases isWhole with
  | true => exact (toInt_reads hF n).bind fun _ => reads_pure _
  | false => exact reads_pure _

theorem inversePower_reads (hF : Admits F) (x n : Decimal) : Reads F (inversePower x n) := by
  refine (toDouble_reads hF x).bind fun base => (toDouble_reads hF n).bind fun degree => ?_
  cases degree.reciprocal? with
  | none => exact reads_fail (hF _ rfl)
  | some exponent =>
    refine (doublePower_reads hF base exponent).bind fun power => ?_
    exact (round_reads hF power).bind fun _ => reads_pure _

theorem root_reads (hF : Admits F) (pos : Pos) (items : List Value) :
    Reads F (root pos items) := by
  unfold root
  split
  · rename_i first second
    refine (toDecimal_reads hF first).bind fun x => (toDecimal_reads hF second).bind fun n => ?_
    refine (decimal_reads hF _).bind fun isZero => ?_
    cases isZero with
    | true => exact blameAt_reads hF rfl
    | false =>
      refine (isEven_reads hF n).bind fun isEven => ?_
      cases isEven with
      | false => exact inversePower_reads hF x n
      | true =>
        refine (decimal_reads hF _).bind fun isNegative => ?_
        cases isNegative with
        | true => exact blameAt_reads hF rfl
        | false => exact inversePower_reads hF x n
  · exact blameAt_reads hF rfl

/-- Every function but the one that sets the precision only reads. -/
theorem call_reads (hF : Admits F) {name : String} (hn : name ≠ "set_precision") (pos : Pos)
    (items : List Value) : Reads F (call name pos items) := by
  unfold call
  split
  · exact absurd rfl hn
  · exact reads_get.bind fun s => (round_reads hF _).bind fun _ => reads_pure _
  · exact elementary_reads hF _ _ pos items
  · exact elementary_reads hF _ _ pos items
  · exact elementary_reads hF _ _ pos items
  · exact elementary_reads hF _ _ pos items
  · exact elementary_reads hF _ _ pos items
  · exact elementary_reads hF _ _ pos items
  · exact cotangent_reads hF pos items
  · exact squareRoot_reads hF pos items
  · exact root_reads hF pos items
  · exact blameAt_reads hF rfl

/-! ### Loops -/

theorem findLoop_reads (hF : Admits F) (target : Target) (outside : Cause) (pos : Option Pos)
    (ho : ∀ p, (Fault.script outside (some p)).ordinary) (hp : pos = none → F .noPlace)
    (ht : ∀ defect, target = .error defect → F (.malformed defect)) :
    Reads F (findLoop target outside pos) := by
  refine reads_get.bind fun s => ?_
  cases s.loops with
  | nil => exact blameNode_reads hF ho hp
  | cons innermost outer =>
    cases target with
    | error defect => exact reads_fail (ht defect rfl)
    | ok name =>
      cases name with
      | none => exact reads_pure innermost
      | some name =>
        dsimp only
        split
        · exact reads_pure name
        · exact blameNode_reads hF (fun _ => rfl) hp

/-- The loop that is found is one of those that run. -/
theorem findLoop_mem {target : Target} {outside : Cause} {pos : Option Pos} {s t : State}
    {name : String} (h : findLoop target outside pos s = (.ok name, t)) : name ∈ s.loops := by
  unfold findLoop at h
  rw [bind_apply, get_apply] at h
  cases hl : s.loops with
  | nil =>
    simp only [hl] at h
    cases pos <;> cases h
  | cons innermost outer =>
    simp only [hl] at h
    cases target with
    | error defect => cases h
    | ok wanted =>
      cases wanted with
      | none =>
        cases h
        exact List.mem_cons_self
      | some wanted =>
        dsimp only at h
        split at h
        next hmem =>
          cases h
          exact List.contains_iff_mem.mp hmem
        next => cases pos <;> cases h

theorem goesOn_reads (hF : Admits F) (range : Range) (up : Bool) (x : Decimal) :
    Reads F (goesOn range up x) := decimal_reads hF _

end Run

end DecimalScript
