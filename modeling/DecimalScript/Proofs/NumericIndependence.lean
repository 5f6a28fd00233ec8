import DecimalScript.Proofs.Frame
import Mathlib

/-! Calculations with numbers see nothing of the state but its digits and places.
Such a calculation is steady: two states with the same digits and places give it
the same end, and it leaves both as they are. -/

namespace DecimalScript.Run

variable {α β : Type} {s t : State}

/-- The calculation ends with a value or a fault that the digits and places of the
state alone determine, and leaves the state as it is. -/
def Steady (run : Run α) : Prop :=
  ∃ outcome : Nat → Nat → Except Fault α,
    ∀ s, run s = ((outcome s.digits s.places).mapError .fault, s)

/-- In two states with the same digits and places a steady calculation ends alike. -/
theorem Steady.alike {run : Run α} (h : Steady run) (hd : s.digits = t.digits)
    (hp : s.places = t.places) :
    (∃ a, run s = (.ok a, s) ∧ run t = (.ok a, t)) ∨
      ∃ f, run s = (.error (.fault f), s) ∧ run t = (.error (.fault f), t) := by
  obtain ⟨outcome, h⟩ := h
  have hs := h s
  have ht := h t
  rw [hd, hp] at hs
  cases hr : outcome t.digits t.places with
  | ok a =>
    rw [hr] at hs ht
    exact .inl ⟨a, hs, ht⟩
  | error f =>
    rw [hr] at hs ht
    exact .inr ⟨f, hs, ht⟩

theorem steady_pure (a : α) : Steady (pure a : Run α) := ⟨fun _ _ => .ok a, fun _ => rfl⟩

theorem steady_fail (f : Fault) : Steady (fail f : Run α) := ⟨fun _ _ => .error f, fun _ => rfl⟩

theorem Steady.bind {x : Run α} {f : α → Run β} (hx : Steady x) (hf : ∀ a, Steady (f a)) :
    Steady (x >>= f) := by
  obtain ⟨first, hx⟩ := hx
  choose rest hf using hf
  refine ⟨fun digits places => first digits places >>= fun a => rest a digits places, fun s => ?_⟩
  rw [bind_apply, hx]
  cases hr : first s.digits s.places with
  | ok a =>
    simp only [hr]
    exact hf a s
  | error f =>
    simp only [hr]
    rfl

theorem Steady.map {x : Run α} (f : α → β) (hx : Steady x) : Steady (f <$> x) := by
  rw [← bind_pure_comp]
  exact hx.bind fun a => steady_pure _

/-- Digits and places may be looked up. -/
theorem steady_get {g : Nat → Nat → Run α} (h : ∀ digits places, Steady (g digits places)) :
    Steady (do let s ← get; g s.digits s.places) := by
  choose outcome h using h
  exact ⟨fun digits places => outcome digits places digits places, fun s => h _ _ s⟩

theorem steady_mapM {f : α → Run β} (h : ∀ a, Steady (f a)) (items : List α) :
    Steady (items.mapM f) := by
  induction items with
  | nil => exact steady_pure _
  | cons a rest ih =>
    rw [List.mapM_cons]
    exact (h a).bind fun b => ih.bind fun _ => steady_pure _

theorem steady_blameNode (cause : Cause) (pos : Option Pos) :
    Steady (blameNode cause pos : Run α) := by
  cases pos <;> exact steady_fail _

theorem steady_decimal (x : Except Decimal.Trap α) : Steady (decimal x) := by
  cases x with
  | ok x => exact steady_pure x
  | error condition => exact steady_fail _

/-! ### Numbers -/

theorem toDecimal_steady (v : Value) : Steady (toDecimal v) := by
  cases v with
  | text | bool => exact steady_decimal _
  | none | row => exact steady_fail _
  | _ => exact steady_pure _

theorem numeric_steady (usage : Usage) (v : Value) : Steady (numeric usage v) := by
  unfold numeric
  split
  · exact steady_fail _
  · exact toDecimal_steady v

theorem round_steady (x : Decimal) : Steady (round x) :=
  steady_get (g := fun digits places => decimal (x.toPlaces digits places))
    fun _ _ => steady_decimal _

theorem working_steady (f : Nat → Decimal.Outcome) : Steady (working f) :=
  steady_get (g := fun digits _ => decimal (f digits)) fun _ _ => steady_decimal _

theorem rounded_steady (f : Nat → Decimal.Outcome) : Steady (do round (← working f)) :=
  (working_steady f).bind fun _ => round_steady _

theorem format_steady (v : Value) : Steady (format v) := by
  cases v with
  | decimal d =>
    refine steady_get (g := fun digits places => do
      let fixed ← decimal (d.toPlaces digits places)
      pure (fixed.toFixed places)) fun digits places => ?_
    exact (steady_decimal _).bind fun _ => steady_pure _
  | _ => exact steady_pure _

theorem div_steady (x y : Decimal) (pos : Option Pos) : Steady (div x y pos) := by
  refine (steady_decimal _).bind fun isZero => ?_
  cases isZero with
  | true => exact steady_blameNode _ pos
  | false => exact rounded_steady _

theorem mod_steady (x y : Decimal) (pos : Option Pos) : Steady (mod x y pos) := by
  refine (steady_decimal _).bind fun isZero => ?_
  cases isZero with
  | true => exact steady_blameNode _ pos
  | false =>
    refine (working_steady _).bind fun modulus => (working_steady _).bind fun quotient => ?_
    refine (steady_decimal _).bind fun quotient => ?_
    exact (working_steady _).bind fun multiple => rounded_steady _

theorem multiply_steady (op : ProductOp) (x y : Decimal) (pos : Option Pos) :
    Steady (multiply op x y pos) := by
  cases op with
  | mul => exact rounded_steady _
  | div => exact div_steady x y pos
  | mod => exact mod_steady x y pos

theorem toInt_steady (x : Decimal) : Steady (toInt x) := by
  cases x with
  | finite => exact steady_pure _
  | infinity | nan => exact steady_fail _

theorem toDouble_steady (x : Decimal) : Steady (toDouble x) := by
  unfold toDouble
  split
  · exact steady_pure _
  · exact steady_fail _

theorem doublePower_steady (x y : Binary64) : Steady (doublePower x y) := by
  unfold doublePower
  split
  · exact steady_pure _
  all_goals exact steady_fail _

theorem pow_steady (x y : Decimal) (pos : Option Pos) : Steady (pow x y pos) := by
  refine (steady_decimal _).bind fun isWhole => ?_
  cases isWhole with
  | false =>
    refine (toDouble_steady x).bind fun base => (toDouble_steady y).bind fun exponent => ?_
    exact (doublePower_steady base exponent).bind fun power => round_steady power
  | true =>
    cases y with
    | infinity negative => exact steady_blameNode _ pos
    | _ => exact (toInt_steady _).bind fun n => rounded_steady _

theorem compare_steady (x : Decimal) (operator : String) (y : Decimal) :
    Steady (compare x operator y) := by
  unfold compare
  split
  case h_7 => exact steady_fail _
  all_goals exact steady_decimal _

theorem truth_steady (side : Side) (connective : Connective) (v : Value) :
    Steady (truth side connective v) := by
  cases v with
  | bool b => exact steady_pure b
  | _ => exact steady_fail _

theorem onNumbers_steady {f : Decimal → Decimal → Run Decimal} (hf : ∀ x y, Steady (f x y))
    (current value : Value) : Steady (onNumbers f current value) :=
  (numeric_steady _ current).bind fun x => (numeric_steady _ value).bind fun y => hf x y

theorem combined_steady (op : AssignOp) (current value : Value) (pos : Option Pos) :
    Steady (combined op current value pos) := by
  cases op with
  | set | add | sub => exact onNumbers_steady (fun _ _ => rounded_steady _) current value
  | div => exact onNumbers_steady (fun x y => div_steady x y pos) current value
  | mod => exact onNumbers_steady (fun x y => mod_steady x y pos) current value
  | other operator => exact steady_blameNode _ pos

/-! ### Functions -/

theorem oneArgument_steady (name : String) (pos : Pos) (items : List Value) :
    Steady (oneArgument name pos items) := by
  unfold oneArgument
  split
  · exact steady_pure _
  · exact steady_fail _

theorem elementary_steady (name : String) (f : Binary64.Elementary) (pos : Pos)
    (items : List Value) : Steady (elementary name f pos items) := by
  refine (oneArgument_steady name pos items).bind fun item => ?_
  refine (toDecimal_steady item).bind fun x => (toDouble_steady x).bind fun x => ?_
  cases f.apply? x with
  | some y => exact (round_steady _).bind fun _ => steady_pure _
  | none => exact steady_fail _

theorem cotangent_steady (pos : Pos) (items : List Value) : Steady (cotangent pos items) := by
  refine (oneArgument_steady _ pos items).bind fun item => ?_
  refine (toDecimal_steady item).bind fun x => (toDouble_steady x).bind fun x => ?_
  cases Binary64.Elementary.tan.apply? x with
  | none => exact steady_fail _
  | some tangent =>
    cases h : tangent.reciprocal? with
    | none => simpa [h, blameAt] using steady_fail _
    | some y => simpa [h] using (round_steady _).bind fun _ => steady_pure _

theorem squareRoot_steady (pos : Pos) (items : List Value) : Steady (squareRoot pos items) := by
  refine (oneArgument_steady _ pos items).bind fun item => ?_
  refine (toDecimal_steady item).bind fun x => (steady_decimal _).bind fun isNegative => ?_
  cases isNegative with
  | true => exact steady_fail _
  | false =>
    refine (toDouble_steady x).bind fun x => ?_
    cases x.sqrt? with
    | some y => exact (round_steady _).bind fun _ => steady_pure _
    | none => exact steady_fail _

theorem isEven_steady (n : Decimal) : Steady (isEven n) := by
  refine (steady_decimal _).bind fun isWhole => ?_
  cases isWhole with
  | true => exact (toInt_steady n).bind fun _ => steady_pure _
  | false => exact steady_pure _

theorem inversePower_steady (x n : Decimal) : Steady (inversePower x n) := by
  refine (toDouble_steady x).bind fun base => (toDouble_steady n).bind fun degree => ?_
  cases degree.reciprocal? with
  | none => exact steady_fail _
  | some exponent =>
    refine (doublePower_steady base exponent).bind fun power => ?_
    exact (round_steady power).bind fun _ => steady_pure _

theorem root_steady (pos : Pos) (items : List Value) : Steady (root pos items) := by
  unfold root
  split
  · rename_i first second
    refine (toDecimal_steady first).bind fun x => (toDecimal_steady second).bind fun n => ?_
    refine (steady_decimal _).bind fun isZero => ?_
    cases isZero with
    | true => exact steady_fail _
    | false =>
      refine (isEven_steady n).bind fun isEven => ?_
      cases isEven with
      | false => exact inversePower_steady x n
      | true =>
        refine (steady_decimal _).bind fun isNegative => ?_
        cases isNegative with
        | true => exact steady_fail _
        | false => exact inversePower_steady x n
  · exact steady_fail _

/-- Every function but the one that sets the precision is steady. -/
theorem call_steady {name : String} (hn : name ≠ "set_precision") (pos : Pos)
    (items : List Value) : Steady (call name pos items) := by
  unfold call
  split
  · exact absurd rfl hn
  · refine steady_get (g := fun _ places => do
      return Value.decimal (← round (Decimal.ofNat places))) fun _ places => ?_
    exact (round_steady _).bind fun _ => steady_pure _
  · exact elementary_steady _ _ pos items
  · exact elementary_steady _ _ pos items
  · exact elementary_steady _ _ pos items
  · exact elementary_steady _ _ pos items
  · exact elementary_steady _ _ pos items
  · exact elementary_steady _ _ pos items
  · exact cotangent_steady pos items
  · exact squareRoot_steady pos items
  · exact root_steady pos items
  · exact steady_fail _

end DecimalScript.Run
