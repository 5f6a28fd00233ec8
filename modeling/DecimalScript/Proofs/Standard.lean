import DecimalScript.Proofs.Double
import DecimalScript.Proofs.Frame
import Mathlib

/-! Standards for the numbers that variables hold: a property that every number has
which was rounded to the places of a state. The operations of programs take
numbers that meet a standard to numbers that meet it, since each of them rounds
what it calculated. -/

namespace DecimalScript

/-- A value that a variable can have: none, or a number or a power whose numbers all
have the property. -/
def Value.Numeric (P : Decimal → Prop) : Value → Prop
  | .none => True
  | .decimal d => P d
  | .power base exponent value => P base ∧ P exponent ∧ P value
  | _ => False

instance (P : Decimal → Prop) [DecidablePred P] : DecidablePred (Value.Numeric P) := fun value =>
  match value with
  | .none => inferInstanceAs (Decidable True)
  | .decimal d => inferInstanceAs (Decidable (P d))
  | .power base exponent value => inferInstanceAs (Decidable (P base ∧ P exponent ∧ P value))
  | .bool _ | .integer _ | .double _ | .text _ | .row _ => inferInstanceAs (Decidable False)

/-- A property of numbers, and the digits and places for which rounding ensures it. -/
structure Standard where
  Meets : Decimal → Prop
  Fixed : (digits places : Nat) → Prop
  finite : ∀ {x : Decimal}, Meets x → x.isFinite
  round : ∀ {digits places : Nat} {x y : Decimal}, Fixed digits places → x.isNaN = false →
    x.toPlaces digits places = .ok y → Meets y

namespace Standard

variable (S : Standard)

def Held (value : Value) : Prop := value.Numeric S.Meets

/-- The values of expressions: those of variables, and truth values. -/
def Fits : Value → Prop
  | .bool _ => True
  | value => S.Held value

/-- The state rounds as the standard needs it, and its variables hold only what they can. -/
structure Good (s : State) : Prop where
  fixed : S.Fixed s.digits s.places
  held : ∀ name value, s.env.get? name = some value → S.Held value

/-- Any number of places will do, and any whole number meets the standard. -/
def Free : Prop := (∀ digits places, S.Fixed digits places) ∧ ∀ n, S.Meets (.ofNat n)

variable {S}

theorem Held.fits {value : Value} (h : S.Held value) : S.Fits value := by
  cases value with
  | bool => trivial
  | _ => exact h

theorem Good.set {s : State} {name : String} {value : Value} (h : S.Good s) (hv : S.Held value) :
    S.Good { s with env := s.env.set name value } := by
  refine ⟨h.fixed, fun other v hget => ?_⟩
  dsimp only at hget
  rw [Env.get?_set] at hget
  split at hget
  · cases hget
    exact hv
  · exact h.held other v hget

theorem Good.erase {s : State} {name : String} (h : S.Good s) :
    S.Good { s with env := s.env.erase name } := by
  refine ⟨h.fixed, fun other v hget => ?_⟩
  dsimp only at hget
  rw [Env.get?_erase] at hget
  split at hget
  · cases hget
  · exact h.held other v hget

end Standard

namespace Run

variable {α β : Type} {s : State} {F : Fault → Prop} {P : α → Prop} {Q : β → Prop} {S : Standard}

def Yields (run : Run α) (s : State) (P : α → Prop) : Prop := ∀ a t, run s = (.ok a, t) → P a

theorem yields_pure {a : α} (h : P a) : Yields (pure a) s P := by
  intro b t hb
  cases hb
  exact h

theorem yields_throw {e : Exit} : Yields (throw e : Run α) s P := by
  intro a t h
  cases h

theorem yields_bind {x : Run α} {f : α → Run β} (hr : Reads F x) (hx : Yields x s P)
    (hf : ∀ a, P a → Yields (f a) s Q) : Yields (x >>= f) s Q := by
  intro b t hb
  rw [bind_apply] at hb
  rcases hr s with ⟨a, ha⟩ | ⟨g, _, hg⟩
  · rw [ha] at hb
    exact hf a (hx a s ha) b t hb
  · rw [hg] at hb
    cases hb

theorem yields_any {x : Run α} : Yields x s fun _ => True := fun _ _ _ => trivial

theorem yields_get {f : State → Run α} (h : Yields (f s) s P) : Yields (get >>= f) s P := h

theorem decimal_yields {x : Except Decimal.Trap α} (h : ∀ a, x = .ok a → P a) :
    Yields (decimal x) s P := by
  cases x with
  | ok a => exact yields_pure (h a rfl)
  | error condition => exact yields_throw

/-! ### Numbers -/

theorem toDecimal_yields {value : Value} (h : S.Fits value) : Yields (toDecimal value) s S.Meets := by
  cases value with
  | none => exact yields_throw
  | bool b =>
    refine decimal_yields fun x hx => ?_
    cases b <;> cases hx
  | decimal d => exact yields_pure h
  | power base exponent value => exact yields_pure h.2.2
  | _ => cases h

theorem numeric_yields {usage : Usage} {value : Value} (h : S.Fits value) :
    Yields (numeric usage value) s S.Meets := by
  unfold numeric
  split
  · exact yields_throw
  · exact toDecimal_yields h

theorem round_yields {x : Decimal} (hs : S.Good s) (hx : x.isNaN = false) :
    Yields (round x) s S.Meets :=
  yields_get (decimal_yields fun _ hy => S.round hs.fixed hx hy)

theorem working_yields {f : Nat → Decimal.Outcome} {P : Decimal → Prop}
    (h : ∀ x, f s.digits = .ok x → P x) : Yields (working f) s P :=
  yields_get (decimal_yields h)

/-- What is calculated and is no NaN is rounded to a number that meets the standard. -/
theorem rounded_yields {f : Nat → Decimal.Outcome} (hs : S.Good s)
    (h : ∀ x, f s.digits = .ok x → x.isNaN = false) :
    Yields (do round (← working f)) s S.Meets :=
  yields_bind (working_reads admits_all f) (working_yields h) fun _ hx => round_yields hs hx

/-! ### Operations -/

theorem blameNode_yields {cause : Cause} {pos : Option Pos} : Yields (blameNode cause pos) s P := by
  cases pos <;> exact yields_throw

section Operations
variable {x y : Decimal} {pos : Option Pos} (hs : S.Good s) (hx : x.isFinite) (hy : y.isFinite)
include hs hx

theorem negate_yields : Yields (negate x) s S.Meets :=
  rounded_yields hs fun _ hz => Decimal.isNaN_of_finite (Decimal.neg_finite hx hz)

include hy

theorem add_yields : Yields (add x y) s S.Meets :=
  rounded_yields hs fun _ hz => Decimal.isNaN_of_finite (Decimal.add_finite hx hy hz)

theorem sub_yields : Yields (sub x y) s S.Meets :=
  rounded_yields hs fun _ hz => Decimal.isNaN_of_finite (Decimal.sub_finite hx hy hz)

theorem mul_yields : Yields (mul x y) s S.Meets :=
  rounded_yields hs fun _ hz => Decimal.isNaN_of_finite (Decimal.mul_finite hx hy hz)

theorem div_yields : Yields (div x y pos) s S.Meets := by
  refine yields_bind (decimal_reads admits_all _) yields_any fun isZero _ => ?_
  cases isZero with
  | true => exact blameNode_yields
  | false =>
    exact rounded_yields hs fun _ hz => Decimal.isNaN_of_finite (Decimal.div_finite hx hy hz)

theorem mod_yields : Yields (mod x y pos) s S.Meets := by
  refine yields_bind (decimal_reads admits_all _) yields_any fun isZero _ => ?_
  cases isZero with
  | true => exact blameNode_yields
  | false =>
    refine yields_bind (working_reads admits_all _)
      (working_yields fun _ h => Decimal.abs_finite hy h) fun modulus hm => ?_
    refine yields_bind (working_reads admits_all _)
      (working_yields fun _ h => Decimal.div_finite hx hm h) fun ratio hr => ?_
    refine yields_bind (decimal_reads admits_all _)
      (decimal_yields fun _ h => Decimal.floor_finite hr h) fun quotient hq => ?_
    refine yields_bind (working_reads admits_all _)
      (working_yields fun _ h => Decimal.mul_finite hq hm h) fun multiple hp => ?_
    exact rounded_yields hs fun _ hz => Decimal.isNaN_of_finite (Decimal.sub_finite hx hp hz)

theorem multiply_yields {op : ProductOp} : Yields (multiply op x y pos) s S.Meets := by
  cases op with
  | mul => exact mul_yields hs hx hy
  | div => exact div_yields hs hx hy
  | mod => exact mod_yields hs hx hy

omit hy hs

theorem toDouble_yields : Yields (toDouble x) s fun d => d.isNaN = false := by
  unfold toDouble
  split
  · rename_i hd
    exact yields_pure (Binary64.ofDecimal_not_nan hx hd)
  · exact yields_throw

omit hx

theorem doublePower_yields {a b : Binary64} (ha : a.isNaN = false) (hb : b.isNaN = false) :
    Yields (doublePower a b) s fun d => d.isNaN = false := by
  unfold doublePower
  split
  · rename_i hpower
    exact yields_pure (Binary64.toDecimal_not_nan (Binary64.pow_not_nan ha hb hpower))
  all_goals exact yields_throw

include hs hx hy

theorem pow_yields : Yields (pow x y pos) s S.Meets := by
  refine yields_bind (decimal_reads admits_all _) yields_any fun isWhole _ => ?_
  cases isWhole with
  | true =>
    cases y with
    | infinity => exact blameNode_yields
    | finite | nan =>
      refine yields_bind (toInt_reads admits_all _) yields_any fun n _ => ?_
      exact rounded_yields hs fun _ hz => Decimal.pow_not_nan hx hz
  | false =>
    refine yields_bind (toDouble_reads admits_all x) (toDouble_yields hx) fun a ha => ?_
    refine yields_bind (toDouble_reads admits_all y) (toDouble_yields hy) fun b hb => ?_
    refine yields_bind (doublePower_reads admits_all a b) (doublePower_yields ha hb) fun z hz => ?_
    exact round_yields hs hz

end Operations

theorem onNumbers_yields {f : Decimal → Decimal → Run Decimal} {current value : Value}
    (hc : S.Fits current) (hv : S.Fits value)
    (hf : ∀ x y, S.Meets x → S.Meets y → Yields (f x y) s S.Meets) :
    Yields (onNumbers f current value) s S.Meets := by
  refine yields_bind (numeric_reads admits_all _ _) (numeric_yields hc) fun x hx => ?_
  exact yields_bind (numeric_reads admits_all _ _) (numeric_yields hv) fun y hy => hf x y hx hy

theorem combined_yields {op : AssignOp} {current value : Value} {pos : Option Pos}
    (hs : S.Good s) (hc : S.Fits current) (hv : S.Fits value) :
    Yields (combined op current value pos) s S.Meets := by
  have operands {f : Decimal → Decimal → Run Decimal}
      (hf : ∀ x y, x.isFinite → y.isFinite → Yields (f x y) s S.Meets) :
      Yields (onNumbers f current value) s S.Meets :=
    onNumbers_yields hc hv fun x y hx hy => hf x y (S.finite hx) (S.finite hy)
  cases op with
  | set | add => exact operands fun _ _ hx hy => add_yields hs hx hy
  | sub => exact operands fun _ _ hx hy => sub_yields hs hx hy
  | div => exact operands fun _ _ hx hy => div_yields hs hx hy
  | mod => exact operands fun _ _ hx hy => mod_yields hs hx hy
  | other operator => exact blameNode_yields

/-! ### Functions -/

section Functions
variable {pos : Pos} {items : List Value} (hs : S.Good s) (hi : ∀ item ∈ items, S.Fits item)

include hi

theorem oneArgument_yields {name : String} : Yields (oneArgument name pos items) s S.Fits := by
  unfold oneArgument
  split
  · exact yields_pure (hi _ (by simp))
  · exact yields_throw

/-- The single argument of a function as a double. -/
theorem argument_yields {name : String} {f : Binary64 → Run Value}
    (hf : ∀ x, x.isNaN = false → Yields (f x) s S.Fits) :
    Yields (do f (← toDouble (← toDecimal (← oneArgument name pos items)))) s S.Fits := by
  refine yields_bind (oneArgument_reads admits_all _ _ _) (oneArgument_yields hi) fun item h => ?_
  refine yields_bind (toDecimal_reads admits_all _) (toDecimal_yields h) fun d hd => ?_
  exact yields_bind (toDouble_reads admits_all _) (toDouble_yields (S.finite hd)) hf

omit hi
include hs

/-- A double that is a number is rounded to a value. -/
theorem roundDouble_yields {x : Binary64} (hx : x.isNaN = false) :
    Yields (do return .decimal (← round x.toDecimal)) s S.Fits := by
  refine yields_bind (round_reads admits_all _)
    (round_yields hs (Binary64.toDecimal_not_nan hx)) fun y hy => ?_
  exact yields_pure hy

include hi

theorem elementary_yields {name : String} {f : Binary64.Elementary} :
    Yields (elementary name f pos items) s S.Fits := by
  refine argument_yields hi fun x hx => ?_
  split
  · rename_i y hy
    exact roundDouble_yields hs (Binary64.elementary_not_nan hx hy)
  · exact yields_throw

theorem cotangent_yields : Yields (cotangent pos items) s S.Fits := by
  refine argument_yields hi fun x hx => ?_
  split
  · exact yields_throw
  · rename_i tangent ht
    split
    · exact yields_throw
    · rename_i y hy
      have htangent := Binary64.elementary_not_nan hx ht
      exact roundDouble_yields hs (Binary64.reciprocal_not_nan htangent hy)

theorem squareRoot_yields : Yields (squareRoot pos items) s S.Fits := by
  refine yields_bind (oneArgument_reads admits_all _ _ _) (oneArgument_yields hi) fun item h => ?_
  refine yields_bind (toDecimal_reads admits_all _) (toDecimal_yields h) fun d hd => ?_
  refine yields_bind (decimal_reads admits_all _) yields_any fun isNegative _ => ?_
  cases isNegative with
  | true => exact yields_throw
  | false =>
    refine yields_bind (toDouble_reads admits_all _) (toDouble_yields (S.finite hd)) fun x hx => ?_
    split
    · rename_i y hy
      exact roundDouble_yields hs (Binary64.real_not_nan hx hy)
    · exact yields_throw

omit hi in
theorem inversePower_yields {x n : Decimal} (hx : x.isFinite) (hn : n.isFinite) :
    Yields (inversePower x n) s S.Fits := by
  refine yields_bind (toDouble_reads admits_all x) (toDouble_yields hx) fun base hb => ?_
  refine yields_bind (toDouble_reads admits_all n) (toDouble_yields hn) fun degree hd => ?_
  split
  · exact yields_throw
  · rename_i exponent he
    refine yields_bind (doublePower_reads admits_all _ _)
      (doublePower_yields hb (Binary64.reciprocal_not_nan hd he)) fun z hz => ?_
    refine yields_bind (round_reads admits_all _) (round_yields hs hz) fun y hy => ?_
    exact yields_pure hy

theorem root_yields : Yields (root pos items) s S.Fits := by
  unfold root
  split
  · rename_i first second
    refine yields_bind (toDecimal_reads admits_all _) (toDecimal_yields (hi first (by simp)))
      fun x hx => ?_
    refine yields_bind (toDecimal_reads admits_all _) (toDecimal_yields (hi second (by simp)))
      fun n hn => ?_
    have hpower : Yields (inversePower x n) s S.Fits :=
      inversePower_yields hs (S.finite hx) (S.finite hn)
    refine yields_bind (decimal_reads admits_all _) yields_any fun isZero _ => ?_
    cases isZero with
    | true => exact yields_throw
    | false =>
      refine yields_bind (isEven_reads admits_all n) yields_any fun isEven _ => ?_
      cases isEven with
      | false => exact hpower
      | true =>
        refine yields_bind (decimal_reads admits_all _) yields_any fun isNegative _ => ?_
        cases isNegative with
        | true => exact yields_throw
        | false => exact hpower
  · exact yields_throw

/-- Every function but the one that sets the precision returns a value that fits. -/
theorem call_yields {name : String} (hn : name ≠ "set_precision") :
    Yields (call name pos items) s S.Fits := by
  unfold call
  split
  · exact absurd rfl hn
  · refine yields_get ?_
    refine yields_bind (round_reads admits_all _) (round_yields hs rfl) fun y hy => ?_
    exact yields_pure hy
  · exact elementary_yields hs hi
  · exact elementary_yields hs hi
  · exact elementary_yields hs hi
  · exact elementary_yields hs hi
  · exact elementary_yields hs hi
  · exact elementary_yields hs hi
  · exact cotangent_yields hs hi
  · exact squareRoot_yields hs hi
  · exact root_yields hs hi
  · exact yields_throw

end Functions

end Run

end DecimalScript
