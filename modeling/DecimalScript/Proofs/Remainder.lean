import DecimalScript.Proofs.TwoRunRules
import DecimalScript.Proofs.Exact
import Mathlib

/-! The remainder of whole numbers. It is calculated as a difference with a multiple of the
modulus, in decimals; where the dividend has a digit to spare, all steps are exact and
the result is the remainder that is not negative. -/

namespace DecimalScript

namespace Decimal

variable {digits : Nat} {s : Bool} {c d x m : Nat} {e f g : Int}

/-- The multiple of the modulus that is taken off: the next one below a number, or above the
magnitude of a negative one. -/
def multiplier (s : Bool) (x m : Nat) : Nat := if s then (x + (m - 1)) / m else x / m

/-- The remainder that is not negative. -/
def remainder (s : Bool) (x m : Nat) : Nat := (signed s x % m).toNat

theorem remainder_eq (s : Bool) (x : Nat) (hm : 0 < m) :
    (if s then x + remainder s x m = multiplier s x m * m
      else multiplier s x m * m + remainder s x m = x) ∧ remainder s x m < m := by
  have hcast : (0 : Int) < m := by exact_mod_cast hm
  have hnonneg := Int.emod_nonneg (signed s x) hcast.ne'
  have hlt := Int.emod_lt_of_pos (signed s x) hcast
  refine ⟨?_, by unfold remainder; omega⟩
  cases s with
  | false =>
    have hsum := Nat.div_add_mod x m
    have hrem : remainder false x m = x % m := by
      unfold remainder signed
      simp only [Bool.false_eq_true, ↓reduceIte]
      rw [← Int.natCast_emod, Int.toNat_natCast]
    simp only [Bool.false_eq_true, ↓reduceIte, hrem, multiplier]
    rw [Nat.mul_comm]
    exact hsum
  | true =>
    have hsum := Nat.div_add_mod (x + (m - 1)) m
    have hmod := Nat.mod_lt (x + (m - 1)) hm
    simp only [↓reduceIte, multiplier]
    generalize hq : (x + (m - 1)) / m = q at *
    have hrem : signed true x % (m : Int) = (m * q : Nat) - x := by
      have heq : signed true x = ((m * q : Nat) - x : Int) + m * (-q) := by
        unfold signed
        push_cast
        simp only [↓reduceIte]
        ring
      rw [heq, Int.add_mul_emod_self_left, Int.emod_eq_of_lt (by omega) (by omega)]
    unfold remainder
    rw [hrem, Nat.mul_comm q m]
    omega

theorem digitCount_mono {a b : Nat} (h : a ≤ b) : digitCount a ≤ digitCount b :=
  (digitCount_le_iff (digitCount_pos b)).mpr (h.trans_lt (lt_pow_digitCount b))

theorem range_of_le {a b : Nat} (h : a ≤ b) (hb : adjusted b g ≤ maxExponent) :
    adjusted a g ≤ maxExponent := by
  have hcount := digitCount_mono h
  unfold adjusted at hb ⊢
  omega

theorem Room.mono {places a b : Nat} (h : Room digits places b) (hle : a ≤ b) :
    Room digits places a :=
  ⟨h.few, (Nat.mul_le_mul_right _ hle).trans_lt h.fits, range_of_le hle h.range⟩

/-! ### The multiple of the modulus -/

theorem div_of_ne_zero (hd : d ≠ 0) : div digits (.finite s c e) (.finite false d f) =
    if c = 0 then finish digits s 0 (e - f) else divFinite digits s c e d f := by
  have hdiv : div digits (.finite s c e) (.finite false d f) =
      if d = 0 then .error (if c = 0 then .invalidOperation else .divisionByZero)
      else if c = 0 then finish digits (s != false) 0 (e - f)
      else divFinite digits (s != false) c e d f := rfl
  rw [hdiv, if_neg hd, Bool.bne_false]

theorem div_rounds (hdigits : 0 < digits) (hd : d ≠ 0) {z : Decimal}
    (h : div digits (.finite s c e) (.finite false d f) = .ok z) :
    ∃ c' e', z = .finite s c' e' ∧
      Rounds digits (tinyExponent digits) (magnitude c e / magnitude d f) (magnitude c' e') ∧
      Near digits (magnitude c e / magnitude d f) (magnitude c' e') := by
  rw [div_of_ne_zero hd] at h
  split at h
  · rename_i hzero
    obtain ⟨c', e', rfl, -, -, hrounds⟩ := finish_rounds hdigits h
    have hnear := finish_near hdigits h
    rw [hzero, magnitude_zero, zero_div]
    rw [magnitude_zero] at hrounds hnear
    exact ⟨c', e', rfl, hrounds, hnear⟩
  · rename_i hzero
    obtain ⟨n, k, hn, hfinish, hrounds, hnear⟩ :=
      divFinite_eq s (e := e) (f := f) hdigits hzero hd
    rw [hfinish] at h
    obtain ⟨c', e', hz, -, -, hends⟩ := finish_rounds hdigits h
    cases hz.symm.trans (finish_fitted hn h)
    exact ⟨_, _, hz, (hrounds _).trans hends, hnear⟩

/-- A quotient is defined if a whole number in range is not below it. -/
theorem div_defined (hdigits : 0 < digits) (hd : d ≠ 0) {u : Nat} (hu : u < 10 ^ digits)
    (hrange : adjusted u 0 ≤ maxExponent) (h : magnitude c e / magnitude d f ≤ u) :
    ∃ z, div digits (.finite s c e) (.finite false d f) = .ok z := by
  rw [div_of_ne_zero hd]
  split
  · exact ⟨_, rfl⟩
  · rename_i hzero
    obtain ⟨n, k, -, hfinish, hrounds, -⟩ :=
      divFinite_eq s (e := e) (f := f) hdigits hzero hd
    rw [← magnitude_unit] at h
    obtain ⟨z, hz⟩ := finish_defined s hdigits hu (tinyExponent_le_zero digits) hrange
      ((hrounds 0 u 0 hu le_rfl).2 h)
    exact ⟨z, hfinish.trans hz⟩

/-- A quotient is out of range if it is not below the least power of ten that is. -/
theorem div_overflow (hdigits : 0 < digits) (hd : d ≠ 0)
    (h : magnitude 1 (maxExponent + 1) ≤ magnitude c e / magnitude d f) :
    div digits (.finite s c e) (.finite false d f) = .error .overflow := by
  have hzero : c ≠ 0 := by
    rintro rfl
    rw [magnitude_zero, zero_div] at h
    exact absurd (magnitude_pos one_ne_zero _) (not_lt.mpr h)
  obtain ⟨n, k, hn, hfinish, hrounds, -⟩ := divFinite_eq s (e := e) (f := f) hdigits hzero hd
  have hone : 1 < 10 ^ digits := Nat.one_lt_pow hdigits.ne' (by norm_num)
  have hlarge := (hrounds 0 1 (maxExponent + 1) hone (by decide)).1 h
  have hplace := adjusted_le_of_magnitude_le one_ne_zero hlarge
  have hcount : digitCount 1 = 1 := rfl
  have hover : maxExponent < adjusted n k := by
    unfold adjusted at hplace ⊢
    omega
  rw [div_of_ne_zero hd, if_neg hzero, hfinish, finish_eq hn, if_pos hover]

/-- The multiple of the modulus that is taken off for a quotient `k`: the right one, or one that is
past the number but near to it. -/
def Cut (digits : Nat) (s : Bool) (x m k : Nat) : Prop :=
  k = multiplier s x m ∨
    10 ^ digits ≤ 5 * x ∧ if s then k * m < x ∧ x < k * m + 5 else x < k * m ∧ k * m < x + 5

theorem magnitude_mul_unit (a b : Nat) (g : Int) : magnitude (a * b) g = a * magnitude b g := by
  have h := magnitude_mul a b 0 g
  rwa [zero_add, magnitude_unit] at h

theorem magnitude_div (x m : Nat) (g : Int) : magnitude x g / magnitude m g = (x : ℚ) / m := by
  unfold magnitude
  exact mul_div_mul_right _ _ (by positivity)

/-- The whole part of a quotient, taken from the side of the sign. -/
theorem div_floor {z : Decimal} (hm : 0 < m) (hml : m < 10 ^ digits) (hx : x < 10 ^ digits)
    (hc : magnitude c e = magnitude x g) (hd : magnitude d f = magnitude m g)
    (h : div digits (.finite s c e) (.finite false d f) = .ok z) :
    ∃ k a b, floor z = .ok (.finite s a b) ∧ magnitude a b = (k : Nat) ∧ Cut digits s x m k := by
  have hne : d ≠ 0 := by
    rintro rfl
    rw [magnitude_zero] at hd
    exact absurd hd (magnitude_pos hm.ne' g).ne
  obtain ⟨c', e', rfl, hrounds, hnear⟩ := div_rounds (digits_pos_of_lt hm.ne' hml) hne h
  rw [hc, hd, magnitude_div] at hrounds hnear
  obtain ⟨hbelow, habove⟩ := quotient_cut hm hml hx hrounds hnear
  obtain ⟨a, b, hfloor, hvalue⟩ := floor_eq s c' e'
  refine ⟨_, a, b, hfloor, hvalue, ?_⟩
  cases s with
  | false => exact hbelow
  | true => exact habove

/-! ### What is left -/

/-- What is left of `x` below a multiple of the absolute value of `y`, before it gets its places. -/
def rest (digits : Nat) (x y : Decimal) : Outcome := do
  let modulus ← abs digits y
  let quotient ← div digits x modulus
  let whole ← floor quotient
  let multiple ← mul digits whole modulus
  sub digits x multiple

/-- What the quotient needs, where the number and the modulus are multiples of a unit: room for the
modulus and for five times the number, and a whole number in range that is not below it. -/
structure Quotable (digits x m u : Nat) (g : Int) : Prop where
  modulus : 0 < m
  fits : 5 * x < 10 ^ digits
  modulus_fits : m < 10 ^ digits
  tiny : tinyExponent digits ≤ g
  modulus_range : adjusted m g ≤ maxExponent
  bound_fits : u < 10 ^ digits
  bound_range : adjusted u 0 ≤ maxExponent
  bounded : x ≤ u * m

/-- What the steps of the calculation need: a quotient in range, and twice the number as well. -/
structure Spare (digits x m : Nat) (g : Int) : Prop where
  modulus : 0 < m
  fits : 5 * x < 10 ^ digits
  modulus_fits : m < 10 ^ digits
  tiny : tinyExponent digits ≤ g
  range : adjusted (2 * x) g ≤ maxExponent
  modulus_range : adjusted m g ≤ maxExponent
  quotient_range : adjusted (x / m + 1) 0 ≤ maxExponent

theorem Spare.quotable (h : Spare digits x m g) : Quotable digits x m (x / m + 1) g where
  modulus := h.modulus
  fits := h.fits
  modulus_fits := h.modulus_fits
  tiny := h.tiny
  modulus_range := h.modulus_range
  bound_fits := by
    have hdigits := digits_pos_of_lt h.modulus.ne' h.modulus_fits
    have hle := Nat.div_le_self x m
    have hten : 10 ^ 1 ≤ 10 ^ digits := Nat.pow_le_pow_right (by norm_num) hdigits
    have hfits := h.fits
    omega
  bound_range := h.quotient_range
  bounded := by
    rw [mul_comm]
    exact (Nat.lt_mul_div_succ x h.modulus).le

theorem multiplier_mul_le (s : Bool) (x : Nat) (hm : 0 < m) :
    multiplier s x m * m ≤ max (2 * x) m := by
  cases s with
  | false => exact (Nat.div_mul_le_self x m).trans (by omega)
  | true =>
    have hceil := Nat.div_mul_le_self (x + (m - 1)) m
    simp only [multiplier, ↓reduceIte]
    by_cases hxm : x ≤ m
    · have hq : (x + (m - 1)) / m < 2 := by
        rw [Nat.div_lt_iff_lt_mul hm]
        omega
      have : (x + (m - 1)) / m * m ≤ 1 * m := Nat.mul_le_mul_right m (by omega)
      omega
    · omega

theorem Spare.multiple_range (h : Spare digits x m g) (s : Bool) :
    adjusted (multiplier s x m * m) g ≤ maxExponent := by
  rcases le_max_iff.mp (multiplier_mul_le s x h.modulus) with hle | hle
  · exact range_of_le hle h.range
  · exact range_of_le hle h.modulus_range

/-- The steps up to the quotient are exact: what is left is a difference with the multiple. -/
theorem rest_eq {u : Nat} (sign t : Bool) (h : Quotable digits x m u g)
    (hc : magnitude c e = magnitude x g) (hd : magnitude d f = magnitude m g) :
    ∃ a b d' f', magnitude a b * magnitude d' f' = magnitude (multiplier sign x m * m) g ∧
      rest digits (.finite sign c e) (.finite t d f) =
        (mul digits (.finite sign a b) (.finite false d' f') >>= sub digits (.finite sign c e)) := by
  have hdigits := digits_pos_of_lt h.modulus.ne' h.modulus_fits
  have hfits := h.fits
  obtain ⟨d', f', habs, -, hd'⟩ :=
    finish_exact false hdigits hd h.modulus_fits h.tiny h.modulus_range
  have hne : d' ≠ 0 := by
    rintro rfl
    rw [magnitude_zero] at hd'
    exact absurd hd' (magnitude_pos h.modulus.ne' g).ne
  have hquotient : magnitude c e / magnitude d' f' ≤ u := by
    rw [hc, hd', magnitude_div, div_le_iff₀ (by exact_mod_cast h.modulus)]
    exact_mod_cast h.bounded
  obtain ⟨z, hdiv⟩ := div_defined (s := sign) hdigits hne h.bound_fits h.bound_range hquotient
  obtain ⟨k, a, b, hfloor, hk, hcut⟩ :=
    div_floor h.modulus h.modulus_fits (by omega) hc hd' hdiv
  obtain rfl : k = multiplier sign x m := hcut.resolve_right fun hlarge => by omega
  refine ⟨a, b, d', f', by rw [hk, hd', magnitude_mul_unit], ?_⟩
  have habs : abs digits (.finite t d f) = .ok (.finite false d' f') := habs
  simp only [rest, habs, hdiv, hfloor, bind, Except.bind]

/-- Where there is room for the multiple, what is left is the remainder. -/
theorem rest_multiple {u : Nat} (sign t : Bool) (h : Quotable digits x m u g)
    (hrange : adjusted (multiplier sign x m * m) g ≤ maxExponent)
    (hc : magnitude c e = magnitude x g) (hd : magnitude d f = magnitude m g) :
    ∃ c' e', rest digits (.finite sign c e) (.finite t d f) = .ok (.finite false c' e') ∧
      magnitude c' e' = magnitude (remainder sign x m) g := by
  have hdigits := digits_pos_of_lt h.modulus.ne' h.modulus_fits
  have hfits := h.fits
  have hmodulus := h.modulus_fits
  have hml : multiplier sign x m * m < 10 ^ digits := by
    have := multiplier_mul_le sign x h.modulus
    omega
  obtain ⟨a, b, d', f', hproduct, hrest⟩ := rest_eq sign t h hc hd
  obtain ⟨c', e', hmul, hvalue⟩ :=
    mul_exact (s := sign) (t := false) hdigits hproduct hml h.tiny hrange
  rw [Bool.bne_false] at hmul
  obtain ⟨hr, hrm⟩ := remainder_eq sign x h.modulus
  have hleft : signed sign x - signed sign (multiplier sign x m * m) = remainder sign x m := by
    unfold signed
    cases sign with
    | false =>
      simp only [Bool.false_eq_true, ↓reduceIte] at hr ⊢
      omega
    | true =>
      simp only [↓reduceIte] at hr ⊢
      omega
  have hpow : 10 ^ digits ≤ 10 ^ (digits + 1) := Nat.pow_le_pow_right (by norm_num) (by omega)
  obtain ⟨n, j, hsub, hn⟩ := sub_units digits (signedMagnitude_eq_units hc sign)
    (signedMagnitude_eq_units hvalue sign) (by rw [natAbs_signed]; omega)
    (by rw [natAbs_signed]; omega)
  rw [hleft, Int.natAbs_natCast] at hn
  have hsign : (if signed sign x - signed sign (multiplier sign x m * m) = 0 then sign && !sign
      else decide (signed sign x - signed sign (multiplier sign x m * m) < 0)) = false := by
    rw [hleft]
    simp
  obtain ⟨c'', e'', hfinish, -, hresult⟩ := finish_exact false hdigits hn
    (hrm.trans h.modulus_fits) h.tiny (range_of_le hrm.le h.modulus_range)
  rw [hsign, hfinish] at hsub
  rw [hrest, hmul]
  exact ⟨c'', e'', hsub, hresult⟩

/-- Where there is none, the multiple is out of range. -/
theorem rest_multiple_overflow {u : Nat} (sign t : Bool) (h : Quotable digits x m u g)
    (hrange : maxExponent < adjusted (multiplier sign x m * m) g)
    (hne : multiplier sign x m * m ≠ 0) (hc : magnitude c e = magnitude x g)
    (hd : magnitude d f = magnitude m g) :
    rest digits (.finite sign c e) (.finite t d f) = .error .overflow := by
  obtain ⟨a, b, d', f', hproduct, hrest⟩ := rest_eq sign t h hc hd
  rw [← magnitude_mul] at hproduct
  have hmul : mul digits (.finite sign a b) (.finite false d' f') = .error .overflow :=
    finish_overflow (sign != false) hne hproduct hrange
  rw [hrest, hmul]
  rfl

/-- Where there is room, what is left is the remainder. -/
theorem rest_exact (sign t : Bool) (h : Spare digits x m g) (hc : magnitude c e = magnitude x g)
    (hd : magnitude d f = magnitude m g) :
    ∃ c' e', rest digits (.finite sign c e) (.finite t d f) = .ok (.finite false c' e') ∧
      magnitude c' e' = magnitude (remainder sign x m) g :=
  rest_multiple sign t h.quotable (h.multiple_range sign) hc hd

end Decimal

open Decimal Run

section Calculation

variable {α : Type} {x : Except Trap α} {f : Nat → Outcome} {y z : Decimal} {s : State}
  {trap : Trap}

theorem Run.decimal_ok {a : α} (h : x = .ok a) (s : State) : decimal x s = (.ok a, s) := by
  rw [h]
  rfl

theorem Run.decimal_error (h : x = .error trap) (s : State) :
    decimal x s = (.error (.fault (.trap trap)), s) := by
  rw [h]
  rfl

/-- A calculation with the digits of the state that ends with a number. -/
theorem Run.working_ok (h : f s.digits = .ok z) : working f s = (.ok z, s) := decimal_ok h s

theorem Run.working_error (h : f s.digits = .error trap) :
    working f s = (.error (.fault (.trap trap)), s) := decimal_error h s

theorem Run.round_ok (h : y.toPlaces s.digits s.places = .ok z) : round y s = (.ok z, s) :=
  decimal_ok h s

theorem Run.round_error (h : y.toPlaces s.digits s.places = .error trap) :
    round y s = (.error (.fault (.trap trap)), s) := decimal_error h s

end Calculation

theorem Run.decimal_bind (a : Outcome) {k : Decimal → Run Decimal} {k' : Decimal → Outcome}
    {s : State} (h : ∀ x, k x s = decimal (k' x) s) :
    (decimal a >>= k) s = decimal (a >>= k') s := by
  cases a with
  | error trap => rfl
  | ok x => exact h x

theorem Run.working_bind (f : Nat → Outcome) {k : Decimal → Run Decimal} {k' : Decimal → Outcome}
    {s : State} (h : ∀ x, k x s = decimal (k' x) s) :
    (working f >>= k) s = decimal (f s.digits >>= k') s := by
  rw [← decimal_bind _ h, bind_apply, bind_apply]
  rfl

theorem Decimal.equal_zero_of_ne (t : Bool) {d : Nat} (hd : d ≠ 0) (f : Int) :
    Decimal.equal (.finite t d f) .zero = .ok false := by
  have hcompare : compareFinite t d f false 0 0 ≠ .eq := by
    unfold compareFinite
    cases t <;> simp [hd]
  simpa [Decimal.equal, compare?, Decimal.zero, ofNat, isSignaling, Except.map] using hcompare

/-- A remainder is what is left, with the places of the state. -/
theorem Run.mod_eq (x : Decimal) (t : Bool) {d : Nat} (hd : d ≠ 0) (f : Int) (pos : Option Pos)
    (s : State) : mod x (.finite t d f) pos s =
      decimal (rest s.digits x (.finite t d f) >>= toPlaces s.digits s.places) s := by
  unfold mod rest
  rw [bind_of_ok (decimal_ok (equal_zero_of_ne t hd f) s)]
  simp only [Bool.false_eq_true, ↓reduceIte, bind_assoc]
  refine working_bind _ fun modulus => working_bind _ fun quotient => ?_
  refine decimal_bind _ fun whole => working_bind _ fun multiple => ?_
  exact working_bind _ fun left => rfl

section Whole

variable {c d x m u : Nat} {e f : Int} {s : State}

/-- The remainder of whole numbers, where there is room for the multiple of the modulus. -/
theorem Run.mod_multiple (sign t : Bool) (pos : Option Pos) (h : Quotable s.digits x m u 0)
    (hrange : adjusted (multiplier sign x m * m) 0 ≤ maxExponent) (hc : magnitude c e = x)
    (hd : magnitude d f = m) (hroom : Room s.digits s.places m) :
    mod (.finite sign c e) (.finite t d f) pos s =
      (.ok (.finite false (remainder sign x m * 10 ^ s.kept) (-s.kept)), s) := by
  have hdigits := digits_pos_of_lt h.modulus.ne' h.modulus_fits
  have hne : d ≠ 0 := fun hzero => h.modulus.ne' ((coefficient_eq_zero_iff hd).mp hzero)
  obtain ⟨c', e', hrest, hvalue⟩ := rest_multiple sign t h hrange
    (hc.trans (magnitude_unit x).symm) (hd.trans (magnitude_unit m).symm)
  rw [magnitude_unit] at hvalue
  have hround : toPlaces s.digits s.places (.finite false c' e') = _ :=
    toPlaces_exact hdigits hvalue (hroom.mono (remainder_eq sign x h.modulus).2.le)
  rw [mod_eq _ t hne, hrest]
  exact decimal_ok hround s

theorem Run.mod_multiple_overflow (sign t : Bool) (pos : Option Pos)
    (h : Quotable s.digits x m u 0) (hrange : maxExponent < adjusted (multiplier sign x m * m) 0)
    (hc : magnitude c e = x) (hd : magnitude d f = m) :
    mod (.finite sign c e) (.finite t d f) pos s = (.error (.fault (.trap .overflow)), s) := by
  have hne : d ≠ 0 := fun hzero => h.modulus.ne' ((coefficient_eq_zero_iff hd).mp hzero)
  have hmultiple : multiplier sign x m * m ≠ 0 := by
    intro hzero
    rw [hzero] at hrange
    exact absurd hrange (by decide)
  have hrest := rest_multiple_overflow sign t h hrange hmultiple
    (hc.trans (magnitude_unit x).symm) (hd.trans (magnitude_unit m).symm)
  rw [mod_eq _ t hne, hrest]
  exact decimal_error rfl s

/-- The remainder of whole numbers, where the digits suffice. -/
theorem Run.mod_whole (sign t : Bool) (pos : Option Pos) (h : Spare s.digits x m 0)
    (hc : magnitude c e = x) (hd : magnitude d f = m) (hroom : Room s.digits s.places m) :
    mod (.finite sign c e) (.finite t d f) pos s =
      (.ok (.finite false (remainder sign x m * 10 ^ s.kept) (-s.kept)), s) :=
  mod_multiple sign t pos h.quotable (h.multiple_range sign) hc hd hroom

end Whole

end DecimalScript
