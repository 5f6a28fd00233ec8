import DecimalScript.Proofs.Magnitude
import Mathlib

/-! Rounding to nearest. What a calculation ends with is off the exact result by at most half
of a unit in the last place. For a quotient this is so although it is calculated to one
digit more only, with a last digit of one for the rest. -/

namespace DecimalScript.Decimal

variable {digits count : Nat} {v w : ℚ}

/-- The second value is the first one rounded to nearest: it is off by at most half of a unit of
which the first has as many digits as are worked with, or of the least unit there is. -/
def Near (digits : Nat) (v w : ℚ) : Prop :=
  ∃ g : Int, 2 * |w - v| ≤ 10 ^ g ∧
    (magnitude (10 ^ (digits - 1)) g ≤ v ∨ g = tinyExponent digits)

theorem near_refl (v : ℚ) : Near digits v v := by
  refine ⟨tinyExponent digits, ?_, .inr rfl⟩
  rw [sub_self, abs_zero, mul_zero]
  positivity

/-! ### Dropping digits -/

theorem divNearest_error (tie : Tie) (num : Nat) {den : Nat} (hd : 0 < den) :
    2 * (divNearest tie num den * den) ≤ 2 * num + den ∧
      2 * num ≤ 2 * (divNearest tie num den * den) + den := by
  have hsum := Nat.div_add_mod' num den
  have hmod := Nat.mod_lt num hd
  have hup : (num / den + 1) * den = num / den * den + den := by ring
  unfold divNearest
  dsimp only
  split
  · omega
  · split
    · omega
    · cases tie with
      | awayFromZero =>
        dsimp only
        omega
      | toEven =>
        dsimp only
        split <;> omega

theorem dropDigits_error (tie : Tie) (c count : Nat) :
    2 * (dropDigits tie c count * 10 ^ count) ≤ 2 * c + 10 ^ count ∧
      2 * c ≤ 2 * (dropDigits tie c count * 10 ^ count) + 10 ^ count := by
  unfold dropDigits
  split_ifs with h
  · obtain ⟨k, rfl⟩ : ∃ k, count = k + 1 := ⟨count - 1, by omega⟩
    have hlt : c < 10 ^ k :=
      (lt_pow_digitCount c).trans_le (Nat.pow_le_pow_right (by norm_num) (by omega))
    rw [pow_succ]
    omega
  · have hunit : 0 < 10 ^ count := by positivity
    exact divNearest_error tie c hunit

/-- An error in units of a place is one of the values. -/
theorem error_scaled {d : Nat} {x : ℚ} {e : Int}
    (hlow : 2 * (d * 10 ^ count : ℚ) ≤ 2 * x + 10 ^ count)
    (hhigh : 2 * x ≤ 2 * (d * 10 ^ count : ℚ) + 10 ^ count) :
    2 * |magnitude d (e + count) - x * 10 ^ e| ≤ (10 : ℚ) ^ (e + count) := by
  have hunit : (0 : ℚ) < 10 ^ e := by positivity
  have hvalue : magnitude d (e + count) - x * 10 ^ e = (d * 10 ^ count - x) * 10 ^ e := by
    unfold magnitude
    rw [zpow_add₀ (by norm_num), zpow_natCast]
    ring
  have herror : 2 * |d * 10 ^ count - x| ≤ (10 : ℚ) ^ count := by
    rw [← abs_two, ← abs_mul, abs_le]
    constructor <;> linarith
  calc 2 * |magnitude d (e + count) - x * 10 ^ e|
      = 2 * |d * 10 ^ count - x| * 10 ^ e := by
        rw [hvalue, abs_mul, abs_of_pos hunit, mul_assoc]
    _ ≤ 10 ^ count * 10 ^ e := by gcongr
    _ = 10 ^ (e + count) := by
        rw [zpow_add₀ (by norm_num), zpow_natCast]
        ring

/-! ### The end of a calculation -/

/-- The coefficient and the exponent that a calculation ends with. -/
def fitted (digits c : Nat) (e : Int) : Nat × Int := shortened digits c e (lostDigits digits c e)

theorem finish_fitted {negative : Bool} {c : Nat} {e : Int} {x : Decimal} (hc : c ≠ 0)
    (h : finish digits negative c e = .ok x) :
    x = .finite negative (fitted digits c e).1 (fitted digits c e).2 := by
  rw [finish_eq hc] at h
  split at h
  · cases h
  · dsimp only at h
    split at h
    · cases h
    · exact (Except.ok.inj h).symm

/-- The unit of the last place is one of which the value has all the digits, or the least. -/
theorem near_fitted {c : Nat} {e : Int} {x : ℚ} (hd : 0 < digits)
    (hlost : lostDigits digits c e ≠ 0)
    (hlow : 2 * (dropDigits .toEven c (lostDigits digits c e) * 10 ^ lostDigits digits c e : ℚ) ≤
      2 * x + 10 ^ lostDigits digits c e)
    (hhigh : 2 * x ≤ 2 * (dropDigits .toEven c (lostDigits digits c e) *
      10 ^ lostDigits digits c e : ℚ) + 10 ^ lostDigits digits c e)
    (hlead : ((10 ^ (digitCount c - 1) : Nat) : ℚ) ≤ x) :
    Near digits (x * 10 ^ e) (magnitude (fitted digits c e).1 (fitted digits c e).2) := by
  have herror := error_scaled (e := e) hlow hhigh
  rw [← shortened_magnitude hd (lt_pow_lostDigits digits c e)] at herror
  refine ⟨_, herror, ?_⟩
  by_cases hcount : lostDigits digits c e = digitCount c - digits
  · left
    have hexp : digitCount c - 1 = digits - 1 + lostDigits digits c e := by omega
    rw [hexp, pow_add] at hlead
    calc magnitude (10 ^ (digits - 1)) (e + lostDigits digits c e)
        = ((10 ^ (digits - 1) * 10 ^ lostDigits digits c e : Nat) : ℚ) * 10 ^ e := by
          rw [← magnitude_mul_pow]
          rfl
      _ ≤ x * 10 ^ e := by gcongr
  · right
    unfold lostDigits at hcount hlost ⊢
    omega

theorem fitted_near {c : Nat} (e : Int) (hd : 0 < digits) (hc : c ≠ 0) :
    Near digits (magnitude c e) (magnitude (fitted digits c e).1 (fitted digits c e).2) := by
  by_cases hlost : lostDigits digits c e = 0
  · have hkept : magnitude (fitted digits c e).1 (fitted digits c e).2 = magnitude c e := by
      rw [fitted, shortened_magnitude hd (lt_pow_lostDigits digits c e), hlost, dropDigits_zero,
        Nat.cast_zero, add_zero]
    rw [hkept]
    exact near_refl _
  · obtain ⟨hlow, hhigh⟩ := dropDigits_error .toEven c (lostDigits digits c e)
    have hpos := digitCount_pos c
    refine near_fitted hd hlost (by exact_mod_cast hlow) (by exact_mod_cast hhigh) ?_
    exact_mod_cast pow_le_of_lt_digitCount (n := c) (k := digitCount c - 1) (by omega) hc

/-- A calculation rounds its exact result to nearest. -/
theorem finish_near {negative sign : Bool} {c c' : Nat} {e e' : Int} (hd : 0 < digits)
    (h : finish digits negative c e = .ok (.finite sign c' e')) :
    Near digits (magnitude c e) (magnitude c' e') := by
  by_cases hc : c = 0
  · subst hc
    cases h
    rw [magnitude_zero, magnitude_zero]
    exact near_refl 0
  · cases finish_fitted hc h
    exact fitted_near e hd hc

/-! ### Quotients with a digit for the rest -/

/-- The digit for the rest does not change the error: it is none of the numbers half way between
two others, and no multiple of ten. -/
theorem sticky_near {num den : Nat} {e : Int} (hd : 0 < digits) (hden : 0 < den)
    (hlead : 10 ^ digits ≤ num / den) :
    Near digits ((num : ℚ) / den * 10 ^ (e + 1))
      (magnitude (fitted digits (num / den * 10 + 1) e).1
        (fitted digits (num / den * 10 + 1) e).2) := by
  generalize hc : num / den * 10 + 1 = c
  have hdigits : digits + 2 ≤ digitCount c := by
    by_contra hlt
    have hle := (digitCount_le_iff (n := c) (k := digits + 1) (by omega)).mp (by omega)
    rw [pow_succ] at hle
    omega
  have hlost : 2 ≤ lostDigits digits c e := by
    unfold lostDigits
    omega
  obtain ⟨hlow, hhigh⟩ := dropDigits_error .toEven c (lostDigits digits c e)
  have hpower : 10 ^ lostDigits digits c e = 100 * 10 ^ (lostDigits digits c e - 2) := by
    rw [← Nat.sub_add_cancel hlost, pow_add]
    simp [mul_comm]
  have hmultiple : dropDigits .toEven c (lostDigits digits c e) * 10 ^ lostDigits digits c e =
      100 * (dropDigits .toEven c (lostDigits digits c e) * 10 ^ (lostDigits digits c e - 2)) := by
    rw [hpower]
    ring
  -- all terms but the last digit are multiples of twenty
  have hbelow : 2 * (dropDigits .toEven c (lostDigits digits c e) * 10 ^ lostDigits digits c e) ≤
      20 * (num / den) + 10 ^ lostDigits digits c e := by omega
  have habove : 20 * (num / den + 1) ≤ 2 * (dropDigits .toEven c (lostDigits digits c e) *
      10 ^ lostDigits digits c e) + 10 ^ lostDigits digits c e := by omega
  have hden' : (0 : ℚ) < den := by exact_mod_cast hden
  have hfloor : ((num / den : Nat) : ℚ) ≤ (num : ℚ) / den := Nat.cast_div_le
  have hceil : (num : ℚ) / den ≤ ((num / den + 1 : Nat) : ℚ) := by
    rw [div_le_iff₀ hden']
    have hle : num ≤ (num / den + 1) * den := by
      rw [mul_comm]
      exact (Nat.lt_mul_div_succ num hden).le
    exact_mod_cast hle
  have hvalue : (num : ℚ) / den * 10 ^ (e + 1) = 10 * ((num : ℚ) / den) * 10 ^ e := by
    rw [zpow_add₀ (by norm_num), zpow_one]
    ring
  rw [hvalue]
  refine near_fitted hd (by omega) ?_ ?_ ?_
  · have hbelow : (2 * (dropDigits .toEven c (lostDigits digits c e) *
        10 ^ lostDigits digits c e) : ℚ) ≤ 20 * (num / den : Nat) + 10 ^ lostDigits digits c e := by
      exact_mod_cast hbelow
    linarith
  · have habove : (20 * (num / den + 1 : Nat) : ℚ) ≤ 2 * (dropDigits .toEven c
        (lostDigits digits c e) * 10 ^ lostDigits digits c e) + 10 ^ lostDigits digits c e := by
      exact_mod_cast habove
    linarith
  · have hpow : 10 ^ (digitCount c - 1) ≤ 10 * (num / den) := by
      have hle := pow_le_of_lt_digitCount (n := c) (k := digitCount c - 1) (by omega) (by omega)
      obtain ⟨k, hk⟩ : ∃ k, digitCount c - 1 = k + 1 := ⟨digitCount c - 2, by omega⟩
      rw [hk, pow_succ] at hle ⊢
      omega
    have hpow : ((10 ^ (digitCount c - 1) : Nat) : ℚ) ≤ 10 * (num / den : Nat) := by
      exact_mod_cast hpow
    linarith

end DecimalScript.Decimal
