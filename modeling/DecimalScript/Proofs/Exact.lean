import DecimalScript.Proofs.Nearest
import Mathlib

/-! Decimal operations where the digits suffice. A sum or product that fits into the working
precision is exact, so is a number that gets its places; and a quotient is cut to
the right whole number as long as the dividend is below a fifth of what the digits hold. -/

namespace DecimalScript.Decimal

variable {digits places : Nat} {negative : Bool}

theorem Rounds.trans {low : Int} {v w z : ℚ} (h : Rounds digits low v w)
    (h' : Rounds digits low w z) : Rounds digits low v z := by
  intro u f hu hf
  obtain ⟨hle, hge⟩ := h u f hu hf
  obtain ⟨hle', hge'⟩ := h' u f hu hf
  exact ⟨fun h => hle' (hle h), fun h => hge' (hge h)⟩

theorem digits_pos_of_lt {n : Nat} (hn : n ≠ 0) (h : n < 10 ^ digits) : 0 < digits := by
  rcases Nat.eq_zero_or_pos digits with rfl | hpos
  · simp at h
    omega
  · exact hpos

theorem adjusted_eq_of_magnitude_eq {c d : Nat} {e f : Int} (hc : c ≠ 0)
    (h : magnitude c e = magnitude d f) : adjusted c e = adjusted d f := by
  have hd : d ≠ 0 := by
    rintro rfl
    rw [magnitude_zero] at h
    exact absurd h (magnitude_pos hc e).ne'
  exact le_antisymm (adjusted_le_of_magnitude_le hc h.le) (adjusted_le_of_magnitude_le hd h.ge)

theorem coefficient_eq_zero_iff {c n : Nat} {e : Int} (h : magnitude c e = n) : c = 0 ↔ n = 0 := by
  constructor
  · rintro rfl
    rw [magnitude_zero] at h
    exact_mod_cast h.symm
  · rintro rfl
    by_contra hc
    exact absurd h (magnitude_pos hc e).ne'

/-! ### Results that fit -/

/-- A result with few digits stays as it is. -/
theorem finish_exact (negative : Bool) {c u : Nat} {e f : Int} (hd : 0 < digits)
    (h : magnitude c e = magnitude u f) (hu : u < 10 ^ digits) (hf : tinyExponent digits ≤ f)
    (hmax : adjusted u f ≤ maxExponent) :
    ∃ c' e', finish digits negative c e = .ok (.finite negative c' e') ∧ c' < 10 ^ digits ∧
      magnitude c' e' = magnitude u f := by
  obtain ⟨x, hx⟩ := finish_defined negative hd hu hf hmax h.le
  obtain ⟨c', e', rfl, hlt, _, hrounds⟩ := finish_rounds hd hx
  exact ⟨c', e', hx, hlt, hrounds.exact hu hf h⟩

/-- A result that needs no rounding keeps its exponent. -/
theorem finish_grid (negative : Bool) {c : Nat} {e : Int} (hd : 0 < digits) (hc : c < 10 ^ digits)
    (he : tinyExponent digits ≤ e) (hhigh : e ≤ maxExponent) (hmax : adjusted c e ≤ maxExponent) :
    finish digits negative c e = .ok (.finite negative c e) := by
  obtain ⟨x, hx⟩ := finish_defined negative hd hc he hmax le_rfl
  rw [hx, finish_fitting ((digitCount_le_iff hd).mpr hc) he hhigh hx]

/-- A result that is out of range. -/
theorem finish_overflow (negative : Bool) {c u : Nat} {e f : Int} (hu : u ≠ 0)
    (h : magnitude c e = magnitude u f) (hmax : maxExponent < adjusted u f) :
    finish digits negative c e = .error .overflow := by
  have hc : c ≠ 0 := by
    rintro rfl
    rw [magnitude_zero] at h
    exact absurd h (magnitude_pos hu f).ne
  rw [finish_eq hc, if_pos (by rwa [adjusted_eq_of_magnitude_eq hc h])]

/-- A whole number for which the precision has room: with the places that are kept it has
not more digits than can be worked with. -/
structure Room (digits places n : Nat) : Prop where
  few : places ≤ 2 * (maxExponent.toNat + digits)
  fits : n * 10 ^ keptPlaces digits places < 10 ^ digits
  range : adjusted n 0 ≤ maxExponent

theorem Room.lt {n : Nat} (h : Room digits places n) : n < 10 ^ digits :=
  (Nat.le_mul_of_pos_right n (by positivity)).trans_lt h.fits

theorem dropDigits_mul_pow (tie : Tie) (n count : Nat) :
    dropDigits tie (n * 10 ^ count) count = n := by
  have hunit : 0 < 10 ^ count := by positivity
  obtain ⟨hfloor, hceil⟩ := dropDigits_bounds tie (n * 10 ^ count) count
  rw [Nat.mul_div_cancel _ hunit] at hfloor
  rw [← Nat.succ_mul] at hceil
  have := Nat.lt_of_mul_lt_mul_right hceil
  omega

/-- A number whose value has these places. -/
theorem quantize_exact {c n : Nat} {e : Int} (hd : 0 < digits)
    (h : magnitude c e = magnitude n (-places)) (hn : n < 10 ^ digits)
    (htiny : tinyExponent digits ≤ -places) (hmax : adjusted n (-places) ≤ maxExponent) :
    quantize digits (-places) (.finite negative c e) = .ok (.finite negative n (-places)) := by
  have hhigh : -(places : Int) ≤ maxExponent := by
    unfold maxExponent
    omega
  have hgrid := finish_grid negative hd hn htiny hhigh hmax
  unfold quantize
  dsimp only
  rw [if_neg (by omega)]
  by_cases hc : c = 0
  · subst hc
    have hzero : n = 0 := by
      by_contra hne
      rw [magnitude_zero] at h
      exact absurd h (magnitude_pos hne _).ne
    subst hzero
    rw [if_pos rfl]
    exact hgrid
  · have hadjusted := adjusted_eq_of_magnitude_eq hc h
    have hcount : digitCount n ≤ digits := (digitCount_le_iff hd).mpr hn
    have hrounded : (if -(places : Int) ≤ e then c * Nat.pow 10 (e - -(places : Int)).toNat
        else dropDigits .awayFromZero c (-(places : Int) - e).toNat) = n := by
      split
      · rename_i hle
        rw [← magnitude_scaled hle] at h
        exact le_antisymm (magnitude_le_iff.mp h.le) (magnitude_le_iff.mp h.ge)
      · rename_i hlt
        have hle : e ≤ -(places : Int) := by omega
        rw [← magnitude_scaled hle] at h
        have heq : c = n * 10 ^ (-(places : Int) - e).toNat :=
          le_antisymm (magnitude_le_iff.mp h.le) (magnitude_le_iff.mp h.ge)
        rw [heq, dropDigits_mul_pow]
    unfold adjusted at hadjusted
    rw [if_neg hc, if_neg (by omega), hrounded, if_neg]
    · exact hgrid
    · omega

/-- A whole number with its places has the same value. -/
theorem magnitude_places (n places : Nat) : magnitude (n * 10 ^ places) (-places) = n := by
  rw [magnitude_mul_pow, neg_add_cancel, magnitude_unit]

theorem Room.places_range {n : Nat} (hr : Room digits places n) :
    adjusted (n * 10 ^ keptPlaces digits places) (-keptPlaces digits places) ≤ maxExponent := by
  by_cases hn : n = 0
  · subst hn
    have hone : digitCount 0 = 1 := rfl
    unfold adjusted maxExponent
    rw [Nat.zero_mul, hone]
    omega
  · have hne : n * 10 ^ keptPlaces digits places ≠ 0 := Nat.mul_ne_zero hn (by positivity)
    rw [adjusted_eq_of_magnitude_eq hne ((magnitude_places n _).trans (magnitude_unit n).symm)]
    exact hr.range

theorem toPlaces_exact {c n : Nat} {e : Int} (hd : 0 < digits) (h : magnitude c e = n)
    (hr : Room digits places n) :
    toPlaces digits places (.finite negative c e) = .ok (.finite negative
      (n * 10 ^ keptPlaces digits places) (-keptPlaces digits places)) := by
  rw [toPlaces_eq_quantize hr.few]
  exact quantize_exact hd (h.trans (magnitude_places n _).symm) hr.fits
    (tinyExponent_le_kept digits places) hr.places_range

/-- The precision has room for the whole numbers that get their places. -/
theorem room_of_toPlaces {n : Nat} {x : Decimal} (h : toPlaces digits places (ofNat n) = .ok x) :
    Room digits places n := by
  unfold toPlaces at h
  split at h
  · cases h
  · rename_i hplaces
    unfold ofNat quantize at h
    dsimp only at h
    split at h
    · cases h
    · by_cases hn : n = 0
      · subst hn
        refine ⟨not_lt.mp hplaces, ?_, by decide⟩
        rw [Nat.zero_mul]
        positivity
      · have hscaled := digitCount_mul_pow hn (keptPlaces digits places)
        have hle : -(keptPlaces digits places : Int) ≤ 0 := by omega
        have htarget : (0 - -(keptPlaces digits places : Int)).toNat =
            keptPlaces digits places := by omega
        simp only [hn, hle, htarget, ↓reduceIte] at h
        split at h
        · cases h
        · split at h
          · cases h
          · rename_i hmax
            rw [not_or, not_lt, not_lt] at hmax
            change adjusted (n * 10 ^ keptPlaces digits places) _ ≤ _ ∧
              digitCount (n * 10 ^ keptPlaces digits places) ≤ _ at hmax
            refine ⟨not_lt.mp hplaces, ?_, ?_⟩
            · refine (lt_pow_digitCount _).trans_le (Nat.pow_le_pow_right (by norm_num) hmax.2)
            · unfold adjusted at hmax ⊢
              omega

/-- A number with too many digits before the point does not get its places. -/
theorem toPlaces_large {c : Nat} {e : Int} (hc : c ≠ 0)
    (h : (digits : Int) - keptPlaces digits places ≤ adjusted c e) :
    toPlaces digits places (.finite negative c e) = .error .invalidOperation := by
  unfold toPlaces
  split
  · rfl
  · unfold quantize
    dsimp only
    split
    · rfl
    · rw [if_pos]
      unfold adjusted at h
      omega

/-! ### Products and sums -/

theorem mul_exact {s t : Bool} {c d n : Nat} {e f g : Int} (hd : 0 < digits)
    (h : magnitude c e * magnitude d f = magnitude n g) (hn : n < 10 ^ digits)
    (hg : tinyExponent digits ≤ g) (hr : adjusted n g ≤ maxExponent) :
    ∃ c' e', mul digits (.finite s c e) (.finite t d f) = .ok (.finite (s != t) c' e') ∧
      magnitude c' e' = magnitude n g := by
  have hvalue : magnitude (c * d) (e + f) = magnitude n g := by rw [magnitude_mul, h]
  obtain ⟨c', e', hfinish, _, hresult⟩ := finish_exact (s != t) hd hvalue hn hg hr
  exact ⟨c', e', hfinish, hresult⟩

def signedMagnitude (negative : Bool) (c : Nat) (e : Int) : ℚ := signed negative c * (10 : ℚ) ^ e

theorem signedMagnitude_eq (negative : Bool) (c : Nat) (e : Int) :
    signedMagnitude negative c e = if negative then -magnitude c e else magnitude c e := by
  unfold signedMagnitude signed magnitude
  cases negative <;> simp

theorem signed_scaled {e f : Int} (h : f ≤ e) (negative : Bool) (c : Nat) :
    signedMagnitude negative (c * 10 ^ (e - f).toNat) f = signedMagnitude negative c e := by
  rw [signedMagnitude_eq, signedMagnitude_eq, magnitude_scaled h]

theorem abs_signedMagnitude (negative : Bool) (c : Nat) (e : Int) :
    |signedMagnitude negative c e| = magnitude c e := by
  have hnonneg : 0 ≤ magnitude c e := by
    unfold magnitude
    positivity
  rw [signedMagnitude_eq]
  cases negative <;> simp [abs_of_nonneg hnonneg]

theorem magnitude_natAbs (n g : Int) : magnitude n.natAbs g = |(n : ℚ) * 10 ^ g| := by
  have hunit : (0 : ℚ) < 10 ^ g := by positivity
  rw [abs_mul, abs_of_pos hunit, ← Int.cast_abs, Int.abs_eq_natAbs]
  rfl

/-- The place of the unit that stands for a number far below the last digit of a sum. -/
def farPlace (digits high : Nat) (he : Int) : Int :=
  he - 1 + (if digits < digitCount high then 0 else (digitCount high : Int) - digits - 1)

theorem farPlace_lt (digits high : Nat) (he : Int) : farPlace digits high he < he := by
  unfold farPlace
  split <;> omega

/-- Two numbers are added exactly, unless one of them is so far below the other that a unit stands
for it. -/
theorem addAligned_cases (digits : Nat) (hs ls : Bool) (high low : Nat) {he le : Int}
    (hle : le ≤ he) :
    (∃ (n g : Int), addAligned digits hs high he ls low le = finishSum digits (hs && ls) n g ∧
      n * (10 : ℚ) ^ g = signedMagnitude hs high he + signedMagnitude ls low le) ∨
    high ≠ 0 ∧ low ≠ 0 ∧ adjusted low le < farPlace digits high he ∧
      addAligned digits hs high he ls low le =
        finishSum digits (hs && ls)
          (signed hs (high * 10 ^ (he - farPlace digits high he).toNat) + signed ls 1)
          (farPlace digits high he) := by
  have hplace := farPlace_lt digits high he
  have sum {place : Int} (hp : place ≤ he) {low' : Nat}
      (hlow : signedMagnitude ls low' place = signedMagnitude ls low le) :
      ((signed hs (high * 10 ^ (he - place).toNat) + signed ls low' : Int) : ℚ) * 10 ^ place =
        signedMagnitude hs high he + signedMagnitude ls low le := by
    rw [← signed_scaled hp hs high, ← hlow]
    unfold signedMagnitude
    push_cast
    ring
  unfold addAligned
  dsimp only
  by_cases hzero : high = 0
  · subst hzero
    rw [if_pos rfl]
    exact .inl ⟨_, _, rfl, by simp [signedMagnitude, signed]⟩
  · rw [if_neg hzero]
    by_cases hfar : adjusted low le < farPlace digits high he
    · unfold farPlace at hfar hplace ⊢
      rw [if_pos hfar]
      by_cases hlow : low = 0
      · subst hlow
        exact .inl ⟨_, _, rfl, sum hplace.le (by simp [signedMagnitude_eq])⟩
      · have hone : min low 1 = 1 := by omega
        refine .inr ⟨hzero, hlow, hfar, ?_⟩
        dsimp only
        rw [hone]
        rfl
    · unfold farPlace at hfar
      rw [if_neg hfar]
      exact .inl ⟨_, _, rfl, sum hle rfl⟩

/-- Two numbers whose first digits are not too far apart are added exactly. -/
theorem addAligned_eq {hs ls : Bool} {high low : Nat} {he le : Int} (hle : le ≤ he)
    (hfar : high = 0 ∨ low = 0 ∨ adjusted high he ≤ adjusted low le + digits + 1 ∧
      (digits < digitCount high → he ≤ adjusted low le + 1)) :
    ∃ (n g : Int), addAligned digits hs high he ls low le = finishSum digits (hs && ls) n g ∧
      n * (10 : ℚ) ^ g = signedMagnitude hs high he + signedMagnitude ls low le := by
  refine (addAligned_cases digits hs ls high low hle).resolve_right ?_
  rintro ⟨hhigh, hlow, hbelow, -⟩
  unfold farPlace at hbelow
  unfold adjusted at hfar hbelow
  split at hbelow <;> omega

/-- The place of the first digit of a number of so many units. -/
theorem adjusted_units {c n k : Nat} {e g : Int} (hc : c ≠ 0) (hn : n < 10 ^ k)
    (h : magnitude c e = magnitude n g) : g ≤ adjusted c e ∧ adjusted c e < g + k := by
  have hne : n ≠ 0 := by
    rintro rfl
    rw [magnitude_zero] at h
    exact absurd h (magnitude_pos hc e).ne'
  have hcount := digitCount_le_of_lt hn hne
  have hpos := digitCount_pos n
  rw [adjusted_eq_of_magnitude_eq hc h]
  unfold adjusted
  omega

/-- The sum of two numbers that are whole multiples of one unit is the multiple by the sum, before
it is fitted into the working precision. -/
theorem add_units (digits : Nat) {s t : Bool} {c d : Nat} {e f g a b : Int}
    (hx : signedMagnitude s c e = a * 10 ^ g) (hy : signedMagnitude t d f = b * 10 ^ g)
    (ha : a.natAbs < 10 ^ (digits + 1)) (hb : b.natAbs < 10 ^ (digits + 1)) :
    ∃ n h, add digits (.finite s c e) (.finite t d f) =
        finish digits (if a + b = 0 then s && t else a + b < 0) n h ∧
      magnitude n h = magnitude (a + b).natAbs g := by
  have hc : magnitude c e = magnitude a.natAbs g := by
    rw [← abs_signedMagnitude s, hx, magnitude_natAbs]
  have hd : magnitude d f = magnitude b.natAbs g := by
    rw [← abs_signedMagnitude t, hy, magnitude_natAbs]
  have hfar : c = 0 ∨ d = 0 ∨
      adjusted c e ≤ adjusted d f + digits + 1 ∧ (digits < digitCount c → e ≤ adjusted d f + 1) ∧
      adjusted d f ≤ adjusted c e + digits + 1 ∧
        (digits < digitCount d → f ≤ adjusted c e + 1) := by
    by_cases hzero : c = 0
    · exact .inl hzero
    · by_cases hzero' : d = 0
      · exact .inr (.inl hzero')
      · have hplace := adjusted_units hzero ha hc
        have hplace' := adjusted_units hzero' hb hd
        unfold adjusted at hplace hplace' ⊢
        push_cast at hplace hplace'
        refine .inr (.inr ⟨?_, fun _ => ?_, ?_, fun _ => ?_⟩) <;> omega
  have hadd : ∃ (n h : Int), add digits (.finite s c e) (.finite t d f) =
        finishSum digits (s && t) n h ∧ (n : ℚ) * 10 ^ h = (a + b : Int) * 10 ^ g := by
    have hsum : signedMagnitude s c e + signedMagnitude t d f = ((a + b : Int) : ℚ) * 10 ^ g := by
      rw [hx, hy]
      push_cast
      ring
    have hcases : add digits (.finite s c e) (.finite t d f) =
        if f ≤ e then addAligned digits s c e t d f else addAligned digits t d f s c e := rfl
    rw [hcases, ← hsum]
    split
    · rename_i hle
      exact addAligned_eq hle (by tauto)
    · rename_i hlt
      rw [Bool.and_comm, add_comm (signedMagnitude s c e)]
      exact addAligned_eq (by omega) (by tauto)
  obtain ⟨n, h, hadd, hvalue⟩ := hadd
  have hunit : (0 : ℚ) < 10 ^ g := by positivity
  have hunit' : (0 : ℚ) < 10 ^ h := by positivity
  have hzero : n = 0 ↔ a + b = 0 := by
    rw [← Int.cast_eq_zero (α := ℚ), ← Int.cast_eq_zero (α := ℚ) (n := a + b),
      ← mul_eq_zero_iff_right hunit'.ne', hvalue, mul_eq_zero_iff_right hunit.ne']
  have hless : n < 0 ↔ a + b < 0 := by
    rw [← Int.cast_lt_zero (R := ℚ), ← Int.cast_lt_zero (R := ℚ) (n := a + b),
      ← Rat.mul_neg_iff_of_pos_right hunit', hvalue, Rat.mul_neg_iff_of_pos_right hunit]
  refine ⟨n.natAbs, h, ?_, by rw [magnitude_natAbs, magnitude_natAbs, hvalue]⟩
  rw [hadd, finishSum]
  simp only [hzero, hless]

theorem signedMagnitude_not (negative : Bool) (c : Nat) (e : Int) :
    signedMagnitude (!negative) c e = -signedMagnitude negative c e := by
  rw [signedMagnitude_eq, signedMagnitude_eq]
  cases negative <;> simp

theorem sub_units (digits : Nat) {s t : Bool} {c d : Nat} {e f g a b : Int}
    (hx : signedMagnitude s c e = a * 10 ^ g) (hy : signedMagnitude t d f = b * 10 ^ g)
    (ha : a.natAbs < 10 ^ (digits + 1)) (hb : b.natAbs < 10 ^ (digits + 1)) :
    ∃ n h, sub digits (.finite s c e) (.finite t d f) =
        finish digits (if a - b = 0 then s && !t else a - b < 0) n h ∧
      magnitude n h = magnitude (a - b).natAbs g := by
  have hflipped : signedMagnitude (!t) d f = (-b : Int) * 10 ^ g := by
    rw [signedMagnitude_not, hy]
    push_cast
    ring
  rw [sub_eq_add_neg]
  exact add_units digits hx hflipped ha (by rwa [Int.natAbs_neg])

theorem natAbs_signed (negative : Bool) (n : Nat) : (signed negative n).natAbs = n := by
  unfold signed
  cases negative <;> simp

theorem signedMagnitude_eq_units {c n : Nat} {e g : Int} (h : magnitude c e = magnitude n g)
    (negative : Bool) : signedMagnitude negative c e = signed negative n * 10 ^ g := by
  rw [signedMagnitude_eq, h, ← signedMagnitude_eq]
  rfl

/-! ### Quotients -/

theorem stripZeros_magnitude (limit : Nat) (ideal : Int) (c : Nat) (e : Int) :
    magnitude (stripZeros limit ideal c e).1 (stripZeros limit ideal c e).2 = magnitude c e := by
  induction limit generalizing c e with
  | zero => rfl
  | succ limit ih =>
    unfold stripZeros
    split
    · rename_i h
      have hten : c / 10 * 10 = c := by omega
      rw [ih, ← magnitude_mul_ten, hten]
    · rfl

/-- A quotient with one more digit for the rest rounds as the exact quotient does. -/
theorem sticky_rounds {num den : Nat} {e low : Int} (hden : 0 < den)
    (hlead : 10 ^ digits ≤ 10 * (num / den)) (hrest : num % den ≠ 0) :
    Rounds digits low ((num : ℚ) / den * 10 ^ (e + 1)) (magnitude (num / den * 10 + 1) e) := by
  have hunit : (0 : ℚ) < 10 ^ (e + 1) := by positivity
  have hden' : (0 : ℚ) < den := by exact_mod_cast hden
  have hsum := Nat.div_add_mod num den
  have hstep := magnitude_mul_ten (num / den) e
  have hbelow : magnitude (num / den) (e + 1) ≤ (num : ℚ) / den * 10 ^ (e + 1) := by
    unfold magnitude
    gcongr
    exact Nat.cast_div_le
  intro u f hu hf
  by_cases hcase : e + 1 ≤ f
  · have hscaled := magnitude_scaled hcase u
    constructor
    · intro hle
      rw [← hscaled] at hle ⊢
      unfold magnitude at hle
      have hle := le_of_mul_le_mul_right hle hunit
      rw [le_div_iff₀ hden'] at hle
      have hquot : u * 10 ^ (f - (e + 1)).toNat ≤ num / den :=
        (Nat.le_div_iff_mul_le hden).mpr (by exact_mod_cast hle)
      refine (magnitude_le_iff.mpr hquot).trans ?_
      rw [← hstep]
      exact magnitude_le_iff.mpr (Nat.le_succ _)
    · intro hge
      rw [← hscaled] at hge ⊢
      unfold magnitude at hge
      have hge := le_of_mul_le_mul_right hge hunit
      rw [div_le_iff₀ hden'] at hge
      have hge : num ≤ u * 10 ^ (f - (e + 1)).toNat * den := by exact_mod_cast hge
      have hquot : num / den + 1 ≤ u * 10 ^ (f - (e + 1)).toNat := by
        by_contra hlt
        have := Nat.mul_le_mul_right den (Nat.lt_succ_iff.mp (not_le.mp hlt))
        rw [Nat.mul_comm (num / den)] at this
        omega
      rw [← magnitude_mul_ten, magnitude_le_iff]
      omega
  · have hsmall : magnitude u f < magnitude (num / den) (e + 1) := by
      rw [← hstep]
      have hlt : magnitude u f < magnitude (10 ^ digits) f := magnitude_lt_iff.mpr hu
      have hle : magnitude (10 ^ digits) f ≤ magnitude (10 ^ digits) e := by
        rw [← Nat.one_mul (10 ^ digits), magnitude_mul_pow, magnitude_mul_pow, magnitude_one,
          magnitude_one]
        exact zpow_le_zpow_right₀ (by norm_num) (by omega)
      refine (hlt.trans_le hle).trans_le (magnitude_le_iff.mpr ?_)
      omega
    have hresult : magnitude u f ≤ magnitude (num / den * 10 + 1) e := by
      refine hsmall.le.trans ?_
      rw [← hstep]
      exact magnitude_le_iff.mpr (Nat.le_succ _)
    exact ⟨fun _ => hresult, fun hle => absurd (hsmall.trans_le hbelow) (not_lt.mpr hle)⟩

theorem pow_toNat_div (z : Int) : (10 : ℚ) ^ z.toNat / 10 ^ (-z).toNat = 10 ^ z := by
  obtain ⟨k, rfl | rfl⟩ := z.eq_nat_or_neg
  · simp
  · simp [zpow_neg]

/-- A quotient of finite numbers is calculated exactly, or to one digit more than is worked with and
with a last digit of one for the rest. -/
theorem divFinite_cases (digits : Nat) (negative : Bool) {c d : Nat} {e f : Int} (hc : c ≠ 0)
    (hd : d ≠ 0) :
    (∃ c' e', divFinite digits negative c e d f = finish digits negative c' e' ∧
      magnitude c' e' = magnitude c e / magnitude d f) ∨
    ∃ (num den : Nat) (g : Int), 0 < den ∧ 10 ^ digits ≤ num / den ∧ num % den ≠ 0 ∧
      divFinite digits negative c e d f = finish digits negative (num / den * 10 + 1) g ∧
      (num : ℚ) / den * 10 ^ (g + 1) = magnitude c e / magnitude d f := by
  unfold divFinite
  dsimp only
  generalize hshift : (digitCount d : Int) - digitCount c + digits + 1 = shift
  have hten (k : Nat) : Nat.pow 10 k = 10 ^ k := rfl
  rw [hten, hten]
  have hden : 0 < d * 10 ^ (-shift).toNat := Nat.mul_pos (Nat.pos_of_ne_zero hd) (by positivity)
  have hvalue : magnitude c e / magnitude d f =
      ((c * 10 ^ shift.toNat : Nat) : ℚ) / (d * 10 ^ (-shift).toNat : Nat) *
        10 ^ (e - f - shift) := by
    have hd' : (d : ℚ) ≠ 0 := by exact_mod_cast hd
    unfold magnitude
    push_cast
    rw [mul_div_mul_comm, mul_div_mul_comm, pow_toNat_div, mul_assoc, ← zpow_sub₀ (by norm_num),
      ← zpow_add₀ (by norm_num)]
    congr 2
    omega
  split
  · rename_i hexact
    have hdvd := Nat.dvd_of_mod_eq_zero hexact
    have hquot : ((c * 10 ^ shift.toNat / (d * 10 ^ (-shift).toNat) : Nat) : ℚ) =
        (c * 10 ^ shift.toNat : Nat) / (d * 10 ^ (-shift).toNat : Nat) :=
      Nat.cast_div hdvd (by exact_mod_cast hden.ne')
    have hstrip := stripZeros_magnitude shift.toNat (e - f)
      (c * 10 ^ shift.toNat / (d * 10 ^ (-shift).toNat)) (e - f - shift)
    refine .inl ⟨_, _, rfl, ?_⟩
    rw [hstrip, hvalue, ← hquot]
    rfl
  · rename_i hrest
    -- the shift gives the quotient one digit more than is asked for
    have hcount := digitCount_pos c
    have hlow := pow_le_of_lt_digitCount (k := digitCount c - 1) (by omega) hc
    have hhigh := lt_pow_digitCount d
    refine .inr ⟨_, _, _, hden, ?_, hrest, rfl, ?_⟩
    · rw [Nat.le_div_iff_mul_le hden]
      calc 10 ^ digits * (d * 10 ^ (-shift).toNat)
          ≤ 10 ^ digits * (10 ^ digitCount d * 10 ^ (-shift).toNat) := by gcongr
        _ = 10 ^ (digitCount c - 1) * 10 ^ shift.toNat := by
          rw [← pow_add, ← pow_add, ← pow_add]
          congr 1
          omega
        _ ≤ c * 10 ^ shift.toNat := by gcongr
    · rw [sub_add_cancel, hvalue]

/-- The quotient that is rounded in the end rounds as the exact quotient does, and what it is
rounded to is the exact quotient rounded to nearest. -/
theorem divFinite_eq (negative : Bool) {c d : Nat} {e f : Int} (hdigits : 0 < digits) (hc : c ≠ 0)
    (hd : d ≠ 0) :
    ∃ c' e', c' ≠ 0 ∧ divFinite digits negative c e d f = finish digits negative c' e' ∧
      (∀ low, Rounds digits low (magnitude c e / magnitude d f) (magnitude c' e')) ∧
      Near digits (magnitude c e / magnitude d f)
        (magnitude (fitted digits c' e').1 (fitted digits c' e').2) := by
  rcases divFinite_cases digits negative (e := e) (f := f) hc hd with
    ⟨c', e', hfinish, hsame⟩ | ⟨num, den, g, hden, hlead, hrest, hfinish, hsame⟩
  · have hne : c' ≠ 0 := by
      rintro rfl
      rw [magnitude_zero] at hsame
      exact absurd hsame (div_pos (magnitude_pos hc e) (magnitude_pos hd f)).ne
    refine ⟨c', e', hne, hfinish, fun low => ?_, ?_⟩
    · rw [hsame]
      exact rounds_refl _
    · rw [← hsame]
      exact fitted_near e' hdigits hne
  · rw [← hsame]
    exact ⟨_, _, Nat.succ_ne_zero _, hfinish, fun low => sticky_rounds hden (by omega) hrest,
      sticky_near hdigits hden hlead⟩

theorem ceil_div_eq (c : Nat) {d : Nat} (hd : 0 < d) :
    ⌈(c : ℚ) / d⌉₊ = if c % d = 0 then c / d else c / d + 1 := by
  have hd' : (0 : ℚ) < d := by exact_mod_cast hd
  have hsum := Nat.div_add_mod' c d
  have hmod := Nat.mod_lt c hd
  split
  · rename_i hrest
    rw [← Nat.cast_div (Nat.dvd_of_mod_eq_zero hrest) hd'.ne', Nat.ceil_natCast]
  · rename_i hrest
    rw [Nat.ceil_eq_iff (Nat.succ_ne_zero _), Nat.succ_sub_one, lt_div_iff₀ hd', div_le_iff₀ hd']
    have hbelow : c / d * d < c := by omega
    have habove : c ≤ (c / d + 1) * d := by
      rw [Nat.add_mul]
      omega
    exact ⟨by exact_mod_cast hbelow, by exact_mod_cast habove⟩

/-- The whole number next to a number: below it, or above the magnitude of a negative one. -/
theorem floor_eq (negative : Bool) (c : Nat) (e : Int) :
    ∃ k g, floor (.finite negative c e) = .ok (.finite negative k g) ∧
      magnitude k g = (if negative then ⌈magnitude c e⌉₊ else ⌊magnitude c e⌋₊ : Nat) := by
  have whole (n : Nat) : (n : ℚ) = (if negative then ⌈(n : ℚ)⌉₊ else ⌊(n : ℚ)⌋₊ : Nat) := by
    rw [Nat.ceil_natCast, Nat.floor_natCast, ite_self]
  unfold floor
  dsimp only
  split
  · rename_i he
    refine ⟨c, e, rfl, ?_⟩
    rw [← magnitude_scaled he, magnitude_unit]
    exact whole _
  · rename_i he
    have hvalue : magnitude c e = (c : ℚ) / (10 ^ (-e).toNat : Nat) := by
      unfold magnitude
      push_cast
      rw [div_eq_mul_inv, ← zpow_natCast, Int.toNat_of_nonneg (by omega), zpow_neg, inv_inv]
    split
    · rename_i hsmall
      refine ⟨_, 0, rfl, ?_⟩
      have hlt : magnitude c e < 1 := by
        have := magnitude_lt_pow c e
        refine this.trans_le (zpow_le_one_of_nonpos₀ (by norm_num) ?_)
        unfold adjusted
        omega
      rw [magnitude_unit]
      congr 1
      cases negative with
      | false => simpa using (Nat.floor_eq_zero.mpr hlt).symm
      | true =>
        by_cases hc : c = 0
        · simp [hc]
        · have hpos := magnitude_pos hc e
          have : ⌈magnitude c e⌉₊ = 1 := by
            rw [Nat.ceil_eq_iff one_ne_zero]
            simpa using ⟨hpos, hlt.le⟩
          simp [hc, this]
    · refine ⟨_, 0, rfl, ?_⟩
      rw [magnitude_unit, hvalue, Nat.floor_div_eq_div, ceil_div_eq c (by positivity)]
      congr 1
      cases negative with
      | false => rfl
      | true =>
        by_cases hrest : c % 10 ^ (-e).toNat = 0 <;> simp [hrest]

/-- A rounded quotient times its divisor is off the dividend by less than five, and by less than
one if the dividend is below a fifth of what the digits hold. -/
theorem Near.mul_lt {x m b : Nat} {w : ℚ} (h : Near digits ((x : ℚ) / m) w) (hm : 0 < m)
    (hml : m < 10 ^ digits) (hb : 0 < b) (hb' : b ≤ 10) (hx : b * x < 10 ^ digits) :
    b * |w * m - x| < 5 := by
  obtain ⟨g, herror, hunit⟩ := h
  have hm' : (0 : ℚ) < m := by exact_mod_cast hm
  have hb0 : (0 : ℚ) < b := by exact_mod_cast hb
  have hpos : (0 : ℚ) < 10 ^ g := by positivity
  obtain ⟨k, rfl⟩ : ∃ k, digits = k + 1 :=
    ⟨digits - 1, by have := digits_pos_of_lt hm.ne' hml; omega⟩
  have hlast : (b : ℚ) * (m * 10 ^ g) < 10 := by
    rcases hunit with hle | htiny
    · rw [le_div_iff₀ hm', Nat.add_sub_cancel] at hle
      unfold magnitude at hle
      have hx : (b : ℚ) * x < 10 ^ k * 10 := by exact_mod_cast hx
      have hlt : (b : ℚ) * (m * 10 ^ g) * 10 ^ k < 10 * 10 ^ k := by
        push_cast at hle
        calc (b : ℚ) * (m * 10 ^ g) * 10 ^ k = b * (10 ^ k * 10 ^ g * m) := by ring
          _ ≤ b * x := by gcongr
          _ < 10 * 10 ^ k := by linarith
      exact lt_of_mul_lt_mul_right hlt (by positivity)
    · have hb : (b : ℚ) ≤ 10 := by exact_mod_cast hb'
      have hml : (m : ℚ) < 10 ^ ((k + 1 : Nat) : Int) := by
        rw [zpow_natCast]
        exact_mod_cast hml
      have hone : (m : ℚ) * 10 ^ g < 1 := by
        calc (m : ℚ) * 10 ^ g < 10 ^ ((k + 1 : Nat) : Int) * 10 ^ g := by gcongr
          _ = 10 ^ (((k + 1 : Nat) : Int) + g) := (zpow_add₀ (by norm_num) _ _).symm
          _ ≤ 1 := by
            refine zpow_le_one_of_nonpos₀ (by norm_num) ?_
            rw [htiny]
            unfold tinyExponent minExponent
            push_cast
            omega
      calc (b : ℚ) * (m * 10 ^ g) ≤ 10 * (m * 10 ^ g) := by gcongr
        _ < 10 := by linarith
  have hproduct : |w * m - x| = |w - (x : ℚ) / m| * m := by
    rw [← abs_of_pos hm', ← abs_mul, abs_of_pos hm', sub_mul, div_mul_cancel₀ _ hm'.ne']
  have hscaled : b * (2 * |w - (x : ℚ) / m| * m) ≤ b * (10 ^ g * m) := by gcongr
  rw [hproduct]
  linarith

/-- Where a quotient is rounded to a whole number, and the multiple of that misses the dividend, the
dividend is at least a fifth of what the digits hold, and it is missed by less than five. -/
theorem Near.whole_gap {x m k gap : Nat} {w : ℚ} (h : Near digits ((x : ℚ) / m) w) (hm : 0 < m)
    (hml : m < 10 ^ digits) (hx : x < 10 ^ digits) (hk : w = k) (hgap : 0 < gap)
    (hmiss : k * m = x + gap ∨ x = k * m + gap) : 10 ^ digits ≤ 5 * x ∧ gap < 5 := by
  have hdistance : |w * m - x| = gap := by
    have hcases : (k * m : ℚ) = x + gap ∨ (x : ℚ) = k * m + gap := by exact_mod_cast hmiss
    rw [hk]
    rcases hcases with hover | hunder
    · rw [hover, add_sub_cancel_left, Nat.abs_cast]
    · rw [hunder, sub_add_cancel_left, abs_neg, Nat.abs_cast]
  constructor
  · by_contra hlt
    have hfive := h.mul_lt hm hml (b := 5) (by norm_num) (by norm_num) (not_le.mp hlt)
    rw [hdistance] at hfive
    have hfive : 5 * gap < 5 := by exact_mod_cast hfive
    omega
  · have hone := h.mul_lt hm hml (b := 1) one_pos (by norm_num) (by omega)
    rw [hdistance] at hone
    have hone : 1 * gap < 5 := by exact_mod_cast hone
    omega

/-- How a rounded quotient is cut to a whole number, from below and from above. It is the right one
if the dividend is below a fifth of what the digits hold. Otherwise a quotient that is not whole
may be rounded to a whole number, and only to one of which the multiple is near. -/
theorem quotient_cut {x m : Nat} {w : ℚ} (hm : 0 < m) (hml : m < 10 ^ digits) (hx : x < 10 ^ digits)
    (hr : Rounds digits (tinyExponent digits) ((x : ℚ) / m) w) (hn : Near digits ((x : ℚ) / m) w) :
    (⌊w⌋₊ = x / m ∨ 10 ^ digits ≤ 5 * x ∧ x < ⌊w⌋₊ * m ∧ ⌊w⌋₊ * m < x + 5) ∧
    (⌈w⌉₊ = (x + (m - 1)) / m ∨ 10 ^ digits ≤ 5 * x ∧ ⌈w⌉₊ * m < x ∧ x < ⌈w⌉₊ * m + 5) := by
  have hm' : (0 : ℚ) < m := by exact_mod_cast hm
  have hsum := Nat.div_add_mod' x m
  have hmod := Nat.mod_lt x hm
  have hdigits := digits_pos_of_lt hm.ne' hml
  by_cases hrest : x % m = 0
  · have hw : w = magnitude (x / m) 0 := by
      refine hr.exact ((Nat.div_le_self x m).trans_lt hx) (tinyExponent_le_zero digits) ?_
      rw [magnitude_unit, Nat.cast_div (Nat.dvd_of_mod_eq_zero hrest) hm'.ne']
    have hceil : (x + (m - 1)) / m = x / m := by
      rw [Nat.div_eq_iff hm]
      omega
    rw [hw, magnitude_unit, Nat.floor_natCast, Nat.ceil_natCast, hceil]
    exact ⟨.inl rfl, .inl rfl⟩
  · have hceil : (x + (m - 1)) / m = x / m + 1 := by
      rw [Nat.div_eq_iff hm, Nat.add_mul]
      omega
    have hless : x / m + 1 < 10 ^ digits := by
      have hten : 10 ^ 1 ≤ 10 ^ digits := Nat.pow_le_pow_right (by norm_num) hdigits
      have hhalf : x / m ≤ x / 2 := Nat.div_le_div_left (by omega) (by omega)
      omega
    have hlow : ((x / m : Nat) : ℚ) ≤ w := by
      have hbelow := (hr (x / m) 0 (by omega) (tinyExponent_le_zero digits)).1
      rw [magnitude_unit] at hbelow
      exact hbelow Nat.cast_div_le
    have hhigh : w ≤ ((x / m + 1 : Nat) : ℚ) := by
      have habove := (hr (x / m + 1) 0 hless (tinyExponent_le_zero digits)).2
      rw [magnitude_unit] at habove
      refine habove ?_
      rw [div_le_iff₀ hm']
      have hle : x ≤ (x / m + 1) * m := by
        rw [Nat.add_mul]
        omega
      exact_mod_cast hle
    have hw : 0 ≤ w := (Nat.cast_nonneg _).trans hlow
    constructor
    · rcases hhigh.lt_or_eq with hlt | heq
      · exact .inl ((Nat.floor_eq_iff hw).mpr ⟨hlow, by exact_mod_cast hlt⟩)
      · have hgap : (x / m + 1) * m = x + (m - x % m) := by
          rw [Nat.add_mul]
          omega
        obtain ⟨hlarge, hfew⟩ := hn.whole_gap hm hml hx heq (by omega) (.inl hgap)
        rw [heq, Nat.floor_natCast]
        exact .inr ⟨hlarge, by omega, by omega⟩
    · rcases hlow.lt_or_eq with hlt | heq
      · left
        rw [hceil, Nat.ceil_eq_iff (Nat.succ_ne_zero _), Nat.succ_sub_one]
        exact ⟨hlt, hhigh⟩
      · obtain ⟨hlarge, hfew⟩ := hn.whole_gap hm hml hx heq.symm (by omega) (.inr hsum.symm)
        rw [← heq, Nat.ceil_natCast]
        exact .inr ⟨hlarge, by omega, by omega⟩

end DecimalScript.Decimal
