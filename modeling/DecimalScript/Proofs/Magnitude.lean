import DecimalScript.Proofs.Finite
import Mathlib

/-! Magnitudes as rational numbers, and what rounding does to them. Rounding to a number of
digits never takes a value past a number that has no more digits: that is all
that is used of it, and it makes a value with few digits stay as it is. -/

namespace DecimalScript.Decimal

/-! ### Digits -/

theorem countOn_eq {n count digits : Nat} (limit : Nat) (hle : count ≤ digits)
    (hlow : ∀ k, count ≤ k → k < digits → 10 ^ k ≤ n) (hn : n < 10 ^ digits)
    (hlimit : digits ≤ count + limit) : countOn n limit count = digits := by
  induction limit generalizing count with
  | zero =>
    unfold countOn
    omega
  | succ limit ih =>
    unfold countOn
    rw [Nat.pow_eq]
    split
    · rename_i hless
      by_contra hne
      exact absurd (hlow count le_rfl (by omega)) (not_le.mpr hless)
    · rename_i hge
      have hne : count ≠ digits := by
        rintro rfl
        exact hge hn
      exact ih (by omega) (fun k hk => hlow k (by omega)) (by omega)

/-- So many binary digits are worth at least the decimal ones in their ratio. -/
theorem pow_mul_div_le {p q : Nat} (hq : q ≠ 0) (h : 10 ^ p ≤ 2 ^ q) (k : Nat) :
    10 ^ (k * p / q) ≤ 2 ^ k := by
  rw [← Nat.pow_le_pow_iff_left hq]
  calc (10 ^ (k * p / q)) ^ q = 10 ^ (k * p / q * q) := (pow_mul _ _ _).symm
    _ ≤ 10 ^ (p * k) := by
        refine Nat.pow_le_pow_right (by norm_num) ((Nat.div_mul_le_self _ _).trans ?_)
        rw [mul_comm]
    _ = (10 ^ p) ^ k := pow_mul _ _ _
    _ ≤ (2 ^ q) ^ k := Nat.pow_le_pow_left h _
    _ = (2 ^ k) ^ q := by rw [← pow_mul, ← pow_mul, mul_comm]

/-- The digits that the binary digits of a number tell are not more than it has. -/
theorem pow_log2_le {n : Nat} (hn : n ≠ 0) : 10 ^ (Nat.log2 n * 643 / 2136) ≤ n :=
  (pow_mul_div_le (by norm_num) (by decide +kernel) _).trans (Nat.log2_self_le hn)

theorem digitCount_eq (n : Nat) : digitCount n = (Nat.toDigits 10 n).length := by
  have hcount {k : Nat} (hk : 0 < k) : (Nat.toDigits 10 n).length ≤ k ↔ n < 10 ^ k :=
    Nat.length_toDigits_le_iff (by norm_num) hk
  have hpos : 0 < (Nat.toDigits 10 n).length := Nat.length_toDigits_pos
  have hlow {k : Nat} (hk : 0 < k) (hless : k < (Nat.toDigits 10 n).length) : 10 ^ k ≤ n := by
    by_contra hlt
    have := (hcount hk).mpr (not_le.mp hlt)
    omega
  have hbinary : n < 10 ^ (Nat.log2 n + 1) :=
    Nat.lt_log2_self.trans_le (Nat.pow_le_pow_left (by norm_num) _)
  have hmost := (hcount (Nat.succ_pos _)).mpr hbinary
  unfold digitCount
  refine countOn_eq _ ?_ (fun k hk => hlow (by omega)) ((hcount hpos).mp le_rfl) (by omega)
  by_contra hless
  rcases Nat.eq_zero_or_pos n with rfl | hn
  · exact hless hpos
  · have hbelow := lt_of_le_of_lt (pow_log2_le hn.ne') ((hcount hpos).mp le_rfl)
    have := (Nat.pow_lt_pow_iff_right (by norm_num : 1 < 10)).mp hbelow
    omega

theorem digitCount_pos (n : Nat) : 0 < digitCount n := by
  rw [digitCount_eq]
  exact Nat.length_toDigits_pos

theorem digitCount_le_iff {n k : Nat} (hk : 0 < k) : digitCount n ≤ k ↔ n < 10 ^ k := by
  rw [digitCount_eq]
  exact Nat.length_toDigits_le_iff (by norm_num) hk

theorem lt_pow_digitCount (n : Nat) : n < 10 ^ digitCount n :=
  (digitCount_le_iff (digitCount_pos n)).mp le_rfl

theorem pow_le_of_lt_digitCount {n k : Nat} (h : k < digitCount n) (hn : n ≠ 0) : 10 ^ k ≤ n := by
  by_cases hk : k = 0
  · subst hk
    omega
  · by_contra hlt
    have := (digitCount_le_iff (by omega)).mpr (not_le.mp hlt)
    omega

theorem digitCount_le_of_lt {n k : Nat} (h : n < 10 ^ k) (hn : n ≠ 0) : digitCount n ≤ k := by
  by_contra hlt
  have := pow_le_of_lt_digitCount (not_le.mp hlt) hn
  omega

theorem digitCount_mul_pow {n : Nat} (hn : n ≠ 0) (k : Nat) :
    digitCount (n * 10 ^ k) = digitCount n + k := by
  have hpow : 0 < 10 ^ k := by positivity
  have hne : n * 10 ^ k ≠ 0 := Nat.mul_ne_zero hn hpow.ne'
  apply le_antisymm
  · refine digitCount_le_of_lt ?_ hne
    rw [pow_add]
    exact Nat.mul_lt_mul_of_pos_right (lt_pow_digitCount n) hpow
  · have hone : 10 ^ (digitCount n - 1 + k) ≤ n * 10 ^ k := by
      rw [pow_add]
      have := digitCount_pos n
      exact Nat.mul_le_mul_right _ (pow_le_of_lt_digitCount (by omega) hn)
    have hlt : 10 ^ (digitCount n - 1 + k) < 10 ^ digitCount (n * 10 ^ k) :=
      hone.trans_lt (lt_pow_digitCount _)
    have := (Nat.pow_lt_pow_iff_right (by norm_num : 1 < 10)).mp hlt
    have := digitCount_pos n
    omega

/-! ### Magnitudes -/

def magnitude (coefficient : Nat) (exponent : Int) : ℚ := coefficient * (10 : ℚ) ^ exponent

@[simp] theorem magnitude_zero (e : Int) : magnitude 0 e = 0 := by simp [magnitude]

@[simp] theorem magnitude_unit (c : Nat) : magnitude c 0 = c := by simp [magnitude]

theorem magnitude_pos {c : Nat} (hc : c ≠ 0) (e : Int) : 0 < magnitude c e := by
  unfold magnitude
  have : 0 < c := Nat.pos_of_ne_zero hc
  positivity

theorem magnitude_mul (c d : Nat) (e f : Int) :
    magnitude (c * d) (e + f) = magnitude c e * magnitude d f := by
  unfold magnitude
  rw [zpow_add₀ (by norm_num), Nat.cast_mul]
  ring

theorem magnitude_mul_pow (c k : Nat) (e : Int) :
    magnitude (c * 10 ^ k) e = magnitude c (e + k) := by
  unfold magnitude
  rw [zpow_add₀ (by norm_num), zpow_natCast]
  push_cast
  ring

theorem magnitude_mul_ten (c : Nat) (e : Int) : magnitude (c * 10) e = magnitude c (e + 1) := by
  have h := magnitude_mul_pow c 1 e
  rwa [pow_one] at h

/-- A magnitude with a lower exponent. -/
theorem magnitude_scaled {e f : Int} (h : f ≤ e) (c : Nat) :
    magnitude (c * 10 ^ (e - f).toNat) f = magnitude c e := by
  rw [magnitude_mul_pow, Int.toNat_of_nonneg (by omega)]
  congr 1
  omega

theorem magnitude_le_iff {c d : Nat} {e : Int} : magnitude c e ≤ magnitude d e ↔ c ≤ d := by
  unfold magnitude
  rw [mul_le_mul_iff_left₀ (by positivity), Nat.cast_le]

theorem magnitude_lt_iff {c d : Nat} {e : Int} : magnitude c e < magnitude d e ↔ c < d := by
  unfold magnitude
  rw [mul_lt_mul_iff_left₀ (by positivity), Nat.cast_lt]

theorem magnitude_one (e : Int) : magnitude 1 e = (10 : ℚ) ^ e := by simp [magnitude]

theorem pow_adjusted_le {c : Nat} (hc : c ≠ 0) (e : Int) :
    (10 : ℚ) ^ adjusted c e ≤ magnitude c e := by
  have hpos := digitCount_pos c
  have hexp : adjusted c e = e + ((digitCount c - 1 : Nat) : Int) := by
    unfold adjusted
    omega
  rw [hexp, ← magnitude_one, ← magnitude_mul_pow, one_mul, magnitude_le_iff]
  exact pow_le_of_lt_digitCount (by omega) hc

theorem magnitude_lt_pow (c : Nat) (e : Int) : magnitude c e < (10 : ℚ) ^ (adjusted c e + 1) := by
  have hexp : adjusted c e + 1 = e + (digitCount c : Int) := by
    unfold adjusted
    omega
  rw [hexp, ← magnitude_one, ← magnitude_mul_pow, one_mul, magnitude_lt_iff]
  exact lt_pow_digitCount c

/-- The first digit of a smaller number stands no further to the left. -/
theorem adjusted_le_of_magnitude_le {c d : Nat} {e f : Int} (hc : c ≠ 0)
    (h : magnitude c e ≤ magnitude d f) : adjusted c e ≤ adjusted d f := by
  have hlt : (10 : ℚ) ^ adjusted c e < (10 : ℚ) ^ (adjusted d f + 1) :=
    (pow_adjusted_le hc e).trans_lt (h.trans_lt (magnitude_lt_pow d f))
  have := (zpow_lt_zpow_iff_right₀ (by norm_num : (1 : ℚ) < 10)).mp hlt
  omega

/-! ### Rounding -/

/-- The second value can come from the first by rounding to the given number of digits, with
exponents from the least one: no number with so few digits lies between them. -/
def Rounds (digits : Nat) (low : Int) (v w : ℚ) : Prop :=
  ∀ (u : Nat) (f : Int), u < 10 ^ digits → low ≤ f →
    (magnitude u f ≤ v → magnitude u f ≤ w) ∧ (v ≤ magnitude u f → w ≤ magnitude u f)

variable {digits count : Nat} {low : Int} {v w : ℚ}

theorem rounds_refl (v : ℚ) : Rounds digits low v v := fun _ _ _ _ => ⟨id, id⟩

/-- A number with few digits stays as it is. -/
theorem Rounds.exact (h : Rounds digits low v w) {u : Nat} {f : Int} (hu : u < 10 ^ digits)
    (hf : low ≤ f) (hv : v = magnitude u f) : w = magnitude u f := by
  obtain ⟨hle, hge⟩ := h u f hu hf
  exact le_antisymm (hge hv.le) (hle hv.ge)

theorem divNearest_bounds (tie : Tie) (num : Nat) {den : Nat} (hd : 0 < den) :
    num / den ≤ divNearest tie num den ∧ divNearest tie num den * den < num + den := by
  have hsum := Nat.div_add_mod num den
  have hmod := Nat.mod_lt num hd
  have hup : 0 < num % den → (num / den + 1) * den < num + den := by
    intro hpos
    rw [Nat.add_mul, Nat.one_mul, Nat.mul_comm]
    omega
  have hdown : num / den * den < num + den := by
    rw [Nat.mul_comm]
    omega
  unfold divNearest
  dsimp only
  split
  · exact ⟨le_rfl, hdown⟩
  · split
    · exact ⟨Nat.le_succ _, hup (by omega)⟩
    · cases tie with
      | awayFromZero => exact ⟨Nat.le_succ _, hup (by omega)⟩
      | toEven =>
        dsimp only
        split
        · exact ⟨le_rfl, hdown⟩
        · exact ⟨Nat.le_succ _, hup (by omega)⟩

theorem dropDigits_bounds (tie : Tie) (c count : Nat) :
    c / 10 ^ count ≤ dropDigits tie c count ∧
      dropDigits tie c count * 10 ^ count < c + 10 ^ count := by
  have hpos : 0 < 10 ^ count := by positivity
  unfold dropDigits
  split_ifs with h
  · have hlt : c < 10 ^ count :=
      (lt_pow_digitCount c).trans (Nat.pow_lt_pow_right (by norm_num) h)
    rw [Nat.div_eq_of_lt hlt]
    exact ⟨le_rfl, by omega⟩
  · exact divNearest_bounds tie c hpos

/-- Dropping digits rounds if enough of them stay, or if the place of the last one is the
lowest there is. -/
theorem dropDigits_rounds (tie : Tie) {c : Nat} {e : Int} (hd : 0 < digits)
    (h : count = 0 ∨ 10 ^ (digits - 1 + count) ≤ c ∨ e + count ≤ low) :
    Rounds digits low (magnitude c e) (magnitude (dropDigits tie c count) (e + count)) := by
  obtain ⟨hfloor, hceil⟩ := dropDigits_bounds tie c count
  have hunit : 0 < 10 ^ count := by positivity
  intro u f hu hf
  by_cases hcase : e + count ≤ f
  · -- the number is a whole multiple of the last place that stays
    have hscaled := magnitude_scaled hcase u
    have hexact : magnitude (u * 10 ^ (f - (e + count)).toNat * 10 ^ count) e = magnitude u f := by
      rw [magnitude_mul_pow, hscaled]
    rw [← hexact, magnitude_le_iff, magnitude_le_iff, hexact, ← hscaled, magnitude_le_iff,
      magnitude_le_iff]
    constructor
    · intro hle
      exact ((Nat.le_div_iff_mul_le hunit).mpr hle).trans hfloor
    · intro hle
      have hlt : dropDigits tie c count * 10 ^ count <
          (u * 10 ^ (f - (e + count)).toNat + 1) * 10 ^ count := by
        rw [Nat.add_mul, Nat.one_mul]
        omega
      exact Nat.lt_succ_iff.mp (Nat.lt_of_mul_lt_mul_right hlt)
  · -- all digits of the number stand below that place, so it is smaller than either value
    rcases h with rfl | hbig | hlow
    · rw [dropDigits_zero]
      simp
    · have hlead : 10 ^ (digits - 1) ≤ dropDigits tie c count := by
        refine le_trans ?_ hfloor
        rw [Nat.le_div_iff_mul_le hunit, ← pow_add]
        exact hbig
      have hsmall : magnitude u f < magnitude (10 ^ (digits - 1)) (e + count) := by
        have hle : magnitude u f < magnitude (10 ^ digits) f := magnitude_lt_iff.mpr hu
        refine hle.trans_le ?_
        rw [← Nat.one_mul (10 ^ digits), ← Nat.one_mul (10 ^ (digits - 1)), magnitude_mul_pow,
          magnitude_mul_pow, magnitude_one, magnitude_one]
        exact zpow_le_zpow_right₀ (by norm_num) (by omega)
      have hw := hsmall.trans_le (magnitude_le_iff.mpr hlead)
      have hv : magnitude u f < magnitude c e := by
        refine hsmall.trans_le ?_
        rw [← magnitude_mul_pow, ← pow_add]
        exact magnitude_le_iff.mpr hbig
      exact ⟨fun _ => hw.le, fun hle => absurd hv (not_lt.mpr hle)⟩
    · omega

/-- A coefficient that gets one digit too many by rounding is a power of ten. -/
theorem dropDigits_carry (tie : Tie) {c : Nat} (hd : 0 < digits) (h : c < 10 ^ (digits + count))
    (hc : digits < digitCount (dropDigits tie c count)) :
    dropDigits tie c count / 10 * 10 = dropDigits tie c count := by
  have hunit : 0 < 10 ^ count := by positivity
  obtain ⟨_, hceil⟩ := dropDigits_bounds tie c count
  have hne : dropDigits tie c count ≠ 0 := by
    intro hzero
    rw [hzero] at hc
    have hone : digitCount 0 = 1 := rfl
    omega
  have hge := pow_le_of_lt_digitCount hc hne
  have hle : dropDigits tie c count < 10 ^ digits + 1 := by
    refine Nat.lt_of_mul_lt_mul_right (a := 10 ^ count) ?_
    rw [Nat.add_mul, Nat.one_mul, ← pow_add]
    omega
  have heq : dropDigits tie c count = 10 ^ digits := by omega
  obtain ⟨n, rfl⟩ : ∃ n, digits = n + 1 := ⟨digits - 1, by omega⟩
  rw [heq, pow_succ, Nat.mul_div_cancel _ (by norm_num)]

/-- A magnitude without its last digits, and without one more if rounding adds a digit. -/
def shortened (digits c : Nat) (e : Int) (count : Nat) : Nat × Int :=
  let rounded := dropDigits .toEven c count
  if digits < digitCount rounded then (rounded / 10, e + count + 1) else (rounded, e + count)

theorem shortened_magnitude {c : Nat} (hd : 0 < digits) (h : c < 10 ^ (digits + count)) (e : Int) :
    magnitude (shortened digits c e count).1 (shortened digits c e count).2 =
      magnitude (dropDigits .toEven c count) (e + count) := by
  unfold shortened
  dsimp only
  split
  · rename_i hc
    have hscaled := magnitude_mul_ten (dropDigits .toEven c count / 10) (e + count)
    rw [dropDigits_carry .toEven hd h hc] at hscaled
    exact hscaled.symm
  · rfl

theorem shortened_lt {c : Nat} (hd : 0 < digits) (h : c < 10 ^ (digits + count)) (e : Int) :
    (shortened digits c e count).1 < 10 ^ digits := by
  obtain ⟨_, hceil⟩ := dropDigits_bounds .toEven c count
  have hle : dropDigits .toEven c count < 10 ^ digits + 1 := by
    refine Nat.lt_of_mul_lt_mul_right (a := 10 ^ count) ?_
    rw [Nat.add_mul, Nat.one_mul, ← pow_add]
    omega
  unfold shortened
  dsimp only
  split
  · have : 0 < 10 ^ digits := by positivity
    dsimp only
    omega
  · rename_i hc
    exact (digitCount_le_iff hd).mp (not_lt.mp hc)

theorem shortened_rounds {c : Nat} {e : Int} (hd : 0 < digits) (hc : c ≠ 0)
    (hcount : digitCount c - digits ≤ count)
    (h : count = digitCount c - digits ∨ e + count ≤ low) :
    Rounds digits low (magnitude c e)
      (magnitude (shortened digits c e count).1 (shortened digits c e count).2) := by
  have hlt : c < 10 ^ (digits + count) :=
    (lt_pow_digitCount c).trans_le (Nat.pow_le_pow_right (by norm_num) (by omega))
  rw [shortened_magnitude hd hlt]
  apply dropDigits_rounds .toEven hd
  rcases h with heq | hlow
  · by_cases hzero : count = 0
    · exact .inl hzero
    · exact .inr (.inl (pow_le_of_lt_digitCount (by omega) hc))
  · exact .inr (.inr hlow)

theorem toDigits_eq (digits c : Nat) (e : Int) :
    toDigits digits c e = shortened digits c e (digitCount c - digits) := rfl

theorem toDigits_rounds (hd : 0 < digits) (c : Nat) (e : Int) :
    Rounds digits low (magnitude c e)
      (magnitude (toDigits digits c e).1 (toDigits digits c e).2) := by
  by_cases hc : c = 0
  · subst hc
    have hzero : (toDigits digits 0 e).1 = 0 := by
      have hone : digitCount 0 = 1 := rfl
      simp only [toDigits, hone, Nat.sub_eq_zero_of_le hd, dropDigits_zero]
      rw [if_neg (by omega)]
    rw [hzero, magnitude_zero, magnitude_zero]
    exact rounds_refl 0
  · rw [toDigits_eq]
    exact shortened_rounds hd hc le_rfl (.inl rfl)

/-! ### The end of a calculation -/

/-- The digits that a calculation loses at its end. -/
def lostDigits (digits c : Nat) (e : Int) : Nat :=
  max (digitCount c - digits) (tinyExponent digits - e).toNat

theorem finish_eq {negative : Bool} {c : Nat} (hc : c ≠ 0) (e : Int) :
    finish digits negative c e =
      if maxExponent < adjusted c e then .error .overflow
      else
        let short := shortened digits c e (lostDigits digits c e)
        if maxExponent < adjusted short.1 short.2 then .error .overflow
        else .ok (.finite negative short.1 short.2) := by
  unfold finish
  rw [if_neg hc]
  rfl

/-- The only trap at the end of a calculation is that of a number out of range. -/
theorem finish_error {negative : Bool} {c : Nat} {e : Int} {trap : Trap}
    (h : finish digits negative c e = .error trap) : trap = .overflow := by
  by_cases hc : c = 0
  · subst hc
    cases h
  · rw [finish_eq hc] at h
    split at h
    · exact (Except.error.inj h).symm
    · dsimp only at h
      split at h
      · exact (Except.error.inj h).symm
      · cases h

theorem lostDigits_rounds {c : Nat} (hd : 0 < digits) (hc : c ≠ 0) (e : Int) :
    Rounds digits (tinyExponent digits) (magnitude c e)
      (magnitude (shortened digits c e (lostDigits digits c e)).1
        (shortened digits c e (lostDigits digits c e)).2) := by
  refine shortened_rounds hd hc (le_max_left _ _) ?_
  unfold lostDigits
  omega

theorem lt_pow_lostDigits (digits c : Nat) (e : Int) : c < 10 ^ (digits + lostDigits digits c e) := by
  refine (lt_pow_digitCount c).trans_le (Nat.pow_le_pow_right (by norm_num) ?_)
  unfold lostDigits
  omega

theorem lostDigits_lt {c : Nat} (hd : 0 < digits) (e : Int) :
    (shortened digits c e (lostDigits digits c e)).1 < 10 ^ digits :=
  shortened_lt hd (lt_pow_lostDigits digits c e) e

/-- Only a number below the lowest place loses all its digits. -/
theorem lostDigits_zero {c : Nat} {e : Int} (hd : 0 < digits) (hc : c ≠ 0)
    (h : (shortened digits c e (lostDigits digits c e)).1 = 0) :
    adjusted (shortened digits c e (lostDigits digits c e)).1
      (shortened digits c e (lostDigits digits c e)).2 ≤ maxExponent := by
  have hlow : adjusted c e < tinyExponent digits := by
    by_contra hge
    have hone : magnitude 1 (adjusted c e) ≤ magnitude c e := by
      rw [magnitude_one]
      exact pow_adjusted_le hc e
    have hkept := (lostDigits_rounds hd hc e 1 _ (Nat.one_lt_pow (by omega) (by norm_num))
      (not_lt.mp hge)).1 hone
    rw [h, magnitude_zero] at hkept
    exact absurd (magnitude_pos one_ne_zero _) (not_lt.mpr hkept)
  have hplace : (shortened digits c e (lostDigits digits c e)).2 ≤ tinyExponent digits + 1 := by
    have hcount : e + lostDigits digits c e = tinyExponent digits := by
      have := digitCount_pos c
      unfold adjusted at hlow
      unfold lostDigits
      omega
    unfold shortened
    dsimp only
    split <;> dsimp only <;> omega
  have hone : digitCount 0 = 1 := rfl
  rw [h]
  unfold adjusted
  rw [hone]
  unfold tinyExponent minExponent at hplace
  unfold maxExponent
  omega

/-- What a calculation ends with: the exact result, rounded to the working precision. -/
theorem finish_rounds {negative : Bool} {c : Nat} {e : Int} {x : Decimal} (hd : 0 < digits)
    (h : finish digits negative c e = .ok x) :
    ∃ c' e', x = .finite negative c' e' ∧ c' < 10 ^ digits ∧
      (c' ≠ 0 → adjusted c' e' ≤ maxExponent) ∧
      Rounds digits (tinyExponent digits) (magnitude c e) (magnitude c' e') := by
  by_cases hc : c = 0
  · subst hc
    cases h
    refine ⟨0, _, rfl, by positivity, fun h => absurd rfl h, ?_⟩
    rw [magnitude_zero, magnitude_zero]
    exact rounds_refl 0
  · rw [finish_eq hc] at h
    split at h
    · cases h
    · dsimp only at h
      split at h
      · cases h
      · rename_i hfits
        cases h
        exact ⟨_, _, rfl, lostDigits_lt hd e, fun _ => not_lt.mp hfits, lostDigits_rounds hd hc e⟩

/-- A calculation ends with a number if a number in range is not below the exact result. -/
theorem finish_defined (negative : Bool) {c u : Nat} {e f : Int} (hd : 0 < digits)
    (hu : u < 10 ^ digits) (hf : tinyExponent digits ≤ f) (hmax : adjusted u f ≤ maxExponent)
    (h : magnitude c e ≤ magnitude u f) : ∃ x, finish digits negative c e = .ok x := by
  by_cases hc : c = 0
  · subst hc
    exact ⟨_, rfl⟩
  · have hrounds := (lostDigits_rounds hd hc e u f hu hf).2 h
    rw [finish_eq hc, if_neg (not_lt.mpr ((adjusted_le_of_magnitude_le hc h).trans hmax))]
    dsimp only
    rw [if_neg]
    · exact ⟨_, rfl⟩
    · rw [not_lt]
      by_cases hzero : (shortened digits c e (lostDigits digits c e)).1 = 0
      · exact lostDigits_zero hd hc hzero
      · exact (adjusted_le_of_magnitude_le hzero hrounds).trans hmax

end DecimalScript.Decimal
