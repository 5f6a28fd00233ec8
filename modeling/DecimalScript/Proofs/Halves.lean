import DecimalScript.Proofs.Units
import Mathlib

/-! Rounding a rational magnitude. What a calculation ends with is the exact magnitude, rounded to
the digits that are worked with, halves to even; a number gets its places by rounding the
multiple of the unit, halves away from zero. -/

namespace DecimalScript.Decimal

variable {digits places n : Nat} {tie : Tie} {v w : ℚ}

/-! ### The nearest whole number -/

/-- The whole number nearest to a magnitude. -/
def nearest (tie : Tie) (v : ℚ) : Nat :=
  if 2 * v < 2 * ⌊v⌋₊ + 1 ∨ 2 * v = 2 * ⌊v⌋₊ + 1 ∧ tie = .toEven ∧ ⌊v⌋₊ % 2 = 0 then ⌊v⌋₊
  else ⌊v⌋₊ + 1

/-- A whole number is reached from half a unit below it on; at the half itself, if ties go up or
the number is even. -/
theorem le_nearest_iff (tie : Tie) (hv : 0 ≤ v) :
    n ≤ nearest tie v ↔
      2 * (n : ℚ) < 2 * v + 1 ∨ 2 * (n : ℚ) = 2 * v + 1 ∧ (tie = .awayFromZero ∨ n % 2 = 0) := by
  have hfloor := Nat.floor_le hv
  have hceil := Nat.lt_floor_add_one v
  unfold nearest
  generalize ⌊v⌋₊ = f at *
  rcases lt_trichotomy n (f + 1) with hn | rfl | hn
  · have hle : (n : ℚ) ≤ f := by exact_mod_cast Nat.lt_succ_iff.mp hn
    refine iff_of_true ?_ (.inl (by linarith))
    split_ifs <;> omega
  · push_cast
    rcases lt_trichotomy (2 * v) (2 * f + 1) with h | h | h
    · rw [if_pos (.inl h)]
      refine iff_of_false (by omega) ?_
      rintro (hlt | ⟨heq, -⟩) <;> linarith
    · have hnot : ¬2 * ((f : ℚ) + 1) < 2 * v + 1 := by linarith
      have heq : 2 * ((f : ℚ) + 1) = 2 * v + 1 := by linarith
      rw [or_iff_right hnot, and_iff_right heq]
      cases tie with
      | awayFromZero => simp [h]
      | toEven =>
        simp only [h, lt_irrefl, reduceCtorEq, true_and, false_or]
        split_ifs <;> omega
    · rw [if_neg (by rintro (hlt | ⟨heq, -⟩) <;> linarith)]
      exact iff_of_true le_rfl (.inl (by linarith))
  · have hle : (f : ℚ) + 2 ≤ n := by exact_mod_cast hn
    refine iff_of_false ?_ ?_
    · split_ifs <;> omega
    · rintro (hlt | ⟨heq, -⟩) <;> linarith

theorem le_nearest_iff_of_tie (hv : 0 ≤ v) (h : tie = .awayFromZero ∨ n % 2 = 0) :
    n ≤ nearest tie v ↔ 2 * (n : ℚ) ≤ 2 * v + 1 := by
  rw [le_nearest_iff tie hv, and_iff_left h, ← le_iff_lt_or_eq]

theorem nearest_mono (tie : Tie) (hv : 0 ≤ v) (h : v ≤ w) : nearest tie v ≤ nearest tie w := by
  rw [le_nearest_iff tie (hv.trans h)]
  rcases (le_nearest_iff tie hv).mp le_rfl with hlt | ⟨heq, htie⟩
  · exact .inl (by linarith)
  · rcases h.lt_or_eq with hlt | rfl
    · exact .inl (by linarith)
    · exact .inr ⟨heq, htie⟩

@[simp] theorem nearest_natCast (tie : Tie) (n : Nat) : nearest tie n = n := by
  have hn : (0 : ℚ) ≤ n := Nat.cast_nonneg n
  refine le_antisymm ?_ ((le_nearest_iff tie hn).mpr (.inl (by linarith)))
  by_contra hlt
  rcases (le_nearest_iff tie hn).mp (Nat.succ_le_of_lt (not_le.mp hlt)) with h | ⟨h, -⟩ <;>
    push_cast at h <;> linarith

theorem nearest_error (tie : Tie) (hv : 0 ≤ v) : 2 * |(nearest tie v : ℚ) - v| ≤ 1 := by
  have hlow : 2 * (nearest tie v : ℚ) ≤ 2 * v + 1 := by
    rcases (le_nearest_iff tie hv).mp le_rfl with h | ⟨h, -⟩ <;> linarith
  have hhigh : 2 * v ≤ 2 * (nearest tie v : ℚ) + 1 := by
    by_contra hlt
    have h := (le_nearest_iff (n := nearest tie v + 1) tie hv).mpr
      (.inl (by push_cast; linarith))
    omega
  rw [← abs_two, ← abs_mul, abs_le]
  constructor <;> linarith

/-- Between two neighbouring multiples of one half no tie is met. -/
theorem nearest_of_between {m : Nat} (hlow : (m : ℚ) < 2 * v) (hhigh : 2 * v < m + 1) :
    nearest tie v = (m + 1) / 2 := by
  have hm : (0 : ℚ) ≤ m := Nat.cast_nonneg m
  have hv : 0 ≤ v := by linarith
  refine eq_of_forall_le_iff fun n => ?_
  rw [le_nearest_iff tie hv, Nat.le_div_iff_mul_le two_pos]
  constructor
  · rintro (h | ⟨h, -⟩)
    · have hlt : (n * 2 : ℚ) < m + 2 := by linarith
      have hlt : n * 2 < m + 2 := by exact_mod_cast hlt
      omega
    · have hbelow : (m : ℚ) + 1 < n * 2 := by linarith
      have habove : (n * 2 : ℚ) < m + 2 := by linarith
      have hbelow : m + 1 < n * 2 := by exact_mod_cast hbelow
      have habove : n * 2 < m + 2 := by exact_mod_cast habove
      omega
  · intro h
    have hle : (n * 2 : ℚ) ≤ m + 1 := by exact_mod_cast h
    exact .inl (by linarith)

theorem divNearest_eq (tie : Tie) (num : Nat) {den : Nat} (hd : 0 < den) :
    divNearest tie num den = nearest tie ((num : ℚ) / den) := by
  have hsum := Nat.div_add_mod' num den
  have hden : (0 : ℚ) < den := by exact_mod_cast hd
  have hfloor : ⌊(num : ℚ) / den⌋₊ = num / den := Nat.floor_div_eq_div num den
  have hbelow : 2 * ((num : ℚ) / den) < 2 * (num / den : Nat) + 1 ↔ 2 * (num % den) < den := by
    rw [← mul_div_assoc, div_lt_iff₀ hden]
    norm_cast
    rw [Nat.add_mul, Nat.mul_assoc]
    omega
  have habove : 2 * ((num / den : Nat) : ℚ) + 1 < 2 * ((num : ℚ) / den) ↔
      den < 2 * (num % den) := by
    rw [← mul_div_assoc, lt_div_iff₀ hden]
    norm_cast
    rw [Nat.add_mul, Nat.mul_assoc]
    omega
  have htie : 2 * ((num : ℚ) / den) = 2 * (num / den : Nat) + 1 ↔ 2 * (num % den) = den := by
    rw [le_antisymm_iff, ← not_lt, ← not_lt, hbelow, habove]
    omega
  unfold divNearest nearest
  simp only [hfloor, hbelow, htie]
  cases tie with
  | awayFromZero => split_ifs <;> simp_all <;> omega
  | toEven => split_ifs <;> simp_all <;> omega

theorem dropDigits_eq (tie : Tie) (c count : Nat) :
    dropDigits tie c count = nearest tie ((c : ℚ) / 10 ^ count) := by
  unfold dropDigits
  split_ifs with h
  · obtain ⟨k, rfl⟩ : ∃ k, count = k + 1 := ⟨count - 1, by omega⟩
    have hlt : c < 10 ^ k :=
      (lt_pow_digitCount c).trans_le (Nat.pow_le_pow_right (by norm_num) (by omega))
    have hlt : (c : ℚ) < 10 ^ k := by exact_mod_cast hlt
    have hv : (0 : ℚ) ≤ (c : ℚ) / 10 ^ (k + 1) := by positivity
    have hsmall : (c : ℚ) / 10 ^ (k + 1) < 1 / 10 := by
      rw [div_lt_div_iff₀ (by positivity) (by norm_num), pow_succ]
      linarith
    refine (Nat.eq_zero_of_not_pos fun hpos => ?_).symm
    rcases (le_nearest_iff (n := 1) tie hv).mp hpos with h | ⟨h, -⟩ <;> push_cast at h <;> linarith
  · have hunit : 0 < 10 ^ count := by positivity
    refine (divNearest_eq tie c hunit).trans ?_
    norm_cast

/-! ### Rounding to digits -/

/-- The place of the last of so many digits of a magnitude, or the least place there is. -/
def lastPlace (digits : Nat) (v : ℚ) : Int :=
  max (Int.log 10 v + 1 - digits) (tinyExponent digits)

/-- The magnitude to so many digits, halves to even. -/
def rounded (digits : Nat) (v : ℚ) : ℚ :=
  nearest .toEven (v / 10 ^ lastPlace digits v) * 10 ^ lastPlace digits v

@[simp] theorem rounded_zero (digits : Nat) : rounded digits 0 = 0 := by
  have hzero := nearest_natCast .toEven 0
  rw [Nat.cast_zero] at hzero
  simp [rounded, hzero]

theorem log_eq_of_between {l : Int} (hlow : (10 : ℚ) ^ l ≤ v) (hhigh : v < (10 : ℚ) ^ (l + 1)) :
    Int.log 10 v = l := by
  have hv : 0 < v := lt_of_lt_of_le (by positivity) hlow
  have hle := (Int.zpow_le_iff_le_log (b := 10) (by norm_num) hv).mp hlow
  have hlt := (Int.lt_zpow_iff_log_lt (b := 10) (by norm_num) hv).mp hhigh
  omega

theorem log_magnitude {c : Nat} (hc : c ≠ 0) (e : Int) :
    Int.log 10 (magnitude c e) = adjusted c e :=
  log_eq_of_between (pow_adjusted_le hc e) (magnitude_lt_pow c e)

theorem rounded_error (digits : Nat) (hv : 0 ≤ v) :
    2 * |rounded digits v - v| ≤ 10 ^ lastPlace digits v := by
  have hunit : (0 : ℚ) < 10 ^ lastPlace digits v := by positivity
  have herror := nearest_error .toEven (div_nonneg hv hunit.le)
  have hscaled : rounded digits v - v =
      (nearest .toEven (v / 10 ^ lastPlace digits v) - v / 10 ^ lastPlace digits v) *
        10 ^ lastPlace digits v := by
    rw [rounded, sub_mul, div_mul_cancel₀ _ hunit.ne']
  rw [hscaled, abs_mul, abs_of_pos hunit, ← mul_assoc]
  exact mul_le_of_le_one_left hunit.le herror

/-- A multiple of a place that is kept stays as it is. -/
theorem rounded_exact {u : Nat} {f : Int} (hf : lastPlace digits (magnitude u f) ≤ f) :
    rounded digits (magnitude u f) = magnitude u f := by
  have hunit : (10 : ℚ) ^ lastPlace digits (magnitude u f) ≠ 0 := by positivity
  have hwhole := magnitude_scaled hf u
  have hquotient : magnitude u f / 10 ^ lastPlace digits (magnitude u f) =
      (u * 10 ^ (f - lastPlace digits (magnitude u f)).toNat : Nat) := by
    rw [div_eq_iff hunit]
    exact hwhole.symm
  rw [rounded, hquotient, nearest_natCast]
  exact hwhole

theorem pow_le_rounded {m : Int} (hd : 0 < digits) (hm : tinyExponent digits ≤ m)
    (h : (10 : ℚ) ^ m ≤ v) : (10 : ℚ) ^ m ≤ rounded digits v := by
  have hv : 0 < v := lt_of_lt_of_le (by positivity) h
  have hlog := (Int.zpow_le_iff_le_log (b := 10) (by norm_num) hv).mp h
  have hlead := Int.zpow_log_le_self (b := 10) (by norm_num) hv
  have hplace : lastPlace digits v ≤ Int.log 10 v := max_le (by omega) (by omega)
  have hunit : (0 : ℚ) < 10 ^ lastPlace digits v := by positivity
  have hscaled := magnitude_scaled hplace 1
  rw [one_mul, magnitude_one] at hscaled
  have hquotient : ((10 ^ (Int.log 10 v - lastPlace digits v).toNat : Nat) : ℚ) ≤
      v / 10 ^ lastPlace digits v := by
    rw [le_div_iff₀ hunit]
    exact hscaled.trans_le hlead
  have hnearest := nearest_mono .toEven (Nat.cast_nonneg _) hquotient
  rw [nearest_natCast] at hnearest
  calc (10 : ℚ) ^ m ≤ 10 ^ Int.log 10 v := zpow_le_zpow_right₀ (by norm_num) hlog
    _ = magnitude (10 ^ (Int.log 10 v - lastPlace digits v).toNat) (lastPlace digits v) :=
      hscaled.symm
    _ ≤ rounded digits v := magnitude_le_iff.mpr hnearest

/-- The magnitude is not below a power of ten by more than half a unit of its last digit. -/
def Attains (digits : Nat) (m : Int) (v : ℚ) : Prop := (10 : ℚ) ^ m - 10 ^ (m - digits) / 2 ≤ v

instance (digits : Nat) (m : Int) (v : ℚ) : Decidable (Attains digits m v) :=
  inferInstanceAs (Decidable (_ ≤ _))

theorem attains_iff {m : Int} :
    Attains digits m v ↔ 2 * (10 : ℚ) ^ m ≤ 2 * v + 10 ^ (m - digits) := by
  unfold Attains
  constructor <;> intro h <;> linarith

theorem not_attains {m : Int} (hd : 0 < digits) (h : v < (10 : ℚ) ^ (m - 1)) :
    ¬Attains digits m v := by
  have hsmall : (10 : ℚ) ^ (m - digits) ≤ 10 ^ (m - 1) :=
    zpow_le_zpow_right₀ (by norm_num) (by omega)
  have hten : (10 : ℚ) ^ m = 10 * 10 ^ (m - 1) := by
    rw [← zpow_one_add₀ (by norm_num)]
    congr 1
    omega
  have hpos : (0 : ℚ) < 10 ^ (m - 1) := by positivity
  rw [attains_iff]
  intro hle
  linarith

theorem pow_le_rounded_iff {m : Int} (hd : 0 < digits) (hm : tinyExponent digits ≤ m - digits)
    (hv : 0 ≤ v) : (10 : ℚ) ^ m ≤ rounded digits v ↔ Attains digits m v := by
  rw [attains_iff]
  have hsmall : (10 : ℚ) ^ (m - digits) ≤ 10 ^ (m - 1) :=
    zpow_le_zpow_right₀ (by norm_num) (by omega)
  have hten : (10 : ℚ) ^ m = 10 * 10 ^ (m - 1) := by
    rw [← zpow_one_add₀ (by norm_num)]
    congr 1
    omega
  have hpos : (0 : ℚ) < 10 ^ (m - 1) := by positivity
  rcases hv.eq_or_lt with rfl | hv'
  · rw [rounded_zero]
    constructor <;> intro h <;> linarith
  rcases lt_or_ge v (10 ^ (m - 1)) with hbelow | habove
  · have hlog := (Int.lt_zpow_iff_log_lt (b := 10) (by norm_num) hv').mp hbelow
    have hplace : (10 : ℚ) ^ lastPlace digits v ≤ 10 ^ (m - 1) :=
      zpow_le_zpow_right₀ (by norm_num) (max_le (by omega) (by omega))
    have herror := le_abs_self (rounded digits v - v)
    have hbound := rounded_error digits hv
    constructor <;> intro h <;> linarith
  rcases lt_or_ge v (10 ^ m) with hbelow | habove'
  · -- the last place is the one below the power of ten by so many digits
    have hlog : Int.log 10 v = m - 1 := log_eq_of_between habove (by rwa [sub_add_cancel])
    have hplace : lastPlace digits v = m - digits := by
      unfold lastPlace
      omega
    have hunit : (0 : ℚ) < 10 ^ (m - digits) := by positivity
    have hpow : (10 : ℚ) ^ m = (10 ^ digits : Nat) * 10 ^ (m - digits) := by
      push_cast
      rw [← zpow_natCast, ← zpow_add₀ (by norm_num), add_sub_cancel]
    have heven : 10 ^ digits % 2 = 0 := by
      obtain ⟨k, rfl⟩ : ∃ k, digits = k + 1 := ⟨digits - 1, by omega⟩
      omega
    rw [rounded, hplace, hpow, mul_le_mul_iff_left₀ hunit, Nat.cast_le,
      le_nearest_iff_of_tie (by positivity) (.inr heven), ← mul_le_mul_iff_left₀ hunit, add_mul,
      mul_assoc, mul_assoc, div_mul_cancel₀ _ hunit.ne', one_mul]
  · have hunit : (0 : ℚ) < 10 ^ (m - digits) := by positivity
    exact iff_of_true (pow_le_rounded hd (by omega) habove') (by linarith)

theorem fitted_magnitude (hd : 0 < digits) (c : Nat) (e : Int) :
    magnitude (fitted digits c e).1 (fitted digits c e).2 =
      nearest .toEven ((c : ℚ) / 10 ^ lostDigits digits c e) *
        10 ^ (e + lostDigits digits c e : Int) := by
  rw [fitted, shortened_magnitude hd (lt_pow_lostDigits digits c e), dropDigits_eq]
  rfl

/-- What a calculation ends with is its exact magnitude, rounded. -/
theorem fitted_rounded {c : Nat} (e : Int) (hd : 0 < digits) (hc : c ≠ 0) :
    magnitude (fitted digits c e).1 (fitted digits c e).2 = rounded digits (magnitude c e) := by
  have hcount := digitCount_pos c
  have hplace : lastPlace digits (magnitude c e) =
      max (e + digitCount c - digits) (tinyExponent digits) := by
    rw [lastPlace, log_magnitude hc, adjusted, sub_add_cancel]
  rw [fitted_magnitude hd]
  by_cases hlost : lostDigits digits c e = 0
  · have hkept : lastPlace digits (magnitude c e) ≤ e := by
      unfold lostDigits at hlost
      omega
    rw [rounded_exact hkept, hlost, pow_zero, div_one, nearest_natCast, Nat.cast_zero, Int.add_zero]
    rfl
  · have hlast : lastPlace digits (magnitude c e) = e + lostDigits digits c e := by
      unfold lostDigits at hlost ⊢
      omega
    have hquotient : magnitude c e / 10 ^ (e + lostDigits digits c e : Int) =
        (c : ℚ) / 10 ^ lostDigits digits c e := by
      unfold magnitude
      rw [zpow_add₀ (by norm_num), zpow_natCast, mul_comm, mul_div_mul_left _ _ (by positivity)]
    rw [rounded, hlast, hquotient]

/-- Two magnitudes between the same neighbouring multiples of a number are rounded alike, if the
half of the unit to which they are rounded is a multiple of it too. -/
theorem nearest_congr {k m j count : Nat} {x y : ℚ} (hk : 10 ^ count = 2 * (k * j))
    (hx : (k * m : ℚ) < x ∧ x < k * (m + 1)) (hy : (k * m : ℚ) < y ∧ y < k * (m + 1)) :
    nearest tie (x / 10 ^ count) = nearest tie (y / 10 ^ count) := by
  have hunit : (0 : ℚ) < 10 ^ count := by positivity
  have hpos : 0 < 10 ^ count := by positivity
  have hj : 0 < j := by
    rcases Nat.eq_zero_or_pos j with rfl | hj
    · rw [mul_zero, mul_zero] at hk
      omega
    · exact hj
  have hk' : (10 : ℚ) ^ count = 2 * (k * j) := by exact_mod_cast hk
  have hlow : ((m / j : Nat) : ℚ) * j ≤ m := by exact_mod_cast Nat.div_mul_le_self m j
  have hhigh : (m : ℚ) + 1 ≤ ((m / j : Nat) + 1) * j := by
    have hlt := Nat.lt_mul_div_succ m hj
    have hle : m + 1 ≤ (m / j + 1) * j := by
      rw [mul_comm]
      exact hlt
    exact_mod_cast hle
  have between {z : ℚ} (hz : (k * m : ℚ) < z ∧ z < k * (m + 1)) :
      nearest tie (z / 10 ^ count) = (m / j + 1) / 2 := by
    refine nearest_of_between ?_ ?_
    · rw [← mul_div_assoc, lt_div_iff₀ hunit, hk']
      calc ((m / j : Nat) : ℚ) * (2 * (k * j)) = 2 * (k * ((m / j : Nat) * j)) := by ring
        _ ≤ 2 * (k * m) := by gcongr
        _ < 2 * z := by linarith [hz.1]
    · rw [← mul_div_assoc, div_lt_iff₀ hunit, hk']
      calc 2 * z < 2 * (k * (m + 1)) := by linarith [hz.2]
        _ ≤ 2 * (k * (((m / j : Nat) + 1) * j)) := by gcongr
        _ = ((m / j : Nat) + 1) * (2 * (k * j)) := by ring
  rw [between hx, between hy]

/-- A calculation may use another coefficient, if that and the exact one lie between the same
neighbouring multiples of a number, and digits are lost that make the unit and its half
multiples of it. -/
theorem fitted_between {k m j i c : Nat} {e : Int} {x : ℚ} (hd : 0 < digits)
    (hdigits : digits < digitCount c)
    (hhalf : 10 ^ lostDigits digits c e = 2 * (k * j)) (hlead : 10 ^ (digitCount c - 1) = k * i)
    (hc : k * m < c ∧ c < k * (m + 1)) (hx : (k * m : ℚ) < x ∧ x < k * (m + 1)) :
    magnitude (fitted digits c e).1 (fitted digits c e).2 = rounded digits (x * 10 ^ e) := by
  have hcount := digitCount_pos c
  have hne : c ≠ 0 := by omega
  have hcast : (k * m : ℚ) < c ∧ (c : ℚ) < k * (m + 1) := by exact_mod_cast hc
  have hlow : k * i ≤ k * m := by
    have hle := pow_le_of_lt_digitCount (k := digitCount c - 1) (by omega) hne
    rw [hlead] at hle
    exact Nat.mul_le_mul_left k (Nat.lt_succ_iff.mp (Nat.lt_of_mul_lt_mul_left (hle.trans_lt hc.2)))
  have hhigh : k * (m + 1) ≤ k * i * 10 := by
    have hlt := lt_pow_digitCount c
    rw [← Nat.sub_add_cancel hcount, pow_succ, hlead, mul_assoc] at hlt
    rw [mul_assoc]
    exact Nat.mul_le_mul_left k (Nat.lt_of_mul_lt_mul_left (hc.1.trans hlt))
  have hlead' : (k * i : ℚ) = 10 ^ ((digitCount c - 1 : Nat) : Int) := by
    rw [zpow_natCast]
    exact_mod_cast hlead.symm
  have hlow : (k * i : ℚ) ≤ k * m := by exact_mod_cast hlow
  have hhigh : (k * (m + 1) : ℚ) ≤ k * i * 10 := by exact_mod_cast hhigh
  have hunit : (0 : ℚ) < 10 ^ e := by positivity
  have hlog : Int.log 10 (x * 10 ^ e) = adjusted c e := by
    refine log_eq_of_between ?_ ?_
    · have hexp : adjusted c e = ((digitCount c - 1 : Nat) : Int) + e := by
        unfold adjusted
        omega
      rw [hexp, zpow_add₀ (by norm_num), ← hlead']
      gcongr
      linarith [hx.1]
    · have hexp : adjusted c e + 1 = ((digitCount c - 1 : Nat) : Int) + 1 + e := by
        unfold adjusted
        omega
      rw [hexp, zpow_add₀ (by norm_num), zpow_add_one₀ (by norm_num), ← hlead']
      gcongr
      linarith [hx.2]
  have hlast : lastPlace digits (x * 10 ^ e) = e + lostDigits digits c e := by
    unfold lastPlace lostDigits
    rw [hlog, adjusted]
    omega
  have hquotient : x * 10 ^ e / 10 ^ (e + lostDigits digits c e : Int) =
      x / 10 ^ lostDigits digits c e := by
    rw [zpow_add₀ (by norm_num), zpow_natCast, mul_comm, mul_div_mul_left _ _ hunit.ne']
  rw [fitted_magnitude hd, rounded, hlast, hquotient, nearest_congr hhalf hcast hx]

/-! ### Range and places -/

theorem lt_adjusted_iff {c : Nat} (hc : c ≠ 0) (e m : Int) :
    m < adjusted c e ↔ (10 : ℚ) ^ (m + 1) ≤ magnitude c e := by
  rw [← log_magnitude hc, ← Int.add_one_le_iff]
  exact (Int.zpow_le_iff_le_log (b := 10) (by norm_num) (magnitude_pos hc e)).symm

/-- A calculation ends with a number unless that is out of range. -/
theorem finish_eq_fitted (negative : Bool) {c : Nat} (hd : 0 < digits) (hc : c ≠ 0) (e : Int) :
    finish digits negative c e =
      if (10 : ℚ) ^ (maxExponent + 1) ≤ magnitude (fitted digits c e).1 (fitted digits c e).2 then
        .error .overflow
      else .ok (.finite negative (fitted digits c e).1 (fitted digits c e).2) := by
  have hrounds := lostDigits_rounds hd hc e
  rw [finish_eq hc]
  by_cases hlarge : maxExponent < adjusted c e
  · have hone := (hrounds 1 (maxExponent + 1) (Nat.one_lt_pow hd.ne' (by norm_num))
      (by unfold tinyExponent minExponent maxExponent; omega)).1
      (by rw [magnitude_one]; exact (lt_adjusted_iff hc e _).mp hlarge)
    rw [if_pos hlarge, if_pos (by rwa [magnitude_one] at hone)]
  · rw [if_neg hlarge]
    dsimp only
    change (if maxExponent < adjusted (fitted digits c e).1 (fitted digits c e).2 then _ else _) = _
    by_cases hzero : (fitted digits c e).1 = 0
    · have hrange : adjusted (fitted digits c e).1 (fitted digits c e).2 ≤ maxExponent :=
        lostDigits_zero hd hc hzero
      rw [if_neg (not_lt.mpr hrange), if_neg]
      · rfl
      · rw [hzero, magnitude_zero, not_le]
        positivity
    · simp only [lt_adjusted_iff hzero]
      rfl

/-- A number of units in the last place. -/
theorem magnitude_mul_places (n places : Nat) : magnitude n (-places) * 10 ^ places = n := by
  unfold magnitude
  rw [zpow_neg, zpow_natCast, mul_assoc, inv_mul_cancel₀ (by positivity), mul_one]

/-- The coefficient that a number gets with its places. -/
theorem quantized_eq (c : Nat) (e : Int) (places : Nat) :
    (if -(places : Int) ≤ e then c * Nat.pow 10 (e - -(places : Int)).toNat
      else dropDigits .awayFromZero c (-(places : Int) - e).toNat) =
      nearest .awayFromZero (magnitude c e * 10 ^ places) := by
  split_ifs with hle
  · rw [← magnitude_scaled hle, magnitude_mul_places, nearest_natCast]
    rfl
  · have hexp : e = -(places : Int) - ((-(places : Int) - e).toNat : Int) := by omega
    have hvalue : magnitude c e * 10 ^ places = c / 10 ^ (-(places : Int) - e).toNat := by
      generalize (-(places : Int) - e).toNat = k at hexp
      rw [hexp, ← magnitude_mul_places c places]
      unfold magnitude
      rw [zpow_sub₀ (by norm_num), zpow_natCast]
      ring
    rw [dropDigits_eq, hvalue]

/-- The units that a number gets with the places that are kept, halves away from zero. -/
def unitsOf (digits places c : Nat) (e : Int) : Nat :=
  nearest .awayFromZero (magnitude c e * 10 ^ keptPlaces digits places)

/-- A number whose first digit stands too far before the last place has too many units. -/
theorem pow_le_nearest {c kept : Nat} {e : Int} (hc : c ≠ 0)
    (h : (digits : Int) < digitCount c + (e - -(kept : Int))) :
    10 ^ digits ≤ nearest .awayFromZero (magnitude c e * 10 ^ kept) := by
  have hpow : (10 : ℚ) ^ ((digits : Int) - kept - 1 + 1) ≤ magnitude c e :=
    (lt_adjusted_iff hc e _).mp (by unfold adjusted; omega)
  have hscaled : ((10 ^ digits : Nat) : ℚ) ≤ magnitude c e * 10 ^ kept := by
    rw [sub_add_cancel, zpow_sub₀ (by norm_num), zpow_natCast, zpow_natCast,
      div_le_iff₀ (by positivity)] at hpow
    exact_mod_cast hpow
  have hle := nearest_mono .awayFromZero (Nat.cast_nonneg _) hscaled
  rwa [nearest_natCast] at hle

/-- A number is quantized to the nearest one, halves away from zero, if that has not too many
digits and is in range. -/
theorem quantize_eq {kept : Nat} (hd : 0 < digits)
    (htiny : tinyExponent digits ≤ -(kept : Int)) (negative : Bool) (c : Nat) (e : Int) :
    let n := nearest .awayFromZero (magnitude c e * 10 ^ kept)
    quantize digits (-kept) (.finite negative c e) =
      if n < 10 ^ digits ∧ adjusted n (-kept) ≤ maxExponent then
        .ok (.finite negative n (-kept))
      else .error .invalidOperation := by
  intro n
  have hn : nearest .awayFromZero (magnitude c e * 10 ^ kept) = n := rfl
  clear_value n
  have hhigh : -(kept : Int) ≤ maxExponent := by
    unfold maxExponent
    omega
  have hgrid {m : Nat} (hfits : m < 10 ^ digits) (hrange : adjusted m (-kept) ≤ maxExponent) :
      finish digits negative m (-kept) = .ok (.finite negative m (-kept)) :=
    finish_grid negative hd hfits htiny hhigh hrange
  unfold quantize
  dsimp -zeta only
  rw [if_neg (by omega)]
  by_cases hc : c = 0
  · have hzero : n = 0 := by
      rw [← hn, hc, magnitude_zero, zero_mul]
      exact_mod_cast nearest_natCast .awayFromZero 0
    have hfits : 0 < 10 ^ digits := by positivity
    have hrange : adjusted 0 (-kept) ≤ maxExponent := adjusted_zero_le (by omega)
    rw [if_pos hc, hzero, if_pos ⟨hfits, hrange⟩, hgrid hfits hrange]
  rw [if_neg hc]
  by_cases hlarge : (digits : Int) < digitCount c + (e - -(kept : Int))
  · rw [if_pos hlarge, if_neg fun h => absurd h.1 (not_lt.mpr (hn ▸ pow_le_nearest hc hlarge))]
  rw [if_neg hlarge, quantized_eq, hn]
  dsimp only
  by_cases hfits : n < 10 ^ digits ∧ adjusted n (-kept) ≤ maxExponent
  · have hcount := (digitCount_le_iff hd).mpr hfits.1
    rw [if_pos hfits, if_neg (by omega), hgrid hfits.1 hfits.2]
  · rw [if_neg hfits, if_pos]
    by_contra hrange
    rw [not_or, not_lt, not_lt] at hrange
    exact hfits ⟨(digitCount_le_iff hd).mp hrange.2, hrange.1⟩

/-- A number gets its places, halves away from zero, if they fit. -/
theorem toPlaces_eq (hd : 0 < digits) (negative : Bool) (c : Nat) (e : Int) :
    toPlaces digits places (.finite negative c e) =
      if Fits digits places (unitsOf digits places c e) then
        .ok (.finite negative (unitsOf digits places c e) (-keptPlaces digits places))
      else .error .invalidOperation := by
  by_cases hfew : places ≤ 2 * (maxExponent.toNat + digits)
  · have hfits {n : Nat} : Fits digits places n ↔
        n < 10 ^ digits ∧ adjusted n (-keptPlaces digits places) ≤ maxExponent :=
      ⟨fun h => ⟨h.fits, h.range⟩, fun h => ⟨hfew, h.1, h.2⟩⟩
    rw [toPlaces_eq_quantize hfew, quantize_eq hd (tinyExponent_le_kept digits places)]
    exact if_congr hfits.symm rfl rfl
  · rw [toPlaces_excess hfew, if_neg fun h => hfew h.few]

end DecimalScript.Decimal
