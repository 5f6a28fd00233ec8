import DecimalScript.Proofs.Halves
import Mathlib

/-! The two roundings at the end of a calculation: to the digits that are worked with, and from
there to the places. What comes out is a matter of the exact magnitude alone; so sums,
products and quotients are one case. -/

namespace DecimalScript.Decimal

variable {digits places n : Nat} {v y : ℚ}

/-! ### Both roundings -/

/-- The units in the last place of a magnitude that is rounded to the digits and then to the
places. -/
def roundedUnits (digits places : Nat) (v : ℚ) : Nat :=
  nearest .awayFromZero (rounded digits v * 10 ^ places)

/-- What a calculation with the exact magnitude gives. -/
def settled (digits places : Nat) (negative : Bool) (v : ℚ) : Outcome :=
  let kept := keptPlaces digits places
  if (10 : ℚ) ^ (maxExponent + 1) ≤ rounded digits v then .error .overflow
  else if Fits digits places (roundedUnits digits kept v) then
    .ok (.finite negative (roundedUnits digits kept v) (-kept))
  else .error .invalidOperation

theorem finish_settled {c : Nat} {e : Int} (hd : 0 < digits) (negative : Bool)
    (hzero : c = 0 → v = 0)
    (h : c ≠ 0 → magnitude (fitted digits c e).1 (fitted digits c e).2 = rounded digits v) :
    (finish digits negative c e >>= toPlaces digits places) =
      settled digits places negative v := by
  unfold settled roundedUnits
  extract_lets kept
  by_cases hc : c = 0
  · have hrange : ¬(10 : ℚ) ^ (maxExponent + 1) ≤ rounded digits v := by
      rw [hzero hc, rounded_zero, not_le]
      positivity
    rw [if_neg hrange, hzero hc, rounded_zero]
    subst hc
    refine (toPlaces_eq hd negative 0 _).trans ?_
    rw [unitsOf, magnitude_zero]
  · rw [finish_eq_fitted negative hd hc, h hc]
    split
    · rfl
    · refine (toPlaces_eq hd negative _ _).trans ?_
      rw [unitsOf, h hc]

theorem finish_magnitude (hd : 0 < digits) (negative : Bool) (c : Nat) (e : Int) :
    (finish digits negative c e >>= toPlaces digits places) =
      settled digits places negative (magnitude c e) :=
  finish_settled hd negative (fun hzero => by rw [hzero, magnitude_zero]) (fitted_rounded e hd)

theorem mul_settled (hd : 0 < digits) (s : Bool) (c : Nat) (e : Int) (t : Bool) (d : Nat)
    (f : Int) :
    (mul digits (.finite s c e) (.finite t d f) >>= toPlaces digits places) =
      settled digits places (s != t) (magnitude c e * magnitude d f) := by
  rw [← magnitude_mul]
  exact finish_magnitude hd (s != t) (c * d) (e + f)

/-- A quotient with a last digit of one for the rest is rounded as the exact one. -/
theorem fitted_quotient {num den : Nat} {g : Int} (hd : 0 < digits) (hden : 0 < den)
    (hlead : 10 ^ digits ≤ num / den) (hrest : num % den ≠ 0) :
    magnitude (fitted digits (num / den * 10 + 1) g).1 (fitted digits (num / den * 10 + 1) g).2 =
      rounded digits ((num : ℚ) / den * 10 ^ (g + 1)) := by
  have hdigits : digits + 1 < digitCount (num / den * 10 + 1) := by
    rw [← not_le, digitCount_le_iff (by omega), not_lt, pow_succ]
    omega
  have hlost : 2 ≤ lostDigits digits (num / den * 10 + 1) g := by
    unfold lostDigits
    omega
  obtain ⟨j, hj⟩ := Nat.exists_eq_add_of_le' hlost
  obtain ⟨i, hi⟩ := Nat.exists_eq_add_of_le' (show 2 ≤ digitCount (num / den * 10 + 1) by omega)
  have hvalue : (num : ℚ) / den * 10 ^ (g + 1) = 10 * ((num : ℚ) / den) * 10 ^ g := by
    rw [zpow_add_one₀ (by norm_num)]
    ring
  have hden' : (0 : ℚ) < den := by exact_mod_cast hden
  have hlow : ((num / den : Nat) : ℚ) < (num : ℚ) / den := by
    have hsum := Nat.div_add_mod' num den
    rw [lt_div_iff₀ hden']
    exact_mod_cast (show num / den * den < num by omega)
  have hhigh : (num : ℚ) / den < (num / den : Nat) + 1 := by
    rw [div_lt_iff₀ hden', mul_comm]
    exact_mod_cast Nat.lt_mul_div_succ num hden
  rw [hvalue]
  refine fitted_between (k := 10) (m := num / den) (j := 5 * 10 ^ j) (i := 10 ^ i) hd (by omega)
    ?_ ?_ (by omega) ⟨?_, ?_⟩
  · rw [hj]
    ring
  · rw [hi, Nat.add_sub_assoc (by norm_num)]
    ring
  · push_cast
    linarith
  · push_cast
    linarith

theorem div_settled {s t : Bool} {c d : Nat} {e f : Int} (hd : 0 < digits) (hdivisor : d ≠ 0) :
    (div digits (.finite s c e) (.finite t d f) >>= toPlaces digits places) =
      settled digits places (s != t) (magnitude c e / magnitude d f) := by
  have hdiv : div digits (.finite s c e) (.finite t d f) =
      if c = 0 then finish digits (s != t) 0 (e - f) else divFinite digits (s != t) c e d f :=
    if_neg hdivisor
  rw [hdiv]
  split_ifs with hc
  · rw [finish_magnitude hd, hc, magnitude_zero, magnitude_zero, zero_div]
  · obtain ⟨c', e', heq, hvalue⟩ | ⟨num, den, g, hden, hlead, hrest, heq, hvalue⟩ :=
      divFinite_cases digits (s != t) (e := e) (f := f) hc hdivisor
    · rw [heq, ← hvalue, finish_magnitude hd]
    · rw [heq, ← hvalue]
      exact finish_settled hd _ (fun hzero => absurd hzero (Nat.succ_ne_zero _))
        fun _ => fitted_quotient hd hden hlead hrest

/-- A unit that stands for a number below it changes nothing in the rounding. -/
theorem fitted_far {h c : Nat} {g : Int} {x : ℚ} (hd : 0 < digits) (hten : 10 ∣ h)
    (hlead : 10 ^ (digits + 1) ≤ h)
    (hside : c = h + 1 ∧ (h : ℚ) < x ∧ x < h + 1 ∨ c + 1 = h ∧ (h : ℚ) < x + 1 ∧ x < h) :
    magnitude (fitted digits c g).1 (fitted digits c g).2 = rounded digits (x * 10 ^ g) := by
  have hdigits : digits < digitCount c := by
    rw [← not_le, digitCount_le_iff hd, not_lt]
    rw [pow_succ] at hlead
    omega
  have hlost : 1 ≤ lostDigits digits c g := by
    unfold lostDigits
    omega
  obtain ⟨j, hj⟩ := Nat.exists_eq_add_of_le' hlost
  obtain ⟨i, hi⟩ := Nat.exists_eq_add_of_le' (show 2 ≤ digitCount c by omega)
  have hhalf : 10 ^ lostDigits digits c g = 2 * (5 * 10 ^ j) := by
    rw [hj]
    ring
  have hfirst : 10 ^ (digitCount c - 1) = 5 * (2 * 10 ^ i) := by
    rw [hi, Nat.add_sub_assoc (by norm_num)]
    ring
  obtain ⟨q, rfl⟩ := hten
  rcases hside with ⟨hc, hlow, hhigh⟩ | ⟨hc, hlow, hhigh⟩ <;> push_cast at hlow hhigh
  · refine fitted_between (m := 2 * q) hd hdigits hhalf hfirst (by omega) ⟨?_, ?_⟩ <;> push_cast <;>
      linarith
  · have hq : 1 ≤ q := by omega
    refine fitted_between (m := 2 * q - 1) hd hdigits hhalf hfirst (by omega) ?_
    rw [Nat.cast_sub (by omega)]
    constructor <;> push_cast <;> linarith

theorem finishSum_signed (negative both : Bool) {c : Nat} (hc : c ≠ 0) (g : Int) :
    finishSum digits both (signed negative c) g = finish digits negative c g := by
  have hne : signed negative c ≠ 0 := by
    rw [← Int.natAbs_ne_zero, natAbs_signed]
    exact hc
  have hsign : decide (signed negative c < 0) = negative := by
    cases negative with
    | false => exact decide_eq_false (by simp [signed])
    | true => exact decide_eq_true (by simp [signed, Nat.pos_of_ne_zero hc])
  unfold finishSum
  rw [if_neg hne, natAbs_signed, hsign]

/-- The sign of a sum. A sum of zero has the sign of the operands where they agree. -/
def sumNegative (both : Bool) (v : ℚ) : Bool := if v = 0 then both else v < 0

theorem sumNegative_of_pos {both : Bool} {x : ℚ} (negative : Bool) (hx : 0 < x) :
    sumNegative both (if negative then -x else x) = negative := by
  unfold sumNegative
  cases negative with
  | false => simp [hx.ne', hx.le]
  | true => simp [hx.ne', hx]

/-- The place of the unit leaves more digits above it than are worked with. -/
theorem pow_le_far (digits : Nat) {high : Nat} (hhigh : high ≠ 0) (he : Int) :
    10 ^ (digits + 1) ≤ high * 10 ^ (he - farPlace digits high he).toNat := by
  have hcount := digitCount_pos high
  have hlow := pow_le_of_lt_digitCount (k := digitCount high - 1) (by omega) hhigh
  have hexp : digits + 1 ≤ digitCount high - 1 + (he - farPlace digits high he).toNat := by
    unfold farPlace
    split <;> omega
  calc 10 ^ (digits + 1) ≤ 10 ^ (digitCount high - 1 + (he - farPlace digits high he).toNat) :=
        Nat.pow_le_pow_right (by norm_num) hexp
    _ = 10 ^ (digitCount high - 1) * 10 ^ (he - farPlace digits high he).toNat := pow_add ..
    _ ≤ high * 10 ^ (he - farPlace digits high he).toNat := Nat.mul_le_mul_right _ hlow

/-- A sum in which a unit stands for a number below it. -/
theorem finishSum_far {hs ls : Bool} {h : Nat} {g : Int} {x : ℚ} (hd : 0 < digits) (hten : 10 ∣ h)
    (hlead : 10 ^ (digits + 1) ≤ h) (hpos : 0 < x) (hsmall : x < 1)
    (hv : v = (signed hs h + signed ls 1 * x) * 10 ^ g) :
    (finishSum digits (hs && ls) (signed hs h + signed ls 1) g >>= toPlaces digits places) =
      settled digits places (sumNegative (hs && ls) v) |v| := by
  have hh : 1 < h := (Nat.one_lt_pow (by omega) (by norm_num)).trans_le hlead
  have hh' : (1 : ℚ) < h := by exact_mod_cast hh
  obtain ⟨c, y, hy, hsum, hvalue, hside⟩ : ∃ (c : Nat) (y : ℚ), 0 < y ∧
      signed hs h + signed ls 1 = signed hs c ∧ v = (if hs then -(y * 10 ^ g) else y * 10 ^ g) ∧
      (c = h + 1 ∧ (h : ℚ) < y ∧ y < h + 1 ∨ c + 1 = h ∧ (h : ℚ) < y + 1 ∧ y < h) := by
    by_cases hsame : hs = ls
    · subst hsame
      refine ⟨h + 1, h + x, by linarith, ?_, ?_, .inl ⟨rfl, by linarith, by linarith⟩⟩
      · unfold signed
        split <;> push_cast <;> ring
      · rw [hv]
        unfold signed
        split <;> push_cast <;> ring
    · have hother : ls = !hs := by cases hs <;> cases ls <;> simp_all
      subst hother
      refine ⟨h - 1, h - x, by linarith, ?_, ?_, .inr ⟨by omega, by linarith, by linarith⟩⟩
      · cases hs <;> simp [signed] <;> omega
      · rw [hv]
        cases hs <;> simp only [signed, Bool.not_true, Bool.not_false, Bool.false_eq_true, if_true,
          if_false] <;> push_cast <;> ring
  have hc : c ≠ 0 := by omega
  have hy' : 0 < y * 10 ^ g := by positivity
  have habs : |v| = y * 10 ^ g := by
    rw [hvalue]
    split
    · rw [abs_neg, abs_of_pos hy']
    · exact abs_of_pos hy'
  rw [hsum, finishSum_signed hs _ hc, habs, hvalue, sumNegative_of_pos hs hy']
  exact finish_settled hd hs (fun hzero => absurd hzero hc) fun _ => fitted_far hd hten hlead hside

theorem addAligned_settled {hs ls : Bool} {high low : Nat} {he le : Int} (hd : 0 < digits)
    (hle : le ≤ he) :
    (addAligned digits hs high he ls low le >>= toPlaces digits places) =
      settled digits places
        (sumNegative (hs && ls) (signedMagnitude hs high he + signedMagnitude ls low le))
        |signedMagnitude hs high he + signedMagnitude ls low le| := by
  rcases addAligned_cases digits hs ls high low hle with
    ⟨n, g, heq, hvalue⟩ | ⟨hhigh, hlow, hfar, heq⟩
  · have hunit : (0 : ℚ) < 10 ^ g := by positivity
    have hsign : sumNegative (hs && ls) (n * 10 ^ g) = if n = 0 then hs && ls else n < 0 := by
      unfold sumNegative
      simp only [mul_eq_zero_iff_right hunit.ne', Rat.mul_neg_iff_of_pos_right hunit,
        Int.cast_eq_zero, Int.cast_lt_zero]
    rw [heq, ← hvalue, hsign, ← magnitude_natAbs]
    exact finish_magnitude hd _ n.natAbs g
  · have hplace := farPlace_lt digits high he
    have hunit : (0 : ℚ) < 10 ^ farPlace digits high he := by positivity
    have hten : 10 ∣ high * 10 ^ (he - farPlace digits high he).toNat :=
      (dvd_pow_self 10 (by omega)).mul_left high
    have hsmall : magnitude low le < 10 ^ farPlace digits high he :=
      (magnitude_lt_pow low le).trans_le (zpow_le_zpow_right₀ (by norm_num) (by omega))
    rw [heq]
    refine finishSum_far hd hten (pow_le_far digits hhigh he)
      (div_pos (magnitude_pos hlow le) hunit) ((div_lt_one hunit).mpr hsmall) ?_
    have hone : signedMagnitude ls low le =
        signed ls 1 * (magnitude low le / 10 ^ farPlace digits high he) *
          10 ^ farPlace digits high he := by
      rw [mul_assoc, div_mul_cancel₀ _ hunit.ne', signedMagnitude_eq]
      cases ls <;> simp [signed]
    rw [← signed_scaled hplace.le, hone, add_mul]
    rfl

/-- Both roundings of a sum. -/
theorem add_settled (hd : 0 < digits) (s : Bool) (c : Nat) (e : Int) (t : Bool) (d : Nat)
    (f : Int) :
    (add digits (.finite s c e) (.finite t d f) >>= toPlaces digits places) =
      settled digits places
        (sumNegative (s && t) (signedMagnitude s c e + signedMagnitude t d f))
        |signedMagnitude s c e + signedMagnitude t d f| := by
  have hadd : add digits (.finite s c e) (.finite t d f) =
      if f ≤ e then addAligned digits s c e t d f else addAligned digits t d f s c e := rfl
  rw [hadd]
  split_ifs with hle
  · exact addAligned_settled hd hle
  · rw [Bool.and_comm, add_comm (signedMagnitude s c e)]
    exact addAligned_settled hd (by omega)

/-! ### Rounding once and twice -/

/-- The units in the last place of a magnitude that is rounded once. -/
def once (places : Nat) (v : ℚ) : Nat := nearest .awayFromZero (v * 10 ^ places)

/-- The digits behind the last place that the first rounding keeps. -/
def spare (digits places : Nat) (v : ℚ) : Nat := (-places - lastPlace digits v).toNat

/-- The magnitude is short of a half by no more than half a unit of its last digit, so the first
rounding takes it to the half and the second up from there. -/
def Rises (digits places : Nat) (v : ℚ) : Prop :=
  spare digits places v ≠ 0 ∧
    (2 * once places v + 1 < 2 * (v * 10 ^ places) + 1 / 10 ^ spare digits places v ∨
      2 * once places v + 1 = 2 * (v * 10 ^ places) + 1 / 10 ^ spare digits places v ∧
        spare digits places v ≠ 1)

/-- The first rounding ends in the last place, where it takes a half down to an even number. -/
def Falls (digits places : Nat) (v : ℚ) : Prop :=
  spare digits places v = 0 ∧ 2 * (once places v : ℚ) = 2 * (v * 10 ^ places) + 1 ∧
    once places v % 2 = 1

instance (digits places : Nat) (v : ℚ) : Decidable (Rises digits places v) :=
  inferInstanceAs (Decidable (_ ∧ _))

instance (digits places : Nat) (v : ℚ) : Decidable (Falls digits places v) :=
  inferInstanceAs (Decidable (_ ∧ _))

/-- The units in the last place of a magnitude that is rounded twice. -/
def twice (digits places : Nat) (v : ℚ) : Nat :=
  if Rises digits places v then once places v + 1
  else if Falls digits places v then once places v - 1
  else once places v

theorem pow_places (digits places : Nat) :
    (10 : ℚ) ^ (digits - places : Int) * 10 ^ places = (10 ^ digits : Nat) := by
  rw [zpow_sub₀ (by norm_num), zpow_natCast, zpow_natCast, div_mul_cancel₀ _ (by positivity)]
  norm_cast

theorem pow_le_roundedUnits {k : Nat} (h : (10 : ℚ) ^ (k - places : Int) ≤ rounded digits v) :
    10 ^ k ≤ roundedUnits digits places v := by
  have hscaled : ((10 ^ k : Nat) : ℚ) ≤ rounded digits v * 10 ^ places := by
    rw [← pow_places]
    gcongr
  have hle := nearest_mono .awayFromZero (Nat.cast_nonneg _) hscaled
  rwa [nearest_natCast] at hle

/-- A number with few enough units keeps all its places in the first rounding. -/
theorem lastPlace_le (hd : 0 < digits) (hv : 0 < v) (htiny : tinyExponent digits ≤ -places)
    (h : roundedUnits digits places v < 10 ^ digits) : lastPlace digits v ≤ -places := by
  by_contra hlt
  have hlog : (digits : Int) - places ≤ Int.log 10 v := by
    unfold lastPlace at hlt
    omega
  have hpow := (Int.zpow_le_iff_le_log (b := 10) (by norm_num) hv).mpr hlog
  exact absurd h (not_lt.mpr (pow_le_roundedUnits (pow_le_rounded hd (by omega) hpow)))

/-- The second rounding sees the whole number of the first one's last digits. -/
theorem roundedUnits_of_le (h : lastPlace digits v ≤ -places) :
    roundedUnits digits places v =
      nearest .awayFromZero ((nearest .toEven (v * 10 ^ places * 10 ^ spare digits places v) : ℚ) /
        10 ^ spare digits places v) := by
  have hplace : lastPlace digits v = -(places : Int) - spare digits places v := by
    unfold spare
    omega
  have hunit : (10 : ℚ) ^ lastPlace digits v = (10 ^ places * 10 ^ spare digits places v)⁻¹ := by
    rw [hplace, sub_eq_add_neg, zpow_add₀ (by norm_num), zpow_neg, zpow_neg, zpow_natCast,
      zpow_natCast, mul_inv]
  have hquotient : v / 10 ^ lastPlace digits v = v * 10 ^ places * 10 ^ spare digits places v := by
    rw [hunit, div_inv_eq_mul, mul_assoc]
  unfold roundedUnits rounded
  rw [hquotient, hunit]
  congr 1
  field_simp

theorem le_nearest_twice_iff {k : Nat} (hk : k ≠ 0) (hy : 0 ≤ y) :
    n ≤ nearest .awayFromZero ((nearest .toEven (y * 10 ^ k) : ℚ) / 10 ^ k) ↔
      2 * (n : ℚ) < 2 * y + 1 + 1 / 10 ^ k ∨ 2 * (n : ℚ) = 2 * y + 1 + 1 / 10 ^ k ∧ k ≠ 1 := by
  rcases n with - | n
  · refine iff_of_true (Nat.zero_le _) (.inl ?_)
    rw [Nat.cast_zero, mul_zero]
    positivity
  obtain ⟨j, rfl⟩ : ∃ j, k = j + 1 := Nat.exists_eq_succ_of_ne_zero hk
  have hhalf : (0 : ℚ) < 5 * 10 ^ j := by positivity
  have hunit : (10 : ℚ) ^ (j + 1) = 2 * (5 * 10 ^ j) := by ring
  -- the half below the number is a whole number of last digits
  have hwhole : 2 * ((n + 1 : Nat) : ℚ) ≤
      2 * ((nearest .toEven (y * 10 ^ (j + 1)) : ℚ) / 10 ^ (j + 1)) + 1 ↔
      (2 * n + 1) * (5 * 10 ^ j) ≤ nearest .toEven (y * 10 ^ (j + 1)) := by
    rw [← Nat.cast_le (α := ℚ), hunit, ← mul_div_assoc, mul_div_mul_left _ _ two_ne_zero]
    push_cast
    rw [← le_div_iff₀ hhalf]
    constructor <;> intro h <;> linarith
  have heven : (2 * n + 1) * (5 * 10 ^ j) % 2 = 0 ↔ j + 1 ≠ 1 := by
    rw [← Nat.even_iff, Nat.even_mul, Nat.even_mul, Nat.even_pow]
    simp [show ¬Even 5 by decide, show Even 10 by decide]
  have hscaled : 2 * (((2 * n + 1) * (5 * 10 ^ j) : Nat) : ℚ) = (2 * n + 1) * 10 ^ (j + 1) := by
    push_cast
    ring
  have hone : (2 * y + 1 / 10 ^ (j + 1)) * 10 ^ (j + 1) = 2 * (y * 10 ^ (j + 1)) + 1 := by
    field_simp
  have hpos : (0 : ℚ) < 10 ^ (j + 1) := by positivity
  rw [le_nearest_iff_of_tie (by positivity) (.inl rfl), hwhole, le_nearest_iff _ (by positivity),
    heven, or_iff_right (a := Tie.toEven = Tie.awayFromZero) (by simp), hscaled, ← hone,
    mul_lt_mul_iff_left₀ hpos, mul_left_inj' hpos.ne']
  push_cast
  constructor <;> rintro (h | ⟨h, hj⟩)
  · exact .inl (by linarith)
  · exact .inr ⟨by linarith, hj⟩
  · exact .inl (by linarith)
  · exact .inr ⟨by linarith, hj⟩

theorem once_le (places : Nat) (hv : 0 ≤ v) : 2 * (once places v : ℚ) ≤ 2 * (v * 10 ^ places) + 1 :=
  (le_nearest_iff_of_tie (by positivity) (.inl rfl)).mp le_rfl

theorem lt_once_succ (places : Nat) (hv : 0 ≤ v) :
    2 * (v * 10 ^ places) < 2 * once places v + 1 := by
  by_contra hle
  have h : once places v + 1 ≤ once places v :=
    (le_nearest_iff_of_tie (by positivity) (.inl rfl)).mpr (by push_cast; linarith)
  omega

/-- Where the first rounding ends in the last place, the second does nothing. -/
theorem nearest_even_eq (hv : 0 ≤ v) (hspare : spare digits places v = 0) :
    nearest .toEven (v * 10 ^ places) =
      if Falls digits places v then once places v - 1 else once places v := by
  have hlow := once_le places hv
  have hhigh := lt_once_succ places hv
  have hnonneg : 0 ≤ v * 10 ^ places := by positivity
  refine eq_of_forall_le_iff fun n => ?_
  rw [le_nearest_iff _ hnonneg, or_iff_right (a := Tie.toEven = Tie.awayFromZero) (by simp)]
  rcases hlow.eq_or_lt with heq | hlt
  · have hfalls : Falls digits places v ↔ once places v % 2 = 1 := by simp [Falls, hspare, heq]
    simp only [← heq, hfalls]
    norm_cast
    split_ifs <;> omega
  · rw [if_neg fun h => hlt.ne h.2.1]
    constructor
    · intro h
      have hlt : (n : ℚ) < once places v + 1 := by rcases h with h | ⟨h, -⟩ <;> linarith
      exact Nat.lt_succ_iff.mp (by exact_mod_cast hlt)
    · intro h
      have hle : (n : ℚ) ≤ once places v := by exact_mod_cast h
      exact .inl (by linarith)

theorem lt_nearest_twice_iff (hv : 0 ≤ v) (hspare : spare digits places v ≠ 0) :
    once places v + 1 ≤ nearest .awayFromZero
      ((nearest .toEven (v * 10 ^ places * 10 ^ spare digits places v) : ℚ) /
        10 ^ spare digits places v) ↔ Rises digits places v := by
  rw [le_nearest_twice_iff hspare (by positivity), Rises, and_iff_right hspare]
  push_cast
  constructor <;> rintro (h | ⟨h, hk⟩)
  · exact .inl (by linarith)
  · exact .inr ⟨by linarith, hk⟩
  · exact .inl (by linarith)
  · exact .inr ⟨by linarith, hk⟩

theorem nearest_twice_eq (hv : 0 ≤ v) (hspare : spare digits places v ≠ 0) :
    nearest .awayFromZero
      ((nearest .toEven (v * 10 ^ places * 10 ^ spare digits places v) : ℚ) /
        10 ^ spare digits places v) =
      if Rises digits places v then once places v + 1 else once places v := by
  have hlow := once_le places hv
  have hhigh := lt_once_succ places hv
  have hsmall : (1 : ℚ) / 10 ^ spare digits places v ≤ 1 :=
    div_le_one_of_le₀ (one_le_pow₀ (by norm_num)) (by positivity)
  have hpos : (0 : ℚ) < 1 / 10 ^ spare digits places v := by positivity
  have hmin := (le_nearest_twice_iff (n := once places v) hspare
    (y := v * 10 ^ places) (by positivity)).mpr (.inl (by linarith))
  have hmax : ¬once places v + 2 ≤ _ := fun h => by
    rcases (le_nearest_twice_iff hspare (y := v * 10 ^ places) (by positivity)).mp h with
      h | ⟨h, -⟩ <;> push_cast at h <;> linarith
  have hrises := lt_nearest_twice_iff hv hspare
  split_ifs with h
  · rw [← hrises] at h
    omega
  · rw [← hrises] at h
    omega

theorem roundedUnits_zero (digits places : Nat) : roundedUnits digits places 0 = 0 := by
  rw [roundedUnits, rounded_zero, zero_mul]
  exact_mod_cast nearest_natCast .awayFromZero 0

theorem once_zero (places : Nat) : once places 0 = 0 := by
  rw [once, zero_mul]
  exact_mod_cast nearest_natCast .awayFromZero 0

theorem twice_zero (digits places : Nat) : twice digits places 0 = 0 := by
  have hrises : ¬Rises digits places 0 := by
    rintro ⟨hspare, h⟩
    have hsmall : (1 : ℚ) / 10 ^ spare digits places 0 < 1 :=
      (div_lt_one (by positivity)).mpr (one_lt_pow₀ (by norm_num) hspare)
    rw [once_zero] at h
    rcases h with h | ⟨h, -⟩ <;> push_cast at h <;> linarith
  have hfalls : ¬Falls digits places 0 := by
    rintro ⟨-, h, -⟩
    rw [once_zero] at h
    norm_num at h
  rw [twice, if_neg hrises, if_neg hfalls, once_zero]

/-- Both roundings are one, except next to a half. -/
theorem roundedUnits_eq_twice (hv : 0 ≤ v) (h : 0 < v → lastPlace digits v ≤ -places) :
    roundedUnits digits places v = twice digits places v := by
  rcases hv.eq_or_lt with rfl | hpos
  · rw [roundedUnits_zero, twice_zero]
  rw [twice, roundedUnits_of_le (h hpos)]
  by_cases hspare : spare digits places v = 0
  · rw [if_neg fun h => h.1 hspare, ← nearest_even_eq hv hspare, hspare, pow_zero, mul_one, div_one,
      nearest_natCast]
  · rw [nearest_twice_eq hv hspare, if_neg (c := Falls digits places v) fun h => hspare h.1]

/-- Together the roundings are off by little more than half a unit. -/
theorem roundedUnits_error (hv : 0 ≤ v) (h : 0 < v → lastPlace digits v ≤ -places) :
    20 * |(roundedUnits digits places v : ℚ) - v * 10 ^ places| ≤ 11 := by
  rcases hv.eq_or_lt with rfl | hpos
  · rw [roundedUnits_zero]
    norm_num
  have hnonneg : 0 ≤ v * 10 ^ places := by positivity
  rw [roundedUnits_of_le (h hpos)]
  generalize v * 10 ^ places = y at *
  by_cases hspare : spare digits places v = 0
  · have herror := nearest_error .toEven hnonneg
    rw [hspare, pow_zero, mul_one, div_one, nearest_natCast]
    linarith
  · have hunit : (10 : ℚ) ≤ 10 ^ spare digits places v := le_self_pow₀ (by norm_num) hspare
    generalize (10 : ℚ) ^ spare digits places v = u at *
    have hfirst := nearest_error .toEven (v := y * u) (by positivity)
    have hsecond := nearest_error .awayFromZero
      (v := (nearest .toEven (y * u) : ℚ) / u) (by positivity)
    have hshift : 20 * |(nearest .toEven (y * u) : ℚ) / u - y| ≤ 1 := by
      have hquotient : (nearest .toEven (y * u) : ℚ) / u - y =
          (nearest .toEven (y * u) - y * u) / u := by
        field_simp
      rw [hquotient, abs_div, abs_of_pos (by linarith : 0 < u), ← mul_div_assoc,
        div_le_one (by linarith)]
      linarith
    have htriangle := abs_sub_le (nearest .awayFromZero ((nearest .toEven (y * u) : ℚ) / u) : ℚ)
      ((nearest .toEven (y * u) : ℚ) / u) y
    linarith

/-- A number of units stays as it is. -/
theorem roundedUnits_magnitude (h : n ≠ 0 → lastPlace digits (magnitude n (-places)) ≤ -places) :
    roundedUnits digits places (magnitude n (-places)) = n := by
  by_cases hn : n = 0
  · rw [hn, magnitude_zero, roundedUnits_zero]
  · rw [roundedUnits, rounded_exact (h hn), magnitude_mul_places, nearest_natCast]

/-- There are too many units from half a unit below the power of ten on, as if the magnitude were
rounded once. -/
theorem pow_le_roundedUnits_iff (hd : 0 < digits) (hv : 0 ≤ v)
    (htiny : tinyExponent digits ≤ -places) :
    10 ^ digits ≤ roundedUnits digits places v ↔ Attains digits (digits - places) v := by
  have hexp : (digits : Int) - places - digits = -places := by omega
  have hrounded := pow_le_rounded_iff (m := digits - places) hd (by omega) hv
  refine ⟨fun h => ?_, fun h => pow_le_roundedUnits (hrounded.mpr h)⟩
  rw [attains_iff, hexp]
  have hunit : (0 : ℚ) < 10 ^ places := by positivity
  have hone : (10 : ℚ) ^ (-places : Int) * 10 ^ places = 1 := by
    rw [zpow_neg, zpow_natCast, inv_mul_cancel₀ hunit.ne']
  have hpos : 0 < v := by
    refine hv.lt_of_ne' ?_
    rintro rfl
    rw [roundedUnits_zero] at h
    exact absurd h (not_le.mpr (by positivity))
  by_cases hlarge : (10 : ℚ) ^ (digits - places : Int) ≤ v
  · have hnonneg : (0 : ℚ) < 10 ^ (-places : Int) := by positivity
    linarith
  have hlog := (Int.lt_zpow_iff_log_lt (b := 10) (by norm_num) hpos).mp (not_le.mp hlarge)
  rw [roundedUnits_of_le (max_le (by omega) htiny)] at h
  by_cases hspare : spare digits places v = 0
  · -- halves go to the power of ten, which is even
    have heven : 10 ^ digits % 2 = 0 :=
      Nat.even_iff.mp ((by decide : Even 10).pow_of_ne_zero hd.ne')
    rw [hspare, pow_zero, mul_one, div_one, nearest_natCast,
      le_nearest_iff_of_tie (by positivity) (.inr heven), ← pow_places digits places] at h
    refine le_of_mul_le_mul_right ?_ hunit
    rw [add_mul, hone]
    linarith
  · -- a digit is kept behind the last place, so the magnitude is far below
    exfalso
    obtain ⟨k, rfl⟩ : ∃ k, digits = k + 1 := ⟨digits - 1, by omega⟩
    have hlog : Int.log 10 v < k - places := by
      unfold spare lastPlace at hspare
      omega
    have hbelow : v * 10 ^ places < (10 ^ k : Nat) := by
      rw [← pow_places]
      exact mul_lt_mul_of_pos_right
        ((Int.lt_zpow_iff_log_lt (b := 10) (by norm_num) hpos).mpr hlog) hunit
    have hsmall : (1 : ℚ) / 10 ^ spare (k + 1) places v ≤ 1 :=
      div_le_one_of_le₀ (one_le_pow₀ (by norm_num)) (by positivity)
    have hlead : (1 : ℚ) ≤ (10 ^ k : Nat) := by exact_mod_cast Nat.one_le_pow k 10 (by norm_num)
    have hcast : ((10 ^ (k + 1) : Nat) : ℚ) = 10 * (10 ^ k : Nat) := by
      push_cast
      ring
    rcases (le_nearest_twice_iff hspare (by positivity)).mp h with h | ⟨h, -⟩ <;>
      rw [hcast] at h <;> linarith

/-! ### Results and failures -/

def value : Decimal → ℚ
  | .finite negative c e => signedMagnitude negative c e
  | _ => 0

theorem value_finite (negative : Bool) (c : Nat) (e : Int) :
    value (.finite negative c e) = if negative then -magnitude c e else magnitude c e :=
  signedMagnitude_eq negative c e

/-- What is returned is off by little more than half a unit. -/
theorem value_near (hv : 0 ≤ v) (h : 0 < v → lastPlace digits v ≤ -places) (negative : Bool) :
    20 * |value (.finite negative (roundedUnits digits places v) (-places)) -
      (if negative then -v else v)| ≤ 11 * 10 ^ (-places : Int) := by
  have hunit : (0 : ℚ) < 10 ^ (-places : Int) := by positivity
  have hone : (10 : ℚ) ^ places * 10 ^ (-places : Int) = 1 := by
    rw [zpow_neg, zpow_natCast, mul_inv_cancel₀ (by positivity)]
  have hscaled : magnitude (roundedUnits digits places v) (-places) - v =
      (roundedUnits digits places v - v * 10 ^ places) * 10 ^ (-places : Int) := by
    rw [sub_mul, mul_assoc, hone, mul_one]
    rfl
  have hmagnitude : |value (.finite negative (roundedUnits digits places v) (-places)) -
      (if negative then -v else v)| =
      |magnitude (roundedUnits digits places v) (-places) - v| := by
    rw [value_finite]
    cases negative with
    | false => rfl
    | true => simp only [if_true, ← neg_sub', abs_neg]
  rw [hmagnitude, hscaled, abs_mul, abs_of_pos hunit, ← mul_assoc]
  exact mul_le_mul_of_nonneg_right (roundedUnits_error hv h) hunit.le

/-- A whole number of units is returned as it is. -/
theorem value_exact {negative : Bool} {m : Int} (hv : 0 ≤ v)
    (h : 0 < v → lastPlace digits v ≤ -places)
    (hm : (if negative then -v else v) = m * (10 : ℚ) ^ (-places : Int)) :
    value (.finite negative (roundedUnits digits places v) (-places)) =
      m * (10 : ℚ) ^ (-places : Int) := by
  have habs : v = magnitude m.natAbs (-places) := by
    rw [magnitude_natAbs, ← hm]
    split
    · rw [abs_neg, abs_of_nonneg hv]
    · exact (abs_of_nonneg hv).symm
  have hunits : roundedUnits digits places v = m.natAbs := by
    rw [habs]
    exact roundedUnits_magnitude fun hne => habs ▸ h (habs ▸ magnitude_pos hne _)
  rw [value_finite, hunits, ← habs, hm]

theorem fits_iff : Fits digits places n ↔ places ≤ 2 * (maxExponent.toNat + digits) ∧
    n < 10 ^ digits ∧ adjusted n (-keptPlaces digits places) ≤ maxExponent :=
  ⟨fun h => ⟨h.few, h.fits, h.range⟩, fun h => ⟨h.1, h.2.1, h.2.2⟩⟩

/-- With no more digits than that, a number that has few enough of them is in range. -/
theorem adjusted_le_of_lt (hd : 0 < digits) (hrange : (digits : Int) ≤ places + (maxExponent + 1))
    (hn : n < 10 ^ digits) : adjusted n (-places) ≤ maxExponent := by
  have hcount := (digitCount_le_iff hd).mpr hn
  unfold adjusted
  omega

section Results

variable {kept : Nat} (hkept : keptPlaces digits places = kept)

include hkept

/-- A result is the exact one, rounded. -/
theorem settled_ok {negative : Bool} {r : Decimal}
    (h : settled digits places negative v = .ok r) :
    Fits digits places (roundedUnits digits kept v) ∧
      r = .finite negative (roundedUnits digits kept v) (-kept) := by
  unfold settled at h
  dsimp only at h
  rw [hkept] at h
  split_ifs at h with hover hfits
  cases h
  exact ⟨hfits, rfl⟩

/-- There is a result wherever the units fit. -/
theorem settled_of_fits (negative : Bool) (h : Fits digits places (roundedUnits digits kept v)) :
    settled digits places negative v =
      .ok (.finite negative (roundedUnits digits kept v) (-kept)) := by
  have hrange := h.range
  unfold settled
  rw [hkept] at hrange ⊢
  rw [if_neg, if_pos h]
  intro hover
  obtain ⟨k, hk⟩ : ∃ k : Nat, (k : Int) - kept = maxExponent + 1 :=
    ⟨(maxExponent + 1 + kept).toNat, by unfold maxExponent; omega⟩
  rw [← hk] at hover
  have hlow := range_of_le (pow_le_roundedUnits hover) hrange
  rw [adjusted_pow] at hlow
  omega

/-- Where there is a result, and which trap there is otherwise. -/
theorem settled_eq (hd : 0 < digits) (hv : 0 ≤ v) (negative : Bool) :
    settled digits places negative v =
      if Attains digits (maxExponent + 1) v then .error .overflow
      else if places ≤ 2 * (maxExponent.toNat + digits) ∧ ¬Attains digits (digits - kept) v ∧
          adjusted (roundedUnits digits kept v) (-kept) ≤ maxExponent then
        .ok (.finite negative (roundedUnits digits kept v) (-kept))
      else .error .invalidOperation := by
  have htiny : tinyExponent digits ≤ -kept := hkept ▸ tinyExponent_le_kept digits places
  have hover := pow_le_rounded_iff (m := maxExponent + 1) hd
    (by unfold tinyExponent minExponent maxExponent; omega) hv
  have hfits : Fits digits places (roundedUnits digits kept v) ↔
      places ≤ 2 * (maxExponent.toNat + digits) ∧ ¬Attains digits (digits - kept) v ∧
        adjusted (roundedUnits digits kept v) (-kept) ≤ maxExponent := by
    rw [fits_iff, hkept]
    refine and_congr_right fun _ => and_congr_left fun _ => ?_
    rw [← not_le, pow_le_roundedUnits_iff hd hv htiny]
  unfold settled
  rw [hkept]
  simp only [hover, hfits]

end Results

end DecimalScript.Decimal
