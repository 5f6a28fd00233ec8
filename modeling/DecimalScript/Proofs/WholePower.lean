import DecimalScript.Proofs.PowerRemainder
import DecimalScript.Proofs.Summation
import Mathlib

/-! Powers of whole numbers that have all their places. A power is the exact one or a trap. Its
remainder can be taken from the power, or without it, at each step of the squaring; the two
agree wherever both have a result. -/

namespace DecimalScript

open Decimal Run

namespace Decimal

variable {digits places n : Nat} {x : Decimal} {a : Int}

/-! ### Whole numbers with their places -/

theorem adjusted_le_iff : adjusted n 0 ≤ maxExponent ↔ n < 10 ^ (maxExponent.toNat + 1) := by
  rw [← digitCount_le_iff (by omega)]
  unfold adjusted maxExponent
  omega

/-- All places are kept where there is a digit before the point. -/
theorem keptPlaces_of_lt (h : places < digits) : keptPlaces digits places = places := by
  refine keptPlaces_eq ?_
  unfold tinyExponent minExponent
  omega

/-- There is room for the whole numbers that fit before the point and are in range. -/
theorem room_iff (h : places < digits) :
    Room digits places n ↔ n < 10 ^ (digits - places) ∧ n < 10 ^ (maxExponent.toNat + 1) := by
  have hpow : 10 ^ digits = 10 ^ (digits - places) * 10 ^ places := by
    rw [← pow_add, Nat.sub_add_cancel h.le]
  rw [← adjusted_le_iff]
  constructor
  · intro hroom
    have hfits := hroom.fits
    rw [keptPlaces_of_lt h, hpow] at hfits
    exact ⟨Nat.lt_of_mul_lt_mul_right hfits, hroom.range⟩
  · rintro ⟨hfits, hrange⟩
    refine ⟨by omega, ?_, hrange⟩
    rw [keptPlaces_of_lt h, hpow]
    exact Nat.mul_lt_mul_of_pos_right hfits (by positivity)

theorem natAbs_mul_pow (c : Int) (j : Nat) : (c * 10 ^ j).natAbs = c.natAbs * 10 ^ j := by
  rw [Int.natAbs_mul, Int.natAbs_pow]
  rfl

theorem ofUnits_signed (places : Nat) (sign : Bool) (n : Nat) :
    ofUnits places sign (signed sign n * 10 ^ places) = .finite sign (n * 10 ^ places) (-places) := by
  have hpos : (0 : Int) < 10 ^ places := by positivity
  unfold ofUnits
  congr 1
  · by_cases hn : n = 0
    · subst hn
      cases sign <;> simp [signed]
    · cases sign <;> simp [signed, hn, hpos, Nat.pos_of_ne_zero hn]
  · rw [natAbs_mul_pow, natAbs_signed]

theorem ofUnits_congr (places : Nat) (zero zero' : Bool) (ha : a ≠ 0) :
    ofUnits places zero a = ofUnits places zero' a := by
  unfold ofUnits
  rw [if_neg ha, if_neg ha]

/-- A whole number with its places, and its sign. -/
theorem OnGrid.eq_whole (h : OnGrid digits places x) (ha : x.units = a * 10 ^ places) :
    x = .finite x.isNegative (a.natAbs * 10 ^ places) (-places) ∧
      signed x.isNegative a.natAbs = a := by
  obtain ⟨sign, c, rfl⟩ := h.exists_eq
  have hc : c = a.natAbs * 10 ^ places := by
    have habs := congrArg Int.natAbs ha
    rwa [units, natAbs_signed, natAbs_mul_pow] at habs
  subst hc
  have hmul : signed sign (a.natAbs * 10 ^ places) = signed sign a.natAbs * 10 ^ places := by
    cases sign <;> simp [signed]
  exact ⟨rfl, Int.eq_of_mul_eq_mul_right (by positivity) (hmul.symm.trans ha)⟩

/-- A whole number other than zero has a digit before the point. -/
theorem OnGrid.places_lt (h : OnGrid digits places x) (ha : x.units = a * 10 ^ places)
    (hne : a ≠ 0) : places < digits := by
  have hlt := h.units_lt
  rw [ha, natAbs_mul_pow] at hlt
  have hle : 10 ^ places ≤ a.natAbs * 10 ^ places :=
    Nat.le_mul_of_pos_left _ (Int.natAbs_pos.mpr hne)
  exact (Nat.pow_lt_pow_iff_right (by norm_num)).mp (hle.trans_lt hlt)

/-- A whole number that is in range has room. -/
theorem OnGrid.room (h : OnGrid digits places x) (ha : x.units = a * 10 ^ places) (hne : a ≠ 0)
    (hrange : a.natAbs < 10 ^ (maxExponent.toNat + 1)) : Room digits places a.natAbs := by
  have hlt := h.units_lt
  have hplaces := h.places_lt ha hne
  rw [ha, natAbs_mul_pow] at hlt
  refine (room_iff hplaces).mpr ⟨?_, hrange⟩
  refine Nat.lt_of_mul_lt_mul_right (a := 10 ^ places) ?_
  rwa [← pow_add, Nat.sub_add_cancel hplaces.le]

/-- A number with a digit to spare, without its places. -/
theorem OnGrid.five_mul_lt (h : OnGrid digits places x) (ha : x.units = a * 10 ^ places)
    (hspare : x.units.natAbs < 2 * 10 ^ (digits - 1)) : 5 * a.natAbs < 10 ^ digits := by
  have hpow : 10 ^ digits = 10 * 10 ^ (digits - 1) := by
    rw [← pow_succ', Nat.sub_add_cancel h.digits_pos]
  have hle : a.natAbs ≤ a.natAbs * 10 ^ places := Nat.le_mul_of_pos_right _ (by positivity)
  rw [ha, natAbs_mul_pow] at hspare
  omega

theorem signed_remainder {sign : Bool} {m : Nat} (hm : 0 < m) :
    signed false (remainder sign n m) = signed sign n % m :=
  Int.toNat_of_nonneg (Int.emod_nonneg _ (by omega))

/-- The multiple that is taken off is past a negative number, and not above another one. -/
theorem multiple_lt_iff {sign : Bool} {m bound : Nat} (hm : 0 < m) (hsign : signed sign n = a)
    (hn : n < bound) : multiplier sign n m * m < bound ↔ a % m - a < bound := by
  have heq := (remainder_eq sign n hm).1
  have hremainder : signed false (remainder sign n m) = a % m := by
    rw [signed_remainder hm, hsign]
  rw [← hremainder]
  cases sign with
  | false =>
    simp only [Bool.false_eq_true, ↓reduceIte, signed] at heq hsign ⊢
    omega
  | true =>
    simp only [Bool.false_eq_true, ↓reduceIte, signed] at heq hsign ⊢
    omega

end Decimal

/-! ### Powers -/

section Powers

variable {s t : State} {x y v : Decimal} {a : Int} {n : Nat} {pos : Option Pos}
  (hx : OnGrid s.digits s.places x) (hy : OnGrid s.digits s.places y)
  (ha : x.units = a * 10 ^ s.places) (hn : y.units = n * 10 ^ s.places)

include hy hn in
theorem Run.pow_exponent : pow x y pos s = pow x (s.literal false n) pos s := by
  obtain ⟨hy, hsign⟩ := hy.eq_whole hn
  rw [Int.natAbs_natCast] at hy hsign
  rw [hy, pow_literal]
  exact pow_whole (magnitude_places n s.places) hsign x pos s

include hx hy ha hn

theorem Run.pow_places_lt (hne : a ≠ 0 ∨ n ≠ 0) : s.places < s.digits := by
  rcases hne with hne | hne
  · exact hx.places_lt ha hne
  · exact hy.places_lt hn (by exact_mod_cast hne)

theorem Run.pow_room (hne : a ≠ 0 ∨ n ≠ 0) (h : Room s.digits s.places (a.natAbs ^ n)) :
    pow x y pos s =
      (.ok (ofUnits s.places (powerSign x.isNegative n) (a ^ n * 10 ^ s.places)), s) := by
  obtain ⟨hx', hsign⟩ := hx.eq_whole ha
  have hfits := pow_fits hx.digits_pos (hne.imp_left Int.natAbs_ne_zero.mpr) h x.isNegative pos
  rw [show s.kept = s.places from keptPlaces_of_lt (pow_places_lt hx hy ha hn hne)] at hfits
  rw [pow_exponent hy hn, hx', hfits, ← ofUnits_signed, signed_pow, hsign]
  rfl

theorem Run.pow_no_room (hne : a ≠ 0 ∨ n ≠ 0) (h : ¬Room s.digits s.places (a.natAbs ^ n)) :
    ∃ trap, (trap = .invalidOperation ∨ trap = .overflow) ∧
      pow x y pos s = (.error (.fault (.trap trap)), s) := by
  have hlt := pow_places_lt hx hy ha hn hne
  have hone : Room s.digits s.places 1 :=
    (room_iff hlt).mpr ⟨Nat.one_lt_pow (by omega) (by norm_num),
      Nat.one_lt_pow (by omega) (by norm_num)⟩
  obtain ⟨trap, htrap, hpow⟩ :=
    pow_trapped hone (hne.imp_left Int.natAbs_ne_zero.mpr) h x.isNegative pos
  refine ⟨trap, htrap, ?_⟩
  rw [show s.kept = s.places from keptPlaces_of_lt hlt] at hpow
  rw [pow_exponent hy hn, (hx.eq_whole ha).1]
  exact hpow

/-- A power that has a result has room, and is exact. -/
theorem Run.pow_eq_ok (h : pow x y pos s = (.ok v, t)) :
    Room s.digits s.places (a.natAbs ^ n) ∧
      v = ofUnits s.places (powerSign x.isNegative n) (a ^ n * 10 ^ s.places) ∧ t = s := by
  by_cases hne : a ≠ 0 ∨ n ≠ 0
  · by_cases hroom : Room s.digits s.places (a.natAbs ^ n)
    · cases h.symm.trans (pow_room hx hy ha hn hne hroom)
      exact ⟨hroom, rfl, rfl⟩
    · obtain ⟨trap, -, htrap⟩ : ∃ trap, (trap = .invalidOperation ∨ trap = .overflow) ∧
          pow x y pos s = (.error (.fault (.trap trap)), s) := pow_no_room hx hy ha hn hne hroom
      cases h.symm.trans htrap
  · -- zero to the power of zero is a trap
    obtain ⟨rfl, rfl⟩ : a = 0 ∧ n = 0 := by omega
    have hpow : Decimal.pow s.digits x (0 : Nat) = .error .invalidOperation := by
      rw [(hx.eq_whole ha).1, Int.natAbs_zero, zero_mul]
      rfl
    rw [pow_exponent hy hn, pow_literal, bind_of_error
      (working_error (f := fun digits => Decimal.pow digits x (0 : Nat)) hpow)] at h
    cases h

theorem Run.pow_onGrid (h : pow x y pos s = (.ok v, t)) : OnGrid s.digits s.places v := by
  obtain ⟨hroom, rfl, rfl⟩ := pow_eq_ok hx hy ha hn h
  refine onGrid_ofUnits hx.digits_pos ?_ _
  rw [natAbs_mul_pow, Int.natAbs_pow]
  rcases Nat.eq_zero_or_pos (a.natAbs ^ n) with hzero | hpos
  · rw [hzero, zero_mul]
    positivity
  · rw [← kept_eq_places hpos.ne' hroom]
    exact hroom.fits

/-- With enough digits to tell, a power that is out of range is an overflow. -/
theorem Run.pow_overflow (hd : maxExponent.toNat + 1 ≤ s.digits)
    (h : 10 ^ (maxExponent.toNat + 1) ≤ a.natAbs ^ n) :
    pow x y pos s = (.error (.fault (.trap .overflow)), s) := by
  have hlarge : 1 < a.natAbs ^ n := (Nat.one_lt_pow (by omega) (by norm_num)).trans_le h
  have hne : n ≠ 0 := by
    rintro rfl
    exact absurd hlarge (by norm_num)
  have hane : a.natAbs ≠ 0 := by
    intro hzero
    rw [hzero, zero_pow hne] at hlarge
    exact absurd hlarge (by norm_num)
  have hpow : Decimal.pow s.digits x n = .error .overflow := by
    rw [(hx.eq_whole ha).1]
    refine (pow_large hx.digits_pos hane hne (magnitude_places _ s.places) hd h).resolve_right ?_
    rintro ⟨c, e, -, -, hlow, hhigh⟩
    unfold maxExponent at hlow hhigh
    omega
  rw [pow_exponent hy hn, pow_literal]
  exact bind_of_error (working_error (f := fun digits => Decimal.pow digits x n) hpow)

end Powers

/-- The power of a base that is not zero, or of zero with an exponent that is not zero: there is a
result if it has room before the point and is in range, and it is exact. Otherwise
there is a trap. -/
theorem powers_exact_or_trapped (s : State) (x y : Decimal) (a : Int) (n : Nat) (pos : Option Pos)
    (hx : OnGrid s.digits s.places x) (hy : OnGrid s.digits s.places y)
    (ha : x.units = a * 10 ^ s.places) (hn : y.units = n * 10 ^ s.places) (hne : a ≠ 0 ∨ n ≠ 0) :
    (a.natAbs ^ n < 10 ^ (s.digits - s.places) →
      a.natAbs ^ n < 10 ^ (maxExponent.toNat + 1) →
      pow x y pos s =
        (.ok (ofUnits s.places (powerSign x.isNegative n) (a ^ n * 10 ^ s.places)), s)) ∧
    (10 ^ (s.digits - s.places) ≤ a.natAbs ^ n ∨ 10 ^ (maxExponent.toNat + 1) ≤ a.natAbs ^ n →
      ∃ trap, (trap = .invalidOperation ∨ trap = .overflow) ∧
        pow x y pos s = (.error (.fault (.trap trap)), s)) := by
  have hroom := room_iff (n := a.natAbs ^ n) (pow_places_lt hx hy ha hn hne)
  refine ⟨fun hfits hrange => pow_room hx hy ha hn hne (hroom.mpr ⟨hfits, hrange⟩), fun h => ?_⟩
  refine pow_no_room hx hy ha hn hne fun hr => ?_
  obtain ⟨hfits, hrange⟩ := hroom.mp hr
  rcases h with h | h
  · exact absurd hfits (not_lt.mpr h)
  · exact absurd hrange (not_lt.mpr h)

/-- The last power of three that has room at the start, and the next one. -/
theorem powers_exact_or_trapped_three :
    pow (ofUnits 10 false (-3 * 10 ^ 10)) (ofUnits 10 false (37 * 10 ^ 10)) none {} =
      (.ok (ofUnits 10 true (-450283905890997363 * 10 ^ 10)), {}) ∧
    ∃ trap, (trap = .invalidOperation ∨ trap = .overflow) ∧
      pow (ofUnits 10 false (-3 * 10 ^ 10)) (ofUnits 10 false (38 * 10 ^ 10)) none {} =
        (.error (.fault (.trap trap)), {}) := by
  have hgrid : OnGrid 28 10 (ofUnits 10 false (-3 * 10 ^ 10)) ∧
      OnGrid 28 10 (ofUnits 10 false (37 * 10 ^ 10)) ∧
      OnGrid 28 10 (ofUnits 10 false (38 * 10 ^ 10)) := by decide
  have hrange : (-3 : Int).natAbs ^ 37 < 10 ^ (maxExponent.toNat + 1) :=
    (by decide : (-3 : Int).natAbs ^ 37 < 10 ^ 18).trans (Nat.pow_lt_pow_right (by norm_num) (by decide))
  exact ⟨(powers_exact_or_trapped {} _ _ (-3) 37 none hgrid.1 hgrid.2.1 rfl rfl (.inr (by decide))).1
      (by decide) hrange,
    (powers_exact_or_trapped {} _ _ (-3) 38 none hgrid.1 hgrid.2.2 rfl rfl (.inr (by decide))).2
      (.inl (by decide))⟩

/-- With a million digits before the point, a power that has room for its digits can be out of
range. -/
theorem power_with_room_overflows :
    let s : State := { digits := 1000021 }
    let x := ofUnits s.places false (10 ^ 1000 * 10 ^ s.places)
    let y := ofUnits s.places false ((1000 : Nat) * 10 ^ s.places)
    (OnGrid s.digits s.places x ∧ OnGrid s.digits s.places y) ∧
    ((10 : Int) ^ 1000).natAbs ^ 1000 < 10 ^ (s.digits - s.places) ∧
    pow x y none s = (.error (.fault (.trap .overflow)), s) := by
  intro s x y
  have hsquare (k : Nat) : ((10 : Int) ^ k).natAbs ^ k = 10 ^ (k * k) := by
    rw [Int.natAbs_pow, ← pow_mul]
    rfl
  have hpow : ((10 : Int) ^ 1000).natAbs ^ 1000 = 10 ^ (maxExponent.toNat + 1) :=
    (hsquare 1000).trans (congrArg (10 ^ ·) (by decide))
  have hx : OnGrid s.digits s.places x := by
    refine onGrid_ofUnits (by decide) ?_ false
    rw [← pow_add, Int.natAbs_pow]
    exact Nat.pow_lt_pow_right (by norm_num) (by decide)
  have hy : OnGrid s.digits s.places y := by
    refine onGrid_ofUnits (by decide) ?_ false
    exact (by decide : ((1000 : Nat) * 10 ^ s.places : Int).natAbs < 10 ^ 14).trans
      (Nat.pow_lt_pow_right (by norm_num) (by decide))
  refine ⟨⟨hx, hy⟩, ?_, ?_⟩
  · rw [hpow]
    exact Nat.pow_lt_pow_right (by norm_num) (by decide)
  · exact pow_overflow hx hy (units_ofUnits _ _ _) (units_ofUnits _ _ _) (by decide) hpow.ge

/-! ### Powers modulo a number -/

namespace Run

theorem powMod_half (a m : Nat) {n : Nat} (h : 2 ≤ n) : powMod a m n =
    let square := powMod a m (n / 2) * powMod a m (n / 2) % m
    if n % 2 == 1 then square * a % m else square := by
  unfold powMod
  rw [binaryDigits_half h, List.foldl_append]
  rfl

/-- Squaring modulo a number gives the remainder of the power. -/
theorem powMod_eq (a m n : Nat) : powMod a m n = a ^ n % m := by
  induction n using Nat.strong_induction_on with
  | _ n ih =>
    by_cases hsmall : n < 2
    · have hone : 1 % m * (1 % m) % m = 1 % m := (Nat.mul_mod 1 1 m).symm
      obtain rfl | rfl : n = 0 ∨ n = 1 := by omega
      · exact hone
      · change 1 % m * (1 % m) % m * a % m = a ^ 1 % m
        rw [hone, Nat.mod_mul_mod, one_mul, pow_one]
    · rw [powMod_half a m (by omega), ih (n / 2) (by omega)]
      dsimp only
      rw [← Nat.mul_mod, ← pow_add]
      rcases Nat.mod_two_eq_zero_or_one n with heven | hodd
      · rw [if_neg (by simp [heven]), show n / 2 + n / 2 = n by omega]
      · rw [if_pos (by simp [hodd]), Nat.mod_mul_mod, ← pow_succ,
          show n / 2 + n / 2 + 1 = n by omega]

theorem powModInt_eq (b : Int) (n : Nat) {m : Nat} (hm : 0 < m) (s : State) :
    powModInt b n m s = (.ok (b ^ n % m).toNat, s) := by
  have hpos : (0 : Int) < m := by exact_mod_cast hm
  have hpower : (b % m).toNat ^ n % m = (b ^ n % m).toNat := by
    zify
    rw [Int.toNat_of_nonneg (Int.emod_nonneg _ hpos.ne'),
      Int.toNat_of_nonneg (Int.emod_nonneg _ hpos.ne')]
    exact (Int.mod_modEq b m).pow n
  unfold powModInt
  rw [if_neg hm.ne', if_pos (Int.natCast_nonneg n), Int.toNat_natCast, powMod_eq, hpower]
  rfl

section Modular

variable {s t : State} {x y z v : Decimal} {b m : Int} {n : Nat} {pos : Option Pos}
  (hx : OnGrid s.digits s.places x) (hy : OnGrid s.digits s.places y)
  (hz : OnGrid s.digits s.places z) (hb : x.units = b * 10 ^ s.places)
  (hn : y.units = n * 10 ^ s.places) (hm : z.units = m * 10 ^ s.places)

include hx hb in
theorem isWhole_onGrid : x.isWhole = .ok true := by
  rw [(hx.eq_whole hb).1]
  exact isWhole_whole (magnitude_places _ _)

include hx hb in
theorem toInt_onGrid : toInt x s = (.ok b, s) := by
  obtain ⟨hx, hsign⟩ := hx.eq_whole hb
  rw [hx, toInt_whole (magnitude_places _ _), hsign]

include hx hy hz hb hn hm in
/-- A power of whole numbers modulo a whole number is taken without the power. -/
theorem modValue_power (value : Decimal) :
    modValue (.power x y value) (.decimal z) pos s = modPow x y z pos s := by
  unfold modValue
  dsimp only
  rw [bind_of_ok (toDecimal_decimal z s), bind_of_ok (decimal_ok (isWhole_onGrid hx hb) s)]
  simp only [↓reduceIte]
  rw [bind_of_ok (decimal_ok (isWhole_onGrid hy hn) s)]
  simp only [↓reduceIte]
  rw [bind_of_ok (decimal_ok (isWhole_onGrid hz hm) s)]
  simp only [↓reduceIte]

include hz hm in
theorem equal_zero_onGrid (hne : m ≠ 0) : z.equal .zero = .ok false := by
  rw [(hz.eq_whole hm).1]
  exact equal_zero_of_ne _ (Nat.mul_ne_zero (Int.natAbs_ne_zero.mpr hne) (by positivity)) _

include hx hy hz hb hn hm in
theorem modPow_room (hne : m ≠ 0) (h : Room s.digits s.places m.natAbs) :
    modPow x y z pos s =
      (.ok (ofUnits s.places false (b ^ n % m.natAbs * 10 ^ s.places)), s) := by
  have hpos : 0 < m.natAbs := Int.natAbs_pos.mpr hne
  have hkept : s.kept = s.places := kept_eq_places hpos.ne' h
  have hnonneg := Int.emod_nonneg (b ^ n) (by omega : (m.natAbs : Int) ≠ 0)
  have hless := Int.emod_lt_of_pos (b ^ n) (by omega : (0 : Int) < m.natAbs)
  have habs : Decimal.abs s.digits z =
      .ok (.finite false (m.natAbs * 10 ^ s.places) (-s.places)) := by
    rw [(hz.eq_whole hm).1, ← hkept]
    exact finish_grid false hz.digits_pos h.fits (tinyExponent_le_kept _ _)
      (by unfold maxExponent; omega) h.places_range
  have hround : (ofNat (b ^ n % m.natAbs).toNat).toPlaces s.digits s.places =
      .ok (ofUnits s.places false (b ^ n % m.natAbs * 10 ^ s.places)) := by
    have hsigned : signed false (b ^ n % m.natAbs).toNat = b ^ n % m.natAbs :=
      Int.toNat_of_nonneg hnonneg
    have hplaces := ofUnits_signed s.places false (b ^ n % m.natAbs).toNat
    rw [hsigned] at hplaces
    have hexact : (ofNat (b ^ n % m.natAbs).toNat).toPlaces s.digits s.places =
        .ok (.finite false ((b ^ n % m.natAbs).toNat * 10 ^ s.kept) (-s.kept)) :=
      toPlaces_exact hz.digits_pos (magnitude_unit _) (h.mono (by omega))
    rw [hexact, hplaces, hkept]
  unfold modPow
  rw [bind_of_ok (decimal_ok (equal_zero_onGrid hz hm hne) s)]
  simp only [Bool.false_eq_true, ↓reduceIte]
  rw [bind_of_ok (toInt_onGrid hx hb), bind_of_ok (toInt_onGrid hy hn),
    bind_of_ok (working_ok (f := fun digits => Decimal.abs digits z) habs),
    bind_of_ok (toInt_whole (magnitude_places _ _) false s)]
  change (powModInt b n (m.natAbs : Int).natAbs >>= _) s = _
  rw [Int.natAbs_natCast, bind_of_ok (powModInt_eq b n hpos s)]
  exact round_ok hround

include hz hm in
theorem abs_overflow (h : 10 ^ (maxExponent.toNat + 1) ≤ m.natAbs) :
    Decimal.abs s.digits z = .error .overflow := by
  have hpos : 0 < m.natAbs := lt_of_lt_of_le (by positivity) h
  have hrange : maxExponent < adjusted m.natAbs 0 := by
    rw [← not_le, adjusted_le_iff]
    exact not_lt.mpr h
  rw [(hz.eq_whole hm).1]
  exact finish_overflow false hpos.ne'
    ((magnitude_places _ _).trans (magnitude_unit _).symm) hrange

include hx hy hz hb hn hm in
theorem modPow_overflow (hne : m ≠ 0) (h : 10 ^ (maxExponent.toNat + 1) ≤ m.natAbs) :
    modPow x y z pos s = (.error (.fault (.trap .overflow)), s) := by
  unfold modPow
  rw [bind_of_ok (decimal_ok (equal_zero_onGrid hz hm hne) s)]
  simp only [Bool.false_eq_true, ↓reduceIte]
  rw [bind_of_ok (toInt_onGrid hx hb), bind_of_ok (toInt_onGrid hy hn)]
  exact bind_of_error
    (working_error (f := fun digits => Decimal.abs digits z) (abs_overflow hz hm h))

/-- The remainder of a whole number for which five times its magnitude can be worked with. It is
exact, unless the modulus or the multiple of it that is taken off is out of range. -/
theorem mod_onGrid {k : Int} (hv : OnGrid s.digits s.places v) (hz : OnGrid s.digits s.places z)
    (hk : v.units = k * 10 ^ s.places) (hm : z.units = m * 10 ^ s.places) (hne : m ≠ 0)
    (hroom : Room s.digits s.places k.natAbs) (hfits : 5 * k.natAbs < 10 ^ s.digits) :
    mod v z pos s =
      if m.natAbs < 10 ^ (maxExponent.toNat + 1) ∧
          k % m.natAbs - k < (10 ^ (maxExponent.toNat + 1) : Nat) then
        (.ok (ofUnits s.places false (k % m.natAbs * 10 ^ s.places)), s)
      else (.error (.fault (.trap .overflow)), s) := by
  by_cases hrange : m.natAbs < 10 ^ (maxExponent.toNat + 1)
  · have hmroom := hz.room hm hne hrange
    have hpos : 0 < m.natAbs := Int.natAbs_pos.mpr hne
    have hquotable : Quotable s.digits k.natAbs m.natAbs k.natAbs 0 :=
      ⟨hpos, hfits, hmroom.lt, tinyExponent_le_zero _, hmroom.range, hroom.lt, hroom.range,
        Nat.le_mul_of_pos_right _ hpos⟩
    obtain ⟨hv', hsign⟩ := hv.eq_whole hk
    have hresult := ofUnits_signed s.places false (remainder v.isNegative k.natAbs m.natAbs)
    rw [signed_remainder hpos, hsign] at hresult
    have hmultiple := multiple_lt_iff hpos hsign (adjusted_le_iff.mp hroom.range)
    have hkept : s.kept = s.places := kept_eq_places hpos.ne' hmroom
    rw [hresult]
    nth_rewrite 1 [hv', (hz.eq_whole hm).1]
    by_cases hlow : k % m.natAbs - k < (10 ^ (maxExponent.toNat + 1) : Nat)
    · rw [if_pos ⟨hrange, hlow⟩]
      have hmod := mod_multiple (s := s) v.isNegative z.isNegative pos hquotable
        (adjusted_le_iff.mpr (hmultiple.mpr hlow)) (magnitude_places _ s.places)
        (magnitude_places _ s.places) hmroom
      rwa [hkept] at hmod
    · rw [if_neg fun h => hlow h.2]
      refine mod_multiple_overflow _ _ pos hquotable ?_ (magnitude_places _ _)
        (magnitude_places _ _)
      rwa [← not_le, adjusted_le_iff, hmultiple]
  · rw [if_neg fun h => hrange h.1]
    unfold mod
    rw [bind_of_ok (decimal_ok (equal_zero_onGrid hz hm hne) s)]
    simp only [Bool.false_eq_true, ↓reduceIte]
    exact bind_of_error (working_error (f := fun digits => Decimal.abs digits z)
      (abs_overflow hz hm (not_lt.mp hrange)))

end Modular

end Run

/-- The remainder of a power of whole numbers, without the power and from it. Without the power it
is the exact one, unless the modulus is out of range. From a power with a digit to spare it is
the same, unless the modulus or the multiple of it that is taken off is out of
range: the multiple is past a negative power by the remainder. -/
theorem modular_powers_agree (s : State) (x y z value : Decimal) (b m : Int) (n : Nat)
    (pos pos' : Option Pos) (hx : OnGrid s.digits s.places x) (hy : OnGrid s.digits s.places y)
    (hz : OnGrid s.digits s.places z) (hb : x.units = b * 10 ^ s.places)
    (hn : y.units = n * 10 ^ s.places) (hm : z.units = m * 10 ^ s.places) (hne : m ≠ 0) :
    modValue (.power x y value) (.decimal z) pos s =
      (if m.natAbs < 10 ^ (maxExponent.toNat + 1) then
        (.ok (ofUnits s.places false (b ^ n % m.natAbs * 10 ^ s.places)), s)
      else (.error (.fault (.trap .overflow)), s)) ∧
    ∀ v t, pow x y pos' s = (.ok v, t) → v.units.natAbs < 2 * 10 ^ (s.digits - 1) →
      mod v z pos s =
        if m.natAbs < 10 ^ (maxExponent.toNat + 1) ∧
            b ^ n % m.natAbs - b ^ n < (10 ^ (maxExponent.toNat + 1) : Nat) then
          (.ok (ofUnits s.places false (b ^ n % m.natAbs * 10 ^ s.places)), s)
        else (.error (.fault (.trap .overflow)), s) := by
  constructor
  · rw [modValue_power hx hy hz hb hn hm]
    by_cases hrange : m.natAbs < 10 ^ (maxExponent.toNat + 1)
    · rw [if_pos hrange, modPow_room hx hy hz hb hn hm hne (hz.room hm hne hrange)]
    · rw [if_neg hrange, modPow_overflow hx hy hz hb hn hm hne (not_lt.mp hrange)]
  · intro v t h hspare
    obtain ⟨hroom, rfl, rfl⟩ := pow_eq_ok hx hy hb hn h
    rw [← Int.natAbs_pow] at hroom
    have hv := pow_onGrid hx hy hb hn h
    exact mod_onGrid hv hz (units_ofUnits _ _ _) hm hne hroom
      (hv.five_mul_lt (units_ofUnits _ _ _) hspare)

/-- The third power of seven below zero, and its remainder by five below zero. -/
theorem modular_powers_agree_seven :
    modValue (.power (ofUnits 10 false (-7 * 10 ^ 10)) (ofUnits 10 false (3 * 10 ^ 10))
        (.infinity false)) (.decimal (ofUnits 10 false (-5 * 10 ^ 10))) none {} =
      (.ok (ofUnits 10 false (2 * 10 ^ 10)), {}) ∧
    mod (ofUnits 10 false (-343 * 10 ^ 10)) (ofUnits 10 false (-5 * 10 ^ 10)) none {} =
      (.ok (ofUnits 10 false (2 * 10 ^ 10)), {}) := by
  have hgrid : OnGrid 28 10 (ofUnits 10 false (-7 * 10 ^ 10)) ∧
      OnGrid 28 10 (ofUnits 10 false (3 * 10 ^ 10)) ∧
      OnGrid 28 10 (ofUnits 10 false (-5 * 10 ^ 10)) := by decide
  have hrange : 1000 < 10 ^ (maxExponent.toNat + 1) :=
    (by norm_num : 1000 < 10 ^ 4).trans (Nat.pow_lt_pow_right (by norm_num) (by decide))
  have hmodulus : (-5 : Int).natAbs < 10 ^ (maxExponent.toNat + 1) :=
    (by decide : (-5 : Int).natAbs < 1000).trans hrange
  have hmultiple : (-7 : Int) ^ 3 % (-5 : Int).natAbs - (-7) ^ 3 <
      (10 ^ (maxExponent.toNat + 1) : Nat) :=
    (by decide : (-7 : Int) ^ 3 % (-5 : Int).natAbs - (-7) ^ 3 < (1000 : Nat)).trans
      (by exact_mod_cast hrange)
  have h := modular_powers_agree {} _ _ _ (.infinity false) (-7) (-5) 3 none none hgrid.1 hgrid.2.1
    hgrid.2.2 rfl rfl rfl (by decide)
  rw [if_pos hmodulus, if_pos ⟨hmodulus, hmultiple⟩] at h
  exact ⟨h.1, h.2 _ _ rfl (by decide)⟩

section Multiple

variable {s : State} {k : Nat}

/-- One digit with so many zeros after it, and with its places. -/
theorem one_digit_lt (hs : 3 * k + s.places + 2 ≤ s.digits) {c : Int} (hc : c.natAbs < 10) {j : Nat}
    (hj : j ≤ 3 * k) : (c * 10 ^ j * 10 ^ s.places).natAbs < 10 ^ (s.digits - 1) := by
  rw [natAbs_mul_pow, natAbs_mul_pow, mul_assoc, ← pow_add]
  calc c.natAbs * 10 ^ (j + s.places) < 10 * 10 ^ (j + s.places) :=
        Nat.mul_lt_mul_of_pos_right hc (by positivity)
    _ = 10 ^ (j + s.places + 1) := (pow_succ' _ _).symm
    _ ≤ 10 ^ (s.digits - 1) := Nat.pow_le_pow_right (by norm_num) (by omega)

theorem one_digit_onGrid (hs : 3 * k + s.places + 2 ≤ s.digits) {c : Int} (hc : c.natAbs < 10)
    {j : Nat} (hj : j ≤ 3 * k) :
    OnGrid s.digits s.places (ofUnits s.places false (c * 10 ^ j * 10 ^ s.places)) :=
  onGrid_ofUnits (by omega) ((one_digit_lt hs hc hj).trans_le
    (Nat.pow_le_pow_right (by norm_num) (Nat.sub_le _ _))) false

theorem one_digit_room (hk : 3 * k = maxExponent.toNat) (hs : 3 * k + s.places + 2 ≤ s.digits)
    {c : Int} (hc : c.natAbs < 10) (hne : c ≠ 0) :
    Room s.digits s.places (c * 10 ^ (3 * k)).natAbs := by
  refine (one_digit_onGrid hs hc le_rfl).room (units_ofUnits _ _ _)
    (mul_ne_zero hne (by positivity)) ?_
  rw [natAbs_mul_pow, ← hk, pow_succ']
  exact Nat.mul_lt_mul_of_pos_right hc (by positivity)

/-- A power below zero, and a modulus in range of which the next multiple is not. -/
theorem Run.multiple_out_of_range (hk : 3 * k = maxExponent.toNat)
    (hs : 3 * k + s.places + 2 ≤ s.digits) :
    let x := ofUnits s.places false (-2 * 10 ^ k * 10 ^ s.places)
    let y := ofUnits s.places false ((3 : Nat) * 10 ^ s.places)
    let z := ofUnits s.places false (7 * 10 ^ (3 * k) * 10 ^ s.places)
    let v := ofUnits s.places false (-8 * 10 ^ (3 * k) * 10 ^ s.places)
    (OnGrid s.digits s.places x ∧ OnGrid s.digits s.places y ∧ OnGrid s.digits s.places z) ∧
    pow x y none s = (.ok v, s) ∧ v.units.natAbs < 2 * 10 ^ (s.digits - 1) ∧
    modValue (.power x y v) (.decimal z) none s =
      (.ok (ofUnits s.places false (6 * 10 ^ (3 * k) * 10 ^ s.places)), s) ∧
    mod v z none s = (.error (.fault (.trap .overflow)), s) := by
  intro x y z v
  have hx : OnGrid s.digits s.places x := one_digit_onGrid hs (by decide) (by omega)
  have hy : OnGrid s.digits s.places y := one_digit_onGrid hs (c := 3) (by decide) (Nat.zero_le _)
  have hz : OnGrid s.digits s.places z := one_digit_onGrid hs (by decide) le_rfl
  have hv : OnGrid s.digits s.places v := one_digit_onGrid hs (by decide) le_rfl
  have hvl : v.units.natAbs < 10 ^ (s.digits - 1) := by
    rw [units_ofUnits]
    exact one_digit_lt hs (by decide) le_rfl
  have hroom : Room s.digits s.places (-8 * 10 ^ (3 * k) : Int).natAbs :=
    one_digit_room hk hs (by decide) (by decide)
  have hmroom : Room s.digits s.places (7 * 10 ^ (3 * k) : Int).natAbs :=
    one_digit_room hk hs (by decide) (by decide)
  have hcube : (-2 * 10 ^ k : Int) ^ 3 = -8 * 10 ^ (3 * k) := by ring
  have hpos : (0 : Int) < 10 ^ (3 * k) := by positivity
  have hne : (7 * 10 ^ (3 * k) : Int) ≠ 0 := by omega
  have hmodulus : ((7 * 10 ^ (3 * k) : Int).natAbs : Int) = 7 * 10 ^ (3 * k) := by omega
  have hremainder : (-8 * 10 ^ (3 * k) : Int) % (7 * 10 ^ (3 * k)) = 6 * 10 ^ (3 * k) := by
    rw [show (-8 * 10 ^ (3 * k) : Int) = 6 * 10 ^ (3 * k) + 7 * 10 ^ (3 * k) * (-2) by ring,
      Int.add_mul_emod_self_left, Int.emod_eq_of_lt (by omega) (by omega)]
  refine ⟨⟨hx, hy, hz⟩, ?_, by omega, ?_, ?_⟩
  · rw [← hcube, Int.natAbs_pow] at hroom
    rw [pow_room hx hy (units_ofUnits _ _ _) (units_ofUnits _ _ _) (.inr (by decide)) hroom, hcube,
      ofUnits_congr _ _ false (by positivity)]
  · rw [modValue_power hx hy hz (units_ofUnits _ _ _) (units_ofUnits _ _ _) (units_ofUnits _ _ _),
      modPow_room hx hy hz (units_ofUnits _ _ _) (units_ofUnits _ _ _) (units_ofUnits _ _ _) hne
        hmroom, hcube, hmodulus, hremainder]
  · have hfits := hv.five_mul_lt (units_ofUnits _ _ _) (by omega)
    rw [mod_onGrid hv hz (units_ofUnits _ _ _) (units_ofUnits _ _ _) hne hroom hfits, if_neg]
    rw [hmodulus, hremainder, ← hk, pow_succ']
    push_cast
    omega

end Multiple

/-- The third power of a number with a third of a million digits, below zero. -/
theorem remainder_of_power_overflows :
    let s : State := { digits := 1000021 }
    let x := ofUnits s.places false (-2 * 10 ^ 333333 * 10 ^ s.places)
    let y := ofUnits s.places false ((3 : Nat) * 10 ^ s.places)
    let z := ofUnits s.places false (7 * 10 ^ (3 * 333333) * 10 ^ s.places)
    let v := ofUnits s.places false (-8 * 10 ^ (3 * 333333) * 10 ^ s.places)
    (OnGrid s.digits s.places x ∧ OnGrid s.digits s.places y ∧ OnGrid s.digits s.places z) ∧
    pow x y none s = (.ok v, s) ∧ v.units.natAbs < 2 * 10 ^ (s.digits - 1) ∧
    modValue (.power x y v) (.decimal z) none s =
      (.ok (ofUnits s.places false (6 * 10 ^ (3 * 333333) * 10 ^ s.places)), s) ∧
    mod v z none s = (.error (.fault (.trap .overflow)), s) :=
  multiple_out_of_range (by decide) (by decide)

end DecimalScript
