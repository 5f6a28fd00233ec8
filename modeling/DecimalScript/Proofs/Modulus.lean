import DecimalScript.Proofs.TwoRunEvaluation
import DecimalScript.Proofs.Units
import Mathlib

/-! Remainders of numbers with places. The quotient is rounded to the digits of the state before
its whole part is taken, and so is the multiple of the modulus that is taken off.
Where a number has the better part of a digit to spare nothing is lost; a larger one can
leave a rest that is off by a few units in the last place, and negative. -/

namespace DecimalScript

open Decimal Run

namespace Decimal

variable {digits places n x m : Nat} {s t : Bool} {c d : Nat} {e f g : Int} {z : Decimal}

/-! ### Numbers with digits to spare -/

/-- The remainder with its places, where the number has a digit to spare. -/
theorem rest_toPlaces (hfew : places ≤ 2 * (maxExponent.toNat + digits))
    (h : Spare digits x m (-keptPlaces digits places)) (s t : Bool) :
    (rest digits (.finite s x (-keptPlaces digits places))
        (.finite t m (-keptPlaces digits places)) >>= toPlaces digits places) =
      .ok (.finite false (remainder s x m) (-keptPlaces digits places)) := by
  obtain ⟨c, e, hrest, hvalue⟩ := rest_exact s t h rfl rfl
  have hless := (remainder_eq s x h.modulus).2
  have hfits : Fits digits places (remainder s x m) :=
    ⟨hfew, hless.trans h.modulus_fits, range_of_le hless.le h.modulus_range⟩
  rw [hrest]
  exact hfits.toPlaces_units (digits_pos_of_lt h.modulus.ne' h.modulus_fits) hvalue false

/-- There is nothing left if the quotient is out of range. -/
theorem rest_overflow (hm : 0 < m) (hml : m < 10 ^ digits) (htiny : tinyExponent digits ≤ g)
    (hmrange : adjusted m g ≤ maxExponent) (hq : maxExponent < adjusted (x / m) 0) (s t : Bool) :
    rest digits (.finite s x g) (.finite t m g) = .error .overflow := by
  have hd := digits_pos_of_lt hm.ne' hml
  obtain ⟨d, f, habs, -, hmodulus⟩ :=
    finish_exact false hd (rfl : magnitude m g = _) hml htiny hmrange
  have hne : d ≠ 0 := by
    rintro rfl
    exact hm.ne' (eq_zero_of_magnitude_eq hmodulus)
  have hquotient : magnitude 1 (maxExponent + 1) ≤ magnitude x g / magnitude d f := by
    have hwhole : x / m ≠ 0 := by
      intro hzero
      rw [hzero] at hq
      exact not_lt.mpr (adjusted_zero_le le_rfl) hq
    rw [hmodulus, magnitude_div, magnitude_one]
    calc (10 : ℚ) ^ (maxExponent + 1) ≤ 10 ^ adjusted (x / m) 0 :=
          zpow_le_zpow_right₀ (by norm_num) hq
      _ ≤ magnitude (x / m) 0 := pow_adjusted_le hwhole 0
      _ = (x / m : Nat) := magnitude_unit _
      _ ≤ (x : ℚ) / m := Nat.cast_div_le
  have hdiv := div_overflow (s := s) hd hne hquotient
  unfold rest
  change (finish digits false m g >>= _) = _
  rw [habs]
  change (div digits (.finite s x g) (.finite false d f) >>= _) = _
  rw [hdiv]
  rfl

theorem ofUnits_emod (places x m : Nat) (s : Bool) (hm : 0 < m) :
    ofUnits places false (signed s x % m) = .finite false (remainder s x m) (-places) := by
  have hnonneg := Int.emod_nonneg (signed s x) (by omega : (m : Int) ≠ 0)
  unfold ofUnits remainder
  have hsign : (if signed s x % m = 0 then false else decide (signed s x % m < 0)) = false := by
    simp [hnonneg]
  rw [hsign]
  congr 1
  omega

/-! ### Numbers that take all digits -/

/-- With one digit too many at most, a number of units is off by five of them at most. -/
theorem Near.units_le {k : Nat} (hd : 0 < digits) (htiny : tinyExponent digits ≤ g)
    (hn : n < 10 ^ (digits + 1)) (h : Near digits (magnitude n g) (magnitude k g)) :
    k ≤ n + 5 ∧ n ≤ k + 5 := by
  obtain ⟨place, herror, hplace⟩ := h
  have hle : place ≤ g + 1 := by
    rcases hplace with hlead | rfl
    · have hadjusted := adjusted_le_of_magnitude_le (by positivity) hlead
      have hcount := (digitCount_le_iff (Nat.succ_pos digits)).mpr hn
      rw [adjusted_pow] at hadjusted
      unfold adjusted at hadjusted
      omega
    · omega
  have hunit : (0 : ℚ) < 10 ^ g := by positivity
  have hbound : 2 * |(k : ℚ) - n| * 10 ^ g ≤ 10 * 10 ^ g := by
    calc 2 * |(k : ℚ) - n| * 10 ^ g = 2 * |magnitude k g - magnitude n g| := by
          unfold magnitude
          rw [← sub_mul, abs_mul, abs_of_pos hunit]
          ring
      _ ≤ 10 ^ place := herror
      _ ≤ 10 ^ (g + 1) := zpow_le_zpow_right₀ (by norm_num) hle
      _ = 10 * 10 ^ g := by rw [zpow_add_one₀ (by norm_num), mul_comm]
  have hfive : |(k : ℚ) - n| ≤ 5 := by linarith [le_of_mul_le_mul_right hbound hunit]
  obtain ⟨hlow, hhigh⟩ := abs_le.mp hfive
  constructor
  · have hk : (k : ℚ) ≤ n + 5 := by linarith
    exact_mod_cast hk
  · have hn : (n : ℚ) ≤ k + 5 := by linarith
    exact_mod_cast hn

/-- A result of so many units, and at most one digit too many, as it is rounded. -/
theorem finish_multiple (hd : 0 < digits) (htiny : tinyExponent digits ≤ g)
    (hn : n < 10 ^ (digits + 1)) (hv : magnitude c e = magnitude n g)
    (h : finish digits s c e = .ok z) :
    ∃ k c' e', z = .finite s c' e' ∧ magnitude c' e' = magnitude k g ∧
      (n < 10 ^ digits → k = n) ∧
      (10 ^ digits ≤ n → 10 ^ digits ≤ k ∧ 10 ∣ k ∧ k ≤ n + 5 ∧ n ≤ k + 5) := by
  obtain ⟨c', e', rfl, hc', -, hrounds⟩ := finish_rounds hd h
  by_cases hsmall : n < 10 ^ digits
  · exact ⟨n, c', e', rfl, hrounds.exact hsmall htiny hv, fun _ => rfl, fun hlarge => by omega⟩
  · have hlarge := not_lt.mp hsmall
    rw [hv] at hrounds
    have hleast := hrounds.le_of_pow_le hd htiny hlarge
    have hnear := finish_near hd h
    rw [hv] at hnear
    have hexp : g < e' := by
      have hplace := adjusted_le_of_magnitude_le (by positivity) hleast
      have hcount := (digitCount_le_iff hd).mpr hc'
      rw [adjusted_pow] at hplace
      unfold adjusted at hplace
      omega
    have hvalue := magnitude_scaled hexp.le c'
    rw [← hvalue] at hleast hnear
    obtain ⟨hbelow, habove⟩ := hnear.units_le hd htiny hn
    refine ⟨c' * 10 ^ (e' - g).toNat, c', e', rfl, hvalue.symm, fun hlt => absurd hlt hsmall,
      fun _ => ⟨magnitude_le_iff.mp hleast, ?_, hbelow, habove⟩⟩
    exact (dvd_pow_self 10 (by omega)).mul_left c'

/-- The multiple that is taken off has one digit too many at most. -/
theorem Cut.mul_lt {k : Nat} (h : Cut digits s x m k) (hx : x < 10 ^ digits) (hm : 0 < m)
    (hml : m < 10 ^ digits) : k * m + 5 < 10 ^ (digits + 1) := by
  have hten : 10 ^ 1 ≤ 10 ^ digits :=
    Nat.pow_le_pow_right (by norm_num) (digits_pos_of_lt hm.ne' hml)
  obtain ⟨hsum, hless⟩ := remainder_eq s x hm
  rw [pow_succ]
  rcases h with rfl | ⟨-, hnear⟩
  · cases s <;> simp only [Bool.false_eq_true, ↓reduceIte] at hsum <;> omega
  · cases s <;> simp only [Bool.false_eq_true, ↓reduceIte] at hnear <;> omega

/-- What can be left of `l` units, taken by `m`: the remainder; or a few units below zero, if the
quotient was rounded; or a rest that is off by a few units, if the multiple that is taken
off a negative number was rounded. -/
def Leaves (digits : Nat) (l m n : Int) : Prop :=
  n = l % m.natAbs ∨
  10 ^ digits ≤ 5 * l.natAbs ∧ -5 < n ∧ n < 0 ∨
  l < 0 ∧ 10 ^ digits ≤ l.natAbs + l % m.natAbs ∧ 0 < n ∧ (n - l % m.natAbs).natAbs ≤ 5

theorem leaves_of_cut {k w : Nat} (hd : 0 < digits) (hx : x < 10 ^ digits) (hm : 0 < m)
    (hml : m < 10 ^ digits) (hcut : Cut digits s x m k) (hexact : k * m < 10 ^ digits → w = k * m)
    (hround : 10 ^ digits ≤ k * m →
      10 ^ digits ≤ w ∧ 10 ∣ w ∧ w ≤ k * m + 5 ∧ k * m ≤ w + 5) (t : Bool) :
    Leaves digits (signed s x) (signed t m) (signed s x - signed s w) := by
  have hten : 10 ∣ 10 ^ digits := dvd_pow_self 10 hd.ne'
  have hcast : (10 : Int) ^ digits = (10 ^ digits : Nat) := by push_cast; rfl
  obtain ⟨hsum, hless⟩ := remainder_eq s x hm
  have hremainder : signed s x % m = remainder s x m :=
    (Int.toNat_of_nonneg (Int.emod_nonneg _ (by omega))).symm
  unfold Cut at hcut
  unfold Leaves
  rw [natAbs_signed, natAbs_signed, hremainder, hcast]
  generalize 10 ^ digits = limit at *
  cases s with
  | false =>
    simp only [signed, Bool.false_eq_true, ↓reduceIte] at hsum hcut ⊢
    rcases hcut with rfl | ⟨hlarge, hover, hnear⟩
    · have := hexact (by omega)
      omega
    · by_cases hsmall : k * m < limit
      · have := hexact hsmall
        omega
      · obtain ⟨hw, hdvd, hup, -⟩ := hround (by omega)
        omega
  | true =>
    simp only [signed, ↓reduceIte] at hsum hcut ⊢
    rcases hcut with rfl | ⟨hlarge, hunder, hnear⟩
    · by_cases hsmall : multiplier true x m * m < limit
      · have := hexact hsmall
        omega
      · obtain ⟨hw, -, hup, hdown⟩ := hround (by omega)
        omega
    · have := hexact (by omega)
      omega

/-- What is left of a number if there is a result at all. -/
theorem rest_leaves (hx : x < 10 ^ digits) (hm : 0 < m) (hml : m < 10 ^ digits)
    (h : (rest digits (.finite s x (-keptPlaces digits places))
      (.finite t m (-keptPlaces digits places)) >>= toPlaces digits places) = .ok z) :
    ∃ n, z = ofUnits (keptPlaces digits places) false n ∧
      Leaves digits (signed s x) (signed t m) n := by
  have hd := digits_pos_of_lt hm.ne' hml
  obtain ⟨left, hrest, hplaces⟩ := exists_ok_of_bind h
  unfold rest at hrest
  obtain ⟨modulus, habs, hrest⟩ := exists_ok_of_bind hrest
  obtain ⟨quotient, hdiv, hrest⟩ := exists_ok_of_bind hrest
  obtain ⟨whole, hfloor, hrest⟩ := exists_ok_of_bind hrest
  obtain ⟨multiple, hmul, hsub⟩ := exists_ok_of_bind hrest
  have htiny := tinyExponent_le_kept digits places
  -- the modulus is kept as it is
  obtain ⟨d, f, rfl, -, -, hrounds⟩ := finish_rounds hd habs
  have hd' := hrounds.exact hml htiny rfl
  obtain ⟨k, a, b, hfloor', hk, hcut⟩ := div_floor hm hml hx rfl hd' hdiv
  cases hfloor.symm.trans hfloor'
  have hproduct : magnitude (a * d) (b + f) = magnitude (k * m) (-keptPlaces digits places) := by
    rw [magnitude_mul, hk, hd', magnitude_mul_unit]
  have hlong := hcut.mul_lt hx hm hml
  obtain ⟨w, c', e', rfl, hw, hexact, hround⟩ :=
    finish_multiple hd htiny (by omega) hproduct hmul
  have hwlong : w < 10 ^ (digits + 1) := by
    rcases lt_or_ge (k * m) (10 ^ digits) with hsmall | hlarge
    · have := hexact hsmall
      omega
    · have := hround hlarge
      omega
  have hpow : 10 ^ digits ≤ 10 ^ (digits + 1) := Nat.pow_le_pow_right (by norm_num) (by omega)
  rw [Bool.bne_false] at hsub
  obtain ⟨n, j, hdifference, hn⟩ := sub_units digits
    (signedMagnitude_eq_units (rfl : magnitude x (-keptPlaces digits places) = _) s)
    (signedMagnitude_eq_units hw s)
    (by rw [natAbs_signed]; omega) (by rwa [natAbs_signed])
  have hz : (finish digits (if signed s x - signed s w = 0 then s && !s
      else signed s x - signed s w < 0) n j >>= toPlaces digits places) = .ok z := by
    rw [← hdifference, hsub]
    exact hplaces
  obtain ⟨-, rfl⟩ := eq_of_finish_toPlaces hd hn hz
  rw [Bool.and_not_self]
  exact ⟨_, rfl, leaves_of_cut hd hx hm hml hcut hexact hround t⟩

/-- A number with a digit to spare leaves its remainder. -/
theorem Leaves.exact {l m n : Int} (h : Leaves digits l m n) (hm : m ≠ 0)
    (hml : m.natAbs < 10 ^ digits) (hl : 5 * l.natAbs < 10 ^ digits) : n = l % m.natAbs := by
  rcases h with h | ⟨hlarge, -⟩ | ⟨hneg, hlarge, -⟩
  · exact h
  · omega
  · have hcast : (10 : Int) ^ digits = (10 ^ digits : Nat) := by push_cast; rfl
    have hless := Int.emod_lt_of_pos l (by omega : (0 : Int) < m.natAbs)
    rw [hcast] at hlarge
    by_cases hle : l.natAbs < m.natAbs
    · have hmod : l % m.natAbs = l + m.natAbs := by
        rw [← Int.add_emod_right, Int.emod_eq_of_lt (by omega) (by omega)]
      omega
    · omega

end Decimal

theorem Run.eq_ok_of_decimal {α : Type} {a : Except Trap α} {x : α} {s t : State}
    (h : decimal a s = (.ok x, t)) : a = .ok x ∧ t = s := by
  cases a with
  | error trap => cases h
  | ok y =>
    cases h
    exact ⟨rfl, rfl⟩

theorem Run.mod_leaves {s t : State} {x y r : Decimal} {pos : Option Pos}
    (hx : OnGrid s.digits s.kept x) (hy : OnGrid s.digits s.kept y) (hne : y.units ≠ 0)
    (h : mod x y pos s = (.ok r, t)) :
    t = s ∧ ∃ n, r = ofUnits s.kept false n ∧ Leaves s.digits x.units y.units n := by
  have hxl := hx.units_lt
  have hyl := hy.units_lt
  obtain ⟨sign, c, rfl⟩ := hx.exists_eq
  obtain ⟨sign', d, rfl⟩ := hy.exists_eq
  have hdpos : 0 < d := by
    have := Int.natAbs_pos.mpr hne
    rwa [units, natAbs_signed] at this
  rw [units, natAbs_signed] at hxl hyl
  rw [mod_eq _ _ hdpos.ne'] at h
  obtain ⟨hr, rfl⟩ := eq_ok_of_decimal h
  exact ⟨rfl, rest_leaves hxl hdpos hyl hr⟩

theorem Run.mod_overflow {s : State} {l m : Int} (hm : m ≠ 0) (hml : m.natAbs < 10 ^ s.digits)
    (hmrange : adjusted m.natAbs (-s.kept) ≤ maxExponent)
    (hover : maxExponent < adjusted (l.natAbs / m.natAbs) 0) (zero zero' : Bool)
    (pos : Option Pos) :
    mod (ofUnits s.kept zero l) (ofUnits s.kept zero' m) pos s =
      (.error (.fault (.trap .overflow)), s) := by
  have hpos : 0 < m.natAbs := Int.natAbs_pos.mpr hm
  refine (mod_eq _ _ hpos.ne' _ pos s).trans (decimal_error ?_ s)
  rw [ofUnits, rest_overflow hpos hml (tinyExponent_le_kept _ _) hmrange hover]
  rfl

/-- The remainder by a modulus, where the number has a digit to spare. If there is a result, it is
exact. There is one if the numbers on the way are in range; a quotient that is not is an
overflow. -/
theorem remainders_exact_with_spare_digit (s : State) (l m : Int) (zero zero' : Bool)
    (pos : Option Pos) (hm : m ≠ 0) (hml : m.natAbs < 10 ^ s.digits)
    (hl : l.natAbs < 2 * 10 ^ (s.digits - 1)) :
    (∀ r t, mod (ofUnits s.kept zero l) (ofUnits s.kept zero' m) pos s = (.ok r, t) →
      r = ofUnits s.kept false (l % m.natAbs) ∧ t = s) ∧
    (adjusted m.natAbs (-s.kept) ≤ maxExponent →
      (s.places ≤ 2 * (maxExponent.toNat + s.digits) →
        adjusted (2 * l.natAbs) (-s.kept) ≤ maxExponent →
        adjusted (l.natAbs / m.natAbs + 1) 0 ≤ maxExponent →
        mod (ofUnits s.kept zero l) (ofUnits s.kept zero' m) pos s =
          (.ok (ofUnits s.kept false (l % m.natAbs)), s)) ∧
      (maxExponent < adjusted (l.natAbs / m.natAbs) 0 →
        mod (ofUnits s.kept zero l) (ofUnits s.kept zero' m) pos s =
          (.error (.fault (.trap .overflow)), s))) := by
  have hpos : 0 < m.natAbs := Int.natAbs_pos.mpr hm
  have hd := digits_pos_of_lt hpos.ne' hml
  have hpow : 10 ^ s.digits = 10 * 10 ^ (s.digits - 1) := by
    rw [← pow_succ', Nat.sub_add_cancel hd]
  refine ⟨fun r t h => ?_, fun hmrange => ⟨fun hfew hlrange hqrange => ?_, fun hover =>
    mod_overflow hm hml hmrange hover zero zero' pos⟩⟩
  · obtain ⟨rfl, n, rfl, hn⟩ := mod_leaves (onGrid_ofUnits hd (by omega) zero)
      (onGrid_ofUnits hd hml zero') (by rwa [units_ofUnits]) h
    rw [units_ofUnits, units_ofUnits] at hn
    exact ⟨by rw [hn.exact hm hml (by omega)], rfl⟩
  · have hspare : Spare s.digits l.natAbs m.natAbs (-s.kept) :=
      ⟨hpos, by omega, hml, tinyExponent_le_kept _ _, hlrange, hmrange, hqrange⟩
    have hremainder :=
      ofUnits_emod s.kept l.natAbs m.natAbs (if l = 0 then zero else l < 0) hpos
    rw [signed_natAbs] at hremainder
    rw [hremainder]
    exact (mod_eq _ _ hpos.ne' _ pos s).trans (decimal_ok (rest_toPlaces hfew hspare _ _) s)

/-- The largest number that has a digit to spare, and a modulus that takes all of the digits. -/
theorem remainders_exact_with_spare_digit_largest :
    mod (ofUnits 10 false (-1999999999999999999999999999))
      (ofUnits 10 false (-9999999999999999999999999998)) none {} =
      (.ok (ofUnits 10 false 7999999999999999999999999999), {}) :=
  ((remainders_exact_with_spare_digit {} (-1999999999999999999999999999)
    (-9999999999999999999999999998) false false none (by decide) (by decide) (by decide)).2
    (by decide)).1 (by decide) (by decide) (by decide)

/-- With so many places that none of them is in range, a modulus is taken for zero; and with a
million places, one is too many times the last of them. -/
theorem remainder_fails_out_of_range :
    let s : State := { places := 999999999999999990 }
    let t : State := { places := 1000000, digits := 1000010 }
    mod (ofUnits s.places false 5) (ofUnits s.places false 3) none s =
      (.error (.fault (.trap .divisionByZero)), s) ∧
    mod (ofUnits t.places false (10 ^ t.places : Nat)) (ofUnits t.places false 1) none t =
      (.error (.fault (.trap .overflow)), t) := by
  have hzero (s : State) (hs : s = { places := 999999999999999990 }) :
      mod (ofUnits 999999999999999990 false 5) (ofUnits 999999999999999990 false 3) none s =
        (.error (.fault (.trap .divisionByZero)), s) := by
    subst hs
    rfl
  intro s t
  refine ⟨hzero s rfl, ?_⟩
  have hone : (1 : Int).natAbs < 10 ^ t.digits := Nat.one_lt_pow (by decide) (by decide)
  refine mod_overflow (s := t) one_ne_zero hone (by decide) ?_ false false none
  rw [Int.natAbs_natCast, Int.natAbs_one, Nat.div_one, adjusted_pow]
  decide

/-- What a remainder is, wherever there is one. It is the number that lies between zero and the
modulus for all numbers of which five times the magnitude fits into the digits;
otherwise it can be off by a few units in the last place. It is the same for
a remainder that is assigned to a variable. -/
theorem remainders_near_range (s : State) (x y : Decimal) (hx : OnGrid s.digits s.kept x)
    (hy : OnGrid s.digits s.kept y) (hne : y.units ≠ 0) :
    (∀ pos r t, mod x y pos s = (.ok r, t) →
      t = s ∧ ∃ n, r = ofUnits s.kept false n ∧ Leaves s.digits x.units y.units n) ∧
    (∀ name namePos pos t, s.env.get? name = some (.decimal x) →
      assign name namePos .mod (.decimal y) pos s = (.ok (), t) →
      ∃ n, t = { s with env := s.env.set name (.decimal (ofUnits s.kept false n)) } ∧
        Leaves s.digits x.units y.units n) ∧
    ∀ n, Leaves s.digits x.units y.units n → 5 * x.units.natAbs < 10 ^ s.digits →
      n = x.units % y.units.natAbs ∧ 0 ≤ n ∧ n < y.units.natAbs := by
  refine ⟨fun pos r t h => mod_leaves hx hy hne h, fun name namePos pos t hname h => ?_,
    fun n hn hl => ?_⟩
  · have hassign : assign name namePos .mod (.decimal y) pos s =
        (mod x y pos >>= fun r => setVariable name (.decimal r)) s := by
      unfold assign
      dsimp only
      rw [bind_of_ok (rfl : (get : Run State) s = (.ok s, s)), hname]
      rfl
    obtain ⟨r, u, hr, ht⟩ := eq_ok_of_bind (hassign.symm.trans h)
    obtain ⟨rfl, n, rfl, hn⟩ := mod_leaves hx hy hne hr
    cases ht
    exact ⟨n, rfl, hn⟩
  · have hn := hn.exact hne hy.units_lt hl
    have hpos : (0 : Int) < y.units.natAbs := by omega
    rw [hn]
    exact ⟨rfl, Int.emod_nonneg _ hpos.ne', Int.emod_lt_of_pos _ hpos⟩

/-- The remainder of seven units below zero by three, and that of a variable. -/
theorem remainders_near_range_negative :
    (mod (.finite true 7 (-10)) (.finite true 3 (-10)) none {} = (.ok (.finite false 2 (-10)), {}) ∧
      ∃ n, .finite false 2 (-10) = ofUnits 10 false n ∧ Leaves 28 (-7) (-3) n) ∧
    (∃ n, ⟨[("a", .decimal (.finite false 2 (-10)))]⟩ =
        (⟨[("a", .decimal (.finite true 7 (-10)))]⟩ : Env).set "a" (.decimal (ofUnits 10 false n)) ∧
      Leaves 28 (-7) (-3) n) ∧
    ∀ n, Leaves 28 (-7) (-3) n → n = 2 := by
  have hmod : mod (.finite true 7 (-10)) (.finite true 3 (-10)) none {} =
      (.ok (.finite false 2 (-10)), {}) := rfl
  have hassign : assign "a" ⟨1, 1⟩ .mod (.decimal (.finite true 3 (-10))) none
      { env := ⟨[("a", .decimal (.finite true 7 (-10)))]⟩ } =
      (.ok (), { env := ⟨[("a", .decimal (.finite false 2 (-10)))]⟩ }) := rfl
  have hgrid : OnGrid 28 10 (.finite true 7 (-10)) ∧ OnGrid 28 10 (.finite true 3 (-10)) := by
    decide
  have h (env : Env) := remainders_near_range { env } _ _ hgrid.1 hgrid.2 (by decide)
  obtain ⟨n, hstate, hn⟩ := (h _).2.1 "a" ⟨1, 1⟩ none _ rfl hassign
  exact ⟨⟨hmod, ((h {}).1 none _ _ hmod).2⟩, ⟨n, congrArg State.env hstate, hn⟩,
    fun n hn => ((h {}).2.2 n hn (by decide)).1⟩

/-- Numbers that take all digits leave a rest below zero, or one that is not below the modulus. -/
theorem remainder_leaves_range :
    (State.executeWithin 0 "999999999999999999.9999999999 mod 2" {}).1 =
      .ok (.decimal (.finite true 1 (-10))) ∧
    (State.executeWithin 0
        "-990000000000000000.0000000031 mod 165000000000000000.0000000005" {}).1 =
      .ok (.decimal (.finite false 1650000000000000000000000009 (-10))) := by
  decide +kernel

end DecimalScript
