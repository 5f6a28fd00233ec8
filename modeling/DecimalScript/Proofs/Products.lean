import DecimalScript.Proofs.Modulus
import DecimalScript.Proofs.DoubleRounding
import Mathlib

/-! Products and quotients. The exact one is rounded to the digits of the state and then to its
places; next to a half that is not what rounding it once gives. It fails where rounding
it once fails, and it is never off by a whole unit. -/

namespace DecimalScript

open Decimal Run

inductive Scaling where
  | product | quotient

namespace Scaling

def op : Scaling → ProductOp
  | .product => .mul
  | .quotient => .div

def exact : Scaling → ℚ → ℚ → ℚ
  | .product, v, w => v * w
  | .quotient, v, w => v / w

/-- Numbers of so many units have a product or quotient that is not taken for a half. -/
def Short (digits places : Nat) : Scaling → Int → Int → Prop
  | .product, l, m => (l * m).natAbs < 10 ^ digits
  | .quotient, l, _ => l.natAbs * 10 ^ (places + 1) < 10 ^ digits

theorem abs_exact (k : Scaling) (v w : ℚ) : |k.exact v w| = k.exact |v| |w| := by
  cases k with
  | product => exact abs_mul v w
  | quotient => exact abs_div v w

theorem exact_signed (k : Scaling) (a b : Bool) (c d : Nat) (e f : Int) :
    k.exact (signedMagnitude a c e) (signedMagnitude b d f) =
      if a != b then -k.exact (magnitude c e) (magnitude d f)
      else k.exact (magnitude c e) (magnitude d f) := by
  rw [signedMagnitude_eq, signedMagnitude_eq]
  cases k <;> cases a <;> cases b <;> simp [exact, neg_div, div_neg]

theorem abs_exact_value (k : Scaling) (a b : Bool) (c d : Nat) (e f : Int) :
    |k.exact (value (.finite a c e)) (value (.finite b d f))| =
      k.exact (magnitude c e) (magnitude d f) := by
  rw [abs_exact, value, value, abs_signedMagnitude, abs_signedMagnitude]

theorem exact_nonneg (k : Scaling) (c d : Nat) (e f : Int) :
    0 ≤ k.exact (magnitude c e) (magnitude d f) := by
  cases k <;> unfold exact magnitude <;> positivity

end Scaling

namespace Run

theorem div_eq (x : Decimal) (b : Bool) {d : Nat} (hd : d ≠ 0) (f : Int) (pos : Option Pos)
    (s : State) : div x (.finite b d f) pos s =
      decimal (Decimal.div s.digits x (.finite b d f) >>= toPlaces s.digits s.places) s := by
  unfold div
  rw [bind_of_ok (decimal_ok (equal_zero_of_ne b hd f) s)]
  simp only [Bool.false_eq_true, ↓reduceIte]
  exact working_bind _ fun _ => rfl

/-- A product or quotient is the exact one, settled. -/
theorem multiply_eq (k : Scaling) {a b : Bool} {c d : Nat} {e f : Int} {s : State}
    (hd : 0 < s.digits) (hne : k = .quotient → d ≠ 0) (pos : Option Pos) :
    multiply k.op (.finite a c e) (.finite b d f) pos s =
      decimal (settled s.digits s.places (a != b) (k.exact (magnitude c e) (magnitude d f))) s := by
  cases k with
  | product =>
    rw [Scaling.exact, ← mul_settled hd]
    exact working_bind _ fun _ => rfl
  | quotient =>
    rw [Scaling.exact, ← div_settled hd (hne rfl)]
    exact div_eq _ b (hne rfl) f pos s

theorem eval_product {limit : Nat} {op : ProductOp} {left right : Term} {x y : Decimal}
    {start middle s : State} (hleft : (eval limit left >>= toDecimal) start = (.ok x, middle))
    (hright : numberOf limit .product right middle = (.ok y, s)) (pos : Option Pos) :
    eval limit (.product op left right pos) start =
      (multiply op x y pos >>= fun r => pure (.decimal r)) s := by
  have heval : eval limit (.product op left right pos) =
      (eval limit left >>= toDecimal) >>= fun x => eval limit right >>= fun w =>
        numeric .product w >>= fun y => multiply op x y pos >>= fun r => pure (.decimal r) := by
    rw [eval, bind_assoc]
  rw [heval, bind_of_ok hleft, numberOf_bind hright]

theorem assign_div {x y : Decimal} {name : String} {s : State}
    (h : s.env.get? name = some (.decimal x)) (namePos : Pos) (pos : Option Pos) :
    assign name namePos .div (.decimal y) pos s =
      (div x y pos >>= fun r => setVariable name (.decimal r)) s := by
  unfold assign
  dsimp only
  rw [bind_of_ok (rfl : (get : Run State) s = (.ok s, s)), h]
  rfl

/-- A product or quotient that has a value is the exact one, rounded twice. -/
theorem multiply_ok (k : Scaling) {a b : Bool} {c d : Nat} {e f : Int} {s t : State} {r : Decimal}
    {pos : Option Pos} (hd : 0 < s.digits) (hne : k = .quotient → d ≠ 0)
    (h : multiply k.op (.finite a c e) (.finite b d f) pos s = (.ok r, t)) :
    t = s ∧ r = .finite (a != b)
      (twice s.digits s.kept (k.exact (magnitude c e) (magnitude d f))) (-s.kept) := by
  rw [multiply_eq k hd hne] at h
  obtain ⟨hr, rfl⟩ := eq_ok_of_decimal h
  obtain ⟨hfits, rfl⟩ := settled_ok (rfl : _ = t.kept) hr
  rw [roundedUnits_eq_twice (k.exact_nonneg c d e f)
    fun hpos => lastPlace_le hd hpos (tinyExponent_le_kept _ _) hfits.fits]
  exact ⟨rfl, rfl⟩

end Run

namespace Decimal

variable {digits places c d : Nat}

theorem units_ne_zero_iff {a : Bool} {e : Int} : (Decimal.finite a c e).units ≠ 0 ↔ c ≠ 0 := by
  rw [← Int.natAbs_ne_zero, units, natAbs_signed]

theorem lastPlace_magnitude_le {u : Nat} {g : Int} (hu : u < 10 ^ digits) (hd : 0 < digits)
    (hg : tinyExponent digits ≤ g) (hne : u ≠ 0) : lastPlace digits (magnitude u g) ≤ g := by
  have hcount := (digitCount_le_iff hd).mpr hu
  unfold lastPlace
  rw [log_magnitude hne, adjusted]
  omega

/-- A magnitude with no more digits than are worked with is rounded once. -/
theorem twice_magnitude {u : Nat} {g : Int} (hu : u < 10 ^ digits) (hd : 0 < digits)
    (hg : tinyExponent digits ≤ g) (hplaces : g ≤ -places) :
    twice digits places (magnitude u g) = once places (magnitude u g) := by
  have hplace := lastPlace_magnitude_le hu hd hg
  have hnonneg : 0 ≤ magnitude u g := by
    unfold magnitude
    positivity
  have hexact : rounded digits (magnitude u g) = magnitude u g := by
    by_cases hzero : u = 0
    · rw [hzero, magnitude_zero, rounded_zero]
    · exact rounded_exact (hplace hzero)
  rw [← roundedUnits_eq_twice hnonneg, roundedUnits, hexact]
  · rfl
  · intro hpos
    refine (hplace ?_).trans hplaces
    rintro rfl
    exact absurd hpos (by rw [magnitude_zero]; exact lt_irrefl 0)

/-- The divisor of a short number has no more digits than the quotient keeps behind its last
place. -/
theorem lt_pow_spare (hc : c ≠ 0) (hd : 0 < d) (hdl : d < 10 ^ digits) (hplaces : places ≤ 999998)
    (hshort : c * 10 ^ (places + 1) < 10 ^ digits) :
    (d : ℚ) < 10 ^ spare digits places ((c : ℚ) / d) := by
  have hd' : (0 : ℚ) < d := by exact_mod_cast hd
  have hc' : (0 : ℚ) < c := by exact_mod_cast Nat.pos_of_ne_zero hc
  have hlead := Int.zpow_log_le_self (b := 10) (by norm_num) (div_pos hc' hd')
  have hspare : (digits : Int) - places - 1 - Int.log 10 ((c : ℚ) / d) ≤
      spare digits places ((c : ℚ) / d) ∨ (digits : Int) ≤ spare digits places ((c : ℚ) / d) := by
    unfold spare lastPlace tinyExponent minExponent
    omega
  rw [← zpow_natCast]
  rcases hspare with hspare | hspare
  · refine lt_of_lt_of_le ?_ (zpow_le_zpow_right₀ (by norm_num) hspare)
    have hexp : (digits : Int) - places - 1 - Int.log 10 ((c : ℚ) / d) =
        digits - (places + 1 : Nat) - Int.log 10 ((c : ℚ) / d) := by
      push_cast
      ring
    have hshort' : (c : ℚ) * 10 ^ (places + 1) < 10 ^ digits := by exact_mod_cast hshort
    rw [le_div_iff₀ hd'] at hlead
    rw [hexp, zpow_sub₀ (by norm_num), zpow_sub₀ (by norm_num), zpow_natCast, zpow_natCast,
      lt_div_iff₀ (by positivity), lt_div_iff₀ (by positivity)]
    calc (d : ℚ) * 10 ^ Int.log 10 ((c : ℚ) / d) * 10 ^ (places + 1)
        ≤ c * 10 ^ (places + 1) := by
          rw [mul_comm (d : ℚ)]
          exact mul_le_mul_of_nonneg_right hlead (by positivity)
      _ < 10 ^ digits := hshort'
  · refine lt_of_lt_of_le ?_ (zpow_le_zpow_right₀ (by norm_num) hspare)
    rw [zpow_natCast]
    exact_mod_cast hdl

theorem twice_quotient (hd : 0 < d) (hdl : d < 10 ^ digits) (hplaces : places ≤ 999998)
    (hshort : c * 10 ^ (places + 1) < 10 ^ digits) :
    twice digits places ((c : ℚ) / d) = once places ((c : ℚ) / d) := by
  by_cases hc : c = 0
  · rw [hc, Nat.cast_zero, zero_div, twice_zero, once_zero]
  have hd' : (0 : ℚ) < d := by exact_mod_cast hd
  have hnonneg : (0 : ℚ) ≤ (c : ℚ) / d := by positivity
  have hspare := lt_pow_spare hc hd hdl hplaces hshort
  have hbelow := lt_once_succ places hnonneg
  have hrises : ¬Rises digits places ((c : ℚ) / d) := by
    rintro ⟨-, h⟩
    -- twice the quotient and an odd number are apart by a whole number of parts of the divisor
    have hvalue : (c : ℚ) / d * 10 ^ places * d = (c * 10 ^ places : Nat) := by
      push_cast
      field_simp
    have hpart : 1 / 10 ^ spare digits places ((c : ℚ) / d) * (d : ℚ) < 1 := by
      rw [one_div_mul_eq_div, div_lt_one (by positivity)]
      exact hspare
    have hle : 2 * (once places ((c : ℚ) / d) : ℚ) + 1 ≤
        2 * ((c : ℚ) / d * 10 ^ places) + 1 / 10 ^ spare digits places ((c : ℚ) / d) := by
      rcases h with h | ⟨h, -⟩
      · exact h.le
      · exact h.le
    have hlow := mul_lt_mul_of_pos_right hbelow hd'
    have hhigh := mul_le_mul_of_nonneg_right hle hd'.le
    rw [mul_assoc, hvalue] at hlow
    rw [add_mul _ (1 / _), mul_assoc 2 _ (d : ℚ), hvalue] at hhigh
    have hlow : 2 * (c * 10 ^ places) < (2 * once places ((c : ℚ) / d) + 1) * d := by
      exact_mod_cast hlow
    have hhigh : (((2 * once places ((c : ℚ) / d) + 1) * d : Nat) : ℚ) <
        (2 * (c * 10 ^ places) + 1 : Nat) := by
      push_cast at hhigh ⊢
      linarith
    have hhigh := Nat.cast_lt.mp hhigh
    omega
  have hfalls : ¬Falls digits places ((c : ℚ) / d) := by
    rintro ⟨hzero, -⟩
    rw [hzero, pow_zero] at hspare
    have hone : d < 1 := by exact_mod_cast hspare
    omega
  rw [twice, if_neg hrises, if_neg hfalls]

end Decimal

/-- The product or quotient of short numbers is rounded once. -/
theorem Scaling.twice_eq_once (k : Scaling) {digits places c d : Nat} {a b : Bool}
    (hd : 0 < digits) (hdl : d < 10 ^ digits) (hne : k = .quotient → d ≠ 0)
    (hplaces : places ≤ 999998) (hle : places ≤ digits)
    (hshort : k.Short digits places (signed a c) (signed b d)) :
    twice digits places (k.exact (magnitude c (-places)) (magnitude d (-places))) =
      once places (k.exact (magnitude c (-places)) (magnitude d (-places))) := by
  cases k with
  | product =>
    rw [Scaling.Short, Int.natAbs_mul, natAbs_signed, natAbs_signed] at hshort
    rw [Scaling.exact, ← magnitude_mul]
    refine twice_magnitude hshort hd ?_ (by omega)
    unfold tinyExponent minExponent
    omega
  | quotient =>
    rw [Scaling.Short, natAbs_signed] at hshort
    have hvalue : magnitude c (-places) / magnitude d (-places) = (c : ℚ) / d :=
      mul_div_mul_right _ _ (by positivity)
    rw [Scaling.exact, hvalue]
    exact twice_quotient (Nat.pos_of_ne_zero (hne rfl)) hdl hplaces hshort

/-- Products and quotients are rounded twice: to the digits and to the places. That can take one
that is just short of a half a unit too high, and a half that is met a unit too low; it makes no
difference for numbers that are short enough. -/
theorem products_rounded_twice (s : State) (k : Scaling) (x y : Decimal)
    (hx : OnGrid s.digits s.kept x) (hy : OnGrid s.digits s.kept y)
    (hne : k = .quotient → y.units ≠ 0) :
    let v := |k.exact x.value y.value|
    let result : Decimal :=
      .finite (x.isNegative != y.isNegative) (twice s.digits s.kept v) (-s.kept)
    (∀ limit left right pos start middle r t,
      (eval limit left >>= toDecimal) start = (.ok x, middle) →
      numberOf limit .product right middle = (.ok y, s) →
      eval limit (.product k.op left right pos) start = (.ok r, t) →
      t = s ∧ r = .decimal result) ∧
    (k = .quotient → ∀ name namePos pos t, s.env.get? name = some (.decimal x) →
      assign name namePos .div (.decimal y) pos s = (.ok (), t) →
      t = { s with env := s.env.set name (.decimal result) }) ∧
    (s.kept ≤ 999998 → s.kept ≤ s.digits → k.Short s.digits s.kept x.units y.units →
      twice s.digits s.kept v = once s.kept v) := by
  have hd := hx.digits_pos
  have hyl := hy.units_lt
  obtain ⟨a, c, rfl⟩ := hx.exists_eq
  obtain ⟨b, d, rfl⟩ := hy.exists_eq
  have hne' : k = .quotient → d ≠ 0 := fun hk => units_ne_zero_iff.mp (hne hk)
  have hv := k.abs_exact_value a b c d (-s.kept) (-s.kept)
  intro v result
  have hresult (t : State) (pos : Option Pos) (r : Decimal)
      (h : multiply k.op (.finite a c (-s.kept)) (.finite b d (-s.kept)) pos s = (.ok r, t)) :
      t = s ∧ r = result := by
    have h := multiply_ok k hd hne' h
    rwa [← hv] at h
  refine ⟨fun limit left right pos start middle r t hleft hright h => ?_,
    fun hk name namePos pos t hname h => ?_, fun hplaces hle hshort => ?_⟩
  · rw [eval_product hleft hright] at h
    obtain ⟨r', u, hr, hpure⟩ := eq_ok_of_bind h
    obtain ⟨rfl, rfl⟩ := hresult u pos r' hr
    cases hpure
    exact ⟨rfl, rfl⟩
  · subst hk
    rw [assign_div hname] at h
    obtain ⟨r, u, hr, hset⟩ := eq_ok_of_bind h
    obtain ⟨rfl, rfl⟩ := hresult u pos r hr
    cases hset
    rfl
  · rw [show v = _ from hv]
    rw [units, natAbs_signed] at hyl
    exact k.twice_eq_once hd hyl hne' hplaces hle hshort

/-- A quotient that is met at a half and goes down, alone and assigned; and one that is far from
halves. -/
theorem products_rounded_twice_half :
    let x : Decimal := .finite false 2000000000000000000000000001 (-10)
    let y : Decimal := .finite false 20000000000 (-10)
    let z : Decimal := .finite true 30000000000 (-10)
    let half : Decimal := .finite false 1000000000000000000000000000 (-10)
    (eval 0 (.product .div (.constant (.decimal x)) (.constant (.decimal y)) none) {} =
        (.ok (.decimal half), {}) ∧
      half = .finite false (twice 28 10 |x.value / y.value|) (-10)) ∧
    (assign "a" ⟨1, 1⟩ .div (.decimal y) none { env := ⟨[("a", .decimal x)]⟩ } =
        (.ok (), { env := ⟨[("a", .decimal half)]⟩ }) ∧
      (⟨[("a", .decimal half)]⟩ : Env) = (⟨[("a", .decimal x)]⟩ : Env).set "a"
        (.decimal (.finite false (twice 28 10 |x.value / y.value|) (-10)))) ∧
    twice 28 10 |y.value / z.value| = once 10 |y.value / z.value| := by
  intro x y z half
  have hgrid : OnGrid 28 10 x ∧ OnGrid 28 10 y ∧ OnGrid 28 10 z := by decide
  have hquotient : (Decimal.div 28 x y >>= toPlaces 28 10) = .ok half := by decide +kernel
  have hdiv (env : Env) : div x y none { env } = (.ok half, { env }) :=
    (div_eq x false (by decide) (-10) none _).trans (decimal_ok hquotient _)
  have heval : eval 0 (.product .div (.constant (.decimal x)) (.constant (.decimal y)) none) {} =
      (.ok (.decimal half), {}) := (eval_product rfl rfl none).trans (bind_of_ok (hdiv {}))
  have hassign : assign "a" ⟨1, 1⟩ .div (.decimal y) none { env := ⟨[("a", .decimal x)]⟩ } =
      (.ok (), { env := ⟨[("a", .decimal half)]⟩ }) :=
    (assign_div rfl ⟨1, 1⟩ none).trans (bind_of_ok (hdiv _))
  have h (env : Env) := products_rounded_twice { env } .quotient x y hgrid.1 hgrid.2.1
    fun _ => by decide
  have hz := products_rounded_twice {} .quotient y z hgrid.2.1 hgrid.2.2 fun _ => by decide
  refine ⟨⟨heval, ?_⟩, ⟨hassign, ?_⟩, ?_⟩
  · exact Value.decimal.inj ((h {}).1 0 _ _ none _ _ _ _ rfl rfl heval).2
  · exact congrArg State.env ((h _).2.1 rfl "a" ⟨1, 1⟩ none _ rfl hassign)
  · refine hz.2.2 (by decide) (by decide) ?_
    change (signed false 20000000000).natAbs * 10 ^ (10 + 1) < 10 ^ 28
    rw [natAbs_signed]
    norm_num

/-- A half that is lost, and a half that is made: the exact results are a unit above and a unit
below. -/
theorem products_miss_halves :
    (State.executeWithin 0 "200000000000000000.0000000001 / 2" {}).1 =
      .ok (.decimal (.finite false 1000000000000000000000000000 (-10))) ∧
    once 10 (2000000000000000000000000001 / 20000000000) = 1000000000000000000000000001 ∧
    (State.executeWithin 0 "100000000000000000.0000000001 * 0.46" {}).1 =
      .ok (.decimal (.finite false 460000000000000000000000001 (-10))) ∧
    once 10 (100000000000000000.0000000001 * 0.46) = 460000000000000000000000000 := by
  refine ⟨by decide +kernel, ?_, by decide +kernel, ?_⟩
  · decide +kernel
  · decide +kernel

/-- With the digits that belong to the places, products and quotients are in range. -/
theorem Scaling.exact_lt (k : Scaling) {places c d : Nat} (hplaces : places ≤ 999989)
    (hc : c < 10 ^ digitsFor places) (hd : d < 10 ^ digitsFor places)
    (hne : k = .quotient → d ≠ 0) :
    k.exact (magnitude c (-places)) (magnitude d (-places)) < (10 : ℚ) ^ maxExponent := by
  have hdigits : 0 < digitsFor places := by
    unfold digitsFor
    omega
  have hpow {n : Nat} (hn : n < 10 ^ digitsFor places) :
      magnitude n (-places) < (10 : ℚ) ^ (28 : Int) := by
    have hcount := (digitCount_le_iff hdigits).mpr hn
    refine (magnitude_lt_pow n _).trans_le (zpow_le_zpow_right₀ (by norm_num) ?_)
    unfold adjusted
    unfold digitsFor at hcount
    omega
  have hnonneg (n : Nat) : 0 ≤ magnitude n (-places) := by
    unfold magnitude
    positivity
  cases k with
  | product =>
    calc magnitude c (-places) * magnitude d (-places)
        < (10 : ℚ) ^ (28 : Int) * 10 ^ (28 : Int) :=
          mul_lt_mul'' (hpow hc) (hpow hd) (hnonneg c) (hnonneg d)
      _ = (10 : ℚ) ^ (28 + 28 : Int) := (zpow_add₀ (by norm_num) _ _).symm
      _ ≤ 10 ^ maxExponent := zpow_le_zpow_right₀ (by norm_num) (by unfold maxExponent; omega)
  | quotient =>
    have hone : (1 : ℚ) ≤ d := by exact_mod_cast Nat.one_le_iff_ne_zero.mpr (hne rfl)
    have hc' : (c : ℚ) < 10 ^ (digitsFor places : Int) := by
      rw [zpow_natCast]
      exact_mod_cast hc
    calc magnitude c (-places) / magnitude d (-places)
        = (c : ℚ) / d := mul_div_mul_right _ _ (by positivity)
      _ ≤ c := div_le_self (Nat.cast_nonneg c) hone
      _ < 10 ^ (digitsFor places : Int) := hc'
      _ ≤ 10 ^ maxExponent := by
        refine zpow_le_zpow_right₀ (by norm_num) ?_
        unfold digitsFor maxExponent
        omega

/-- The same, with all that follows for rounding: all places are kept, and no number of so many
digits is out of range. -/
theorem Scaling.in_range (k : Scaling) {s : State} {c d : Nat}
    (hdigits : s.digits = digitsFor s.places) (hplaces : s.places ≤ 999989)
    (hc : c < 10 ^ s.digits) (hd : d < 10 ^ s.digits) (hne : k = .quotient → d ≠ 0) :
    s.kept = s.places ∧ s.places ≤ 2 * (maxExponent.toNat + s.digits) ∧
      ¬Attains s.digits (maxExponent + 1)
        (k.exact (magnitude c (-s.kept)) (magnitude d (-s.kept))) ∧
      ∀ n < 10 ^ s.digits, adjusted n (-s.kept) ≤ maxExponent := by
  have hpos : 0 < s.digits := by
    rw [hdigits]
    unfold digitsFor
    omega
  have hkept : s.kept = s.places := by
    refine keptPlaces_eq ?_
    unfold tinyExponent minExponent
    omega
  rw [hkept]
  refine ⟨rfl, by unfold maxExponent; omega, not_attains hpos ?_,
    fun n hn => adjusted_le_of_lt hpos ?_ hn⟩
  · rw [add_sub_cancel_right]
    rw [hdigits] at hc hd
    exact k.exact_lt hplaces hc hd hne
  · rw [hdigits]
    unfold digitsFor maxExponent
    omega

/-- Products and quotients fail where rounding the exact one once fails: if it is out of range or
has too many digits. Otherwise they are off by little more than half a unit, and exact if the
exact one is a whole number of units. With the digits that belong to the places they are always
in range. -/
theorem products_fail_or_near (s : State) (k : Scaling) (x y : Decimal)
    (hx : OnGrid s.digits s.kept x) (hy : OnGrid s.digits s.kept y)
    (hne : k = .quotient → y.units ≠ 0) (pos : Option Pos) :
    let v := k.exact x.value y.value
    let lead := adjusted (roundedUnits s.digits s.kept |v|) (-s.kept)
    (Attains s.digits (maxExponent + 1) |v| →
      multiply k.op x y pos s = (.error (.fault (.trap .overflow)), s)) ∧
    (¬Attains s.digits (maxExponent + 1) |v| →
      (¬s.places ≤ 2 * (maxExponent.toNat + s.digits) ∨
          Attains s.digits (s.digits - s.kept) |v| ∨ maxExponent < lead →
        multiply k.op x y pos s = (.error (.fault (.trap .invalidOperation)), s)) ∧
      (s.places ≤ 2 * (maxExponent.toNat + s.digits) →
        ¬Attains s.digits (s.digits - s.kept) |v| → lead ≤ maxExponent →
        ∃ r, multiply k.op x y pos s = (.ok r, s) ∧ OnGrid s.digits s.kept r ∧
          20 * |r.value - v| ≤ 11 * 10 ^ (-s.kept : Int) ∧
          ∀ m : Int, v = m * 10 ^ (-s.kept : Int) → r.value = v)) ∧
    (s.digits = digitsFor s.places → s.places ≤ 999989 →
      s.kept = s.places ∧ s.places ≤ 2 * (maxExponent.toNat + s.digits) ∧
        ¬Attains s.digits (maxExponent + 1) |v| ∧
        (¬Attains s.digits (s.digits - s.kept) |v| → lead ≤ maxExponent)) := by
  have hd := hx.digits_pos
  have hxl := hx.units_lt
  have hyl := hy.units_lt
  obtain ⟨a, c, rfl⟩ := hx.exists_eq
  obtain ⟨b, d, rfl⟩ := hy.exists_eq
  rw [units, natAbs_signed] at hxl hyl
  have hne' : k = .quotient → d ≠ 0 := fun hk => units_ne_zero_iff.mp (hne hk)
  obtain ⟨w, hw⟩ : ∃ w, w = k.exact (magnitude c (-s.kept)) (magnitude d (-s.kept)) := ⟨_, rfl⟩
  have hnonneg : 0 ≤ w := hw ▸ k.exact_nonneg c d _ _
  have hsigned := k.exact_signed a b c d (-s.kept) (-s.kept)
  rw [← hw] at hsigned
  have habs := k.abs_exact_value a b c d (-s.kept) (-s.kept)
  rw [← hw] at habs
  have hmultiply := multiply_eq k (a := a) (b := b) (c := c) (e := -s.kept) (f := -s.kept) hd
    hne' pos
  rw [← hw, settled_eq (rfl : _ = s.kept) hd hnonneg] at hmultiply
  have htiny : tinyExponent s.digits ≤ -s.kept := tinyExponent_le_kept _ _
  have hless (hsmall : ¬Attains s.digits (s.digits - s.kept) w) :
      roundedUnits s.digits s.kept w < 10 ^ s.digits := by
    rwa [← not_le, pow_le_roundedUnits_iff hd hnonneg htiny]
  intro v
  rw [show |v| = w from habs]
  intro lead
  refine ⟨fun hover => ?_, fun hover => ⟨fun htrap => ?_, fun hfew hsmall hlead => ?_⟩,
    fun hdigits hplaces => ?_⟩
  · rw [if_pos hover] at hmultiply
    exact hmultiply
  · rw [if_neg hover, if_neg] at hmultiply
    · exact hmultiply
    · rintro ⟨hfew, hsmall, hlead⟩
      exact htrap.elim (not_not_intro hfew) fun h => h.elim hsmall (not_lt.mpr hlead)
  · rw [if_neg hover, if_pos ⟨hfew, hsmall, hlead⟩] at hmultiply
    have hplace := fun hpos => lastPlace_le hd hpos htiny (hless hsmall)
    refine ⟨_, hmultiply, ⟨rfl, (digitCount_le_iff hd).mpr (hless hsmall)⟩, ?_, fun m hm => ?_⟩
    · rw [show v = _ from hsigned]
      exact value_near hnonneg hplace (a != b)
    · rw [hm]
      exact value_exact hnonneg hplace (hsigned.symm.trans hm)
  · obtain ⟨hkept, hfew, hrange, hlead⟩ := k.in_range hdigits hplaces hxl hyl hne'
    exact ⟨hkept, hfew, hw ▸ hrange, fun hsmall => hlead _ (hless hsmall)⟩

/-- The largest number cannot be doubled, but halved. -/
theorem products_fail_or_near_largest :
    let x : Decimal := .finite false 9999999999999999999999999999 (-10)
    let y : Decimal := .finite true 20000000000 (-10)
    multiply .mul x y none {} = (.error (.fault (.trap .invalidOperation)), {}) ∧
    ∃ r, multiply .div x y none {} = (.ok r, {}) ∧ OnGrid 28 10 r ∧
      20 * |r.value - x.value / y.value| ≤ 11 * 10 ^ (-10 : Int) := by
  intro x y
  have hgrid : OnGrid 28 10 x ∧ OnGrid 28 10 y := by decide
  have h (k : Scaling) := products_fail_or_near {} k x y hgrid.1 hgrid.2 (fun _ => by decide) none
  have hrange (k : Scaling) := (h k).2.2 rfl (by decide)
  have hlarge : Attains 28 (28 - 10) |x.value * y.value| := by decide +kernel
  have hsmall : ¬Attains 28 (28 - 10) |x.value / y.value| := by decide +kernel
  obtain ⟨-, hfew, hover, hlead⟩ := hrange .quotient
  obtain ⟨r, hr, hr', hnear, -⟩ := ((h .quotient).2.1 hover).2 hfew hsmall (hlead hsmall)
  exact ⟨((h .product).2.1 (hrange .product).2.2.1).1 (.inr (.inl hlarge)), r, hr, hr', hnear⟩

/-- With so many places that none of them is in range, not even zero can be squared; and with a
million places, one cannot be divided by the last of them. -/
theorem products_fail_out_of_range :
    let s : State := { places := 999999999999999990 }
    let z : Decimal := .finite false 0 (-s.places)
    let t : State := { places := 1000000, digits := 1000010 }
    multiply .mul z z none s = (.error (.fault (.trap .invalidOperation)), s) ∧
    ¬Attains s.digits (s.digits - s.places) |z.value * z.value| ∧
    multiply .div (.finite false (10 ^ t.places) (-t.places)) (.finite false 1 (-t.places)) none t =
      (.error (.fault (.trap .overflow)), t) := by
  have hzero (s : State) (hs : s = { places := 999999999999999990 }) :
      multiply .mul (.finite false 0 (-999999999999999990)) (.finite false 0 (-999999999999999990))
        none s = (.error (.fault (.trap .invalidOperation)), s) := by
    subst hs
    rfl
  intro s z t
  refine ⟨hzero s rfl, not_attains (by decide) ?_, ?_⟩
  · have hvalue : z.value = 0 := by simp [z, value, signedMagnitude, signed]
    rw [hvalue, mul_zero, abs_zero]
    positivity
  · have hvalue : Scaling.quotient.exact (magnitude (10 ^ t.places) (-t.places))
        (magnitude 1 (-t.places)) = 10 ^ (maxExponent + 1) := by
      refine (mul_div_mul_right _ _ (by positivity)).trans ?_
      rw [Nat.cast_one, div_one, Nat.cast_pow, ← zpow_natCast]
      rfl
    have hover : Attains t.digits (maxExponent + 1) (10 ^ (maxExponent + 1)) := by
      unfold Attains
      exact sub_le_self _ (by positivity)
    have hmultiply := multiply_eq .quotient (a := false) (b := false) (c := 10 ^ t.places) (d := 1)
      (e := -t.places) (f := -t.places) (s := t) (by decide) (fun _ => one_ne_zero) none
    rw [hvalue, settled_eq rfl (by decide) (by positivity), if_pos hover] at hmultiply
    exact hmultiply

end DecimalScript
