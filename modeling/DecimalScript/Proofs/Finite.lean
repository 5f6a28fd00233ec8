import DecimalScript.Decimal.Power
import DecimalScript.Decimal.Text
import DecimalScript.Proofs.Shape
import Mathlib

/-! Which decimal operations give finite numbers. Operations on finite numbers do,
or are trapped; only zero to a negative power is infinite. Rounding to places
refuses infinities, and its results stand on the grid of the places. -/

namespace DecimalScript.Decimal

variable {digits places : Nat} {x y z : Decimal}

theorem finish_finite {negative : Bool} {coefficient : Nat} {exponent : Int}
    (h : finish digits negative coefficient exponent = .ok x) : x.isFinite := by
  unfold finish at h
  split at h
  · cases h
    rfl
  · split at h
    · cases h
    · dsimp -zeta only at h
      extract_lets count rounded at h
      split at h <;> split at h <;> cases h <;> rfl

/-! ### Operations -/

theorem neg_finite (hx : x.isFinite) (h : neg digits x = .ok z) : z.isFinite := by
  cases x with
  | finite => exact finish_finite h
  | _ => cases hx

theorem abs_finite (hx : x.isFinite) (h : abs digits x = .ok z) : z.isFinite := by
  cases x with
  | finite => exact finish_finite h
  | _ => cases hx

theorem addAligned_finite {highNegative lowNegative : Bool} {high low : Nat}
    {highExponent lowExponent : Int}
    (h : addAligned digits highNegative high highExponent lowNegative low lowExponent = .ok z) :
    z.isFinite := by
  unfold addAligned at h
  dsimp only at h
  split at h
  · exact finish_finite h
  · exact finish_finite h

theorem add_finite (hx : x.isFinite) (hy : y.isFinite) (h : add digits x y = .ok z) :
    z.isFinite := by
  cases x with
  | finite s c e =>
    cases y with
    | finite t d f =>
      change (if f ≤ e then addAligned digits s c e t d f else addAligned digits t d f s c e) = _ at h
      split at h
      · exact addAligned_finite h
      · exact addAligned_finite h
    | _ => cases hy
  | _ => cases hx

theorem flipped_finite (hx : x.isFinite) : x.flipped.isFinite := by
  cases x with
  | finite => rfl
  | _ => cases hx

theorem sub_finite (hx : x.isFinite) (hy : y.isFinite) (h : sub digits x y = .ok z) :
    z.isFinite := add_finite hx (flipped_finite hy) h

theorem mul_finite (hx : x.isFinite) (hy : y.isFinite) (h : mul digits x y = .ok z) :
    z.isFinite := by
  cases x with
  | finite =>
    cases y with
    | finite => exact finish_finite h
    | _ => cases hy
  | _ => cases hx

theorem divFinite_finite {negative : Bool} {c d : Nat} {e f : Int}
    (h : divFinite digits negative c e d f = .ok z) : z.isFinite := by
  unfold divFinite at h
  dsimp only at h
  split at h
  · exact finish_finite h
  · exact finish_finite h

theorem div_finite (hx : x.isFinite) (hy : y.isFinite) (h : div digits x y = .ok z) :
    z.isFinite := by
  cases x with
  | finite s c e =>
    cases y with
    | finite t d f =>
      change (if d = 0 then .error (if c = 0 then .invalidOperation else .divisionByZero)
        else if c = 0 then finish digits (s != t) 0 (e - f)
        else divFinite digits (s != t) c e d f) = _ at h
      split at h
      · cases h
      · split at h
        · exact finish_finite h
        · exact divFinite_finite h
    | _ => cases hy
  | _ => cases hx

theorem floor_finite (hx : x.isFinite) (h : floor x = .ok z) : z.isFinite := by
  cases x with
  | finite negative coefficient exponent =>
    unfold floor at h
    dsimp only at h
    split at h
    · cases h
      rfl
    · split at h <;> cases h <;> rfl
  | _ => cases hx

theorem isNaN_of_finite (hx : x.isFinite) : x.isNaN = false := by
  cases x with
  | finite => rfl
  | _ => cases hx

theorem powFinite_finite {negative : Bool} {coefficient : Nat} {exponent n : Int}
    (h : powFinite digits negative coefficient exponent n = .ok z) : z.isFinite := by
  unfold powFinite at h
  dsimp only at h
  split at h
  · cases h
    rfl
  · split at h
    · split at h
      · cases h
      · cases h
        rfl
    · exact finish_finite h

theorem pow_not_nan {n : Int} (hx : x.isFinite) (h : pow digits x n = .ok z) :
    z.isNaN = false := by
  cases x with
  | finite negative coefficient exponent =>
    unfold pow at h
    dsimp only at h
    split at h
    · split at h
      · cases h
      · split at h <;> cases h <;> rfl
    · split at h
      · cases h
        rfl
      · exact isNaN_of_finite (powFinite_finite h)
  | _ => cases hx

/-! ### Rounding to places -/

theorem quantize_finite {target : Int} (hx : x.isNaN = false)
    (h : quantize digits target x = .ok z) : z.isFinite := by
  cases x with
  | finite negative coefficient exponent =>
    dsimp -zeta only [quantize] at h
    split at h
    · cases h
    · split at h
      · exact finish_finite h
      · split at h
        · cases h
        · extract_lets rounded at h
          split at h
          · cases h
          · exact finish_finite h
  | infinity => cases h
  | nan => cases hx

theorem toPlaces_finite (hx : x.isNaN = false) (h : x.toPlaces digits places = .ok z) :
    z.isFinite := by
  unfold toPlaces at h
  split at h
  · cases h
  · exact quantize_finite hx h

/-! ### Numbers in programs -/

theorem eq_of_toLower_n {c : Char} (h : c.toLower = 'n') : c = 'n' ∨ c = 'N' := by
  unfold Char.toLower at h
  split at h
  · have hval : c.val + ('a'.val - 'A'.val) = 'N'.val + ('a'.val - 'A'.val) := congrArg Char.val h
    exact .inr (Char.ext (add_right_cancel hval))
  · exact .inl h

/-- A name for a NaN has the letter in it. -/
theorem readSpecial_nan {negative : Bool} {text : List Char}
    (h : readSpecial? negative text = some x) (hx : x.isNaN) : 'n' ∈ text := by
  unfold readSpecial? at h
  split at h
  · cases h
    cases hx
  · dsimp only at h
    split at h <;> rename_i heq
    · split at heq
      · simp_all
      · simp_all
    · cases h

theorem mem_of_mem_splitSign {text : List Char} {c : Char} (h : c ∈ (splitSign text).2) :
    c ∈ text := by
  unfold splitSign at h
  split at h
  · exact List.mem_cons_of_mem _ h
  · exact List.mem_cons_of_mem _ h
  · exact h

theorem mem_of_mem_trimmed {text : List Char} {c : Char} (h : c ∈ Text.trimmed text) : c ∈ text := by
  rw [Text.trimmed, List.mem_reverse] at h
  have := (List.dropWhile_sublist _).subset h
  exact (List.dropWhile_sublist _).subset (List.mem_reverse.mp this)

/-- Digits and points never write a NaN. -/
theorem ofText_numeral {text : String} (ht : IsNumeral text) (h : ofText text = .ok x) :
    x.isNaN = false := by
  unfold ofText at h
  split at h
  · rename_i y hy
    cases h
    unfold ofText? at hy
    dsimp only at hy
    split at hy
    · split at hy
      · cases hy
        rfl
      · cases hy
    · by_contra hx
      have hn := readSpecial_nan hy (by simpa using hx)
      obtain ⟨c, hc, hlower⟩ := List.mem_map.mp hn
      have hmem := ht c (mem_of_mem_trimmed (List.mem_of_mem_filter (mem_of_mem_splitSign hc)))
      rcases eq_of_toLower_n hlower with rfl | rfl
      · exact absurd hmem (by decide)
      · exact absurd hmem (by decide)
  · cases h

/-! ### The grid of the places -/

/-- A finite number with exactly these places and no more digits than can be worked with. -/
def OnGrid (digits places : Nat) : Decimal → Prop
  | .finite _ coefficient exponent => exponent = -places ∧ digitCount coefficient ≤ digits
  | _ => False

instance (digits places : Nat) : DecidablePred (OnGrid digits places) := fun x =>
  match x with
  | .finite _ coefficient exponent =>
    inferInstanceAs (Decidable (exponent = -places ∧ digitCount coefficient ≤ digits))
  | .infinity _ | .nan .. => inferInstanceAs (Decidable False)

theorem OnGrid.finite (h : OnGrid digits places x) : x.isFinite := by
  cases x with
  | finite => rfl
  | _ => cases h

theorem dropDigits_zero (tie : Tie) (coefficient : Nat) :
    dropDigits tie coefficient 0 = coefficient := by
  simp [dropDigits, divNearest, Nat.mod_one]

/-- A number that fits is not rounded again. -/
theorem finish_fitting {negative : Bool} {coefficient : Nat} {exponent : Int}
    (hd : digitCount coefficient ≤ digits) (hlow : tinyExponent digits ≤ exponent)
    (hhigh : exponent ≤ maxExponent) (h : finish digits negative coefficient exponent = .ok z) :
    z = .finite negative coefficient exponent := by
  unfold finish at h
  split at h
  · rename_i hc
    rw [max_eq_right (by omega), min_eq_right hhigh] at h
    exact hc ▸ (Except.ok.inj h).symm
  · split at h
    · cases h
    · have hcount :
          max (digitCount coefficient - digits) (tinyExponent digits - exponent).toNat = 0 := by
        omega
      have hfits : ¬digits < digitCount coefficient := by omega
      simp only [hcount, dropDigits_zero, hfits, ↓reduceIte, Nat.cast_zero, add_zero] at h
      split at h
      · cases h
      · exact (Except.ok.inj h).symm

theorem quantize_onGrid (hd : 0 < digits) (hx : x.isNaN = false)
    (h : quantize digits (-places) x = .ok z) : OnGrid digits places z := by
  cases x with
  | finite negative coefficient exponent =>
    dsimp -zeta only [quantize] at h
    split at h
    · cases h
    · rename_i hrange
      rw [not_or, not_lt, not_lt] at hrange
      split at h
      · have hzero : digitCount 0 ≤ digits := hd
        have := finish_fitting hzero hrange.2 hrange.1 h
        subst this
        exact ⟨rfl, hzero⟩
      · split at h
        · cases h
        · extract_lets rounded at h
          split at h
          · cases h
          · rename_i hrounded
            rw [not_or, not_lt, not_lt] at hrounded
            have := finish_fitting hrounded.2 hrange.2 hrange.1 h
            subst this
            exact ⟨rfl, hrounded.2⟩
  | infinity => cases h
  | nan => cases hx

/-! ### The places that are kept -/

theorem keptPlaces_le (digits places : Nat) : keptPlaces digits places ≤ places :=
  Nat.min_le_left _ _

theorem tinyExponent_le_zero (digits : Nat) : tinyExponent digits ≤ 0 := by
  unfold tinyExponent minExponent
  omega

theorem tinyExponent_le_kept (digits places : Nat) :
    tinyExponent digits ≤ -(keptPlaces digits places : Int) := by
  have htiny := tinyExponent_le_zero digits
  unfold keptPlaces
  omega

theorem keptPlaces_eq (h : tinyExponent digits ≤ -(places : Int)) :
    keptPlaces digits places = places := by
  unfold keptPlaces
  omega

theorem keptPlaces_eq_of_lt (h : keptPlaces digits places < digits) :
    keptPlaces digits places = places := by
  apply keptPlaces_eq
  unfold keptPlaces tinyExponent minExponent at *
  omega

/-- So many places can be asked for. -/
theorem toPlaces_eq_quantize (h : places ≤ 2 * (maxExponent.toNat + digits)) (x : Decimal) :
    x.toPlaces digits places = x.quantize digits (-keptPlaces digits places) :=
  if_neg (not_lt.mpr h)

theorem toPlaces_excess (h : ¬places ≤ 2 * (maxExponent.toNat + digits)) (x : Decimal) :
    x.toPlaces digits places = .error .invalidOperation :=
  if_pos (not_le.mp h)

theorem toPlaces_onGrid (hd : 0 < digits) (hx : x.isNaN = false)
    (h : x.toPlaces digits places = .ok z) : OnGrid digits (keptPlaces digits places) z := by
  unfold toPlaces at h
  split at h
  · cases h
  · exact quantize_onGrid hd hx h

end DecimalScript.Decimal
