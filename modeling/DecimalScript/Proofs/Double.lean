import DecimalScript.Binary64.Function
import DecimalScript.Proofs.Finite
import Mathlib

/-! Doubles that are numbers. A decimal number becomes one, and the functions of
programs make only such doubles of such, or none at all. -/

namespace DecimalScript.Binary64

variable {x y z : Binary64}

/-- A NaN has the largest exponent field and a fraction. -/
theorem view_eq_nan (x : Binary64) :
    x.view = .nan ↔ x.bits.toNat / 2 ^ 52 % 2 ^ 11 = 2047 ∧ x.bits.toNat % 2 ^ 52 ≠ 0 := by
  unfold view
  dsimp only [fractions]
  split
  · rename_i hfield
    split
    · rename_i hfraction
      exact iff_of_false nofun fun h => h.2 hfraction
    · rename_i hfraction
      exact iff_of_true rfl ⟨hfield, hfraction⟩
  · rename_i hfield
    have hother : ¬(x.bits.toNat / 2 ^ 52 % 2 ^ 11 = 2047 ∧ x.bits.toNat % 2 ^ 52 ≠ 0) :=
      fun h => hfield h.1
    split
    · exact iff_of_false nofun hother
    · exact iff_of_false nofun hother

theorem isNaN_eq (x : Binary64) :
    x.isNaN = decide (x.bits.toNat / 2 ^ 52 % 2 ^ 11 = 2047 ∧ x.bits.toNat % 2 ^ 52 ≠ 0) := by
  rw [Bool.eq_iff_iff, isNaN, beq_iff_eq, decide_eq_true_iff, view_eq_nan]

theorem isNaN_ofWord {negative : Bool} {word : Nat} (h : word ≤ 2047 * 2 ^ 52) :
    (ofWord negative word).isNaN = false := by
  rw [isNaN_eq, decide_eq_false_iff_not]
  unfold ofWord
  rw [UInt64.toNat_ofNat', Nat.pow_eq]
  split <;> omega

theorem isNaN_zero (negative : Bool) : (zero negative).isNaN = false := isNaN_ofWord (by norm_num)

theorem isNaN_infinity (negative : Bool) : (infinity negative).isNaN = false :=
  isNaN_ofWord (by norm_num [fractions])

theorem isNaN_one : one.isNaN = false := isNaN_ofWord (by norm_num [fractions])

theorem isNaN_neg (x : Binary64) : x.neg.isNaN = x.isNaN := by
  have hsign : (0x8000000000000000 : UInt64).toNat = 2 ^ 63 := rfl
  rw [isNaN_eq, isNaN_eq, neg, UInt64.toNat_xor, hsign, Nat.xor_div_two_pow, Nat.xor_mod_two_pow,
    Nat.xor_mod_two_pow]
  norm_num

theorem isNaN_ofRatio (negative : Bool) (num den : Nat) :
    (ofRatio negative num den).isNaN = false := by
  unfold ofRatio
  split
  · exact isNaN_zero negative
  · dsimp only
    split
    · exact isNaN_infinity negative
    · rename_i hword
      exact isNaN_ofWord (by simp only [fractions, Nat.pow_eq] at hword ⊢; omega)

theorem ofDecimal_not_nan {d : Decimal} (hd : d.isFinite) (h : ofDecimal? d = some x) :
    x.isNaN = false := by
  cases d with
  | finite negative coefficient exponent =>
    obtain rfl := Option.some.inj h
    split
    · exact isNaN_zero negative
    · split
      · exact isNaN_infinity negative
      · split
        · exact isNaN_zero negative
        · exact isNaN_ofRatio ..
  | _ => cases hd

theorem toDecimal_not_nan (hx : x.isNaN = false) : x.toDecimal.isNaN = false := by
  unfold toDecimal
  split
  · rename_i hview
    simp [isNaN, hview] at hx
  · rfl
  · split
    · rfl
    · dsimp only
      split <;> rfl

/-! ### Functions -/

theorem real_not_nan (hx : x.isNaN = false) (h : real? x y = some z) : z.isNaN = false := by
  unfold real? at h
  split at h
  · cases h
  · rename_i hn
    cases h
    simpa [hx] using hn

theorem elementary_not_nan {f : Elementary} (hx : x.isNaN = false) (h : f.apply? x = some y) :
    y.isNaN = false := by
  unfold Elementary.apply? at h
  split at h
  · exact real_not_nan hx h
  · cases h

theorem reciprocal_not_nan (hx : x.isNaN = false) (h : x.reciprocal? = some y) :
    y.isNaN = false := by
  unfold reciprocal? at h
  split at h
  · cases h
  · rename_i hzero
    cases h
    have hone : one.view = .finite false fractions (-52) := by decide +kernel
    unfold div
    rw [hone]
    cases hview : x.view with
    | finite negative significand exponent =>
      have hs : significand ≠ 0 := by simpa [isZero, hview] using hzero
      simp only [hs, ↓reduceIte]
      exact isNaN_ofRatio ..
    | infinity negative => exact isNaN_zero _
    | nan => simp [isNaN, hview] at hx

theorem powPositive_not_nan (h : powPositive x y = .ok z) : z.isNaN = false := by
  unfold powPositive at h
  dsimp only at h
  split at h
  · cases h
  · split at h
    · cases h
    · rename_i hn
      cases h
      simpa using hn

theorem pow_not_nan (hx : x.isNaN = false) (hy : y.isNaN = false) (h : x.pow y = .ok z) :
    z.isNaN = false := by
  unfold pow at h
  rw [if_neg (c := x.isNaN = true) (by simp [hx]), if_neg (c := y.isNaN = true) (by simp [hy])] at h
  split at h
  · cases h
    exact isNaN_one
  · split at h
    · split at h
      · cases h
        exact isNaN_one
      · split at h
        · cases h
          exact isNaN_infinity _
        · cases h
          exact isNaN_zero _
    · split at h
      · have hsize : (if y.isNegative then zero false else infinity false).isNaN = false := by
          split
          · exact isNaN_zero _
          · exact isNaN_infinity _
        cases h
        split
        · rw [isNaN_neg]
          exact hsize
        · exact hsize
      · split at h
        · split at h
          · cases h
          · cases h
            split
            · exact hx
            · exact isNaN_zero _
        · split at h
          · cases hpower : powPositive x.abs y with
            | error fault =>
              rw [hpower] at h
              split at h <;> cases h
            | ok power =>
              rw [hpower] at h
              split at h
              · cases h
                split
                · rw [isNaN_neg]
                  exact powPositive_not_nan hpower
                · exact powPositive_not_nan hpower
              · cases h
          · exact powPositive_not_nan h

end DecimalScript.Binary64
