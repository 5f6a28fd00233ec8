import DecimalScript.Proofs.Exact
import Mathlib

/-! Powers of whole numbers. Repeated squaring follows the exact power as long as that has not
more digits than are worked with, and stays above the bound once the power is
above it: so a power that fits is exact, and one that does not is not mistaken for a
smaller one. -/

namespace DecimalScript.Decimal

variable {digits : Nat} {s : Bool} {a b c d n : Nat} {e f : Int}

/-! ### Whole numbers -/

theorem coefficient_eq (he : e ≤ 0) (h : magnitude c e = n) : c = n * 10 ^ (-e).toNat := by
  rw [← magnitude_unit n, ← magnitude_scaled he, zero_sub] at h
  exact le_antisymm (magnitude_le_iff.mp h.le) (magnitude_le_iff.mp h.ge)

theorem truncated_whole (h : magnitude c e = n) : truncated s c e = signed s n := by
  unfold truncated
  congr 1
  split
  · rename_i he
    rw [← magnitude_scaled he, magnitude_unit, sub_zero] at h
    exact_mod_cast h
  · rename_i he
    have hc := coefficient_eq (by omega) h
    have hunit : 0 < 10 ^ (-e).toNat := by positivity
    split
    · rename_i hcount
      have hlt := (lt_pow_digitCount c).trans_le (Nat.pow_le_pow_right (by norm_num) hcount)
      rw [hc] at hlt
      have hone : n < 1 := Nat.lt_of_mul_lt_mul_right (by rwa [one_mul])
      omega
    · rw [hc]
      exact Nat.mul_div_cancel n hunit

theorem magnitude_lt_of_adjusted_lt (hd : d ≠ 0) (h : adjusted c e < adjusted d f) :
    magnitude c e < magnitude d f := by
  by_contra hle
  exact absurd (adjusted_le_of_magnitude_le hd (not_lt.mp hle)) (not_le.mpr h)

theorem compareFinite_eq (hc : c ≠ 0) (hd : d ≠ 0) :
    compareFinite false c e false d f = compare (magnitude c e) (magnitude d f) := by
  unfold compareFinite
  simp only [hc, hd, and_self, ↓reduceIte, ne_eq, not_true_eq_false, Bool.false_eq_true]
  split
  · rename_i hne
    rcases lt_or_gt_of_ne hne with h | h
    · rw [compare_lt_iff_lt.mpr h, compare_lt_iff_lt.mpr (magnitude_lt_of_adjusted_lt hd h)]
    · rw [compare_gt_iff_gt.mpr h, compare_gt_iff_gt.mpr (magnitude_lt_of_adjusted_lt hc h)]
  · -- both numbers are brought to the lower one of the exponents
    have scaled (c : Nat) {e f g : Int} (h : g = min e f) :
        magnitude (c * 10 ^ (e - f).toNat) g = magnitude c e := by
      have : (e - f).toNat = (e - g).toNat := by omega
      rw [this, magnitude_scaled (by omega)]
    have hce := scaled c (e := e) (f := f) rfl
    have hdf := scaled d (e := f) (f := e) (min_comm e f)
    rw [← hce, ← hdf]
    rcases lt_trichotomy (c * 10 ^ (e - f).toNat) (d * 10 ^ (f - e).toNat) with h | h | h
    · rw [compare_lt_iff_lt.mpr (magnitude_lt_iff.mpr h)]
      exact compare_lt_iff_lt.mpr h
    · rw [h, compare_eq_iff_eq.mpr rfl]
      exact compare_eq_iff_eq.mpr h
    · rw [compare_gt_iff_gt.mpr (magnitude_lt_iff.mpr h)]
      exact compare_gt_iff_gt.mpr h

theorem compareFinite_of_magnitude_eq (h : magnitude c e = magnitude d f) :
    compareFinite s c e s d f = .eq := by
  by_cases hc : c = 0
  · have hd : d = 0 := by
      by_contra hd
      rw [hc, magnitude_zero] at h
      exact absurd h (magnitude_pos hd f).ne
    rw [compareFinite, if_pos ⟨hc, hd⟩]
  · have hd : d ≠ 0 := by
      rintro rfl
      rw [magnitude_zero] at h
      exact absurd h (magnitude_pos hc e).ne'
    have heq := (compareFinite_eq hc hd).trans (compare_eq_iff_eq.mpr h)
    cases s with
    | false => exact heq
    | true =>
      have hswap : compareFinite true c e true d f = (compareFinite false c e false d f).swap := by
        simp [compareFinite, hc, hd]
      rw [hswap, heq]
      rfl

theorem isWhole_whole (h : magnitude c e = n) : isWhole (.finite s c e) = .ok true := by
  have hequal {d : Nat} {f : Int} (h : magnitude c e = magnitude d f) :
      equal (.finite s c e) (.finite s d f) = .ok true := by
    have hcompare : equal (.finite s c e) (.finite s d f) =
      .ok (some (compareFinite s c e s d f) == some .eq) := rfl
    rw [hcompare, compareFinite_of_magnitude_eq h]
    rfl
  unfold isWhole nearestWhole
  dsimp only
  split
  · exact hequal rfl
  · rename_i he
    refine hequal ?_
    have hc := coefficient_eq (by omega) h
    rw [magnitude_unit, hc, dropDigits_mul_pow, ← hc, h]

/-! ### Repeated squaring -/

theorem binaryDigits_ne_nil (n : Nat) : binaryDigits n ≠ [] := by
  have hpos : 0 < (Nat.toDigits 2 n).length := Nat.length_toDigits_pos
  intro h
  rw [← List.length_map, show (Nat.toDigits 2 n).map (· == '1') = [] from h] at hpos
  exact absurd hpos (lt_irrefl 0)

/-- The last binary digit tells odd numbers, the ones before it are those of the half. -/
theorem binaryDigits_half (h : 2 ≤ n) : binaryDigits n = binaryDigits (n / 2) ++ [n % 2 == 1] := by
  unfold binaryDigits
  rw [Nat.toDigits_of_base_le (by norm_num) h, List.map_append]
  congr 1
  rcases Nat.mod_two_eq_zero_or_one n with h | h <;> simp [h]

theorem squareMultiply_one (digits c : Nat) (e : Int) : squareMultiply digits c e 1 = (c, e) := rfl

theorem squareMultiply_half (digits c : Nat) (e : Int) (h : 2 ≤ n) :
    squareMultiply digits c e n =
      let root := squareMultiply digits c e (n / 2)
      let square := toDigits digits (root.1 * root.1) (root.2 + root.2)
      if n % 2 == 1 then toDigits digits (square.1 * c) (square.2 + e) else square := by
  unfold squareMultiply
  rw [binaryDigits_half h, List.tail_append_of_ne_nil (binaryDigits_ne_nil _), List.foldl_append]
  rfl

/-- A calculated value follows the exact one: the two are equal, or both are above the bound. -/
def Follows (bound v w : ℚ) : Prop := v = w ∨ bound ≤ v ∧ bound ≤ w

variable {bound v w v' w' : ℚ}

theorem Follows.one_le (h : Follows bound v w) (hb : 1 ≤ bound) (hv : 1 ≤ v) : 1 ≤ w := by
  rcases h with rfl | ⟨_, hw⟩
  · exact hv
  · exact hb.trans hw

theorem Follows.mul (h : Follows bound v w) (h' : Follows bound v' w') (hb : 1 ≤ bound)
    (hv : 1 ≤ v) (hv' : 1 ≤ v') : Follows bound (v * v') (w * w') := by
  have hw := h.one_le hb hv
  have hw' := h'.one_le hb hv'
  have left {x y : ℚ} (hx : bound ≤ x) (hy : 1 ≤ y) : bound ≤ x * y :=
    hx.trans (le_mul_of_one_le_right (by linarith) hy)
  have right {x y : ℚ} (hx : 1 ≤ x) (hy : bound ≤ y) : bound ≤ x * y :=
    hy.trans (le_mul_of_one_le_left (by linarith) hx)
  rcases h with rfl | ⟨hbv, hbw⟩
  · rcases h' with rfl | ⟨hbv', hbw'⟩
    · exact .inl rfl
    · exact .inr ⟨right hv hbv', right hw hbw'⟩
  · exact .inr ⟨left hbv hv', left hbw hw'⟩

theorem Follows.toDigits (hd : 0 < digits) (h : Follows (10 ^ (digits - 1)) n (magnitude c e)) :
    Follows (10 ^ (digits - 1)) n
      (magnitude (toDigits digits c e).1 (Decimal.toDigits digits c e).2) := by
  have hrounds : Rounds digits 0 _ _ := toDigits_rounds hd c e
  have hbound : 10 ^ (digits - 1) < 10 ^ digits := Nat.pow_lt_pow_right (by norm_num) (by omega)
  have hcast : magnitude (10 ^ (digits - 1)) 0 = 10 ^ (digits - 1) := by
    rw [magnitude_unit]
    push_cast
    rfl
  have keep (hle : 10 ^ (digits - 1) ≤ magnitude c e) :
      10 ^ (digits - 1) ≤
        magnitude (Decimal.toDigits digits c e).1 (Decimal.toDigits digits c e).2 := by
    rw [← hcast] at hle ⊢
    exact (hrounds _ 0 hbound le_rfl).1 hle
  rcases h with h | ⟨hn, hw⟩
  · by_cases hfits : n < 10 ^ digits
    · have hexact := hrounds.exact hfits le_rfl (h.symm.trans (magnitude_unit n).symm)
      exact .inl (hexact.trans (magnitude_unit n)).symm
    · have hn : (10 : ℚ) ^ (digits - 1) ≤ n := by exact_mod_cast hbound.le.trans (not_lt.mp hfits)
      exact .inr ⟨hn, keep (hn.trans h.le)⟩
  · exact .inr ⟨hn, keep hw⟩

/-- Repeated squaring follows the power. -/
theorem squareMultiply_follows (hd : 0 < digits) (ha : 1 ≤ a) (hc : magnitude c e = a)
    (hn : 1 ≤ n) :
    Follows (10 ^ (digits - 1)) (a ^ n : Nat)
      (magnitude (squareMultiply digits c e n).1 (squareMultiply digits c e n).2) := by
  have hb : (1 : ℚ) ≤ 10 ^ (digits - 1) := one_le_pow₀ (by norm_num)
  have hpow (k : Nat) : (1 : ℚ) ≤ (a ^ k : Nat) := by exact_mod_cast Nat.one_le_pow k a ha
  induction n using Nat.strong_induction_on with
  | _ n ih =>
    by_cases hone : n = 1
    · subst hone
      rw [squareMultiply_one, pow_one]
      exact .inl hc.symm
    · rw [squareMultiply_half digits c e (by omega)]
      dsimp only
      have hroot := ih (n / 2) (by omega) (by omega)
      generalize squareMultiply digits c e (n / 2) = root at hroot ⊢
      have hsquare := hroot.mul hroot hb (hpow _) (hpow _)
      rw [← magnitude_mul, ← Nat.cast_mul] at hsquare
      have hsquare := hsquare.toDigits hd
      rw [← pow_add] at hsquare
      rcases Nat.mod_two_eq_zero_or_one n with heven | hodd
      · have hsum : n / 2 + n / 2 = n := by omega
        simpa [heven, hsum] using hsquare
      · have hsum : n / 2 + n / 2 + 1 = n := by omega
        have hproduct := hsquare.mul (.inl hc.symm) hb (hpow _) (by exact_mod_cast ha)
        rw [← magnitude_mul, ← Nat.cast_mul, ← pow_succ, hsum] at hproduct
        simpa [hodd] using hproduct.toDigits hd

/-! ### Powers that leave the range -/

theorem le_adjusted_of_pow_le {k : Nat} (h : 10 ^ k ≤ n) : (k : Int) ≤ adjusted n 0 := by
  have hmagnitude : magnitude (10 ^ k) 0 ≤ magnitude n 0 := magnitude_le_iff.mpr h
  have hne : 10 ^ k ≠ 0 := by positivity
  have hcount : adjusted (10 ^ k) 0 = k := by
    have := digitCount_mul_pow one_ne_zero k
    rw [one_mul] at this
    have hone : digitCount 1 = 1 := rfl
    unfold adjusted
    omega
  rw [← hcount]
  exact adjusted_le_of_magnitude_le hne hmagnitude

theorem pow_le_of_two_le (ha : 2 ≤ a) {k : Nat} (h : 4 * k ≤ b) : 10 ^ k ≤ a ^ b := by
  calc 10 ^ k ≤ (2 ^ 4) ^ k := Nat.pow_le_pow_left (by norm_num) k
    _ = 2 ^ (4 * k) := (pow_mul 2 4 k).symm
    _ ≤ 2 ^ b := Nat.pow_le_pow_right (by norm_num) h
    _ ≤ a ^ b := Nat.pow_le_pow_left ha b

/-- A power of a whole number that is sure to leave the range does so. -/
theorem leavesRange_whole (ha : 2 ≤ a) (hc : magnitude c e = a) (hb : b ≠ 0)
    (h : leavesRange digits c e b = true) : maxExponent < adjusted (a ^ b) 0 := by
  have hc' : c ≠ 0 := fun h => by
    have := (coefficient_eq_zero_iff hc).mp h
    omega
  have hstart := adjusted_eq_of_magnitude_eq hc' (hc.trans (magnitude_unit a).symm)
  have hcount := digitCount_pos a
  have hlead : adjusted a 0 = ((digitCount a - 1 : Nat) : Int) := by
    unfold adjusted
    omega
  unfold leavesRange at h
  rw [hstart, hlead] at h
  simp only [Bool.or_eq_true, Bool.and_eq_true, decide_eq_true_eq] at h
  rcases h with (⟨_, hfar⟩ | ⟨hneg, _⟩) | hmany
  · have hle : 10 ^ (digitCount a - 1) ≤ a := pow_le_of_lt_digitCount (by omega) (by omega)
    have hpow := Nat.pow_le_pow_left hle b
    rw [← pow_mul] at hpow
    have := le_adjusted_of_pow_le hpow
    push_cast at this hfar
    unfold maxExponent at hfar ⊢
    omega
  · omega
  · have hlog : 40 ≤ Nat.log2 b := by omega
    rw [Nat.le_log2 hb] at hlog
    have := le_adjusted_of_pow_le (pow_le_of_two_le ha (k := 1000000) (b := b) (by omega))
    unfold maxExponent
    omega

/-! ### Powers -/

def powerSign (s : Bool) (b : Nat) : Bool := s && (b : Int) % 2 != 0

theorem signed_pow (s : Bool) (a b : Nat) : signed (powerSign s b) (a ^ b) = signed s a ^ b := by
  cases s with
  | false => simp [signed, powerSign]
  | true =>
    rcases Nat.even_or_odd b with h | h
    · have hb : (b : Int) % 2 = 0 := by
        have := Nat.even_iff.mp h
        omega
      simp [signed, powerSign, hb, h.neg_pow]
    · have hb : (b : Int) % 2 = 1 := by
        have := Nat.odd_iff.mp h
        omega
      simp [signed, powerSign, hb, h.neg_pow]

/-- What a power of a whole number is rounded from, unless it is too large. -/
theorem powFinite_follows (hd : 0 < digits) (ha : a ≠ 0) (hb : b ≠ 0) (hc : magnitude c e = a) :
    (powFinite digits s c e b = .error .overflow ∧ maxExponent < adjusted (a ^ b) 0) ∨
      ∃ c' e', powFinite digits s c e b = finish digits (powerSign s b) c' e' ∧
        Follows (10 ^ digits) (a ^ b : Nat) (magnitude c' e') := by
  have hc' : c ≠ 0 := fun h => ha ((coefficient_eq_zero_iff hc).mp h)
  have hcompare : compareFinite false c e false 1 0 = compare (a : ℚ) 1 := by
    rw [compareFinite_eq hc' one_ne_zero, hc, magnitude_unit, Nat.cast_one]
  have hsign : (s && (b : Int) % 2 != 0) = powerSign s b := rfl
  unfold powFinite isUnit
  dsimp only
  rw [hcompare, hsign]
  by_cases hone : a = 1
  · subst hone
    have hgrid := finish_grid (powerSign s b) (c := 1) (e := 0) hd
      (Nat.one_lt_pow hd.ne' (by norm_num)) (tinyExponent_le_zero digits) (by decide) (by decide)
    refine .inr ⟨1, 0, ?_, ?_⟩
    · rw [hgrid]
      simp
    · rw [one_pow, magnitude_unit]
      exact .inl rfl
  · have hgt : compare (a : ℚ) 1 = .gt := by
      rw [compare_gt_iff_gt]
      exact_mod_cast (by omega : 1 < a)
    have hpos : (0 : Int) < b := by omega
    rw [hgt, if_neg (by decide)]
    split
    · rename_i hleaves
      refine .inl ⟨?_, leavesRange_whole (by omega) hc hb hleaves⟩
      rw [decide_eq_true hpos]
      rfl
    · refine .inr ⟨_, _, rfl, ?_⟩
      have hguarded : 0 < digits + digitCount b + 2 := by omega
      have hfollows := squareMultiply_follows (n := b) hguarded (by omega) hc (by omega)
      have hle : (10 : ℚ) ^ digits ≤ 10 ^ (digits + digitCount b + 2 - 1) :=
        pow_le_pow_right₀ (by norm_num) (by omega)
      exact hfollows.imp_right (And.imp hle.trans hle.trans)

/-- A power that fits is exact. -/
theorem pow_exact (hd : 0 < digits) (h : a ≠ 0 ∨ b ≠ 0) (hc : magnitude c e = a)
    (hfits : a ^ b < 10 ^ digits) (hrange : adjusted (a ^ b) 0 ≤ maxExponent) :
    ∃ c' e', pow digits (.finite s c e) b = .ok (.finite (powerSign s b) c' e') ∧
      c' < 10 ^ digits ∧ magnitude c' e' = (a ^ b : Nat) := by
  have hsign : (s && (b : Int) % 2 != 0) = powerSign s b := rfl
  unfold pow
  dsimp only
  rw [hsign]
  by_cases ha : a = 0
  · have hb : b ≠ 0 := h.resolve_left (not_not.mpr ha)
    have hzero : c = 0 := (coefficient_eq_zero_iff hc).mpr ha
    have hb' : (b : Int) ≠ 0 := by exact_mod_cast hb
    rw [if_pos hzero, if_neg hb', if_neg (by omega)]
    refine ⟨0, 0, rfl, by positivity, ?_⟩
    rw [ha, zero_pow hb, magnitude_zero, Nat.cast_zero]
  · rw [if_neg (fun h => ha ((coefficient_eq_zero_iff hc).mp h))]
    by_cases hb : b = 0
    · subst hb
      refine ⟨1, 0, ?_, Nat.one_lt_pow hd.ne' (by norm_num), ?_⟩
      · simp [powerSign, one, ofNat]
      · rw [pow_zero, magnitude_unit]
    · have hb' : (b : Int) ≠ 0 := by exact_mod_cast hb
      rw [if_neg hb']
      rcases powFinite_follows (s := s) hd ha hb hc with ⟨_, hlarge⟩ | ⟨c', e', hfinish, hfollows⟩
      · exact absurd hrange (not_le.mpr hlarge)
      · have hvalue : magnitude c' e' = magnitude (a ^ b) 0 := by
          rw [magnitude_unit]
          rcases hfollows with h | ⟨h, _⟩
          · exact h.symm
          · exact absurd (by exact_mod_cast h) (not_le.mpr hfits)
        obtain ⟨c'', e'', hresult, hlt, hvalue'⟩ := finish_exact (powerSign s b) hd hvalue
          hfits (tinyExponent_le_zero digits) hrange
        exact ⟨c'', e'', hfinish.trans hresult, hlt, hvalue'.trans (magnitude_unit _)⟩

/-- A power that has more digits than a given number of them is out of range, or is rounded to a
number that has as many. -/
theorem pow_large {k : Nat} (hd : 0 < digits) (ha : a ≠ 0) (hb : b ≠ 0) (hc : magnitude c e = a)
    (hk : k ≤ digits) (h : 10 ^ k ≤ a ^ b) :
    pow digits (.finite s c e) b = .error .overflow ∨
      ∃ c' e', pow digits (.finite s c e) b = .ok (.finite (powerSign s b) c' e') ∧ c' ≠ 0 ∧
        k ≤ adjusted c' e' ∧ adjusted c' e' ≤ maxExponent := by
  have hc' : c ≠ 0 := fun h => ha ((coefficient_eq_zero_iff hc).mp h)
  have hb' : (b : Int) ≠ 0 := by exact_mod_cast hb
  have hpow : pow digits (.finite s c e) b = powFinite digits s c e b := by
    unfold pow
    dsimp only
    rw [if_neg hc', if_neg hb']
  rw [hpow]
  rcases powFinite_follows (s := s) hd ha hb hc with ⟨htrap, _⟩ | ⟨c', e', hfinish, hfollows⟩
  · exact .inl htrap
  · rw [hfinish]
    cases hresult : finish digits (powerSign s b) c' e' with
    | error trap =>
      obtain rfl := finish_error hresult
      exact .inl rfl
    | ok x =>
      obtain ⟨c'', e'', rfl, _, hmax, hrounds⟩ := finish_rounds hd hresult
      have hvalue : magnitude 1 k ≤ magnitude c' e' := by
        rw [magnitude_one, zpow_natCast]
        rcases hfollows with h' | ⟨_, h'⟩
        · rw [← h']
          exact_mod_cast h
        · exact (pow_le_pow_right₀ (by norm_num) hk).trans h'
      have hle := (hrounds 1 k (Nat.one_lt_pow hd.ne' (by norm_num))
        ((tinyExponent_le_zero digits).trans (by omega))).1 hvalue
      have hne : c'' ≠ 0 := by
        rintro rfl
        rw [magnitude_zero] at hle
        exact absurd (magnitude_pos one_ne_zero k) (not_lt.mpr hle)
      have hadjusted := adjusted_le_of_magnitude_le one_ne_zero hle
      have hone : adjusted 1 k = k := by
        have hone : digitCount 1 = 1 := rfl
        unfold adjusted
        omega
      exact .inr ⟨c'', e'', rfl, hne, hone ▸ hadjusted, hmax hne⟩

end DecimalScript.Decimal
