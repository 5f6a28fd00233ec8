import DecimalScript.Proofs.ReadBack
import Mathlib

/-! Numbers as whole multiples of a unit in the last place. Sums and differences of such numbers are
those of the multiples, as long as they have no more digits than the state; a
larger one is a trap. Nothing is lost on the way: a sum that is rounded to its
digits is too large to get its places. -/

namespace DecimalScript

namespace Decimal

variable {digits places n : Nat} {x y z : Decimal} {a b : Int} {s t : Bool} {c d : Nat} {e f : Int}

/-- The number of so many units in the last place. A zero has the given sign. -/
def ofUnits (places : Nat) (zero : Bool) (n : Int) : Decimal :=
  .finite (if n = 0 then zero else n < 0) n.natAbs (-places)

/-- The number is worth so many units in the last place, with any exponent. -/
def Counts (places : Nat) (x : Decimal) (n : Int) : Prop :=
  ∃ s c e, x = .finite s c e ∧ signedMagnitude s c e = n * 10 ^ (-places : Int)

theorem counts_finite (places : Nat) (s : Bool) (c : Nat) :
    Counts places (.finite s c (-places)) (signed s c) :=
  ⟨s, c, -places, rfl, rfl⟩

theorem signed_natAbs (zero : Bool) (n : Int) :
    signed (if n = 0 then zero else n < 0) n.natAbs = n := by
  unfold signed
  by_cases hn : n = 0
  · simp [hn]
  · rw [if_neg hn]
    by_cases hless : n < 0
    · simp only [hless, decide_true, ↓reduceIte]
      omega
    · simp only [hless, decide_false, Bool.false_eq_true, ↓reduceIte]
      omega

@[simp] theorem counts_ofUnits (places : Nat) (zero : Bool) (n : Int) :
    Counts places (ofUnits places zero n) n := by
  have h := counts_finite places (if n = 0 then zero else n < 0) n.natAbs
  rwa [signed_natAbs] at h

theorem Counts.isNegative_eq (h : Counts places x a) (ha : a ≠ 0) :
    x.isNegative = decide (a < 0) := by
  obtain ⟨s, c, e, rfl, h⟩ := h
  have hunit : (0 : ℚ) < 10 ^ (-places : Int) := by positivity
  have hpos : 0 ≤ magnitude c e := by
    unfold magnitude
    positivity
  have hne : (a : ℚ) ≠ 0 := by exact_mod_cast ha
  rw [signedMagnitude_eq] at h
  rw [Bool.eq_iff_iff, decide_eq_true_iff, ← Int.cast_lt_zero (R := ℚ)]
  cases s with
  | false =>
    have hnonneg : ¬(a : ℚ) < 0 := by
      intro hneg
      have := mul_neg_of_neg_of_pos hneg hunit
      simp only [Bool.false_eq_true, ↓reduceIte] at h
      linarith
    simpa [isNegative] using hnonneg
  | true =>
    have hneg : (a : ℚ) < 0 := by
      refine lt_of_le_of_ne ?_ hne
      by_contra hlt
      have := mul_pos (not_le.mp hlt) hunit
      simp only [↓reduceIte] at h
      linarith
    simpa [isNegative] using hneg

theorem counts_zero (places : Nat) : Counts places .zero 0 :=
  ⟨false, 0, 0, rfl, by simp [signedMagnitude, signed]⟩

def units : Decimal → Int
  | .finite s c _ => signed s c
  | _ => 0

@[simp] theorem units_ofUnits (places : Nat) (zero : Bool) (n : Int) :
    (ofUnits places zero n).units = n := signed_natAbs zero n

theorem onGrid_ofUnits (hd : 0 < digits) (ha : a.natAbs < 10 ^ digits) (zero : Bool) :
    OnGrid digits places (ofUnits places zero a) :=
  ⟨rfl, (digitCount_le_iff hd).mpr ha⟩

theorem OnGrid.exists_eq (h : OnGrid digits places x) :
    ∃ s c, x = .finite s c (-places) := by
  cases x with
  | finite s c e =>
    obtain ⟨rfl, -⟩ := h
    exact ⟨s, c, rfl⟩
  | infinity _ => cases h
  | nan _ _ _ => cases h

theorem OnGrid.digits_pos (h : OnGrid digits places x) : 0 < digits := by
  obtain ⟨s, c, rfl⟩ := h.exists_eq
  exact (digitCount_pos c).trans_le h.2

theorem OnGrid.counts (h : OnGrid digits places x) : Counts places x x.units := by
  obtain ⟨s, c, rfl⟩ := h.exists_eq
  exact counts_finite places s c

theorem OnGrid.units_lt (h : OnGrid digits places x) : x.units.natAbs < 10 ^ digits := by
  have hd := h.digits_pos
  obtain ⟨s, c, rfl⟩ := h.exists_eq
  rw [units, natAbs_signed]
  exact (digitCount_le_iff hd).mp h.2

/-! ### Order -/

theorem compareFinite_signed (s : Bool) (c : Nat) (e : Int) (t : Bool) (d : Nat) (f : Int) :
    compareFinite s c e t d f = compare (signedMagnitude s c e) (signedMagnitude t d f) := by
  rw [signedMagnitude_eq, signedMagnitude_eq]
  by_cases hc : c = 0
  · subst hc
    rw [magnitude_zero, neg_zero, ite_self]
    by_cases hd : d = 0
    · subst hd
      rw [magnitude_zero, neg_zero, ite_self, compare_eq_iff_eq.mpr rfl]
      rfl
    · have hpos := magnitude_pos hd f
      cases t with
      | false => simpa [compareFinite, hd] using (compare_lt_iff_lt.mpr hpos).symm
      | true =>
        have hneg : -magnitude d f < 0 := neg_lt_zero.mpr hpos
        simpa [compareFinite, hd] using (compare_gt_iff_gt.mpr hneg).symm
  · have hpos := magnitude_pos hc e
    by_cases hd : d = 0
    · subst hd
      rw [magnitude_zero, neg_zero, ite_self]
      cases s with
      | false => simpa [compareFinite, hc] using (compare_gt_iff_gt.mpr hpos).symm
      | true =>
        have hneg : -magnitude c e < 0 := neg_lt_zero.mpr hpos
        simpa [compareFinite, hc] using (compare_lt_iff_lt.mpr hneg).symm
    · have hpos' := magnitude_pos hd f
      cases s with
      | false =>
        cases t with
        | false => exact compareFinite_eq hc hd
        | true =>
          have hneg : -magnitude d f < magnitude c e := by linarith
          simpa [compareFinite, hc, hd] using (compare_gt_iff_gt.mpr hneg).symm
      | true =>
        cases t with
        | false =>
          have hneg : -magnitude c e < magnitude d f := by linarith
          simpa [compareFinite, hc, hd] using (compare_lt_iff_lt.mpr hneg).symm
        | true =>
          have hswap : compareFinite true c e true d f =
              (compareFinite false c e false d f).swap := by
            simp [compareFinite, hc, hd]
          rw [hswap, compareFinite_eq hc hd, if_pos rfl, if_pos rfl]
          rcases lt_trichotomy (magnitude c e) (magnitude d f) with h | h | h
          · rw [compare_lt_iff_lt.mpr h, compare_gt_iff_gt.mpr (neg_lt_neg h)]
            rfl
          · rw [compare_eq_iff_eq.mpr h, compare_eq_iff_eq.mpr (congrArg _ h)]
            rfl
          · rw [compare_gt_iff_gt.mpr h, compare_lt_iff_lt.mpr (neg_lt_neg h)]
            rfl

theorem Counts.compare_eq (hx : Counts places x a) (hy : Counts places y b) :
    compare? x y = .ok (some (compare a b)) := by
  obtain ⟨s, c, e, rfl, hx⟩ := hx
  obtain ⟨t, d, f, rfl, hy⟩ := hy
  have hunit : (0 : ℚ) < 10 ^ (-places : Int) := by positivity
  have hcompare : compareFinite s c e t d f = compare a b := by
    rw [compareFinite_signed, hx, hy]
    rcases lt_trichotomy a b with h | h | h
    · have hless : (a : ℚ) < b := by exact_mod_cast h
      rw [compare_lt_iff_lt.mpr h, compare_lt_iff_lt.mpr (mul_lt_mul_of_pos_right hless hunit)]
    · rw [compare_eq_iff_eq.mpr h, h, compare_eq_iff_eq.mpr rfl]
    · have hless : (b : ℚ) < a := by exact_mod_cast h
      rw [compare_gt_iff_gt.mpr h, compare_gt_iff_gt.mpr (mul_lt_mul_of_pos_right hless hunit)]
  rw [← hcompare]
  rfl

theorem Counts.ordered (hx : Counts places x a) (hy : Counts places y b)
    (accept : Ordering → Bool) : x.ordered accept y = .ok (accept (compare a b)) := by
  unfold Decimal.ordered
  rw [hx.compare_eq hy]
  rfl

theorem Counts.equal_zero (hx : Counts places x a) : x.equal .zero = .ok (decide (a = 0)) := by
  unfold Decimal.equal
  rw [hx.compare_eq (counts_zero places)]
  change Except.ok (some (compare a 0) == some .eq) = _
  congr 1
  rw [Bool.eq_iff_iff, beq_iff_eq, Option.some_inj, compare_eq_iff_eq, decide_eq_true_iff]

/-! ### Sums and differences -/

instance (digits places c : Nat) : Decidable (Fits digits places c) :=
  decidable_of_iff (places ≤ 2 * (maxExponent.toNat + digits) ∧ c < 10 ^ digits ∧
      adjusted c (-keptPlaces digits places) ≤ maxExponent)
    ⟨fun h => ⟨h.1, h.2.1, h.2.2⟩, fun h => ⟨h.few, h.fits, h.range⟩⟩

/-- The trap for a number of so many units that does not fit. -/
def lossTrap (places n : Nat) : Trap :=
  if maxExponent < adjusted n (-places) then .overflow else .invalidOperation

theorem Fits.toPlaces_units (h : Fits digits places n) (hd : 0 < digits)
    (hv : magnitude c e = magnitude n (-keptPlaces digits places)) (s : Bool) :
    Decimal.toPlaces digits places (.finite s c e) =
      .ok (.finite s n (-keptPlaces digits places)) := by
  rw [toPlaces_eq_quantize h.few]
  exact quantize_exact hd hv h.fits (tinyExponent_le_kept digits places) h.range

/-- A number of units that fits gets its places. -/
theorem Counts.rounded (h : Counts (keptPlaces digits places) x a) (hd : 0 < digits)
    (hfits : Fits digits places a.natAbs) :
    x.toPlaces digits places = .ok (ofUnits (keptPlaces digits places) x.isNegative a) := by
  have hsign := h.isNegative_eq
  obtain ⟨s, c, e, rfl, h⟩ := h
  have hvalue : magnitude c e = magnitude a.natAbs (-keptPlaces digits places) := by
    rw [← abs_signedMagnitude s, h, magnitude_natAbs]
  rw [hfits.toPlaces_units hd hvalue s]
  unfold ofUnits
  by_cases hzero : a = 0
  · rw [if_pos hzero]
    rfl
  · rw [if_neg hzero, ← hsign hzero]
    rfl

/-- Rounding does not take a number below the least one with a digit too many. -/
theorem Rounds.le_of_pow_le {g : Int} {w : ℚ} (hd : 0 < digits) (htiny : tinyExponent digits ≤ g)
    (hn : 10 ^ digits ≤ n) (h : Rounds digits (tinyExponent digits) (magnitude n g) w) :
    magnitude (10 ^ digits) g ≤ w := by
  -- at the next place it has few digits
  have hleast : magnitude (10 ^ (digits - 1)) (g + 1) = magnitude (10 ^ digits) g := by
    rw [← magnitude_mul_ten, ← pow_succ, Nat.sub_add_cancel hd]
  rw [← hleast]
  refine (h _ _ (Nat.pow_lt_pow_right (by norm_num) (by omega)) (by omega)).1 ?_
  rw [hleast]
  exact magnitude_le_iff.mpr hn

theorem adjusted_zero_le {g : Int} (hg : g ≤ 0) : adjusted 0 g ≤ maxExponent := by
  have hcount : digitCount 0 = 1 := rfl
  unfold adjusted maxExponent
  omega

theorem adjusted_pow (k : Nat) (g : Int) : adjusted (10 ^ k) g = g + k := by
  have hcount := digitCount_mul_pow one_ne_zero k
  have hone : digitCount 1 = 1 := rfl
  rw [one_mul] at hcount
  unfold adjusted
  omega

/-- A number of too many units that was rounded to its digits gets no places. -/
theorem toPlaces_rounded (hd : 0 < digits) (hn : 10 ^ digits ≤ n)
    (hv : magnitude c e = magnitude n (-keptPlaces digits places))
    (h : finish digits s c e = .ok x) : toPlaces digits places x = .error .invalidOperation := by
  obtain ⟨c', e', rfl, -, -, hrounds⟩ := finish_rounds hd h
  rw [hv] at hrounds
  have hleast := hrounds.le_of_pow_le hd (tinyExponent_le_kept digits places) hn
  have hne : c' ≠ 0 := by
    rintro rfl
    rw [magnitude_zero] at hleast
    exact absurd (magnitude_pos (by positivity) _) (not_lt.mpr hleast)
  have hplace := adjusted_le_of_magnitude_le (by positivity) hleast
  rw [adjusted_pow] at hplace
  exact toPlaces_large hne (by omega)

theorem eq_zero_of_magnitude_eq {g : Int} (h : magnitude 0 e = magnitude n g) : n = 0 := by
  by_contra hne
  rw [magnitude_zero] at h
  exact (magnitude_pos hne g).ne h

/-- A result of so many units that is in range is not too large when it has been rounded. -/
theorem finish_units_defined {g : Int} (hd : 0 < digits) (htiny : tinyExponent digits ≤ g)
    (hv : magnitude c e = magnitude n g) (hn : n ≤ 2 * 10 ^ digits)
    (hrange : adjusted n g ≤ maxExponent) (s : Bool) : ∃ x, finish digits s c e = .ok x := by
  by_cases hlarge : n < 10 ^ digits
  · obtain ⟨c', e', hfinish, -⟩ := finish_exact s hd hv hlarge htiny hrange
    exact ⟨_, hfinish⟩
  · have hfew : 2 * 10 ^ (digits - 1) < 10 ^ digits := by
      obtain ⟨k, rfl⟩ : ∃ k, digits = k + 1 := ⟨digits - 1, by omega⟩
      have := Nat.pow_pos (n := k) (show 0 < 10 by norm_num)
      rw [Nat.add_sub_cancel, pow_succ]
      omega
    have hcount := (digitCount_le_iff hd).mpr hfew
    -- the bound stands at the next place
    refine finish_defined s hd hfew (f := g + 1) (by omega) ?_ ?_
    · have hplace := adjusted_le_of_magnitude_le (by positivity)
        (magnitude_le_iff (e := g).mpr (not_lt.mp hlarge))
      rw [adjusted_pow] at hplace
      unfold adjusted at hplace hrange ⊢
      omega
    · rw [hv, ← magnitude_mul_ten, mul_assoc, ← pow_succ, Nat.sub_add_cancel hd]
      exact magnitude_le_iff.mpr hn

/-- A result of so many units gets its places, or it is a trap. -/
theorem finish_toPlaces (hd : 0 < digits)
    (hv : magnitude c e = magnitude n (-keptPlaces digits places)) (hn : n ≤ 2 * 10 ^ digits)
    (s : Bool) :
    (finish digits s c e >>= toPlaces digits places) =
      if Fits digits places n then .ok (.finite s n (-keptPlaces digits places))
      else .error (lossTrap (keptPlaces digits places) n) := by
  have htiny := tinyExponent_le_kept digits places
  split
  · rename_i hfits
    obtain ⟨c', e', hfinish, -, hsame⟩ := finish_exact s hd hv hfits.fits htiny hfits.range
    rw [hfinish]
    exact hfits.toPlaces_units hd hsame s
  · rename_i hfits
    by_cases hrange : adjusted n (-keptPlaces digits places) ≤ maxExponent
    · obtain ⟨x, hx⟩ := finish_units_defined hd htiny hv hn hrange s
      rw [lossTrap, if_neg (not_lt.mpr hrange), hx]
      by_cases hfew : places ≤ 2 * (maxExponent.toNat + digits)
      · refine toPlaces_rounded hd ?_ hv hx
        by_contra hlt
        exact hfits ⟨hfew, not_le.mp hlt, hrange⟩
      · exact toPlaces_excess hfew x
    · have hover := not_le.mp hrange
      have hne : c ≠ 0 := by
        rintro rfl
        have hzero := eq_zero_of_magnitude_eq hv
        subst hzero
        exact hrange (adjusted_zero_le (by omega))
      rw [lossTrap, if_pos hover, finish_eq hne,
        if_pos (by rwa [adjusted_eq_of_magnitude_eq hne hv])]
      rfl

theorem exists_ok_of_bind {α β : Type} {a : Except Trap α} {k : α → Except Trap β} {b : β}
    (h : (a >>= k) = .ok b) : ∃ x, a = .ok x ∧ k x = .ok b := by
  cases a with
  | error trap => cases h
  | ok x => exact ⟨x, rfl, h⟩

/-- What a result of so many units is if it gets places at all. -/
theorem eq_of_finish_toPlaces (hd : 0 < digits)
    (hv : magnitude c e = magnitude n (-keptPlaces digits places))
    (h : (finish digits s c e >>= toPlaces digits places) = .ok z) :
    n < 10 ^ digits ∧ z = .finite s n (-keptPlaces digits places) := by
  obtain ⟨x, hfinish, hplaces⟩ := exists_ok_of_bind h
  obtain ⟨c', e', rfl, -, hrange, hrounds⟩ := finish_rounds hd hfinish
  obtain ⟨m, rfl, hfits⟩ := fits_of_toPlaces hd hplaces
  have hsmall : n < 10 ^ digits := by
    by_contra hlarge
    rw [toPlaces_rounded hd (not_lt.mp hlarge) hv hfinish] at hplaces
    cases hplaces
  have hsame := hrounds.exact hsmall (tinyExponent_le_kept digits places) hv
  have hfits' : Fits digits places n := by
    refine ⟨hfits.few, hsmall, ?_⟩
    by_cases hc : c' = 0
    · subst hc
      have hzero := eq_zero_of_magnitude_eq hsame
      subst hzero
      exact adjusted_zero_le (by omega)
    · rw [← adjusted_eq_of_magnitude_eq hc hsame]
      exact hrange hc
  rw [hfits'.toPlaces_units hd hsame s] at hplaces
  cases hplaces
  exact ⟨hsmall, rfl⟩

/-- A sum of numbers of units. -/
theorem Counts.combine (hd : 0 < digits) (hx : Counts (keptPlaces digits places) x a)
    (hy : Counts (keptPlaces digits places) y b) (ha : a.natAbs < 10 ^ digits)
    (hb : b.natAbs < 10 ^ digits) :
    (add digits x y >>= toPlaces digits places) =
      if Fits digits places (a + b).natAbs then
        .ok (ofUnits (keptPlaces digits places) (x.isNegative && y.isNegative) (a + b))
      else .error (lossTrap (keptPlaces digits places) (a + b).natAbs) := by
  obtain ⟨s, c, e, rfl, hx⟩ := hx
  obtain ⟨t, d, f, rfl, hy⟩ := hy
  have hpow : 10 ^ digits ≤ 10 ^ (digits + 1) := Nat.pow_le_pow_right (by norm_num) (by omega)
  obtain ⟨n, g, hadd, hsum⟩ := add_units digits hx hy (by omega) (by omega)
  rw [hadd, finish_toPlaces hd hsum (by omega)]
  rfl

end Decimal

namespace Run

def numberOf (limit : Nat) (usage : Usage) (t : Term) : Run Decimal := do
  numeric usage (← eval limit t)

theorem numberOf_bind {α : Type} {limit : Nat} {usage : Usage} {t : Term} {s u : State}
    {x : Decimal} (h : numberOf limit usage t s = (.ok x, u)) (k : Decimal → Run α) :
    (eval limit t >>= fun v => numeric usage v >>= k) s = k x u := by
  rw [← bind_of_ok h (f := k), numberOf, bind_assoc]

/-- A sum is rounded to its digits and then to its places. -/
theorem add_eq (x y : Decimal) (s : State) : add x y s =
    decimal (Decimal.add s.digits x y >>= Decimal.toPlaces s.digits s.places) s :=
  working_bind _ fun _ => rfl

theorem add_bind {α : Type} {p : Prop} [Decidable p] {x y z : Decimal} {trap : Decimal.Trap}
    {s : State} (h : (Decimal.add s.digits x y >>= Decimal.toPlaces s.digits s.places) =
      if p then .ok z else .error trap) (k : Decimal → Run α) :
    (add x y >>= k) s = if p then k z s else (.error (.fault (.trap trap)), s) := by
  rw [bind_apply, add_eq, h]
  by_cases hp : p
  · rw [if_pos hp, if_pos hp]
    rfl
  · rw [if_neg hp, if_neg hp]
    rfl

end Run

end DecimalScript
