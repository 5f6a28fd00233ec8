import DecimalScript.Proofs.TwoRunRelations
import DecimalScript.Proofs.Literal
import DecimalScript.Proofs.Remainder
import DecimalScript.Session
import Mathlib

/-! The remainder of a power of whole numbers. The power itself is calculated first, to as many
digits as are worked with: where it fits, the remainder is the exact one; where it does
not, the run ends with a trap, however small the remainder is. -/

namespace DecimalScript

open Decimal Grammar Run

variable {s : State} {a b m n : Nat}

/-- A whole number that gets the places of the state, and so can be written in a program. -/
def State.Writes (s : State) (n : Nat) : Prop :=
  ∃ x, (ofNat n).toPlaces s.digits s.places = .ok x

/-- There is a digit to spare: ten times the number could be written if it had no places. -/
def State.Spares (s : State) (n : Nat) : Prop := State.Writes { s with places := 0 } (10 * n)

theorem State.Writes.room (h : s.Writes n) : Room s.digits s.places n := by
  obtain ⟨x, hx⟩ := h
  exact room_of_toPlaces hx

theorem Decimal.Room.writes (hd : 0 < s.digits) (h : Room s.digits s.places n) : s.Writes n :=
  ⟨_, toPlaces_exact hd (magnitude_unit n) h⟩

/-- A state with places has a digit to spare for each number that it writes. -/
theorem State.Writes.spares (h : s.Writes n) (hp : 1 ≤ s.places)
    (hd : s.digits < s.places + 1000000) (hpos : 0 < s.digits) : s.Spares n := by
  have hr := h.room
  have hkept : 1 ≤ s.kept ∧ s.digits < s.kept + 1000000 := by
    unfold State.kept keptPlaces tinyExponent minExponent
    omega
  have hten : 10 * n * 10 ^ (s.kept - 1) < 10 ^ s.digits := by
    obtain ⟨places, hplaces⟩ := Nat.exists_eq_add_of_le' hkept.1
    have hfits : n * 10 ^ s.kept < 10 ^ s.digits := hr.fits
    rw [hplaces, pow_succ] at hfits
    rw [hplaces, Nat.add_sub_cancel]
    calc 10 * n * 10 ^ places = n * (10 ^ places * 10) := by ring
      _ < 10 ^ s.digits := hfits
  have hle : 10 * n ≤ 10 * n * 10 ^ (s.kept - 1) := Nat.le_mul_of_pos_right _ (by positivity)
  refine Decimal.Room.writes hpos ⟨Nat.zero_le _, ?_, ?_⟩
  · change 10 * n * 10 ^ 0 < 10 ^ s.digits
    rw [pow_zero, mul_one]
    exact hle.trans_lt hten
  · by_cases hn : n = 0
    · subst hn
      decide
    · have hcount := digitCount_mul_pow (n := 10 * n) (by omega) (s.kept - 1)
      have hfew := digitCount_le_of_lt hten (Nat.mul_ne_zero (by omega) (by positivity))
      unfold adjusted maxExponent
      omega

/-- At the start, with ten places of 28 digits, the numbers below `10 ^ 18` can be written. -/
theorem initial_writes_iff : State.Writes {} n ↔ n < 10 ^ 18 := by
  constructor
  · intro h
    have hfits : n * 10 ^ 10 < 10 ^ 28 := h.room.fits
    omega
  · intro h
    have hfits : n * 10 ^ 10 < 10 ^ 28 := by omega
    refine Decimal.Room.writes (by decide) ⟨by decide, hfits, ?_⟩
    by_cases hn : n = 0
    · subst hn
      decide
    · have hcount := digitCount_le_of_lt h hn
      unfold adjusted maxExponent
      omega

/-- Where more than zero can be written, all places are kept. -/
theorem kept_eq_places (hn : n ≠ 0) (h : Room s.digits s.places n) : s.kept = s.places := by
  refine keptPlaces_eq_of_lt ((Nat.pow_lt_pow_iff_right (by norm_num : 1 < 10)).mp ?_)
  exact (Nat.le_mul_of_pos_left _ (Nat.pos_of_ne_zero hn)).trans_lt h.fits

/-! ### Literals -/

def State.literal (s : State) (negative : Bool) (n : Nat) : Decimal :=
  .finite (negative && n != 0) (n * 10 ^ s.kept) (-s.kept)

theorem eval_literal (hd : 0 < s.digits) (h : Room s.digits s.places n) (limit : Nat)
    (negative : Bool) :
    eval limit (literalTerm negative n) s = (.ok (.decimal (s.literal negative n)), s) := by
  have hnumber : eval limit (.number n.repr) s =
      (.ok (.decimal (.finite false (n * 10 ^ s.kept) (-s.kept))), s) := by
    have hround : round (ofNat n) s = (.ok (.finite false (n * 10 ^ s.kept) (-s.kept)), s) :=
      round_ok (toPlaces_exact hd (magnitude_unit n) h)
    rw [eval, bind_of_ok (decimal_ok (ofText_repr h.range) s), bind_of_ok hround]
    rfl
  cases negative with
  | false => exact hnumber
  | true =>
    have hsign : (!false && n * 10 ^ s.kept != 0) = (true && n != 0) := by
      rw [Bool.eq_iff_iff]
      simp
    have hneg : Decimal.neg s.digits (.finite false (n * 10 ^ s.kept) (-s.kept)) =
        .ok (s.literal true n) := by
      have hgrid := finish_grid (true && n != 0) hd h.fits (tinyExponent_le_kept _ _)
        (by unfold maxExponent; omega) h.places_range
      rw [← hsign] at hgrid
      rw [State.literal, ← hsign]
      exact hgrid
    have hround : (s.literal true n).toPlaces s.digits s.places = .ok (s.literal true n) :=
      toPlaces_exact hd (magnitude_places n s.kept) h
    have hnegate : negate (.finite false (n * 10 ^ s.kept) (-s.kept)) s =
        (.ok (s.literal true n), s) := by
      unfold negate
      rw [bind_of_ok (working_ok (f := fun digits => Decimal.neg digits _) hneg)]
      exact round_ok hround
    have hnumeric : numeric .unary (.decimal (.finite false (n * 10 ^ s.kept) (-s.kept))) s =
        (.ok (.finite false (n * 10 ^ s.kept) (-s.kept)), s) := rfl
    change eval limit (.signed true (.number n.repr)) s = _
    rw [eval, bind_of_ok hnumber, bind_of_ok hnumeric]
    simp only [↓reduceIte]
    rw [bind_of_ok hnegate]
    rfl

/-! ### Powers -/

theorem toInt_whole {c : Nat} {e : Int} (h : magnitude c e = n) (sign : Bool) (s : State) :
    toInt (.finite sign c e) s = (.ok (signed sign n), s) := by
  rw [← truncated_whole h]
  rfl

/-- A power with a whole exponent, which may be a negative zero. -/
theorem pow_whole {sign : Bool} {c : Nat} {e : Int} (h : magnitude c e = b)
    (hsign : signed sign b = b) (x : Decimal) (pos : Option Pos) (s : State) :
    Run.pow x (.finite sign c e) pos s = (working (Decimal.pow · x b) >>= round) s := by
  have hexponent := toInt_whole h sign s
  rw [hsign] at hexponent
  unfold Run.pow
  rw [bind_of_ok (decimal_ok (isWhole_whole h) s)]
  simp only [↓reduceIte]
  rw [bind_of_ok hexponent]

/-- A power with a literal as exponent. -/
theorem pow_literal (x : Decimal) (b : Nat) (pos : Option Pos) (s : State) :
    Run.pow x (s.literal false b) pos s = (working (Decimal.pow · x b) >>= round) s :=
  pow_whole (magnitude_places b s.kept) rfl x pos s

theorem pow_fits (hd : 0 < s.digits) (hab : a ≠ 0 ∨ b ≠ 0) (h : Room s.digits s.places (a ^ b))
    (sign : Bool) (pos : Option Pos) :
    Run.pow (.finite sign (a * 10 ^ s.kept) (-s.kept)) (s.literal false b) pos s =
      (.ok (.finite (powerSign sign b) (a ^ b * 10 ^ s.kept) (-s.kept)), s) := by
  obtain ⟨c, e, hpow, _, hvalue⟩ := pow_exact (s := sign) hd hab (magnitude_places a s.kept)
    h.lt h.range
  rw [pow_literal, bind_of_ok (working_ok (f := fun digits => Decimal.pow digits _ b) hpow)]
  exact round_ok (toPlaces_exact hd hvalue h)

/-- The numbers without room have more digits before the point than can be worked with. -/
theorem pow_le_of_not_room (hone : Room s.digits s.places 1) (h : ¬Room s.digits s.places n) :
    10 ^ min (s.digits - s.kept) (maxExponent.toNat + 1) ≤ n := by
  by_contra hlt
  rw [not_le] at hlt
  have hplaces : s.kept < s.digits := by
    have hfits := hone.fits
    rw [one_mul] at hfits
    exact (Nat.pow_lt_pow_iff_right (by norm_num)).mp hfits
  have hfits : n < 10 ^ (s.digits - s.kept) :=
    hlt.trans_le (Nat.pow_le_pow_right (by norm_num) (min_le_left _ _))
  have hrange : n < 10 ^ (maxExponent.toNat + 1) :=
    hlt.trans_le (Nat.pow_le_pow_right (by norm_num) (min_le_right _ _))
  refine h ⟨hone.few, ?_, ?_⟩
  · calc n * 10 ^ s.kept < 10 ^ (s.digits - s.kept) * 10 ^ s.kept :=
        Nat.mul_lt_mul_of_pos_right hfits (by positivity)
      _ = 10 ^ s.digits := by rw [← pow_add, Nat.sub_add_cancel hplaces.le]
  · by_cases hn : n = 0
    · subst hn
      decide
    · have hcount := digitCount_le_of_lt hrange hn
      unfold adjusted
      unfold maxExponent at hcount ⊢
      omega

/-- Where the power does not fit, it is out of range or does not get its places. -/
theorem pow_trapped (hone : Room s.digits s.places 1) (hab : a ≠ 0 ∨ b ≠ 0)
    (h : ¬Room s.digits s.places (a ^ b)) (sign : Bool) (pos : Option Pos) :
    ∃ trap, (trap = .invalidOperation ∨ trap = .overflow) ∧
      Run.pow (.finite sign (a * 10 ^ s.kept) (-s.kept)) (s.literal false b) pos s =
        (.error (.fault (.trap trap)), s) := by
  have hlarge := pow_le_of_not_room hone h
  have hb : b ≠ 0 := by
    rintro rfl
    exact h (by rwa [pow_zero])
  have ha : a ≠ 0 := by
    rintro rfl
    rw [zero_pow hb] at hlarge
    exact absurd hlarge (not_le.mpr (by positivity))
  have hd : 0 < s.digits := digits_pos_of_lt one_ne_zero hone.lt
  have hpow := pow_large (s := sign) hd ha hb (magnitude_places a s.kept)
    ((min_le_left _ _).trans (Nat.sub_le _ _)) hlarge
  rw [pow_literal]
  rcases hpow with htrap | ⟨c, e, hpow, hc, hlow, hhigh⟩
  · exact ⟨.overflow, .inr rfl,
      bind_of_error (working_error (f := fun digits => Decimal.pow digits _ b) htrap)⟩
  · have hfar : (s.digits : Int) - s.kept ≤ adjusted c e := by
      unfold maxExponent at hlow hhigh
      omega
    refine ⟨.invalidOperation, .inl rfl, ?_⟩
    rw [bind_of_ok (working_ok (f := fun digits => Decimal.pow digits _ b) hpow)]
    exact round_error (toPlaces_large hc hfar)

/-- Where the power does not fit, there is a trap. -/
theorem pow_traps (hone : Room s.digits s.places 1) (hab : a ≠ 0 ∨ b ≠ 0)
    (h : ¬Room s.digits s.places (a ^ b)) (sign : Bool) (pos : Option Pos) :
    ∃ trap, Run.pow (.finite sign (a * 10 ^ s.kept) (-s.kept)) (s.literal false b) pos s =
      (.error (.fault (.trap trap)), s) :=
  (pow_trapped hone hab h sign pos).imp fun _ => And.right

/-! ### Remainders of powers -/

/-- The term of a remainder of a power. The power is taken as a number before the remainder. -/
def powerModTerm (negative : Bool) (a b : Nat) (negativeModulus : Bool) (m : Nat) (pos : Option Pos) :
    Term :=
  .product .mod (.unwrapped (.power (literalTerm negative a) (literalTerm false b) pos))
    (literalTerm negativeModulus m) pos

theorem ofTree_powerMod (negative : Bool) (a b : Nat) (negativeModulus : Bool) (m : Nat)
    (pos power exponent operator modulus : Pos) :
    Term.ofTree (.node .conditionalExpr (some pos)
      [powerModTree negative a b negativeModulus m pos power exponent operator modulus]) =
        powerModTerm negative a b negativeModulus m (some pos) := by
  have hterm (base power modulus : Tree) (p q : Pos) :
      Term.ofTree (.node .conditionalExpr (some pos) [.node .product (some pos)
        [.node .power (some pos) [base, .token .pow "**" p, power], .token .mod "mod" q, modulus]]) =
      .product .mod (.unwrapped (.power (Term.ofTree base) (Term.ofTree power) (some pos)))
        (Term.ofTree modulus) (some pos) := rfl
  unfold powerModTree powerTree powerModTerm
  rw [hterm, ofTree_literalTree, ofTree_literalTree, ofTree_literalTree]

/-- The run of a text with a remainder of a power, by the term it is read as. -/
theorem executeWithin_powerMod (limit : Nat) (s : State) (negative : Bool) (a b : Nat)
    (negativeModulus : Bool) (m : Nat) :
    ∃ pos, ∃ t : State, t.digits = s.digits ∧ t.places = s.places ∧
      (s.executeWithin limit (powerMod negative a b negativeModulus m)).1 =
        (eval limit (powerModTerm negative a b negativeModulus m pos) t).1.mapError .exit := by
  obtain ⟨pos, power, exponent, operator, modulus, hparse⟩ :=
    parse_powerMod negative a b negativeModulus m
  refine ⟨some pos, { s with
    source := Text.lines (powerMod negative a b negativeModulus m), output := [] }, rfl, rfl, ?_⟩
  rw [State.executeWithin_ok hparse, ofTree_powerMod]

theorem signed_literal (negative : Bool) (n : Nat) :
    signed (negative && n != 0) n = signed negative n := by
  by_cases hn : n = 0
  · subst hn
    cases negative <;> rfl
  · have hne : (n != 0) = true := bne_iff_ne.mpr hn
    rw [hne, Bool.and_true]

theorem numeric_decimal (usage : Usage) (x : Decimal) (s : State) :
    numeric usage (.decimal x) s = (.ok x, s) := rfl

theorem toDecimal_decimal (x : Decimal) (s : State) : toDecimal (.decimal x) s = (.ok x, s) := rfl

section Evaluation

variable (hd : 0 < s.digits) (ha : Room s.digits s.places a) (hb : Room s.digits s.places b)

include hd ha hb

/-- A power of literals is evaluated as the power of their values. -/
theorem eval_power (limit : Nat) (negative : Bool) (pos : Option Pos) :
    eval limit (.power (literalTerm negative a) (literalTerm false b) pos) s =
      (Run.pow (s.literal negative a) (s.literal false b) pos >>= fun z =>
        pure (Value.power (s.literal negative a) (s.literal false b) z)) s := by
  rw [eval, bind_of_ok (eval_literal hd ha limit negative), bind_of_ok (numeric_decimal _ _ _),
    bind_of_ok (eval_literal hd hb limit false), bind_of_ok (numeric_decimal _ _ _)]

theorem eval_unwrapped_ok {negative : Bool} {pos : Option Pos} {z : Decimal}
    (h : Run.pow (s.literal negative a) (s.literal false b) pos s = (.ok z, s)) (limit : Nat) :
    eval limit (.unwrapped (.power (literalTerm negative a) (literalTerm false b) pos)) s =
      (.ok (.decimal z), s) := by
  have hpower := eval_power hd ha hb limit negative pos
  rw [bind_of_ok h] at hpower
  rw [eval, bind_of_ok hpower]
  rfl

theorem eval_unwrapped_error {negative : Bool} {pos : Option Pos} {exit : Exit}
    (h : Run.pow (s.literal negative a) (s.literal false b) pos s = (.error exit, s))
    (limit : Nat) :
    eval limit (.unwrapped (.power (literalTerm negative a) (literalTerm false b) pos)) s =
      (.error exit, s) := by
  have hpower := eval_power hd ha hb limit negative pos
  rw [bind_of_error h] at hpower
  rw [eval, bind_of_error hpower]

end Evaluation

theorem spare_of_room {digits places x m : Nat} (hm : m ≠ 0) (hmod : Room digits places m)
    (h : Room digits 0 (10 * x)) : Spare digits x m 0 where
  modulus := Nat.pos_of_ne_zero hm
  fits := by
    have := h.lt
    omega
  modulus_fits := hmod.lt
  tiny := tinyExponent_le_zero digits
  range := range_of_le (by omega) h.range
  modulus_range := hmod.range
  quotient_range := by
    by_cases hx : x = 0
    · subst hx
      rw [Nat.zero_div]
      decide
    · have := Nat.div_le_self x m
      exact range_of_le (by omega) h.range

theorem eval_powerMod_fits (hab : a ≠ 0 ∨ b ≠ 0) (hm : m ≠ 0) (ha : Room s.digits s.places a)
    (hb : Room s.digits s.places b) (hmod : Room s.digits s.places m)
    (hpower : Room s.digits s.places (a ^ b)) (hspare : Room s.digits 0 (10 * a ^ b)) (limit : Nat)
    (negative negativeModulus : Bool) (pos : Option Pos) :
    eval limit (powerModTerm negative a b negativeModulus m pos) s =
      (.ok (.decimal (.finite false ((signed negative a ^ b % m).toNat * 10 ^ s.kept)
        (-s.kept))), s) := by
  have hd : 0 < s.digits := digits_pos_of_lt hm hmod.lt
  have hpow := pow_fits hd hab hpower (negative && a != 0) pos
  have hvalue := mod_whole (powerSign (negative && a != 0) b) (negativeModulus && m != 0)
    pos (spare_of_room hm hmod hspare) (magnitude_places (a ^ b) s.kept)
    (magnitude_places m s.kept) hmod
  have hremainder : remainder (powerSign (negative && a != 0) b) (a ^ b) m =
      (signed negative a ^ b % m).toNat := by
    rw [remainder, signed_pow, signed_literal]
  rw [hremainder] at hvalue
  rw [powerModTerm, eval, bind_of_ok (eval_unwrapped_ok hd ha hb hpow limit),
    bind_of_ok (toDecimal_decimal _ _), bind_of_ok (eval_literal hd hmod limit negativeModulus),
    bind_of_ok (numeric_decimal _ _ _)]
  exact bind_of_ok hvalue

theorem eval_powerMod_traps (hab : a ≠ 0 ∨ b ≠ 0) (hm : m ≠ 0) (ha : Room s.digits s.places a)
    (hb : Room s.digits s.places b) (hmod : Room s.digits s.places m)
    (hpower : ¬Room s.digits s.places (a ^ b)) (limit : Nat) (negative negativeModulus : Bool)
    (pos : Option Pos) :
    ∃ trap, eval limit (powerModTerm negative a b negativeModulus m pos) s =
      (.error (.fault (.trap trap)), s) := by
  have hone : Room s.digits s.places 1 := hmod.mono (Nat.pos_of_ne_zero hm)
  have hd : 0 < s.digits := digits_pos_of_lt hm hmod.lt
  obtain ⟨trap, hpow⟩ := pow_traps hone hab hpower (negative && a != 0) pos
  refine ⟨trap, ?_⟩
  rw [powerModTerm, eval, bind_of_error (eval_unwrapped_error hd ha hb hpow limit)]

/-- The run of a text that writes a power of whole numbers and a remainder of it, where each of the
numbers can be written. If the power can be written too, with a digit to spare, the
result is the remainder that is not negative; if it cannot, the run ends with a trap. -/
theorem power_remainder_needs_room (limit : Nat) (s : State) (negative : Bool) (a b : Nat)
    (negativeModulus : Bool) (m : Nat) (hab : a ≠ 0 ∨ b ≠ 0) (hm : m ≠ 0) (ha : s.Writes a)
    (hb : s.Writes b) (hmod : s.Writes m) :
    (s.Writes (a ^ b) → s.Spares (a ^ b) →
      (s.executeWithin limit (powerMod negative a b negativeModulus m)).1 =
        .ok (.decimal (.finite false ((signed negative a ^ b % m).toNat * 10 ^ s.places)
          (-s.places)))) ∧
    (¬s.Writes (a ^ b) →
      ∃ trap, (s.executeWithin limit (powerMod negative a b negativeModulus m)).1 =
        .error (.exit (.fault (.trap trap)))) := by
  obtain ⟨pos, t, hdigits, hplaces, hrun⟩ :=
    executeWithin_powerMod limit s negative a b negativeModulus m
  have hra := ha.room
  have hrb := hb.room
  have hrm := hmod.room
  rw [hrun]
  constructor
  · intro hpower hspare
    have hrp := hpower.room
    have hrs := hspare.room
    dsimp only at hrs
    rw [← hdigits, ← hplaces] at *
    rw [eval_powerMod_fits hab hm hra hrb hrm hrp hrs, kept_eq_places hm hrm]
    rfl
  · intro hpower
    have hd : 0 < s.digits := digits_pos_of_lt hm hrm.lt
    have hrp : ¬Room s.digits s.places (a ^ b) := fun h => hpower (h.writes hd)
    rw [← hdigits, ← hplaces] at *
    obtain ⟨trap, htrap⟩ :=
      eval_powerMod_traps hab hm hra hrb hrm hrp limit negative negativeModulus pos
    rw [htrap]
    exact ⟨trap, rfl⟩

theorem power_remainder_needs_room_initial :
    State.Writes {} (2 ^ 51) ∧
    (State.executeWithin 0 "-2 ** 51 mod -13" {}).1 =
      .ok (.decimal (.finite false 50000000000 (-10))) ∧
    ¬State.Writes {} (2 ^ 60) ∧
    ∃ trap, (State.executeWithin 0 "2 ** 60 mod 13" {}).1 =
      .error (.exit (.fault (.trap trap))) := by
  have hwrites (n : Nat) (h : n < 10 ^ 18) : State.Writes {} n := initial_writes_iff.mpr h
  have hpower : State.Writes {} (2 ^ 51) := hwrites _ (by decide)
  have hlarge : ¬State.Writes {} (2 ^ 60) := fun h => absurd (initial_writes_iff.mp h) (by decide)
  have hfits := power_remainder_needs_room 0 {} true 2 51 true 13 (by decide) (by decide)
    (hwrites 2 (by decide)) (hwrites 51 (by decide)) (hwrites 13 (by decide))
  have htraps := power_remainder_needs_room 0 {} false 2 60 false 13 (by decide) (by decide)
    (hwrites 2 (by decide)) (hwrites 60 (by decide)) (hwrites 13 (by decide))
  have hspare := hpower.spares (by decide) (by decide) (by decide)
  exact ⟨hpower, hfits.1 hpower hspare, hlarge, htraps.2 hlarge⟩

/-- The power of which a remainder is taken has to fit, though its remainder would. -/
theorem power_remainder_traps_above_precision :
    (State.executeWithin 0 "2 ** 100 mod 13" {}).1 =
      .error (.exit (.fault (.trap .invalidOperation))) ∧ 2 ^ 100 % 13 = 3 := by
  decide +kernel

end DecimalScript
