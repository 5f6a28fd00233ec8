import DecimalScript.Proofs.Precision
import DecimalScript.Proofs.Units
import Mathlib

/-! The call that sets the precision, for all its arguments and along sessions. It takes one whole
number that is not negative. The places are set before the digits are, and there cannot be
any number of digits: a call that fails for this reason alone has set the places. -/

namespace DecimalScript

open Decimal Run

/-! ### Whole numbers -/

namespace Decimal

variable {x : Decimal} {a : Int} {c n : Nat} {e : Int} {s : Bool}

theorem counts_whole (h : magnitude c e = n) : Counts 0 (.finite s c e) (signed s n) := by
  refine ⟨s, c, e, rfl, ?_⟩
  have hunit := signedMagnitude_eq_units (h.trans (magnitude_unit n).symm) s
  rwa [Nat.cast_zero, neg_zero]

theorem Counts.whole (h : Counts 0 x a) :
    ∃ s c e, x = .finite s c e ∧ magnitude c e = a.natAbs ∧ signed s a.natAbs = a := by
  have hsign := h.isNegative_eq
  obtain ⟨s, c, e, rfl, h⟩ := h
  refine ⟨s, c, e, rfl, ?_, ?_⟩
  · rw [← magnitude_unit, magnitude_natAbs, ← abs_signedMagnitude s, h]
    rfl
  · by_cases ha : a = 0
    · subst ha
      cases s <;> rfl
    · have hs : s = decide (a < 0) := hsign ha
      rw [hs]
      have := signed_natAbs false a
      rwa [if_neg ha] at this

theorem Counts.isWhole_eq (h : Counts 0 x a) : x.isWhole = .ok true := by
  obtain ⟨s, c, e, rfl, hvalue, -⟩ := h.whole
  exact isWhole_whole hvalue

theorem Counts.less_zero (h : Counts 0 x a) : x.less .zero = .ok (decide (a < 0)) := by
  unfold less
  rw [h.ordered (counts_zero 0)]
  congr 1
  rw [Bool.eq_iff_iff, Ordering.isLT_iff_eq_lt, compare_lt_iff_lt, decide_eq_true_iff]

theorem Counts.toInt_eq (h : Counts 0 x a) (s : State) : toInt x s = (.ok a, s) := by
  obtain ⟨sign, c, e, rfl, hvalue, hsign⟩ := h.whole
  rw [toInt_whole hvalue, hsign]

/-- The numbers that count as whole are infinite or whole. -/
theorem counts_of_isWhole (h : isWhole (.finite s c e) = .ok true) :
    ∃ a, Counts 0 (.finite s c e) a := by
  by_cases he : 0 ≤ e
  · refine ⟨_, counts_whole (n := c * 10 ^ e.toNat) ?_⟩
    rw [← magnitude_unit, ← magnitude_scaled he, sub_zero]
  · unfold isWhole nearestWhole at h
    dsimp only at h
    rw [if_neg he] at h
    have hequal : compareFinite s c e s (dropDigits .toEven c (-e).toNat) 0 = .eq := by
      have hcompare : Except.ok (some (compareFinite s c e s (dropDigits .toEven c (-e).toNat) 0) ==
        some .eq) = (.ok true : Except Trap Bool) := h
      simpa using hcompare
    rw [compareFinite_signed, compare_eq_iff_eq] at hequal
    refine ⟨_, counts_whole (n := dropDigits .toEven c (-e).toNat) ?_⟩
    rw [← abs_signedMagnitude s, hequal, abs_signedMagnitude, magnitude_unit]

end Decimal

/-! ### Calls -/

/-- The arguments of a call ask for so many places: there is one, and it stands for this number. -/
def Run.Asks (s : State) (items : List Value) (n : Nat) : Prop :=
  ∃ item x, items = [item] ∧ toDecimal item s = (.ok x, s) ∧ Counts 0 x n

namespace Run

variable {s : State} {items : List Value} {item : Value} {x : Decimal} {a : Int} {n : Nat}

theorem oneArgument_single (name : String) (pos : Pos) (item : Value) (s : State) :
    oneArgument name pos [item] s = (.ok item, s) := rfl

/-- A whole argument is refused if it is negative. -/
theorem setPrecision_whole (pos : Pos) (hitem : toDecimal item s = (.ok x, s)) (hx : Counts 0 x a) :
    setPrecision pos [item] s =
      if a < 0 then (.error (.fault (.script .precisionArgument (some pos))), s)
      else if digitsFor a.toNat ≤ maxDigits then
        (.ok (.decimal (ofNat s.places)),
          { s with places := a.toNat, digits := digitsFor a.toNat })
      else
        (.error (.fault (if 2 ^ 63 ≤ digitsFor a.toNat then .tooLarge else .noSuchValue)),
          { s with places := a.toNat }) := by
  unfold setPrecision
  rw [bind_of_ok (oneArgument_single _ pos item s), bind_of_ok hitem]
  dsimp only
  rw [bind_of_ok (decimal_ok hx.isWhole_eq s)]
  simp only [Bool.not_true, Bool.false_eq_true, ↓reduceIte]
  rw [bind_of_ok (decimal_ok hx.less_zero s)]
  by_cases hneg : a < 0
  · rw [if_pos hneg, decide_eq_true hneg]
    rfl
  · rw [if_neg hneg, decide_eq_false hneg]
    simp only [Bool.false_eq_true, ↓reduceIte]
    rw [bind_of_ok (rfl : (get : Run State) s = (.ok s, s)), bind_of_ok (hx.toInt_eq s)]
    have hlimit : maxDigits < 2 ^ 63 := by decide
    by_cases hfew : digitsFor a.toNat ≤ maxDigits
    · have hless : ¬Nat.pow 2 63 ≤ digitsFor a.toNat := by
        rw [Nat.pow_eq]
        omega
      rw [if_pos hfew, if_neg hless, if_neg (not_lt.mpr hfew)]
      rfl
    · rw [if_neg hfew]
      by_cases hlarge : 2 ^ 63 ≤ digitsFor a.toNat
      · rw [if_pos hlarge, if_pos (show Nat.pow 2 63 ≤ _ from hlarge)]
        rfl
      · rw [if_neg hlarge, if_neg (show ¬Nat.pow 2 63 ≤ _ from hlarge), if_pos (not_le.mp hfew)]
        rfl

theorem setPrecision_asks (pos : Pos) (h : Asks s items n) :
    setPrecision pos items s =
      if digitsFor n ≤ maxDigits then
        (.ok (.decimal (ofNat s.places)), { s with places := n, digits := digitsFor n })
      else
        (.error (.fault (if 2 ^ 63 ≤ digitsFor n then .tooLarge else .noSuchValue)),
          { s with places := n }) := by
  obtain ⟨item, x, rfl, hitem, hx⟩ := h
  rw [setPrecision_whole pos hitem hx, if_neg (by omega)]
  rfl

theorem setPrecision_not_whole (pos : Pos) (hitem : toDecimal item s = (.ok x, s))
    (hx : x.isWhole ≠ .ok true) : ∃ e, setPrecision pos [item] s = (.error e, s) := by
  unfold setPrecision
  rw [bind_of_ok (oneArgument_single _ pos item s), bind_of_ok hitem]
  dsimp only
  cases hwhole : x.isWhole with
  | error trap => exact ⟨_, bind_of_error (decimal_error rfl s)⟩
  | ok isWhole =>
    cases isWhole with
    | true => exact absurd hwhole hx
    | false => exact ⟨_, rfl⟩

/-- An infinity counts as whole; it is refused as negative, or has no whole number. -/
theorem setPrecision_infinity (pos : Pos) {sign : Bool}
    (hitem : toDecimal item s = (.ok (.infinity sign), s)) :
    ∃ e, setPrecision pos [item] s = (.error e, s) := by
  unfold setPrecision
  rw [bind_of_ok (oneArgument_single _ pos item s), bind_of_ok hitem]
  cases sign <;> exact ⟨_, rfl⟩

/-- A call that does not ask for a number of places changes nothing. -/
theorem setPrecision_refuses (pos : Pos) (h : ∀ n, ¬Asks s items n) :
    ∃ e, setPrecision pos items s = (.error e, s) := by
  cases items with
  | nil => exact ⟨_, rfl⟩
  | cons item rest =>
    cases rest with
    | cons other rest => exact ⟨_, rfl⟩
    | nil =>
      rcases toDecimal_reads admits_all item s with ⟨x, hitem⟩ | ⟨fault, -, hitem⟩
      · cases x with
        | infinity sign => exact setPrecision_infinity pos hitem
        | nan sign signaling payload =>
          refine setPrecision_not_whole pos hitem ?_
          cases signaling <;> exact fun hwhole => by cases hwhole
        | finite sign c e =>
          by_cases hwhole : isWhole (.finite sign c e) = .ok true
          · obtain ⟨a, ha⟩ := counts_of_isWhole hwhole
            have hneg : a < 0 := by
              by_contra hnonneg
              refine h a.toNat ⟨item, _, rfl, hitem, ?_⟩
              rwa [Int.toNat_of_nonneg (not_lt.mp hnonneg)]
            rw [setPrecision_whole pos hitem ha, if_pos hneg]
            exact ⟨_, rfl⟩
          · exact setPrecision_not_whole pos hitem hwhole
      · have hone := oneArgument_single "set_precision" pos item s
        exact ⟨_, (bind_of_ok hone).trans (bind_of_error hitem)⟩

end Run

/-! ### Sessions -/

/-- There are at least 28 digits and not too many, and as many as the places need unless they need
too many. -/
structure Supplied (now : Nat × Nat) : Prop where
  least : 28 ≤ now.2
  most : now.2 ≤ maxDigits
  enough : digitsFor now.1 ≤ maxDigits → digitsFor now.1 ≤ now.2

theorem Supplied.setting {now : Nat × Nat} (h : Supplied now) (places : Nat) :
    Supplied (setting now places) := by
  have hleast : 28 ≤ digitsFor places := by
    unfold digitsFor
    omega
  unfold DecimalScript.setting
  split_ifs with hmany
  · exact ⟨h.least, h.most, fun hfew => absurd hmany (not_lt.mpr hfew)⟩
  · exact ⟨hleast, not_lt.mp hmany, fun _ => le_rfl⟩

theorem Supplied.new {digits : Nat} (hleast : 28 ≤ digits) (hmost : digits ≤ maxDigits)
    (given : List (String × Value)) (tracing : Bool) :
    Supplied ((State.new digits given tracing).places, (State.new digits given tracing).digits) :=
  ⟨hleast, hmost, fun _ => hleast⟩

theorem State.Visits.supplied {s t : State} {allowed : Nat → State → Step → Prop}
    (h : s.Visits allowed t) (hs : Supplied (s.places, s.digits)) :
    Supplied (t.places, t.digits) := by
  induction h with
  | start => exact hs
  | @step u limit step _ _ ih =>
    by_cases hnew : ∃ given tracing, step = .renew given tracing
    · obtain ⟨given, tracing, rfl⟩ := hnew
      exact Supplied.new ih.least ih.most given tracing
    · have hadjusted := Step.takeWithin_adjusted (fun given tracing h => hnew ⟨given, tracing, h⟩)
        limit u
      exact hadjusted.invariant (fun _ places hbefore => hbefore.setting places) ih

/-- What a call that sets the precision does, and what holds of the precision along a session. A call
that asks for a number of places sets them, and the digits that they need if there can
be so many; otherwise it fails with the places set and the digits as they were. All
other calls fail and change nothing. So the digits are at least those that the places
need, after any session, exactly if there can be so many. -/
theorem precision_set_before_digits (s : State) (pos : Pos) (items : List Value) :
    (∀ n, Asks s items n → call "set_precision" pos items s =
      if digitsFor n ≤ maxDigits then
        (.ok (.decimal (ofNat s.places)), { s with places := n, digits := digitsFor n })
      else
        (.error (.fault (if 2 ^ 63 ≤ digitsFor n then .tooLarge else .noSuchValue)),
          { s with places := n })) ∧
    ((∀ n, ¬Asks s items n) → ∃ e, call "set_precision" pos items s = (.error e, s)) ∧
    ∀ given tracing t, (State.new 28 given tracing).Visits (fun _ _ _ => True) t →
      28 ≤ t.digits ∧ t.digits ≤ maxDigits ∧
        (digitsFor t.places ≤ t.digits ↔ digitsFor t.places ≤ maxDigits) := by
  refine ⟨fun n h => setPrecision_asks pos h, fun h => setPrecision_refuses pos h,
    fun given tracing t h => ?_⟩
  have hsupplied := h.supplied (Supplied.new le_rfl (by decide) given tracing)
  exact ⟨hsupplied.least, hsupplied.most, fun hle => hle.trans hsupplied.most, hsupplied.enough⟩

/-- Eighteen places are set, also as a text; a call without arguments is refused. -/
theorem precision_set_before_digits_eighteen :
    let t := (Step.takeWithin 0 (State.new 28 [] false) (.execute "set_precision(18)")).2
    call "set_precision" ⟨1, 1⟩ [.text "18"] {} =
      (.ok (.decimal (ofNat 10)), { places := 18, digits := 28 }) ∧
    (∃ e, call "set_precision" ⟨1, 1⟩ [] {} = (.error e, {})) ∧
    (digitsFor t.places ≤ t.digits ↔ digitsFor t.places ≤ maxDigits) := by
  intro t
  have hasks : Asks {} [.text "18"] 18 :=
    ⟨.text "18", .finite false 18 0, rfl, rfl, counts_whole (magnitude_unit 18)⟩
  have hrefused (n : Nat) : ¬Asks {} [] n := by
    rintro ⟨item, x, hitems, -⟩
    cases hitems
  exact ⟨((precision_set_before_digits {} ⟨1, 1⟩ _).1 18 hasks).trans (if_pos (by decide)),
    (precision_set_before_digits {} ⟨1, 1⟩ []).2.1 hrefused,
    ((precision_set_before_digits {} ⟨1, 1⟩ []).2.2 [] false _ (.step .start trivial)).2.2⟩

/-- A program that asks for too many places fails, and the places are set. -/
theorem failed_call_sets_places :
    let start := State.new 28 [] false
    let run := start.executeWithin 0 "set_precision(999999999999999990)"
    run.1 = .error (.exit (.fault .noSuchValue)) ∧
    (start.places, start.digits) = (10, 28) ∧
    (run.2.places, run.2.digits) = (999999999999999990, 28) ∧
    ¬digitsFor run.2.places ≤ run.2.digits := by
  decide +kernel

end DecimalScript
