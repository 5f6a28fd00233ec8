import DecimalScript.Proofs.Footprint
import DecimalScript.Proofs.Identifier
import DecimalScript.Proofs.Law
import DecimalScript.Proofs.StandardPreservation
import Mathlib

/-! The precision along a session. A calculation changes the places and the digits of its
state only by calls that set the precision, and never whether it is traced. The digits
outlive the state: a new state takes over those of the old one, and this is all that
earlier programs can do to the programs that are run on it. -/

namespace DecimalScript

open Run

/-! ### Calls that set the precision -/

/-- The places and digits after the precision was set. Where there cannot be so many
digits, the places are set all the same. -/
def setting (before : Nat × Nat) (places : Nat) : Nat × Nat :=
  (places, if maxDigits < digitsFor places then before.2 else digitsFor places)

/-- The later state is traced if the earlier one is, and has the places and digits of it
after some calls that set the precision. -/
structure State.Adjusted (s t : State) : Prop where
  tracing : t.tracing = s.tracing
  precision : ∃ calls : List Nat, (t.places, t.digits) = calls.foldl setting (s.places, s.digits)

namespace State.Adjusted

variable {s t u : State}

theorem of_eq (ht : t.tracing = s.tracing) (hp : t.places = s.places) (hd : t.digits = s.digits) :
    s.Adjusted t :=
  ⟨ht, [], by rw [hp, hd]; rfl⟩

theorem refl (s : State) : s.Adjusted s := of_eq rfl rfl rfl

theorem trans (h : s.Adjusted t) (k : t.Adjusted u) : s.Adjusted u := by
  obtain ⟨first, hfirst⟩ := h.precision
  obtain ⟨second, hsecond⟩ := k.precision
  refine ⟨k.tracing.trans h.tracing, first ++ second, ?_⟩
  rw [List.foldl_append, ← hfirst, hsecond]

/-- What holds of places and digits at first, and after each call, holds in the end. -/
theorem invariant {P : Nat × Nat → Prop} (h : s.Adjusted t)
    (hstep : ∀ before places, P before → P (setting before places))
    (hs : P (s.places, s.digits)) : P (t.places, t.digits) := by
  obtain ⟨calls, hcalls⟩ := h.precision
  rw [hcalls]
  clear hcalls
  generalize (s.places, s.digits) = start at hs
  induction calls generalizing start with
  | nil => exact hs
  | cons places rest ih => exact ih _ (hstep start places hs)

end State.Adjusted

namespace Run

variable {α β : Type}

/-- The calculation changes no settings except by setting the precision, whatever its end. -/
def Adjusts (run : Run α) : Prop := ∀ s : State, s.Adjusted (run s).2

theorem Adjusts.bind {x : Run α} {g : α → Run β} (hx : Adjusts x) (hg : ∀ a, Adjusts (g a)) :
    Adjusts (x >>= g) := by
  intro s
  rw [bind_apply]
  have hfirst := hx s
  cases hr : x s with
  | mk r t =>
    rw [hr] at hfirst
    cases r with
    | error e => exact hfirst
    | ok a => exact hfirst.trans (hg a t)

theorem adjusts_pure (a : α) : Adjusts (pure a : Run α) := fun s => .refl s

theorem adjusts_throw (e : Exit) : Adjusts (throw e : Run α) := fun s => .refl s

theorem adjusts_get {g : State → Run α} (h : ∀ s, Adjusts (g s)) : Adjusts (get >>= g) :=
  Adjusts.bind (fun s => .refl s) h

theorem Reads.adjusts {F : Fault → Prop} {run : Run α} (h : Reads F run) : Adjusts run := by
  intro s
  rcases h s with ⟨a, ha⟩ | ⟨fault, _, hr⟩
  · rw [ha]
    exact .refl s
  · rw [hr]
    exact .refl s

theorem setVariable_adjusts (name : String) (value : Value) : Adjusts (setVariable name value) :=
  fun _ => .of_eq rfl rfl rfl

theorem eraseVariable_adjusts (name : String) : Adjusts (eraseVariable name) :=
  fun _ => .of_eq rfl rfl rfl

/-- The one function that changes a state. The places are set before it is known whether
there can be as many digits as they need. -/
theorem setPrecision_adjusts (pos : Pos) (items : List Value) : Adjusts (setPrecision pos items) := by
  have hlimit : maxDigits < 2 ^ 63 := by decide
  refine (oneArgument_reads admits_all _ pos items).adjusts.bind fun item => ?_
  refine (toDecimal_reads admits_all item).adjusts.bind fun x => ?_
  refine (decimal_reads admits_all _).adjusts.bind fun isWhole => ?_
  cases isWhole with
  | false => exact adjusts_throw _
  | true =>
    refine (decimal_reads admits_all _).adjusts.bind fun isNegative => ?_
    cases isNegative with
    | true => exact adjusts_throw _
    | false =>
      refine adjusts_get fun old => ?_
      refine (toInt_reads admits_all x).adjusts.bind fun n => ?_
      -- the places are set whatever comes of the digits
      have hplaces (s : State) (h : maxDigits < digitsFor n.toNat) :
          s.Adjusted { s with places := n.toNat } :=
        ⟨rfl, [n.toNat], by simp [setting, h]⟩
      intro s
      change s.Adjusted ((if Nat.pow 2 63 ≤ digitsFor n.toNat then fail .tooLarge
        else if maxDigits < digitsFor n.toNat then fail .noSuchValue
        else do
          modify fun s => { s with digits := digitsFor n.toNat }
          pure (.decimal (Decimal.ofNat old.places)) : Run Value) { s with places := n.toNat }).2
      split_ifs with hlarge hmany
      · exact hplaces s (hlimit.trans_le hlarge)
      · exact hplaces s hmany
      · change s.Adjusted { s with places := n.toNat, digits := digitsFor n.toNat }
        exact ⟨rfl, [n.toNat], by simp [setting, hmany]⟩

theorem endLoop_adjusted (name : String) (s : State) : s.Adjusted (endLoop name s) := by
  unfold endLoop
  split
  · split
    · exact .of_eq rfl rfl rfl
    · exact .refl s
  · exact .refl s

theorem blameNode_adjusts (cause : Cause) (pos : Option Pos) :
    Adjusts (blameNode cause pos : Run α) := by
  cases pos <;> exact adjusts_throw _

theorem insideLoop_adjusts {name : String} {pos : Option Pos} {run : Run α} (h : Adjusts run) :
    Adjusts (insideLoop name pos run) := by
  intro s
  unfold insideLoop
  split
  · exact blameNode_adjusts _ _ s
  · have hinside : s.Adjusted { s with loops := name :: s.loops } := .of_eq rfl rfl rfl
    exact (hinside.trans (h _)).trans (endLoop_adjusted name _)

theorem catchSignal_adjusts {run : Run α} (h : Adjusts run) : Adjusts (catchSignal run) := by
  intro s
  have hend := h s
  unfold catchSignal
  cases hr : run s with
  | mk r t =>
    rw [hr] at hend
    cases r with
    | ok a => exact hend
    | error e => cases e <;> exact hend

/-- To change no settings otherwise is a law that errors have no part in. -/
def adjusts : Regime where
  Obeys := Adjusts
  admits _ _ := True
  pure := adjusts_pure
  bind := Adjusts.bind
  get s := .refl s
  exit _ := adjusts_throw _
  write _ _ := .of_eq rfl rfl rfl
  setVariable := setVariable_adjusts
  eraseVariable := eraseVariable_adjusts
  setPrecision _ _ := setPrecision_adjusts _
  insideLoop _ := insideLoop_adjusts
  catchSignal := catchSignal_adjusts

theorem eval_adjusts (limit : Nat) (t : Term) : Adjusts (eval limit t) :=
  adjusts.eval limit fun _ _ _ _ _ => trivial

end Run

/-! ### Sessions -/

section Sessions
variable {limit : Nat} {s t : State} {given : List (String × Value)} {tracing : Bool}

theorem State.executeWithin_adjusted (limit : Nat) (text : String) (s : State) :
    s.Adjusted (s.executeWithin limit text).2 := by
  have hstart : s.Adjusted { s with source := Text.lines text, output := [] } := .of_eq rfl rfl rfl
  unfold State.executeWithin
  split
  · exact .of_eq rfl rfl rfl
  · exact hstart.trans (eval_adjusts limit _ _)

/-- All steps but the change to a new state set the precision by calls alone. -/
theorem Step.takeWithin_adjusted {step : Step} (h : ∀ given tracing, step ≠ .renew given tracing)
    (limit : Nat) (s : State) : s.Adjusted (step.takeWithin limit s).2 := by
  have hstart : s.Adjusted { s with output := [] } := .of_eq rfl rfl rfl
  cases step with
  | execute text => exact s.executeWithin_adjusted limit text
  | assign name value =>
    have hset : Adjusts (setVariable name value *> pure Value.none) := by
      rw [seqRight_eq_bind]
      exact (setVariable_adjusts name value).bind fun _ => adjusts_pure _
    exact hstart.trans (hset _)
  | format value =>
    exact hstart.trans (((format_reads admits_all value).map Value.text).adjusts _)
  | renew given tracing => exact absurd rfl (h given tracing)

/-- There are never fewer than 28 digits, if there were as many at first. -/
theorem State.Visits.digits_ge {allowed : Nat → State → Step → Prop} (h : s.Visits allowed t)
    (hs : 28 ≤ s.digits) : 28 ≤ t.digits := by
  induction h with
  | start => exact hs
  | @step u limit step _ _ ih =>
    by_cases hnew : ∃ given tracing, step = .renew given tracing
    · obtain ⟨given, tracing, rfl⟩ := hnew
      exact ih
    · have hadjusted := Step.takeWithin_adjusted (fun given tracing h => hnew ⟨given, tracing, h⟩)
        limit u
      refine hadjusted.invariant (P := fun now => 28 ≤ now.2) (fun before places hb => ?_) ih
      unfold setting digitsFor
      dsimp only
      split_ifs <;> omega

/-- The digits are those for the places, unless there cannot be so many. -/
def Balanced (now : Nat × Nat) : Prop := now.2 = digitsFor now.1 ∨ maxDigits < digitsFor now.1

theorem balanced_setting (before : Nat × Nat) (places : Nat) : Balanced (setting before places) := by
  unfold Balanced setting
  by_cases h : maxDigits < digitsFor places
  · exact .inr h
  · exact .inl (if_neg h)

theorem State.Visits.balanced {allowed : Nat → State → Step → Prop} (h : s.Visits allowed t)
    (ha : ∀ limit u step, allowed limit u step → ∀ given tracing, step ≠ .renew given tracing)
    (hs : Balanced (s.places, s.digits)) : Balanced (t.places, t.digits) := by
  induction h with
  | start => exact hs
  | step _ hstep ih =>
    exact (Step.takeWithin_adjusted (ha _ _ _ hstep) _ _).invariant
      (fun before places _ => balanced_setting before places) ih

/-- A program that does not call `set_precision` leaves the digits as they are. -/
theorem State.executeWithin_digits {text : String}
    (h : ∀ tree, Grammar.parse text = .ok tree → "set_precision" ∉ tree.functions)
    (limit : Nat) (s : State) : (s.executeWithin limit text).2.digits = s.digits := by
  cases hparse : Grammar.parse text with
  | error mistake =>
    unfold State.executeWithin
    rw [hparse]
  | ok tree =>
    have hself := eval_footprint limit (Grammar.parse_isProgram hparse)
      (.refl tree.names { s with source := Text.lines text, output := [] })
    rw [State.executeWithin_ok hparse]
    exact (hself.2.1.precision (h tree hparse)).2

theorem State.Visits.digits_eq {allowed : Nat → State → Step → Prop} (h : s.Visits allowed t)
    (ha : ∀ limit u text, allowed limit u (.execute text) →
      ∀ tree, Grammar.parse text = .ok tree → "set_precision" ∉ tree.functions) :
    t.digits = s.digits := by
  induction h with
  | start => rfl
  | @step u limit step _ hstep ih =>
    rw [← ih]
    cases step with
    | execute text => exact u.executeWithin_digits (ha _ _ _ hstep) limit
    | assign name value => rfl
    | format value =>
      have hreads : Reads (fun _ => True) (Value.text <$> Run.format value) :=
        (format_reads admits_all value).map Value.text
      rcases hreads { u with output := [] } with ⟨a, ha⟩ | ⟨fault, _, ha⟩
      · simp [Step.takeWithin, State.run, ha]
      · simp [Step.takeWithin, State.run, ha]
    | renew given tracing => rfl

/-! ### New states -/

/-- A new state that takes the place of this one runs every program like the first state of
all: with the same outcome, the same output and the same variables. -/
def State.Isolated (t : State) : Prop :=
  ∀ (limit : Nat) (given : List (String × Value)) (tracing : Bool) (text : String),
    let later := ((Step.renew given tracing).takeWithin limit t).2.executeWithin limit text
    let first := (State.new 28 given tracing).executeWithin limit text
    later.1 = first.1 ∧ later.2.output = first.2.output ∧ later.2.env = first.2.env

theorem execute_literal (limit : Nat) (negative : Bool) (n : Nat) (s : State) :
    (s.executeWithin limit (literal negative n)).1 =
      (eval limit (literalTerm negative n)
        { s with source := Text.lines (literal negative n), output := [] }).1.mapError .exit := by
  have hparse := (Grammar.numeral_digits n (.inl rfl)).parse negative (literal_toList negative n)
  rw [signedTree_digits] at hparse
  have hterm (pos place : Pos) : Term.ofTree (.node .conditionalExpr (some pos)
      [literalTree negative n place]) = Term.ofTree (literalTree negative n place) := by
    cases negative <;> rfl
  rw [State.executeWithin_ok hparse, hterm, ofTree_literalTree]

/-- The first number that is too large at the start can be written with one more digit. -/
theorem room_of_lt {digits : Nat} (h : 28 < digits) : Decimal.Room digits 10 (10 ^ 18) where
  few := by omega
  fits := by
    rw [Decimal.keptPlaces_eq (by unfold Decimal.tinyExponent Decimal.minExponent; omega)]
    calc 10 ^ 18 * 10 ^ 10 = 10 ^ 28 := by norm_num
      _ < 10 ^ digits := Nat.pow_lt_pow_right (by omega) h
  range := by decide +kernel

theorem isolated_iff (h : 28 ≤ t.digits) : t.Isolated ↔ t.digits = 28 := by
  constructor
  · intro hisolated
    by_contra hne
    have hsame := (hisolated 0 [] false (literal false (10 ^ 18))).1
    rw [execute_literal, execute_literal] at hsame
    have hlarge : ¬State.Writes {} (10 ^ 18) := fun hw => absurd (initial_writes_iff.mp hw) (by simp)
    obtain ⟨trap, htrap⟩ := eval_literal_traps (s := { State.new 28 [] false with
      source := Text.lines (literal false (10 ^ 18)), output := [] }) hlarge 0 false
    have hdigits : 28 < t.digits := by omega
    have hvalue := eval_literal (s := { State.new t.digits [] false with
      source := Text.lines (literal false (10 ^ 18)), output := [] }) (n := 10 ^ 18)
      (Nat.zero_lt_of_lt h) (room_of_lt hdigits) 0 false
    dsimp only [Step.takeWithin] at hsame
    rw [htrap, hvalue] at hsame
    cases hsame
  · rintro heq limit given tracing text
    dsimp only [Step.takeWithin]
    rw [heq]
    exact ⟨rfl, rfl, rfl⟩

/-- What programs that ran before can do to a program on a new state. After any session the
program runs as if nothing had been there if and only if there are 28 digits again.
Within the life of one state that is the case as long as its places are at most 18, if
there can be as many digits as they need. No session changes the digits unless one of
its programs calls `set_precision`. -/
theorem new_state_isolated_iff_digits (given : List (String × Value)) (tracing : Bool) :
    (∀ t, (State.new 28 given tracing).Visits (fun _ _ _ => True) t →
      (t.Isolated ↔ t.digits = 28)) ∧
    (∀ t, (State.new 28 given tracing).Visits
        (fun _ _ step => ∀ given tracing, step ≠ .renew given tracing) t →
      digitsFor t.places ≤ maxDigits → (t.Isolated ↔ t.places ≤ 18)) ∧
    ∀ t, (State.new 28 given tracing).Visits (fun _ _ step => ∀ text tree, step = .execute text →
        Grammar.parse text = .ok tree → "set_precision" ∉ tree.functions) t → t.Isolated := by
  refine ⟨fun t h => ?_, fun t h hfew => ?_, fun t h => ?_⟩
  · exact isolated_iff (h.digits_ge le_rfl)
  · rw [isolated_iff (h.digits_ge le_rfl)]
    have hbalanced : Balanced (t.places, t.digits) :=
      h.balanced (fun _ _ _ hstep => hstep) (.inl rfl)
    rcases hbalanced with hdigits | hmany
    · change t.digits = digitsFor t.places at hdigits
      rw [hdigits]
      unfold digitsFor
      omega
    · exact absurd hfew (by simpa using hmany)
  · rw [isolated_iff (h.digits_ge le_rfl)]
    exact h.digits_eq fun _ _ text hstep tree hparse => hstep text tree rfl hparse

/-- Eighteen places may be set and unset, and a new state is none the wiser. -/
theorem new_state_isolated_iff_digits_eighteen :
    let start := State.new 28 [] false
    let t := (Step.takeWithin 0 start (.execute "set_precision(18)")).2
    t.places = 18 ∧ digitsFor t.places ≤ maxDigits ∧ t.Isolated := by
  intro start t
  have hplaces : t.places = 18 := by decide +kernel
  have hfew : digitsFor t.places ≤ maxDigits := by
    rw [hplaces]
    decide
  have hmain := (new_state_isolated_iff_digits [] false).2.1 t (.step .start fun _ _ h => by cases h)
  exact ⟨hplaces, hfew, (hmain hfew).mpr hplaces.le⟩

/-- With fifty places set before, a new state calculates a power that traps on a first one. -/
theorem precision_outlives_state :
    let t := (State.executeWithin 0 "set_precision(50)" (State.new 28 [] false)).2
    let later := ((Step.renew [] false).takeWithin 0 t).2
    (later.executeWithin 0 "10 ** 20").1 = .ok (.power (.finite false (10 ^ 11) (-10))
      (.finite false (2 * 10 ^ 11) (-10)) (.finite false (10 ^ 30) (-10))) ∧
    ((State.new 28 [] false).executeWithin 0 "10 ** 20").1 =
      .error (.exit (.fault (.trap .invalidOperation))) := by
  intro t later
  have hdigits : t.digits = 60 := by decide +kernel
  have hlater : later = State.new t.digits [] false := rfl
  rw [hlater, hdigits]
  decide +kernel

end Sessions

end DecimalScript
