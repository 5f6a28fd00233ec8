import DecimalScript.Proofs.Environment
import DecimalScript.Proofs.ReadBack
import DecimalScript.Proofs.Reports
import Mathlib

/-! How numbers are printed. A number that has no more digits than are worked with is printed
like its sum with zero, unless it is the negative zero; a power is printed as a record of
its base, its exponent and its value. -/

namespace DecimalScript

namespace Decimal

variable {digits places : Nat} {negative : Bool}

/-! ### Rounding to places depends on the value alone -/

theorem divNearest_mul (tie : Tie) (num den : Nat) {k : Nat} (hk : 0 < k) :
    divNearest tie (num * k) (den * k) = divNearest tie num den := by
  have hquotient : num * k / (den * k) = num / den := Nat.mul_div_mul_right num den hk
  have hrest : 2 * (num * k % (den * k)) = 2 * (num % den) * k := by
    rw [Nat.mul_mod_mul_right, mul_assoc]
  unfold divNearest
  simp only [hquotient, hrest, Nat.mul_lt_mul_right hk]

theorem dropDigits_shift (tie : Tie) (c count k : Nat) :
    dropDigits tie (c * 10 ^ k) (count + k) = dropDigits tie c count := by
  have hdivide : divNearest tie (c * 10 ^ k) (10 ^ (count + k)) = divNearest tie c (10 ^ count) := by
    rw [pow_add]
    exact divNearest_mul tie c (10 ^ count) (by positivity)
  unfold dropDigits
  rw [Nat.pow_eq, Nat.pow_eq, hdivide]
  by_cases hc : c = 0
  · subst hc
    have hzero (den : Nat) : divNearest tie 0 (10 ^ den) = 0 := by
      have hpos : 0 < 10 ^ den := by positivity
      simp [divNearest, hpos]
    simp [hzero]
  · rw [digitCount_mul_pow hc]
    simp only [Nat.add_lt_add_iff_right]

theorem quantize_scaled (target : Int) (c k : Nat) (e : Int) :
    quantize digits target (.finite negative (c * 10 ^ k) (e - k)) =
      quantize digits target (.finite negative c e) := by
  by_cases hc : c = 0
  · subst hc
    simp [quantize]
  · have hne : c * 10 ^ k ≠ 0 := Nat.mul_ne_zero hc (by positivity)
    have hrounded : (if target ≤ e - k then c * 10 ^ k * Nat.pow 10 (e - k - target).toNat
        else dropDigits .awayFromZero (c * 10 ^ k) (target - (e - k)).toNat) =
        if target ≤ e then c * Nat.pow 10 (e - target).toNat
        else dropDigits .awayFromZero c (target - e).toNat := by
      rw [Nat.pow_eq, Nat.pow_eq]
      split_ifs with hlow hhigh hhigh
      · rw [mul_assoc, ← pow_add]
        congr 2
        omega
      · omega
      · -- the digits that are dropped are among the zeros at the end
        have hsplit : k = (e - target).toNat + (target - (e - k)).toNat := by omega
        nth_rewrite 1 [hsplit]
        rw [pow_add, ← mul_assoc, dropDigits_mul_pow]
      · have hsplit : (target - (e - k)).toNat = (target - e).toNat + k := by omega
        rw [hsplit, dropDigits_shift]
    have hcount : (digitCount (c * 10 ^ k) : Int) + (e - k - target) =
        digitCount c + (e - target) := by
      rw [digitCount_mul_pow hc]
      push_cast
      ring
    unfold quantize
    dsimp only
    rw [if_neg hne, if_neg hc, hcount, hrounded]

/-- Two forms of one value are rounded alike. -/
theorem toPlaces_congr {c d : Nat} {e f : Int} (h : magnitude c e = magnitude d f) :
    toPlaces digits places (.finite negative c e) = toPlaces digits places (.finite negative d f) := by
  have hscaled {c d : Nat} {e f : Int} (hle : f ≤ e) (h : magnitude c e = magnitude d f) :
      quantize digits (-keptPlaces digits places) (.finite negative d f) =
        quantize digits (-keptPlaces digits places) (.finite negative c e) := by
    rw [← magnitude_scaled hle] at h
    have hd : d = c * 10 ^ (e - f).toNat :=
      le_antisymm (magnitude_le_iff.mp h.ge) (magnitude_le_iff.mp h.le)
    have hf : f = e - ((e - f).toNat : Int) := by omega
    rw [hd]
    nth_rewrite 2 [hf]
    apply quantize_scaled
  unfold toPlaces
  rcases le_total f e with hle | hle
  · rw [hscaled hle h]
  · rw [hscaled hle h.symm]

/-! ### The sum with zero -/

/-- A number that has no more digits than are worked with. -/
def InPrecision (digits : Nat) : Decimal → Prop
  | .finite _ c e => c < 10 ^ digits ∧ tinyExponent digits ≤ e ∧ adjusted c e ≤ maxExponent
  | _ => False

/-- The number, without its sign if it is zero. -/
def unsignedZero : Decimal → Decimal
  | .finite negative c e => .finite (negative && c != 0) c e
  | x => x

theorem add_zero {c : Nat} {e : Int} (hd : 0 < digits)
    (h : InPrecision digits (.finite negative c e)) (f : Int) :
    ∃ c' e', add digits (.finite negative c e) (.finite false 0 f) =
        .ok (.finite (negative && c != 0) c' e') ∧ magnitude c' e' = magnitude c e := by
  obtain ⟨hc, hlow, hhigh⟩ := h
  have hroom : c < 10 ^ (digits + 1) :=
    hc.trans_le (Nat.pow_le_pow_right (by norm_num) (Nat.le_succ digits))
  obtain ⟨n, g, hadd, hsum⟩ := add_units digits (t := false) (d := 0) (f := f)
    (signedMagnitude_eq_units (rfl : magnitude c e = _) negative)
    (signedMagnitude_eq_units (magnitude_zero f |>.trans (magnitude_zero e).symm) false)
    (by rwa [natAbs_signed]) (by rw [natAbs_signed]; positivity)
  have hzero : signed false 0 = 0 := rfl
  rw [hzero, Int.add_zero] at hadd hsum
  rw [natAbs_signed] at hsum
  have hsign : (if signed negative c = 0 then negative && false else decide (signed negative c < 0)) =
      (negative && c != 0) := by
    unfold signed
    by_cases hc : c = 0
    · cases negative <;> simp [hc]
    · have hpos : 0 < c := Nat.pos_of_ne_zero hc
      cases negative <;> simp [hc, hpos]
  obtain ⟨c', e', hfinish, _, hsame⟩ := finish_exact (negative && c != 0) hd hsum hc hlow hhigh
  refine ⟨c', e', ?_, hsame⟩
  rw [hadd, hsign, hfinish]

/-- A zero that can be rounded to its places is rounded to zero, with either sign. -/
theorem toPlaces_zero {e : Int} {y : Decimal} (hd : 0 < digits)
    (h : toPlaces digits places (.finite negative 0 e) = .ok y) (sign : Bool) :
    toPlaces digits places (.finite sign 0 e) =
      .ok (.finite sign 0 (-keptPlaces digits places)) := by
  obtain ⟨_, _, hfits⟩ := fits_of_toPlaces hd h
  have hzero : Fits digits places 0 := hfits.mono (Nat.zero_le _)
  rw [toPlaces_congr ((magnitude_zero e).trans (magnitude_zero (-keptPlaces digits places)).symm)]
  exact hzero.toPlaces hd sign

/-- With zero added the number is rounded as before, but for the sign of a zero. -/
theorem add_zero_toPlaces {x y : Decimal} (hd : 0 < digits) (hx : InPrecision digits x)
    (hy : toPlaces digits places x = .ok y) (f : Int) :
    ∃ z, add digits x (.finite false 0 f) = .ok z ∧
      toPlaces digits places z = .ok (if x.isZero then y.unsignedZero else y) := by
  cases x with
  | infinity | nan => cases hx
  | finite negative c e =>
    obtain ⟨c', e', hadd, hvalue⟩ := add_zero hd hx f
    refine ⟨_, hadd, ?_⟩
    rw [toPlaces_congr hvalue]
    by_cases hc : c = 0
    · subst hc
      have hzero := toPlaces_zero hd hy
      rw [hzero] at hy ⊢
      cases hy
      simp [isZero, unsignedZero]
    · have hsign : (negative && c != 0) = negative := by simp [hc]
      rw [hsign, hy]
      simp [isZero, hc]

end Decimal

/-! ### Trees of print statements -/

namespace Tree

def printing (e : Tree) (pos : Option Pos) : Tree :=
  .node .printCall pos [.node .printArgs pos [.node .printArg pos [e]]]

def plusZero (e : Tree) (pos : Option Pos) (place : Pos) : Tree :=
  .node .sum pos [e, .token .plus "+" place, .node .number pos [.token .number "0" place]]

theorem ofTree_printing (e : Tree) (pos : Option Pos) :
    Term.ofTree (e.printing pos) = .print [Term.ofTree e] := rfl

theorem ofTree_plusZero (e : Tree) (pos : Option Pos) (place : Pos) :
    Term.ofTree (e.plusZero pos place) =
      .sum false (.numeric .sum (Term.ofTree e)) (.number "0") := rfl

end Tree

/-! ### Texts -/

/-- The number that a value stands for, if it is a number or a power. -/
def Value.number? : Value → Option Decimal
  | .decimal x | .power _ _ x => some x
  | _ => Option.none

theorem toFixed_head (places n : Nat) (negative : Bool) (e : Int) :
    ∃ c rest, (Decimal.toFixed places (.finite negative n e)).toList = c :: rest ∧
      (negative → c = '-') ∧ (negative = false → c.isDigit) := by
  obtain ⟨units, hunits⟩ : ∃ m, m = n * Nat.pow 10 (e + places).toNat := ⟨_, rfl⟩
  obtain ⟨whole, fraction, hsplit, hpointed⟩ := pointed_split places units
  cases negative with
  | true =>
    refine ⟨'-', (Decimal.pointed places units).toList, ?_, fun _ => rfl, by simp⟩
    rw [Decimal.toFixed, ← hunits, String.toList_append]
    rfl
  | false =>
    obtain ⟨c, rest, rfl⟩ := List.exists_cons_of_ne_nil hsplit.whole_ne
    refine ⟨c, rest ++ tailText places fraction, ?_, by simp,
      fun _ => hsplit.isDigit c (by simp)⟩
    rw [Decimal.toFixed, ← hunits, String.toList_append, hpointed]
    rfl

/-- A record of a power does not look like a number. -/
theorem plainText_ne_toFixed (base exponent value : Decimal) (places n : Nat) (negative : Bool)
    (e : Int) :
    (Value.power base exponent value).plainText ≠ Decimal.toFixed places (.finite negative n e) := by
  intro heq
  obtain ⟨c, rest, htext, hminus, hdigit⟩ := toFixed_head places n negative e
  have hrecord : ∃ rest, (Value.power base exponent value).plainText.toList = 'P' :: rest := by
    have hname : "PowerValue(base=".toList = 'P' :: "owerValue(base=".toList := by decide +kernel
    unfold Value.plainText
    simp only [String.toList_append, List.append_assoc]
    rw [hname]
    exact ⟨_, List.cons_append⟩
  obtain ⟨rest', hrest⟩ := hrecord
  rw [heq, htext] at hrest
  obtain ⟨rfl, -⟩ := List.cons.inj hrest
  cases negative with
  | true => exact absurd (hminus rfl) (by decide)
  | false => exact absurd (hdigit rfl) (by decide)

/-- The negative zero is printed with its sign. -/
theorem toFixed_negative_ne (places n : Nat) (e : Int) :
    Decimal.toFixed places (.finite true n e) ≠ Decimal.toFixed places (.finite false n e) := by
  intro heq
  have hlength := congrArg String.length heq
  simp [Decimal.toFixed, Decimal.sign, String.length_append] at hlength

/-! ### Printing -/

section Printing
open Run
variable {limit : Nat} {e : Tree} {s t : State} {v : Value} {x y : Decimal}

theorem eval_printing {line : String} (pos : Option Pos)
    (h : eval limit (Term.ofTree e) s = (.ok v, t)) (hl : Run.format v t = (.ok line, t)) :
    eval limit (Term.ofTree (e.printing pos)) s =
      (.ok .none, { t with output := .printed line :: t.output }) := by
  have hall : evalAll limit [Term.ofTree e] s = (.ok [v], t) := by
    rw [evalAll, bind_of_ok h]
    rfl
  have htexts : [v].mapM Run.format t = (.ok [line], t) := by
    rw [List.mapM_cons, bind_of_ok hl]
    rfl
  have hprint : printValues [v] t = (.ok (), { t with output := .printed line :: t.output }) := by
    unfold printValues
    rw [bind_of_ok htexts]
    rfl
  rw [Tree.ofTree_printing, eval, bind_of_ok hall, bind_of_ok hprint]
  rfl

theorem format_rounded (hy : x.toPlaces t.digits t.places = .ok y) :
    Run.format (.decimal x) t = (.ok (y.toFixed t.places), t) := by
  rw [format_decimal, bind_of_ok (decimal_ok hy t)]
  rfl

theorem numeric_number (hv : v.number? = some x) (usage : Usage) :
    numeric usage v t = (.ok x, t) := by
  cases v with
  | decimal | power =>
    cases hv
    rfl
  | _ => cases hv

/-- The sum with zero, where the number can be written. -/
theorem eval_plusZero (pos : Option Pos) (place : Pos) (hd : 0 < t.digits)
    (h : eval limit (Term.ofTree e) s = (.ok v, t)) (hv : v.number? = some x)
    (hx : x.InPrecision t.digits) (hy : x.toPlaces t.digits t.places = .ok y) :
    eval limit (Term.ofTree (e.plusZero pos place)) s =
      (.ok (.decimal (if x.isZero then y.unsignedZero else y)), t) := by
  obtain ⟨z, hadd, hround⟩ := Decimal.add_zero_toPlaces hd hx hy (-t.kept)
  have hzero : eval limit (.number "0") t = (.ok (.decimal (.finite false 0 (-t.kept))), t) := by
    have hroom : Decimal.Room t.digits t.places 0 := by
      cases x with
      | infinity | nan => cases hx
      | finite negative c exponent =>
        obtain ⟨_, _, hfits⟩ := Decimal.fits_of_toPlaces hd hy
        exact ⟨hfits.few, by simp, by decide⟩
    have hliteral := eval_literal hd hroom limit false
    unfold State.literal at hliteral
    rw [Nat.zero_mul] at hliteral
    exact hliteral
  have hsum : Run.add x (.finite false 0 (-t.kept)) t =
      (.ok (if x.isZero then y.unsignedZero else y), t) := by
    unfold Run.add
    rw [bind_of_ok (working_ok (f := fun digits => Decimal.add digits _ _) hadd)]
    exact round_ok hround
  have hleft : eval limit (.numeric .sum (Term.ofTree e)) s = (.ok (.decimal x), t) := by
    rw [eval, bind_of_ok h, bind_of_ok (numeric_number hv .sum)]
    rfl
  have hnumber (x : Decimal) : numeric .sum (.decimal x) t = (.ok x, t) := rfl
  rw [Tree.ofTree_plusZero, eval, bind_of_ok hleft, bind_of_ok (hnumber x), bind_of_ok hzero,
    bind_of_ok (hnumber _)]
  simp only [Bool.false_eq_true, ↓reduceIte]
  rw [bind_of_ok hsum]
  rfl

end Printing

/-- What stands for a number where it is shown: the rounded number in fixed notation, but for
a power the record of it. -/
def Value.shown (v : Value) (rounded : Decimal) (places : Nat) : String :=
  match v with
  | .decimal _ => rounded.toFixed places
  | v => v.plainText

/-- Running the statement writes the line and leaves the state otherwise like this. -/
def Tree.Prints (statement : Tree) (limit : Nat) (s t : State) (line : String) : Prop :=
  Run.eval limit (Term.ofTree statement) s =
    (.ok .none, { t with output := .printed line :: t.output })

section Lines
open Run
variable {limit : Nat} {e : Tree} {s t : State} {v : Value} {x y : Decimal}

theorem format_shown (hv : v.number? = some x) (hy : x.toPlaces t.digits t.places = .ok y) :
    Run.format v t = (.ok (v.shown y t.places), t) := by
  cases v with
  | decimal =>
    cases hv
    exact format_rounded hy
  | power => rfl
  | _ => cases hv

theorem prints_shown (pos : Option Pos) (h : eval limit (Term.ofTree e) s = (.ok v, t))
    (hv : v.number? = some x) (hy : x.toPlaces t.digits t.places = .ok y) :
    (e.printing pos).Prints limit s t (v.shown y t.places) :=
  eval_printing pos h (format_shown hv hy)

theorem prints_plusZero (pos : Option Pos) (place : Pos) (hd : 0 < t.digits)
    (h : eval limit (Term.ofTree e) s = (.ok v, t)) (hv : v.number? = some x)
    (hx : x.InPrecision t.digits) (hy : x.toPlaces t.digits t.places = .ok y) :
    ((e.plusZero pos place).printing pos).Prints limit s t
      ((if x.isZero then y.unsignedZero else y).toFixed t.places) := by
  have hsum := eval_plusZero pos place hd h hv hx hy
  refine eval_printing pos hsum (format_rounded ?_)
  cases x with
  | infinity | nan => cases hx
  | finite negative c exponent =>
    obtain ⟨n, rfl, hfits⟩ := Decimal.fits_of_toPlaces hd hy
    split
    · exact hfits.toPlaces hd _
    · exact hfits.toPlaces hd _

/-- The two lines are the same for all numbers but powers and the negative zero. -/
theorem shown_eq_iff (hd : 0 < t.digits) (hv : v.number? = some x)
    (hx : x.InPrecision t.digits) (hy : x.toPlaces t.digits t.places = .ok y) :
    v.shown y t.places = (if x.isZero then y.unsignedZero else y).toFixed t.places ↔
      v = .decimal x ∧ ¬(x.isZero ∧ x.isNegative) := by
  cases x with
  | infinity | nan => cases hx
  | finite negative c exponent =>
    obtain ⟨n, rfl, -⟩ := Decimal.fits_of_toPlaces hd hy
    cases v with
    | decimal =>
      cases hv
      by_cases hc : c = 0
      · subst hc
        rw [Decimal.toPlaces_zero hd hy] at hy
        cases hy
        have hne := toFixed_negative_ne t.places 0 (-t.kept)
        cases negative <;>
          simp [Value.shown, Decimal.isZero, Decimal.isNegative, Decimal.unsignedZero, hne]
      · simp [Value.shown, Decimal.isZero, hc]
    | power base power value =>
      have hne (negative : Bool) :=
        plainText_ne_toFixed base power value t.places n negative (-t.kept)
      simp only [reduceCtorEq, false_and, iff_false]
      split
      · exact hne _
      · exact hne _
    | _ => cases hv

end Lines

/-! ### Sessions and scripts -/

theorem Decimal.OnGrid.inPrecision {x : Decimal} (h : x.OnGrid 28 10) :
    x.InPrecision 28 ∧ x.toPlaces 28 10 = .ok x := by
  cases x with
  | infinity | nan => cases h
  | finite negative c e =>
    obtain ⟨rfl, hcount⟩ := h
    have hc : c < 10 ^ 28 := (Decimal.digitCount_le_iff (by decide)).mp hcount
    have hrange : Decimal.adjusted c (-10) ≤ Decimal.maxExponent := by
      unfold Decimal.adjusted Decimal.maxExponent
      omega
    have hfits : Decimal.Fits 28 10 c := ⟨by decide, hc, hrange⟩
    exact ⟨⟨hc, by decide, hrange⟩, hfits.toPlaces (by decide) negative⟩

/-- Where the precision is never set, all numbers can be shown and have few enough digits. -/
theorem session_value {limit : Nat} {given : List (String × Value)} {tracing : Bool} {e : Tree}
    {s t : State} {v : Value} {x : Decimal}
    (hgiven : (State.new 28 given tracing).Holds (·.OnGrid 28 10))
    (hs : (State.new 28 given tracing).Visits (fun limit s step => ∃ text, step = .execute text ∧
      ¬s.Invokes limit "set_precision" text) s)
    (he : e.Shape) (hcall : ¬Run.Invokes limit "set_precision" (Term.ofTree e) s)
    (h : Run.eval limit (Term.ofTree e) s = (.ok v, t)) (hv : v.number? = some x) :
    0 < t.digits ∧ x.InPrecision t.digits ∧ x.toPlaces t.digits t.places = .ok x := by
  have hstart : (Standard.ofGrid 28 10 (by decide)).Good (State.new 28 given tracing) :=
    ⟨⟨rfl, rfl⟩, hgiven⟩
  have hgood : (Standard.ofGrid 28 10 (by decide)).Good s := by
    refine State.visits_good ?_ hs hstart
    rintro _ _ _ ⟨text, rfl, hno⟩
    exact ⟨text, rfl, fun hi => absurd hi hno⟩
  have hsound := (Run.eval_sound (shape_usable he).1 hgood fun hi => absurd hi hcall).of_ok h
  obtain ⟨hend, hfits⟩ := hsound
  obtain ⟨hdigits, hplaces⟩ := hend.fixed
  have hgrid : x.OnGrid 28 10 := by
    cases v with
    | decimal =>
      cases hv
      exact hfits
    | power =>
      cases hv
      exact hfits.2.2
    | _ => cases hv
  rw [hdigits, hplaces]
  exact ⟨by decide, hgrid.inPrecision⟩

theorem CommandLine.runProgram_shown {limit : Nat} {program : String}
    {overrides : List (String × Decimal)} {tracing : Bool} {v : Value} {t : State} {x y : Decimal}
    (h : outcome limit program overrides tracing = (.ok v, t)) (hv : v.number? = some x)
    (hy : x.toPlaces t.digits t.places = .ok y) :
    runProgram limit program overrides tracing =
      { ending := .code 0, out := t.outputText ++ (v.shown y t.places ++ "\n") } := by
  have hformat : t.format v = .ok (v.shown y t.places) := by
    have hshown := format_shown (t := { t with output := [] }) hv hy
    unfold State.format State.run
    rw [hshown]
    rfl
  unfold outcome at h
  unfold runProgram
  extract_lets given
  have hrun : (State.new 28 given tracing).executeWithin limit program = (.ok v, t) := h
  rw [hrun]
  dsimp only
  cases v with
  | decimal | power => simp [hformat, Except.map]
  | _ => cases hv

/-- How numbers are shown. If an expression has a number as its value that can be shown, and it
has no more digits than are worked with, then its sum with zero is printed in fixed
notation with the places of the state; and the expression itself is printed as the same
line if and only if its value is no power and not the negative zero. A power is printed
as a record. In a session that never sets the precision all numbers are of this kind. The
command line shows the value of a script as `print` does. -/
theorem numbers_print_alike_unless_power_or_negative_zero (limit : Nat) (e : Tree)
    (pos : Option Pos) (place : Pos) :
    (∀ (s t : State) v x y, Run.eval limit (Term.ofTree e) s = (.ok v, t) → v.number? = some x →
      0 < t.digits → x.InPrecision t.digits → x.toPlaces t.digits t.places = .ok y →
      ∃ line fixed, (e.printing pos).Prints limit s t line ∧
        ((e.plusZero pos place).printing pos).Prints limit s t fixed ∧
        line = v.shown y t.places ∧
        fixed = (if x.isZero then y.unsignedZero else y).toFixed t.places ∧
        (line = fixed ↔ v = .decimal x ∧ ¬(x.isZero ∧ x.isNegative))) ∧
    (∀ given tracing (s t : State) v x, (State.new 28 given tracing).Holds (·.OnGrid 28 10) →
      (State.new 28 given tracing).Visits (fun limit s step => ∃ text, step = .execute text ∧
        ¬s.Invokes limit "set_precision" text) s →
      e.Shape → ¬Run.Invokes limit "set_precision" (Term.ofTree e) s →
      Run.eval limit (Term.ofTree e) s = (.ok v, t) → v.number? = some x →
      0 < t.digits ∧ x.InPrecision t.digits ∧ x.toPlaces t.digits t.places = .ok x) ∧
    ∀ program overrides tracing t v x y,
      CommandLine.outcome limit program overrides tracing = (.ok v, t) → v.number? = some x →
      x.toPlaces t.digits t.places = .ok y →
      CommandLine.runProgram limit program overrides tracing =
        { ending := .code 0, out := t.outputText ++ (v.shown y t.places ++ "\n") } := by
  refine ⟨fun s t v x y h hv hd hx hy => ?_, fun given tracing s t v x => session_value,
    fun program overrides tracing t v x y => CommandLine.runProgram_shown⟩
  exact ⟨_, _, prints_shown pos h hv hy, prints_plusZero pos place hd h hv hx hy, rfl, rfl,
    shown_eq_iff hd hv hx hy⟩

/-- A number is printed like its sum with zero. -/
theorem numbers_print_alike_unless_power_or_negative_zero_five :
    let e : Tree := .node .number none [.token .number "5" ⟨1, 1⟩]
    let x : Decimal := .finite false 50000000000 (-10)
    Run.eval 0 (Term.ofTree e) {} = (.ok (.decimal x), {}) ∧ x.InPrecision 28 ∧
      x.toPlaces 28 10 = .ok x ∧
      ∃ line, (e.printing none).Prints 0 {} {} line ∧
        ((e.plusZero none ⟨1, 3⟩).printing none).Prints 0 {} {} line := by
  intro e x
  have hx : x.InPrecision 28 ∧ x.toPlaces 28 10 = .ok x :=
    Decimal.OnGrid.inPrecision (by decide +kernel)
  have heval : Run.eval 0 (Term.ofTree e) {} = (.ok (.decimal x), {}) := by
    have hwrites : State.Writes {} 5 := initial_writes_iff.mpr (by decide)
    exact eval_literal (by decide) hwrites.room 0 false
  have hmain := (numbers_print_alike_unless_power_or_negative_zero 0 e none ⟨1, 3⟩).1
  obtain ⟨line, fixed, hline, hfixed, -, -, hsame⟩ :=
    hmain {} {} (.decimal x) x x heval rfl (by decide) hx.1 hx.2
  obtain rfl := hsame.mpr ⟨rfl, by decide⟩
  exact ⟨heval, hx.1, hx.2, line, hline, hfixed⟩

/-- A power, the negative zero and a number with more digits than are worked with are not
printed like their sums with zero. -/
theorem power_prints_as_record :
    (State.executeWithin 0 "print(2 ** 10)" {}).2.output = [.printed
      "PowerValue(base=Decimal('2.0000000000'), exponent=Decimal('10.0000000000'), value=Decimal('1024.0000000000'))"] ∧
    (State.executeWithin 0 "print(2 ** 10 + 0)" {}).2.output = [.printed "1024.0000000000"] ∧
    (CommandLine.runProgram 0 "b = 2 ** 10\nb" [] false).out =
      "PowerValue(base=Decimal('2.0000000000'), exponent=Decimal('10.0000000000'), value=Decimal('1024.0000000000'))\n" ∧
    (State.executeWithin 0 "print(0 * -1)" {}).2.output = [.printed "-0.0000000000"] ∧
    (State.executeWithin 0 "print(0 * -1 + 0)" {}).2.output = [.printed "0.0000000000"] ∧
    let x : Decimal := .finite false (1005 * 10 ^ 31 - 1) (-34)
    let s : State := { State.new 28 [("x", .decimal x)] false with places := 2 }
    (State.executeWithin 0 "print(x)" s).2.output = [.printed "1.00"] ∧
      (State.executeWithin 0 "print(x + 0)" s).2.output = [.printed "1.01"] := by
  decide +kernel

end DecimalScript
