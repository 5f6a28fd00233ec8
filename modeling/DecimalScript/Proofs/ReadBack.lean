import DecimalScript.Proofs.TwoRunRelations
import DecimalScript.Proofs.Literal
import DecimalScript.Proofs.PowerRemainder
import Mathlib

/-! Numbers that are written with all their places are read as what they are. The text has the
form of a number of the language, the reader of decimals gives back the rounded number,
and so does the text as a program, but for the sign of a zero. -/

namespace DecimalScript

open Decimal Grammar Grammar.Parser

/-- All of the text is one number. -/
theorem Split.numeral {places n : Nat} {whole fraction : List Char}
    (h : Split places n whole fraction) :
    Numeral (whole ++ tailText places fraction) [] := by
  obtain ⟨c, rest, rfl⟩ := List.exists_cons_of_ne_nil h.whole_ne
  refine ⟨⟨c, _, rfl, h.isDigit c (by simp)⟩, ?_⟩
  rw [List.append_nil]
  unfold numberLexeme
  dsimp only
  rw [h.takeWhile, List.drop_left, List.length_append]
  have hfraction : fractionLength (tailText places fraction) =
      (tailText places fraction).length := by
    have hdigits : ∀ c ∈ fraction, Text.isDigit c := fun c hc => h.text_isDigit c (by simp [hc])
    unfold tailText
    split_ifs with hp
    · rfl
    · have hlength : fraction.length ≠ 0 := by rw [h.places]; exact hp
      simp [fractionLength, List.takeWhile_eq_self_iff.mpr hdigits]
      intro heq
      simp [heq] at hlength
  rw [hfraction, if_neg (by simp)]

/-! ### Rounded numbers -/

namespace Decimal

variable {digits places c : Nat} {negative : Bool} {x z : Decimal}

/-- A coefficient at the last of the places that are kept needs no rounding. -/
structure Fits (digits places c : Nat) : Prop where
  few : places ≤ 2 * (maxExponent.toNat + digits)
  fits : c < 10 ^ digits
  range : adjusted c (-keptPlaces digits places) ≤ maxExponent

theorem Fits.mono {m n : Nat} (h : Fits digits places n) (hle : m ≤ n) : Fits digits places m :=
  ⟨h.few, hle.trans_lt h.fits, range_of_le hle h.range⟩

/-- A number that was rounded to its places. -/
theorem fits_of_toPlaces {e : Int} (hd : 0 < digits)
    (h : toPlaces digits places (.finite negative c e) = .ok z) :
    ∃ n, z = .finite negative n (-keptPlaces digits places) ∧ Fits digits places n := by
  unfold toPlaces at h
  split at h
  · cases h
  · rename_i hfew
    unfold quantize at h
    dsimp -zeta only at h
    split at h
    · cases h
    · rename_i hrange
      rw [not_or, not_lt, not_lt] at hrange
      split at h
      · have hone : digitCount 0 = 1 := rfl
        have hz := finish_fitting (hone.trans_le hd) hrange.2 hrange.1 h
        refine ⟨0, hz, by omega, by positivity, ?_⟩
        unfold adjusted maxExponent
        omega
      · split at h
        · cases h
        · extract_lets rounded at h
          split at h
          · cases h
          · rename_i hrounded
            rw [not_or, not_lt, not_lt] at hrounded
            have hz := finish_fitting hrounded.2 hrange.2 hrange.1 h
            exact ⟨rounded, hz, by omega, (digitCount_le_iff hd).mp hrounded.2, hrounded.1⟩

theorem Fits.toPlaces (h : Fits digits places c) (hd : 0 < digits) (negative : Bool) :
    toPlaces digits places (.finite negative c (-keptPlaces digits places)) =
      .ok (.finite negative c (-keptPlaces digits places)) := by
  rw [toPlaces_eq_quantize h.few]
  exact quantize_exact hd rfl h.fits (tinyExponent_le_kept digits places) h.range

theorem Fits.neg (h : Fits digits places c) (hd : 0 < digits) :
    neg digits (.finite false c (-keptPlaces digits places)) =
      .ok (.finite (c != 0) c (-keptPlaces digits places)) := by
  have hhigh : -(keptPlaces digits places : Int) ≤ maxExponent := by
    unfold maxExponent
    omega
  exact finish_grid _ hd h.fits (tinyExponent_le_kept digits places) hhigh h.range

/-- The coefficient with all places, of which the last ones are zeros. -/
def padding (digits places c : Nat) : Nat := c * 10 ^ (places - keptPlaces digits places)

theorem magnitude_padding (digits places c : Nat) :
    magnitude (padding digits places c) (-places) = magnitude c (-keptPlaces digits places) := by
  have hle := keptPlaces_le digits places
  rw [padding, magnitude_mul_pow]
  congr 1
  omega

theorem padding_eq (h : keptPlaces digits places = places) (c : Nat) :
    padding digits places c = c := by
  rw [padding, h, Nat.sub_self, pow_zero, mul_one]

theorem padding_ne_zero : padding digits places c ≠ 0 ↔ c ≠ 0 := by
  simp [padding]

theorem toFixed_kept (digits places : Nat) (negative : Bool) (c : Nat) :
    toFixed places (.finite negative c (-keptPlaces digits places)) =
      sign negative ++ pointed places (padding digits places c) := by
  have hle := keptPlaces_le digits places
  have hcount : (-(keptPlaces digits places : Int) + places).toNat =
      places - keptPlaces digits places := by omega
  rw [toFixed, hcount]
  rfl

theorem Fits.inTextRange (h : Fits digits places c) (hp : minTextExponent ≤ -places) :
    inTextRange (padding digits places c) (-places) := by
  have hrange : adjusted (padding digits places c) (-places) ≤ maxExponent := by
    by_cases hc : c = 0
    · subst hc
      have hone : digitCount 0 = 1 := rfl
      unfold padding adjusted maxExponent
      rw [Nat.zero_mul, hone]
      omega
    · rw [adjusted_eq_of_magnitude_eq (padding_ne_zero.mpr hc) (magnitude_padding digits places c)]
      exact h.range
  unfold maxExponent at hrange
  unfold Decimal.inTextRange maxTextExponent
  simp only [Bool.and_eq_true, decide_eq_true_eq]
  omega

theorem equal_of_compare {s t : Bool} {d : Nat} {e f : Int}
    (h : compareFinite s c e t d f = .eq) :
    Decimal.equal (.finite s c e) (.finite t d f) = .ok true := by
  change (Except.ok (some (compareFinite _ _ _ _ _ _))).map _ = _
  rw [h]
  rfl

/-- The sign of a zero does not count. -/
theorem equal_signless (negative : Bool) (c : Nat) (e : Int) :
    Decimal.equal (.finite (negative && c != 0) c e) (.finite negative c e) = .ok true := by
  apply equal_of_compare
  unfold compareFinite
  by_cases hc : c = 0
  · simp [hc]
  · cases negative <;> simp [hc]

end Decimal

/-! ### Numbers as programs -/

section Program
variable {s : State} {n : Nat} {whole fraction : List Char}

theorem eval_numeral (limit : Nat) (hd : 0 < s.digits) (hp : minTextExponent ≤ -s.places)
    (h : Split s.places (padding s.digits s.places n) whole fraction)
    (hf : Fits s.digits s.places n) (negative : Bool) (pos : Pos) :
    Run.eval limit (Term.ofTree (signedTree negative (whole ++ tailText s.places fraction) pos)) s =
      (.ok (.decimal (.finite (negative && n != 0) n (-s.kept))), s) := by
  have hread : ofText (String.ofList (whole ++ tailText s.places fraction)) =
      .ok (.finite false (padding s.digits s.places n) (-s.places)) :=
    ofText_split h String.toList_ofList (hf.inTextRange hp)
  have hround : Run.round (.finite false (padding s.digits s.places n) (-s.places)) s =
      (.ok (.finite false n (-s.kept)), s) := by
    refine Run.round_ok ?_
    rw [toPlaces_eq_quantize hf.few]
    exact quantize_exact hd (magnitude_padding _ _ n) hf.fits (tinyExponent_le_kept _ _) hf.range
  have hnumber : Run.eval limit (.number (String.ofList (whole ++ tailText s.places fraction))) s =
      (.ok (.decimal (.finite false n (-s.kept))), s) := by
    rw [Run.eval, Run.bind_of_ok (Run.decimal_ok hread s), Run.bind_of_ok hround]
    rfl
  cases negative with
  | false => exact hnumber
  | true =>
    have hnegate : Run.negate (.finite false n (-s.kept)) s =
        (.ok (.finite (n != 0) n (-s.kept)), s) := by
      unfold Run.negate
      rw [Run.bind_of_ok (Run.working_ok (f := fun digits => Decimal.neg digits _) (hf.neg hd))]
      exact Run.round_ok (hf.toPlaces hd _)
    have hnumeric : Run.numeric .unary (.decimal (.finite false n (-s.kept))) s =
        (.ok (.finite false n (-s.kept)), s) := rfl
    change Run.eval limit (.signed true (.number _)) s = _
    rw [Run.eval, Run.bind_of_ok hnumber, Run.bind_of_ok hnumeric]
    simp only [↓reduceIte]
    rw [Run.bind_of_ok hnegate]
    rfl

theorem execute_numeral (limit : Nat) (hd : 0 < s.digits) (hp : minTextExponent ≤ -s.places)
    (h : Split s.places (padding s.digits s.places n) whole fraction)
    (hf : Fits s.digits s.places n) {negative : Bool} {text : String}
    (ht : text.toList = signedText negative (whole ++ tailText s.places fraction)) :
    s.executeWithin limit text =
      (.ok (.decimal (.finite (negative && n != 0) n (-s.kept))),
        { s with source := Text.lines text, output := [] }) := by
  have hterm (digits : List Char) (pos place : Pos) :
      Term.ofTree (.node .conditionalExpr (some pos) [signedTree negative digits place]) =
        Term.ofTree (signedTree negative digits place) := by
    cases negative <;> rfl
  rw [State.executeWithin_ok (h.numeral.parse negative ht), hterm,
    eval_numeral (s := { s with source := Text.lines text, output := [] }) limit hd hp h hf]
  rfl

end Program

theorem format_decimal (x : Decimal) (s : State) :
    Run.format (.decimal x) s = (do
      let fixed ← Run.decimal (x.toPlaces s.digits s.places)
      pure (fixed.toFixed s.places) : Run String) s := rfl

end DecimalScript
