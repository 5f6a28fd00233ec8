import DecimalScript.Decimal.Rounding
import DecimalScript.Decimal.Text
import Mathlib

/-! The digits of a number around its point. A number that is written with a sign, digits and
places is read as what it is. -/

namespace DecimalScript

open Decimal

/-- The characters of a number, behind a minus sign if it is negated. -/
def signedText (negative : Bool) (digits : List Char) : List Char :=
  (if negative then ['-'] else []) ++ digits

/-! ### Digits -/

theorem digits_cons (n : Nat) : ∃ c tail, Nat.toDigits 10 n = c :: tail ∧ c.isDigit := by
  cases h : Nat.toDigits 10 n with
  | nil =>
    have hpos : 0 < (Nat.toDigits 10 n).length := Nat.length_toDigits_pos
    rw [h] at hpos
    exact absurd hpos (lt_irrefl 0)
  | cons c tail =>
    refine ⟨c, tail, rfl, Nat.isDigit_of_mem_toDigits (b := 10) (n := n) (by norm_num) le_rfl ?_⟩
    rw [h]
    exact List.mem_cons_self

theorem digitValue_of_isDigit {c : Char} (h : c.isDigit) :
    Text.digitValue? c = some (c.toNat - '0'.toNat) := by
  obtain ⟨hlow, hhigh⟩ := Char.isDigit_iff_toNat.mp h
  have hzero : '0'.toNat = 48 := rfl
  have hnine : '9'.toNat = 57 := rfl
  have hrange : (decide (48 ≤ c.toNat) && decide (c.toNat < 48 + 10)) = true := by
    simp only [Bool.and_eq_true, decide_eq_true_eq]
    omega
  obtain ⟨others, hzeros⟩ : ∃ others, Text.digitZeros = 48 :: others := ⟨_, rfl⟩
  have hfind : Text.digitZeros.find? (fun first => first ≤ c.toNat && c.toNat < first + 10) =
      some 48 := by
    rw [hzeros]
    exact List.find?_cons_of_pos hrange
  unfold Text.digitValue?
  rw [hfind]
  rfl

theorem isDigit_of_isDigit {c : Char} (h : c.isDigit) : Text.isDigit c := by
  unfold Text.isDigit
  rw [digitValue_of_isDigit h]
  rfl

theorem natOfDigits_toDigits (n : Nat) : Text.natOfDigits (Nat.toDigits 10 n) = n := by
  have hfold : Text.natOfDigits (Nat.toDigits 10 n) = Nat.ofDigitChars 10 (Nat.toDigits 10 n) 0 := by
    refine List.foldl_ext _ _ _ fun value c hc => ?_
    rw [digitValue_of_isDigit (Nat.isDigit_of_mem_toDigits (by norm_num) le_rfl hc)]
    rfl
  rw [hfold, Nat.ofDigitChars_toDigits (by norm_num) le_rfl]

theorem isBlank_of_isDigit {c : Char} (h : c.isDigit) : Text.isBlank c = false := by
  obtain ⟨hlow, hhigh⟩ := Char.isDigit_iff_toNat.mp h
  have hzero : '0'.toNat = 48 := rfl
  have hnine : '9'.toNat = 57 := rfl
  simp only [Text.isBlank, Bool.or_eq_false_iff, Bool.and_eq_false_iff, decide_eq_false_iff_not,
    beq_eq_false_iff_ne]
  omega

theorem trimmed_eq_self {text : List Char} (h : ∀ c ∈ text, Text.isBlank c = false) :
    Text.trimmed text = text := by
  have hstrip {text : List Char} (h : ∀ c ∈ text, Text.isBlank c = false) :
      text.dropWhile Text.isBlank = text := by
    cases text with
    | nil => rfl
    | cons c rest =>
      rw [List.dropWhile_cons_of_neg]
      simpa using h c List.mem_cons_self
  unfold Text.trimmed
  rw [hstrip h, hstrip (by simpa using h), List.reverse_reverse]

/-! ### Digits around a point -/

/-- The digits before the point and those after it. -/
structure Split (places n : Nat) (whole fraction : List Char) : Prop where
  padded : whole ++ fraction = Decimal.padded (places + 1) n
  isDigit : ∀ c ∈ whole ++ fraction, c.isDigit
  whole_ne : whole ≠ []
  places : fraction.length = places

theorem padded_isDigit (width n : Nat) : ∀ c ∈ Decimal.padded width n, c.isDigit := by
  intro c hc
  rcases List.mem_append.mp hc with hc | hc
  · rw [List.eq_of_mem_replicate hc]
    rfl
  · exact Nat.isDigit_of_mem_toDigits (by norm_num) le_rfl hc

theorem le_length_padded (width n : Nat) : width ≤ (Decimal.padded width n).length := by
  simp [Decimal.padded]
  omega

/-- The part of the text after the whole digits. -/
def tailText (places : Nat) (fraction : List Char) : List Char :=
  if places = 0 then [] else '.' :: fraction

theorem pointed_split (places n : Nat) : ∃ whole fraction, Split places n whole fraction ∧
    (pointed places n).toList = whole ++ tailText places fraction := by
  have hlength := le_length_padded (places + 1) n
  refine ⟨(Decimal.padded (places + 1) n).take ((Decimal.padded (places + 1) n).length - places),
    (Decimal.padded (places + 1) n).drop ((Decimal.padded (places + 1) n).length - places),
    ⟨List.take_append_drop _ _, ?_, ?_, ?_⟩, ?_⟩
  · rw [List.take_append_drop]
    exact padded_isDigit _ _
  · intro h
    have := congrArg List.length h
    rw [List.length_take, List.length_nil] at this
    omega
  · rw [List.length_drop]
    omega
  · unfold pointed tailText
    dsimp only
    split_ifs
    · rw [String.toList_ofList, List.append_nil]
    · rw [String.toList_ofList]

theorem natOfDigits_padded (width n : Nat) : Text.natOfDigits (Decimal.padded width n) = n := by
  have hzeros (k : Nat) (digits : List Char) :
      Text.natOfDigits (List.replicate k '0' ++ digits) = Text.natOfDigits digits := by
    induction k with
    | zero => rfl
    | succ k ih => exact ih
  unfold Decimal.padded
  rw [hzeros, natOfDigits_toDigits]

section Split
variable {places n : Nat} {whole fraction : List Char}

theorem Split.text_isDigit (h : Split places n whole fraction) :
    ∀ c ∈ whole ++ fraction, Text.isDigit c := fun c hc => isDigit_of_isDigit (h.isDigit c hc)

theorem Split.takeWhile (h : Split places n whole fraction) :
    (whole ++ tailText places fraction).takeWhile Text.isDigit = whole := by
  have hwhole : ∀ c ∈ whole, Text.isDigit c := fun c hc => h.text_isDigit c (by simp [hc])
  rw [List.takeWhile_append_of_pos hwhole]
  unfold tailText
  split_ifs
  · rw [List.takeWhile_nil, List.append_nil]
  · have hpoint : Text.isDigit '.' = false := by decide
    rw [List.takeWhile_cons_of_neg (by simp [hpoint]), List.append_nil]

theorem Split.readMagnitude (h : Split places n whole fraction) :
    readMagnitude? (whole ++ tailText places fraction) = some (n, -(places : Int)) := by
  have hwhole : whole.isEmpty = false := by simpa using h.whole_ne
  have hdrop : (whole ++ tailText places fraction).dropWhile Text.isDigit =
      tailText places fraction := by
    have hsplit := List.takeWhile_append_dropWhile (p := Text.isDigit)
      (l := whole ++ tailText places fraction)
    rw [h.takeWhile] at hsplit
    exact List.append_cancel_left hsplit
  have hvalue : Text.natOfDigits (whole ++ fraction) = n := by
    rw [h.padded, natOfDigits_padded]
  have hdigits : ∀ c ∈ fraction, Text.isDigit c := fun c hc => h.text_isDigit c (by simp [hc])
  unfold readMagnitude?
  rw [h.takeWhile, hdrop]
  unfold tailText
  split_ifs with hp
  · have hnil : fraction = [] := List.length_eq_zero_iff.mp (h.places.trans hp)
    rw [hnil, List.append_nil] at hvalue
    simp [hwhole, readExponent?, hvalue, hp]
  · simp [hwhole, readExponent?, List.takeWhile_eq_self_iff.mpr hdigits,
      List.dropWhile_eq_nil_iff.mpr hdigits, hvalue, h.places]

end Split

/-- The text of a number is read as the number, or it is out of range. -/
theorem ofText_split_eq {places n : Nat} {whole fraction : List Char}
    (h : Split places n whole fraction) {negative : Bool} {text : String}
    (ht : text.toList = signedText negative (whole ++ tailText places fraction)) :
    Decimal.ofText text = if inTextRange n (-places) then .ok (.finite negative n (-places))
      else .error .invalidOperation := by
  have hchars : ∀ c ∈ text.toList, c.isDigit ∨ c = '.' ∨ c = '-' := by
    intro c hc
    rw [ht] at hc
    rcases List.mem_append.mp hc with hc | hc
    · cases negative with
      | true => exact .inr (.inr (List.mem_singleton.mp hc))
      | false => cases hc
    · rcases List.mem_append.mp hc with hc | hc
      · exact .inl (h.isDigit c (by simp [hc]))
      · unfold tailText at hc
        split_ifs at hc
        · cases hc
        · rcases List.mem_cons.mp hc with rfl | hc
          · exact .inr (.inl rfl)
          · exact .inl (h.isDigit c (by simp [hc]))
  have htrimmed : Text.trimmed text.toList = text.toList := by
    refine trimmed_eq_self fun c hc => ?_
    rcases hchars c hc with hd | rfl | rfl
    · exact isBlank_of_isDigit hd
    · rfl
    · rfl
  have hfilter : text.toList.filter (· != '_') = text.toList := by
    rw [List.filter_eq_self]
    intro c hc
    simp only [bne_iff_ne]
    rintro rfl
    exact absurd (hchars _ hc) (by decide)
  have hsign : splitSign text.toList = (negative, whole ++ tailText places fraction) := by
    rw [ht]
    cases negative with
    | true => rfl
    | false =>
      obtain ⟨c, rest, rfl⟩ := List.exists_cons_of_ne_nil h.whole_ne
      have hd := h.isDigit c (by simp)
      change splitSign (c :: _) = _
      unfold splitSign
      split
      · rename_i heq
        cases heq
        exact absurd hd (by decide)
      · rename_i heq
        cases heq
        exact absurd hd (by decide)
      · rfl
  unfold Decimal.ofText ofText?
  rw [htrimmed, hfilter]
  dsimp only
  rw [hsign]
  dsimp only
  rw [h.readMagnitude]
  dsimp only
  split_ifs <;> rfl

/-- The text of a number is read as the number. -/
theorem ofText_split {places n : Nat} {whole fraction : List Char}
    (h : Split places n whole fraction) {negative : Bool} {text : String}
    (ht : text.toList = signedText negative (whole ++ tailText places fraction))
    (hr : inTextRange n (-places)) :
    Decimal.ofText text = .ok (.finite negative n (-places)) := by
  rw [ofText_split_eq h ht, if_pos hr]

theorem Decimal.ofText_repr_eq (n : Nat) : ofText n.repr =
    if inTextRange n 0 then .ok (ofNat n) else .error .invalidOperation := by
  have hsplit : Split 0 n (Nat.toDigits 10 n) [] := by
    obtain ⟨c, tail, hc, _⟩ := digits_cons n
    refine ⟨?_, ?_, by simp [hc], rfl⟩
    · have hlength : 1 - (Nat.toDigits 10 n).length = 0 := by simp [hc]
      rw [Decimal.padded, hlength]
      simp
    · rw [List.append_nil]
      exact fun c hc => Nat.isDigit_of_mem_toDigits (by norm_num) le_rfl hc
  have htext : n.repr.toList = signedText false (Nat.toDigits 10 n ++ tailText 0 []) := by
    rw [Nat.toList_repr]
    simp [signedText, tailText]
  exact ofText_split_eq hsplit htext

/-- A whole number is read as it is written. -/
theorem Decimal.ofText_repr {n : Nat} (h : adjusted n 0 ≤ maxExponent) :
    ofText n.repr = .ok (ofNat n) := by
  have hrange : inTextRange n 0 := by
    unfold inTextRange maxTextExponent minTextExponent
    unfold maxExponent at h
    simp only [Bool.and_eq_true, decide_eq_true_eq]
    omega
  rw [ofText_repr_eq, if_pos hrange]

end DecimalScript
