import DecimalScript.Eval.Term
import DecimalScript.Proofs.Phrase
import DecimalScript.Proofs.Pointed
import DecimalScript.Proofs.Power
import DecimalScript.Term.OfTree
import Mathlib

/-! Whole numbers as they are written in a program: what the grammar makes of them and of powers
of them, and their values. -/

namespace DecimalScript

open Grammar Grammar.Parser

/-- A whole number as it is written, behind a minus sign if it is negated. -/
def literal (negative : Bool) (n : Nat) : String := (if negative then "-" else "") ++ Nat.repr n

def numberTree (n : Nat) (pos : Pos) : Tree := .node .number (some pos) [.token .number n.repr pos]

def literalTree (negative : Bool) (n : Nat) (pos : Pos) : Tree :=
  if negative then .node .unary (some pos) [.token .minus "-" pos, numberTree n (pos.after '-')]
  else numberTree n pos

def literalTerm (negative : Bool) (n : Nat) : Term :=
  if negative then .signed true (.number n.repr) else .number n.repr

theorem ofTree_literalTree (negative : Bool) (n : Nat) (pos : Pos) :
    Term.ofTree (literalTree negative n pos) = literalTerm negative n := by
  cases negative <;> rfl

theorem literal_toList (negative : Bool) (n : Nat) :
    (literal negative n).toList = signedText negative (Nat.toDigits 10 n) := by
  unfold literal signedText
  rw [String.toList_append, Nat.toList_repr]
  cases negative <;> rfl

def numeralTree (digits : List Char) (pos : Pos) : Tree :=
  .node .number (some pos) [.token .number (String.ofList digits) pos]

def signedTree (negative : Bool) (digits : List Char) (pos : Pos) : Tree :=
  if negative then .node .unary (some pos) [.token .minus "-" pos, numeralTree digits (pos.after '-')]
  else numeralTree digits pos

theorem signedTree_digits (negative : Bool) (n : Nat) (pos : Pos) :
    signedTree negative (Nat.toDigits 10 n) pos = literalTree negative n pos := by
  cases negative <;> rfl

namespace Grammar

variable {rs : List Row} {rest : List Char} {pos : Pos}

/-! ### Numbers -/

/-- The text ends here, or a blank follows. -/
def Ends (rest : List Char) : Prop := rest = [] ∨ rest.head? = some ' '

theorem numberLexeme_digits (n : Nat) (h : Ends rest) :
    numberLexeme (Nat.toDigits 10 n ++ rest) = some (Nat.toDigits 10 n).length := by
  have hdigits : ∀ c ∈ Nat.toDigits 10 n, Text.isDigit c := fun c hc =>
    isDigit_of_isDigit (Nat.isDigit_of_mem_toDigits (by norm_num) le_rfl hc)
  have hstop : rest.takeWhile Text.isDigit = [] ∧ fractionLength rest = 0 := by
    cases rest with
    | nil => exact ⟨rfl, rfl⟩
    | cons c tail =>
      rcases h with h | h
      · cases h
      · cases h
        exact ⟨rfl, rfl⟩
  have hlength : (Nat.toDigits 10 n).length ≠ 0 :=
    (Nat.length_toDigits_pos (b := 10) (n := n)).ne'
  unfold numberLexeme
  dsimp only
  rw [List.takeWhile_append_of_pos hdigits, hstop.1, List.append_nil, List.drop_left, hstop.2,
    Nat.add_zero, if_neg hlength]

def blanks (k : Nat) : List Char := List.replicate k ' '

theorem gapLength_blanks (k : Nat) {text : List Char} (h : gapLength false text = 0) :
    gapLength false (blanks k ++ text) = k := by
  induction k with
  | zero => exact h
  | succ k ih =>
    change gapLength false (blanks k ++ text) + 1 = k + 1
    rw [ih]

theorem afterGap_blanks (k : Nat) {text : List Char} (h : gapLength false text = 0) :
    afterGap (blanks k ++ text) = text := by
  have hlength : (blanks k).length = k := List.length_replicate
  unfold afterGap
  rw [gapLength_blanks k h]
  nth_rewrite 1 [← hlength]
  exact List.drop_left

theorem gapLength_operand {c : Char} (h : c.isDigit ∨ c = '-') (rest : List Char) :
    gapLength false (c :: rest) = 0 := by
  have hne (d : Char) (hd : d.isDigit = false) (hm : d ≠ '-') : c ≠ d := by
    rintro rfl
    rcases h with h | h
    · rw [h] at hd
      cases hd
    · exact hm h
  have hgap : isGap c = false := by
    simp [isGap, hne ' ' rfl (by decide), hne '\t' rfl (by decide), hne '\x0c' rfl (by decide),
      hne '\r' rfl (by decide)]
  simp [gapLength, hgap, hne '#' rfl (by decide)]

/-- The text starts with a digit, and all of it is the number that is read where the rest follows. -/
structure Numeral (digits rest : List Char) : Prop where
  starts : ∃ c tail, digits = c :: tail ∧ c.isDigit
  reads : numberLexeme (digits ++ rest) = some digits.length

theorem numeral_digits (n : Nat) (h : Ends rest) : Numeral (Nat.toDigits 10 n) rest where
  starts := digits_cons n
  reads := numberLexeme_digits n h

section Numeral
variable {digits : List Char}

theorem Numeral.signed_cons (h : Numeral digits rest) (negative : Bool) (more : List Char) :
    ∃ c tail, signedText negative digits ++ more = c :: tail ∧ (c.isDigit ∨ c = '-') := by
  cases negative with
  | false =>
    obtain ⟨c, tail, rfl, hd⟩ := h.starts
    exact ⟨c, tail ++ more, rfl, .inl hd⟩
  | true => exact ⟨'-', _, rfl, .inr rfl⟩

theorem Numeral.gapLength (h : Numeral digits rest) (negative : Bool) (more : List Char) :
    gapLength false (signedText negative digits ++ more) = 0 := by
  obtain ⟨c, tail, htext, hc⟩ := h.signed_cons negative more
  rw [htext, gapLength_operand hc]

theorem Numeral.bare (h : Numeral digits rest) (k : Nat) (negative : Bool) (more : List Char) :
    Bare (blanks k ++ (signedText negative digits ++ more)) := by
  unfold Bare
  rw [afterGap_blanks k (h.gapLength negative more)]
  exact h.signed_cons negative more

end Numeral

theorem literal_cons (negative : Bool) (n : Nat) (rest : List Char) :
    ∃ c tail, (literal negative n).toList ++ rest = c :: tail ∧ (c.isDigit ∨ c = '-') := by
  rw [literal_toList]
  exact (numeral_digits n (.inl rfl)).signed_cons negative rest

theorem bare_literal (k : Nat) (negative : Bool) (n : Nat) (rest : List Char) :
    Bare (blanks k ++ ((literal negative n).toList ++ rest)) := by
  rw [literal_toList]
  exact (numeral_digits n (.inl rfl)).bare k negative rest

/-- A word behind blanks. -/
theorem Stands.lexed_blanks {k : Nat} {text : List Char} (h : Stands rs (blanks k ++ text) pos)
    (hg : gapLength false text = 0) (lexeme : Lexeme) {n : Nat} (hl : lexeme text = some n)
    (kids : String → Pos → List Tree) :
    (lexed lexeme kids rs).readings =
      [⟨kids (String.ofList (text.take n)) (advance pos (blanks k)), some (advance pos (blanks k)),
        k + n⟩] := by
  have hlength : (blanks k).length = k := List.length_replicate
  have htake : (blanks k ++ text).take k = blanks k := by
    nth_rewrite 1 [← hlength]
    exact List.take_left
  rw [h.lexed_eq, afterGap_blanks k hg, gapLength_blanks k hg, hl, htake]
  rfl

theorem Stands.lexed_blanks_fails {k : Nat} {text : List Char}
    (h : Stands rs (blanks k ++ text) pos) (hg : gapLength false text = 0) {lexeme : Lexeme}
    (hl : lexeme text = none) (kids : String → Pos → List Tree) : Fails (lexed lexeme kids) rs :=
  h.lexed_fails (by rw [afterGap_blanks k hg, hl]) kids

/-! ### Operands -/

theorem exists_atom_rows (text : List Char) (pos : Pos) :
    ∃ rs, Stands rs text pos ∧ rule Row.atom (rows text pos) = atom rs := by
  cases text with
  | nil => exact ⟨_, ⟨_, rfl, rfl, rfl⟩, rfl⟩
  | cons c rest => exact ⟨_, ⟨_, rfl, rfl, rfl⟩, rfl⟩

theorem Numeral.atom {digits : List Char} (h : Numeral digits rest) (k : Nat) (pos : Pos) :
    (rule Row.atom (rows (blanks k ++ (digits ++ rest)) pos)).readings =
      [⟨[numeralTree digits (advance pos (blanks k))], some (advance pos (blanks k)),
        k + digits.length⟩] := by
  obtain ⟨rs, hs, hfield⟩ := exists_atom_rows (blanks k ++ (digits ++ rest)) pos
  have hbare := h.bare k false rest
  have hnumber := hs.lexed_blanks (h.gapLength false rest) numberLexeme h.reads
    fun text pos => [.token .number text pos]
  have hcall : Fails funcCall rs := by
    refine (fails_choice ?_).node _
    exact ⟨(hbare.name_fails hs).followedBy _, (hbare.name_fails hs).followedBy _⟩
  have hvar : Fails (node .var name) rs := (hbare.name_fails hs).node _
  have hparen : Fails (Parser.sequence [word "(", rule Row.conditional, word ")"]) rs :=
    (hbare.word_fails hs (c := '(') rfl rfl (by decide) _).followedBy _
  have hread : (node .number (token .number numberLexeme) rs).readings =
      [⟨[numeralTree digits (advance pos (blanks k))], some (advance pos (blanks k)),
        k + digits.length⟩] := by
    rw [readings_node, token, hnumber, List.take_left]
    rfl
  rw [hfield]
  exact readings_choice_first_single hread [_, _, _] ⟨hcall, hvar, hparen⟩

/-- An operand that is not signed starts with a digit, a point, a letter or a parenthesis. -/
theorem atom_fails {text : List Char} {c : Char} (htext : afterGap text = c :: rest)
    (hd : Text.isDigit c = false) (hn : isNameStart c = false) (hp : c ≠ '.') (ho : c ≠ '(') :
    Fails (rule Row.atom) (rows text pos) := by
  obtain ⟨rs, hs, hfield⟩ := exists_atom_rows text pos
  have hnumber : Fails (token .number numberLexeme) rs := by
    refine hs.lexed_fails ?_ _
    rw [htext]
    simp [numberLexeme, fractionLength, hd, hp]
  have hname : Fails name rs := by
    refine hs.lexed_fails ?_ _
    rw [htext]
    simp [nameLexeme, hn]
  have hopen : Fails (word "(") rs := by
    refine hs.lexed_fails (spelled_eq_none (c := '(') rfl ?_) _
    rw [htext]
    simpa using ho
  have hcall : Fails funcCall rs := by
    refine (fails_choice ?_).node _
    exact ⟨hname.followedBy _, hname.followedBy _⟩
  unfold Fails
  rw [hfield]
  apply fails_choice
  exact ⟨hnumber.node _, hcall, hname.node _, hopen.followedBy _⟩

theorem Numeral.unary {digits : List Char} (h : Numeral digits rest) (k : Nat) (pos : Pos) :
    (rule Row.unary (rows (blanks k ++ (digits ++ rest)) pos)).readings =
      [⟨[numeralTree digits (advance pos (blanks k))], some (advance pos (blanks k)),
        k + digits.length⟩] := by
  obtain ⟨rs, hs, hfield, hinner⟩ := Level.unary.exists_rows (blanks k ++ (digits ++ rest)) pos
  have hhead (d : Char) (hd : d.isDigit = false) :
      (afterGap (blanks k ++ (digits ++ rest))).head? ≠ some d := by
    have hgap : Grammar.gapLength false (digits ++ rest) = 0 := h.gapLength false rest
    rw [afterGap_blanks k hgap]
    obtain ⟨c, tail, rfl, hdigit⟩ := h.starts
    rintro ⟨⟩
    rw [hdigit] at hd
    cases hd
  have hsign : Fails plusOrMinus rs := by
    apply fails_choice
    exact ⟨hs.lexed_fails (spelled_eq_none rfl (hhead '+' rfl)) _,
      hs.lexed_fails (spelled_eq_none rfl (hhead '-' rfl)) _⟩
  have hatom := h.atom k pos
  rw [← hinner] at hatom
  rw [hfield]
  exact readings_choice_last_single hatom [_] ((hsign.followedBy _).node _)

/-- Where a number stands, behind a sign or not, it is the only operand. -/
theorem Numeral.unary_signed {digits : List Char} (h : Numeral digits rest) (k : Nat)
    (negative : Bool) (pos : Pos) :
    (rule Row.unary (rows (blanks k ++ (signedText negative digits ++ rest)) pos)).readings =
      [⟨[signedTree negative digits (advance pos (blanks k))], some (advance pos (blanks k)),
        k + (signedText negative digits).length⟩] := by
  cases negative with
  | false => exact h.unary k pos
  | true =>
    have htext : signedText true digits ++ rest = '-' :: (digits ++ rest) := rfl
    have hlength : (signedText true digits).length = digits.length + 1 := rfl
    rw [htext, hlength]
    have hgap : Grammar.gapLength false ('-' :: (digits ++ rest)) = 0 := rfl
    obtain ⟨rs, hs, hfield, hinner⟩ := Level.unary.exists_rows (blanks k ++ '-' :: (digits ++ rest)) pos
    have hplus : Fails (token .plus (spelled "+")) rs := hs.lexed_blanks_fails hgap rfl _
    have hminus := hs.lexed_blanks hgap (spelled "-") rfl
      fun text pos => [.token .minus text pos]
    have hatom : Fails (rule Row.atom) rs := by
      unfold Fails
      rw [hinner]
      exact atom_fails (afterGap_blanks k hgap) rfl rfl (by decide) (by decide)
    have hsign : (plusOrMinus rs).readings =
        [⟨[.token .minus "-" (advance pos (blanks k))], some (advance pos (blanks k)), k + 1⟩] :=
      readings_choice_last_single hminus [_] hplus
    have hdrop : rs.drop (k + 1) = rows (digits ++ rest) ((advance pos (blanks k)).after '-') := by
      have hlength : (blanks k ++ ['-']).length = k + 1 := by simp [blanks]
      have happend : blanks k ++ '-' :: (digits ++ rest) = (blanks k ++ ['-']) ++ (digits ++ rest) := by
        simp
      rw [happend] at hs
      have hdrop := hs.drop_append (by simp)
      rw [hlength] at hdrop
      rw [hdrop]
      simp [advance]
    have hnumber : (rule Row.unary (rows (digits ++ rest)
        ((advance pos (blanks k)).after '-'))).readings =
        [⟨[numeralTree digits ((advance pos (blanks k)).after '-')],
          some ((advance pos (blanks k)).after '-'), 0 + digits.length⟩] := h.unary 0 _
    rw [← hdrop] at hnumber
    have hread := readings_node .unary (plusOrMinus.followedBy (rule Row.unary)) rs
    rw [readings_followedBy_single hsign hnumber, List.map_singleton] at hread
    rw [hfield, Grammar.unary, readings_choice_first_single hread [_] hatom]
    simp [Reading.enclosed, Reading.append, signedTree]
    omega

theorem unary_literal (k : Nat) (negative : Bool) (n : Nat) (h : Ends rest) (pos : Pos) :
    (rule Row.unary (rows (blanks k ++ ((literal negative n).toList ++ rest)) pos)).readings =
      [⟨[literalTree negative n (advance pos (blanks k))], some (advance pos (blanks k)),
        k + (literal negative n).toList.length⟩] := by
  rw [literal_toList, ← signedTree_digits]
  exact (numeral_digits n h).unary_signed k negative pos

theorem Numeral.drop {digits : List Char} (h : Numeral digits rest) {k : Nat} {negative : Bool}
    (hs : Stands rs (blanks k ++ (signedText negative digits ++ rest)) pos) :
    rs.drop (k + (signedText negative digits).length) =
      rows rest (advance pos (blanks k ++ signedText negative digits)) := by
  have hlength : (blanks k ++ signedText negative digits).length =
      k + (signedText negative digits).length := by simp [blanks]
  have hne : blanks k ++ signedText negative digits ≠ [] := by
    obtain ⟨c, tail, hc, _⟩ := h.signed_cons negative []
    rw [List.append_nil] at hc
    simp [hc]
  rw [← List.append_assoc] at hs
  rw [← hlength, hs.drop_append hne]

theorem Stands.drop_literal {k : Nat} {negative : Bool} {n : Nat}
    (h : Stands rs (blanks k ++ ((literal negative n).toList ++ rest)) pos) (hr : Ends rest) :
    rs.drop (k + (literal negative n).toList.length) =
      rows rest (advance pos (blanks k ++ (literal negative n).toList)) := by
  rw [literal_toList] at h ⊢
  exact (numeral_digits n hr).drop h

theorem Numeral.power_signed {digits : List Char} (h : Numeral digits rest) (k : Nat)
    (negative : Bool) (hp : spelled "**" (afterGap rest) = none) (pos : Pos) :
    (rule Row.power (rows (blanks k ++ (signedText negative digits ++ rest)) pos)).readings =
      [⟨[signedTree negative digits (advance pos (blanks k))], some (advance pos (blanks k)),
        k + (signedText negative digits).length⟩] := by
  obtain ⟨rs, hs, hfield, hinner⟩ := Level.power.exists_rows
    (blanks k ++ (signedText negative digits ++ rest)) pos
  have hunary := h.unary_signed k negative pos
  rw [← hinner] at hunary
  have hpower : Fails (Parser.sequence [rule Row.unary, token .pow (spelled "**"), rule Row.power])
      rs := by
    refine fails_followedBy_of_right fun r hr => Fails.followedBy ?_ _
    rw [hunary, List.mem_singleton] at hr
    rw [hr, h.drop hs]
    exact (stands_rows _ _).lexed_fails hp _
  rw [hfield]
  exact readings_choice_last_single hunary [_] (hpower.node _)

theorem power_literal (k : Nat) (negative : Bool) (n : Nat) (h : Ends rest)
    (hp : spelled "**" (afterGap rest) = none) (pos : Pos) :
    (rule Row.power (rows (blanks k ++ ((literal negative n).toList ++ rest)) pos)).readings =
      [⟨[literalTree negative n (advance pos (blanks k))], some (advance pos (blanks k)),
        k + (literal negative n).toList.length⟩] := by
  rw [literal_toList, ← signedTree_digits]
  exact (numeral_digits n h).power_signed k negative hp pos

/-! ### Powers of literals -/

/-- No operand starts with a star. -/
theorem power_star_fails (rest : List Char) (pos : Pos) :
    Fails (rule Row.power) (rows ('*' :: rest) pos) := by
  have hatom : Fails (rule Row.atom) (rows ('*' :: rest) pos) :=
    atom_fails rfl rfl rfl (by decide) (by decide)
  have hunary : Fails (rule Row.unary) (rows ('*' :: rest) pos) := by
    obtain ⟨rs, hs, hfield, hinner⟩ := Level.unary.exists_rows ('*' :: rest) pos
    have hsign : Fails plusOrMinus rs := by
      apply fails_choice
      exact ⟨hs.lexed_fails rfl _, hs.lexed_fails rfl _⟩
    have hatom : Fails (rule Row.atom) rs := by
      unfold Fails
      rw [hinner]
      exact hatom
    unfold Fails
    rw [hfield]
    apply fails_choice
    exact ⟨(hsign.followedBy _).node _, hatom⟩
  obtain ⟨rs, hs, hfield, hinner⟩ := Level.power.exists_rows ('*' :: rest) pos
  have hunary : Fails (rule Row.unary) rs := by
    unfold Fails
    rw [hinner]
    exact hunary
  unfold Fails
  rw [hfield]
  apply fails_choice
  exact ⟨(hunary.followedBy _).node _, hunary⟩

def powerTree (negative : Bool) (a b : Nat) (pos operator right : Pos) : Tree :=
  .node .power (some pos)
    [literalTree negative a pos, .token .pow "**" operator, literalTree false b right]

/-- A power of literals is read as such, and its base alone. -/
theorem power_literals (negative : Bool) (a b : Nat) (h : Ends rest)
    (hp : spelled "**" (afterGap rest) = none) (pos : Pos) :
    ∃ operator right, (rule Row.power (rows ((literal negative a).toList ++
        (" ** ".toList ++ ((literal false b).toList ++ rest))) pos)).readings =
      [⟨[powerTree negative a b pos operator right], some pos,
          (literal negative a).toList.length + (4 + (literal false b).toList.length)⟩,
        ⟨[literalTree negative a pos], some pos, (literal negative a).toList.length⟩] := by
  obtain ⟨rs, hs, hfield, hinner⟩ := Level.power.exists_rows
    ((literal negative a).toList ++ (" ** ".toList ++ ((literal false b).toList ++ rest))) pos
  have hbase : (rule Row.unary rs).readings =
      [⟨[literalTree negative a pos], some pos, 0 + (literal negative a).toList.length⟩] := by
    rw [hinner]
    exact unary_literal 0 negative a (.inr rfl) pos
  have hdrop := Stands.drop_literal (k := 0) hs (.inr rfl)
  generalize advance pos (blanks 0 ++ (literal negative a).toList) = place at hdrop
  -- the star is behind a blank, and so is the exponent
  have hstar : (token .pow (spelled "**")
      (rs.drop (0 + (literal negative a).toList.length))).readings =
      [⟨[.token .pow "**" (place.after ' ')], some (place.after ' '), 3⟩] := by
    have hplace : Stands (rows (" ** ".toList ++ ((literal false b).toList ++ rest)) place)
        (blanks 1 ++ '*' :: '*' :: ' ' :: ((literal false b).toList ++ rest)) place := stands_rows _ _
    rw [hdrop]
    exact hplace.lexed_blanks rfl (spelled "**") rfl _
  have hexponent : (rule Row.power
      ((rs.drop (0 + (literal negative a).toList.length)).drop 3)).readings =
      [⟨[literalTree false b ((((place.after ' ').after '*').after '*').after ' ')],
        some ((((place.after ' ').after '*').after '*').after ' '),
        1 + (literal false b).toList.length⟩] := by
    rw [hdrop]
    exact power_literal 1 false b h hp _
  have hpower := readings_followedBy_single hbase (readings_followedBy_single hstar hexponent)
  refine ⟨place.after ' ', (((place.after ' ').after '*').after '*').after ' ', ?_⟩
  rw [hfield, power, readings_choice]
  simp only [List.flatMap_cons, List.flatMap_nil, List.append_nil, Parser.sequence]
  rw [readings_node, hpower, hbase]
  simp [distinct, Reading.enclosed, Reading.append, powerTree]
  omega

def powerModTree (negative : Bool) (a b : Nat) (negativeModulus : Bool) (m : Nat)
    (pos power exponent operator modulus : Pos) : Tree :=
  .node .product (some pos) [powerTree negative a b pos power exponent,
    .token .mod "mod" operator, literalTree negativeModulus m modulus]

def powerMod (negative : Bool) (a b : Nat) (negativeModulus : Bool) (m : Nat) : String :=
  literal negative a ++ " ** " ++ literal false b ++ " mod " ++ literal negativeModulus m

theorem powerMod_toList (negative : Bool) (a b : Nat) (negativeModulus : Bool) (m : Nat) :
    (powerMod negative a b negativeModulus m).toList = (literal negative a).toList ++
      (" ** ".toList ++ ((literal false b).toList ++
        (" mod ".toList ++ (literal negativeModulus m).toList))) := by
  unfold powerMod
  simp only [String.toList_append, List.append_assoc]

theorem powerMod_length (negative : Bool) (a b : Nat) (negativeModulus : Bool) (m : Nat) :
    (powerMod negative a b negativeModulus m).toList.length =
      (literal negative a).toList.length + (4 + (literal false b).toList.length) +
        (5 + (literal negativeModulus m).toList.length) := by
  rw [powerMod_toList]
  simp
  omega

def productOperator : Parser := choice
  [token .star (spelled "*"), token .slash (spelled "/"), token .mod (spelled "mod")]

theorem productOperator_mod (rest : List Char) (pos : Pos) :
    (productOperator (rows (" mod ".toList ++ rest) pos)).readings =
      [⟨[.token .mod "mod" (pos.after ' ')], some (pos.after ' '), 4⟩] := by
  have hs : Stands (rows (" mod ".toList ++ rest) pos) (blanks 1 ++ 'm' :: 'o' :: 'd' :: ' ' :: rest)
      pos := stands_rows _ _
  have hstar : Fails (token .star (spelled "*")) (rows (" mod ".toList ++ rest) pos) :=
    hs.lexed_blanks_fails rfl rfl _
  have hslash : Fails (token .slash (spelled "/")) (rows (" mod ".toList ++ rest) pos) :=
    hs.lexed_blanks_fails rfl rfl _
  have hmod := hs.lexed_blanks rfl (spelled "mod") rfl
    fun text pos => [.token .mod text pos]
  exact readings_choice_last_single hmod [_, _] ⟨hstar, hslash⟩

/-- The first star of a power is no factor's: no operand follows it. -/
theorem productOperator_stuck (rest : List Char) (pos : Pos) :
    Fails (productOperator.followedBy (rule Row.power)) (rows (" ** ".toList ++ rest) pos) := by
  have hs : Stands (rows (" ** ".toList ++ rest) pos) (blanks 1 ++ '*' :: '*' :: ' ' :: rest) pos :=
    stands_rows _ _
  have hstar := hs.lexed_blanks rfl (spelled "*") rfl
    fun text pos => [.token .star text pos]
  have hslash : Fails (token .slash (spelled "/")) (rows (" ** ".toList ++ rest) pos) :=
    hs.lexed_blanks_fails rfl rfl _
  have hmod : Fails (token .mod (spelled "mod")) (rows (" ** ".toList ++ rest) pos) :=
    hs.lexed_blanks_fails rfl rfl _
  refine fails_followedBy_of_right fun r hr => ?_
  rw [productOperator, readings_choice] at hr
  simp only [List.flatMap_cons, List.flatMap_nil, List.append_nil] at hr
  rw [hslash, hmod, token, hstar] at hr
  rw [List.mem_singleton.mp hr]
  exact power_star_fails (' ' :: rest) _

theorem productOperator_end (pos : Pos) : Fails productOperator (rows [] pos) := by
  apply fails_choice
  exact ⟨(stands_rows [] pos).lexed_fails rfl _, (stands_rows [] pos).lexed_fails rfl _,
    (stands_rows [] pos).lexed_fails rfl _⟩

/-- The modulus is the last factor. -/
theorem modulus_readings (negative : Bool) (m : Nat) (pos : Pos) :
    ∃ place, ((productOperator.followedBy (rule Row.power)).followedBy
        (many (productOperator.followedBy (rule Row.power)))
          (rows (" mod ".toList ++ (literal negative m).toList) pos)).readings =
      [⟨[.token .mod "mod" (pos.after ' '), literalTree negative m place], some (pos.after ' '),
        5 + (literal negative m).toList.length⟩] := by
  have hoperator := productOperator_mod (literal negative m).toList pos
  obtain ⟨place, hmodulus⟩ : ∃ place, (rule Row.power
      ((rows (" mod ".toList ++ (literal negative m).toList) pos).drop 4)).readings =
      [⟨[literalTree negative m place], some place, 1 + (literal negative m).toList.length⟩] := by
    have h := power_literal 1 negative m (.inl rfl) rfl
      ((((pos.after ' ').after 'm').after 'o').after 'd')
    rw [List.append_nil] at h
    exact ⟨_, h⟩
  have hfactor := readings_followedBy_single hoperator hmodulus
  have hend : Fails (productOperator.followedBy (rule Row.power))
      ((rows (" mod ".toList ++ (literal negative m).toList) pos).drop
        (4 + (1 + (literal negative m).toList.length))) := by
    have hdrop := rows_drop (" mod ".toList ++ (literal negative m).toList) [] pos
    have hlength : (" mod ".toList ++ (literal negative m).toList).length =
        4 + (1 + (literal negative m).toList.length) := by
      rw [List.length_append, ← Nat.add_assoc]
      rfl
    rw [List.append_nil, hlength] at hdrop
    rw [hdrop]
    exact (productOperator_end _).followedBy _
  refine ⟨place, ?_⟩
  rw [readings_followedBy_single hfactor (readings_many hend), Reading.append_empty]
  simp [Reading.append]
  omega

theorem product_powerMod (negative : Bool) (a b : Nat) (negativeModulus : Bool) (m : Nat)
    (pos : Pos) :
    ∃ power exponent operator modulus,
      (rule Row.product (rows (powerMod negative a b negativeModulus m).toList pos)).readings =
        [⟨[powerModTree negative a b negativeModulus m pos power exponent operator modulus],
            some pos, (powerMod negative a b negativeModulus m).toList.length⟩,
          ⟨[powerTree negative a b pos power exponent], some pos,
            (literal negative a).toList.length + (4 + (literal false b).toList.length)⟩,
          ⟨[literalTree negative a pos], some pos, (literal negative a).toList.length⟩] := by
  have hends : Ends (" mod ".toList ++ (literal negativeModulus m).toList) := .inr rfl
  obtain ⟨power, exponent, hoperands⟩ := power_literals negative a b hends rfl pos
  obtain ⟨rs, hs, hfield, hinner⟩ := Level.product.exists_rows
    ((literal negative a).toList ++ (" ** ".toList ++ ((literal false b).toList ++
      (" mod ".toList ++ (literal negativeModulus m).toList)))) pos
  rw [← hinner] at hoperands
  have hbase : Fails (productOperator.followedBy (rule Row.power))
      (rs.drop (literal negative a).toList.length) := by
    have hdrop := Stands.drop_literal (k := 0) hs (.inr rfl)
    rw [zero_add] at hdrop
    rw [hdrop]
    exact productOperator_stuck _ _
  obtain ⟨place, hdrop⟩ : ∃ place,
      rs.drop ((literal negative a).toList.length + (4 + (literal false b).toList.length)) =
        rows (" mod ".toList ++ (literal negativeModulus m).toList) place := by
    have hlength :
        ((literal negative a).toList ++ (" ** ".toList ++ (literal false b).toList)).length =
        (literal negative a).toList.length + (4 + (literal false b).toList.length) := by
      rw [List.length_append, List.length_append]
      rfl
    rw [← List.append_assoc _ (literal false b).toList, ← List.append_assoc] at hs
    exact ⟨_, hlength ▸ hs.drop_append (by simp)⟩
  obtain ⟨modulus, hmodulus⟩ := modulus_readings negativeModulus m place
  rw [← hdrop] at hmodulus
  refine ⟨power, exponent, place.after ' ', modulus, ?_⟩
  rw [powerMod_length, powerMod_toList, hfield]
  change (chain .product (rule Row.power) productOperator rs).readings = _
  rw [chain, readings_choice]
  simp only [List.flatMap_cons, List.flatMap_nil, List.append_nil, Parser.sequence]
  rw [readings_node, readings_followedBy, hoperands]
  simp only [List.flatMap_cons, List.flatMap_nil, List.append_nil]
  rw [hmodulus, hbase.followedBy]
  simp [distinct, Reading.enclosed, Reading.append, powerModTree]
  omega

/-- What the text of a remainder of a power is read as. -/
theorem parse_powerMod (negative : Bool) (a b : Nat) (negativeModulus : Bool) (m : Nat) :
    ∃ pos power exponent operator modulus,
      parse (powerMod negative a b negativeModulus m) = .ok (.node .conditionalExpr (some pos)
        [powerModTree negative a b negativeModulus m pos power exponent operator modulus]) := by
  obtain ⟨power, exponent, operator, modulus, hproduct⟩ :=
    product_powerMod negative a b negativeModulus m ⟨1, 1⟩
  have htext := powerMod_toList negative a b negativeModulus m
  have hbare : Bare (powerMod negative a b negativeModulus m).toList := by
    rw [htext]
    exact bare_literal 0 negative a _
  refine ⟨_, power, exponent, operator, modulus, parse_product hbare ?_ hproduct rfl⟩
  have hlength := powerMod_length negative a b negativeModulus m
  have hpos : (literal negative a).toList.length ≠ 0 := by
    obtain ⟨c, tail, hc, _⟩ := literal_cons negative a []
    rw [List.append_nil] at hc
    simp [hc]
  have hpower : (powerMod negative a b negativeModulus m).toList.drop
      ((literal negative a).toList.length + (4 + (literal false b).toList.length)) =
        " mod ".toList ++ (literal negativeModulus m).toList := by
    rw [htext, ← List.drop_drop, List.drop_left, ← List.drop_drop]
    exact List.drop_left
  have hbase : (powerMod negative a b negativeModulus m).toList.drop
      (literal negative a).toList.length = " ** ".toList ++ ((literal false b).toList ++
        (" mod ".toList ++ (literal negativeModulus m).toList)) := by
    rw [htext, List.drop_left]
  refine ⟨?_, ?_, ?_, ?_⟩
  · simp only [List.pairwise_cons, List.forall_mem_cons, List.not_mem_nil, false_implies,
      implies_true, and_true, List.Pairwise.nil]
    omega
  · simp only [List.forall_mem_cons, List.not_mem_nil, false_implies, implies_true, and_true]
    omega
  · simp only [List.forall_mem_cons, List.not_mem_nil, false_implies, implies_true, and_true]
    omega
  · simp only [List.forall_mem_cons, List.not_mem_nil, false_implies, implies_true, and_true]
    rw [List.drop_length, hpower, hbase]
    exact ⟨quiet_end, quiet_of_head rfl (by decide), quiet_of_head rfl (by decide)⟩

/-- A number alone is the only factor of a product. -/
theorem Numeral.product_signed {digits : List Char} (h : Numeral digits []) (k : Nat)
    (negative : Bool) (pos : Pos) :
    (rule Row.product (rows (blanks k ++ signedText negative digits) pos)).readings =
      [⟨[signedTree negative digits (advance pos (blanks k))], some (advance pos (blanks k)),
        k + (signedText negative digits).length⟩] := by
  obtain ⟨rs, hs, hfield, hinner⟩ :=
    Level.product.exists_rows (blanks k ++ signedText negative digits) pos
  have hpower := h.power_signed k negative rfl pos
  rw [List.append_nil, ← hinner] at hpower
  have hplace : Stands rs (blanks k ++ (signedText negative digits ++ [])) pos := by
    rwa [List.append_nil]
  have hdrop := h.drop hplace
  rw [hfield, ← hpower]
  refine readings_chain .product (hpower ▸ List.pairwise_singleton _ _) fun r hr => ?_
  rw [hpower, List.mem_singleton] at hr
  rw [hr, hdrop]
  exact productOperator_end _

theorem Numeral.settled {digits : List Char} (h : Numeral digits []) (k : Nat) (negative : Bool)
    (kids : List Tree) (start : Option Pos) :
    Settled [⟨kids, start, k + (signedText negative digits).length⟩]
      (blanks k ++ signedText negative digits) := by
  obtain ⟨c, rest, hc, -⟩ := h.signed_cons negative []
  rw [List.append_nil] at hc
  have hlength : (blanks k ++ signedText negative digits).length =
      k + (signedText negative digits).length := by simp [blanks]
  refine ⟨List.pairwise_singleton _ _, ?_, ?_, ?_⟩
  · simp [hc]
  · simp [hlength]
  · simp only [List.mem_singleton, forall_eq]
    rw [← hlength, List.drop_length]
    exact quiet_end

/-- A number alone is a value. -/
theorem Numeral.expr {digits : List Char} (h : Numeral digits []) (k : Nat) (negative : Bool)
    (pos : Pos) :
    (rule Row.expr (rows (blanks k ++ signedText negative digits) pos)).readings =
      [⟨[.node .conditionalExpr (some (advance pos (blanks k)))
          [signedTree negative digits (advance pos (blanks k))]], some (advance pos (blanks k)),
        k + (signedText negative digits).length⟩] := by
  have hbare := h.bare k negative []
  rw [List.append_nil] at hbare
  have hsettled := h.settled k negative
  exact (hsettled _ _).expr hbare ((hsettled _ _).conditional
    ((hsettled _ _).disjunction hbare (h.product_signed k negative pos)))

/-- A number alone is a program. -/
theorem Numeral.parse {digits : List Char} (h : Numeral digits []) (negative : Bool) {text : String}
    (ht : text.toList = signedText negative digits) :
    parse text = .ok (.node .conditionalExpr (some ⟨1, 1⟩) [signedTree negative digits ⟨1, 1⟩]) := by
  have hproduct := h.product_signed 0 negative ⟨1, 1⟩
  have hbare := h.bare 0 negative []
  rw [List.append_nil] at hbare
  have hempty : blanks 0 ++ signedText negative digits = text.toList := ht.symm
  rw [hempty] at hproduct hbare
  refine parse_product hbare ?_ hproduct ?_
  · rw [← hempty]
    exact h.settled 0 negative _ _
  · rw [ht]
    exact Nat.zero_add _

end Grammar

end DecimalScript
