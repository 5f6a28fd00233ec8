import DecimalScript.Proofs.Derivation
import Mathlib

/-! The characters of a script outside its comments and strings. What a lexeme takes from them is
known from its kind, so the parentheses that a text leaves open can be counted without
reading it: a rule closes as many as it opens, wherever it is read. -/

namespace DecimalScript.Grammar

inductive Mode where
  | code | comment
  | quoted (escaped : Bool)

/-- The characters outside comments and strings, which both end with the line at the latest. -/
def plainFrom : Mode → List Char → List Char
  | _, [] => []
  | mode, c :: rest =>
    if c = '\n' then c :: plainFrom .code rest
    else match mode with
      | .code =>
        if c = '#' then plainFrom .comment rest
        else if c = '"' then plainFrom (.quoted false) rest
        else c :: plainFrom .code rest
      | .comment => plainFrom .comment rest
      | .quoted escaped =>
        if c = '"' && !escaped then plainFrom .code rest
        else plainFrom (.quoted (c = '\\' && !escaped)) rest

def plain (text : List Char) : List Char := plainFrom .code text

section Plain
variable {mode : Mode} {text rest : List Char} {c : Char}

@[simp] theorem plainFrom_nil : plainFrom mode [] = [] := by
  cases mode <;> rfl

@[simp] theorem plainFrom_newline : plainFrom mode ('\n' :: rest) = '\n' :: plain rest := by
  cases mode <;> rfl

theorem plain_cons (hn : c ≠ '\n') (hs : c ≠ '#') (hq : c ≠ '"') :
    plain (c :: rest) = c :: plain rest := by
  simp [plain, plainFrom, hn, hs, hq]

/-- A line ends every comment and string. -/
theorem plainFrom_append (mode : Mode) (text rest : List Char) :
    plainFrom mode (text ++ '\n' :: rest) = plainFrom mode text ++ '\n' :: plain rest := by
  induction text generalizing mode with
  | nil => simp
  | cons c text ih =>
    rw [List.cons_append]
    unfold plainFrom
    by_cases hc : c = '\n'
    · rw [if_pos hc, if_pos hc, ih, List.cons_append]
    · rw [if_neg hc, if_neg hc]
      cases mode with
      | code =>
        dsimp only
        split_ifs
        · exact ih _
        · exact ih _
        · rw [ih, List.cons_append]
      | comment => exact ih _
      | quoted escaped =>
        dsimp only
        split_ifs
        · exact ih _
        · exact ih _

theorem plain_append_newline (text rest : List Char) :
    plain (text ++ '\n' :: rest) = plain text ++ plain ('\n' :: rest) := by
  unfold plain
  rw [plainFrom_append, plainFrom_newline]

theorem plain_append_of_forall {piece : List Char} (h : ∀ c ∈ piece, c ≠ '#' ∧ c ≠ '"')
    (rest : List Char) : plain (piece ++ rest) = piece ++ plain rest := by
  induction piece with
  | nil => rfl
  | cons c piece ih =>
    obtain ⟨hc, hpiece⟩ := List.forall_mem_cons.mp h
    rw [List.cons_append, List.cons_append, ← ih hpiece]
    by_cases hn : c = '\n'
    · subst hn
      exact plainFrom_newline
    · exact plain_cons hn hc.1 hc.2

/-! ### Lexemes -/

theorem plainFrom_gap (comment : Bool) (text : List Char) :
    ∃ blanks, plainFrom (if comment then .comment else .code) text =
      blanks ++ plain (text.drop (gapLength comment text)) ∧ ∀ c ∈ blanks, isGap c := by
  induction text generalizing comment with
  | nil => exact ⟨[], by simp [plain], by simp⟩
  | cons c rest ih =>
    cases comment with
    | true =>
      by_cases hc : c = '\n'
      · subst hc
        exact ⟨[], by simp [gapLength, plain], by simp⟩
      · obtain ⟨blanks, hplain, hblanks⟩ := ih true
        refine ⟨blanks, ?_, hblanks⟩
        simpa [gapLength, plainFrom, hc] using hplain
    | false =>
      by_cases hgap : isGap c
      · obtain ⟨blanks, hplain, hblanks⟩ := ih false
        have hc : c ≠ '\n' ∧ c ≠ '#' ∧ c ≠ '"' := by
          refine ⟨?_, ?_, ?_⟩ <;> rintro rfl <;> cases hgap
        refine ⟨c :: blanks, ?_, List.forall_mem_cons.mpr ⟨hgap, hblanks⟩⟩
        simpa [gapLength, plainFrom, hc, hgap] using hplain
      · by_cases hc : c = '#'
        · subst hc
          obtain ⟨blanks, hplain, hblanks⟩ := ih true
          refine ⟨blanks, ?_, hblanks⟩
          simpa [gapLength, plainFrom, hgap] using hplain
        · exact ⟨[], by simp [gapLength, hgap, hc, plain], by simp⟩

theorem plain_gap (text : List Char) :
    ∃ blanks, plain text = blanks ++ plain (afterGap text) ∧ ∀ c ∈ blanks, isGap c :=
  plainFrom_gap false text

theorem plainFrom_stringTail {escaped : Bool} {n : Nat} (h : stringTail escaped text = some n) :
    plainFrom (.quoted escaped) text = plain (text.drop n) := by
  induction text generalizing escaped n with
  | nil => cases h
  | cons c rest ih =>
    unfold stringTail at h
    unfold plainFrom
    split_ifs at h with hn hq
    · cases h
      rw [if_neg hn]
      dsimp only
      rw [if_pos hq]
      rfl
    · obtain ⟨m, hm, rfl⟩ := Option.map_eq_some_iff.mp h
      rw [if_neg hn]
      dsimp only
      rw [if_neg hq, ih hm, List.drop_succ_cons]

end Plain

def depth (chars : List Char) : Int := chars.count '(' - chars.count ')'

@[simp] theorem depth_append (xs ys : List Char) : depth (xs ++ ys) = depth xs + depth ys := by
  unfold depth
  rw [List.count_append, List.count_append]
  push_cast
  ring

theorem depth_eq_zero {chars : List Char} (h : ∀ c ∈ chars, c ≠ '(' ∧ c ≠ ')') :
    depth chars = 0 := by
  unfold depth
  rw [List.count_eq_zero.mpr fun hm => (h _ hm).1 rfl, List.count_eq_zero.mpr fun hm => (h _ hm).2 rfl]
  rfl

namespace Kind

/-- A word of the kind has a character, starts no comment or string and ends in its line. -/
def isPlain : Kind → Bool
  | .spelled word =>
    word.length != 0 && word.toList.all fun c => c != '\n' && c != '#' && c != '"'
  | _ => true

theorem isProper_of_isPlain {kind : Kind} (h : kind.isPlain) : kind.isProper := by
  cases kind with
  | spelled word => exact (Bool.and_eq_true_iff.mp h).1
  | _ => rfl

theorem mem_word {word : String} (h : (spelled word).isPlain) {c : Char} (hc : c ∈ word.toList) :
    c ≠ '\n' ∧ c ≠ '#' ∧ c ≠ '"' := by
  have hplain := List.all_eq_true.mp (Bool.and_eq_true_iff.mp h).2 c hc
  simpa [and_assoc] using hplain

def depth : Kind → Int
  | .spelled word => Grammar.depth word.toList
  | _ => 0

/-- The characters that a lexeme of the kind adds to those outside comments and strings. -/
def Adds (kind : Kind) (piece : List Char) : Prop :=
  match kind with
  | .spelled word => piece = word.toList
  | .separator => ∀ c ∈ piece, c = ';' ∨ c = '\n'
  | _ => ∀ c ∈ piece, c ≠ '(' ∧ c ≠ ')'

theorem Adds.depth_eq {kind : Kind} {piece : List Char} (h : kind.Adds piece) :
    Grammar.depth piece = kind.depth := by
  cases kind with
  | spelled word => exact congrArg Grammar.depth h
  | separator =>
    refine depth_eq_zero fun c hc => ?_
    rcases h c hc with rfl | rfl <;> decide
  | name | number | string | comparison => exact depth_eq_zero h

end Kind

theorem spelled_take {word : String} {text : List Char} {n : Nat} (h : spelled word text = some n) :
    text.take n = word.toList := by
  have htext := congrArg String.toList (spelled_text h)
  rwa [String.toList_ofList] at htext

theorem separatorLexeme_take {text : List Char} {n : Nat} (h : separatorLexeme text = some n) :
    ∀ c ∈ text.take n, c = ';' ∨ c = '\n' := by
  unfold separatorLexeme at h
  split at h
  · cases h
    simp
  · dsimp only at h
    split_ifs at h
    cases h
    rw [List.prefix_iff_eq_take.mp (List.takeWhile_prefix _) |>.symm]
    intro c hc
    exact .inr (by simpa using List.mem_takeWhile_imp hc)

theorem nameLexeme_take {text : List Char} {n : Nat} (h : nameLexeme text = some n) :
    ∀ c ∈ text.take n, isNamePart c := by
  cases text with
  | nil => cases h
  | cons d rest =>
    unfold nameLexeme at h
    dsimp only at h
    split_ifs at h with hd
    cases h
    rw [List.take_succ_cons, (List.prefix_iff_eq_take.mp (List.takeWhile_prefix _)).symm]
    refine List.forall_mem_cons.mpr ⟨?_, fun c hc => List.mem_takeWhile_imp hc⟩
    unfold isNameStart at hd
    unfold isNamePart Char.isAlphanum
    grind

/-- A lexeme that is no string is read where it stands. -/
theorem Kind.lexeme_take {kind : Kind} {text : List Char} {n : Nat} (hk : kind.isPlain)
    (hs : kind ≠ .string) (h : kind.lexeme text = some n) :
    (∀ c ∈ text.take n, c ≠ '#' ∧ c ≠ '"') ∧ kind.Adds (text.take n) := by
  -- none of the four characters belongs to the class of the kind
  have of_class {p : Char → Bool} (hp : ∀ c ∈ text.take n, p c)
      (hc : p '#' = false ∧ p '"' = false ∧ p '(' = false ∧ p ')' = false) :
      (∀ c ∈ text.take n, c ≠ '#' ∧ c ≠ '"') ∧ ∀ c ∈ text.take n, c ≠ '(' ∧ c ≠ ')' := by
    have hne {c d : Char} (hm : c ∈ text.take n) (hd : p d = false) : c ≠ d := by
      rintro rfl
      rw [hp _ hm] at hd
      cases hd
    exact ⟨fun c hm => ⟨hne hm hc.1, hne hm hc.2.1⟩,
      fun c hm => ⟨hne hm hc.2.2.1, hne hm hc.2.2.2⟩⟩
  cases kind with
  | string => exact absurd rfl hs
  | name => exact of_class (nameLexeme_take h) (by decide)
  | number =>
    have hnumeral := numberLexeme_text h
    unfold IsNumeral at hnumeral
    rw [String.toList_ofList] at hnumeral
    exact of_class (p := fun c => Text.isDigit c || c == '.') (by simpa using hnumeral) (by decide)
  | comparison =>
    have hword := oneOf_text h
    have hletters : ∀ word ∈ ["==", "!=", "<=", "<", ">=", ">"], ∀ c ∈ word.toList,
        ['=', '!', '<', '>'].contains c := by simp
    refine of_class (fun c hc => hletters _ hword c ?_) (by decide)
    rwa [String.toList_ofList]
  | separator =>
    have hchars := separatorLexeme_take h
    refine ⟨fun c hc => ?_, hchars⟩
    rcases hchars c hc with rfl | rfl <;> decide
  | spelled word =>
    have hword : text.take n = word.toList := spelled_take h
    refine ⟨fun c hc => ?_, hword⟩
    rw [hword] at hc
    exact (mem_word hk hc).2

variable {f g : Form} {text rest : List Char}

/-- What a lexeme and the blanks before it take from the characters outside comments and strings. -/
theorem Lexes.adds {kind : Kind} (hk : kind.isPlain) (h : Lexes kind text rest) :
    ∃ blanks piece, plain text = blanks ++ (piece ++ plain rest) ∧ (∀ c ∈ blanks, isGap c) ∧
      kind.Adds piece := by
  obtain ⟨n, hn, rfl⟩ := h
  obtain ⟨blanks, hplain, hblanks⟩ := plain_gap text
  rw [hplain]
  by_cases hs : kind = .string
  · subst hs
    refine ⟨blanks, [], ?_, hblanks, by simp [Kind.Adds]⟩
    unfold Kind.lexeme stringLexeme at hn
    dsimp only at hn
    split at hn
    · rename_i letters heq
      obtain ⟨m, hm, rfl⟩ := Option.map_eq_some_iff.mp hn
      have hstring : plain ('"' :: letters) = plainFrom (.quoted false) letters := rfl
      rw [heq, hstring, plainFrom_stringTail hm]
      rfl
    · cases hn
  · obtain ⟨hletters, hadds⟩ := Kind.lexeme_take hk hs hn
    refine ⟨blanks, (afterGap text).take n, ?_, hblanks, hadds⟩
    rw [← plain_append_of_forall hletters, List.take_append_drop]

theorem depth_blanks {blanks : List Char} (h : ∀ c ∈ blanks, isGap c) : depth blanks = 0 := by
  refine depth_eq_zero fun c hc => ⟨?_, ?_⟩
  · rintro rfl
    cases h _ hc
  · rintro rfl
    cases h _ hc

/-- How many parentheses a text closes that it does not open, negative, or leaves open. -/
def nesting (text : List Char) : Int := depth (plain text)

theorem nesting_append_newline (text rest : List Char) :
    nesting (text ++ '\n' :: rest) = nesting text + nesting ('\n' :: rest) := by
  unfold nesting
  rw [plain_append_newline, depth_append]

theorem nesting_gap (text : List Char) : nesting (afterGap text) = nesting text := by
  obtain ⟨blanks, hplain, hblanks⟩ := plain_gap text
  unfold nesting
  rw [hplain, depth_append, depth_blanks hblanks, zero_add]

theorem Lexes.nesting_eq {kind : Kind} (hk : kind.isPlain) (h : Lexes kind text rest) :
    nesting text = kind.depth + nesting rest := by
  obtain ⟨blanks, piece, hplain, hblanks, hadds⟩ := h.adds hk
  unfold nesting
  rw [hplain, depth_append, depth_append, depth_blanks hblanks, hadds.depth_eq, zero_add]

/-! ### Forms -/

namespace Form

mutual

/-- How many more parentheses the form opens than it closes, if this is the same in all its ways. -/
def depth : Form → Option Int
  | .lexeme _ kind => if kind.isPlain then some kind.depth else none
  | .rule _ => some 0
  | .pair f g => match depth f, depth g with
    | some m, some n => some (m + n)
    | _, _ => none
  | .either forms => commonDepth forms
  | .many f => if depth f = some 0 then some 0 else none
  | .node _ f | .grouped _ f => depth f

def commonDepth : List Form → Option Int
  | [] => some 0
  | [f] => depth f
  | f :: rest => if depth f = commonDepth rest then depth f else none

end

theorem depth_pair {d : Int} (h : (pair f g).depth = some d) :
    ∃ m n, f.depth = some m ∧ g.depth = some n ∧ d = m + n := by
  unfold depth at h
  split at h
  · cases h
    exact ⟨_, _, by assumption, by assumption, rfl⟩
  · cases h

theorem depth_many {d : Int} (h : (many f).depth = some d) : f.depth = some 0 ∧ d = 0 := by
  unfold depth at h
  split_ifs at h with hf
  cases h
  exact ⟨hf, rfl⟩

theorem depth_of_mem {forms : List Form} {d : Int} (h : commonDepth forms = some d)
    (hf : f ∈ forms) : f.depth = some d := by
  induction forms with
  | nil => cases hf
  | cons g rest ih =>
    cases rest with
    | nil =>
      obtain rfl := List.mem_singleton.mp hf
      exact h
    | cons g' rest =>
      unfold commonDepth at h
      split_ifs at h with heq
      rcases List.mem_cons.mp hf with rfl | hf
      · exact h
      · exact ih (heq ▸ h) hf

end Form

/-- A rule closes what it opens. -/
theorem Rule.depth_form (r : Rule) : r.form.depth = some 0 := by
  cases r <;> decide

theorem Leads.nesting_eq {d : Int} (h : Leads Lexes f text rest) (hd : f.depth = some d) :
    nesting text = d + nesting rest := by
  induction h generalizing d with
  | lexeme h =>
    unfold Form.depth at hd
    split_ifs at hd with hk
    cases hd
    exact h.nesting_eq hk
  | @rule r s t _ ih =>
    cases hd
    exact ih r.depth_form
  | pair _ _ ihf ihg =>
    obtain ⟨m, n, hf, hg, rfl⟩ := Form.depth_pair hd
    rw [ihf hf, ihg hg, add_assoc]
  | either hm _ ih => exact ih (Form.depth_of_mem hd hm)
  | stop =>
    obtain ⟨-, rfl⟩ := Form.depth_many hd
    rw [zero_add]
  | again _ _ ihf ihr =>
    obtain ⟨hf, rfl⟩ := Form.depth_many hd
    rw [ihf hf, ihr hd, zero_add]
  | node _ ih | grouped _ ih => exact ih hd

/-- Lexemes lead from the text to the place. -/
def Reaches : List Char → List Char → Prop :=
  Relation.ReflTransGen fun text rest => ∃ kind : Kind, kind.isPlain ∧ Lexes kind text rest

theorem Leads.reaches {d : Int} (h : Leads Lexes f text rest) (hd : f.depth = some d) :
    Reaches text rest := by
  induction h generalizing d with
  | @lexeme _ kind s t h =>
    unfold Form.depth at hd
    split_ifs at hd with hk
    exact .single ⟨kind, hk, h⟩
  | @rule r s t _ ih => exact ih r.depth_form
  | pair _ _ ihf ihg =>
    obtain ⟨m, n, hf, hg, -⟩ := Form.depth_pair hd
    exact (ihf hf).trans (ihg hg)
  | either hm _ ih => exact ih (Form.depth_of_mem hd hm)
  | stop => exact .refl
  | again _ _ ihf ihr => exact (ihf (Form.depth_many hd).1).trans (ihr hd)
  | node _ ih | grouped _ ih => exact ih hd

/-- What is left to read is the end of the characters outside comments and strings. -/
theorem Reaches.plain_suffix (h : Reaches text rest) : plain rest <:+ plain text := by
  induction h with
  | refl => exact List.suffix_refl _
  | tail _ hlast ih =>
    obtain ⟨kind, hk, hlexes⟩ := hlast
    obtain ⟨blanks, piece, hplain, -⟩ := hlexes.adds hk
    rw [hplain, ← List.append_assoc] at ih
    exact (List.suffix_append _ _).trans ih

end DecimalScript.Grammar
