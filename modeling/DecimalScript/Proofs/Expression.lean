import DecimalScript.Proofs.Derivation
import DecimalScript.Proofs.Literal
import Mathlib

/-! Expressions, one family for each rule of the grammar, with their words and their trees. A
walk over words keeps track of the parentheses and of whether an operand comes next, so it
tells which operators stand outside all parentheses. -/

namespace DecimalScript

mutual

def Tree.bare : Tree → Tree
  | .node label _ children => .node label none (Tree.bareAll children)
  | .token terminal text _ => .token terminal text default
  | .value v => .value v

def Tree.bareAll : List Tree → List Tree
  | [] => []
  | tree :: rest => tree.bare :: Tree.bareAll rest

end

theorem Tree.bareAll_append (xs ys : List Tree) :
    Tree.bareAll (xs ++ ys) = Tree.bareAll xs ++ Tree.bareAll ys := by
  induction xs with
  | nil => rfl
  | cons x xs ih => rw [List.cons_append, bareAll, ih, bareAll, List.cons_append]

namespace Grammar

/-! ### Words -/

def keywords : List String :=
  ["for", "in", "by", "if", "else", "or", "and", "not", "mod", "print", "break", "next", "from",
   "when", "with"]

/-- A name that does not begin with a keyword. -/
structure PlainName where
  text : List Char
  isName : nameLexeme text = some text.length
  isPlain : ∀ word ∈ keywords, ¬word.toList <+: text

structure Numerical where
  text : List Char
  isNumber : numberLexeme text = some text.length

/-- What stands between operands; the signs of sums also stand before them. `assign` is what is
left of `==` behind its first character. -/
inductive Operator where
  | pow | star | slash | mod | plus | minus
  | equal | unequal | atMost | below | atLeast | above
  | and | or | cond | otherwise | assign
  deriving DecidableEq

def Operator.all : List Operator :=
  [.pow, .star, .slash, .mod, .plus, .minus, .equal, .unequal, .atMost, .below, .atLeast, .above,
   .and, .or, .cond, .otherwise, .assign]

theorem Operator.mem_all (o : Operator) : o ∈ Operator.all := by
  cases o <;> decide

def Operator.text : Operator → String
  | .pow => "**"
  | .star => "*"
  | .slash => "/"
  | .mod => "mod"
  | .plus => "+"
  | .minus => "-"
  | .equal => "=="
  | .unequal => "!="
  | .atMost => "<="
  | .below => "<"
  | .atLeast => ">="
  | .above => ">"
  | .and => "and"
  | .or => "or"
  | .cond => "if"
  | .otherwise => "else"
  | .assign => "="

def Operator.rule : Operator → Rule
  | .pow => .power
  | .star | .slash | .mod => .product
  | .plus | .minus => .sum
  | .equal | .unequal | .atMost | .below | .atLeast | .above => .comparison
  | .and => .conjunction
  | .or => .disjunction
  | .cond | .otherwise => .conditional
  | .assign => .statement

def Operator.terminal : Operator → Option Terminal
  | .pow => some .pow
  | .star => some .star
  | .slash => some .slash
  | .mod => some .mod
  | .plus => some .plus
  | .minus => some .minus
  | .equal | .unequal | .atMost | .below | .atLeast | .above => some .compOp
  | .and => some .and
  | .or => some .or
  | .cond | .otherwise => none
  | .assign => some .assign

inductive Word where
  | number (n : Numerical)
  | name (x : PlainName)
  | opening | closing | not
  | op (o : Operator)

def Word.text : Word → List Char
  | .number n => n.text
  | .name x => x.text
  | .opening => ['(']
  | .closing => [')']
  | .not => "not".toList
  | .op o => o.text.toList

/-- Words with a blank between any two, and one before the first unless it is glued to what is
before it. -/
def spell : (glued : Bool) → List Word → List Char
  | _, [] => []
  | glued, w :: ws => (if glued then [] else [' ']) ++ (w.text ++ spell false ws)

/-! ### Expressions -/

def Rule.operand : Rule → Option Rule
  | .product => some .power
  | .sum => some .product
  | .comparison => some .sum
  | .conjunction => some .negation
  | .disjunction => some .conjunction
  | _ => none

/-- The rule for what the rule passes on unchanged. -/
def Rule.inner : Rule → Option Rule
  | .unary => some .atom
  | .power => some .unary
  | .negation => some .comparison
  | r => r.operand

def Rule.label : Rule → Label
  | .product => .product
  | .sum => .sum
  | .comparison => .comparison
  | .conjunction => .andExpr
  | .disjunction => .orExpr
  | _ => .conditionalExpr

/-- An expression of a rule, or the links that continue a chain: operators, each with its operand. -/
inductive Part where
  | whole (r : Rule)
  | links (r : Rule)

inductive Expression : Part → Type
  | number (n : Numerical) : Expression (.whole .atom)
  | name (x : PlainName) : Expression (.whole .atom)
  /-- An expression in parentheses. -/
  | group (e : Expression (.whole .conditional)) : Expression (.whole .atom)
  | sign (o : Operator) (ho : o.rule = .sum) (e : Expression (.whole .unary)) :
      Expression (.whole .unary)
  | power (base : Expression (.whole .unary)) (exponent : Expression (.whole .power)) :
      Expression (.whole .power)
  | chain {r l : Rule} (hr : r.operand = some l) (first : Expression (.whole l)) (o : Operator)
      (ho : o.rule = r) (second : Expression (.whole l)) (more : Expression (.links r)) :
      Expression (.whole r)
  | done {r : Rule} : Expression (.links r)
  | link {r l : Rule} (hr : r.operand = some l) (o : Operator) (ho : o.rule = r)
      (e : Expression (.whole l)) (more : Expression (.links r)) : Expression (.links r)
  | not (e : Expression (.whole .negation)) : Expression (.whole .negation)
  /-- An expression of a rule that binds tighter. -/
  | lift {r l : Rule} (hr : r.inner = some l) (e : Expression (.whole l)) : Expression (.whole r)
  | plain (e : Expression (.whole .disjunction)) : Expression (.whole .conditional)
  | choose (value condition : Expression (.whole .disjunction))
      (other : Expression (.whole .conditional)) : Expression (.whole .conditional)

namespace Expression

def words {p : Part} : Expression p → List Word
  | number n => [.number n]
  | name x => [.name x]
  | group e => .opening :: (e.words ++ [.closing])
  | sign o _ e => .op o :: e.words
  | power base exponent => base.words ++ .op .pow :: exponent.words
  | chain _ first o _ second more => first.words ++ .op o :: (second.words ++ more.words)
  | done => []
  | link _ o _ e more => .op o :: (e.words ++ more.words)
  | not e => .not :: e.words
  | lift _ e => e.words
  | plain e => e.words
  | choose value condition other =>
    value.words ++ .op .cond :: (condition.words ++ .op .otherwise :: other.words)

def text {p : Part} (e : Expression p) : String :=
  String.ofList ([' '].intercalate (e.words.map Word.text))

def leaf (terminal : Terminal) (text : List Char) : Tree :=
  .token terminal (String.ofList text) default

def operator (o : Operator) : List Tree := leaves o.terminal o.text default

/-- The tree of an expression, or the trees of links, without places. -/
def trees {p : Part} : Expression p → List Tree
  | number n => [.node .number none [leaf .number n.text]]
  | name x => [.node .var none [leaf .name x.text]]
  | group e => e.trees
  | sign o _ e => [.node .unary none (operator o ++ e.trees)]
  | power base exponent => [.node .power none (base.trees ++ (operator .pow ++ exponent.trees))]
  | @chain r _ _ first o _ second more =>
    [.node r.label none (first.trees ++ ((operator o ++ second.trees) ++ more.trees))]
  | done => []
  | link _ o _ e more => (operator o ++ e.trees) ++ more.trees
  | not e => [.node .notExpr none (leaf .not "not".toList :: e.trees)]
  | lift _ e => e.trees
  | plain e => [.node .conditionalExpr none e.trees]
  | choose value condition other =>
    [.node .conditionalExpr none (value.trees ++ (condition.trees ++ other.trees))]

def isGroup {p : Part} : Expression p → Bool
  | group _ => true
  | lift _ e => e.isGroup
  | plain e => e.isGroup
  | _ => false

end Expression

/-! ### Walks -/

/-- What came before the next word: an operand is expected, also right behind `not`, or done. -/
inductive Spot where
  | operand | negated | done
  deriving DecidableEq

/-- The spot and the number of open parentheses behind a word. -/
def Spot.next : Spot → Nat → Word → Option (Spot × Nat)
  | .done, d, .op _ => some (.operand, d)
  | .done, d + 1, .closing => some (.done, d)
  | .done, _, _ => none
  | _, d, .number _ => some (.done, d)
  | _, d, .name _ => some (.done, d)
  | _, d, .not => some (.negated, d)
  | _, d, .op .plus => some (.operand, d)
  | _, d, .op .minus => some (.operand, d)
  | _, d, .opening => some (.operand, d + 1)
  | _, _, _ => none

/-- One word, which has to be allowed if it stands outside all parentheses. -/
def next (allowed : Spot → Word → Bool) (state : Spot × Nat) (w : Word) : Option (Spot × Nat) :=
  if state.2 = 0 && !allowed state.1 w then none else state.1.next state.2 w

def walk (allowed : Spot → Word → Bool) : Spot × Nat → List Word → Option (Spot × Nat)
  | state, [] => some state
  | state, w :: ws => (next allowed state w).bind fun state => walk allowed state ws

section Walk
variable {allowed allowed' : Spot → Word → Bool} {state state' : Spot × Nat} {ws vs : List Word}

theorem walk_append (allowed : Spot → Word → Bool) (state : Spot × Nat) (ws vs : List Word) :
    walk allowed state (ws ++ vs) = (walk allowed state ws).bind fun state => walk allowed state vs := by
  induction ws generalizing state with
  | nil => rfl
  | cons w ws ih =>
    rw [List.cons_append, walk, walk, Option.bind_assoc]
    exact congrArg _ (funext fun state => ih state)

theorem next_eq (h : next allowed state w = some state') : state.1.next state.2 w = some state' := by
  unfold next at h
  split_ifs at h
  exact h

theorem next_mono {w : Word} (hle : ∀ q w, allowed q w → allowed' q w)
    (h : next allowed state w = some state') : next allowed' state w = some state' := by
  unfold next at h ⊢
  split_ifs at h with hd
  rw [if_neg, h]
  intro hd'
  simp only [Bool.and_eq_true, Bool.not_eq_true', not_and, Bool.not_eq_false, decide_eq_true_eq]
    at hd hd'
  exact absurd (hle _ _ (hd hd'.1)) (by simp [hd'.2])

theorem walk_mono (hle : ∀ q w, allowed q w → allowed' q w)
    (h : walk allowed state ws = some state') : walk allowed' state ws = some state' := by
  induction ws generalizing state with
  | nil => exact h
  | cons w ws ih =>
    obtain ⟨mid, hmid, hrest⟩ := Option.bind_eq_some_iff.mp h
    rw [walk, next_mono hle hmid]
    exact ih hrest

abbrev freely (_ : Spot) (_ : Word) : Bool := true

theorem walk_freely (h : walk allowed state ws = some state') : walk freely state ws = some state' :=
  walk_mono (fun _ _ _ => rfl) h

/-- Where two walks over the same words end, they end alike. -/
theorem walk_agree {state₁ state₂ : Spot × Nat} (h₁ : walk allowed state ws = some state₁)
    (h₂ : walk allowed' state ws = some state₂) : state₁ = state₂ :=
  Option.some_inj.mp ((walk_freely h₁).symm.trans (walk_freely h₂))

theorem Spot.next_raise {q q' : Spot} {d d' : Nat} {w : Word} (h : q.next d w = some (q', d')) (n : Nat) :
    q.next (d + n) w = some (q', d' + n) := by
  cases q with
  | done =>
    cases w with
    | op o =>
      cases h
      rfl
    | closing =>
      cases d with
      | zero => cases h
      | succ d =>
        cases h
        rw [Nat.add_right_comm]
        rfl
    | _ => cases h
  | operand | negated =>
    cases w with
    | op o => cases o <;> cases h <;> rfl
    | opening =>
      cases h
      rw [Nat.add_right_comm]
      rfl
    | closing => cases h
    | _ =>
      cases h
      rfl

theorem next_raise {q q' : Spot} {d d' n : Nat} {w : Word} (hn : n ≠ 0 ∨ ∀ q w, allowed q w → allowed' q w)
    (h : next allowed (q, d) w = some (q', d')) : next allowed' (q, d + n) w = some (q', d' + n) := by
  rcases Nat.eq_zero_or_pos n with rfl | hpos
  · exact next_mono (hn.resolve_left (by simp)) h
  · unfold next
    rw [if_neg (by simp; omega)]
    exact Spot.next_raise (next_eq h) n

/-- What is walked inside parentheses need not be allowed. -/
theorem walk_raise {q q' : Spot} {d d' n : Nat} (hn : n ≠ 0 ∨ ∀ q w, allowed q w → allowed' q w)
    (h : walk allowed (q, d) ws = some (q', d')) : walk allowed' (q, d + n) ws = some (q', d' + n) := by
  induction ws generalizing q d with
  | nil =>
    cases h
    rfl
  | cons w ws ih =>
    obtain ⟨⟨q₁, d₁⟩, hmid, hrest⟩ := Option.bind_eq_some_iff.mp h
    rw [walk, next_raise hn hmid]
    exact ih hrest

end Walk

/-! ### The lexemes of words -/

section Lexemes
variable {g : Bool} {ws : List Word} {m t tail : List Char}

theorem ends_spell (ws : List Word) : Ends (spell false ws) := by
  cases ws with
  | nil => exact .inl rfl
  | cons w ws => exact .inr rfl

theorem takeWhile_ends {P : Char → Bool} (hp : P ' ' = false) (h : Ends tail) (t : List Char) :
    (t ++ tail).takeWhile P = t.takeWhile P := by
  have htail : tail.takeWhile P = [] := by
    rcases h with rfl | h
    · rfl
    · obtain ⟨rest, rfl⟩ := List.head?_eq_some_iff.mp h
      exact List.takeWhile_cons_of_neg (by simp [hp])
  rw [List.takeWhile_append, htail, List.append_nil]
  split_ifs with hall
  · exact ((List.takeWhile_prefix P).eq_of_length hall).symm
  · rfl

theorem fractionLength_ends (h : Ends tail) (t : List Char) :
    fractionLength (t ++ tail) = fractionLength t := by
  cases t with
  | nil =>
    rcases h with rfl | h
    · rfl
    · obtain ⟨rest, rfl⟩ := List.head?_eq_some_iff.mp h
      rfl
  | cons c rest =>
    by_cases hc : c = '.'
    · subst hc
      change (let digits := ((rest ++ tail).takeWhile Text.isDigit).length
        if digits = 0 then 0 else digits + 1) = _
      rw [takeWhile_ends (by decide) h]
      rfl
    · unfold fractionLength
      split
      · rename_i heq
        cases heq
        exact absurd rfl hc
      · split
        · rename_i heq
          cases heq
          exact absurd rfl hc
        · rfl

theorem spelled_ends {word : String} (hw : ' ' ∉ word.toList) (h : Ends tail) (t : List Char) :
    spelled word (t ++ tail) = spelled word t := by
  have hiff : word.toList <+: t ++ tail ↔ word.toList <+: t := by
    refine ⟨fun hp => ?_, fun hp => hp.trans (List.prefix_append _ _)⟩
    rcases List.prefix_or_prefix_of_prefix hp (List.prefix_append t tail) with hp' | ⟨p, hp'⟩
    · exact hp'
    · rw [← hp', List.prefix_append_right_inj] at hp
      cases p with
      | nil => exact ⟨[], by simpa using hp'.symm⟩
      | cons c p =>
        -- the word would go on with the blank
        rcases h with rfl | h
        · exact absurd (List.prefix_nil.mp hp) (by simp)
        · obtain ⟨rest, rfl⟩ := List.head?_eq_some_iff.mp h
          obtain ⟨rfl, -⟩ := List.cons_prefix_cons.mp hp
          exact absurd (by rw [← hp']; simp) hw
  have heq : word.toList.isPrefixOf (t ++ tail) = word.toList.isPrefixOf t := by
    rw [Bool.eq_iff_iff, List.isPrefixOf_iff_prefix, List.isPrefixOf_iff_prefix, hiff]
  unfold spelled
  rw [heq]

/-- A kind of lexemes that do not reach over a blank. -/
def Kind.isTight : Kind → Bool
  | .spelled word => !word.toList.contains ' ' && word.length != 0
  | .name | .number | .comparison => true
  | .string | .separator => false

theorem Kind.lexeme_ends {kind : Kind} (hk : kind.isTight) (ht : t ≠ []) (h : Ends tail) :
    kind.lexeme (t ++ tail) = kind.lexeme t := by
  cases kind with
  | name =>
    obtain ⟨c, rest, rfl⟩ := List.exists_cons_of_ne_nil ht
    change (if isNameStart c then some (((rest ++ tail).takeWhile isNamePart).length + 1) else none) = _
    rw [takeWhile_ends (by decide) h]
    rfl
  | number =>
    change numberLexeme (t ++ tail) = numberLexeme t
    unfold numberLexeme
    dsimp only
    rw [takeWhile_ends (by decide) h,
      List.drop_append_of_le_length (List.takeWhile_prefix _).length_le, fractionLength_ends h]
  | comparison =>
    change comparisonLexeme (t ++ tail) = comparisonLexeme t
    unfold comparisonLexeme oneOf
    simp only [List.findSome?_cons]
    repeat rw [spelled_ends (by decide) h]
    rfl
  | spelled word => exact spelled_ends (by simp [isTight] at hk; exact hk.1) h t
  | string | separator => cases hk

theorem PlainName.cons (x : PlainName) : ∃ c rest, x.text = c :: rest ∧ isNameStart c := by
  have h := x.isName
  cases htext : x.text with
  | nil =>
    rw [htext] at h
    cases h
  | cons c rest =>
    refine ⟨c, rest, rfl, ?_⟩
    rw [htext] at h
    unfold nameLexeme at h
    dsimp only at h
    split_ifs at h with hc
    exact hc

theorem numberLexeme_cons {n : Nat} (h : numberLexeme t = some n) :
    ∃ c rest, t = c :: rest ∧ (Text.isDigit c ∨ c = '.') := by
  cases t with
  | nil => cases h
  | cons c rest =>
    refine ⟨c, rest, rfl, ?_⟩
    by_contra hc
    obtain ⟨hdigit, hpoint⟩ := not_or.mp hc
    have hfraction : fractionLength (c :: rest) = 0 := by
      unfold fractionLength
      split
      · rename_i heq
        cases heq
        exact absurd rfl hpoint
      · rfl
    unfold numberLexeme at h
    dsimp only at h
    rw [List.takeWhile_cons_of_neg hdigit, List.length_nil, List.drop_zero, hfraction] at h
    cases h

theorem toNat_of_isNameStart {c : Char} (h : isNameStart c) : 65 ≤ c.toNat ∧ c.toNat ≤ 122 := by
  unfold isNameStart Char.isAlpha Char.isUpper Char.isLower at h
  simp only [Bool.or_eq_true, Bool.and_eq_true, decide_eq_true_eq, beq_iff_eq, ge_iff_le,
    UInt32.le_iff_toNat_le] at h
  rcases h with (h | h) | rfl
  · change 65 ≤ c.toNat ∧ c.toNat ≤ 90 at h
    omega
  · change 97 ≤ c.toNat ∧ c.toNat ≤ 122 at h
    omega
  · decide

theorem isNameStart_of_number {c : Char} (h : Text.isDigit c ∨ c = '.') : isNameStart c = false := by
  rcases h with h | rfl
  · -- all digits come before or behind the letters
    obtain ⟨value, hvalue⟩ := Option.isSome_iff_exists.mp h
    obtain ⟨first, hfirst, -⟩ := Option.map_eq_some_iff.mp hvalue
    have hrange : first ≤ c.toNat ∧ c.toNat < first + 10 := by simpa using List.find?_some hfirst
    have hzeros : ∀ first ∈ Text.digitZeros, first = 48 ∨ 1000 < first := by decide
    have hfirst := hzeros first (List.mem_of_find?_eq_some hfirst)
    by_contra hc
    have hletter := toNat_of_isNameStart (Bool.eq_true_of_not_eq_false hc)
    omega
  · decide

def Word.isFixed : Word → Bool
  | .number _ | .name _ => false
  | _ => true

/-- Characters that no word begins with. -/
def idle : List Char := [' ', '\t', '\x0c', '\r', '#', ';', '\n', '"']

theorem Word.cons (w : Word) : ∃ c rest, w.text = c :: rest ∧ c ∉ idle := by
  cases w with
  | number n =>
    obtain ⟨c, rest, hn, hc⟩ := numberLexeme_cons n.isNumber
    refine ⟨c, rest, hn, fun hmem => ?_⟩
    have hidle : ∀ c ∈ idle, Text.isDigit c = false ∧ c ≠ '.' := by
      simp only [idle, List.forall_mem_cons, List.not_mem_nil, false_implies, implies_true]
      decide
    rcases hc with hc | hc
    · rw [(hidle c hmem).1] at hc
      cases hc
    · exact (hidle c hmem).2 hc
  | name x =>
    obtain ⟨c, rest, hx, hc⟩ := x.cons
    refine ⟨c, rest, hx, fun hmem => ?_⟩
    have hidle : ∀ c ∈ idle, isNameStart c = false := by
      simp only [idle, List.forall_mem_cons, List.not_mem_nil, false_implies, implies_true]
      decide
    rw [hidle c hmem] at hc
    cases hc
  | op o => cases o <;> exact ⟨_, _, rfl, by decide⟩
  | _ => exact ⟨_, _, rfl, by decide⟩

theorem afterGap_cons {c : Char} (h : c ∉ idle) (rest : List Char) : afterGap (c :: rest) = c :: rest := by
  simp only [idle, List.mem_cons, List.not_mem_nil, or_false, not_or] at h
  have hgap : gapLength false (c :: rest) = 0 := by simp [gapLength, isGap, h]
  rw [afterGap, hgap, List.drop_zero]

theorem afterGap_spell (g : Bool) (w : Word) (ws : List Word) :
    afterGap (spell g (w :: ws)) = w.text ++ spell false ws := by
  obtain ⟨c, rest, hw, hc⟩ := w.cons
  have hglued : afterGap (w.text ++ spell false ws) = w.text ++ spell false ws := by
    rw [hw, List.cons_append, afterGap_cons hc]
  cases g with
  | true => exact hglued
  | false => exact hglued

theorem afterGap_spell_ne (g : Bool) (ws : List Word) {c : Char} (hc : c ∈ idle) :
    (afterGap (spell g ws)).head? ≠ some c := by
  cases ws with
  | nil => simp [spell, afterGap]
  | cons w ws =>
    obtain ⟨d, rest, hw, hd⟩ := w.cons
    rw [afterGap_spell, hw]
    rintro ⟨⟩
    exact hd hc

theorem lexes_separator : ¬Lexes .separator (spell g ws) m := by
  rintro ⟨n, hn, -⟩
  have hnone := separatorLexeme_eq_none (afterGap_spell_ne g ws (by decide : ';' ∈ idle))
    (afterGap_spell_ne g ws (by decide : '\n' ∈ idle))
  rw [Kind.lexeme, hnone] at hn
  cases hn

theorem lexes_tight {kind : Kind} (hk : kind.isTight) (h : Lexes kind (spell g ws) m) :
    ∃ w vs n, ws = w :: vs ∧ kind.lexeme w.text = some n ∧ m = w.text.drop n ++ spell false vs := by
  obtain ⟨n, hn, rfl⟩ := h
  cases ws with
  | nil =>
    have hproper : kind.isProper := by
      cases kind <;> simp_all [Kind.isTight, Kind.isProper]
    have hpos := Kind.lexeme_pos hproper hn
    have hle : n ≤ 0 := Kind.lexeme_le hn
    omega
  | cons w vs =>
    obtain ⟨c, rest, hw, -⟩ := w.cons
    rw [afterGap_spell, Kind.lexeme_ends hk (by simp [hw]) (ends_spell vs)] at hn
    refine ⟨w, vs, n, rfl, hn, ?_⟩
    rw [afterGap_spell, List.drop_append_of_le_length (Kind.lexeme_le hn)]

def spellings : List String :=
  ["for", "print", "break", "next", "if", "else", "or", "and", "not", "mod", "(", ")", ",", "+", "-",
   "*", "/", "**", "=", "+=", "-=", "/=", "mod=", "==", "!=", "<=", "<", ">=", ">"]

theorem PlainName.not_spelled (x : PlainName) {word : String} (hw : word ∈ spellings) :
    ¬word.toList <+: x.text := by
  intro hp
  have hcases : ∀ word ∈ spellings, word ∈ keywords ∨ "mod".toList <+: word.toList ∨
      ∃ c rest, word.toList = c :: rest ∧ isNameStart c = false := by
    simp only [spellings, List.forall_mem_cons, List.not_mem_nil, false_implies, implies_true,
      and_true]
    refine ⟨?_, ?_, ?_, ?_, ?_, ?_, ?_, ?_, ?_, ?_, ?_, ?_, ?_, ?_, ?_, ?_, ?_, ?_, ?_, ?_, ?_, ?_, ?_,
      ?_, ?_, ?_, ?_, ?_, ?_⟩
    all_goals first
      | exact .inl (by decide)
      | exact .inr (.inl (by decide))
      | exact .inr (.inr ⟨_, _, rfl, by decide⟩)
  rcases hcases word hw with hk | hm | ⟨c, rest, hword, hc⟩
  · exact x.isPlain word hk hp
  · exact x.isPlain "mod" (by decide) (hm.trans hp)
  · obtain ⟨d, rest', hx, hd⟩ := x.cons
    rw [hword, hx] at hp
    obtain ⟨rfl, -⟩ := List.cons_prefix_cons.mp hp
    rw [hc] at hd
    cases hd

theorem Numerical.not_spelled (n : Numerical) {word : String} (hw : word ∈ spellings) :
    ¬word.toList <+: n.text := by
  intro hp
  have hcases : ∀ word ∈ spellings,
      ∃ c letters, word.toList = c :: letters ∧ Text.isDigit c = false ∧ c ≠ '.' := by
    simp only [spellings, List.forall_mem_cons, List.not_mem_nil, false_implies, implies_true,
      and_true]
    refine ⟨?_, ?_, ?_, ?_, ?_, ?_, ?_, ?_, ?_, ?_, ?_, ?_, ?_, ?_, ?_, ?_, ?_, ?_, ?_, ?_, ?_, ?_, ?_,
      ?_, ?_, ?_, ?_, ?_, ?_⟩
    all_goals exact ⟨_, _, rfl, by decide⟩
  obtain ⟨c, letters, hword, hdigit, hpoint⟩ := hcases word hw
  obtain ⟨d, rest, hn, hd⟩ := numberLexeme_cons n.isNumber
  rw [hword, hn] at hp
  obtain ⟨rfl, -⟩ := List.cons_prefix_cons.mp hp
  rcases hd with hd | hd
  · rw [hdigit] at hd
    cases hd
  · exact hpoint hd

/-- A spelling stands where a fixed word begins with it. -/
theorem lexes_spelled {word : String} (hw : word ∈ spellings)
    (h : Lexes (.spelled word) (spell g ws) m) :
    ∃ w vs, ws = w :: vs ∧ w.isFixed ∧ word.toList <+: w.text ∧
      m = w.text.drop word.length ++ spell false vs := by
  have htight : ∀ word ∈ spellings, (Kind.spelled word).isTight := by decide +kernel
  obtain ⟨w, vs, n, rfl, hn, hm⟩ := lexes_tight (htight word hw) h
  have hn : spelled word w.text = some n := hn
  unfold spelled at hn
  split_ifs at hn with hp
  cases hn
  rw [List.isPrefixOf_iff_prefix] at hp
  refine ⟨w, vs, rfl, ?_, hp, hm⟩
  cases w with
  | number n => exact absurd hp (n.not_spelled hw)
  | name x => exact absurd hp (x.not_spelled hw)
  | _ => rfl

/-- A fixed word that no other word begins with, and that is looked for by itself. -/
def Word.isLone : Word → Bool
  | .opening | .closing | .not => true
  | .op o => o ∈ [.pow, .slash, .mod, .plus, .minus, .and, .or, .cond, .otherwise]
  | _ => false

theorem Word.eq_of_isLone {w w' : Word} (hw : w.isLone) (hf : w'.isFixed) (hp : w.text <+: w'.text) :
    w' = w := by
  have hops : ∀ o ∈ Operator.all, ∀ o' ∈ Operator.all, (Word.op o).isLone →
      o.text.toList <+: o'.text.toList → o' = o := by decide +kernel
  have hfirst : ∀ o ∈ Operator.all, ¬['('] <+: o.text.toList ∧ ¬[')'] <+: o.text.toList ∧
      ¬"not".toList <+: o.text.toList ∧ ¬o.text.toList <+: ['('] ∧ ¬o.text.toList <+: [')'] ∧
      ¬o.text.toList <+: "not".toList := by decide +kernel
  have hrest : ¬['('] <+: [')'] ∧ ¬[')'] <+: ['('] ∧ ¬['('] <+: "not".toList ∧
      ¬[')'] <+: "not".toList ∧ ¬"not".toList <+: ['('] ∧ ¬"not".toList <+: [')'] := by decide
  obtain ⟨h₁, h₂, h₃, h₄, h₅, h₆⟩ := hrest
  cases w with
  | number | name => cases hw
  | op o =>
    obtain ⟨-, -, -, k₁, k₂, k₃⟩ := hfirst o o.mem_all
    cases w' with
    | number | name => cases hf
    | op o' => rw [hops o o.mem_all o' o'.mem_all hw hp]
    | _ => contradiction
  | _ =>
    cases w' with
    | number | name => cases hf
    | op o' =>
      obtain ⟨k₁, k₂, k₃, -⟩ := hfirst o' o'.mem_all
      contradiction
    | _ => first | rfl | contradiction

theorem lexes_lone {w : Word} (hw : w.isLone) {word : String} (hword : word.toList = w.text)
    (hmem : word ∈ spellings) (h : Lexes (.spelled word) (spell g ws) m) :
    ∃ vs, ws = w :: vs ∧ m = spell false vs := by
  obtain ⟨w', vs, rfl, hf, hp, rfl⟩ := lexes_spelled hmem h
  rw [hword] at hp
  obtain rfl := Word.eq_of_isLone hw hf hp
  refine ⟨vs, rfl, ?_⟩
  rw [← String.length_toList, hword, List.drop_length, List.nil_append]

/-- Some spellings do not stand in an expression. -/
theorem lexes_absent {word : String}
    (hword : word ∈ ["for", "print", "break", "next", ",", "+=", "-=", "/=", "mod="])
    (h : Lexes (.spelled word) (spell g ws) m) : False := by
  have hmem : ∀ word ∈ ["for", "print", "break", "next", ",", "+=", "-=", "/=", "mod="],
      word ∈ spellings ∧ ¬word.toList <+: ['('] ∧ ¬word.toList <+: [')'] ∧
        ¬word.toList <+: "not".toList ∧ ∀ o ∈ Operator.all, ¬word.toList <+: o.text.toList := by
    decide +kernel
  obtain ⟨hspelled, h₁, h₂, h₃, h₄⟩ := hmem word hword
  obtain ⟨w, vs, rfl, hf, hp, -⟩ := lexes_spelled hspelled h
  cases w with
  | number | name => cases hf
  | op o => exact h₄ o o.mem_all hp
  | _ => contradiction

/-- A star is also found at the start of `**`. -/
theorem lexes_star (h : Lexes (.spelled "*") (spell g ws) m) :
    ∃ vs, (ws = .op .star :: vs ∧ m = spell false vs) ∨
      (ws = .op .pow :: vs ∧ m = spell true (.op .star :: vs)) := by
  obtain ⟨w, vs, rfl, hf, hp, rfl⟩ := lexes_spelled (by decide) h
  have hops : ∀ o ∈ Operator.all, ['*'] <+: o.text.toList → o = .star ∨ o = .pow := by decide
  refine ⟨vs, ?_⟩
  cases w with
  | number | name => cases hf
  | op o =>
    rcases hops o o.mem_all hp with rfl | rfl
    · exact .inl ⟨rfl, rfl⟩
    · exact .inr ⟨rfl, rfl⟩
  | _ => exact absurd hp (by decide)

theorem lexes_assign (h : Lexes (.spelled "=") (spell g ws) m) :
    ∃ vs, (ws = .op .assign :: vs ∧ m = spell false vs) ∨
      (ws = .op .equal :: vs ∧ m = spell true (.op .assign :: vs)) := by
  obtain ⟨w, vs, rfl, hf, hp, rfl⟩ := lexes_spelled (by decide) h
  have hops : ∀ o ∈ Operator.all, ['='] <+: o.text.toList → o = .assign ∨ o = .equal := by decide
  refine ⟨vs, ?_⟩
  cases w with
  | number | name => cases hf
  | op o =>
    rcases hops o o.mem_all hp with rfl | rfl
    · exact .inl ⟨rfl, rfl⟩
    · exact .inr ⟨rfl, rfl⟩
  | _ => exact absurd hp (by decide)

theorem lexes_comparison (h : Lexes .comparison (spell g ws) m) :
    ∃ o vs, o.rule = .comparison ∧ ws = .op o :: vs ∧ m = spell false vs := by
  obtain ⟨w, vs, n, rfl, hn, rfl⟩ := lexes_tight rfl h
  obtain ⟨word, hmem, hword⟩ := List.exists_of_findSome?_eq_some hn
  have hspelled : ∀ word ∈ ["==", "!=", "<=", "<", ">=", ">"], word ∈ spellings := by decide
  have hp : word.toList <+: w.text := by
    unfold spelled at hword
    split_ifs at hword with hp
    exact List.isPrefixOf_iff_prefix.mp hp
  cases w with
  | number k => exact absurd hp (k.not_spelled (hspelled word hmem))
  | name x => exact absurd hp (x.not_spelled (hspelled word hmem))
  | op o =>
    have hops : ∀ o ∈ Operator.all, comparisonLexeme o.text.toList =
        if o.rule = .comparison then some o.text.toList.length else none := by decide +kernel
    have ho : comparisonLexeme o.text.toList = some n := hn
    rw [hops o o.mem_all] at ho
    split_ifs at ho with hrule
    cases ho
    exact ⟨o, vs, hrule, rfl, by rw [Word.text, List.drop_length, List.nil_append]⟩
  | _ => cases hn

theorem lexes_number (h : Lexes .number (spell g ws) m) :
    ∃ n vs, ws = .number n :: vs ∧ m = spell false vs := by
  obtain ⟨w, vs, n, rfl, hn, rfl⟩ := lexes_tight rfl h
  have hn : numberLexeme w.text = some n := hn
  cases w with
  | number k =>
    have hk := k.isNumber
    rw [Word.text, hk] at hn
    cases hn
    exact ⟨k, vs, rfl, by rw [Word.text, List.drop_length, List.nil_append]⟩
  | name x =>
    obtain ⟨c, rest, hx, hc⟩ := numberLexeme_cons hn
    obtain ⟨d, rest', hx', hd⟩ := x.cons
    obtain ⟨rfl, -⟩ := List.cons_eq_cons.mp (hx.symm.trans hx')
    rw [isNameStart_of_number hc] at hd
    cases hd
  | op o =>
    have hops : ∀ o ∈ Operator.all, numberLexeme o.text.toList = none := by decide +kernel
    cases (hops o o.mem_all).symm.trans hn
  | _ => cases hn

/-- Keywords are read as names, too. -/
theorem lexes_name (h : Lexes .name (spell g ws) m) :
    ∃ w vs, ws = w :: vs ∧ m = spell false vs ∧
      ((∃ x, w = .name x) ∨ w = .not ∨
        ∃ o ∈ [Operator.mod, .and, .or, .cond, .otherwise], w = .op o) := by
  obtain ⟨w, vs, n, rfl, hn, rfl⟩ := lexes_tight rfl h
  have hn : nameLexeme w.text = some n := hn
  refine ⟨w, vs, rfl, ?_⟩
  cases w with
  | number k =>
    obtain ⟨c, rest, hk, hc⟩ := numberLexeme_cons k.isNumber
    rw [Word.text, hk] at hn
    unfold nameLexeme at hn
    dsimp only at hn
    rw [isNameStart_of_number hc] at hn
    cases hn
  | name x =>
    rw [Word.text, x.isName] at hn
    cases hn
    exact ⟨by rw [Word.text, List.drop_length, List.nil_append], .inl ⟨x, rfl⟩⟩
  | not =>
    cases hn
    exact ⟨rfl, .inr (.inl rfl)⟩
  | op o =>
    have hops : ∀ o ∈ Operator.all, nameLexeme o.text.toList = none ∨
        o ∈ [Operator.mod, .and, .or, .cond, .otherwise] ∧
          nameLexeme o.text.toList = some o.text.toList.length := by decide +kernel
    rcases hops o o.mem_all with hnone | ⟨hrule, hsome⟩
    · cases hnone.symm.trans hn
    · cases hsome.symm.trans hn
      exact ⟨by rw [Word.text, List.drop_length, List.nil_append], .inr (.inr ⟨o, hrule, rfl⟩)⟩
  | _ => cases hn

end Lexemes

end Grammar

end DecimalScript
