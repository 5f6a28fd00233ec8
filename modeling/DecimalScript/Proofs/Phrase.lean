import DecimalScript.Grammar.Program
import Mathlib

/-! How a text is read whose words are known. Where no operator follows an operand, the rules
above the products pass its readings on; so it is enough to know what a rule of
operands makes of the text. -/

namespace DecimalScript.Grammar

open Grammar.Parser

variable {rs : List Row} {p q : Parser} {ps : List Parser} {text : List Char} {pos : Pos}

/-! ### Readings of composed parsers -/

theorem readings_followedBy (p q : Parser) (rs : List Row) :
    (p.followedBy q rs).readings =
      (p rs).readings.flatMap fun r => (q (rs.drop r.length)).readings.map r.append := by
  unfold followedBy
  dsimp only
  rw [List.flatMap_map]

theorem readings_followedBy_single {r s : Reading} (hp : (p rs).readings = [r])
    (hq : (q (rs.drop r.length)).readings = [s]) : (p.followedBy q rs).readings = [r.append s] := by
  rw [readings_followedBy, hp, List.flatMap_singleton, hq]
  rfl

theorem readings_choice (ps : List Parser) (rs : List Row) :
    (choice ps rs).readings = distinct (ps.flatMap fun p => (p rs).readings) := by
  unfold choice
  dsimp only
  rw [List.flatMap_map]

theorem distinct_eq_self {l : List Reading} (h : l.Pairwise fun r s => r.length ≠ s.length) :
    distinct l = l := by
  induction l with
  | nil => rfl
  | cons r l ih =>
    obtain ⟨hr, hl⟩ := List.pairwise_cons.mp h
    rw [distinct, ih hl, List.filter_eq_self.mpr]
    intro s hs
    simpa using (hr s hs).symm

def Fails (p : Parser) (rs : List Row) : Prop := (p rs).readings = []

theorem Fails.followedBy (h : Fails p rs) (q : Parser) : Fails (p.followedBy q) rs := by
  unfold Fails
  rw [readings_followedBy, h, List.flatMap_nil]

theorem fails_followedBy_of_right (h : ∀ r ∈ (p rs).readings, Fails q (rs.drop r.length)) :
    Fails (p.followedBy q) rs := by
  unfold Fails
  rw [readings_followedBy, List.flatMap_eq_nil_iff]
  intro r hr
  rw [h r hr, List.map_nil]

theorem Fails.node (h : Fails p rs) (label : Label) : Fails (node label p) rs := by
  unfold Fails Parser.node wrap
  dsimp only
  rw [h, List.map_nil]

theorem readings_of_fails (h : ps.Forall (Fails · rs)) :
    (ps.flatMap fun p => (p rs).readings) = [] :=
  List.flatMap_eq_nil_iff.mpr (List.forall_iff_forall_mem.mp h)

theorem fails_choice (h : ps.Forall (Fails · rs)) : Fails (choice ps) rs := by
  unfold Fails
  rw [readings_choice, readings_of_fails h]
  rfl

/-- Where the other alternatives fail, the first one is left. -/
theorem readings_choice_first (ps : List Parser) (h : ps.Forall (Fails · rs))
    (hd : (p rs).readings.Pairwise fun r s => r.length ≠ s.length) :
    (choice (p :: ps) rs).readings = (p rs).readings := by
  rw [readings_choice, List.flatMap_cons, readings_of_fails h, List.append_nil, distinct_eq_self hd]

/-- Where the alternatives before it fail, the last one is left. -/
theorem readings_choice_last (ps : List Parser) (h : ps.Forall (Fails · rs))
    (hd : (p rs).readings.Pairwise fun r s => r.length ≠ s.length) :
    (choice (ps ++ [p]) rs).readings = (p rs).readings := by
  rw [readings_choice, List.flatMap_append, readings_of_fails h, List.nil_append,
    List.flatMap_singleton, distinct_eq_self hd]

theorem readings_choice_first_single {r : Reading} (hr : (p rs).readings = [r]) (ps : List Parser)
    (h : ps.Forall (Fails · rs)) : (choice (p :: ps) rs).readings = [r] := by
  rw [readings_choice_first ps h, hr]
  rw [hr]
  exact List.pairwise_singleton _ _

theorem readings_choice_last_single {r : Reading} (hr : (p rs).readings = [r]) (ps : List Parser)
    (h : ps.Forall (Fails · rs)) : (choice (ps ++ [p]) rs).readings = [r] := by
  rw [readings_choice_last ps h, hr]
  rw [hr]
  exact List.pairwise_singleton _ _

theorem readings_many (h : Fails p rs) : (many p rs).readings = [.empty] := by
  unfold many
  cases rs.length with
  | zero => rfl
  | succ limit =>
    exact readings_choice_first_single rfl [_] (h.followedBy _)

/-- Where no operator follows, a chain reads its operand. -/
theorem readings_chain {operand operator : Parser} (label : Label)
    (hd : (operand rs).readings.Pairwise fun r s => r.length ≠ s.length)
    (h : ∀ r ∈ (operand rs).readings, Fails operator (rs.drop r.length)) :
    (chain label operand operator rs).readings = (operand rs).readings := by
  have hmore : Fails (sequence [operand, operator.followedBy operand,
      many (operator.followedBy operand)]) rs :=
    fails_followedBy_of_right fun r hr => ((h r hr).followedBy operand).followedBy _
  exact readings_choice_last [_] (hmore.node label) hd

/-! ### Places of a text -/

def advance (pos : Pos) (text : List Char) : Pos := text.foldl Pos.after pos

theorem rows_drop (xs ys : List Char) (pos : Pos) :
    (rows (xs ++ ys) pos).drop xs.length = rows ys (advance pos xs) := by
  induction xs generalizing pos with
  | nil => rfl
  | cons c xs ih => exact ih (pos.after c)

/-- The rows of a text, where the first one may not have all its parses yet. -/
def Stands (rs : List Row) (text : List Char) (pos : Pos) : Prop :=
  ∃ row, rs = row :: (rows text pos).tail ∧ row.rest = text ∧ row.pos = pos

theorem stands_rows (text : List Char) (pos : Pos) : Stands (rows text pos) text pos := by
  cases text with
  | nil => exact ⟨_, rfl, rfl, rfl⟩
  | cons c rest => exact ⟨_, rfl, rfl, rfl⟩

theorem Stands.drop (h : Stands rs text pos) {n : Nat} (hn : n ≠ 0) :
    rs.drop n = (rows text pos).drop n := by
  obtain ⟨row, rfl, _, _⟩ := h
  obtain ⟨n, rfl⟩ := Nat.exists_eq_succ_of_ne_zero hn
  rw [List.drop_succ_cons, List.drop_tail]

theorem Stands.drop_append {xs ys : List Char} (h : Stands rs (xs ++ ys) pos) (hx : xs ≠ []) :
    rs.drop xs.length = rows ys (advance pos xs) := by
  rw [h.drop (by simpa using hx), rows_drop]

/-- A rule, its parser, and the rule for its operands, whose parse is at hand when the parser reads
at the same place. -/
inductive Level : (Row → Thunk Parse) → Parser → (Row → Thunk Parse) → Prop
  | unary : Level Row.unary unary Row.atom
  | power : Level Row.power power Row.unary
  | product : Level Row.product product Row.power
  | sum : Level Row.sum sum Row.product
  | comparison : Level Row.comparison comparison Row.sum
  | negation : Level Row.negation negation Row.comparison
  | conjunction : Level Row.conjunction conjunction Row.negation
  | disjunction : Level Row.disjunction disjunction Row.conjunction
  | conditional : Level Row.conditional conditional Row.disjunction
  | expr : Level Row.expr expr Row.conditional
  | statement : Level Row.statement statement Row.expr
  | statements : Level Row.statements statements Row.statement

theorem Level.exists_row {field inner : Row → Thunk Parse} (h : Level field p inner)
    (rest : List Char) (pos : Pos) (later : List Row) :
    ∃ row : Row, row.rest = rest ∧ row.pos = pos ∧
      (field (rowAt rest pos later)).get = p (row :: later) ∧
      (inner row).get = (inner (rowAt rest pos later)).get := by
  unfold rowAt
  extract_lets r₀ r₁ r₂ r₃ r₄ r₅ r₆ r₇ r₈ r₉ r₁₀ r₁₁ r₁₂
  cases h with
  | unary => exact ⟨r₁, rfl, rfl, rfl, rfl⟩
  | power => exact ⟨r₂, rfl, rfl, rfl, rfl⟩
  | product => exact ⟨r₃, rfl, rfl, rfl, rfl⟩
  | sum => exact ⟨r₄, rfl, rfl, rfl, rfl⟩
  | comparison => exact ⟨r₅, rfl, rfl, rfl, rfl⟩
  | negation => exact ⟨r₆, rfl, rfl, rfl, rfl⟩
  | conjunction => exact ⟨r₇, rfl, rfl, rfl, rfl⟩
  | disjunction => exact ⟨r₈, rfl, rfl, rfl, rfl⟩
  | conditional => exact ⟨r₉, rfl, rfl, rfl, rfl⟩
  | expr => exact ⟨r₁₀, rfl, rfl, rfl, rfl⟩
  | statement => exact ⟨r₁₁, rfl, rfl, rfl, rfl⟩
  | statements => exact ⟨r₁₂, rfl, rfl, rfl, rfl⟩

theorem Level.exists_rows {field inner : Row → Thunk Parse} (h : Level field p inner)
    (text : List Char) (pos : Pos) :
    ∃ rs, Stands rs text pos ∧ rule field (rows text pos) = p rs ∧
      rule inner rs = rule inner (rows text pos) := by
  obtain ⟨later, hrows⟩ : ∃ later, rows text pos = rowAt text pos later :: later := by
    cases text with
    | nil => exact ⟨[], rfl⟩
    | cons c rest => exact ⟨rows rest (pos.after c), rfl⟩
  obtain ⟨row, hrest, hpos, hfield, hinner⟩ := h.exists_row text pos later
  unfold Stands
  rw [hrows]
  exact ⟨row :: later, ⟨row, rfl, hrest, hpos⟩, hfield, hinner⟩

/-! ### Lexemes -/

theorem gapLength_le (comment : Bool) (text : List Char) : gapLength comment text ≤ text.length := by
  induction text generalizing comment with
  | nil => rfl
  | cons c rest ih =>
    have hcomment := ih true
    have hblank := ih false
    unfold gapLength
    rw [List.length_cons]
    split_ifs <;> omega

/-- What is left of a text behind blanks and comments. -/
def afterGap (text : List Char) : List Char := text.drop (gapLength false text)

/-- The row behind the blanks. -/
theorem Stands.gap (h : Stands rs text pos) :
    ∃ row later, rs.drop (gapLength false text) = row :: later ∧ row.rest = afterGap text ∧
      row.pos = advance pos (text.take (gapLength false text)) := by
  unfold afterGap
  by_cases hzero : gapLength false text = 0
  · obtain ⟨row, rfl, hrest, hpos⟩ := h
    rw [hzero]
    exact ⟨row, _, rfl, hrest, hpos⟩
  · have hlen : (text.take (gapLength false text)).length = gapLength false text :=
      List.length_take_of_le (gapLength_le false text)
    have hdrop := rows_drop (text.take (gapLength false text)) (text.drop (gapLength false text)) pos
    rw [List.take_append_drop, hlen] at hdrop
    obtain ⟨row, hrow, hrest, hpos⟩ := stands_rows (text.drop (gapLength false text))
      (advance pos (text.take (gapLength false text)))
    rw [h.drop hzero, hdrop]
    exact ⟨row, _, hrow, hrest, hpos⟩

theorem Stands.lexed_eq (h : Stands rs text pos) (lexeme : Lexeme)
    (kids : String → Pos → List Tree) :
    (lexed lexeme kids rs).readings = ((lexeme (afterGap text)).map fun length =>
      ⟨kids (String.ofList ((afterGap text).take length))
          (advance pos (text.take (gapLength false text))),
        some (advance pos (text.take (gapLength false text))),
        gapLength false text + length⟩).toList := by
  obtain ⟨here, later, hdrop, hrest, hpos⟩ := h.gap
  obtain ⟨row, rfl, hrow, _⟩ := h
  unfold lexed
  dsimp only
  rw [hrow, hdrop]
  dsimp only
  rw [hrest, hpos]
  cases lexeme (afterGap text) <;> rfl

theorem Stands.lexed_fails (h : Stands rs text pos) {lexeme : Lexeme}
    (hl : lexeme (afterGap text) = none) (kids : String → Pos → List Tree) :
    Fails (lexed lexeme kids) rs := by
  unfold Fails
  rw [h.lexed_eq, hl]
  rfl

/-- A word does not stand where another character does. -/
theorem spelled_eq_none {word : String} {c : Char} (hw : word.toList.head? = some c)
    (h : text.head? ≠ some c) : spelled word text = none := by
  obtain ⟨letters, hletters⟩ := List.head?_eq_some_iff.mp hw
  unfold spelled
  rw [hletters]
  cases text with
  | nil => rfl
  | cons d text =>
    have hne : (c == d) = false := by
      rw [beq_eq_false_iff_ne]
      rintro rfl
      exact h rfl
    rw [List.isPrefixOf, hne]
    rfl

/-! ### From products to programs -/

/-- The characters with which the operators of sums, comparisons, connectives and conditions and
the separators start. -/
def operatorStarts : List Char := ['+', '-', '=', '!', '<', '>', 'a', 'o', 'i', ';', '\n']

/-- No such operator or separator follows. -/
def Quiet (text : List Char) : Prop := ∀ c ∈ operatorStarts, (afterGap text).head? ≠ some c

theorem quiet_end : Quiet [] := fun _ _ h => by cases h

theorem quiet_of_head {c : Char} (h : (afterGap text).head? = some c) (hc : c ∉ operatorStarts) :
    Quiet text := by
  intro d hd heq
  rw [h] at heq
  cases heq
  exact hc hd

theorem Quiet.spelled (h : Quiet text) {word : String} {c : Char}
    (hw : word.toList.head? = some c) (hc : c ∈ operatorStarts) :
    spelled word (afterGap text) = none := spelled_eq_none hw (h c hc)

theorem Quiet.word_fails (h : Quiet text) {word : String} {c : Char}
    (hw : word.toList.head? = some c) (hc : c ∈ operatorStarts) (kids : String → Pos → List Tree) :
    Fails (lexed (Grammar.spelled word) kids) (rows text pos) :=
  (stands_rows text pos).lexed_fails (h.spelled hw hc) kids

theorem Quiet.plusOrMinus_fails (h : Quiet text) : Fails plusOrMinus (rows text pos) := by
  apply fails_choice
  exact ⟨h.word_fails (c := '+') rfl (by decide) _, h.word_fails (c := '-') rfl (by decide) _⟩

theorem Quiet.comparison_fails (h : Quiet text) :
    Fails (token .compOp comparisonLexeme) (rows text pos) := by
  refine (stands_rows text pos).lexed_fails ?_ _
  unfold comparisonLexeme oneOf
  rw [List.findSome?_eq_none_iff]
  simp only [List.forall_mem_cons, List.not_mem_nil, false_implies, implies_true, and_true]
  exact ⟨h.spelled (c := '=') rfl (by decide), h.spelled (c := '!') rfl (by decide),
    h.spelled (c := '<') rfl (by decide), h.spelled (c := '<') rfl (by decide),
    h.spelled (c := '>') rfl (by decide), h.spelled (c := '>') rfl (by decide)⟩

theorem separatorLexeme_eq_none (hs : text.head? ≠ some ';') (hl : text.head? ≠ some '\n') :
    separatorLexeme text = none := by
  cases text with
  | nil => rfl
  | cons c rest =>
    have hc : c ≠ ';' := by simpa using hs
    have hn : c ≠ '\n' := by simpa using hl
    unfold separatorLexeme
    split
    · rename_i heq
      cases heq
      exact absurd rfl hc
    · simp [hn]

theorem Quiet.separator_fails (h : Quiet text) : Fails separator (rows text pos) :=
  (stands_rows text pos).lexed_fails
    (separatorLexeme_eq_none (h ';' (by decide)) (h '\n' (by decide))) _

/-- The first word of the text is a number or a minus sign. -/
def Bare (text : List Char) : Prop :=
  ∃ c rest, afterGap text = c :: rest ∧ (c.isDigit ∨ c = '-')

theorem Bare.head_ne (h : Bare text) {c : Char} (hd : c.isDigit = false) (hm : c ≠ '-') :
    (afterGap text).head? ≠ some c := by
  obtain ⟨d, rest, htext, hc⟩ := h
  rw [htext]
  rintro ⟨⟩
  rcases hc with hc | hc
  · rw [hc] at hd
    cases hd
  · exact hm hc

theorem Bare.word_fails (h : Bare text) (hs : Stands rs text pos) {word : String} {c : Char}
    (hw : word.toList.head? = some c) (hd : c.isDigit = false) (hm : c ≠ '-')
    (kids : String → Pos → List Tree) : Fails (lexed (spelled word) kids) rs :=
  hs.lexed_fails (spelled_eq_none hw (h.head_ne hd hm)) kids

theorem Bare.separator_fails (h : Bare text) (hs : Stands rs text pos) : Fails separator rs :=
  hs.lexed_fails
    (separatorLexeme_eq_none (h.head_ne rfl (by decide)) (h.head_ne rfl (by decide))) _

theorem Bare.name_fails (h : Bare text) (hs : Stands rs text pos) : Fails name rs := by
  refine hs.lexed_fails ?_ _
  obtain ⟨c, rest, htext, hc⟩ := h
  have hstart : isNameStart c = false := by
    rcases hc with hc | rfl
    · unfold isNameStart Char.isAlpha Char.isUpper Char.isLower
      unfold Char.isDigit at hc
      have : c ≠ '_' := by
        rintro rfl
        exact absurd hc (by decide)
      grind
    · rfl
  rw [htext]
  simp [nameLexeme, hstart]

/-- Readings of the start of a text after which no operator or separator follows. -/
structure Settled (readings : List Reading) (text : List Char) : Prop where
  lengths : readings.Pairwise fun r s => r.length ≠ s.length
  pos : ∀ r ∈ readings, r.length ≠ 0
  le : ∀ r ∈ readings, r.length ≤ text.length
  quiet : ∀ r ∈ readings, Quiet (text.drop r.length)

variable {readings : List Reading}

theorem Settled.drop (h : Settled readings text) (hs : Stands rs text pos) {r : Reading}
    (hr : r ∈ readings) :
    ∃ place, rs.drop r.length = rows (text.drop r.length) place := by
  have hdrop := rows_drop (text.take r.length) (text.drop r.length) pos
  rw [List.take_append_drop, List.length_take_of_le (h.le r hr)] at hdrop
  exact ⟨_, (hs.drop (h.pos r hr)).trans hdrop⟩

theorem Settled.fails (h : Settled readings text) (hs : Stands rs text pos)
    (hp : ∀ {text pos}, Quiet text → Fails p (rows text pos)) {r : Reading} (hr : r ∈ readings) :
    Fails p (rs.drop r.length) := by
  obtain ⟨place, hdrop⟩ := h.drop hs hr
  rw [hdrop]
  exact hp (h.quiet r hr)

/-- A rule of chains passes on what its operands read. -/
theorem Settled.chain (h : Settled readings text) {field inner : Row → Thunk Parse} {label : Label}
    {operator : Parser} (hl : Level field (Grammar.chain label (rule inner) operator) inner)
    (ho : ∀ {text pos}, Quiet text → Fails operator (rows text pos))
    (hr : (rule inner (rows text pos)).readings = readings) :
    (rule field (rows text pos)).readings = readings := by
  obtain ⟨rs, hs, hfield, hinner⟩ := hl.exists_rows text pos
  rw [← hinner] at hr
  rw [hfield, readings_chain label (hr ▸ h.lengths) fun r hm => h.fails hs ho (hr ▸ hm), hr]

theorem Settled.negation (h : Settled readings text) (hb : Bare text)
    (hr : (rule Row.comparison (rows text pos)).readings = readings) :
    (rule Row.negation (rows text pos)).readings = readings := by
  obtain ⟨rs, hs, hfield, hinner⟩ := Level.negation.exists_rows text pos
  have hnot : Fails (node .notExpr ((token .not (spelled "not")).followedBy (rule Row.negation))) rs :=
    ((hb.word_fails hs (c := 'n') rfl rfl (by decide) _).followedBy _).node _
  rw [← hinner] at hr
  rw [hfield, ← hr]
  exact readings_choice_last [_] hnot (hr ▸ h.lengths)

theorem Settled.disjunction (h : Settled readings text) (hb : Bare text)
    (hr : (rule Row.product (rows text pos)).readings = readings) :
    (rule Row.disjunction (rows text pos)).readings = readings := by
  have hsum := h.chain Level.sum Quiet.plusOrMinus_fails hr
  have hcomparison := h.chain Level.comparison Quiet.comparison_fails hsum
  have hnegation := h.negation hb hcomparison
  have hconjunction := h.chain Level.conjunction
    (fun hq => hq.word_fails (c := 'a') rfl (by decide) _) hnegation
  exact h.chain Level.disjunction (fun hq => hq.word_fails (c := 'o') rfl (by decide) _) hconjunction

def Reading.enclosed (label : Label) (r : Reading) : Reading :=
  { r with kids := [.node label r.start r.kids] }

theorem readings_node (label : Label) (p : Parser) (rs : List Row) :
    (node label p rs).readings = (p rs).readings.map (Reading.enclosed label) := rfl

theorem Settled.enclosed (h : Settled readings text) (label : Label) :
    Settled (readings.map (Reading.enclosed label)) text where
  lengths := List.pairwise_map.mpr h.lengths
  pos := List.forall_mem_map.mpr h.pos
  le := List.forall_mem_map.mpr h.le
  quiet := List.forall_mem_map.mpr h.quiet

theorem Settled.conditional (h : Settled readings text)
    (hr : (rule Row.disjunction (rows text pos)).readings = readings) :
    (rule Row.conditional (rows text pos)).readings =
      readings.map (Reading.enclosed .conditionalExpr) := by
  obtain ⟨rs, hs, hfield, hinner⟩ := Level.conditional.exists_rows text pos
  rw [← hinner] at hr
  have hif (q : Parser) :
      Fails ((rule Row.disjunction).followedBy ((word "if").followedBy q)) rs := by
    refine fails_followedBy_of_right fun r hm => Fails.followedBy ?_ q
    exact h.fails hs (fun hq => hq.word_fails (c := 'i') rfl (by decide) _) (hr ▸ hm)
  rw [hfield, Grammar.conditional, readings_node, ← hr]
  congr 1
  exact readings_choice_first [_, _] ⟨hif _, hif _⟩ (hr ▸ h.lengths)

theorem Settled.expr (h : Settled readings text) (hb : Bare text)
    (hr : (rule Row.conditional (rows text pos)).readings = readings) :
    (rule Row.expr (rows text pos)).readings = readings := by
  obtain ⟨rs, hs, hfield, hinner⟩ := Level.expr.exists_rows text pos
  have hword {spelling : String} {c : Char} (hw : spelling.toList.head? = some c)
      (hd : c.isDigit = false) (hm : c ≠ '-') (q : Parser) :
      Fails ((word spelling).followedBy q) rs := (hb.word_fails hs hw hd hm _).followedBy q
  have hfor : Fails forExpr rs := by
    refine (fails_choice ?_).node _
    exact ⟨hword (c := 'f') rfl rfl (by decide) _, hword (c := 'f') rfl rfl (by decide) _⟩
  have hblock : Fails block rs := (hword (c := '(') rfl rfl (by decide) _).node _
  have hprint : Fails printCall rs := by
    refine (fails_choice ?_).node _
    exact ⟨hword (c := 'p') rfl rfl (by decide) _, hword (c := 'p') rfl rfl (by decide) _⟩
  rw [← hinner] at hr
  rw [hfield, ← hr]
  exact readings_choice_last [_, _, _] ⟨hfor, hblock, hprint⟩ (hr ▸ h.lengths)

theorem Settled.statement (h : Settled readings text) (hb : Bare text)
    (hr : (rule Row.expr (rows text pos)).readings = readings) :
    (rule Row.statement (rows text pos)).readings = readings := by
  obtain ⟨rs, hs, hfield, hinner⟩ := Level.statement.exists_rows text pos
  have hassignment : Fails assignment rs := ((hb.name_fails hs).followedBy _).node _
  have hbreak (q : Parser) : Fails ((word "break").followedBy q) rs :=
    (hb.word_fails hs (c := 'b') rfl rfl (by decide) _).followedBy q
  have hnext : Fails (word "next") rs := hb.word_fails hs (c := 'n') rfl rfl (by decide) _
  have hleave : Fails breakStmt rs := by
    refine (fails_choice ?_).node _
    exact ⟨hbreak _, hbreak _, hbreak _, hbreak _⟩
  have hskip : Fails nextStmt rs := by
    refine (fails_choice ?_).node _
    exact ⟨hnext.followedBy _, hnext.followedBy _, hnext.followedBy _, hnext⟩
  rw [← hinner] at hr
  rw [hfield, ← hr]
  exact readings_choice_last [_, _, _] ⟨hassignment, hleave, hskip⟩ (hr ▸ h.lengths)

theorem Reading.append_empty (r : Reading) : r.append .empty = r := by
  obtain ⟨kids, start, length⟩ := r
  simp [Reading.append, Reading.empty]

theorem Reading.empty_append (r : Reading) : Reading.empty.append r = r := by
  obtain ⟨kids, start, length⟩ := r
  simp [Reading.append, Reading.empty]

/-- A repetition that does not start reads nothing. -/
theorem readings_many_followedBy (h : Fails p rs) (q : Parser) :
    ((many p).followedBy q rs).readings = (q rs).readings := by
  rw [readings_followedBy, readings_many h]
  simp only [List.flatMap_cons, List.flatMap_nil, List.append_nil]
  have happend : (Reading.empty.append : Reading → Reading) = id := funext Reading.empty_append
  rw [happend, List.map_id]
  rfl

theorem Settled.statements (h : Settled readings text) (hb : Bare text)
    (hr : (rule Row.statement (rows text pos)).readings = readings)
    (hk : ∀ r ∈ readings, ∃ kid, r.kids = [kid]) :
    (rule Row.statements (rows text pos)).readings =
      readings ++ [⟨[.node .statementList none []], none, 0⟩] := by
  obtain ⟨rs, hs, hfield, hinner⟩ := Level.statements.exists_rows text pos
  rw [← hinner] at hr
  have hseparator : Fails separator rs := hb.separator_fails hs
  have hnone (r) (hm : r ∈ readings) : Fails separator (rs.drop r.length) :=
    h.fails hs Quiet.separator_fails hm
  have hmore : Fails (sequence [many separator, rule Row.statement,
      several (sequence [several separator, rule Row.statement]), many separator]) rs := by
    unfold Fails
    simp only [Parser.sequence]
    rw [readings_many_followedBy hseparator]
    refine fails_followedBy_of_right fun r hm => ?_
    exact ((((hnone r (hr ▸ hm)).followedBy _).followedBy _).followedBy _).followedBy _
  have hlist : (sequence [many separator, rule Row.statement, many separator] rs).readings =
      readings := by
    simp only [Parser.sequence]
    rw [readings_many_followedBy hseparator, readings_followedBy, hr]
    refine (List.flatMap_congr fun r hm => ?_).trans (List.flatMap_singleton' readings)
    rw [readings_many (hnone r hm), List.map_singleton, Reading.append_empty]
  have hlengths : (readings ++ [Reading.empty]).Pairwise fun r s => r.length ≠ s.length := by
    refine List.pairwise_append.mpr ⟨h.lengths, List.pairwise_singleton _ _, ?_⟩
    intro r hm s hempty
    rw [List.mem_singleton.mp hempty]
    exact h.pos r hm
  rw [hfield, Grammar.statements, grouped, wrap]
  dsimp only
  rw [readings_choice]
  simp only [List.flatMap_cons, List.flatMap_nil, List.append_nil]
  rw [hmore, hlist, readings_many hseparator, List.nil_append, distinct_eq_self hlengths,
    List.map_append]
  congr 1
  refine (List.map_congr_left fun r hm => ?_).trans (List.map_id readings)
  obtain ⟨kid, hkid⟩ := hk r hm
  obtain ⟨kids, start, length⟩ := r
  cases hkid
  rfl

/-- A text that is read as a product is a program with this product. -/
theorem parse_product {text : String} {r : Reading} (hb : Bare text.toList)
    (h : Settled (r :: readings) text.toList)
    (hr : (rule Row.product (rows text.toList ⟨1, 1⟩)).readings = r :: readings)
    (hl : r.length = text.toList.length) :
    parse text = .ok (.node .conditionalExpr r.start r.kids) := by
  have he := h.enclosed .conditionalExpr
  have hconditional := h.conditional (h.disjunction hb hr)
  have hprogram := he.statements hb (he.statement hb (he.expr hb hconditional))
    (List.forall_mem_map.mpr fun _ _ => ⟨_, rfl⟩)
  unfold parse
  dsimp only
  rw [hprogram]
  have hwhole : r.length + gapLength false (text.toList.drop r.length) = text.toList.length := by
    rw [hl, List.drop_length]
    rfl
  rw [List.map_cons, List.cons_append, List.filter_cons_of_pos]
  · rfl
  · simpa [Reading.enclosed] using hwhole

end DecimalScript.Grammar
