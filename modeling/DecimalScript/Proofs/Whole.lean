import DecimalScript.Proofs.Precedence
import Mathlib

/-! Expressions as programs. A text that is one expression from its first word to its last is a
program of this expression's tree: no other statement begins with its words, and it is
not a block unless all of it stands in parentheses. -/

namespace DecimalScript.Grammar

open Grammar.Parser

variable {l : Rule} {g : Bool} {ws vs us : List Word} {m rest text : List Char} {f : Form}
  {xs : List Tree} {x : Tree} {pos : Pos}

/-! ### The chosen program -/

theorem Form.pick_grouped (label : Label) :
    (Form.grouped label f).pick text rest pos = (f.pick text rest pos).map (Reading.gathered label) := by
  unfold Form.pick
  change ((f.reads text pos).map (Reading.gathered label)).find? _ = _
  rw [List.find?_map]
  rfl

def Sole (Q : Tree → Prop) (kids : List Tree) : Prop := ∃ x, kids = [x] ∧ Q x

section Chooses
variable {Q : Tree → Prop}

theorem Chooses.grouped (h : Chooses f text rest (Sole Q)) (label : Label) :
    Chooses (.grouped label f) text rest (Sole Q) := by
  intro pos
  obtain ⟨r, hr, kid, hkid, hq⟩ := h pos
  refine ⟨r.gathered label, ?_, kid, ?_, hq⟩
  · rw [Form.pick_grouped, hr]
    rfl
  · unfold Reading.gathered
    rw [hkid]

theorem Leads.no_separators {m' : List Char} (h : Leads Lexes (.many .separator) m m')
    (hm : ∀ m', ¬Lexes .separator m m') : m' = m := by
  cases h with
  | stop => rfl
  | again hsep _ => exact absurd hsep.reads (hm _)

/-- A statement that is all of a text is the program, if no separator stands behind it or before. -/
theorem Chooses.statements (h : Chooses (.rule .statement) text [] (Sole Q))
    (hsep : ∀ m m', m = text ∨ Leads Lexes (.rule .statement) text m → ¬Lexes .separator m m') :
    Chooses (.rule .statements) text [] (Sole Q) := by
  have hs : [] <:+ text := List.nil_suffix
  have hmore : ¬Leads Lexes (.row (.many .separator) [.rule .statement,
      .several (.pair (.several .separator) (.rule .statement)), .many .separator]) text [] := by
    intro hleads
    obtain ⟨m, hbefore, hrest⟩ := hleads.pair_inv
    obtain rfl := hbefore.no_separators fun m' => hsep text m' (.inl rfl)
    obtain ⟨m', hstatement, hrest⟩ := hrest.pair_inv
    obtain ⟨_, hitems, -⟩ := hrest.pair_inv
    obtain ⟨_, hitem, -⟩ := hitems.pair_inv
    obtain ⟨_, hseparators, -⟩ := hitem.pair_inv
    obtain ⟨_, hfirst, -⟩ := hseparators.pair_inv
    exact hsep _ _ (.inr hstatement) hfirst.reads
  have hstatement := h.pair (Picks.stop rfl []) hs (List.suffix_refl _) fun m hm hseparators =>
    (hseparators.no_separators fun m' => hsep m m' (.inr hm)).symm
  have hlist := Chooses.pair (Picks.stop rfl text) hstatement (List.suffix_refl _) hs
    fun m hm _ => hm.no_separators fun m' => hsep text m' (.inl rfl)
  refine Chooses.rule (r := .statements)
    ((Chooses.mono ((hlist.first _).next hs hmore) ?_).grouped _)
  rintro kids ⟨xs, ys, hxs, ⟨kid, zs, ⟨x, rfl, hx⟩, hzs, rfl⟩, rfl⟩
  have hnil {kids : List Tree} (h : Tree.bareAll kids = []) : kids = [] := by
    cases kids with
    | nil => rfl
    | cons kid kids => cases h
  rw [hnil hxs, hnil hzs]
  exact ⟨x, rfl, hx⟩

/-- The chosen reading of all of a text is its program, if nothing else ends before blanks. -/
theorem Chooses.parse {text : String} (h : Chooses (.rule .statements) text.toList [] (Sole Q))
    (hend : ∀ m, Leads Lexes (.rule .statements) text.toList m → afterGap m = [] → m = []) :
    ∃ tree, parse text = .ok tree ∧ Q tree := by
  obtain ⟨r, hr, kid, hkid, hq⟩ := h ⟨1, 1⟩
  have hwhole : ∀ y ∈ (Form.rule .statements).reads text.toList ⟨1, 1⟩,
      (y.length + gapLength false (text.toList.drop y.length) == text.toList.length) =
        (y.length + ([] : List Char).length == text.toList.length) := by
    intro y hy
    obtain ⟨hleads, hle⟩ := Form.reads_follows hy
    rw [Bool.eq_iff_iff, beq_iff_eq, beq_iff_eq, List.length_nil, Nat.add_zero]
    have hgap := gapLength_le false (text.toList.drop y.length)
    rw [List.length_drop] at hgap
    refine ⟨fun hy => ?_, fun hy => by omega⟩
    have hnil := hend _ hleads (List.drop_eq_nil_of_le (by rw [List.length_drop]; omega))
    have := List.drop_eq_nil_iff.mp hnil
    omega
  unfold Form.pick at hr
  obtain ⟨later, hlater⟩ := List.head?_eq_some_iff.mp (List.head?_filter.trans hr)
  have hreads : (Parser.rule Row.statements (rows text.toList ⟨1, 1⟩)).readings =
      (Form.rule .statements).reads text.toList ⟨1, 1⟩ := rfl
  refine ⟨kid, ?_, hq⟩
  unfold Grammar.parse
  dsimp only
  rw [hreads, List.filter_congr hwhole, hlater, List.flatMap_cons, hkid]
  rfl

end Chooses

/-- One tree that is known but for its places. -/
theorem Picks.sole (h : Picks f text rest [x]) : Chooses f text rest (Sole fun t => t.bare = x) := by
  refine Chooses.mono h fun kids hkids => ?_
  cases kids with
  | nil => cases hkids
  | cons kid others =>
    cases others with
    | nil => exact ⟨kid, rfl, (List.cons.inj hkids).1⟩
    | cons other others => cases hkids

/-! ### Parentheses around an expression -/

/-- An operand before an operator does not open a parenthesis that is closed at the end. -/
theorem Expression.not_enclosed (e : Expression (.whole l)) {o : Operator} {rest us : List Word}
    {state : Spot × Nat} (hr : rest ≠ []) (hw : walk freely (.operand, 0) us = some state)
    (h : e.words ++ .op o :: rest = .opening :: (us ++ [.closing])) : False := by
  obtain ⟨w, inner, hwords⟩ := List.exists_cons_of_ne_nil e.words_ne_nil
  rw [hwords, List.cons_append] at h
  obtain ⟨rfl, h⟩ := List.cons.inj h
  obtain ⟨front, last, rfl⟩ := List.eq_nil_or_concat rest |>.resolve_left hr
  have hsplit : (inner ++ .op o :: front) ++ [last] = us ++ [.closing] := by simpa using h
  obtain ⟨rfl, -⟩ := List.append_inj' hsplit rfl
  rw [walk_append] at hw
  obtain ⟨⟨q, d⟩, hinner, -⟩ := Option.bind_eq_some_iff.mp hw
  -- behind the opening parenthesis the operand ends outside of it
  have hraise : walk freely (.operand, 0 + 1) inner = some (q, d + 1) :=
    walk_raise (.inl one_ne_zero) hinner
  have hwalk := walk_freely e.walk_words
  rw [hwords] at hwalk
  cases hwalk.symm.trans hraise

theorem Expression.isGroup_of_enclosed {p : Part} (e : Expression p) {us : List Word}
    {state : Spot × Nat} (hw : walk freely (.operand, 0) us = some state)
    (h : e.words = .opening :: (us ++ [.closing])) : e.isGroup := by
  induction e with
  | number | name => cases us <;> cases h
  | group => rfl
  | sign | not | done | link => cases h
  | power base exponent => exact (base.not_enclosed exponent.words_ne_nil hw h).elim
  | chain hr first o ho second more =>
    exact (first.not_enclosed (List.append_ne_nil_of_left_ne_nil second.words_ne_nil _) hw h).elim
  | lift hr e ih => exact ih h
  | plain e ih => exact ih h
  | choose value condition other =>
    exact (value.not_enclosed (List.append_ne_nil_of_left_ne_nil condition.words_ne_nil _) hw h).elim

theorem Expression.valid_words (e : Expression (.whole l)) : Valid .operand e.words :=
  ⟨0, 0, walk_freely e.walk_words⟩

theorem spell_eq_nil (h : spell false ws = []) : ws = [] := by
  cases ws with
  | nil => rfl
  | cons w ws =>
    have := spell_length_pos w ws
    rw [h] at this
    cases this

/-- All of an expression is a block only if all of it stands in parentheses. -/
theorem Expression.isGroup_of_block (e : Expression (.whole .conditional))
    (h : Leads Lexes .block (spell g e.words) []) : e.isGroup := by
  obtain ⟨m, hopen, m', hinner, hclose⟩ := h.reads
  obtain ⟨vs, hwords, rfl⟩ := lexes_opening hopen
  have hv : Valid .operand vs := by
    have hv := e.valid_words
    rw [hwords] at hv
    obtain ⟨q, d, d', hnext, hv⟩ := hv.next
    cases hnext
    exact hv
  rcases Leads.spanning _ _ _ hinner with hspans | ⟨-, rfl⟩
  · obtain ⟨us, q, rfl, -, front, rfl, hwalk⟩ := (hspans _ _ rfl).2 hv
    obtain ⟨behind, rfl, hnil⟩ := lexes_closing hclose
    obtain rfl := spell_eq_nil hnil.symm
    exact e.isGroup_of_enclosed (walk_freely hwalk) hwords
  · obtain ⟨us, rfl, -⟩ := lexes_closing hclose
    exact absurd hv not_valid_closing

/-! ### Expressions as statements -/

/-- No `=` follows the first word of an expression. -/
theorem Expression.not_assigned (e : Expression (.whole .conditional)) {w : Word}
    (h : e.words = w :: .op .assign :: us)
    (hw : (∃ x, w = .name x) ∨ w = .not ∨
      ∃ o ∈ [Operator.mod, .and, .or, .cond, .otherwise], w = .op o) : False := by
  have hwalk := e.walk_words
  rw [h] at hwalk
  rcases hw with ⟨x, rfl⟩ | rfl | ⟨o, ho, rfl⟩
  · cases hwalk
  · cases hwalk
  · fin_cases ho <;> cases hwalk

theorem Expression.not_assignment (e : Expression (.whole .conditional))
    (h : Leads Lexes (.node .assignment (.row .name [.node .assignOp (.either [.token .assign "=",
      .token .plusAssign "+=", .token .minusAssign "-=", .token .divAssign "/=",
      .token .modAssign "mod="]), .rule .expr])) (spell g e.words) rest) : False := by
  obtain ⟨m, hname, m', hop, hvalue⟩ := h.reads
  obtain ⟨w, vs, hwords, rfl, hw⟩ := lexes_name hname
  rcases hop with hop | hop | hop | hop | hop | hop
  · obtain ⟨us, ⟨rfl, -⟩ | ⟨-, rfl⟩⟩ := lexes_assign hop
    · exact e.not_assigned hwords hw
    · -- behind the first character of `==` no operand begins
      obtain ⟨⟨w, us, hw, hbegins⟩, -⟩ := Leads.spanning.spans (by decide) hvalue _ _ rfl
      cases hw
      cases hbegins
  · exact lexes_absent (by decide) hop
  · exact lexes_absent (by decide) hop
  · exact lexes_absent (by decide) hop
  · exact lexes_absent (by decide) hop
  · cases hop

theorem Expression.picks_expr (e : Expression (.whole .conditional)) (hgroup : e.isGroup = false)
    (g : Bool) : Picks (.rule .expr) (spell g e.words) [] e.trees := by
  have hs : [] <:+ spell g e.words := List.nil_suffix
  have hpicks : Picks (.rule .conditional) (spell g (e.words ++ [])) [] e.trees :=
    e.picks (.inr e.words_ne_nil) ⟨0, 0, rfl⟩
  rw [List.append_nil] at hpicks
  refine Picks.rule (r := .expr) ((((hpicks.first []).next hs fun h => ?_).next hs fun h => ?_).next hs
    fun h => ?_)
  · rcases h.reads with ⟨_, hprint, -⟩ | ⟨_, hprint, -⟩ | h
    · exact lexes_absent (by decide) hprint
    · exact lexes_absent (by decide) hprint
    · cases h
  · rw [e.isGroup_of_block h] at hgroup
    cases hgroup
  · rcases h.reads with ⟨_, hfor, -⟩ | ⟨_, hfor, -⟩ | h
    · exact lexes_absent (by decide) hfor
    · exact lexes_absent (by decide) hfor
    · cases h

theorem Expression.picks_statement (e : Expression (.whole .conditional)) (hgroup : e.isGroup = false)
    (g : Bool) : Picks (.rule .statement) (spell g e.words) [] e.trees := by
  have hs : [] <:+ spell g e.words := List.nil_suffix
  refine Picks.rule (r := .statement) (((((e.picks_expr hgroup g).first []).next hs fun h => ?_).next hs
    fun h => ?_).next hs e.not_assignment)
  · rcases h.reads with ⟨_, hnext, -⟩ | ⟨_, hnext, -⟩ | ⟨_, hnext, -⟩ | hnext | h
    · exact lexes_absent (by decide) hnext
    · exact lexes_absent (by decide) hnext
    · exact lexes_absent (by decide) hnext
    · exact lexes_absent (by decide) hnext
    · cases h
  · rcases h.reads with ⟨_, hbreak, -⟩ | ⟨_, hbreak, -⟩ | ⟨_, hbreak, -⟩ | ⟨_, hbreak, -⟩ | h
    · exact lexes_absent (by decide) hbreak
    · exact lexes_absent (by decide) hbreak
    · exact lexes_absent (by decide) hbreak
    · exact lexes_absent (by decide) hbreak
    · cases h

theorem Expression.exists_trees (e : Expression (.whole .conditional)) : ∃ x, e.trees = [x] := by
  cases e with
  | plain e => exact ⟨_, rfl⟩
  | choose value condition other => exact ⟨_, rfl⟩
  | lift hr e => cases hr
  | chain hr first o ho second more => cases hr

theorem Expression.picks_statements (e : Expression (.whole .conditional)) (hgroup : e.isGroup = false)
    (g : Bool) (hx : e.trees = [x]) :
    Chooses (.rule .statements) (spell g e.words) [] (Sole fun t => t.bare = x) := by
  have hpicks := e.picks_statement hgroup g
  rw [hx] at hpicks
  refine hpicks.sole.statements ?_
  rintro m m' (rfl | hstatement)
  · exact lexes_separator
  · -- the statement ends between words
    obtain ⟨vs, q, rfl, -⟩ := (Leads.spanning.spans (by decide) hstatement _ _ rfl).2 e.valid_words
    exact lexes_separator

/-! ### Texts of expressions -/

theorem spell_eq_intercalate (w : Word) (ws : List Word) :
    spell true (w :: ws) = [' '].intercalate ((w :: ws).map Word.text) := by
  induction ws generalizing w with
  | nil => simp [spell]
  | cons v ws ih =>
    have hv := ih v
    change [] ++ (v.text ++ spell false ws) = _ at hv
    change [] ++ (w.text ++ ([' '] ++ (v.text ++ spell false ws))) = _
    rw [List.nil_append] at hv ⊢
    rw [hv]
    simp [List.intercalate]

theorem Expression.toList_text (e : Expression (.whole l)) : e.text.toList = spell true e.words := by
  obtain ⟨w, ws, hwords⟩ := List.exists_cons_of_ne_nil e.words_ne_nil
  unfold Expression.text
  rw [String.toList_ofList, hwords, spell_eq_intercalate]

/-- Nothing that is read in an expression ends before blanks alone. -/
theorem Expression.end_of_gap (e : Expression (.whole .conditional))
    (h : Leads Lexes (.rule .statements) (spell true e.words) m) (hm : afterGap m = []) : m = [] := by
  have hspelled : ∃ g vs, m = spell g vs := by
    rcases Leads.spanning _ _ _ h with hspans | ⟨-, rfl⟩
    · obtain ⟨vs, q, rfl, -⟩ := (hspans _ _ rfl).2 e.valid_words
      exact ⟨false, vs, rfl⟩
    · exact ⟨true, e.words, rfl⟩
  obtain ⟨g, vs, rfl⟩ := hspelled
  cases vs with
  | nil => rfl
  | cons w vs =>
    obtain ⟨c, letters, hw, -⟩ := w.cons
    rw [afterGap_spell, hw] at hm
    cases hm

/-- The text of an expression, with single blanks between its words and parentheses around the
expressions that stand for operands, is a program whose tree is that of the expression:
operators bind by the rule that they belong to, and the power of a power is taken first. -/
theorem expression_text_parses (e : Expression (.whole .conditional)) (h : e.isGroup = false) :
    ∃ tree, parse e.text = .ok tree ∧ [tree.bare] = e.trees := by
  obtain ⟨x, hx⟩ := e.exists_trees
  have hpicks := e.picks_statements h true hx
  rw [← e.toList_text] at hpicks
  obtain ⟨tree, hparse, rfl⟩ := hpicks.parse (by rw [e.toList_text]; exact fun m => e.end_of_gap)
  exact ⟨tree, hparse, hx.symm⟩

/-- Differences from the left, powers from the right, a sign below them, and a comparison above. -/
theorem expression_text_parses_mixed :
    ∃ tree, parse "1 - 2 - x ** 2 ** - 3 < ( y )" = .ok tree ∧
      [tree.bare] = [.node .conditionalExpr none [.node .comparison none
        [.node .sum none
          [.node .number none [Expression.leaf .number ['1']], Expression.leaf .minus ['-'],
           .node .number none [Expression.leaf .number ['2']], Expression.leaf .minus ['-'],
           .node .power none
            [.node .var none [Expression.leaf .name ['x']], Expression.leaf .pow ['*', '*'],
             .node .power none
              [.node .number none [Expression.leaf .number ['2']], Expression.leaf .pow ['*', '*'],
               .node .unary none
                [Expression.leaf .minus ['-'], .node .number none [Expression.leaf .number ['3']]]]]],
         Expression.leaf .compOp ['<'],
         .node .conditionalExpr none [.node .var none [Expression.leaf .name ['y']]]]]] := by
  let one : Expression (.whole .atom) := .number ⟨['1'], rfl⟩
  let two : Expression (.whole .unary) := .lift rfl (.number ⟨['2'], rfl⟩)
  let three : Expression (.whole .unary) := .lift rfl (.number ⟨['3'], rfl⟩)
  let x : Expression (.whole .unary) := .lift rfl (.name ⟨['x'], rfl, by decide⟩)
  let y : Expression (.whole .power) := .lift rfl (.lift rfl (.name ⟨['y'], rfl, by decide⟩))
  let tower : Expression (.whole .product) :=
    .lift rfl (.power x (.power two (.lift rfl (.sign .minus rfl three))))
  let difference : Expression (.whole .sum) :=
    .chain rfl (.lift rfl (.lift rfl (.lift rfl one))) .minus rfl (.lift rfl (.lift rfl two))
      (.link rfl .minus rfl tower .done)
  let inner : Expression (.whole .conditional) :=
    .plain (.lift rfl (.lift rfl (.lift rfl (.lift rfl (.lift rfl (.lift rfl y))))))
  let group : Expression (.whole .sum) :=
    .lift rfl (.lift rfl (.lift rfl (.lift rfl (.group inner))))
  exact expression_text_parses (.plain (.lift rfl (.lift rfl (.lift rfl
    (.chain rfl difference .below rfl group .done))))) rfl

end DecimalScript.Grammar
