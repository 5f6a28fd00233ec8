import DecimalScript.CommandLine.Override
import DecimalScript.Proofs.PowerRemainder
import DecimalScript.Proofs.Whole
import Mathlib

/-! Names as programs. The lexemes know no ends of words, so a name that begins with a keyword can
also be read as the keyword and what is left of the name. An assignment always finds the
whole name; a name alone is the variable unless such a reading comes first. -/

namespace DecimalScript

namespace Grammar

open Grammar.Parser

variable {r l : Rule} {f g : Form} {label : Label} {w v m text rest : List Char} {P : List Tree → Prop}

/-! ### Texts without blanks and marks -/

/-- All characters are such that a name can have them behind its first. -/
def Solid (text : List Char) : Prop := ∀ c ∈ text, isNamePart c

theorem Solid.suffix (h : Solid text) (hm : m <:+ text) : Solid m := fun c hc => h c (hm.subset hc)

theorem Solid.head_ne (h : Solid text) {c : Char} (hc : isNamePart c = false) :
    text.head? ≠ some c := by
  intro hhead
  rw [h c (List.mem_of_mem_head? hhead)] at hc
  cases hc

theorem not_idle {c : Char} (h : isNamePart c) : c ∉ idle := by
  simp only [idle, List.mem_cons, List.not_mem_nil, or_false]
  rintro (rfl | rfl | rfl | rfl | rfl | rfl | rfl | rfl) <;> cases h

theorem isGap_eq_false {c : Char} (h : isNamePart c) : isGap c = false := by
  have hidle := not_idle h
  simp only [idle, List.mem_cons, not_or] at hidle
  simp [isGap, hidle]

theorem Solid.afterGap (h : Solid text) : afterGap text = text := by
  cases text with
  | nil => rfl
  | cons c rest => exact afterGap_cons (not_idle (h c (List.mem_cons_self ..))) rest

theorem Solid.spelled (h : Solid text) {word : String} (hm : Lexes (.spelled word) text m) :
    text = word.toList ++ m := by
  obtain ⟨n, hn, rfl⟩ := hm
  rw [h.afterGap] at hn ⊢
  obtain ⟨hlength, -⟩ := spelled_le hn
  unfold Kind.lexeme Grammar.spelled at hn
  dsimp only at hn
  split_ifs at hn with hp
  obtain ⟨tail, rfl⟩ := List.isPrefixOf_iff_prefix.mp hp
  rw [hlength, ← String.length_toList, List.drop_left]

theorem Solid.not_spelled (h : Solid text) {word : String} {c : Char}
    (hw : word.toList.head? = some c) (hc : isNamePart c = false) :
    ¬Lexes (.spelled word) text m := by
  rintro ⟨n, hn, -⟩
  rw [h.afterGap] at hn
  cases hn.symm.trans (spelled_eq_none hw (h.head_ne hc))

theorem not_lexes_separator (hs : ';' ∉ text) (hn : '\n' ∉ text) : ¬Lexes .separator text m := by
  rintro ⟨n, hlexeme, -⟩
  have hne {c : Char} (hc : c ∉ text) : (afterGap text).head? ≠ some c := fun hhead =>
    hc ((List.drop_suffix _ _).subset (List.mem_of_mem_head? hhead))
  cases hlexeme.symm.trans (separatorLexeme_eq_none (hne hs) (hne hn))

theorem Solid.not_separator (h : Solid text) : ¬Lexes .separator text m :=
  not_lexes_separator (fun hc => by cases h _ hc) fun hc => by cases h _ hc

theorem nameLexeme_solid {c : Char} (h : Solid (c :: rest)) (hc : isNameStart c) :
    nameLexeme (c :: rest) = some (c :: rest).length := by
  have hall : rest.takeWhile isNamePart = rest :=
    List.takeWhile_eq_self_iff.mpr fun d hd => h d (List.mem_cons_of_mem c hd)
  simp [nameLexeme, hc, hall]

/-- A name goes on to the end of the text. -/
theorem Solid.name (h : Solid text) (hm : Lexes .name text m) :
    m = [] ∧ nameLexeme text = some text.length := by
  obtain ⟨n, hn, rfl⟩ := hm
  rw [h.afterGap] at hn ⊢
  cases text with
  | nil => cases hn
  | cons c rest =>
    have hc : isNameStart c := by
      by_contra hc
      simp [Kind.lexeme, nameLexeme, hc] at hn
    have hall := nameLexeme_solid h hc
    cases hn.symm.trans hall
    exact ⟨List.drop_length, hall⟩

theorem name_cons (h : nameLexeme w = some w.length) :
    ∃ c rest, w = c :: rest ∧ isNameStart c ∧ Solid w := by
  cases w with
  | nil => cases h
  | cons c rest =>
    have hc : isNameStart c := by
      by_contra hc
      simp [nameLexeme, hc] at h
    have hlength : (rest.takeWhile isNamePart).length = rest.length := by
      simpa [nameLexeme, hc] using h
    have hall := (List.takeWhile_prefix isNamePart).eq_of_length hlength
    refine ⟨c, rest, rfl, hc, List.forall_mem_cons.mpr ⟨?_, List.takeWhile_eq_self_iff.mp hall⟩⟩
    unfold isNameStart at hc
    unfold isNamePart Char.isAlphanum
    grind

/-! ### Ways through a name -/

theorem Leads.of_rule (h : Leads Lexes (.rule r) text m) : Leads Lexes r.form text m := by
  cases h with
  | rule h => exact h

theorem Leads.of_node (h : Leads Lexes (.node label f) text m) : Leads Lexes f text m := by
  cases h with
  | node h => exact h

theorem Leads.either_inv {fs : List Form} (h : Leads Lexes (.either (f :: fs)) text m) :
    Leads Lexes f text m ∨ Leads Lexes (.either fs) text m := by
  cases h with
  | either hm h =>
    rcases List.mem_cons.mp hm with rfl | hm
    · exact .inl h
    · exact .inr (.either hm h)

theorem not_leads_nil (hf : f.nullable = false) : ¬Leads Lexes f [] m := fun h =>
  absurd (h.length_lt hf) (Nat.not_lt_zero _)

theorem not_leads_either_nil : ¬Leads Lexes (.either []) text m := by
  intro h
  cases h with
  | either hm => cases hm

/-- Nothing can follow what takes all of the text. -/
theorem Leads.pair_ended (h : Leads Lexes (.pair f g) text m)
    (hf : ∀ m, Leads Lexes f text m → m = []) (hg : g.nullable = false) : False := by
  obtain ⟨m', hfirst, hsecond⟩ := h.pair_inv
  rw [hf m' hfirst] at hsecond
  exact not_leads_nil hg hsecond

theorem Solid.leads_name (h : Solid text) : ∀ m, Leads Lexes .name text m → m = [] :=
  fun _ hm => (h.name hm.reads).1

/-- What begins with a mark cannot be read. -/
theorem Solid.not_marked (h : Solid text) {word : String} {c : Char} {terminal : Option Terminal}
    (hw : word.toList.head? = some c) (hc : isNamePart c = false) :
    ¬Leads Lexes (.lexeme terminal (.spelled word)) text m := fun hm => h.not_spelled hw hc hm.reads

section Name
variable (hw : nameLexeme w = some w.length)
include hw

theorem not_leads_call : ¬Leads Lexes (.node .funcCall (.either
    [Form.enclosed .name (.node .argList (.listOf (.rule .expr))),
      .row .name [.word "(", .word ")"]])) w m := by
  obtain ⟨c, rest, -, -, hsolid⟩ := name_cons hw
  intro h
  rcases h.of_node.either_inv with h | h
  · exact h.pair_ended hsolid.leads_name rfl
  · rcases h.either_inv with h | h
    · exact h.pair_ended hsolid.leads_name rfl
    · exact not_leads_either_nil h

theorem not_leads_numeral : ¬Leads Lexes (.node .number (.lexeme (some .number) .number)) w m := by
  obtain ⟨c, rest, rfl, hc, hsolid⟩ := name_cons hw
  intro h
  obtain ⟨n, hn, -⟩ := h.reads
  rw [hsolid.afterGap] at hn
  obtain ⟨d, tail, htext, hd⟩ := numberLexeme_cons hn
  cases htext
  rw [isNameStart_of_number hd] at hc
  cases hc

theorem not_leads_sign : ¬Leads Lexes (.node .unary (.pair .sign (.rule .unary))) w m := by
  obtain ⟨c, rest, -, -, hsolid⟩ := name_cons hw
  intro h
  obtain ⟨m', hsign, -⟩ := h.of_node.pair_inv
  rcases hsign.either_inv with h | h
  · exact hsolid.not_marked rfl rfl h
  · rcases h.either_inv with h | h
    · exact hsolid.not_marked rfl rfl h
    · exact not_leads_either_nil h

theorem Leads.atom_end (h : Leads Lexes (.rule .atom) w m) : m = [] := by
  obtain ⟨c, rest, -, -, hsolid⟩ := name_cons hw
  rcases h.of_rule.either_inv with h | h
  · exact absurd h (not_leads_numeral hw)
  · rcases h.either_inv with h | h
    · exact absurd h (not_leads_call hw)
    · rcases h.either_inv with h | h
      · exact hsolid.leads_name m h.of_node
      · rcases h.either_inv with h | h
        · obtain ⟨m', hopen, -⟩ := h.pair_inv
          exact absurd hopen (hsolid.not_marked rfl rfl)
        · exact absurd h not_leads_either_nil

theorem Leads.unary_end (h : Leads Lexes (.rule .unary) w m) : m = [] := by
  rcases h.of_rule.either_inv with h | h
  · exact absurd h (not_leads_sign hw)
  · rcases h.either_inv with h | h
    · exact h.atom_end hw
    · exact absurd h not_leads_either_nil

theorem not_leads_power :
    ¬Leads Lexes (.node .power (.row (.rule .unary) [.token .pow "**", .rule .power])) w m :=
  fun h => h.of_node.pair_ended (fun _ h => h.unary_end hw) rfl

theorem Leads.power_end (h : Leads Lexes (.rule .power) w m) : m = [] := by
  rcases h.of_rule.either_inv with h | h
  · exact absurd h (not_leads_power hw)
  · rcases h.either_inv with h | h
    · exact h.unary_end hw
    · exact absurd h not_leads_either_nil

end Name

def Rule.link (r l : Rule) : Form := .pair r.operator (.rule l)

/-- The first alternative of a chain: two operands or more. -/
def Rule.linked (r l : Rule) : Form := .node r.label (.row (.rule l) [r.link l, .many (r.link l)])

theorem Rule.linked_nullable (r l : Rule) :
    (Form.pair (r.link l) (.many (r.link l))).nullable = false := by
  simp [Rule.link, Form.nullable, Rule.operator_nullable]

theorem Leads.chain_inv (hr : r.operand = some l) (h : Leads Lexes (.rule r) text m) :
    Leads Lexes (r.linked l) text m ∨ Leads Lexes (.rule l) text m := by
  have hform := h.of_rule
  rw [Rule.form_chain hr] at hform
  rcases hform.either_inv with h | h
  · exact .inl h
  · rcases h.either_inv with h | h
    · exact .inr h
    · exact absurd h not_leads_either_nil

theorem Leads.chain_linked (hr : r.operand = some l) (h : Leads Lexes (r.linked l) text m) :
    Leads Lexes (.rule r) text m := by
  refine .rule ?_
  rw [Rule.form_chain hr]
  exact .either (List.mem_cons_self ..) h

theorem Leads.chain_single (hr : r.operand = some l) (h : Leads Lexes (.rule l) text m) :
    Leads Lexes (.rule r) text m := by
  refine .rule ?_
  rw [Rule.form_chain hr]
  exact .either (List.mem_cons_of_mem _ (List.mem_cons_self ..)) h

theorem not_leads_linked (hl : ∀ m, Leads Lexes (.rule l) w m → m = []) :
    ¬Leads Lexes (r.linked l) w m :=
  fun h => h.of_node.pair_ended hl (r.linked_nullable l)

theorem Leads.chain_end (hr : r.operand = some l) (hl : ∀ m, Leads Lexes (.rule l) w m → m = []) :
    ∀ m, Leads Lexes (.rule r) w m → m = [] := by
  intro m h
  rcases h.chain_inv hr with h | h
  · exact absurd h (not_leads_linked hl)
  · exact hl m h

/-! ### Negations -/

/-- What is read behind `not`, if the text begins with it. -/
def Negates (f : Form) (text m : List Char) : Prop :=
  ∃ v, text = "not".toList ++ v ∧ Leads Lexes f v m

theorem leads_not (v : List Char) : Leads Lexes (.token .not "not") ("not".toList ++ v) v :=
  .lexeme ⟨3, rfl, rfl⟩

theorem Leads.negated (h : Leads Lexes (.rule .negation) v m) :
    Leads Lexes (.rule .negation) ("not".toList ++ v) m :=
  .rule (.either (List.mem_cons_self ..) (.node (.pair (leads_not v) h)))

theorem Leads.linked_negated (hl : ∀ {m}, Leads Lexes (.rule l) v m → Leads Lexes (.rule l) ("not".toList ++ v) m)
    (h : Leads Lexes (r.linked l) v m) : Leads Lexes (r.linked l) ("not".toList ++ v) m := by
  obtain ⟨m', hfirst, hmore⟩ := h.of_node.pair_inv
  exact .node (.pair (hl hfirst) hmore)

theorem Leads.chain_negated (hr : r.operand = some l)
    (hl : ∀ {m}, Leads Lexes (.rule l) v m → Leads Lexes (.rule l) ("not".toList ++ v) m)
    (h : Leads Lexes (.rule r) v m) : Leads Lexes (.rule r) ("not".toList ++ v) m := by
  rcases h.chain_inv hr with h | h
  · exact (h.linked_negated hl).chain_linked hr
  · exact (hl h).chain_single hr

section Name
variable (hw : nameLexeme w = some w.length)
include hw

theorem Leads.comparison_end (h : Leads Lexes (.rule .comparison) w m) : m = [] :=
  Leads.chain_end rfl (Leads.chain_end rfl (Leads.chain_end rfl fun _ h => h.power_end hw)) m h

/-- A negation that begins like a name goes on to its end, or it is read as such behind `not`. -/
theorem Leads.negation_name (h : Leads Lexes (.rule .negation) w m) :
    m = [] ∨ Negates (.rule .negation) w m := by
  obtain ⟨c, rest, -, -, hsolid⟩ := name_cons hw
  rcases h.of_rule.either_inv with h | h
  · obtain ⟨v, hnot, hinner⟩ := h.of_node.pair_inv
    exact .inr ⟨v, hsolid.spelled hnot.reads, hinner⟩
  · rcases h.either_inv with h | h
    · exact .inl (h.comparison_end hw)
    · exact absurd h not_leads_either_nil

end Name

/-- A chain that begins like a name begins with `not`. -/
theorem Leads.linked_name (hr : r.operand = some l)
    (hl : ∀ m, Leads Lexes (.rule l) w m → m = [] ∨ Negates (.rule l) w m)
    (h : Leads Lexes (r.linked l) w m) : Negates (.rule r) w m := by
  obtain ⟨m', hfirst, hmore⟩ := h.of_node.pair_inv
  rcases hl m' hfirst with rfl | ⟨v, rfl, hv⟩
  · exact absurd hmore (not_leads_nil (r.linked_nullable l))
  · exact ⟨v, rfl, Leads.chain_linked hr (.node (.pair hv hmore))⟩

theorem Leads.chain_name (hr : r.operand = some l)
    (hl : ∀ m, Leads Lexes (.rule l) w m → m = [] ∨ Negates (.rule l) w m) :
    ∀ m, Leads Lexes (.rule r) w m → m = [] ∨ Negates (.rule r) w m := by
  intro m h
  rcases h.chain_inv hr with h | h
  · exact .inr (h.linked_name hr hl)
  · refine (hl m h).imp_right ?_
    rintro ⟨v, rfl, hv⟩
    exact ⟨v, rfl, hv.chain_single hr⟩

/-! ### Names that are read otherwise -/

/-- The names that are read as a statement or as a negation before they are read as variables. -/
inductive Misread : List Char → Prop
  | next {v : List Char} (h : v = [] ∨ nameLexeme v = some v.length) : Misread ("next".toList ++ v)
  | leave {v : List Char} (h : Leads Lexes (.rule .expr) v []) : Misread ("breakwith".toList ++ v)
  | leaveWhen {v u : List Char} (hv : Leads Lexes (.rule .expr) v ("with".toList ++ u))
      (hu : Leads Lexes (.rule .expr) u []) : Misread ("breakwhen".toList ++ v)
  | not {v : List Char} (h : Leads Lexes (.rule .disjunction) v []) : Misread ("not".toList ++ v)

theorem Misread.begins (h : Misread w) :
    ∃ word ∈ ["next", "breakwith", "breakwhen", "not"], word.toList <+: w := by
  cases h with
  | next => exact ⟨"next", by simp, List.prefix_append _ _⟩
  | leave => exact ⟨"breakwith", by simp, List.prefix_append _ _⟩
  | leaveWhen => exact ⟨"breakwhen", by simp, List.prefix_append _ _⟩
  | not => exact ⟨"not", by simp, List.prefix_append _ _⟩

def Form.breakStmt : Form := .node .breakStmt (.either
  [.leave [.fromClause, .whenClause], .leave [.fromClause], .leave [.whenClause], .leave []])

def Form.nextStmt : Form := .node .nextStmt (.either
  [.row (.word "next") [.loopVar, .whenClause], .row (.word "next") [.loopVar],
   .row (.word "next") [.whenClause], .word "next"])

/-- A keyword before what is left of a name. -/
theorem Solid.word (h : Solid text) {word : String} (hm : Leads Lexes (.pair (.word word) f) text m) :
    ∃ v, text = word.toList ++ v ∧ Solid v ∧ Leads Lexes f v m := by
  obtain ⟨v, hword, hv⟩ := hm.pair_inv
  have htext := h.spelled hword.reads
  exact ⟨v, htext, h.suffix ⟨_, htext.symm⟩, hv⟩

/-- A clause with a name goes on to the end of a name. -/
theorem Solid.fromClause (h : Solid text) (hm : Leads Lexes .fromClause text m) : m = [] := by
  obtain ⟨v, -, hv, hname⟩ := h.word hm.of_node
  exact hv.leads_name m hname

section Name
variable (hw : nameLexeme w = some w.length)
include hw

theorem misread_of_break (h : Leads Lexes .breakStmt w []) : Misread w := by
  obtain ⟨c, rest, -, -, hsolid⟩ := name_cons hw
  rcases h.of_node.either_inv with h | h
  · obtain ⟨v, -, hv, h⟩ := hsolid.word h
    exact (h.pair_ended (fun _ => hv.fromClause) rfl).elim
  · rcases h.either_inv with h | h
    · obtain ⟨v, -, hv, h⟩ := hsolid.word h
      exact (h.pair_ended (fun _ => hv.fromClause) rfl).elim
    · rcases h.either_inv with h | h
      · obtain ⟨v, rfl, hv, h⟩ := hsolid.word h
        obtain ⟨m, hwhen, hwith⟩ := h.pair_inv
        obtain ⟨u, rfl, hu, hguard⟩ := hv.word hwhen.of_node
        obtain ⟨u', rfl, -, hvalue⟩ := (hu.suffix hguard.suffix).word hwith
        exact .leaveWhen hguard hvalue
      · rcases h.either_inv with h | h
        · obtain ⟨v, rfl, hv, h⟩ := hsolid.word h
          obtain ⟨u, rfl, -, hvalue⟩ := hv.word h
          exact .leave hvalue
        · exact absurd h not_leads_either_nil

theorem misread_of_next (h : Leads Lexes .nextStmt w []) : Misread w := by
  obtain ⟨c, rest, -, -, hsolid⟩ := name_cons hw
  rcases h.of_node.either_inv with h | h
  · obtain ⟨v, -, hv, h⟩ := hsolid.word h
    exact (h.pair_ended (fun m h => hv.leads_name m h.of_node) rfl).elim
  · rcases h.either_inv with h | h
    · obtain ⟨v, rfl, hv, h⟩ := hsolid.word h
      exact .next (.inr (hv.name h.of_node.reads).2)
    · rcases h.either_inv with h | h
      · -- what begins with `when` is a name too
        obtain ⟨v, rfl, hv, h⟩ := hsolid.word h
        obtain ⟨u, rfl, -, -⟩ := hv.word h.of_node
        exact .next (.inr (nameLexeme_solid hv rfl))
      · rcases h.either_inv with h | h
        · have hnext := hsolid.spelled h.reads
          rw [hnext]
          exact .next (.inl rfl)
        · exact absurd h not_leads_either_nil

end Name

theorem Misread.leads_break_or_next (h : Misread w) :
    Leads Lexes .breakStmt w [] ∨ Leads Lexes .nextStmt w [] ∨ Negates (.rule .disjunction) w [] := by
  cases h with
  | @next v h =>
    have hnext : Leads Lexes (.word "next") ("next".toList ++ v) v := .lexeme ⟨4, rfl, rfl⟩
    refine .inr (.inl (.node ?_))
    rcases h with rfl | h
    · exact .either (by simp) hnext
    · have hname : Leads Lexes .loopVar v [] := by
        obtain ⟨c, rest, -, -, hsolid⟩ := name_cons h
        refine .node (.lexeme ⟨v.length, ?_, ?_⟩)
        · rwa [hsolid.afterGap]
        · rw [hsolid.afterGap, List.drop_length]
      exact .either (f := .row (.word "next") [.loopVar]) (by simp) (.pair hnext hname)
  | @leave v h =>
    have hbreak : Leads Lexes (.word "break") ("breakwith".toList ++ v) ("with".toList ++ v) :=
      .lexeme ⟨5, rfl, rfl⟩
    have hwith : Leads Lexes (.word "with") ("with".toList ++ v) v := .lexeme ⟨4, rfl, rfl⟩
    exact .inl (.node (.either (f := .leave []) (by simp) (.pair hbreak (.pair hwith h))))
  | @leaveWhen v u hv hu =>
    have hbreak : Leads Lexes (.word "break") ("breakwhen".toList ++ v) ("when".toList ++ v) :=
      .lexeme ⟨5, rfl, rfl⟩
    have hwhen : Leads Lexes (.word "when") ("when".toList ++ v) v := .lexeme ⟨4, rfl, rfl⟩
    have hwith : Leads Lexes (.word "with") ("with".toList ++ u) u := .lexeme ⟨4, rfl, rfl⟩
    exact .inl (.node (.either (f := .leave [.whenClause]) (by simp)
      (.pair hbreak (.pair (.node (.pair hwhen hv)) (.pair hwith hu)))))
  | not h => exact .inr (.inr ⟨_, rfl, h⟩)

/-! ### The chosen reading of a name -/

theorem Leads.chooses (h : Leads Lexes f text rest) (hf : f.isProper) :
    Chooses f text rest fun _ => True := by
  intro pos
  obtain ⟨x, hx, hrest⟩ := h.exists_reading hf pos
  have hlength : x.length + rest.length = text.length := by
    have hle := Form.reads_le hx
    rw [← hrest, List.length_drop]
    omega
  have hsome : (f.pick text rest pos).isSome := by
    unfold Form.pick
    rw [List.find?_isSome]
    exact ⟨x, hx, by simpa using hlength⟩
  obtain ⟨y, hy⟩ := Option.isSome_iff_exists.mp hsome
  exact ⟨y, hy, trivial⟩

theorem Chooses.chain {P : List Tree → Prop} (h : Chooses (.rule l) text rest P)
    (hr : r.operand = some l) (hs : rest <:+ text) (hnone : ¬Leads Lexes (r.linked l) text rest) :
    Chooses (.rule r) text rest P := by
  refine Chooses.rule ?_
  rw [Rule.form_chain hr]
  exact (h.first []).next hs hnone

def IsVariable (w : List Char) (x : Tree) : Prop :=
  ∃ p q, x = .node .var p [.token .name (String.ofList w) q]

section Name
variable (hw : nameLexeme w = some w.length)
include hw

theorem chooses_name : Chooses .name w [] (Sole fun x => ∃ q, x = .token .name (String.ofList w) q) := by
  obtain ⟨c, rest, -, -, hsolid⟩ := name_cons hw
  have hname : Kind.name.lexeme (afterGap w) = some w.length := by
    rw [hsolid.afterGap]
    exact hw
  have hchooses := chooses_lexeme (some .name) hname
  rw [hsolid.afterGap, List.drop_length, List.take_length] at hchooses
  refine hchooses.mono ?_
  rintro kids ⟨q, rfl⟩
  exact ⟨_, rfl, q, rfl⟩

theorem chooses_comparison : Chooses (.rule .comparison) w [] (Sole (IsVariable w)) := by
  have hs : [] <:+ w := List.nil_suffix
  have hvar : Chooses (.node .var .name) w [] (Sole (IsVariable w)) := by
    refine ((chooses_name hw).node .var).mono ?_
    rintro kids ⟨p, xs, ⟨x, rfl, q, rfl⟩, rfl⟩
    exact ⟨_, rfl, p, q, rfl⟩
  have hatom : Chooses (.rule .atom) w [] (Sole (IsVariable w)) :=
    Chooses.rule (((hvar.first _).next hs (not_leads_call hw)).next hs (not_leads_numeral hw))
  have hunary : Chooses (.rule .unary) w [] (Sole (IsVariable w)) :=
    Chooses.rule ((hatom.first _).next hs (not_leads_sign hw))
  have hpower : Chooses (.rule .power) w [] (Sole (IsVariable w)) :=
    Chooses.rule ((hunary.first _).next hs (not_leads_power hw))
  have hpower_end : ∀ m, Leads Lexes (.rule .power) w m → m = [] := fun _ h => h.power_end hw
  have hproduct_end := Leads.chain_end (r := .product) rfl hpower_end
  have hproduct := hpower.chain (r := .product) rfl hs (not_leads_linked hpower_end)
  have hsum := hproduct.chain (r := .sum) rfl hs (not_leads_linked hproduct_end)
  exact hsum.chain rfl hs (not_leads_linked (Leads.chain_end rfl hproduct_end))

theorem chooses_disjunction (h : ¬Negates (.rule .disjunction) w []) :
    Chooses (.rule .disjunction) w [] (Sole (IsVariable w)) := by
  have hs : [] <:+ w := List.nil_suffix
  have hnegation : ∀ m, Leads Lexes (.rule .negation) w m → m = [] ∨ Negates (.rule .negation) w m :=
    fun _ h => h.negation_name hw
  have hconjunction := Leads.chain_name (r := .conjunction) rfl hnegation
  have hsingle (h' : Negates (.rule .conjunction) w []) : False := by
    obtain ⟨v, hv, h'⟩ := h'
    exact h ⟨v, hv, h'.chain_single rfl⟩
  have hnot : ¬Leads Lexes (.node .notExpr (.pair (.token .not "not") (.rule .negation))) w [] := by
    obtain ⟨c, rest, -, -, hsolid⟩ := name_cons hw
    intro h'
    obtain ⟨v, hword, hinner⟩ := h'.of_node.pair_inv
    exact hsingle ⟨v, hsolid.spelled hword.reads, hinner.chain_single rfl⟩
  refine Chooses.chain (l := .conjunction) (Chooses.chain (l := .negation) ?_ rfl hs fun h' => ?_)
    rfl hs fun h' => h (h'.linked_name rfl hconjunction)
  · exact Chooses.rule (((chooses_comparison hw).first _).next hs hnot)
  · exact hsingle (h'.linked_name rfl hnegation)

theorem not_leads_for : ¬Leads Lexes (.node .forExpr (.either
    [.loopHead [.word "by", .rule .expr, .block], .loopHead [.block]])) w m := by
  obtain ⟨c, rest, -, -, hsolid⟩ := name_cons hw
  intro h
  rcases h.of_node.either_inv with h | h
  · obtain ⟨v, -, hv, h⟩ := hsolid.word h
    exact h.pair_ended hv.leads_name rfl
  · rcases h.either_inv with h | h
    · obtain ⟨v, -, hv, h⟩ := hsolid.word h
      exact h.pair_ended hv.leads_name rfl
    · exact not_leads_either_nil h

theorem not_leads_print : ¬Leads Lexes (.node .printCall (.either
    [.enclosed (.word "print") (.node .printArgs (.listOf (.node .printArg (.either
      [.lexeme (some .string) .string, .rule .expr])))),
     .row (.word "print") [.word "(", .word ")"]])) w m := by
  obtain ⟨c, rest, -, -, hsolid⟩ := name_cons hw
  have hmark {g : Form} (h : Leads Lexes (.pair (.word "print") (.pair (.word "(") g)) w m) : False := by
    obtain ⟨v, -, hv, h⟩ := hsolid.word h
    obtain ⟨m', hopen, -⟩ := h.pair_inv
    exact hv.not_marked rfl rfl hopen
  intro h
  rcases h.of_node.either_inv with h | h
  · exact hmark h
  · rcases h.either_inv with h | h
    · exact hmark h
    · exact not_leads_either_nil h

/-- What a disjunction chooses is the value of the name. -/
theorem Chooses.expr {Q : Tree → Prop} (h : Chooses (.rule .disjunction) w [] (Sole Q)) :
    Chooses (.rule .expr) w [] (Sole fun x => ∃ p y, Q y ∧ x = .node .conditionalExpr p [y]) := by
  obtain ⟨c, rest, -, -, hsolid⟩ := name_cons hw
  have hs : [] <:+ w := List.nil_suffix
  have hconditional : Chooses (.rule .conditional) w []
      (Sole fun x => ∃ p y, Q y ∧ x = .node .conditionalExpr p [y]) := by
    refine Chooses.rule (r := .conditional) (((h.first _).node _).mono ?_)
    rintro kids ⟨p, xs, ⟨y, rfl, hy⟩, rfl⟩
    exact ⟨_, rfl, p, y, hy, rfl⟩
  have hblock : ¬Leads Lexes .block w [] := by
    intro h
    obtain ⟨m, hopen, -⟩ := h.of_node.pair_inv
    exact hsolid.not_marked rfl rfl hopen
  exact Chooses.rule (r := .expr) ((((hconditional.first _).next hs (not_leads_print hw)).next hs
    hblock).next hs (not_leads_for hw))

theorem not_leads_assignment {g : Form} (hg : g.nullable = false) :
    ¬Leads Lexes (.node .assignment (.pair .name g)) w m := by
  obtain ⟨c, rest, -, -, hsolid⟩ := name_cons hw
  exact fun h => h.of_node.pair_ended hsolid.leads_name hg

theorem chooses_statement (h : ¬Misread w) :
    Chooses (.rule .statement) w [] (Sole fun x => ∃ p y, IsVariable w y ∧
      x = .node .conditionalExpr p [y]) := by
  have hs : [] <:+ w := List.nil_suffix
  have hnot : ¬Negates (.rule .disjunction) w [] := by
    rintro ⟨v, rfl, hv⟩
    exact h (.not hv)
  exact Chooses.rule (r := .statement) ((((((chooses_disjunction hw hnot).expr hw).first _).next hs
    fun hnext => h (misread_of_next hw hnext)).next hs fun hbreak => h (misread_of_break hw hbreak)).next
    hs (not_leads_assignment hw rfl))

end Name

/-! ### What a misread name becomes -/

/-- A statement that jumps, or a truth value. -/
inductive Numberless : Tree → Prop
  | leave {p kids} : Numberless (.node .breakStmt p kids)
  | skip {p kids} : Numberless (.node .nextStmt p kids)
  | or {p q kids} : Numberless (.node .conditionalExpr p [.node .orExpr q kids])
  | and {p q kids} : Numberless (.node .conditionalExpr p [.node .andExpr q kids])
  | not {p q text pos kids} : Numberless
      (.node .conditionalExpr p [.node .notExpr q (.token .not text pos :: kids)])

def IsConnected (x : Tree) : Prop := ∀ p, Numberless (.node .conditionalExpr p [x])

theorem Negates.chooses (h : Negates (.rule .disjunction) w []) :
    Chooses (.rule .disjunction) w [] (Sole IsConnected) := by
  have hs : [] <:+ w := List.nil_suffix
  obtain ⟨v, rfl, hv⟩ := h
  by_cases hor : Leads Lexes (Rule.disjunction.linked .conjunction) ("not".toList ++ v) []
  · refine Chooses.rule (r := .disjunction) (Chooses.first (Chooses.mono
      ((hor.of_node.chooses (by decide)).node .orExpr) ?_) _)
    rintro kids ⟨p, xs, -, rfl⟩
    exact ⟨_, rfl, fun _ => .or⟩
  · have hconjunction : Leads Lexes (.rule .conjunction) v [] :=
      (hv.chain_inv rfl).resolve_left fun h =>
        hor (h.linked_negated (Leads.chain_negated rfl Leads.negated))
    refine Chooses.chain ?_ rfl hs hor
    by_cases hand : Leads Lexes (Rule.conjunction.linked .negation) ("not".toList ++ v) []
    · refine Chooses.rule (r := .conjunction) (Chooses.first (Chooses.mono
        ((hand.of_node.chooses (by decide)).node .andExpr) ?_) _)
      rintro kids ⟨p, xs, -, rfl⟩
      exact ⟨_, rfl, fun _ => .and⟩
    · have hnegation : Leads Lexes (.rule .negation) v [] :=
        (hconjunction.chain_inv rfl).resolve_left fun h => hand (h.linked_negated Leads.negated)
      have hlexeme : (Kind.spelled "not").lexeme (afterGap ("not".toList ++ v)) = some 3 := rfl
      have hword : Chooses (.token .not "not") ("not".toList ++ v) v fun kids =>
          ∃ pos, kids = leaves (some .not) "not" pos := chooses_lexeme (some .not) hlexeme
      refine Chooses.chain (Chooses.rule (r := .negation) (Chooses.first (Chooses.mono
        ((hword.pair (hnegation.chooses rfl) (List.suffix_append _ _) List.nil_suffix ?_).node
          .notExpr) ?_) _)) rfl hs hand
      · exact fun m hm _ => hm.lexeme_unique (leads_not v)
      · rintro kids ⟨p, xs, ⟨xs, ys, ⟨pos, rfl⟩, -, rfl⟩, rfl⟩
        exact ⟨_, rfl, fun _ => .not⟩

theorem Misread.chooses (h : Misread w) (hw : nameLexeme w = some w.length) :
    Chooses (.rule .statement) w [] (Sole Numberless) := by
  have hs : [] <:+ w := List.nil_suffix
  refine Chooses.rule (r := .statement) (Chooses.next ?_ hs (not_leads_assignment hw rfl))
  by_cases hbreak : Leads Lexes .breakStmt w []
  · refine Chooses.first (Chooses.mono ((hbreak.of_node.chooses (by decide)).node .breakStmt) ?_) _
    rintro kids ⟨p, xs, -, rfl⟩
    exact ⟨_, rfl, .leave⟩
  · refine Chooses.next ?_ hs hbreak
    by_cases hnext : Leads Lexes .nextStmt w []
    · refine Chooses.first (Chooses.mono ((hnext.of_node.chooses (by decide)).node .nextStmt) ?_) _
      rintro kids ⟨p, xs, -, rfl⟩
      exact ⟨_, rfl, .skip⟩
    · have hnot := (h.leads_break_or_next.resolve_left hbreak).resolve_left hnext
      refine ((Chooses.mono (hnot.chooses.expr hw) ?_).first _).next hs hnext
      rintro kids ⟨x, rfl, p, y, hy, rfl⟩
      exact ⟨_, rfl, hy p⟩

/-- What is chosen for a name as a statement is the program that it writes. -/
theorem parse_name {w : String} {Q : Tree → Prop} (hw : nameLexeme w.toList = some w.toList.length)
    (h : Chooses (.rule .statement) w.toList [] (Sole Q)) : ∃ tree, parse w = .ok tree ∧ Q tree := by
  obtain ⟨c, rest, -, -, hsolid⟩ := name_cons hw
  refine (h.statements ?_).parse fun m hm hgap => ?_
  · rintro m m' (rfl | hm)
    · exact hsolid.not_separator
    · exact (hsolid.suffix hm.suffix).not_separator
  · rwa [(hsolid.suffix hm.suffix).afterGap] at hgap

/-! ### Assignments -/

theorem afterGap_eq_dropWhile (h : '#' ∉ text) : afterGap text = text.dropWhile isGap := by
  unfold afterGap
  induction text with
  | nil => rfl
  | cons c rest ih =>
    have hc : c ≠ '#' := fun hc => h (hc ▸ List.mem_cons_self ..)
    by_cases hgap : isGap c
    · simp [gapLength, hgap, ih fun hr => h (List.mem_cons_of_mem c hr)]
    · simp [gapLength, hgap, hc]

/-- A text without comments whose last character is no blank does not end with blanks. -/
theorem eq_nil_of_afterGap {ends : List Char} {c : Char} (h : '#' ∉ ends ++ [c]) (hc : isGap c = false)
    (hs : m <:+ ends ++ [c]) (hm : afterGap m = []) : m = [] := by
  by_contra hne
  rw [afterGap_eq_dropWhile fun hr => h (hs.subset hr), List.dropWhile_eq_nil_iff] at hm
  have hlast := hm _ (List.getLast_mem hne)
  rw [hs.getLast hne, List.getLast_append_singleton, hc] at hlast
  cases hlast

def assigning (w : String) (negative : Bool) (n : Nat) : String := w ++ " = " ++ literal negative n

def IsAssignment (w : String) (negative : Bool) (n : Nat) (x : Tree) : Prop :=
  ∃ p p₁ p₂ p₃ p₄, x = .node .assignment p [.token .name w p₁,
    .node .assignOp p₂ [.token .assign "=" p₃],
    .node .conditionalExpr (some p₄) [literalTree negative n p₄]]

theorem assigning_toList (w : String) (negative : Bool) (n : Nat) :
    (assigning w negative n).toList =
      w.toList ++ (" = ".toList ++ signedText negative (Nat.toDigits 10 n)) := by
  unfold assigning
  rw [String.toList_append, String.toList_append, literal_toList, List.append_assoc]

/-- The value behind the equals sign is the number. -/
theorem chooses_literal (negative : Bool) (n : Nat) :
    Chooses (.rule .expr) (' ' :: signedText negative (Nat.toDigits 10 n)) [] (Sole fun x =>
      ∃ p, x = .node .conditionalExpr (some p) [literalTree negative n p]) := by
  intro pos
  have hreads := (numeral_digits n (.inl rfl)).expr 1 negative pos
  rw [signedTree_digits] at hreads
  have htext : blanks 1 ++ signedText negative (Nat.toDigits 10 n) =
      ' ' :: signedText negative (Nat.toDigits 10 n) := rfl
  rw [htext] at hreads
  unfold Form.pick
  change ∃ x, List.find? _ (rule Row.expr (rows (' ' :: signedText _ _) pos)).readings = some x ∧ _
  rw [hreads]
  refine ⟨_, List.find?_cons_of_pos ?_, _, rfl, advance pos (blanks 1), rfl⟩
  simp
  omega

theorem chooses_assignOp (t : List Char) :
    Chooses (.node .assignOp (.either [.token .assign "=", .token .plusAssign "+=",
      .token .minusAssign "-=", .token .divAssign "/=", .token .modAssign "mod="]))
      (" = ".toList ++ t) (' ' :: t) (Sole fun x => ∃ p q, x = .node .assignOp p [.token .assign "=" q]) := by
  have hlexeme : (Kind.spelled "=").lexeme (afterGap (" = ".toList ++ t)) = some 1 := rfl
  have hassign : Chooses (.token .assign "=") (" = ".toList ++ t) (' ' :: t) fun kids =>
      ∃ q, kids = leaves (some .assign) "=" q := chooses_lexeme (some .assign) hlexeme
  refine ((hassign.first _).node _).mono ?_
  rintro kids ⟨p, xs, ⟨q, rfl⟩, rfl⟩
  exact ⟨_, rfl, p, q, rfl⟩

theorem Leads.assignOp_end {t : List Char}
    (h : Leads Lexes (.node .assignOp (.either [.token .assign "=", .token .plusAssign "+=",
      .token .minusAssign "-=", .token .divAssign "/=", .token .modAssign "mod="]))
      (" = ".toList ++ t) m) : m = ' ' :: t := by
  rcases h.reads with ⟨n, hn, rfl⟩ | ⟨n, hn, -⟩ | ⟨n, hn, -⟩ | ⟨n, hn, -⟩ | ⟨n, hn, -⟩ | h
  · cases hn
    rfl
  · cases hn
  · cases hn
  · cases hn
  · cases hn
  · cases h

theorem chooses_assigning (hw : nameLexeme w = some w.length) (negative : Bool) (n : Nat) :
    Chooses (.rule .statement) (w ++ (" = ".toList ++ signedText negative (Nat.toDigits 10 n))) []
      (Sole (IsAssignment (String.ofList w) negative n)) := by
  obtain ⟨c, rest, hcons, -, hsolid⟩ := name_cons hw
  generalize htail : signedText negative (Nat.toDigits 10 n) = tail
  have hgap : afterGap (w ++ (" = ".toList ++ tail)) = w ++ (" = ".toList ++ tail) := by
    rw [hcons]
    exact afterGap_cons (not_idle (hsolid c (by simp [hcons]))) _
  have hlexeme : Kind.name.lexeme (afterGap (w ++ (" = ".toList ++ tail))) = some w.length := by
    rw [hgap, Kind.lexeme_ends rfl (by simp [hcons]) (.inr rfl)]
    exact hw
  have hname := chooses_lexeme (some .name) hlexeme
  rw [hgap, List.drop_left, List.take_left] at hname
  have hvalue := chooses_literal negative n
  rw [htail] at hvalue
  have hop := (chooses_assignOp tail).pair hvalue ⟨[' ', '='], rfl⟩ List.nil_suffix
    fun m hm _ => hm.assignOp_end
  have hall := hname.pair hop (List.suffix_append _ _) List.nil_suffix fun m hm _ =>
    hm.lexeme_unique (.lexeme ⟨w.length, hlexeme, by rw [hgap, List.drop_left]⟩)
  refine Chooses.rule (r := .statement) (Chooses.first (Chooses.mono (hall.node .assignment) ?_) _)
  rintro kids ⟨p, xs, ⟨xs, ys, ⟨p₁, rfl⟩, ⟨xs, ys, ⟨x, rfl, p₂, p₃, rfl⟩, ⟨y, rfl, p₄, rfl⟩, rfl⟩, rfl⟩,
    rfl⟩
  exact ⟨_, rfl, p, p₁, p₂, p₃, p₄, rfl⟩

/-- An assignment finds its name, whatever the name begins with. -/
theorem parse_assigning {w : String} (hw : nameLexeme w.toList = some w.toList.length)
    (negative : Bool) (n : Nat) :
    ∃ tree, parse (assigning w negative n) = .ok tree ∧ IsAssignment w negative n tree := by
  obtain ⟨c, rest, -, -, hsolid⟩ := name_cons hw
  have htext := assigning_toList w negative n
  have hpart : ∀ c ∈ Nat.toDigits 10 n, isNamePart c := by
    intro c hc
    have hdigit : c.isDigit := Nat.isDigit_of_mem_toDigits (by norm_num) le_rfl hc
    simp [isNamePart, Char.isAlphanum, hdigit]
  have hchars : ∀ c ∈ (assigning w negative n).toList, isNamePart c ∨ c ∈ [' ', '=', '-'] := by
    intro c hc
    rw [htext] at hc
    rcases List.mem_append.mp hc with hc | hc
    · exact .inl (hsolid c hc)
    · rcases List.mem_append.mp hc with hc | hc
      · simp at hc
        rcases hc with rfl | rfl | rfl <;> simp
      · unfold signedText at hc
        rcases List.mem_append.mp hc with hc | hc
        · cases negative with
          | false => cases hc
          | true => exact .inr (by simp_all)
        · exact .inl (hpart c hc)
  have hnone {d : Char} (hd : isNamePart d = false) (hd' : d ∉ [' ', '=', '-']) :
      d ∉ (assigning w negative n).toList := by
    intro hc
    rcases hchars d hc with h | h
    · rw [h] at hd
      cases hd
    · exact hd' h
  have hchooses := chooses_assigning hw negative n
  rw [← htext, String.ofList_toList] at hchooses
  have hsep : ∀ m m', m <:+ (assigning w negative n).toList → ¬Lexes .separator m m' :=
    fun m m' hs => not_lexes_separator (fun hc => hnone rfl (by decide) (hs.subset hc))
      fun hc => hnone rfl (by decide) (hs.subset hc)
  refine (hchooses.statements ?_).parse fun m hm hgap => ?_
  · rintro m m' (rfl | hm)
    · exact hsep _ _ (List.suffix_refl _)
    · exact hsep _ _ hm.suffix
  · obtain ⟨front, last, hlast⟩ := (List.eq_nil_or_concat (Nat.toDigits 10 n)).resolve_left
      Nat.toDigits_ne_nil
    have hends : ∃ ends, (assigning w negative n).toList = ends ++ [last] := by
      rw [htext, hlast]
      exact ⟨w.toList ++ (" = ".toList ++ signedText negative front), by simp [signedText]⟩
    obtain ⟨ends, hends⟩ := hends
    have hblank : isGap last = false := isGap_eq_false (hpart last (by simp [hlast]))
    have hmark := hnone (d := '#') rfl (by decide)
    have hs := hm.suffix
    rw [hends] at hmark hs
    exact eq_nil_of_afterGap hmark hblank hs hgap

end Grammar

/-! ### Values -/

open Grammar Run

variable {s : State} {w : String} {negative : Bool} {n : Nat} {x : Tree}

/-- The calculation gives no number, if it gives a value. -/
def NoNumber (run : Run Value) : Prop := ∀ s, Ensures run s (fun a _ => ∀ d, a ≠ .decimal d) fun _ _ => True

theorem noNumber_bind {α : Type} (run : Run α) {f : α → Run Value} (h : ∀ a, NoNumber (f a)) :
    NoNumber (run >>= f) := fun _ => Ensures.bind ensures_true fun a t _ _ => h a t

theorem noNumber_pure {a : Value} (h : ∀ d, a ≠ .decimal d) : NoNumber (pure a) := fun _ => h

theorem noNumber_throw (e : Exit) : NoNumber (throw e) := fun _ => trivial

theorem noNumber_boolean (limit : Nat) (connective : Connective) (item : Term) :
    NoNumber (eval limit (.boolean connective item)) :=
  noNumber_bind _ fun _ => noNumber_bind _ fun _ => noNumber_pure (by simp)

theorem noNumber_connected (limit : Nat) (connective : Connective) (left right : Term) :
    NoNumber (eval limit (.connected connective left right)) := by
  refine noNumber_bind _ fun _ => noNumber_bind _ fun first => ?_
  split_ifs
  · exact noNumber_pure (by simp)
  · exact noNumber_bind _ fun _ => noNumber_bind _ fun _ => noNumber_pure (by simp)

theorem noNumber_foldl (limit : Nat) (connective : Connective) (more : List Term) {left : Term}
    (h : NoNumber (eval limit left)) :
    NoNumber (eval limit (more.foldl (.connected connective) left)) := by
  induction more generalizing left with
  | nil => exact h
  | cons right more ih => exact ih (noNumber_connected limit connective left right)

theorem noNumber_connective (limit : Nat) (connective : Connective) (parts : List Part) :
    NoNumber (eval limit (Term.ofConnective connective parts)) := by
  cases parts with
  | nil => exact noNumber_throw _
  | cons first rest =>
    exact noNumber_foldl limit connective _ (noNumber_boolean limit connective first.term)

theorem Grammar.Numberless.noNumber (h : Numberless x) (limit : Nat) :
    NoNumber (eval limit (Term.ofTree x)) := by
  cases h with
  | leave =>
    refine noNumber_bind _ fun _ => noNumber_bind _ fun value => ?_
    split_ifs
    · exact noNumber_bind _ fun _ => noNumber_throw _
    · exact noNumber_pure (by simp)
  | skip =>
    refine noNumber_bind _ fun _ => noNumber_bind _ fun value => ?_
    split_ifs
    · exact noNumber_throw _
    · exact noNumber_pure (by simp)
  | or => exact noNumber_connective limit .or _
  | and => exact noNumber_connective limit .and _
  | @not p q text pos kids =>
    cases kids with
    | nil => exact noNumber_pure (by simp)
    | cons kid kids =>
      refine noNumber_bind _ fun value => ?_
      cases value with
      | bool b => exact noNumber_pure (by simp)
      | _ => exact noNumber_throw _

theorem Grammar.Numberless.not_ok (h : Numberless x) (limit : Nat) (s : State) (d : Decimal) :
    (eval limit (Term.ofTree x) s).1.mapError Failure.exit ≠ .ok (.decimal d) := by
  have hensures := h.noNumber limit s
  cases hrun : eval limit (Term.ofTree x) s with
  | mk result t =>
    cases result with
    | error e => simp [Except.mapError]
    | ok value => simpa [Except.mapError] using hensures.of_ok hrun d

theorem ofTree_assigning (h : IsAssignment w negative n x) :
    ∃ q p, Term.ofTree x = .assign w q (.ok .set) (literalTerm negative n) p := by
  obtain ⟨p, p₁, p₂, p₃, p₄, rfl⟩ := h
  refine ⟨p₁, p, ?_⟩
  rw [← ofTree_literalTree negative n p₄]
  cases negative <;> rfl

theorem ofTree_variable {y : Tree} (h : IsVariable w.toList y) (p : Option Pos) :
    ∃ q, Term.ofTree (.node .conditionalExpr p [y]) = .var w q := by
  obtain ⟨p', q, rfl⟩ := h
  rw [String.ofList_toList]
  exact ⟨q, rfl⟩

theorem eval_assigning (hd : 0 < s.digits) (h : s.Writes n) (limit : Nat) (w : String) (q : Pos)
    (negative : Bool) (p : Option Pos) :
    eval limit (.assign w q (.ok .set) (literalTerm negative n) p) s =
      (.ok .none, { s with env := s.env.set w (.decimal (s.literal negative n)) }) := by
  rw [eval, bind_of_ok (eval_literal hd h.room limit negative)]
  rfl

theorem eval_variable {value : Value} (h : s.env.get? w = some value) (limit : Nat) (q : Pos) :
    eval limit (.var w q) s = (.ok value, s) := by
  rw [eval, bind_of_ok (get_apply s), h]
  rfl

/-- A number that has no room is not even read. -/
theorem eval_literal_traps (h : ¬s.Writes n) (limit : Nat) (negative : Bool) :
    ∃ trap, eval limit (literalTerm negative n) s = (.error (.fault (.trap trap)), s) := by
  have hnumber : ∃ trap, eval limit (.number n.repr) s = (.error (.fault (.trap trap)), s) := by
    have htext := Decimal.ofText_repr_eq n
    split_ifs at htext
    · cases hround : (Decimal.ofNat n).toPlaces s.digits s.places with
      | ok y => exact absurd ⟨y, hround⟩ h
      | error trap =>
        refine ⟨trap, ?_⟩
        rw [eval, bind_of_ok (decimal_ok htext s), bind_of_error (round_error hround)]
    · refine ⟨.invalidOperation, ?_⟩
      rw [eval, bind_of_error (decimal_error htext s)]
  obtain ⟨trap, htrap⟩ := hnumber
  refine ⟨trap, ?_⟩
  cases negative with
  | false => exact htrap
  | true =>
    change eval limit (.signed true (.number n.repr)) s = _
    rw [eval, bind_of_error htrap]

/-- A name and the number that was assigned to it. The assignment gives the whole name the number,
if the number can be written in the state. The name alone then gives the number back if
and only if it is not one of the names that are read as a jump or as a negation. -/
theorem assigned_name_reads_back_unless_misread (limit : Nat) (s : State) (w : String)
    (negative : Bool) (n : Nat) (hd : 0 < s.digits) (hw : CommandLine.isName w.toList) :
    (s.Writes n → ∃ t, s.executeWithin limit (assigning w negative n) = (.ok .none, t) ∧
      t.env.get? w = some (.decimal (s.literal negative n)) ∧
      ((t.executeWithin limit w).1 = .ok (.decimal (s.literal negative n)) ↔ ¬Misread w.toList)) ∧
    (¬s.Writes n → ∃ trap, (s.executeWithin limit (assigning w negative n)).1 =
      .error (.exit (.fault (.trap trap)))) := by
  have hw : nameLexeme w.toList = some w.toList.length := by simpa [CommandLine.isName] using hw
  obtain ⟨tree, hparse, htree⟩ := parse_assigning hw negative n
  obtain ⟨q, p, hterm⟩ := ofTree_assigning htree
  rw [State.executeWithin_ok hparse, hterm]
  generalize hstart : ({ s with source := Text.lines (assigning w negative n), output := [] } : State) = t
  have hdigits : t.digits = s.digits := by rw [← hstart]
  have hplaces : t.places = s.places := by rw [← hstart]
  have hliteral : s.literal negative n = t.literal negative n := by
    unfold State.literal State.kept
    rw [hdigits, hplaces]
  have hwrites : t.Writes n ↔ s.Writes n := by
    unfold State.Writes
    rw [hdigits, hplaces]
  constructor
  · intro hn
    rw [eval_assigning (by rwa [hdigits]) (hwrites.mpr hn), hliteral]
    have hget : (t.env.set w (.decimal (t.literal negative n))).get? w =
        some (.decimal (t.literal negative n)) := by simp
    refine ⟨_, rfl, hget, ?_⟩
    constructor
    · intro hvalue hmisread
      obtain ⟨tree, hparse, hless⟩ := parse_name hw (hmisread.chooses hw)
      rw [State.executeWithin_ok hparse] at hvalue
      exact hless.not_ok limit _ _ hvalue
    · intro hmisread
      obtain ⟨tree, hparse, p', y, hy, rfl⟩ := parse_name hw (chooses_statement hw hmisread)
      obtain ⟨q', hvar⟩ := ofTree_variable hy p'
      rw [State.executeWithin_ok hparse, hvar, eval_variable hget]
      rfl
  · intro hn
    obtain ⟨trap, htrap⟩ := eval_literal_traps (fun h => hn (hwrites.mp h)) limit negative
    refine ⟨trap, ?_⟩
    rw [eval, bind_of_error htrap]
    rfl

/-- A name that only begins like a keyword is read back. -/
theorem assigned_name_reads_back_unless_misread_breakfast :
    State.Writes {} 5 ∧ ¬Misread "breakfast".toList ∧
    ∃ t, State.executeWithin 0 "breakfast = -5" {} = (.ok .none, t) ∧
      (t.executeWithin 0 "breakfast").1 = .ok (.decimal (.finite true 50000000000 (-10))) := by
  have hwrites : State.Writes {} 5 := initial_writes_iff.mpr (by decide)
  have hread : ¬Misread "breakfast".toList := by
    intro h
    obtain ⟨word, hword, hbegins⟩ := h.begins
    have hnone : ∀ word ∈ ["next", "breakwith", "breakwhen", "not"],
        ¬word.toList <+: "breakfast".toList := by decide +kernel
    exact hnone word hword hbegins
  have hmain := assigned_name_reads_back_unless_misread 0 {} "breakfast" true 5 (by decide) rfl
  obtain ⟨t, hassigned, -, hvalue⟩ := hmain.1 hwrites
  exact ⟨hwrites, hread, t, hassigned, hvalue.mpr hread⟩

/-- A name that begins with `not` is read as a negation, although it was assigned to. -/
theorem nothing_reads_as_negation :
    (State.executeWithin 0 "nothing = 5" {}).2.env.get? "nothing" =
      some (.decimal (.finite false 50000000000 (-10))) ∧
    ((State.executeWithin 0 "nothing = 5" {}).2.executeWithin 0 "nothing").1 =
      .error (.exit (.fault (.script (.unbound "hing") (some ⟨1, 4⟩)))) := by
  decide +kernel

end DecimalScript
