import DecimalScript.Proofs.Phrase
import Mathlib

/-! The rules of the language as data. The parser of a rule is that of its form, so what is to
be said of all rules can be said by recursion on forms, and what depends on a rule alone
is calculated from its form. -/

namespace DecimalScript.Grammar

open Grammar.Parser

/-- The rules that each place of a text has a parse of. -/
inductive Rule where
  | atom | unary | power | product | sum | comparison | negation | conjunction | disjunction
  | conditional | expr | statement | statements
  deriving DecidableEq

def Rule.field : Rule → Row → Thunk Parse
  | .atom => Row.atom
  | .unary => Row.unary
  | .power => Row.power
  | .product => Row.product
  | .sum => Row.sum
  | .comparison => Row.comparison
  | .negation => Row.negation
  | .conjunction => Row.conjunction
  | .disjunction => Row.disjunction
  | .conditional => Row.conditional
  | .expr => Row.expr
  | .statement => Row.statement
  | .statements => Row.statements

inductive Kind where
  | name | number | string | separator | comparison
  | spelled (word : String)

def Kind.lexeme : Kind → Lexeme
  | .name => nameLexeme
  | .number => numberLexeme
  | .string => stringLexeme
  | .separator => separatorLexeme
  | .comparison => comparisonLexeme
  | .spelled word => Grammar.spelled word

/-- What a rule reads. -/
inductive Form where
  /-- A lexeme, which becomes a token if there is a terminal for it. -/
  | lexeme (terminal : Option Terminal) (kind : Kind)
  | rule (rule : Rule)
  | pair (first second : Form)
  | either (forms : List Form)
  | many (form : Form)
  | node (label : Label) (form : Form)
  | grouped (label : Label) (form : Form)

def leaves (terminal : Option Terminal) (text : String) (pos : Pos) : List Tree :=
  (terminal.map fun terminal => Tree.token terminal text pos).toList

namespace Form

mutual

def parser : Form → Parser
  | .lexeme terminal kind => lexed kind.lexeme (leaves terminal)
  | .rule r => Parser.rule r.field
  | .pair first second => (parser first).followedBy (parser second)
  | .either forms => choice (parsers forms)
  | .many form => Parser.many (parser form)
  | .node label form => Parser.node label (parser form)
  | .grouped label form => Parser.grouped label (parser form)

def parsers : List Form → List Parser
  | [] => []
  | form :: rest => parser form :: parsers rest

end

theorem parsers_eq (forms : List Form) : parsers forms = forms.map parser := by
  induction forms with
  | nil => rw [parsers, List.map_nil]
  | cons form rest ih => rw [parsers, ih, List.map_cons]

/-- What holds of a form whenever it holds of its parts holds of all forms. -/
theorem parts_induction {P : Form → Prop} (lexeme : ∀ terminal kind, P (.lexeme terminal kind))
    (rule : ∀ r, P (.rule r)) (pair : ∀ f g, P f → P g → P (.pair f g))
    (either : ∀ forms, (∀ f ∈ forms, P f) → P (.either forms)) (many : ∀ f, P f → P (.many f))
    (node : ∀ label f, P f → P (.node label f)) (grouped : ∀ label f, P f → P (.grouped label f))
    (form : Form) : P form :=
  @Form.rec P (fun forms => ∀ f ∈ forms, P f) lexeme rule pair either many node grouped
    (by simp) (fun _ _ hf hr => List.forall_mem_cons.mpr ⟨hf, hr⟩) form

/-! ### The forms of the rules -/

def word (spelling : String) : Form := .lexeme none (.spelled spelling)

def token (terminal : Terminal) (spelling : String) : Form := .lexeme (some terminal) (.spelled spelling)

def name : Form := .lexeme (some .name) .name

def separator : Form := .lexeme (some .sep) .separator

def several (form : Form) : Form := .pair form (.many form)

def row (first : Form) : List Form → Form
  | [] => first
  | next :: rest => .pair first (row next rest)

def listOf (item : Form) : Form := .pair item (.many (.pair (word ",") item))

/-- Operands with operators between them, or one operand. -/
def chain (label : Label) (operand : Rule) (operator : Form) : Form :=
  .either [.node label (row (.rule operand) [.pair operator (.rule operand),
    .many (.pair operator (.rule operand))]), .rule operand]

def sign : Form := .either [token .plus "+", token .minus "-"]

def enclosed (head : Form) (inner : Form) : Form := row head [word "(", inner, word ")"]

def block : Form := .node .block (row (word "(") [.rule .statements, word ")"])

def loopHead (rest : List Form) : Form :=
  row (word "for") ([name, word "in", .rule .expr, word "..", .rule .expr] ++ rest)

def fromClause : Form := .node .fromClause (.pair (word "from") name)

def whenClause : Form := .node .whenClause (.pair (word "when") (.rule .expr))

def loopVar : Form := .node .loopVar name

def leave (clauses : List Form) : Form :=
  row (word "break") (clauses ++ [word "with", .rule .expr])

end Form

def Rule.form : Rule → Form
  | .atom => .either
    [.node .number (.lexeme (some .number) .number),
     .node .funcCall (.either
       [Form.enclosed .name (.node .argList (.listOf (.rule .expr))),
        .row .name [.word "(", .word ")"]]),
     .node .var .name,
     .row (.word "(") [.rule .conditional, .word ")"]]
  | .unary => .either [.node .unary (.pair .sign (.rule .unary)), .rule .atom]
  | .power => .either
    [.node .power (.row (.rule .unary) [.token .pow "**", .rule .power]), .rule .unary]
  | .product => .chain .product .power
    (.either [.token .star "*", .token .slash "/", .token .mod "mod"])
  | .sum => .chain .sum .product .sign
  | .comparison => .chain .comparison .sum (.lexeme (some .compOp) .comparison)
  | .negation => .either
    [.node .notExpr (.pair (.token .not "not") (.rule .negation)), .rule .comparison]
  | .conjunction => .chain .andExpr .negation (.token .and "and")
  | .disjunction => .chain .orExpr .conjunction (.token .or "or")
  | .conditional => .node .conditionalExpr (.either
    [.rule .disjunction,
     .row (.rule .disjunction) [.word "if", .rule .disjunction, .word "else",
       .several .separator, .rule .conditional],
     .row (.rule .disjunction) [.word "if", .rule .disjunction, .word "else",
       .rule .conditional]])
  | .expr => .either
    [.node .forExpr (.either
       [.loopHead [.word "by", .rule .expr, .block], .loopHead [.block]]),
     .block,
     .node .printCall (.either
       [.enclosed (.word "print") (.node .printArgs (.listOf (.node .printArg (.either
          [.lexeme (some .string) .string, .rule .expr])))),
        .row (.word "print") [.word "(", .word ")"]]),
     .rule .conditional]
  | .statement => .either
    [.node .assignment (.row .name
       [.node .assignOp (.either [.token .assign "=", .token .plusAssign "+=",
          .token .minusAssign "-=", .token .divAssign "/=", .token .modAssign "mod="]),
        .rule .expr]),
     .node .breakStmt (.either
       [.leave [.fromClause, .whenClause], .leave [.fromClause], .leave [.whenClause], .leave []]),
     .node .nextStmt (.either
       [.row (.word "next") [.loopVar, .whenClause], .row (.word "next") [.loopVar],
        .row (.word "next") [.whenClause], .word "next"]),
     .rule .expr]
  | .statements => .grouped .statementList (.either
    [.row (.many .separator) [.rule .statement,
       .several (.pair (.several .separator) (.rule .statement)), .many .separator],
     .row (.many .separator) [.rule .statement, .many .separator],
     .many .separator])

def Rule.parser : Rule → Parser
  | .atom => Grammar.atom
  | .unary => Grammar.unary
  | .power => Grammar.power
  | .product => Grammar.product
  | .sum => Grammar.sum
  | .comparison => Grammar.comparison
  | .negation => Grammar.negation
  | .conjunction => Grammar.conjunction
  | .disjunction => Grammar.disjunction
  | .conditional => Grammar.conditional
  | .expr => Grammar.expr
  | .statement => Grammar.statement
  | .statements => Grammar.statements

theorem Rule.parser_form (r : Rule) : r.form.parser = r.parser := by
  cases r <;> rfl

/-! ### Derivations -/

section Leads
variable {σ : Type} (step : Kind → σ → σ → Prop)

/-- A form leads from one place to another by steps over lexemes. -/
inductive Leads : Form → σ → σ → Prop
  | lexeme {terminal kind s t} (h : step kind s t) : Leads (.lexeme terminal kind) s t
  | rule {r s t} (h : Leads r.form s t) : Leads (.rule r) s t
  | pair {f g s m t} (hf : Leads f s m) (hg : Leads g m t) : Leads (.pair f g) s t
  | either {forms f s t} (hm : f ∈ forms) (h : Leads f s t) : Leads (.either forms) s t
  | stop {f s} : Leads (.many f) s s
  | again {f s m t} (hf : Leads f s m) (hr : Leads (.many f) m t) : Leads (.many f) s t
  | node {label f s t} (h : Leads f s t) : Leads (.node label f) s t
  | grouped {label f s t} (h : Leads f s t) : Leads (.grouped label f) s t

mutual

/-- Where a form leads, given where the rules in it do. -/
def Form.Reads (rules : Rule → σ → σ → Prop) : Form → σ → σ → Prop
  | .lexeme _ kind => step kind
  | .rule r => rules r
  | .pair f g => fun s t => ∃ m, f.Reads rules s m ∧ g.Reads rules m t
  | .either forms => Form.ReadsOne rules forms
  | .many f => Relation.ReflTransGen (f.Reads rules)
  | .node _ f | .grouped _ f => f.Reads rules

def Form.ReadsOne (rules : Rule → σ → σ → Prop) : List Form → σ → σ → Prop
  | [] => fun _ _ => False
  | f :: rest => fun s t => f.Reads rules s t ∨ Form.ReadsOne rules rest s t

end

variable {step} {rules : Rule → σ → σ → Prop} {s t : σ}

theorem Form.readsOne_iff {forms : List Form} :
    Form.ReadsOne step rules forms s t ↔ ∃ f ∈ forms, f.Reads step rules s t := by
  induction forms with
  | nil => simp [Form.ReadsOne]
  | cons f rest ih => simp [Form.ReadsOne, ih]

/-- A way of a form is made of ways of the rules in it. -/
theorem Leads.reads_of (h : ∀ r s t, Leads step (.rule r) s t → r.form.Reads step rules s t → rules r s t)
    {f : Form} (hf : Leads step f s t) : f.Reads step rules s t := by
  induction hf with
  | lexeme h => exact h
  | rule hl ih => exact h _ _ _ (.rule hl) ih
  | pair _ _ ihf ihg => exact ⟨_, ihf, ihg⟩
  | either hm _ ih => exact Form.readsOne_iff.mpr ⟨_, hm, ih⟩
  | stop => exact .refl
  | again _ _ ihf ihr => exact .head ihf ihr
  | node _ ih => exact ih
  | grouped _ ih => exact ih

theorem Leads.reads {f : Form} (hf : Leads step f s t) :
    f.Reads step (fun r => Leads step (.rule r)) s t :=
  Leads.reads_of (fun _ _ _ h _ => h) hf

/-- Ways of the rules in a form make up a way of it. -/
theorem Form.Reads.leads (h : ∀ {r s t}, rules r s t → Leads step (.rule r) s t) {f : Form}
    (hf : f.Reads step rules s t) : Leads step f s t := by
  induction f using Form.parts_induction generalizing s t with
  | lexeme terminal kind => exact .lexeme hf
  | rule r => exact h hf
  | pair f g ihf ihg =>
    obtain ⟨m, hf, hg⟩ := hf
    exact .pair (ihf hf) (ihg hg)
  | either forms ih =>
    obtain ⟨f, hm, hf⟩ := Form.readsOne_iff.mp hf
    exact .either hm (ih f hm hf)
  | many f ih =>
    change Relation.ReflTransGen (f.Reads step rules) s t at hf
    induction hf using Relation.ReflTransGen.head_induction_on with
    | refl => exact .stop
    | head hf _ ihr => exact .again (ih hf) ihr
  | node label f ih => exact .node (ih hf)
  | grouped label f ih => exact .grouped (ih hf)

/-- What holds of the ways of a rule whenever it holds of those of the rules in it holds of all. -/
theorem Leads.rule_induction {B : Rule → σ → σ → Prop}
    (h : ∀ r s t, r.form.Reads step (fun r s t => Leads step (.rule r) s t ∧ B r s t) s t → B r s t)
    {r : Rule} (hr : Leads step (.rule r) s t) : B r s t := by
  have hreads : Form.Reads step (fun r s t => Leads step (.rule r) s t ∧ B r s t) (.rule r) s t :=
    Leads.reads_of (fun r s t hl hf => ⟨hl, h r s t hf⟩) hr
  exact hreads.2

end Leads

/-! ### Lexemes -/

/-- A lexeme of the kind stands behind the blanks and before the rest. -/
def Lexes (kind : Kind) (text rest : List Char) : Prop :=
  ∃ n, kind.lexeme (afterGap text) = some n ∧ rest = (afterGap text).drop n

theorem stringTail_le {escaped : Bool} {text : List Char} {n : Nat}
    (h : stringTail escaped text = some n) : 0 < n ∧ n ≤ text.length := by
  induction text generalizing escaped n with
  | nil => cases h
  | cons c rest ih =>
    unfold stringTail at h
    split_ifs at h
    · cases h
      simp
    · obtain ⟨m, hm, rfl⟩ := Option.map_eq_some_iff.mp h
      have := ih hm
      rw [List.length_cons]
      omega

theorem fractionLength_le (text : List Char) : fractionLength text ≤ text.length := by
  unfold fractionLength
  split
  · rename_i rest
    have hlength := (List.takeWhile_prefix (p := Text.isDigit) (l := rest)).length_le
    dsimp only
    split_ifs
    · omega
    · rw [List.length_cons]
      omega
  · omega

theorem spelled_le {word : String} {text : List Char} {n : Nat} (h : spelled word text = some n) :
    n = word.length ∧ n ≤ text.length := by
  unfold spelled at h
  split_ifs at h with hp
  cases h
  exact ⟨rfl, (List.isPrefixOf_iff_prefix.mp hp).length_le⟩

def Kind.isProper : Kind → Bool
  | .spelled word => word.length != 0
  | _ => true

theorem Kind.lexeme_le {kind : Kind} {text : List Char} {n : Nat} (h : kind.lexeme text = some n) :
    n ≤ text.length := by
  cases kind with
  | name =>
    cases text with
    | nil => cases h
    | cons c rest =>
      unfold Kind.lexeme nameLexeme at h
      dsimp only at h
      split_ifs at h
      cases h
      have hlength := (List.takeWhile_prefix (p := isNamePart) (l := rest)).length_le
      rw [List.length_cons]
      omega
  | number =>
    unfold Kind.lexeme numberLexeme at h
    dsimp only at h
    split_ifs at h
    cases h
    have hwhole := (List.takeWhile_prefix (p := Text.isDigit) (l := text)).length_le
    have hfraction := fractionLength_le (text.drop (text.takeWhile Text.isDigit).length)
    rw [List.length_drop] at hfraction
    omega
  | string =>
    unfold Kind.lexeme stringLexeme at h
    dsimp only at h
    split at h
    · obtain ⟨m, hm, rfl⟩ := Option.map_eq_some_iff.mp h
      have := (stringTail_le hm).2
      rw [List.length_cons]
      omega
    · cases h
  | separator =>
    unfold Kind.lexeme separatorLexeme at h
    dsimp only at h
    split at h
    · cases h
      simp
    · split_ifs at h
      cases h
      exact (List.takeWhile_prefix _).length_le
  | comparison =>
    obtain ⟨word, _, hw⟩ := List.exists_of_findSome?_eq_some h
    exact (spelled_le hw).2
  | spelled word => exact (spelled_le h).2

theorem Kind.lexeme_pos {kind : Kind} {text : List Char} {n : Nat} (hk : kind.isProper)
    (h : kind.lexeme text = some n) : 0 < n := by
  cases kind with
  | name =>
    cases text with
    | nil => cases h
    | cons c rest =>
      unfold Kind.lexeme nameLexeme at h
      dsimp only at h
      split_ifs at h
      cases h
      omega
  | number =>
    unfold Kind.lexeme numberLexeme at h
    dsimp only at h
    split_ifs at h
    cases h
    omega
  | string =>
    unfold Kind.lexeme stringLexeme at h
    dsimp only at h
    split at h
    · obtain ⟨m, hm, rfl⟩ := Option.map_eq_some_iff.mp h
      omega
    · cases h
  | separator =>
    unfold Kind.lexeme separatorLexeme at h
    dsimp only at h
    split at h
    · cases h
      omega
    · split_ifs at h
      cases h
      omega
  | comparison =>
    obtain ⟨word, hm, hw⟩ := List.exists_of_findSome?_eq_some h
    have hpos : ∀ word ∈ ["==", "!=", "<=", "<", ">=", ">"], 0 < word.length := by decide
    rw [(spelled_le hw).1]
    exact hpos word hm
  | spelled word =>
    rw [(spelled_le h).1]
    exact Nat.pos_of_ne_zero (by simpa [Kind.isProper] using hk)

end DecimalScript.Grammar
