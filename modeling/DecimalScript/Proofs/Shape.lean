import DecimalScript.Eval.Term
import DecimalScript.Grammar.Program
import DecimalScript.Proofs.Reading
import Mathlib

/-! The trees that the grammar makes of texts. Their shapes are said once, as an
inductive predicate; each way of putting parsers together is followed by what it
leaves in the tree, and each rule of the language by its shape. -/

namespace DecimalScript

structure Leaf where
  terminal : Terminal
  text : String
  pos : Pos

def Leaf.tree (leaf : Leaf) : Tree := .token leaf.terminal leaf.text leaf.pos

def IsNumeral (text : String) : Prop := ∀ c ∈ text.toList, Text.isDigit c ∨ c = '.'

def assignments : List String := ["=", "+=", "-=", "/=", "mod="]

namespace Tree

def isSeparator : Tree → Bool
  | .token .sep _ _ => true
  | _ => false

/-- The statements of a program, or of what stands between the parentheses of a block. -/
def statements : Tree → List Tree
  | .node .statementList _ children => children
  | tree => [tree]

def pairUp (pairs : List (Leaf × Tree)) : List Tree :=
  pairs.flatMap fun (operator, operand) => [operator.tree, operand]

/-- The shapes of statements and expressions. -/
inductive Shape : Tree → Prop
  | number {pos place : Pos} {text : String} (h : IsNumeral text) :
      Shape (.node .number (some pos) [.token .number text place])
  | var {pos place : Pos} {name : String} :
      Shape (.node .var (some pos) [.token .name name place])
  | call {pos place : Pos} {name : String} :
      Shape (.node .funcCall (some pos) [.token .name name place])
  | callWith {pos place : Pos} {inner : Option Pos} {name : String} {arguments : List Tree}
      (h : ∀ argument ∈ arguments, Shape argument) :
      Shape (.node .funcCall (some pos) [.token .name name place, .node .argList inner arguments])
  | unary {pos : Pos} {operator : Leaf} {item : Tree} (h : Shape item) :
      Shape (.node .unary (some pos) [operator.tree, item])
  | power {pos : Pos} {operator : Leaf} {base exponent : Tree} (hb : Shape base)
      (he : Shape exponent) : Shape (.node .power (some pos) [base, operator.tree, exponent])
  | chain {label : Label} {pos : Pos} {first : Tree} {pairs : List (Leaf × Tree)}
      (hl : label ∈ [.sum, .product, .andExpr, .orExpr]) (hf : Shape first)
      (hp : ∀ pair ∈ pairs, Shape pair.2) : Shape (.node label (some pos) (first :: pairUp pairs))
  | comparison {pos : Pos} {first : Tree} {pairs : List (Leaf × Tree)} (hf : Shape first)
      (ho : ∀ pair ∈ pairs, pair.1.text ∈ Run.comparisons) (hp : ∀ pair ∈ pairs, Shape pair.2) :
      Shape (.node .comparison (some pos) (first :: pairUp pairs))
  | negation {pos : Pos} {operator : Leaf} {item : Tree} (h : Shape item) :
      Shape (.node .notExpr (some pos) [operator.tree, item])
  | plain {pos : Pos} {item : Tree} (h : Shape item) :
      Shape (.node .conditionalExpr (some pos) [item])
  | conditional {pos : Pos} {holds condition otherwise : Tree} {separators : List Tree}
      (hh : Shape holds) (hc : Shape condition)
      (hs : ∀ separator ∈ separators, separator.isSeparator) (ho : Shape otherwise) :
      Shape (.node .conditionalExpr (some pos)
        (holds :: condition :: (separators ++ [otherwise])))
  | block {pos : Pos} {content : Tree}
      (h : ∀ item ∈ content.statements, item.isSeparator = false → Shape item) :
      Shape (.node .block (some pos) [content])
  | loop {pos place : Pos} {name : String} {start stop body : Tree} (hs : Shape start)
      (ht : Shape stop) (hb : Shape body) :
      Shape (.node .forExpr (some pos) [.token .name name place, start, stop, body])
  | loopBy {pos place : Pos} {name : String} {start stop step body : Tree} (hs : Shape start)
      (ht : Shape stop) (hw : Shape step) (hb : Shape body) :
      Shape (.node .forExpr (some pos) [.token .name name place, start, stop, step, body])
  | print {pos : Pos} : Shape (.node .printCall (some pos) [])
  | printWith {pos : Pos} {inner : Option Pos} {arguments : List (Pos × Tree)}
      (h : ∀ argument ∈ arguments, (∀ text place, argument.2 ≠ .token .string text place) →
        Shape argument.2) :
      Shape (.node .printCall (some pos) [.node .printArgs inner
        (arguments.map fun (place, argument) => .node .printArg (some place) [argument])])
  | assignment {pos place : Pos} {inner : Option Pos} {name : String} {operator : Leaf}
      {value : Tree} (ho : operator.text ∈ assignments) (hv : Shape value) :
      Shape (.node .assignment (some pos)
        [.token .name name place, .node .assignOp inner [operator.tree], value])
  | leave {pos : Pos} {exit : Option (Pos × Leaf)} {guard : Option (Pos × Tree)} {result : Tree}
      (hg : ∀ clause ∈ guard, Shape clause.2) (hr : Shape result) :
      Shape (.node .breakStmt (some pos)
        ((exit.map fun (place, name) => Tree.node .fromClause (some place) [name.tree]).toList ++
          (guard.map fun (place, when) => Tree.node .whenClause (some place) [when]).toList ++
          [result]))
  | skip {pos : Pos} {next : Option (Pos × Leaf)} {guard : Option (Pos × Tree)}
      (hg : ∀ clause ∈ guard, Shape clause.2) :
      Shape (.node .nextStmt (some pos)
        ((next.map fun (place, name) => Tree.node .loopVar (some place) [name.tree]).toList ++
          (guard.map fun (place, when) => Tree.node .whenClause (some place) [when]).toList))

def IsProgram (tree : Tree) : Prop :=
  ∀ item ∈ tree.statements, item.isSeparator = false → Shape item

end Tree

namespace Grammar

open DecimalScript.Tree (Shape IsProgram)

/-! ### What readings leave in the tree -/

def One (P : Tree → Prop) (kids : List Tree) : Prop := ∃ tree, kids = [tree] ∧ P tree

def Every (P : Tree → Prop) (kids : List Tree) : Prop := ∀ tree ∈ kids, P tree

/-- The rules of a row that read one statement or expression. -/
def Row.rules : List (Row → Thunk Parse) :=
  [Row.atom, Row.unary, Row.power, Row.product, Row.sum, Row.comparison, Row.negation,
   Row.conjunction, Row.disjunction, Row.conditional, Row.expr, Row.statement]

/-- The parses entered into a row have the shapes of their rules. -/
structure Row.Sound (row : Row) : Prop where
  rules : ∀ field ∈ Row.rules, ∀ r ∈ (field row).get.readings, r.start.isSome ∧ One Shape r.kids
  statements : ∀ r ∈ row.statements.get.readings, One IsProgram r.kids

/-- What all readings of a parser leave. -/
def Leaves (p : Parser) (K : List Tree → Prop) : Prop :=
  ∀ rows, (∀ row ∈ rows, Row.Sound row) → ∀ r ∈ (p rows).readings, K r.kids

/-- All readings of a parser have a token. -/
def Starts (p : Parser) : Prop :=
  ∀ rows, (∀ row ∈ rows, Row.Sound row) → ∀ r ∈ (p rows).readings, r.start.isSome

variable {p q : Parser} {K L : List Tree → Prop} {P : Tree → Prop}

theorem Leaves.mono (h : Leaves p K) (hKL : ∀ kids, K kids → L kids) : Leaves p L :=
  fun rows hr r hm => hKL _ (h rows hr r hm)

theorem mem_followedBy {rows : List Row} {r : Reading}
    (h : r ∈ (p.followedBy q rows).readings) :
    ∃ a ∈ (p rows).readings, ∃ b ∈ (q (rows.drop a.length)).readings, r = a.append b := by
  simp only [Parser.followedBy, List.flatMap_map, List.mem_flatMap, List.mem_map] at h
  obtain ⟨a, ha, b, hb, rfl⟩ := h
  exact ⟨a, ha, b, hb, rfl⟩

theorem starts_followedBy (h : Starts p) : Starts (p.followedBy q) := by
  intro rows hr r hm
  obtain ⟨a, ha, b, _, rfl⟩ := mem_followedBy hm
  have hs := h rows hr a ha
  simp only [Reading.append, Option.isSome_iff_exists] at hs ⊢
  obtain ⟨pos, hpos⟩ := hs
  exact ⟨pos, by simp [hpos]⟩

theorem leaves_followedBy (hp : Leaves p K) (hq : Leaves q L) :
    Leaves (p.followedBy q) fun kids => ∃ a b, kids = a ++ b ∧ K a ∧ L b := by
  intro rows hr r hm
  obtain ⟨a, ha, b, hb, rfl⟩ := mem_followedBy hm
  exact ⟨a.kids, b.kids, rfl, hp rows hr a ha,
    hq _ (fun row h => hr row (List.mem_of_mem_drop h)) b hb⟩

theorem mem_distinct {readings : List Reading} {r : Reading} (h : r ∈ Parser.distinct readings) :
    r ∈ readings := by
  induction readings with
  | nil => exact h
  | cons first rest ih =>
    rcases List.mem_cons.mp h with rfl | h
    · exact List.mem_cons_self ..
    · exact List.mem_cons_of_mem _ (ih (List.mem_of_mem_filter h))

theorem mem_choice {parsers : List Parser} {rows : List Row} {r : Reading}
    (h : r ∈ (Parser.choice parsers rows).readings) : ∃ p ∈ parsers, r ∈ (p rows).readings := by
  have := mem_distinct h
  simpa only [List.flatMap_map, List.mem_flatMap] using this

theorem starts_choice {parsers : List Parser} (h : parsers.Forall Starts) :
    Starts (Parser.choice parsers) := by
  intro rows hr r hm
  obtain ⟨p, hp, hm⟩ := mem_choice hm
  exact List.forall_iff_forall_mem.mp h p hp rows hr r hm

theorem leaves_choice {parsers : List Parser} (h : parsers.Forall (Leaves · K)) :
    Leaves (Parser.choice parsers) K := by
  intro rows hr r hm
  obtain ⟨p, hp, hm⟩ := mem_choice hm
  exact List.forall_iff_forall_mem.mp h p hp rows hr r hm

theorem leaves_empty (h : K []) : Leaves Parser.empty K := by
  intro rows _ r hm
  obtain rfl := List.mem_singleton.mp hm
  exact h

/-- Repetitions leave what is left by none of them and by any two of them. -/
theorem leaves_many (hp : Leaves p K) (hn : K []) (ha : ∀ a b, K a → K b → K (a ++ b)) :
    Leaves (Parser.many p) K := by
  have atMost (limit : Nat) : Leaves (Parser.atMost p limit) K := by
    induction limit with
    | zero => exact leaves_empty hn
    | succ limit ih =>
      refine leaves_choice ⟨leaves_empty hn, (leaves_followedBy hp ih).mono ?_⟩
      rintro _ ⟨a, b, rfl, hka, hkb⟩
      exact ha a b hka hkb
  exact fun rows => atMost rows.length rows

theorem leaves_several (hp : Leaves p K) (hn : K []) (ha : ∀ a b, K a → K b → K (a ++ b)) :
    Leaves (Parser.several p) K := by
  refine (leaves_followedBy hp (leaves_many hp hn ha)).mono ?_
  rintro _ ⟨a, b, rfl, hka, hkb⟩
  exact ha a b hka hkb

theorem Every.append {a b : List Tree} (ha : Every P a) (hb : Every P b) : Every P (a ++ b) := by
  intro tree h
  rcases List.mem_append.mp h with h | h
  · exact ha tree h
  · exact hb tree h

theorem One.every {kids : List Tree} (h : One P kids) : Every P kids := by
  obtain ⟨tree, rfl, ht⟩ := h
  simpa [Every] using ht

/-! ### Parsers in a row -/

/-- The trees of several parsers in a row. -/
def Fits : List (List Tree → Prop) → List Tree → Prop
  | [], kids => kids = []
  | K :: rest, kids => ∃ a b, kids = a ++ b ∧ K a ∧ Fits rest b

def Nothing (kids : List Tree) : Prop := kids = []

theorem leaves_sequence {parsers : List Parser} {kinds : List (List Tree → Prop)}
    (h : List.Forall₂ Leaves parsers kinds) : Leaves (Parser.sequence parsers) (Fits kinds) := by
  induction h with
  | nil => exact leaves_empty rfl
  | @cons p K rest kinds hp hrest ih =>
    cases rest with
    | nil =>
      cases hrest
      exact hp.mono fun kids hk => ⟨kids, [], by simp, hk, rfl⟩
    | cons q rest => exact leaves_followedBy hp ih

theorem starts_sequence {rest : List Parser} (h : Starts p) :
    Starts (Parser.sequence (p :: rest)) := by
  cases rest with
  | nil => exact h
  | cons q rest => exact starts_followedBy h

@[simp] theorem fits_nil {kids : List Tree} : Fits [] kids ↔ kids = [] := Iff.rfl

@[simp] theorem fits_nothing {rest : List (List Tree → Prop)} {kids : List Tree} :
    Fits (Nothing :: rest) kids ↔ Fits rest kids := by
  simp [Fits, Nothing]

@[simp] theorem fits_one {rest : List (List Tree → Prop)} {kids : List Tree} :
    Fits (One P :: rest) kids ↔ ∃ tree others, kids = tree :: others ∧ P tree ∧ Fits rest others := by
  constructor
  · rintro ⟨_, others, rfl, ⟨tree, rfl, ht⟩, hr⟩
    exact ⟨tree, others, rfl, ht, hr⟩
  · rintro ⟨tree, others, rfl, ht, hr⟩
    exact ⟨[tree], others, rfl, ⟨tree, rfl, ht⟩, hr⟩

/-! ### Nodes and tokens -/

theorem starts_node {label : Label} (h : Starts p) : Starts (Parser.node label p) := by
  intro rows hr r hm
  obtain ⟨inner, hi, rfl⟩ := List.mem_map.mp hm
  exact h rows hr inner hi

theorem leaves_node {label : Label} (hs : Starts p)
    (h : Leaves p fun kids => ∀ pos, P (.node label (some pos) kids)) :
    Leaves (Parser.node label p) (One P) := by
  intro rows hr r hm
  obtain ⟨inner, hi, rfl⟩ := List.mem_map.mp hm
  obtain ⟨pos, hpos⟩ := Option.isSome_iff_exists.mp (hs rows hr inner hi)
  exact ⟨_, rfl, hpos ▸ h rows hr inner hi pos⟩

theorem mem_lexed {lexeme : Lexeme} {f : String → Pos → List Tree} {rows : List Row} {r : Reading}
    (h : r ∈ (Parser.lexed lexeme f rows).readings) :
    ∃ chars pos length, lexeme chars = some length ∧ r.start = some pos ∧
      r.kids = f (String.ofList (chars.take length)) pos := by
  cases rows with
  | nil => cases h
  | cons row later =>
    simp only [Parser.lexed] at h
    split at h
    · cases h
    · split at h
      · cases h
      · rename_i here _ _ _ length hl
        obtain rfl := List.mem_singleton.mp h
        exact ⟨here.rest, here.pos, length, hl, rfl, rfl⟩

theorem starts_lexed {lexeme : Lexeme} {f : String → Pos → List Tree} :
    Starts (Parser.lexed lexeme f) := by
  intro rows _ r hm
  obtain ⟨_, pos, _, _, hs, _⟩ := mem_lexed hm
  rw [hs]
  rfl

theorem leaves_word {spelling : String} : Leaves (Parser.word spelling) Nothing := by
  intro rows _ r hm
  obtain ⟨_, _, _, _, _, hk⟩ := mem_lexed hm
  exact hk

def IsLeaf (T : Leaf → Prop) (tree : Tree) : Prop := ∃ leaf : Leaf, tree = leaf.tree ∧ T leaf

theorem leaves_token {terminal : Terminal} {lexeme : Lexeme} {T : Leaf → Prop}
    (h : ∀ chars length pos, lexeme chars = some length →
      T ⟨terminal, String.ofList (chars.take length), pos⟩) :
    Leaves (Parser.token terminal lexeme) (One (IsLeaf T)) := by
  intro rows _ r hm
  obtain ⟨chars, pos, length, hl, _, hk⟩ := mem_lexed hm
  exact ⟨_, hk, _, rfl, h chars length pos hl⟩

theorem spelled_text {word : String} {chars : List Char} {length : Nat}
    (h : spelled word chars = some length) : String.ofList (chars.take length) = word := by
  unfold spelled at h
  split at h
  · rename_i hw
    cases h
    obtain ⟨rest, rfl⟩ := List.isPrefixOf_iff_prefix.mp hw
    rw [← String.length_toList, List.take_left, String.ofList_toList]
  · cases h

theorem oneOf_text {words : List String} {chars : List Char} {length : Nat}
    (h : oneOf words chars = some length) : String.ofList (chars.take length) ∈ words := by
  obtain ⟨word, hw, hs⟩ := List.exists_of_findSome?_eq_some h
  rw [spelled_text hs]
  exact hw

theorem take_digits {chars : List Char} {c : Char}
    (h : c ∈ chars.take (chars.takeWhile Text.isDigit).length) : Text.isDigit c := by
  rw [← List.prefix_iff_eq_take.mp (List.takeWhile_prefix _)] at h
  exact List.mem_takeWhile_imp h

theorem take_fraction {chars : List Char} {c : Char} (h : c ∈ chars.take (fractionLength chars)) :
    Text.isDigit c ∨ c = '.' := by
  unfold fractionLength at h
  split at h
  · dsimp only at h
    split at h
    · cases h
    · rw [List.take_succ_cons] at h
      rcases List.mem_cons.mp h with rfl | h
      · exact .inr rfl
      · exact .inl (take_digits h)
  · cases h

theorem numberLexeme_text {chars : List Char} {length : Nat}
    (h : numberLexeme chars = some length) : IsNumeral (String.ofList (chars.take length)) := by
  simp only [numberLexeme] at h
  split at h
  · cases h
  · cases h
    intro c hc
    rw [String.toList_ofList, List.take_add] at hc
    rcases List.mem_append.mp hc with hc | hc
    · exact .inl (take_digits hc)
    · exact take_fraction hc

/-! ### The rules of the language -/

/-- All readings of a parser have a token and leave one tree as given. -/
structure Makes (p : Parser) (P : Tree → Prop) : Prop where
  starts : Starts p
  leaves : Leaves p (One P)

theorem Makes.mono {Q : Tree → Prop} (h : Makes p P) (hPQ : ∀ tree, P tree → Q tree) : Makes p Q := by
  refine ⟨h.starts, h.leaves.mono ?_⟩
  rintro _ ⟨tree, rfl, ht⟩
  exact ⟨tree, rfl, hPQ tree ht⟩

theorem makes_rule {field : Row → Thunk Parse} (h : field ∈ Row.rules) :
    Makes (Parser.rule field) Shape := by
  have sound (rows : List Row) (hr : ∀ row ∈ rows, Row.Sound row) (r : Reading)
      (hm : r ∈ (Parser.rule field rows).readings) : r.start.isSome ∧ One Shape r.kids := by
    cases rows with
    | nil => cases hm
    | cons row later => exact (hr row (by simp)).rules field h r hm
  exact ⟨fun rows hr r hm => (sound rows hr r hm).1, fun rows hr r hm => (sound rows hr r hm).2⟩

theorem leaves_statements : Leaves (Parser.rule Row.statements) (One IsProgram) := by
  intro rows hr r hm
  cases rows with
  | nil => cases hm
  | cons row later => exact (hr row (by simp)).statements r hm

theorem makes_choice {parsers : List Parser} (h : parsers.Forall (Makes · P)) :
    Makes (Parser.choice parsers) P :=
  ⟨starts_choice (h.imp fun _ hp => hp.starts), leaves_choice (h.imp fun _ hp => hp.leaves)⟩

theorem makes_node {label : Label} (hs : Starts p)
    (h : Leaves p fun kids => ∀ pos, P (.node label (some pos) kids)) :
    Makes (Parser.node label p) P := ⟨starts_node hs, leaves_node hs h⟩

theorem makes_token {terminal : Terminal} {lexeme : Lexeme} :
    Makes (Parser.token terminal lexeme) (IsLeaf (·.terminal = terminal)) :=
  ⟨starts_lexed, leaves_token fun _ _ _ _ => rfl⟩

theorem makes_spelled {terminal : Terminal} {word : String} :
    Makes (Parser.token terminal (spelled word)) (IsLeaf (·.text = word)) :=
  ⟨starts_lexed, leaves_token fun _ _ _ h => spelled_text h⟩

theorem makes_separator : Makes separator fun tree => tree.isSeparator := by
  refine makes_token.mono ?_
  rintro _ ⟨leaf, rfl, h⟩
  simp [Leaf.tree, h, Tree.isSeparator]

def Paired (T : Leaf → Prop) (kids : List Tree) : Prop :=
  ∃ pairs, kids = Tree.pairUp pairs ∧ ∀ pair ∈ pairs, T pair.1 ∧ Shape pair.2

theorem makes_chain {label : Label} {operand operator : Parser} {T : Leaf → Prop}
    (hp : Makes operand Shape) (ho : Makes operator (IsLeaf T))
    (h : ∀ pos first pairs, Shape first → (∀ pair ∈ pairs, T pair.1 ∧ Shape pair.2) →
      Shape (.node label (some pos) (first :: Tree.pairUp pairs))) :
    Makes (chain label operand operator) Shape := by
  have more : Leaves (operator.followedBy operand) (Paired T) := by
    refine (leaves_followedBy ho.leaves hp.leaves).mono ?_
    rintro _ ⟨_, _, rfl, ⟨_, rfl, leaf, rfl, ht⟩, tree, rfl, hs⟩
    exact ⟨[(leaf, tree)], rfl, by simpa using ⟨ht, hs⟩⟩
  have append (a b : List Tree) (ha : Paired T a) (hb : Paired T b) : Paired T (a ++ b) := by
    obtain ⟨pairs, rfl, hpairs⟩ := ha
    obtain ⟨others, rfl, hothers⟩ := hb
    refine ⟨pairs ++ others, by simp [Tree.pairUp], fun pair hm => ?_⟩
    rcases List.mem_append.mp hm with hm | hm
    · exact hpairs pair hm
    · exact hothers pair hm
  have nil : Paired T [] := ⟨[], rfl, by simp⟩
  refine makes_choice ⟨makes_node (starts_sequence hp.starts) ?_, hp⟩
  refine (leaves_sequence (.cons hp.leaves (.cons more
    (.cons (leaves_many more nil append) .nil)))).mono fun kids hk pos => ?_
  rw [fits_one] at hk
  obtain ⟨first, _, rfl, hf, a, _, rfl, ha, b, _, rfl, hb, rfl⟩ := hk
  obtain ⟨pairs, heq, hpairs⟩ := append a b ha hb
  rw [List.append_nil, heq]
  exact h pos first pairs hf hpairs

end Grammar

end DecimalScript
