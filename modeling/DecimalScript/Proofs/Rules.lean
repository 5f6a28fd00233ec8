import DecimalScript.Proofs.Shape
import Mathlib

/-! Every rule of the language leaves trees of its shape, so every program that can
be read has the shape of a program. A row is filled rule by rule; what is not yet
entered has no readings, so the row keeps its shapes at every stage. -/

namespace DecimalScript.Grammar

open DecimalScript.Tree (Shape IsProgram)

/-! ### Operands -/

theorem makes_expr : Makes (Parser.rule Row.expr) Shape := makes_rule (by simp [Row.rules])

theorem makes_name : Makes name (IsLeaf (·.terminal = .name)) := makes_token

theorem leaves_listOf {item : Parser} {P : Tree → Prop} (h : Leaves item (One P)) :
    Leaves (listOf item) (Every P) := by
  have every : Leaves item (Every P) := h.mono fun _ hk => hk.every
  have next : Leaves (Parser.sequence [Parser.word ",", item]) (Every P) := by
    refine (leaves_sequence (.cons leaves_word (.cons every .nil))).mono fun kids hk => ?_
    rw [fits_nothing] at hk
    obtain ⟨a, _, rfl, ha, rfl⟩ := hk
    simpa using ha
  refine (leaves_followedBy every (leaves_many next (by simp [Every]) fun _ _ => Every.append)).mono ?_
  rintro _ ⟨a, b, rfl, ha, hb⟩
  exact ha.append hb

theorem makes_funcCall : Makes funcCall Shape := by
  have arguments : Leaves argList
      (One fun tree => ∃ pos items, tree = .node .argList pos items ∧ Every Shape items) := by
    refine leaves_node (starts_followedBy makes_expr.starts) ?_
    exact (leaves_listOf makes_expr.leaves).mono fun items hi pos => ⟨some pos, items, rfl, hi⟩
  have starts {rest : List Parser} : Starts (Parser.sequence (name :: rest)) :=
    starts_sequence makes_name.starts
  refine makes_node (starts_choice ⟨starts, starts⟩) (leaves_choice ?_)
  simp only [List.Forall]
  refine ⟨?_, ?_⟩
  · refine (leaves_sequence (.cons makes_name.leaves (.cons leaves_word (.cons arguments
      (.cons leaves_word .nil))))).mono fun kids hk pos => ?_
    simp only [fits_one, fits_nothing, fits_nil] at hk
    obtain ⟨_, _, rfl, ⟨⟨_, text, place⟩, rfl, rfl⟩, _, _, rfl, ⟨inner, items, rfl, hi⟩, rfl⟩ := hk
    exact .callWith hi
  · refine (leaves_sequence (.cons makes_name.leaves (.cons leaves_word
      (.cons leaves_word .nil)))).mono fun kids hk pos => ?_
    simp only [fits_one, fits_nothing, fits_nil] at hk
    obtain ⟨_, _, rfl, ⟨⟨_, text, place⟩, rfl, rfl⟩, rfl⟩ := hk
    exact .call

theorem makes_atom : Makes atom Shape := by
  refine makes_choice ⟨?_, makes_funcCall, ?_, ?_⟩
  · refine makes_node starts_lexed ((leaves_token (T := fun leaf => leaf.terminal = .number ∧
      IsNumeral leaf.text) fun _ _ _ h => ⟨rfl, numberLexeme_text h⟩).mono ?_)
    rintro _ ⟨_, rfl, ⟨_, text, place⟩, rfl, rfl, h⟩ pos
    exact .number h
  · refine makes_node makes_name.starts (makes_name.leaves.mono ?_)
    rintro _ ⟨_, rfl, ⟨_, text, place⟩, rfl, rfl⟩ pos
    exact .var
  · refine ⟨starts_sequence starts_lexed, ?_⟩
    have inner : Makes (Parser.rule Row.conditional) Shape := makes_rule (by simp [Row.rules])
    refine (leaves_sequence (.cons leaves_word (.cons inner.leaves (.cons leaves_word .nil)))).mono
      fun kids hk => ?_
    simp only [fits_one, fits_nothing, fits_nil] at hk
    obtain ⟨tree, _, rfl, ht, rfl⟩ := hk
    exact ⟨tree, rfl, ht⟩

theorem makes_plusOrMinus : Makes plusOrMinus (IsLeaf fun _ => True) :=
  makes_choice ⟨makes_token.mono fun _ ⟨leaf, h, _⟩ => ⟨leaf, h, trivial⟩,
    makes_token.mono fun _ ⟨leaf, h, _⟩ => ⟨leaf, h, trivial⟩⟩

theorem makes_unary : Makes unary Shape := by
  have item : Makes (Parser.rule Row.unary) Shape := makes_rule (by simp [Row.rules])
  refine makes_choice ⟨?_, makes_rule (by simp [Row.rules])⟩
  refine makes_node (starts_followedBy makes_plusOrMinus.starts)
    ((leaves_followedBy makes_plusOrMinus.leaves item.leaves).mono ?_)
  rintro _ ⟨_, _, rfl, ⟨_, rfl, operator, rfl, _⟩, tree, rfl, ht⟩ pos
  exact .unary ht

theorem makes_power : Makes power Shape := by
  have base : Makes (Parser.rule Row.unary) Shape := makes_rule (by simp [Row.rules])
  have exponent : Makes (Parser.rule Row.power) Shape := makes_rule (by simp [Row.rules])
  have operator : Makes (Parser.token .pow (spelled "**")) (IsLeaf (·.terminal = .pow)) := makes_token
  refine makes_choice ⟨makes_node (starts_sequence base.starts) ?_, base⟩
  refine (leaves_sequence (.cons base.leaves (.cons operator.leaves (.cons exponent.leaves
    .nil)))).mono fun kids hk pos => ?_
  simp only [fits_one, fits_nil] at hk
  obtain ⟨x, _, rfl, hx, _, _, rfl, ⟨leaf, rfl, _⟩, y, _, rfl, hy, rfl⟩ := hk
  exact .power hx hy

/-- A chain in which the operators have no further meaning here. -/
theorem makes_plain_chain {label : Label} {field : Row → Thunk Parse} {operator : Parser}
    {T : Leaf → Prop} (hl : label ∈ [.sum, .product, .andExpr, .orExpr]) (hf : field ∈ Row.rules)
    (ho : Makes operator (IsLeaf T)) : Makes (chain label (Parser.rule field) operator) Shape :=
  makes_chain (makes_rule hf) ho fun _ _ _ hx hp => .chain hl hx fun pair hm => (hp pair hm).2

theorem makes_product : Makes product Shape := by
  have operator : Makes (Parser.choice [Parser.token .star (spelled "*"),
      Parser.token .slash (spelled "/"), Parser.token .mod (spelled "mod")])
      (IsLeaf fun _ => True) := by
    refine makes_choice ⟨?_, ?_, ?_⟩ <;>
      exact makes_token.mono fun _ ⟨leaf, h, _⟩ => ⟨leaf, h, trivial⟩
  exact makes_plain_chain (by simp) (by simp [Row.rules]) operator

theorem makes_sum : Makes sum Shape :=
  makes_plain_chain (by simp) (by simp [Row.rules]) makes_plusOrMinus

theorem makes_comparison : Makes comparison Shape := by
  have operator : Makes (Parser.token .compOp comparisonLexeme)
      (IsLeaf (·.text ∈ Run.comparisons)) := by
    refine ⟨starts_lexed, leaves_token fun _ _ _ h => ?_⟩
    have := oneOf_text h
    simp only [List.mem_cons, List.not_mem_nil, or_false, Run.comparisons] at this ⊢
    tauto
  refine makes_chain (makes_rule (by simp [Row.rules])) operator fun pos first pairs hf hp => ?_
  exact .comparison hf (fun pair hm => (hp pair hm).1) fun pair hm => (hp pair hm).2

theorem makes_negation : Makes negation Shape := by
  have operator : Makes (Parser.token .not (spelled "not")) (IsLeaf (·.terminal = .not)) :=
    makes_token
  have item : Makes (Parser.rule Row.negation) Shape := makes_rule (by simp [Row.rules])
  refine makes_choice ⟨?_, makes_rule (by simp [Row.rules])⟩
  refine makes_node (starts_followedBy operator.starts)
    ((leaves_followedBy operator.leaves item.leaves).mono ?_)
  rintro _ ⟨_, _, rfl, ⟨_, rfl, leaf, rfl, _⟩, tree, rfl, ht⟩ pos
  exact .negation ht

theorem makes_conjunction : Makes conjunction Shape :=
  makes_plain_chain (by simp) (by simp [Row.rules]) makes_token

theorem makes_disjunction : Makes disjunction Shape :=
  makes_plain_chain (by simp) (by simp [Row.rules]) makes_token

/-! ### Expressions -/

theorem makes_conditional : Makes conditional Shape := by
  have item : Makes (Parser.rule Row.disjunction) Shape := makes_rule (by simp [Row.rules])
  have last : Makes (Parser.rule Row.conditional) Shape := makes_rule (by simp [Row.rules])
  have separators : Leaves (Parser.several separator) (Every fun tree => tree.isSeparator) :=
    leaves_several (makes_separator.leaves.mono fun _ hk => hk.every) (by simp [Every])
      fun _ _ => Every.append
  have starts {rest : List Parser} : Starts (Parser.sequence (Parser.rule Row.disjunction :: rest)) :=
    starts_sequence item.starts
  refine makes_node (starts_choice ⟨item.starts, starts, starts⟩) (leaves_choice ?_)
  simp only [List.Forall, List.cons_append, List.nil_append]
  refine ⟨?_, ?_, ?_⟩
  · refine item.leaves.mono ?_
    rintro _ ⟨tree, rfl, ht⟩ pos
    exact .plain ht
  · refine (leaves_sequence (.cons item.leaves (.cons leaves_word (.cons item.leaves
      (.cons leaves_word (.cons separators (.cons last.leaves .nil))))))).mono fun kids hk pos => ?_
    simp only [fits_one, fits_nothing] at hk
    obtain ⟨holds, _, rfl, hh, condition, _, rfl, hc, seps, _, rfl, hs, hk⟩ := hk
    simp only [fits_one, fits_nil] at hk
    obtain ⟨otherwise, _, rfl, ho, rfl⟩ := hk
    exact .conditional hh hc hs ho
  · refine (leaves_sequence (.cons item.leaves (.cons leaves_word (.cons item.leaves
      (.cons leaves_word (.cons last.leaves .nil)))))).mono fun kids hk pos => ?_
    simp only [fits_one, fits_nothing, fits_nil] at hk
    obtain ⟨holds, _, rfl, hh, condition, _, rfl, hc, otherwise, _, rfl, ho, rfl⟩ := hk
    exact @Shape.conditional pos holds condition otherwise [] hh hc (by simp) ho

theorem makes_block : Makes block Shape := by
  refine makes_node (starts_sequence starts_lexed) ?_
  refine (leaves_sequence (.cons leaves_word (.cons leaves_statements (.cons leaves_word
    .nil)))).mono fun kids hk pos => ?_
  simp only [fits_one, fits_nothing, fits_nil] at hk
  obtain ⟨content, _, rfl, hc, rfl⟩ := hk
  exact .block hc

theorem makes_forExpr : Makes forExpr Shape := by
  have starts {rest : List Parser} : Starts (Parser.sequence (Parser.word "for" :: rest)) :=
    starts_sequence starts_lexed
  refine makes_node (starts_choice ⟨starts, starts⟩) (leaves_choice ?_)
  simp only [List.Forall, List.cons_append, List.nil_append]
  refine ⟨?_, ?_⟩
  · refine (leaves_sequence (.cons leaves_word (.cons makes_name.leaves (.cons leaves_word
      (.cons makes_expr.leaves (.cons leaves_word (.cons makes_expr.leaves (.cons leaves_word
      (.cons makes_expr.leaves (.cons makes_block.leaves .nil)))))))))).mono fun kids hk pos => ?_
    simp only [fits_one, fits_nothing, fits_nil] at hk
    obtain ⟨_, _, rfl, ⟨⟨_, text, place⟩, rfl, rfl⟩, start, _, rfl, hs, stop, _, rfl, ht, step, _,
      rfl, hw, body, _, rfl, hb, rfl⟩ := hk
    exact .loopBy hs ht hw hb
  · refine (leaves_sequence (.cons leaves_word (.cons makes_name.leaves (.cons leaves_word
      (.cons makes_expr.leaves (.cons leaves_word (.cons makes_expr.leaves
      (.cons makes_block.leaves .nil)))))))).mono fun kids hk pos => ?_
    simp only [fits_one, fits_nothing, fits_nil] at hk
    obtain ⟨_, _, rfl, ⟨⟨_, text, place⟩, rfl, rfl⟩, start, _, rfl, hs, stop, _, rfl, ht, body, _,
      rfl, hb, rfl⟩ := hk
    exact .loop hs ht hb

def IsPrinted (tree : Tree) : Prop :=
  ∃ argument : Pos × Tree, tree = .node .printArg (some argument.1) [argument.2] ∧
    ((∀ text place, argument.2 ≠ .token .string text place) → Shape argument.2)

theorem makes_printArg : Makes printArg IsPrinted := by
  have text : Makes (Parser.token .string stringLexeme) (IsLeaf (·.terminal = .string)) :=
    makes_token
  refine makes_node (starts_choice ⟨starts_lexed, makes_expr.starts⟩) (leaves_choice ?_)
  simp only [List.Forall]
  refine ⟨text.leaves.mono ?_, makes_expr.leaves.mono ?_⟩
  · rintro _ ⟨_, rfl, ⟨_, text, place⟩, rfl, rfl⟩ pos
    exact ⟨(pos, _), rfl, fun h => absurd rfl (h text place)⟩
  · rintro _ ⟨tree, rfl, ht⟩ pos
    exact ⟨(pos, tree), rfl, fun _ => ht⟩

theorem every_printed {kids : List Tree} (h : Every IsPrinted kids) :
    ∃ arguments : List (Pos × Tree),
      kids = (arguments.map fun (place, argument) => .node .printArg (some place) [argument]) ∧
      ∀ argument ∈ arguments, (∀ text place, argument.2 ≠ .token .string text place) →
        Shape argument.2 := by
  induction kids with
  | nil => exact ⟨[], rfl, by simp⟩
  | cons kid rest ih =>
    obtain ⟨arguments, rfl, ha⟩ := ih fun tree ht => h tree (by simp [ht])
    obtain ⟨argument, rfl, hs⟩ := h kid (by simp)
    exact ⟨argument :: arguments, rfl, List.forall_mem_cons.mpr ⟨hs, ha⟩⟩

theorem makes_printCall : Makes printCall Shape := by
  have arguments : Leaves (Parser.node .printArgs (listOf printArg))
      (One fun tree => ∃ pos items, tree = .node .printArgs pos items ∧ Every IsPrinted items) := by
    refine leaves_node (starts_followedBy makes_printArg.starts) ?_
    exact (leaves_listOf makes_printArg.leaves).mono fun items hi pos => ⟨some pos, items, rfl, hi⟩
  have starts {rest : List Parser} : Starts (Parser.sequence (Parser.word "print" :: rest)) :=
    starts_sequence starts_lexed
  refine makes_node (starts_choice ⟨starts, starts⟩) (leaves_choice ?_)
  simp only [List.Forall]
  refine ⟨?_, ?_⟩
  · refine (leaves_sequence (.cons leaves_word (.cons leaves_word (.cons arguments
      (.cons leaves_word .nil))))).mono fun kids hk pos => ?_
    simp only [fits_one, fits_nothing, fits_nil] at hk
    obtain ⟨_, _, rfl, ⟨inner, items, rfl, hi⟩, rfl⟩ := hk
    obtain ⟨arguments, rfl, ha⟩ := every_printed hi
    exact .printWith ha
  · refine (leaves_sequence (.cons leaves_word (.cons leaves_word (.cons leaves_word
      .nil)))).mono fun kids hk pos => ?_
    simp only [fits_nothing, fits_nil] at hk
    obtain rfl := hk
    exact .print

theorem makes_anyExpr : Makes expr Shape :=
  makes_choice ⟨makes_forExpr, makes_block, makes_printCall, makes_rule (by simp [Row.rules])⟩

/-! ### Statements -/

theorem makes_assignment : Makes assignment Shape := by
  have operator : Leaves assignOp (One fun tree => ∃ (pos : Option Pos) (leaf : Leaf),
      tree = .node .assignOp pos [leaf.tree] ∧ leaf.text ∈ assignments) := by
    have spelling (terminal : Terminal) (word : String) (h : word ∈ assignments) :
        Makes (Parser.token terminal (spelled word)) (IsLeaf (·.text ∈ assignments)) := by
      refine makes_spelled.mono ?_
      rintro _ ⟨leaf, rfl, rfl⟩
      exact ⟨leaf, rfl, h⟩
    have spellings : Makes (Parser.choice [Parser.token .assign (spelled "="),
        Parser.token .plusAssign (spelled "+="), Parser.token .minusAssign (spelled "-="),
        Parser.token .divAssign (spelled "/="), Parser.token .modAssign (spelled "mod=")])
        (IsLeaf (·.text ∈ assignments)) :=
      makes_choice ⟨spelling _ _ (by decide), spelling _ _ (by decide), spelling _ _ (by decide),
        spelling _ _ (by decide), spelling _ _ (by decide)⟩
    refine leaves_node spellings.starts (spellings.leaves.mono ?_)
    rintro _ ⟨_, rfl, leaf, rfl, ht⟩ pos
    exact ⟨some pos, leaf, rfl, ht⟩
  refine makes_node (starts_sequence makes_name.starts) ?_
  refine (leaves_sequence (.cons makes_name.leaves (.cons operator (.cons makes_expr.leaves
    .nil)))).mono fun kids hk pos => ?_
  simp only [fits_one, fits_nil] at hk
  obtain ⟨_, _, rfl, ⟨⟨_, text, place⟩, rfl, rfl⟩, _, _, rfl, ⟨inner, leaf, rfl, ht⟩, value, _, rfl,
    hv, rfl⟩ := hk
  exact .assignment ht hv

def IsClause (label : Label) (P : Tree → Prop) (tree : Tree) : Prop :=
  ∃ (pos : Pos) (inner : Tree), tree = .node label (some pos) [inner] ∧ P inner

theorem leaves_fromClause :
    Leaves fromClause (One (IsClause .fromClause (IsLeaf (·.terminal = .name)))) := by
  refine leaves_node (starts_sequence starts_lexed) ?_
  refine (leaves_sequence (.cons leaves_word (.cons makes_name.leaves .nil))).mono
    fun kids hk pos => ?_
  simp only [fits_one, fits_nothing, fits_nil] at hk
  obtain ⟨tree, _, rfl, ht, rfl⟩ := hk
  exact ⟨pos, tree, rfl, ht⟩

theorem leaves_whenClause : Leaves whenClause (One (IsClause .whenClause Shape)) := by
  refine leaves_node (starts_sequence starts_lexed) ?_
  refine (leaves_sequence (.cons leaves_word (.cons makes_expr.leaves .nil))).mono
    fun kids hk pos => ?_
  simp only [fits_one, fits_nothing, fits_nil] at hk
  obtain ⟨tree, _, rfl, ht, rfl⟩ := hk
  exact ⟨pos, tree, rfl, ht⟩

theorem leaves_loopVar :
    Leaves loopVar (One (IsClause .loopVar (IsLeaf (·.terminal = .name)))) := by
  refine leaves_node makes_name.starts (makes_name.leaves.mono ?_)
  rintro _ ⟨tree, rfl, ht⟩ pos
  exact ⟨pos, tree, rfl, ht⟩

theorem makes_breakStmt : Makes breakStmt Shape := by
  have starts {rest : List Parser} : Starts (Parser.sequence (Parser.word "break" :: rest)) :=
    starts_sequence starts_lexed
  refine makes_node (starts_choice ⟨starts, starts, starts, starts⟩) (leaves_choice ?_)
  simp only [List.Forall, List.cons_append, List.nil_append]
  refine ⟨?_, ?_, ?_, ?_⟩
  · refine (leaves_sequence (.cons leaves_word (.cons leaves_fromClause (.cons leaves_whenClause
      (.cons leaves_word (.cons makes_expr.leaves .nil)))))).mono fun kids hk pos => ?_
    simp only [fits_one, fits_nothing, fits_nil] at hk
    obtain ⟨_, _, rfl, ⟨place, _, rfl, leaf, rfl, _⟩, _, _, rfl, ⟨here, guard, rfl, hg⟩, result, _,
      rfl, hr, rfl⟩ := hk
    exact @Shape.leave pos (some (place, leaf)) (some (here, guard)) result (by simpa using hg) hr
  · refine (leaves_sequence (.cons leaves_word (.cons leaves_fromClause (.cons leaves_word
      (.cons makes_expr.leaves .nil))))).mono fun kids hk pos => ?_
    simp only [fits_one, fits_nothing, fits_nil] at hk
    obtain ⟨_, _, rfl, ⟨place, _, rfl, leaf, rfl, _⟩, result, _, rfl, hr, rfl⟩ := hk
    exact @Shape.leave pos (some (place, leaf)) none result (by simp) hr
  · refine (leaves_sequence (.cons leaves_word (.cons leaves_whenClause (.cons leaves_word
      (.cons makes_expr.leaves .nil))))).mono fun kids hk pos => ?_
    simp only [fits_one, fits_nothing, fits_nil] at hk
    obtain ⟨_, _, rfl, ⟨here, guard, rfl, hg⟩, result, _, rfl, hr, rfl⟩ := hk
    exact @Shape.leave pos none (some (here, guard)) result (by simpa using hg) hr
  · refine (leaves_sequence (.cons leaves_word (.cons leaves_word (.cons makes_expr.leaves
      .nil)))).mono fun kids hk pos => ?_
    simp only [fits_one, fits_nothing, fits_nil] at hk
    obtain ⟨result, _, rfl, hr, rfl⟩ := hk
    exact @Shape.leave pos none none result (by simp) hr

theorem makes_nextStmt : Makes nextStmt Shape := by
  have starts {rest : List Parser} : Starts (Parser.sequence (Parser.word "next" :: rest)) :=
    starts_sequence starts_lexed
  refine makes_node (starts_choice ⟨starts, starts, starts, starts_lexed⟩) (leaves_choice ?_)
  simp only [List.Forall]
  refine ⟨?_, ?_, ?_, ?_⟩
  · refine (leaves_sequence (.cons leaves_word (.cons leaves_loopVar (.cons leaves_whenClause
      .nil)))).mono fun kids hk pos => ?_
    simp only [fits_one, fits_nothing, fits_nil] at hk
    obtain ⟨_, _, rfl, ⟨place, _, rfl, leaf, rfl, _⟩, _, _, rfl, ⟨here, guard, rfl, hg⟩, rfl⟩ := hk
    exact @Shape.skip pos (some (place, leaf)) (some (here, guard)) (by simpa using hg)
  · refine (leaves_sequence (.cons leaves_word (.cons leaves_loopVar .nil))).mono
      fun kids hk pos => ?_
    simp only [fits_one, fits_nothing, fits_nil] at hk
    obtain ⟨_, _, rfl, ⟨place, _, rfl, leaf, rfl, _⟩, rfl⟩ := hk
    exact @Shape.skip pos (some (place, leaf)) none (by simp)
  · refine (leaves_sequence (.cons leaves_word (.cons leaves_whenClause .nil))).mono
      fun kids hk pos => ?_
    simp only [fits_one, fits_nothing, fits_nil] at hk
    obtain ⟨_, _, rfl, ⟨here, guard, rfl, hg⟩, rfl⟩ := hk
    exact @Shape.skip pos none (some (here, guard)) (by simpa using hg)
  · refine leaves_word.mono fun kids hk pos => ?_
    obtain rfl := hk
    exact @Shape.skip pos none none (by simp)

theorem makes_statement : Makes statement Shape :=
  makes_choice ⟨makes_assignment, makes_breakStmt, makes_nextStmt, makes_expr⟩

/-! ### Programs -/

theorem shape_statements {tree : Tree} (h : Shape tree) : tree.statements = [tree] := by
  cases h with
  | chain hl =>
    simp only [List.mem_cons, List.not_mem_nil, or_false] at hl
    rcases hl with rfl | rfl | rfl | rfl <;> rfl
  | _ => rfl

def IsItem (tree : Tree) : Prop := tree.isSeparator = false → Shape tree

theorem isItem_program {tree : Tree} (h : IsItem tree) : IsProgram tree := by
  cases hs : tree.isSeparator with
  | false =>
    intro item hi
    rw [shape_statements (h hs), List.mem_singleton] at hi
    exact hi ▸ h
  | true =>
    cases tree with
    | token terminal text pos =>
      intro item hi
      exact List.mem_singleton.mp hi ▸ h
    | node => cases hs
    | value => cases hs

theorem leaves_grouped {label : Label} {p : Parser} {K : List Tree → Prop} {P : Tree → Prop}
    (h : Leaves p K) (hone : ∀ kid, K [kid] → P kid)
    (hn : ∀ pos kids, K kids → P (.node label pos kids)) :
    Leaves (Parser.grouped label p) (One P) := by
  intro rows hr r hm
  obtain ⟨inner, hi, rfl⟩ := List.mem_map.mp hm
  have hk := h rows hr inner hi
  dsimp only
  split
  · rename_i kid heq
    rw [heq] at hk
    exact ⟨kid, rfl, hone kid hk⟩
  · exact ⟨_, rfl, hn _ _ hk⟩

theorem leaves_items : Leaves (Parser.choice
    [Parser.sequence
      [Parser.many separator, Parser.rule Row.statement,
       Parser.several (Parser.sequence [Parser.several separator, Parser.rule Row.statement]),
       Parser.many separator],
     Parser.sequence [Parser.many separator, Parser.rule Row.statement, Parser.many separator],
     Parser.many separator]) (Every IsItem) := by
  have nil : Every IsItem [] := by simp [Every]
  have separators : Leaves separator (Every IsItem) := by
    refine makes_separator.leaves.mono ?_
    rintro _ ⟨tree, rfl, ht⟩
    exact One.every ⟨tree, rfl, fun h => by simp [ht] at h⟩
  have item : Leaves (Parser.rule Row.statement) (Every IsItem) := by
    refine (makes_rule (by simp [Row.rules])).leaves.mono ?_
    rintro _ ⟨tree, rfl, ht⟩
    exact One.every ⟨tree, rfl, fun _ => ht⟩
  have many {p : Parser} (h : Leaves p (Every IsItem)) : Leaves (Parser.many p) (Every IsItem) :=
    leaves_many h nil fun _ _ => Every.append
  have next : Leaves (Parser.sequence [Parser.several separator, Parser.rule Row.statement])
      (Every IsItem) := by
    refine (leaves_sequence (.cons (leaves_several separators nil fun _ _ => Every.append)
      (.cons item .nil))).mono ?_
    rintro _ ⟨a, _, rfl, ha, b, _, rfl, hb, rfl⟩
    exact ha.append (hb.append nil)
  have more : Leaves (Parser.several (Parser.sequence
      [Parser.several separator, Parser.rule Row.statement])) (Every IsItem) :=
    leaves_several next nil fun _ _ => Every.append
  refine leaves_choice ⟨(leaves_sequence (.cons (many separators) (.cons item (.cons more
    (.cons (many separators) .nil))))).mono ?_, (leaves_sequence (.cons (many separators)
    (.cons item (.cons (many separators) .nil)))).mono ?_, many separators⟩
  · rintro _ ⟨a, _, rfl, ha, b, _, rfl, hb, c, _, rfl, hc, d, _, rfl, hd, rfl⟩
    exact ha.append (hb.append (hc.append (hd.append nil)))
  · rintro _ ⟨a, _, rfl, ha, b, _, rfl, hb, c, _, rfl, hc, rfl⟩
    exact ha.append (hb.append (hc.append nil))

theorem leaves_program : Leaves statements (One IsProgram) :=
  leaves_grouped leaves_items (fun kid hk => isItem_program (hk kid (by simp))) fun _ _ hk => hk

theorem Row.Sound.empty (rest : List Char) (pos : Pos) : Row.Sound { rest, pos } := by
  constructor
  · intro field hf
    simp only [Row.rules, List.mem_cons, List.not_mem_nil, or_false] at hf
    rcases hf with rfl | rfl | rfl | rfl | rfl | rfl | rfl | rfl | rfl | rfl | rfl | rfl <;>
      exact fun _ hr => nomatch hr
  · exact fun _ hr => nomatch hr

/-- A row stays sound when the parse of one more rule is entered. -/
theorem Row.Sound.enter {row next : Row} {later : List Row} {p : Parser} (h : Row.Sound row)
    (hl : ∀ r ∈ later, Row.Sound r) (hp : Makes p Shape)
    (hf : ∀ field ∈ Row.rules,
      (field next).get = (field row).get ∨ (field next).get = p (row :: later))
    (hs : next.statements = row.statements) : Row.Sound next := by
  have rows : ∀ r ∈ row :: later, Row.Sound r := List.forall_mem_cons.mpr ⟨h, hl⟩
  refine ⟨fun field hm r hr => ?_, hs ▸ h.statements⟩
  rcases hf field hm with heq | heq
  · exact h.rules field hm r (heq ▸ hr)
  · rw [heq] at hr
    exact ⟨hp.starts _ rows r hr, hp.leaves _ rows r hr⟩

theorem Row.Sound.finish {row : Row} {later : List Row} (h : Row.Sound row)
    (hl : ∀ r ∈ later, Row.Sound r) :
    Row.Sound { row with statements := ⟨fun _ => Grammar.statements (row :: later)⟩ } := by
  constructor
  · intro field hf
    have hrow := h.rules field hf
    simp only [Row.rules, List.mem_cons, List.not_mem_nil, or_false] at hf
    rcases hf with rfl | rfl | rfl | rfl | rfl | rfl | rfl | rfl | rfl | rfl | rfl | rfl <;>
      exact hrow
  · exact fun r hr => leaves_program _ (List.forall_mem_cons.mpr ⟨h, hl⟩) r hr

theorem rowAt_sound {rest : List Char} {pos : Pos} {later : List Row}
    (hl : ∀ row ∈ later, Row.Sound row) : Row.Sound (rowAt rest pos later) := by
  unfold rowAt
  extract_lets r₀ r₁ r₂ r₃ r₄ r₅ r₆ r₇ r₈ r₉ r₁₀ r₁₁ r₁₂
  have h₀ : Row.Sound r₀ := Row.Sound.empty rest pos
  have h₁ : Row.Sound r₁ := h₀.enter hl makes_atom (by simp [Row.rules, r₁, Thunk.get]) rfl
  have h₂ : Row.Sound r₂ := h₁.enter hl makes_unary (by simp [Row.rules, r₂, Thunk.get]) rfl
  have h₃ : Row.Sound r₃ := h₂.enter hl makes_power (by simp [Row.rules, r₃, Thunk.get]) rfl
  have h₄ : Row.Sound r₄ := h₃.enter hl makes_product (by simp [Row.rules, r₄, Thunk.get]) rfl
  have h₅ : Row.Sound r₅ := h₄.enter hl makes_sum (by simp [Row.rules, r₅, Thunk.get]) rfl
  have h₆ : Row.Sound r₆ := h₅.enter hl makes_comparison (by simp [Row.rules, r₆, Thunk.get]) rfl
  have h₇ : Row.Sound r₇ := h₆.enter hl makes_negation (by simp [Row.rules, r₇, Thunk.get]) rfl
  have h₈ : Row.Sound r₈ := h₇.enter hl makes_conjunction (by simp [Row.rules, r₈, Thunk.get]) rfl
  have h₉ : Row.Sound r₉ := h₈.enter hl makes_disjunction (by simp [Row.rules, r₉, Thunk.get]) rfl
  have h₁₀ : Row.Sound r₁₀ := h₉.enter hl makes_conditional (by simp [Row.rules, r₁₀, Thunk.get]) rfl
  have h₁₁ : Row.Sound r₁₁ := h₁₀.enter hl makes_anyExpr (by simp [Row.rules, r₁₁, Thunk.get]) rfl
  have h₁₂ : Row.Sound r₁₂ := h₁₁.enter hl makes_statement (by simp [Row.rules, r₁₂, Thunk.get]) rfl
  exact h₁₂.finish hl

theorem rows_sound (text : List Char) (pos : Pos) : ∀ row ∈ rows text pos, Row.Sound row := by
  induction text generalizing pos with
  | nil => exact List.forall_mem_cons.mpr ⟨rowAt_sound (by simp), by simp⟩
  | cons c rest ih => exact List.forall_mem_cons.mpr ⟨rowAt_sound (ih _), ih _⟩

/-- Every text that can be read has the tree of a program. -/
theorem parse_isProgram {text : String} {tree : Tree} (h : parse text = .ok tree) :
    IsProgram tree := by
  unfold parse at h
  extract_lets chars rows parse isWhole at h
  split at h
  · rename_i others heq
    cases h
    have hmem : tree ∈ (parse.readings.filter isWhole).flatMap (·.kids) := by simp [heq]
    obtain ⟨r, hr, hk⟩ := List.mem_flatMap.mp hmem
    obtain ⟨kid, hkid, hp⟩ :=
      leaves_statements rows (rows_sound _ _) r (List.mem_of_mem_filter hr)
    rw [hkid, List.mem_singleton] at hk
    exact hk ▸ hp
  · cases h

end DecimalScript.Grammar
