import DecimalScript.Proofs.Exits
import DecimalScript.Proofs.Shape
import DecimalScript.Term.OfTree
import Mathlib

/-! The terms of programs that can be read. They are regular: they have the places,
operators and names that their evaluation needs, and a text stands only among the
arguments of `print`. -/

namespace DecimalScript

namespace Term

inductive Regular : Term → Prop
  | truth {b : Bool} : Regular (.constant (.bool b))
  | number {text : String} (h : IsNumeral text) : Regular (.number text)
  | var {name : String} {pos : Pos} : Regular (.var name pos)
  | sequence {items : List Term} (h : ∀ item ∈ items, Regular item) : Regular (.sequence items)
  | traced {note : Note} {pos : Pos} {item : Term}
      (hn : ∀ name, note = .assigned name →
        ∃ namePos op value place, item = .assign name namePos op value place)
      (h : Regular item) : Regular (.traced note (some pos) item)
  | assign {name : String} {namePos pos : Pos} {op : AssignOp} {value : Term}
      (ho : ∀ operator, op ≠ .other operator) (h : Regular value) :
      Regular (.assign name namePos (.ok op) value (some pos))
  | leave {name : Option String} {guard result : Term} {pos : Pos} (hg : Regular guard)
      (hr : Regular result) : Regular (.leave (.ok name) guard result (some pos))
  | skip {name : Option String} {guard : Term} {pos : Pos} (hg : Regular guard) :
      Regular (.skip (.ok name) guard (some pos))
  | loop {name : String} {start stop body : Term} {pos : Pos} (hs : Regular start)
      (ht : Regular stop) (hb : Regular body) :
      Regular (.loop name start stop (.constant (.decimal .one)) false body (some pos))
  | loopBy {name : String} {start stop step body : Term} {pos : Pos} (hs : Regular start)
      (ht : Regular stop) (hw : Regular step) (hb : Regular body) :
      Regular (.loop name start stop step true body (some pos))
  | print {items : List Term}
      (h : ∀ item ∈ items, (∀ literal, item ≠ .quoted literal) → Regular item) :
      Regular (.print items)
  | numeric {usage : Usage} {item : Term} (h : Regular item) : Regular (.numeric usage item)
  | unwrapped {item : Term} (h : Regular item) : Regular (.unwrapped item)
  | sum {minus : Bool} {left right : Term} (hl : Regular left) (hr : Regular right) :
      Regular (.sum minus left right)
  | product {op : ProductOp} {left right : Term} {pos : Pos} (hl : Regular left)
      (hr : Regular right) : Regular (.product op left right (some pos))
  | power {base exponent : Term} {pos : Pos} (hb : Regular base) (he : Regular exponent) :
      Regular (.power base exponent (some pos))
  | signed {minus : Bool} {item : Term} (h : Regular item) : Regular (.signed minus item)
  | call {name : String} {pos : Pos} {items : List Term} (h : ∀ item ∈ items, Regular item) :
      Regular (.call name pos items)
  | conditional {condition holds otherwise : Term} (hc : Regular condition)
      (hh : Regular holds) (ho : Regular otherwise) :
      Regular (.conditional condition holds otherwise)
  | boolean {connective : Connective} {item : Term} (h : Regular item) :
      Regular (.boolean connective item)
  | connected {connective : Connective} {left right : Term} (hl : Regular left)
      (hr : Regular right) : Regular (.connected connective left right)
  | negated {item : Term} (h : Regular item) : Regular (.negated item)
  | comparison {first : Term} {operators : List String} {rest : List Term}
      (hf : Regular first) (ho : ∀ operator ∈ operators, operator ∈ Run.comparisons)
      (hr : ∀ item ∈ rest, Regular item) : Regular (.comparison first operators rest)

end Term

/-! ### Clauses that are found below a statement -/

def Found.All {α : Type} (P : α → Prop) (found : Found α) : Prop :=
  ∀ depth a, found = some (depth, a) → P a

namespace Found

variable {α : Type} {P : α → Prop} {x y : Found α}

theorem all_none : All P (none : Found α) := by
  intro _ _ h
  cases h

theorem All.deeper (hx : All P x) (hy : All P y) : All P (x.deeper y) := by
  unfold Found.deeper
  split
  · exact hy
  · exact hx
  · split
    · exact hy
    · exact hx

theorem All.below (hx : All P x) : All P x.below := by
  intro depth a h
  obtain ⟨⟨n, b⟩, hb, heq⟩ := Option.map_eq_some_iff.mp h
  cases heq
  exact hx _ _ hb

theorem All.orHere {isHere : Bool} {here : α} (hx : All P x) (hh : isHere → P here) :
    All P (x.orHere isHere here) := by
  intro depth a h
  cases x with
  | some found => exact hx depth a h
  | none =>
    cases isHere with
    | true =>
      cases h
      exact hh rfl
    | false => cases h

theorem deepest_all {find : Draft → Found α} {parts : List Part}
    (h : ∀ part ∈ parts, All P (find part.draft)) : All P (deepest find parts) := by
  have fold (parts : List Part) (x : Found α) (hx : All P x)
      (h : ∀ part ∈ parts, All P (find part.draft)) :
      All P (parts.foldl (fun found part => found.deeper (find part.draft).below) x) := by
    induction parts generalizing x with
    | nil => exact hx
    | cons part rest ih =>
      refine ih _ (hx.deeper (h part (by simp)).below) fun other ho => ?_
      exact h other (by simp [ho])
  exact fold parts none all_none h

end Found

/-- The clauses found in a draft can be used by the statement they belong to. -/
structure Draft.Clear (draft : Draft) : Prop where
  exit : draft.exit.All fun name => ∃ text, name = .ok text
  guard : draft.guard.All Term.Regular
  next : draft.next.All fun name => ∃ text, name = .ok text

def Part.of (tree : Tree) : Part := ⟨tree, Draft.ofTree tree⟩

theorem Draft.ofTrees_eq (trees : List Tree) : Draft.ofTrees trees = trees.map Part.of := by
  induction trees with
  | nil => rfl
  | cons tree rest ih =>
    rw [Draft.ofTrees, ih]
    rfl

theorem Draft.ofTree_node (label : Label) (pos : Option Pos) (kids : List Tree) :
    Draft.ofTree (.node label pos kids) = Draft.ofNode label pos (kids.map Part.of) := by
  rw [Draft.ofTree, Draft.ofTrees_eq]

theorem Term.ofTree_node (label : Label) (pos : Option Pos) (kids : List Tree) :
    Term.ofTree (.node label pos kids) =
      Term.ofNode label pos (kids.map Part.of) (deepest Draft.exit (kids.map Part.of))
        (deepest Draft.guard (kids.map Part.of)) (deepest Draft.next (kids.map Part.of)) := by
  rw [Term.ofTree, Draft.ofTree_node]
  rfl

namespace Draft

@[simp] theorem clear_token (terminal : Terminal) (text : String) (pos : Pos) :
    (Draft.ofTree (.token terminal text pos)).Clear :=
  ⟨Found.all_none, Found.all_none, Found.all_none⟩

@[simp] theorem clear_leaf (leaf : Leaf) : (Draft.ofTree leaf.tree).Clear := clear_token ..

/-- The clauses found below a node whose children are all clear. -/
theorem deepest_clear {kids : List Tree} (h : ∀ kid ∈ kids, (Draft.ofTree kid).Clear) :
    ((deepest Draft.exit (kids.map Part.of)).All fun name => ∃ text, name = .ok text) ∧
    (deepest Draft.guard (kids.map Part.of)).All Term.Regular ∧
    (deepest Draft.next (kids.map Part.of)).All fun name => ∃ text, name = .ok text := by
  have parts : ∀ part ∈ kids.map Part.of, part.draft.Clear := List.forall_mem_map.mpr h
  exact ⟨Found.deepest_all fun part hp => (parts part hp).exit,
    Found.deepest_all fun part hp => (parts part hp).guard,
    Found.deepest_all fun part hp => (parts part hp).next⟩

/-- A node adds a clause to those below it only if it is one. -/
theorem clear_node {label : Label} {pos : Option Pos} {kids : List Tree}
    (h : ∀ kid ∈ kids, (Draft.ofTree kid).Clear)
    (hf : label = .fromClause → ∃ text, Term.clauseName (kids.map Part.of) = .ok text)
    (hw : label = .whenClause → (Term.ofFirst (kids.map Part.of)).Regular)
    (hv : label = .loopVar → ∃ text, Term.clauseName (kids.map Part.of) = .ok text) :
    (Draft.ofTree (.node label pos kids)).Clear := by
  obtain ⟨hexit, hguard, hnext⟩ := deepest_clear h
  rw [Draft.ofTree_node]
  exact ⟨hexit.orHere fun h => hf (by simpa using h), hguard.orHere fun h => hw (by simpa using h),
    hnext.orHere fun h => hv (by simpa using h)⟩

theorem clear_plain {label : Label} {pos : Option Pos} {kids : List Tree}
    (h : ∀ kid ∈ kids, (Draft.ofTree kid).Clear)
    (hl : label ∉ [.fromClause, .whenClause, .loopVar]) :
    (Draft.ofTree (.node label pos kids)).Clear := by
  simp only [List.mem_cons, List.not_mem_nil, or_false, not_or] at hl
  obtain ⟨hf, hw, hv⟩ := hl
  exact clear_node h (absurd · hf) (absurd · hw) (absurd · hv)

end Draft

/-! ### Chains of operators -/

namespace Term

theorem operands_pairUp (pairs : List (Leaf × Tree)) :
    operands ((Tree.pairUp pairs).map Part.of) =
      pairs.map fun (operator, operand) => (Part.of operator.tree, Term.ofTree operand) := by
  induction pairs with
  | nil => rfl
  | cons pair rest ih =>
    change (_ :: operands ((Tree.pairUp rest).map Part.of)) = _
    rw [ih]
    rfl

theorem alternate_pairUp (pairs : List (Leaf × Tree)) :
    alternate ((Tree.pairUp pairs).map Part.of) = pairs.map fun pair => Term.ofTree pair.2 := by
  induction pairs with
  | nil => rfl
  | cons pair rest ih =>
    change (_ :: alternate ((Tree.pairUp rest).map Part.of)) = _
    rw [ih]
    rfl

theorem links_pairUp (pairs : List (Leaf × Tree)) :
    links ((Tree.pairUp pairs).map Part.of) =
      pairs.map fun (operator, operand) => (operator.text, Term.ofTree operand) := by
  induction pairs with
  | nil => rfl
  | cons pair rest ih =>
    change (_ :: links ((Tree.pairUp rest).map Part.of)) = _
    rw [ih]
    rfl

section Chain
variable {first : Tree} {pairs : List (Leaf × Tree)} (hf : (Term.ofTree first).Regular)
variable (hp : ∀ pair ∈ pairs, (Term.ofTree pair.2).Regular)
include hf hp

theorem ofSum_regular : (ofSum ((first :: Tree.pairUp pairs).map Part.of)).Regular := by
  rw [List.map_cons, ofSum, operands_pairUp, List.foldl_map]
  exact List.foldlRecOn pairs _ (.numeric hf) fun _ hleft pair hm => .sum hleft (hp pair hm)

theorem ofProduct_regular {pos : Pos} :
    (ofProduct (some pos) ((first :: Tree.pairUp pairs).map Part.of)).Regular := by
  rw [List.map_cons, ofProduct, operands_pairUp, List.foldl_map]
  exact List.foldlRecOn pairs _ (.unwrapped hf) fun _ hleft pair hm => .product hleft (hp pair hm)

theorem ofConnective_regular {connective : Connective} :
    (ofConnective connective ((first :: Tree.pairUp pairs).map Part.of)).Regular := by
  rw [List.map_cons, ofConnective, alternate_pairUp, List.foldl_map]
  exact List.foldlRecOn pairs _ (.boolean hf) fun _ hleft pair hm => .connected hleft (hp pair hm)

theorem ofComparison_regular (ho : ∀ pair ∈ pairs, pair.1.text ∈ Run.comparisons) :
    (ofComparison ((first :: Tree.pairUp pairs).map Part.of)).Regular := by
  cases pairs with
  | nil => exact hf
  | cons pair rest =>
    have hlinks := links_pairUp (pair :: rest)
    change (Term.comparison (Term.ofTree first) _ _).Regular
    rw [hlinks, List.map_map, List.map_map]
    exact .comparison hf (List.forall_mem_map.mpr ho) (List.forall_mem_map.mpr hp)

end Chain

end Term

/-! ### From shapes to terms -/

open DecimalScript.Tree (Shape IsProgram)

/-- A tree with a shape is a node with a place, and a note that tracing takes from it
names a variable only if its term is the assignment to that variable. -/
theorem Shape.node {tree : Tree} (h : Shape tree) :
    ∃ label pos kids, tree = .node label (some pos) kids ∧
      label ∉ [.sep, .seps, .statementList] ∧
      ∀ name, Term.noteOf label kids = .assigned name →
        ∃ namePos op value place, Term.ofTree tree = .assign name namePos op value place := by
  cases h with
  | chain hl =>
    simp only [List.mem_cons, List.not_mem_nil, or_false] at hl
    rcases hl with rfl | rfl | rfl | rfl <;> exact ⟨_, _, _, rfl, by simp, by simp [Term.noteOf]⟩
  | @assignment pos place inner name operator value ho hv =>
    refine ⟨_, _, _, rfl, by simp, fun other hn => ?_⟩
    cases hn
    exact ⟨_, _, _, _, rfl⟩
  | _ => exact ⟨_, _, _, rfl, by simp, by simp [Term.noteOf]⟩

theorem Tree.eq_of_isSeparator {tree : Tree} (h : tree.isSeparator) :
    ∃ text pos, tree = .token .sep text pos := by
  unfold Tree.isSeparator at h
  split at h
  · exact ⟨_, _, rfl⟩
  · cases h

theorem clear_separator {tree : Tree} (h : tree.isSeparator) : (Draft.ofTree tree).Clear := by
  obtain ⟨text, pos, rfl⟩ := Tree.eq_of_isSeparator h
  exact Draft.clear_token ..

theorem isToken_separator (tree : Tree) : (Part.of tree).isToken .sep = tree.isSeparator := by
  cases tree with
  | token terminal text pos => cases terminal <;> rfl
  | node => rfl
  | value => rfl

theorem ofStatementList_regular {kids : List Tree}
    (h : ∀ kid ∈ kids, kid.isSeparator = false → Shape kid ∧ (Term.ofTree kid).Regular) :
    (Term.ofStatementList (kids.map Part.of)).Regular := by
  refine .sequence fun item hi => ?_
  obtain ⟨part, hp, rfl⟩ := List.mem_map.mp hi
  obtain ⟨hp, hsep⟩ := List.mem_filter.mp hp
  obtain ⟨kid, hk, rfl⟩ := List.mem_map.mp hp
  rw [isToken_separator, Bool.and_eq_true, Bool.not_eq_true'] at hsep
  obtain ⟨hshape, hregular⟩ := h kid hk hsep.1
  obtain ⟨label, pos, inner, rfl, _, hnote⟩ := Shape.node hshape
  exact .traced hnote hregular

/-- A program is a list of statements or one alone. -/
theorem Tree.statements_cases (tree : Tree) :
    (∃ pos kids, tree = .node .statementList pos kids) ∨ tree.statements = [tree] := by
  unfold statements
  split
  · exact .inl ⟨_, _, rfl⟩
  · exact .inr rfl

/-- What holds of all statements of a program holds of the program. -/
theorem program_regular {tree : Tree} (h : IsProgram tree)
    (ih : ∀ item ∈ tree.statements, item.isSeparator = false →
      (Term.ofTree item).Regular ∧ (Draft.ofTree item).Clear) :
    (Draft.ofTree tree).Clear ∧ (tree.isSeparator = false → (Term.ofTree tree).Regular) := by
  rcases tree.statements_cases with ⟨pos, kids, rfl⟩ | hone
  · constructor
    · refine Draft.clear_plain (fun kid hk => ?_) (by decide)
      cases hs : kid.isSeparator with
      | true => exact clear_separator hs
      | false => exact (ih kid hk hs).2
    · intro _
      rw [Term.ofTree_node]
      exact ofStatementList_regular fun kid hk hs => ⟨h kid hk hs, (ih kid hk hs).1⟩
  · cases hs : tree.isSeparator with
    | true => exact ⟨clear_separator hs, nofun⟩
    | false =>
      have := ih tree (by simp [hone]) hs
      exact ⟨this.2, fun _ => this.1⟩

theorem clear_pairUp {first : Tree} {pairs : List (Leaf × Tree)} (hf : (Draft.ofTree first).Clear)
    (hp : ∀ pair ∈ pairs, (Draft.ofTree pair.2).Clear) :
    ∀ kid ∈ first :: Tree.pairUp pairs, (Draft.ofTree kid).Clear := by
  refine List.forall_mem_cons.mpr ⟨hf, fun kid hk => ?_⟩
  obtain ⟨pair, hm, hk⟩ := List.mem_flatMap.mp hk
  simp only [List.mem_cons, List.not_mem_nil, or_false] at hk
  rcases hk with rfl | rfl
  · exact Draft.clear_leaf _
  · exact hp pair hm

theorem shape_not_separator {tree : Tree} (h : Shape tree) : tree.isSeparator = false := by
  obtain ⟨label, pos, kids, rfl, _⟩ := Shape.node h
  rfl

/-- The separators before the last value of a conditional do not count. -/
theorem ofConditional_eq {holds condition otherwise : Tree} {separators : List Tree}
    (hh : Shape holds) (hc : Shape condition) (hs : ∀ separator ∈ separators, separator.isSeparator)
    (ho : Shape otherwise) :
    Term.ofConditional ((holds :: condition :: (separators ++ [otherwise])).map Part.of) =
      .conditional (Term.ofTree condition) (Term.ofTree holds) (Term.ofTree otherwise) := by
  have none : separators.filter (fun tree => !tree.isSeparator) = [] := by
    simpa [List.filter_eq_nil_iff] using hs
  have parts : ((holds :: condition :: (separators ++ [otherwise])).map Part.of).filter
      (!·.isToken .sep) = [Part.of holds, Part.of condition, Part.of otherwise] := by
    rw [List.filter_map]
    simp [Function.comp_def, isToken_separator, shape_not_separator, hh, hc, ho, none]
  rw [Term.ofConditional, parts]
  rfl

theorem Term.mem_of_mem_upToList {parts : List Part} {part : Part}
    (h : part ∈ Term.upToList parts) : part ∈ parts := by
  induction parts with
  | nil => exact h
  | cons first rest ih =>
    unfold Term.upToList at h
    split at h
    · simp_all
    · rcases List.mem_cons.mp h with rfl | h
      · simp
      · simp [ih h]

theorem ofBlock_regular {content : Tree}
    (hr : content.isSeparator = false → (Term.ofTree content).Regular) :
    (Term.sequence ((Term.upToList (Term.content [Part.of content])).map Part.term)).Regular := by
  refine .sequence fun item hi => ?_
  obtain ⟨part, hp, rfl⟩ := List.mem_map.mp hi
  obtain ⟨hp, hsep⟩ := List.mem_filter.mp (Term.mem_of_mem_upToList hp)
  obtain rfl := List.mem_singleton.mp hp
  rw [isToken_separator, Bool.and_eq_true, Bool.and_eq_true, Bool.not_eq_true'] at hsep
  exact hr hsep.1.1

theorem ofPrint_regular {inner : Option Pos} {arguments : List (Pos × Tree)}
    (h : ∀ argument ∈ arguments, (∀ text place, argument.2 ≠ .token .string text place) →
      (Term.ofTree argument.2).Regular) :
    (Term.ofPrint [Part.of (.node .printArgs inner
      (arguments.map fun (place, argument) => .node .printArg (some place) [argument]))]).Regular := by
  change (Term.print (Draft.ofTree _).printed).Regular
  rw [Draft.ofTree_node]
  refine .print fun item hi hq => ?_
  obtain ⟨part, hp, rfl⟩ := List.mem_map.mp hi
  obtain ⟨kid, hk, rfl⟩ := List.mem_map.mp (List.mem_of_mem_filter hp)
  obtain ⟨argument, ha, rfl⟩ := List.mem_map.mp hk
  refine h argument ha fun text place heq => ?_
  refine hq text ?_
  change Term.ofTree argument.2 = _
  rw [heq]
  rfl

theorem clear_print {inner : Option Pos} {arguments : List (Pos × Tree)}
    (h : ∀ argument ∈ arguments, (∀ text place, argument.2 ≠ .token .string text place) →
      (Draft.ofTree argument.2).Clear) :
    (Draft.ofTree (.node .printArgs inner
      (arguments.map fun (place, argument) => .node .printArg (some place) [argument]))).Clear := by
  refine Draft.clear_plain (fun kid hk => ?_) (by decide)
  obtain ⟨argument, ha, rfl⟩ := List.mem_map.mp hk
  refine Draft.clear_plain (List.forall_mem_singleton.mpr ?_) (by decide)
  by_cases hs : ∃ text place, argument.2 = .token .string text place
  · obtain ⟨text, place, heq⟩ := hs
    rw [heq]
    exact Draft.clear_token ..
  · exact h argument ha fun text place heq => hs ⟨text, place, heq⟩

/-- The clauses of a statement, each of which may be missing. -/
theorem clear_clauses {label : Label} (clause : Option (Pos × Leaf)) {guard : Option (Pos × Tree)}
    (hl : label = .fromClause ∨ label = .loopVar)
    (hg : ∀ clause ∈ guard, (Term.ofTree clause.2).Regular ∧ (Draft.ofTree clause.2).Clear) :
    ∀ kid ∈ (clause.map fun (place, name) => Tree.node label (some place) [name.tree]).toList ++
      (guard.map fun (place, when) => Tree.node .whenClause (some place) [when]).toList,
      (Draft.ofTree kid).Clear := by
  intro kid hk
  simp only [List.mem_append, Option.mem_toList, Option.map_eq_some_iff] at hk
  rcases hk with ⟨⟨place, name⟩, _, rfl⟩ | ⟨⟨place, when⟩, hm, rfl⟩
  · have hname : ∃ text, Term.clauseName ([name.tree].map Part.of) = .ok text := ⟨_, rfl⟩
    refine Draft.clear_node (by simp) (fun _ => hname) (fun h => ?_) fun _ => hname
    rcases hl with rfl | rfl <;> cases h
  · obtain ⟨hregular, hclear⟩ := hg _ hm
    exact Draft.clear_node (by simp [hclear]) nofun (fun _ => hregular) nofun

theorem assignOp_ne_other {text : String} (h : text ∈ assignments) (operator : String) :
    Term.assignOp text ≠ .other operator := by
  simp only [assignments, List.mem_cons, List.not_mem_nil, or_false] at h
  rcases h with rfl | rfl | rfl | rfl | rfl <;> simp [Term.assignOp]

theorem target_ok {found : Found (Except Defect String)}
    (h : found.All fun name => ∃ text, name = .ok text) : ∃ name, Term.target found = .ok name := by
  cases found with
  | none => exact ⟨none, rfl⟩
  | some found =>
    obtain ⟨text, ht⟩ := h found.1 found.2 rfl
    exact ⟨some text, by simp [Term.target, ht, Except.map]⟩

theorem guardOf_regular {found : Found Term} (h : found.All Term.Regular) :
    (Term.guardOf found).Regular := by
  cases found with
  | none => exact .truth
  | some found => exact h found.1 found.2 rfl

theorem ofFirst_last (kids : List Tree) (last : Tree) :
    Term.ofFirst (((kids ++ [last]).map Part.of).drop (((kids ++ [last]).map Part.of).length - 1)) =
      Term.ofTree last := by
  rw [List.map_append, List.drop_left' (by simp)]
  rfl

/-- The term of a tree is regular, and the clauses in it can be used by a statement around it. -/
def Tree.Usable (tree : Tree) : Prop := (Term.ofTree tree).Regular ∧ (Draft.ofTree tree).Clear

section Nodes
variable {pos : Pos}

theorem usable_callWith {place : Pos} {inner : Option Pos} {name : String} {arguments : List Tree}
    (h : ∀ argument ∈ arguments, argument.Usable) :
    Tree.Usable (.node .funcCall (some pos)
      [.token .name name place, .node .argList inner arguments]) := by
  have hitems : (Draft.ofTree (.node .argList inner arguments)).items =
      arguments.map Term.ofTree := by
    rw [Draft.ofTree_node]
    exact List.map_map
  constructor
  · refine .call fun item hi => ?_
    rw [hitems] at hi
    obtain ⟨argument, ha, rfl⟩ := List.mem_map.mp hi
    exact (h argument ha).1
  · have : (Draft.ofTree (.node .argList inner arguments)).Clear :=
      Draft.clear_plain (fun kid hk => (h kid hk).2) (by decide)
    exact Draft.clear_plain (by simp [this]) (by decide)

theorem usable_chain {label : Label} {first : Tree} {pairs : List (Leaf × Tree)}
    (hl : label ∈ [Label.sum, .product, .andExpr, .orExpr]) (hf : first.Usable)
    (hp : ∀ pair ∈ pairs, pair.2.Usable) :
    Tree.Usable (.node label (some pos) (first :: Tree.pairUp pairs)) := by
  have hregular : ∀ pair ∈ pairs, (Term.ofTree pair.2).Regular := fun pair hm => (hp pair hm).1
  have hclear := clear_pairUp hf.2 fun pair hm => (hp pair hm).2
  unfold Tree.Usable
  rw [Term.ofTree_node]
  simp only [List.mem_cons, List.not_mem_nil, or_false] at hl
  rcases hl with rfl | rfl | rfl | rfl
  · exact ⟨Term.ofSum_regular hf.1 hregular, Draft.clear_plain hclear (by decide)⟩
  · exact ⟨Term.ofProduct_regular hf.1 hregular, Draft.clear_plain hclear (by decide)⟩
  · exact ⟨Term.ofConnective_regular hf.1 hregular, Draft.clear_plain hclear (by decide)⟩
  · exact ⟨Term.ofConnective_regular hf.1 hregular, Draft.clear_plain hclear (by decide)⟩

theorem usable_plain {item : Tree} (hi : Shape item) (h : item.Usable) :
    Tree.Usable (.node .conditionalExpr (some pos) [item]) := by
  refine ⟨?_, Draft.clear_plain (by simp [h.2]) (by decide)⟩
  rw [Term.ofTree_node]
  change (Term.ofConditional [Part.of _]).Regular
  rw [Term.ofConditional, List.filter_singleton, isToken_separator, shape_not_separator hi]
  exact h.1

theorem usable_conditional {holds condition otherwise : Tree} {separators : List Tree}
    (hh : Shape holds) (hc : Shape condition)
    (hs : ∀ separator ∈ separators, separator.isSeparator) (ho : Shape otherwise)
    (ihh : holds.Usable) (ihc : condition.Usable) (iho : otherwise.Usable) :
    Tree.Usable (.node .conditionalExpr (some pos)
      (holds :: condition :: (separators ++ [otherwise]))) := by
  constructor
  · rw [Term.ofTree_node]
    change (Term.ofConditional _).Regular
    rw [ofConditional_eq hh hc hs ho]
    exact .conditional ihc.1 ihh.1 iho.1
  · refine Draft.clear_plain (fun kid hk => ?_) (by decide)
    simp only [List.mem_cons, List.mem_append, List.not_mem_nil, or_false] at hk
    rcases hk with rfl | rfl | hk | rfl
    · exact ihh.2
    · exact ihc.2
    · exact clear_separator (hs kid hk)
    · exact iho.2

theorem usable_assignment {place : Pos} {inner : Option Pos} {name : String} {operator : Leaf}
    {value : Tree} (ho : operator.text ∈ assignments) (hv : value.Usable) :
    Tree.Usable (.node .assignment (some pos)
      [.token .name name place, .node .assignOp inner [operator.tree], value]) := by
  refine ⟨.assign (assignOp_ne_other ho) hv.1, ?_⟩
  have : (Draft.ofTree (.node .assignOp inner [operator.tree])).Clear :=
    Draft.clear_plain (by simp) (by decide)
  exact Draft.clear_plain (by simp [this, hv.2]) (by decide)

theorem usable_leave {exit : Option (Pos × Leaf)} {guard : Option (Pos × Tree)} {result : Tree}
    (hg : ∀ clause ∈ guard, clause.2.Usable) (hr : result.Usable) :
    Tree.Usable (.node .breakStmt (some pos)
      ((exit.map fun (place, name) => Tree.node .fromClause (some place) [name.tree]).toList ++
        (guard.map fun (place, when) => Tree.node .whenClause (some place) [when]).toList ++
        [result])) := by
  have hclear : ∀ kid ∈ _ ++ [result], (Draft.ofTree kid).Clear :=
    List.forall_mem_append.mpr ⟨clear_clauses exit (.inl rfl) hg, by simpa using hr.2⟩
  refine ⟨?_, Draft.clear_plain hclear (by decide)⟩
  obtain ⟨hexit, hguard, _⟩ := Draft.deepest_clear hclear
  obtain ⟨name, hname⟩ := target_ok hexit
  rw [Term.ofTree_node]
  simp only [Term.ofNode, hname]
  rw [ofFirst_last]
  exact .leave (guardOf_regular hguard) hr.1

theorem usable_skip {next : Option (Pos × Leaf)} {guard : Option (Pos × Tree)}
    (hg : ∀ clause ∈ guard, clause.2.Usable) :
    Tree.Usable (.node .nextStmt (some pos)
      ((next.map fun (place, name) => Tree.node .loopVar (some place) [name.tree]).toList ++
        (guard.map fun (place, when) => Tree.node .whenClause (some place) [when]).toList)) := by
  have hclear := clear_clauses next (.inr rfl) hg
  refine ⟨?_, Draft.clear_plain hclear (by decide)⟩
  obtain ⟨_, hguard, hnext⟩ := Draft.deepest_clear hclear
  obtain ⟨name, hname⟩ := target_ok hnext
  rw [Term.ofTree_node]
  simp only [Term.ofNode, hname]
  exact .skip (guardOf_regular hguard)

end Nodes

theorem shape_usable {tree : Tree} (h : Shape tree) : tree.Usable := by
  induction h with
  | number h => exact ⟨.number h, Draft.clear_plain (by simp) (by decide)⟩
  | var => exact ⟨.var, Draft.clear_plain (by simp) (by decide)⟩
  | call => exact ⟨.call (by simp), Draft.clear_plain (by simp) (by decide)⟩
  | callWith h ih => exact usable_callWith ih
  | unary h ih => exact ⟨.signed ih.1, Draft.clear_plain (by simp [ih.2]) (by decide)⟩
  | power hb he ihb ihe =>
    exact ⟨.power ihb.1 ihe.1, Draft.clear_plain (by simp [ihb.2, ihe.2]) (by decide)⟩
  | chain hl hf hp ihf ihp => exact usable_chain hl ihf ihp
  | comparison hf ho hp ihf ihp =>
    unfold Tree.Usable
    rw [Term.ofTree_node]
    exact ⟨Term.ofComparison_regular ihf.1 (fun pair hm => (ihp pair hm).1) ho,
      Draft.clear_plain (clear_pairUp ihf.2 fun pair hm => (ihp pair hm).2) (by decide)⟩
  | negation h ih => exact ⟨.negated ih.1, Draft.clear_plain (by simp [ih.2]) (by decide)⟩
  | plain h ih => exact usable_plain h ih
  | conditional hh hc hs ho ihh ihc iho => exact usable_conditional hh hc hs ho ihh ihc iho
  | block h ih =>
    obtain ⟨hclear, hregular⟩ := program_regular h ih
    exact ⟨ofBlock_regular hregular, Draft.clear_plain (by simp [hclear]) (by decide)⟩
  | loop hs ht hb ihs iht ihb =>
    exact ⟨.loop ihs.1 iht.1 ihb.1,
      Draft.clear_plain (by simp [ihs.2, iht.2, ihb.2]) (by decide)⟩
  | loopBy hs ht hw hb ihs iht ihw ihb =>
    exact ⟨.loopBy ihs.1 iht.1 ihw.1 ihb.1,
      Draft.clear_plain (by simp [ihs.2, iht.2, ihw.2, ihb.2]) (by decide)⟩
  | print => exact ⟨.print (by simp), Draft.clear_plain (by simp) (by decide)⟩
  | printWith h ih =>
    refine ⟨ofPrint_regular fun argument ha hs => (ih argument ha hs).1, ?_⟩
    refine Draft.clear_plain (List.forall_mem_singleton.mpr ?_) (by decide)
    exact clear_print fun argument ha hs => (ih argument ha hs).2
  | assignment ho hv ihv => exact usable_assignment ho ihv
  | leave hg hr ihg ihr => exact usable_leave ihg ihr
  | skip hg ihg => exact usable_skip ihg

end DecimalScript
