import DecimalScript.Proofs.Origin
import Mathlib

/-! Trees and terms with their places moved. The term of a tree that is moved is the term of
the tree, moved. -/

namespace DecimalScript

variable {σ : Pos → Pos}

/-! ### Trees and terms -/

namespace Tree

mutual

def relocate (σ : Pos → Pos) : Tree → Tree
  | .node label pos kids => .node label (pos.map σ) (relocateAll σ kids)
  | .token terminal text pos => .token terminal text (σ pos)
  | .value v => .value v

def relocateAll (σ : Pos → Pos) : List Tree → List Tree
  | [] => []
  | tree :: rest => relocate σ tree :: relocateAll σ rest

end

theorem relocateAll_eq (trees : List Tree) : relocateAll σ trees = trees.map (relocate σ) := by
  induction trees with
  | nil => rfl
  | cons tree rest ih => exact congrArg (relocate σ tree :: ·) ih

@[simp] theorem relocate_node (label : Label) (pos : Option Pos) (kids : List Tree) :
    (node label pos kids).relocate σ = node label (pos.map σ) (kids.map (relocate σ)) :=
  congrArg (node label (pos.map σ)) (relocateAll_eq kids)

@[simp] theorem relocate_token (terminal : Terminal) (text : String) (pos : Pos) :
    (token terminal text pos).relocate σ = token terminal text (σ pos) := rfl

end Tree

namespace Term

mutual

def relocate (σ : Pos → Pos) : Term → Term
  | .constant value => .constant value
  | .exactNumber text => .exactNumber text
  | .number text => .number text
  | .quoted literal => .quoted literal
  | .var name pos => .var name (σ pos)
  | .sequence items => .sequence (relocateAll σ items)
  | .traced note pos item => .traced note (pos.map σ) (relocate σ item)
  | .assign name namePos op value pos =>
    .assign name (σ namePos) op (relocate σ value) (pos.map σ)
  | .leave target guard result pos =>
    .leave target (relocate σ guard) (relocate σ result) (pos.map σ)
  | .skip target guard pos => .skip target (relocate σ guard) (pos.map σ)
  | .loop name start stop step showsStep body pos =>
    .loop name (relocate σ start) (relocate σ stop) (relocate σ step) showsStep
      (relocate σ body) (pos.map σ)
  | .print items => .print (relocateAll σ items)
  | .row items => .row (relocateAll σ items)
  | .numeric usage item => .numeric usage (relocate σ item)
  | .unwrapped item => .unwrapped (relocate σ item)
  | .sum minus left right => .sum minus (relocate σ left) (relocate σ right)
  | .product op left right pos => .product op (relocate σ left) (relocate σ right) (pos.map σ)
  | .power base exponent pos => .power (relocate σ base) (relocate σ exponent) (pos.map σ)
  | .signed minus item => .signed minus (relocate σ item)
  | .call name pos items => .call name (σ pos) (relocateAll σ items)
  | .conditional condition holds otherwise =>
    .conditional (relocate σ condition) (relocate σ holds) (relocate σ otherwise)
  | .boolean connective item => .boolean connective (relocate σ item)
  | .connected connective left right =>
    .connected connective (relocate σ left) (relocate σ right)
  | .negated item => .negated (relocate σ item)
  | .comparison first operators rest =>
    .comparison (relocate σ first) operators (relocateAll σ rest)
  | .unsupported name => .unsupported name
  | .malformed defect => .malformed defect

def relocateAll (σ : Pos → Pos) : List Term → List Term
  | [] => []
  | item :: rest => relocate σ item :: relocateAll σ rest

end

theorem relocateAll_eq (items : List Term) : relocateAll σ items = items.map (relocate σ) := by
  induction items with
  | nil => rfl
  | cons item rest ih => exact congrArg (relocate σ item :: ·) ih

theorem relocate_sequence (items : List Term) :
    (sequence items).relocate σ = sequence (items.map (relocate σ)) :=
  congrArg sequence (relocateAll_eq items)

theorem relocate_print (items : List Term) :
    (print items).relocate σ = print (items.map (relocate σ)) :=
  congrArg print (relocateAll_eq items)

theorem relocate_row (items : List Term) :
    (row items).relocate σ = row (items.map (relocate σ)) :=
  congrArg row (relocateAll_eq items)

theorem relocate_call (name : String) (pos : Pos) (items : List Term) :
    (call name pos items).relocate σ = call name (σ pos) (items.map (relocate σ)) :=
  congrArg (call name (σ pos)) (relocateAll_eq items)

theorem relocate_comparison (first : Term) (operators : List String) (rest : List Term) :
    (comparison first operators rest).relocate σ =
      comparison (first.relocate σ) operators (rest.map (relocate σ)) :=
  congrArg (comparison (first.relocate σ) operators) (relocateAll_eq rest)

end Term

/-! ### Moving a tree moves its term -/

def Found.mapped {α β : Type} (f : α → β) (found : Found α) : Found β := found.map (Prod.map id f)

theorem Found.mapped_deeper {α β : Type} (f : α → β) (x y : Found α) :
    (x.mapped f).deeper (y.mapped f) = (x.deeper y).mapped f := by
  rcases x with _ | ⟨m, a⟩ <;> rcases y with _ | ⟨n, b⟩ <;>
    simp only [Found.mapped, Found.deeper, Option.map_none, Option.map_some, Prod.map_apply, id_eq]
  split <;> rfl

theorem Found.mapped_below {α β : Type} (f : α → β) (x : Found α) :
    (x.mapped f).below = x.below.mapped f := by
  rcases x with _ | ⟨m, a⟩ <;> rfl

def Draft.relocate (σ : Pos → Pos) (draft : Draft) : Draft where
  term := draft.term.relocate σ
  items := draft.items.map (Term.relocate σ)
  printed := draft.printed.map (Term.relocate σ)
  exit := draft.exit
  guard := draft.guard.mapped (Term.relocate σ)
  next := draft.next

def Part.relocate (σ : Pos → Pos) (part : Part) : Part :=
  ⟨part.tree.relocate σ, part.draft.relocate σ⟩

namespace Part

theorem map_term_relocate (parts : List Part) :
    (parts.map (relocate σ)).map term = (parts.map term).map (Term.relocate σ) := by
  rw [List.map_map, List.map_map]
  rfl

@[simp] theorem relocate_isToken (part : Part) (terminal : Terminal) :
    (part.relocate σ).isToken terminal = part.isToken terminal := by
  obtain ⟨tree, draft⟩ := part
  cases tree <;> rfl

@[simp] theorem relocate_isNode (part : Part) (label : Label) :
    (part.relocate σ).isNode label = part.isNode label := by
  obtain ⟨tree, draft⟩ := part
  cases tree <;> rfl

@[simp] theorem relocate_token (part : Part) :
    (part.relocate σ).token = part.token.map (Prod.map id σ) := by
  obtain ⟨tree, draft⟩ := part
  cases tree <;> rfl

@[simp] theorem relocate_reads (part : Part) (text : String) :
    (part.relocate σ).reads text = part.reads text := by
  unfold reads
  rw [relocate_token]
  cases part.token <;> rfl

theorem rightOf_relocate (operator : Part) (right : Term) :
    (operator.relocate σ).rightOf (right.relocate σ) = (operator.rightOf right).relocate σ := by
  unfold rightOf
  rw [relocate_token]
  cases operator.token <;> rfl

end Part

namespace Term

variable (σ) (parts : List Part)

theorem ofFirst_relocate : ofFirst (parts.map (Part.relocate σ)) = (ofFirst parts).relocate σ := by
  cases parts <;> rfl

theorem withToken_relocate {f g : String → Pos → Term}
    (h : ∀ text pos, g text (σ pos) = (f text pos).relocate σ) :
    withToken (parts.map (Part.relocate σ)) g = (withToken parts f).relocate σ := by
  cases parts with
  | nil => rfl
  | cons part rest =>
    simp only [withToken, List.map_cons, Part.relocate_token]
    cases part.token with
    | error defect => rfl
    | ok token => exact h token.1 token.2

theorem operands_relocate : operands (parts.map (Part.relocate σ)) =
    (operands parts).map (Prod.map (Part.relocate σ) (relocate σ)) := by
  fun_induction operands parts with
  | case1 => rfl
  | case2 operator =>
    have hright := Part.rightOf_relocate (σ := σ) operator (.malformed .missing)
    simp only [List.map_cons, List.map_nil, operands, Prod.map_apply]
    rw [← hright]
    rfl
  | case3 operator right rest ih =>
    have hright := Part.rightOf_relocate (σ := σ) operator right.term
    simp only [List.map_cons, operands, ih, Prod.map_apply]
    rw [← hright]
    rfl

theorem foldl_relocate {α : Type} {f g : Term → α → Term} (first : Term) (items : List α)
    (h : ∀ t a, g (t.relocate σ) a = (f t a).relocate σ) :
    items.foldl g (first.relocate σ) = (items.foldl f first).relocate σ := by
  induction items generalizing first with
  | nil => rfl
  | cons a rest ih => rw [List.foldl_cons, List.foldl_cons, h, ih]

theorem ofSum_relocate : ofSum (parts.map (Part.relocate σ)) = (ofSum parts).relocate σ := by
  cases parts with
  | nil => rfl
  | cons first rest =>
    rw [List.map_cons, ofSum, ofSum, operands_relocate, List.foldl_map]
    refine foldl_relocate σ (.numeric .sum first.term) _ fun t a => ?_
    obtain ⟨operator, right⟩ := a
    change sum (!(operator.relocate σ).reads "+") (t.relocate σ) (right.relocate σ) = _
    rw [Part.relocate_reads]
    rfl

theorem productOp_relocate (part : Part) : productOp (part.relocate σ) = productOp part := by
  simp only [productOp, Part.relocate_reads]

theorem ofProduct_relocate (pos : Option Pos) :
    ofProduct (pos.map σ) (parts.map (Part.relocate σ)) = (ofProduct pos parts).relocate σ := by
  cases parts with
  | nil => rfl
  | cons first rest =>
    rw [List.map_cons, ofProduct, ofProduct, operands_relocate, List.foldl_map]
    refine foldl_relocate σ (.unwrapped first.term) _ fun t a => ?_
    obtain ⟨operator, right⟩ := a
    change product (productOp (operator.relocate σ)) (t.relocate σ) (right.relocate σ) _ = _
    rw [productOp_relocate]
    rfl

theorem ofPower_relocate (pos : Option Pos) :
    ofPower (pos.map σ) (parts.map (Part.relocate σ)) = (ofPower pos parts).relocate σ := by
  rcases parts with _ | ⟨base, _ | ⟨operator, rest⟩⟩
  · rfl
  · rfl
  · simp only [List.map_cons, ofPower, ofFirst_relocate]
    rfl

theorem ofUnary_relocate : ofUnary (parts.map (Part.relocate σ)) = (ofUnary parts).relocate σ := by
  rcases parts with _ | ⟨operator, _ | ⟨item, rest⟩⟩
  · rfl
  · rfl
  · simp only [List.map_cons, ofUnary, Part.relocate_token]
    cases operator.token <;> rfl

theorem alternate_relocate :
    alternate (parts.map (Part.relocate σ)) = (alternate parts).map (relocate σ) := by
  fun_induction alternate parts with
  | case1 operator right rest ih =>
    simp only [List.map_cons, alternate, ih]
    rfl
  | case2 parts h =>
    rcases parts with _ | ⟨operator, _ | ⟨right, rest⟩⟩
    · rfl
    · rfl
    · exact absurd rfl (h operator right rest)

theorem ofConnective_relocate (connective : Connective) :
    ofConnective connective (parts.map (Part.relocate σ)) =
      (ofConnective connective parts).relocate σ := by
  cases parts with
  | nil => rfl
  | cons first rest =>
    rw [List.map_cons, ofConnective, ofConnective, alternate_relocate, List.foldl_map]
    exact foldl_relocate σ (.boolean connective first.term) _ fun t a => rfl

theorem ofNegation_relocate :
    ofNegation (parts.map (Part.relocate σ)) = (ofNegation parts).relocate σ := by
  rcases parts with _ | ⟨operator, _ | ⟨item, rest⟩⟩ <;> rfl

theorem links_relocate :
    links (parts.map (Part.relocate σ)) = (links parts).map (Prod.map id (relocate σ)) := by
  fun_induction links parts with
  | case1 operator right rest text pos htoken ih =>
    simp only [List.map_cons, links, Part.relocate_token, htoken, Except.map, ih]
    rfl
  | case2 operator right rest defect htoken =>
    simp only [List.map_cons, links, Part.relocate_token, htoken, Except.map]
    rfl
  | case3 parts h =>
    rcases parts with _ | ⟨operator, _ | ⟨right, rest⟩⟩
    · rfl
    · rfl
    · exact absurd rfl (h operator right rest)

theorem ofComparison_relocate :
    ofComparison (parts.map (Part.relocate σ)) = (ofComparison parts).relocate σ := by
  rcases parts with _ | ⟨first, _ | ⟨operator, rest⟩⟩
  · rfl
  · rfl
  · have hlinks := links_relocate σ (operator :: rest)
    rw [List.map_cons] at hlinks
    simp only [List.map_cons, ofComparison, hlinks, relocate_comparison, List.map_map]
    rfl

theorem filter_relocate {p : Part → Bool} (h : ∀ part, p (part.relocate σ) = p part) :
    (parts.map (Part.relocate σ)).filter p = (parts.filter p).map (Part.relocate σ) := by
  rw [List.filter_map]
  congr 1
  exact List.filter_congr fun part _ => h part

theorem ofConditional_relocate :
    ofConditional (parts.map (Part.relocate σ)) = (ofConditional parts).relocate σ := by
  unfold ofConditional
  rw [filter_relocate σ parts fun part => by rw [Part.relocate_isToken]]
  generalize parts.filter (fun part => !part.isToken .sep) = solid
  rcases solid with _ | ⟨x, _ | ⟨y, _ | ⟨z, rest⟩⟩⟩ <;> rfl

theorem readAssignOp_relocate (kids : List Tree) :
    readAssignOp (kids.map (Tree.relocate σ)) = readAssignOp kids := by
  rcases kids with _ | ⟨first, rest⟩
  · rfl
  · cases first <;> rfl

theorem ofAssignment_relocate (pos : Option Pos) :
    ofAssignment (pos.map σ) (parts.map (Part.relocate σ)) = (ofAssignment pos parts).relocate σ := by
  unfold ofAssignment
  refine withToken_relocate σ parts fun name namePos => ?_
  rw [← List.map_drop]
  rcases parts.drop 1 with _ | ⟨⟨tree, draft⟩, rest⟩
  · rfl
  · cases tree with
    | node label place kids =>
      simp only [List.map_cons, Part.relocate, Tree.relocate_node, readAssignOp_relocate]
      exact congrArg (assign name (σ namePos) (readAssignOp kids) · (pos.map σ))
        (ofFirst_relocate σ rest)
    | token | value => rfl

theorem ofCall_relocate : ofCall (parts.map (Part.relocate σ)) = (ofCall parts).relocate σ := by
  unfold ofCall
  refine withToken_relocate σ parts fun name pos => ?_
  rw [← List.map_drop]
  rcases parts.drop 1 with _ | ⟨⟨tree, draft⟩, rest⟩
  · rfl
  · cases tree with
    | node label place kids =>
      simp only [List.map_cons, Part.relocate, Tree.relocate_node, relocate_call]
      rfl
    | token | value => rfl

theorem ofPrint_relocate : ofPrint (parts.map (Part.relocate σ)) = (ofPrint parts).relocate σ := by
  rcases parts with _ | ⟨⟨tree, draft⟩, rest⟩
  · rfl
  · cases tree with
    | node label place kids =>
      simp only [List.map_cons, ofPrint, Part.relocate, Tree.relocate_node, relocate_print]
      rfl
    | token | value => rfl

theorem ofLoop_relocate (pos : Option Pos) :
    ofLoop (pos.map σ) (parts.map (Part.relocate σ)) = (ofLoop pos parts).relocate σ := by
  unfold ofLoop
  refine withToken_relocate σ parts fun name place => ?_
  simp only [List.length_map, ← List.map_drop, ofFirst_relocate]
  split <;> rfl

theorem clauseName_relocate : clauseName (parts.map (Part.relocate σ)) = clauseName parts := by
  cases parts with
  | nil => rfl
  | cons part rest =>
    simp only [List.map_cons, clauseName, Part.relocate_token]
    cases part.token <;> rfl

theorem guardOf_relocate (found : Found Term) :
    guardOf (found.mapped (relocate σ)) = (guardOf found).relocate σ := by
  rcases found with _ | ⟨n, guard⟩ <;> rfl

theorem noteOf_relocate (label : Label) (kids : List Tree) :
    noteOf label (kids.map (Tree.relocate σ)) = noteOf label kids := by
  cases label with
  | assignment =>
    rcases kids with _ | ⟨first, rest⟩
    · rfl
    · cases first <;> rfl
  | _ => rfl

theorem ofStatement_relocate (part : Part) :
    ofStatement (part.relocate σ) = (ofStatement part).relocate σ := by
  obtain ⟨tree, draft⟩ := part
  cases tree with
  | node label pos kids =>
    simp only [ofStatement, Part.relocate, Tree.relocate_node, noteOf_relocate]
    rfl
  | token | value => rfl

theorem ofStatementList_relocate :
    ofStatementList (parts.map (Part.relocate σ)) = (ofStatementList parts).relocate σ := by
  unfold ofStatementList
  rw [filter_relocate σ parts fun part => by rw [Part.relocate_isToken, Part.relocate_isNode]]
  simp only [relocate_sequence, List.map_map, Function.comp_def, ofStatement_relocate]

theorem content_relocate :
    content (parts.map (Part.relocate σ)) = (content parts).map (Part.relocate σ) :=
  filter_relocate σ parts fun part => by simp only [Part.relocate_isToken, Part.relocate_isNode]

theorem upToList_relocate :
    upToList (parts.map (Part.relocate σ)) = (upToList parts).map (Part.relocate σ) := by
  induction parts with
  | nil => rfl
  | cons part rest ih =>
    simp only [List.map_cons, upToList, Part.relocate_isNode, ih]
    split <;> rfl

/-- The term of a sequence of children. -/
theorem sequence_relocate : Term.sequence ((parts.map (Part.relocate σ)).map Part.term) =
    (Term.sequence (parts.map Part.term)).relocate σ := by
  rw [relocate_sequence, Part.map_term_relocate]

theorem row_relocate : Term.row ((parts.map (Part.relocate σ)).map Part.term) =
    (Term.row (parts.map Part.term)).relocate σ := by
  rw [relocate_row, Part.map_term_relocate]

theorem printedTerms_relocate :
    printedTerms (parts.map (Part.relocate σ)) = (printedTerms parts).map (relocate σ) := by
  unfold printedTerms
  rw [filter_relocate σ parts fun part => by rw [Part.relocate_isNode], Part.map_term_relocate]

theorem ofNode_relocate (label : Label) (pos : Option Pos) (exit : Found (Except Defect String))
    (guard : Found Term) (next : Found (Except Defect String)) :
    ofNode label (pos.map σ) (parts.map (Part.relocate σ)) exit (guard.mapped (relocate σ)) next =
      (ofNode label pos parts exit guard next).relocate σ := by
  cases label with
  | start =>
    simp only [ofNode, content_relocate]
    exact sequence_relocate σ _
  | statementList => exact ofStatementList_relocate σ parts
  | statement | expr | atom | printArg => exact ofFirst_relocate σ parts
  | assignment => exact ofAssignment_relocate σ parts pos
  | breakStmt =>
    simp only [ofNode, guardOf_relocate, List.length_map, ← List.map_drop, ofFirst_relocate]
    rfl
  | nextStmt =>
    simp only [ofNode, guardOf_relocate]
    rfl
  | forExpr => exact ofLoop_relocate σ parts pos
  | block =>
    simp only [ofNode, content_relocate, upToList_relocate]
    exact sequence_relocate σ _
  | printCall => exact ofPrint_relocate σ parts
  | conditionalExpr => exact ofConditional_relocate σ parts
  | orExpr => exact ofConnective_relocate σ parts .or
  | andExpr => exact ofConnective_relocate σ parts .and
  | notExpr => exact ofNegation_relocate σ parts
  | comparison => exact ofComparison_relocate σ parts
  | sum => exact ofSum_relocate σ parts
  | product => exact ofProduct_relocate σ parts pos
  | power => exact ofPower_relocate σ parts pos
  | unary => exact ofUnary_relocate σ parts
  | number => exact withToken_relocate σ parts fun _ _ => rfl
  | var => exact withToken_relocate σ parts fun _ _ => rfl
  | funcCall => exact ofCall_relocate σ parts
  | argList => exact row_relocate σ parts
  | printArgs =>
    simp only [ofNode, printedTerms_relocate, relocate_row]
  | _ => rfl

theorem ofToken_relocate (terminal : Terminal) (text : String) (pos : Pos) :
    ofToken terminal text (σ pos) = (ofToken terminal text pos).relocate σ := by
  cases terminal <;> rfl

end Term

theorem deepest_relocate {α : Type} (find : Draft → Found α) (f : α → α)
    (h : ∀ draft, find (draft.relocate σ) = (find draft).mapped f) (parts : List Part) :
    deepest find (parts.map (Part.relocate σ)) = (deepest find parts).mapped f := by
  have hfrom (found : Found α) :
      (parts.map (Part.relocate σ)).foldl (fun found part => found.deeper (find part.draft).below)
        (found.mapped f) =
      (parts.foldl (fun found part => found.deeper (find part.draft).below) found).mapped f := by
    induction parts generalizing found with
    | nil => rfl
    | cons part rest ih =>
      simp only [List.map_cons, List.foldl_cons]
      rw [show (part.relocate σ).draft = part.draft.relocate σ from rfl, h, Found.mapped_below,
        Found.mapped_deeper, ih]
  exact hfrom none

theorem Found.mapped_orHere {α β : Type} (f : α → β) (found : Found α) (isHere : Bool) (here : α) :
    (found.mapped f).orHere isHere (f here) = (found.orHere isHere here).mapped f := by
  rcases found with _ | ⟨n, a⟩
  · cases isHere <;> rfl
  · rfl

theorem Found.mapped_id {α : Type} (found : Found α) : found.mapped id = found := by
  rcases found with _ | ⟨n, a⟩ <;> rfl

theorem Draft.ofNode_relocate (label : Label) (pos : Option Pos) (parts : List Part) :
    Draft.ofNode label (pos.map σ) (parts.map (Part.relocate σ)) =
      (Draft.ofNode label pos parts).relocate σ := by
  have hexit := deepest_relocate (σ := σ) Draft.exit id
    (fun draft => (Found.mapped_id draft.exit).symm) parts
  have hguard := deepest_relocate Draft.guard (Term.relocate σ) (fun _ => rfl) parts
  have hnext := deepest_relocate (σ := σ) Draft.next id
    (fun draft => (Found.mapped_id draft.next).symm) parts
  rw [Found.mapped_id] at hexit hnext
  simp only [Draft.ofNode, Draft.relocate, hexit, hguard, hnext, Term.ofNode_relocate,
    Term.clauseName_relocate, Term.ofFirst_relocate, Found.mapped_orHere, Draft.mk.injEq,
    Part.map_term_relocate, and_true, true_and]
  exact Term.printedTerms_relocate σ parts

theorem Draft.ofTree_relocate (tree : Tree) :
    Draft.ofTree (tree.relocate σ) = (Draft.ofTree tree).relocate σ := by
  induction tree using Tree.children_induction with
  | node label pos kids ih =>
    have hparts : Draft.ofTrees (kids.map (Tree.relocate σ)) =
        (Draft.ofTrees kids).map (Part.relocate σ) := by
      rw [Draft.ofTrees_eq, Draft.ofTrees_eq, List.map_map, List.map_map]
      refine List.map_congr_left fun kid hk => ?_
      simp only [Function.comp_apply, Part.of, Part.relocate, ih kid hk]
    rw [Tree.relocate_node]
    change Draft.ofNode label (pos.map σ) (Draft.ofTrees (kids.map (Tree.relocate σ))) = _
    rw [hparts, Draft.ofNode_relocate]
    rfl
  | token terminal text pos =>
    exact congrArg (fun term => ({ term } : Draft)) (Term.ofToken_relocate σ terminal text pos)
  | value v => rfl

theorem Term.ofTree_relocate (tree : Tree) :
    Term.ofTree (tree.relocate σ) = (Term.ofTree tree).relocate σ :=
  congrArg Draft.term (Draft.ofTree_relocate tree)

end DecimalScript
