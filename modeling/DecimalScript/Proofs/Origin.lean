import DecimalScript.Proofs.Regular
import Mathlib

/-! Where the loops and jumps in a term come from, and the names. The term of a node is
made of the terms of nodes below it; only loops, jumps and what has a name are made
at places of their own, so each of them is the whole term of such a place. -/

namespace DecimalScript

/-! ### Trees inside trees -/

namespace Tree

mutual

def subtrees : Tree → List Tree
  | .node label pos children => .node label pos children :: subtreesOf children
  | tree => [tree]

def subtreesOf : List Tree → List Tree
  | [] => []
  | tree :: rest => subtrees tree ++ subtreesOf rest

end

theorem subtreesOf_eq (trees : List Tree) : subtreesOf trees = trees.flatMap subtrees := by
  induction trees with
  | nil => rw [subtreesOf, List.flatMap_nil]
  | cons tree rest ih => rw [subtreesOf, ih, List.flatMap_cons]

theorem self_mem_subtrees (tree : Tree) : tree ∈ tree.subtrees := by
  cases tree <;> simp [subtrees]

theorem mem_subtrees_of_child {label : Label} {pos : Option Pos} {kids : List Tree} {kid tree : Tree}
    (hk : kid ∈ kids) (h : tree ∈ kid.subtrees) : tree ∈ (Tree.node label pos kids).subtrees := by
  rw [subtrees, subtreesOf_eq]
  exact List.mem_cons_of_mem _ (List.mem_flatMap.mpr ⟨kid, hk, h⟩)

def isJump : Tree → Bool
  | .node .breakStmt _ _ | .node .nextStmt _ _ => true
  | _ => false

def loopName : Tree → Option String
  | .node .forExpr _ (.token _ name _ :: _) => some name
  | _ => none

/-- The bounds of a loop and its step, which is there if the loop has five parts. -/
def header : Tree → List Tree
  | .node .forExpr _ children => (children.drop 1).take (if children.length = 5 then 3 else 2)
  | _ => []

/-- Somewhere in the tree a loop over the variable has a jump in its bounds or step. -/
def JumpsInHeader (tree : Tree) (name : String) : Prop :=
  ∃ loop ∈ tree.subtrees, loop.loopName = some name ∧
    ∃ part ∈ loop.header, ∃ jump ∈ part.subtrees, jump.isJump

/-- No loop in the tree has a jump in its bounds or step. -/
def FreeHeaders (tree : Tree) : Prop :=
  ∀ loop ∈ tree.subtrees, ∀ part ∈ loop.header, ∀ jump ∈ part.subtrees, jump.isJump = false

theorem FreeHeaders.not_jumpsInHeader {tree : Tree} {name : String} (h : tree.FreeHeaders) :
    ¬tree.JumpsInHeader name := by
  rintro ⟨loop, hl, _, part, hp, jump, hj, hjump⟩
  rw [h loop hl part hp jump hj] at hjump
  cases hjump

instance (tree : Tree) : Decidable tree.FreeHeaders :=
  inferInstanceAs (Decidable (∀ loop ∈ tree.subtrees, ∀ part ∈ loop.header,
    ∀ jump ∈ part.subtrees, jump.isJump = false))

instance (tree : Tree) (name : String) : Decidable (tree.JumpsInHeader name) :=
  inferInstanceAs (Decidable (∃ loop ∈ tree.subtrees, loop.loopName = some name ∧
    ∃ part ∈ loop.header, ∃ jump ∈ part.subtrees, jump.isJump))

end Tree

namespace Term

/-- The place that a loop, a jump to one or a term with a name of its own comes from. -/
def anchor? : Term → Option Label
  | .loop .. => some .forExpr
  | .leave .. => some .breakStmt
  | .skip .. => some .nextStmt
  | .var .. => some .var
  | .assign .. => some .assignment
  | .call .. => some .funcCall
  | _ => none

/-- A loop, a jump to one, or a term with the name of a variable or function. -/
def isAnchored (t : Term) : Bool := t.anchor?.isSome

/-- The property passes from terms to the terms made of them, but for loops, jumps and names. -/
def Closed (P : Term → Prop) : Prop := ∀ t, t.isAnchored = false → (∀ u ∈ t.children, P u) → P t

/-! ### The terms of nodes are made of those of their children -/

section Closed
variable {P : Term → Prop} (hP : Closed P) {parts : List Part} (h : ∀ part ∈ parts, P part.term)
include hP

theorem Closed.leaf {t : Term} (ht : t.isAnchored = false) (hc : t.children = []) : P t :=
  hP t ht (by simp [hc])

theorem Closed.malformed (defect : Defect) : P (.malformed defect) := hP.leaf rfl rfl

theorem Closed.constant (value : Value) : P (.constant value) := hP.leaf rfl rfl

theorem Closed.one {t u : Term} (ht : t.isAnchored = false) (hc : t.children = [u]) (hu : P u) :
    P t := hP t ht (by simpa [hc] using hu)

theorem Closed.two {t u v : Term} (ht : t.isAnchored = false) (hc : t.children = [u, v]) (hu : P u)
    (hv : P v) : P t := hP t ht (by simpa [hc] using ⟨hu, hv⟩)

theorem Closed.withToken (parts : List Part) {f : String → Pos → Term}
    (hf : ∀ text pos, P (f text pos)) : P (Term.withToken parts f) := by
  unfold Term.withToken
  split
  · exact hP.malformed _
  · split
    · exact hf _ _
    · exact hP.malformed _

include h

theorem Closed.ofFirst : P (Term.ofFirst parts) := by
  cases parts with
  | nil => exact hP.malformed _
  | cons part rest => exact h part (by simp)

theorem Closed.operands : ∀ x ∈ Term.operands parts, P x.2 := by
  have right {operator : Part} {t : Term} (ht : P t) : P (operator.rightOf t) := by
    unfold Part.rightOf
    split
    · exact ht
    · exact hP.malformed _
  fun_induction Term.operands parts with
  | case1 => simp
  | case2 operator => simpa using right (hP.malformed _)
  | case3 operator operand rest ih =>
    refine List.forall_mem_cons.mpr ⟨right (h operand (by simp)), ih fun part hp => h part ?_⟩
    simp [hp]

theorem Closed.ofSum : P (Term.ofSum parts) := by
  cases parts with
  | nil => exact hP.malformed _
  | cons first rest =>
    have hrest : ∀ x ∈ Term.operands rest, P x.2 :=
      hP.operands fun part hp => h part (by simp [hp])
    exact List.foldlRecOn _ _ (hP.one rfl rfl (h first (by simp)))
      fun _ hleft x hx => hP.two rfl rfl hleft (hrest x hx)

theorem Closed.ofProduct (pos : Option Pos) : P (Term.ofProduct pos parts) := by
  cases parts with
  | nil => exact hP.malformed _
  | cons first rest =>
    have hrest : ∀ x ∈ Term.operands rest, P x.2 :=
      hP.operands fun part hp => h part (by simp [hp])
    exact List.foldlRecOn _ _ (hP.one rfl rfl (h first (by simp)))
      fun _ hleft x hx => hP.two rfl rfl hleft (hrest x hx)

theorem Closed.ofPower (pos : Option Pos) : P (Term.ofPower pos parts) := by
  match parts, h with
  | [], _ => exact hP.malformed _
  | [base], h => exact hP.one rfl rfl (h base (by simp))
  | base :: operator :: rest, h =>
    exact hP.two rfl rfl (h base (by simp)) (hP.ofFirst fun part hp => h part (by simp [hp]))

theorem Closed.ofUnary : P (Term.ofUnary parts) := by
  match parts, h with
  | [], _ => exact hP.malformed _
  | [item], h => exact h item (by simp)
  | operator :: item :: rest, h =>
    unfold Term.ofUnary
    dsimp only
    split
    · exact hP.one rfl rfl (h item (by simp))
    · exact hP.malformed _

omit hP in
theorem alternate_forall : ∀ t ∈ Term.alternate parts, P t := by
  fun_induction Term.alternate parts with
  | case1 operator operand rest ih =>
    refine List.forall_mem_cons.mpr ⟨h operand (by simp), ih fun part hp => h part ?_⟩
    simp [hp]
  | case2 => simp

theorem Closed.ofConnective (connective : Connective) : P (Term.ofConnective connective parts) := by
  cases parts with
  | nil => exact hP.malformed _
  | cons first rest =>
    have hrest : ∀ t ∈ Term.alternate rest, P t :=
      alternate_forall fun part hp => h part (by simp [hp])
    exact List.foldlRecOn _ _ (hP.one rfl rfl (h first (by simp)))
      fun _ hleft t ht => hP.two rfl rfl hleft (hrest t ht)

theorem Closed.ofNegation : P (Term.ofNegation parts) := by
  match parts, h with
  | [], _ => exact hP.malformed _
  | [item], h => exact h item (by simp)
  | _ :: item :: _, h => exact hP.one rfl rfl (h item (by simp))

theorem Closed.links : ∀ link ∈ Term.links parts, P link.2 := by
  fun_induction Term.links parts with
  | case1 operator operand rest text pos ht ih =>
    refine List.forall_mem_cons.mpr ⟨h operand (by simp), ih fun part hp => h part ?_⟩
    simp [hp]
  | case2 => simpa using hP.malformed _
  | case3 => simp

theorem Closed.ofComparison : P (Term.ofComparison parts) := by
  match parts, h with
  | [], _ => exact hP.constant _
  | [item], h => exact h item (by simp)
  | first :: second :: rest, h =>
    have hlinks : ∀ link ∈ Term.links (second :: rest), P link.2 :=
      hP.links fun part hp => h part (List.mem_cons_of_mem _ hp)
    refine hP _ rfl (List.forall_mem_cons.mpr ⟨h first (by simp), ?_⟩)
    exact List.forall_mem_map.mpr hlinks

theorem Closed.ofConditional : P (Term.ofConditional parts) := by
  have kept : ∀ part ∈ parts.filter (!·.isToken .sep), P part.term :=
    fun part hp => h part (List.mem_of_mem_filter hp)
  unfold Term.ofConditional
  split
  · rename_i item heq
    exact kept item (by simp [heq])
  · rename_i holds condition otherwise rest heq
    rw [heq] at kept
    refine hP _ rfl ?_
    simp only [children, List.mem_cons, List.not_mem_nil, or_false, forall_eq_or_imp, forall_eq]
    exact ⟨kept condition (by simp), kept holds (by simp), kept otherwise (by simp)⟩
  · exact hP.malformed _

theorem Closed.ofAssignment_children (pos : Option Pos) :
    ∀ t ∈ (Term.ofAssignment pos parts).children, P t := by
  unfold Term.ofAssignment Term.withToken
  split
  · exact nofun
  · split
    · split
      · exact nofun
      · rename_i operator rest heq
        split
        · refine List.forall_mem_singleton.mpr (hP.ofFirst fun part hp => h part ?_)
          exact List.mem_of_mem_drop (heq ▸ List.mem_cons_of_mem _ hp)
        · exact nofun
    · exact nofun

theorem Closed.ofStatementList : P (Term.ofStatementList parts) := by
  refine hP _ rfl fun t ht => ?_
  obtain ⟨part, hp, rfl⟩ := List.mem_map.mp ht
  have hpart := h part (List.mem_of_mem_filter hp)
  unfold Term.ofStatement
  split
  · exact hP.one rfl rfl hpart
  · exact hpart

omit h

omit hP in
theorem ofVar_children (parts : List Part) :
    ∀ t ∈ (Term.withToken parts Term.var).children, P t := by
  unfold Term.withToken
  split
  · exact nofun
  · split <;> exact nofun

omit hP in
theorem ofCall_children (hi : ∀ part ∈ parts, ∀ t ∈ part.draft.items, P t) :
    ∀ t ∈ (Term.ofCall parts).children, P t := by
  unfold Term.ofCall Term.withToken
  split
  · exact nofun
  · split
    · split
      · exact nofun
      · rename_i arguments rest heq
        split
        · exact hi arguments (List.mem_of_mem_drop (heq ▸ List.mem_cons_self ..))
        · exact nofun
    · exact nofun

theorem Closed.ofPrint (hi : ∀ part ∈ parts, ∀ t ∈ part.draft.printed, P t) :
    P (Term.ofPrint parts) := by
  cases parts with
  | nil => exact hP.leaf rfl rfl
  | cons arguments rest =>
    unfold Term.ofPrint
    dsimp only
    split
    · exact hP _ rfl (hi arguments (by simp))
    · exact hP.malformed _

end Closed

end Term

/-- The term of a draft has the property, and so has every term that a node around it can use. -/
structure Draft.Has (P : Term → Prop) (draft : Draft) : Prop where
  term : P draft.term
  items : ∀ t ∈ draft.items, P t
  printed : ∀ t ∈ draft.printed, P t
  guard : draft.guard.All P

namespace Term

/-- The nodes of loops and jumps, and of what has a name. -/
def anchors : List Label := [.breakStmt, .nextStmt, .forExpr, .assignment, .var, .funcCall]

section Node
variable {P : Term → Prop} (hP : Closed P) {parts : List Part}
variable (h : ∀ part ∈ parts, part.draft.Has P)
include hP h

theorem Closed.guardOf : P (Term.guardOf (deepest Draft.guard parts)) := by
  have hguard : (deepest Draft.guard parts).All P :=
    Found.deepest_all fun part hp => (h part hp).guard
  cases hg : deepest Draft.guard parts with
  | none => exact hP.constant _
  | some found => exact hguard found.1 found.2 hg

theorem Closed.ofLoop_children (pos : Option Pos) : ∀ t ∈ (Term.ofLoop pos parts).children, P t := by
  have child (n : Nat) : P (Term.ofFirst (parts.drop n)) :=
    hP.ofFirst fun part hp => (h part (List.mem_of_mem_drop hp)).term
  have step : P (if parts.length == 5 then Term.ofFirst (parts.drop 3)
      else .constant (.decimal .one)) := by
    split
    · exact child 3
    · exact hP.constant _
  unfold Term.ofLoop Term.withToken
  split
  · exact nofun
  · split
    · refine List.forall_mem_cons.mpr ⟨child 1, List.forall_mem_cons.mpr ⟨child 2, ?_⟩⟩
      exact List.forall_mem_cons.mpr ⟨step, List.forall_mem_singleton.mpr (child _)⟩
    · exact nofun

/-- A node that is no loop or jump and has no name has the property if all below it has. -/
theorem Closed.ofNode {label : Label} (hl : label ∉ anchors)
    (pos : Option Pos) (exit : Found (Except Defect String)) (guard : Found Term)
    (next : Found (Except Defect String)) : P (Term.ofNode label pos parts exit guard next) := by
  have terms : ∀ part ∈ parts, P part.term := fun part hp => (h part hp).term
  cases label with
  | breakStmt | nextStmt | forExpr | assignment | var | funcCall => simp [anchors] at hl
  | start =>
    refine hP _ rfl (List.forall_mem_map.mpr fun part hp => ?_)
    exact terms part (List.mem_of_mem_filter hp)
  | block =>
    refine hP _ rfl (List.forall_mem_map.mpr fun part hp => ?_)
    exact terms part (List.mem_of_mem_filter (mem_of_mem_upToList hp))
  | statementList => exact hP.ofStatementList terms
  | statement | expr | atom | printArg => exact hP.ofFirst terms
  | printCall => exact hP.ofPrint fun part hp => (h part hp).printed
  | conditionalExpr => exact hP.ofConditional terms
  | orExpr | andExpr => exact hP.ofConnective terms _
  | notExpr => exact hP.ofNegation terms
  | comparison => exact hP.ofComparison terms
  | sum => exact hP.ofSum terms
  | product => exact hP.ofProduct terms pos
  | power => exact hP.ofPower terms pos
  | unary => exact hP.ofUnary terms
  | number => exact hP.withToken parts fun _ _ => hP.leaf rfl rfl
  | argList => exact hP _ rfl (List.forall_mem_map.mpr terms)
  | printArgs =>
    refine hP _ rfl (List.forall_mem_map.mpr fun part hp => ?_)
    exact terms part (List.mem_of_mem_filter hp)
  | _ => exact hP.leaf rfl rfl

end Node

/-- The first term is the second or stands somewhere inside it. -/
inductive Below : Term → Term → Prop
  | here {t : Term} : Below t t
  | child {t u w : Term} (h : u ∈ t.children) (hb : Below w u) : Below w t

end Term

/-! ### Loops, jumps and names of a term are terms of places in the tree -/

namespace Tree

/-- A loop, a jump to one, or something with a name. -/
def isAnchored : Tree → Bool
  | .node label _ _ => label ∈ Term.anchors
  | .token terminal _ _ => terminal = .name
  | .value _ => false

/-- What holds of a tree whenever it holds of its children holds of all trees. -/
theorem children_induction {P : Tree → Prop}
    (node : ∀ label pos kids, (∀ kid ∈ kids, P kid) → P (.node label pos kids))
    (token : ∀ terminal text pos, P (.token terminal text pos)) (value : ∀ v, P (.value v))
    (tree : Tree) : P tree :=
  match tree with
  | .node label pos kids => node label pos kids fun kid _ => children_induction node token value kid
  | .token terminal text pos => token terminal text pos
  | .value v => value v
termination_by sizeOf tree
decreasing_by
  have : sizeOf kid < sizeOf kids := List.sizeOf_lt_of_mem ‹_›
  simp
  omega

end Tree

/-- Each loop, jump or named term in the term is the term of such a place in the tree. -/
def From (tree : Tree) (t : Term) : Prop :=
  ∀ u, Term.Below u t → u.isAnchored → ∃ w ∈ tree.subtrees, w.isAnchored ∧ Term.ofTree w = u

theorem from_closed (tree : Tree) : Term.Closed (From tree) := by
  intro t ht hc u hu hanchored
  cases hu with
  | here => rw [ht] at hanchored; cases hanchored
  | child hm hb => exact hc _ hm u hb hanchored

theorem From.mono {label : Label} {pos : Option Pos} {kids : List Tree} {kid : Tree} {t : Term}
    (h : From kid t) (hk : kid ∈ kids) : From (.node label pos kids) t := by
  intro u hu hc
  obtain ⟨w, hw, hwc, heq⟩ := h u hu hc
  exact ⟨w, Tree.mem_subtrees_of_child hk hw, hwc, heq⟩

theorem from_anchored (tree : Tree) (ht : tree.isAnchored)
    (hc : ∀ u ∈ (Term.ofTree tree).children, From tree u) : From tree (Term.ofTree tree) := by
  intro u hu hanchored
  cases hu with
  | here => exact ⟨tree, tree.self_mem_subtrees, ht, rfl⟩
  | child hm hb => exact hc _ hm u hb hanchored

theorem draft_from (tree : Tree) : (Draft.ofTree tree).Has (From tree) := by
  induction tree using Tree.children_induction with
  | token terminal text pos =>
    have hterm : From (.token terminal text pos) (Term.ofToken terminal text pos) := by
      cases terminal with
      | name => exact from_anchored (.token .name text pos) rfl nofun
      | _ => exact (from_closed _).leaf rfl rfl
    exact ⟨hterm, nofun, nofun, Found.all_none⟩
  | value v => exact ⟨(from_closed _).leaf rfl rfl, nofun, nofun, Found.all_none⟩
  | node label pos kids ih =>
    have hP := from_closed (.node label pos kids)
    have parts : ∀ part ∈ kids.map Part.of, part.draft.Has (From (.node label pos kids)) := by
      refine List.forall_mem_map.mpr fun kid hk => ?_
      obtain ⟨hterm, hitems, hprinted, hguard⟩ := ih kid hk
      exact ⟨hterm.mono hk, fun t ht => (hitems t ht).mono hk, fun t ht => (hprinted t ht).mono hk,
        fun depth t ht => (hguard depth t ht).mono hk⟩
    have terms : ∀ part ∈ kids.map Part.of, From (.node label pos kids) part.term :=
      fun part hp => (parts part hp).term
    rw [Draft.ofTree_node]
    refine ⟨?_, List.forall_mem_map.mpr terms, ?_, ?_⟩
    · by_cases hl : label ∈ Term.anchors
      · have hanchored : (Tree.node label pos kids).isAnchored := by simpa [Tree.isAnchored] using hl
        have hterm := from_anchored _ hanchored
        rw [Term.ofTree_node] at hterm
        refine hterm ?_
        simp only [Term.anchors, List.mem_cons, List.not_mem_nil, or_false] at hl
        rcases hl with rfl | rfl | rfl | rfl | rfl | rfl
        · refine List.forall_mem_cons.mpr ⟨hP.guardOf parts, List.forall_mem_singleton.mpr ?_⟩
          exact hP.ofFirst fun part hp => terms part (List.mem_of_mem_drop hp)
        · exact List.forall_mem_singleton.mpr (hP.guardOf parts)
        · exact hP.ofLoop_children parts pos
        · exact hP.ofAssignment_children terms pos
        · exact Term.ofVar_children _
        · exact Term.ofCall_children fun part hp => (parts part hp).items
      · exact hP.ofNode parts hl pos _ _ _
    · exact List.forall_mem_map.mpr fun part hp => terms part (List.mem_of_mem_filter hp)
    · refine (Found.deepest_all fun part hp => (parts part hp).guard).orHere fun _ => ?_
      exact hP.ofFirst terms

/-! ### The place that a term comes from -/

namespace Term

/-- The name of a variable, a function or a loop's variable. -/
def title? : Term → Option String
  | .loop name .. | .var name _ | .assign name .. | .call name .. => some name
  | _ => none

/-- A term that begins with a token of its node, or is malformed. -/
theorem withToken_cases (kids : List Tree) (f : String → Pos → Term) :
    (∃ terminal text place rest, kids = .token terminal text place :: rest ∧
      withToken (kids.map Part.of) f = f text place) ∨
    ∃ defect, withToken (kids.map Part.of) f = .malformed defect := by
  cases kids with
  | nil => exact .inr ⟨_, rfl⟩
  | cons first rest =>
    cases first with
    | token terminal text place => exact .inl ⟨terminal, text, place, rest, rfl, rfl⟩
    | node | value => exact .inr ⟨_, rfl⟩

section Place
variable {label : Label} {pos : Option Pos} {kids : List Tree} {exit next : Found (Except Defect String)}
variable {guard : Found Term} {t : Term}

/-- A term with a place of its own comes from a node of its own kind, where its name stands first. -/
theorem ofNode_anchor (hl : label ∈ anchors)
    (h : ofNode label pos (kids.map Part.of) exit guard next = t) :
    (∀ kind, t.anchor? = some kind → kind = label) ∧
      ∀ name, t.title? = some name →
        ∃ terminal place rest, kids = .token terminal name place :: rest := by
  have titled {f : String → Pos → Term} (hf : withToken (kids.map Part.of) f = t)
      (hk : ∀ text place kind, (f text place).anchor? = some kind → kind = label)
      (hn : ∀ text place name, (f text place).title? = some name → name = text) :
      (∀ kind, t.anchor? = some kind → kind = label) ∧
        ∀ name, t.title? = some name →
          ∃ terminal place rest, kids = .token terminal name place :: rest := by
    subst hf
    rcases withToken_cases kids f with ⟨terminal, text, place, rest, rfl, heq⟩ | ⟨defect, heq⟩
    · rw [heq]
      refine ⟨hk text place, fun name hname => ⟨terminal, place, rest, ?_⟩⟩
      rw [hn text place name hname]
    · rw [heq]
      exact ⟨nofun, nofun⟩
  simp only [anchors, List.mem_cons, List.not_mem_nil, or_false] at hl
  rcases hl with rfl | rfl | rfl | rfl | rfl | rfl
  · subst h
    exact ⟨fun _ hk => (Option.some.inj hk).symm, nofun⟩
  · subst h
    exact ⟨fun _ hk => (Option.some.inj hk).symm, nofun⟩
  · refine titled h (fun _ _ _ hk => (Option.some.inj hk).symm) ?_
    exact fun _ _ _ hn => (Option.some.inj hn).symm
  · refine titled h (fun text place kind hk => ?_) fun text place name hn => ?_
    · split at hk
      · cases hk
      · split at hk
        · exact (Option.some.inj hk).symm
        · cases hk
    · split at hn
      · cases hn
      · split at hn
        · exact (Option.some.inj hn).symm
        · cases hn
  · refine titled h (fun _ _ _ hk => (Option.some.inj hk).symm) ?_
    exact fun _ _ _ hn => (Option.some.inj hn).symm
  · refine titled h (fun text place kind hk => ?_) fun text place name hn => ?_
    · split at hk
      · exact (Option.some.inj hk).symm
      · split at hk
        · exact (Option.some.inj hk).symm
        · cases hk
    · split at hn
      · exact (Option.some.inj hn).symm
      · split at hn
        · exact (Option.some.inj hn).symm
        · cases hn

end Place

end Term

/-- A term with a place of its own comes from a token, if it is a variable, or from a node of
its own kind where its name stands first. -/
theorem anchor_source {w : Tree} {t : Term} {kind : Label} (hw : w.isAnchored)
    (h : Term.ofTree w = t) (hk : t.anchor? = some kind) :
    (∃ name pos place, w = .token .name name place ∧ t = .var name pos) ∨
      ∃ pos kids, w = .node kind pos kids ∧ ∀ name, t.title? = some name →
        ∃ terminal place rest, kids = .token terminal name place :: rest := by
  cases w with
  | value => cases hw
  | token terminal text place =>
    cases terminal with
    | name => exact .inl ⟨text, place, place, rfl, h.symm⟩
    | _ => subst h; cases hk
  | node label pos kids =>
    have hl : label ∈ Term.anchors := by simpa [Tree.isAnchored] using hw
    rw [Term.ofTree_node] at h
    obtain ⟨hkind, htitle⟩ := Term.ofNode_anchor hl h
    rw [hkind kind hk]
    exact .inr ⟨pos, kids, rfl, htitle⟩

/-- A term other than a variable comes from a node of its own kind. -/
theorem anchor_node (kind : Label) {w : Tree} {t : Term} (hw : w.isAnchored)
    (h : Term.ofTree w = t) (hk : t.anchor? = some kind) (hv : kind ≠ .var) :
    ∃ pos kids, w = .node kind pos kids := by
  rcases anchor_source hw h hk with ⟨_, _, _, _, rfl⟩ | ⟨pos, kids, hw, _⟩
  · exact absurd (Option.some.inj hk).symm hv
  · exact ⟨pos, kids, hw⟩

end DecimalScript
