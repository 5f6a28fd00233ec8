import DecimalScript.Proofs.Visibility
import Mathlib

/-! Which clauses a jump obeys. A jump looks for its loop and its condition in its whole tree, level
by level from the deepest one. So a clause of another jump, which stands in the condition or in
the result, comes before its own. -/

namespace DecimalScript

open DecimalScript.Tree (Shape)
open Run

/-! ### Levels of a tree -/

namespace Tree

/-- The subtrees at a depth, from left to right. -/
def level : Nat → Tree → List Tree
  | 0, tree => [tree]
  | depth + 1, .node _ _ kids => kids.flatMap (level depth)
  | _ + 1, _ => []

/-- The subtrees level by level, the deepest ones first. -/
def upwards (tree : Tree) : List Tree :=
  (List.range tree.subtrees.length).reverse.flatMap fun depth => tree.level depth

def hasLabel (label : Label) : Tree → Bool
  | .node other _ _ => other == label
  | _ => false

/-- The first node of a rule, from the deepest level upwards. -/
def foremost? (label : Label) (tree : Tree) : Option Tree := tree.upwards.find? (hasLabel label)

variable {tree t : Tree} {label : Label} {depth : Nat}

theorem eq_node (h : tree.hasLabel label) : ∃ pos kids, tree = .node label pos kids := by
  cases tree with
  | node other pos kids =>
    obtain rfl : other = label := by simpa [hasLabel] using h
    exact ⟨pos, kids, rfl⟩
  | token | value => cases h

theorem mem_subtrees_of_mem_level (h : t ∈ tree.level depth) : t ∈ tree.subtrees := by
  induction depth generalizing tree with
  | zero =>
    obtain rfl := List.mem_singleton.mp h
    exact self_mem_subtrees t
  | succ depth ih =>
    cases tree with
    | node other pos kids =>
      obtain ⟨kid, hk, hkid⟩ := List.mem_flatMap.mp h
      exact mem_subtrees_of_child hk (ih hkid)
    | token | value => cases h

theorem exists_level (h : t ∈ tree.subtrees) : ∃ depth, t ∈ tree.level depth := by
  induction tree using children_induction with
  | token | value => exact ⟨0, h⟩
  | node other pos kids ih =>
    rw [subtrees, subtreesOf_eq] at h
    rcases List.mem_cons.mp h with rfl | h
    · exact ⟨0, List.mem_singleton_self _⟩
    · obtain ⟨kid, hk, hkid⟩ := List.mem_flatMap.mp h
      obtain ⟨depth, hdepth⟩ := ih kid hk hkid
      exact ⟨depth + 1, List.mem_flatMap.mpr ⟨kid, hk, hdepth⟩⟩

/-- A tree is not higher than it is large. -/
theorem level_eq_nil (h : tree.subtrees.length ≤ depth) : tree.level depth = [] := by
  induction depth generalizing tree with
  | zero =>
    have hpos := List.length_pos_of_mem (self_mem_subtrees tree)
    omega
  | succ depth ih =>
    cases tree with
    | node other pos kids =>
      rw [subtrees, subtreesOf_eq, List.length_cons] at h
      refine List.flatMap_eq_nil_iff.mpr fun kid hk => ih ?_
      have hle : kid.subtrees.length ≤ (kids.flatMap subtrees).length := by
        rw [List.flatMap_def]
        exact (List.sublist_flatten_of_mem (List.mem_map_of_mem hk)).length_le
      omega
    | token | value => rfl

theorem mem_upwards : t ∈ tree.upwards ↔ t ∈ tree.subtrees := by
  unfold upwards
  constructor
  · intro h
    obtain ⟨depth, -, hdepth⟩ := List.mem_flatMap.mp h
    exact mem_subtrees_of_mem_level hdepth
  · intro h
    obtain ⟨depth, hdepth⟩ := exists_level h
    refine List.mem_flatMap.mpr ⟨depth, ?_, hdepth⟩
    rw [List.mem_reverse, List.mem_range]
    by_contra hle
    rw [level_eq_nil (not_lt.mp hle)] at hdepth
    cases hdepth

theorem foremost?_eq {clause : Option Tree}
    (h : ∀ t, t ∈ clause ↔ t ∈ tree.subtrees ∧ t.hasLabel label) :
    tree.foremost? label = clause := by
  cases hfirst : tree.foremost? label with
  | some first =>
    have hmem := mem_upwards.mp (List.mem_of_find?_eq_some hfirst)
    exact ((h first).mpr ⟨hmem, List.find?_some hfirst⟩).symm
  | none =>
    cases clause with
    | none => rfl
    | some own =>
      obtain ⟨hmem, hlabel⟩ := (h own).mp rfl
      exact absurd hlabel (List.find?_eq_none.mp hfirst own (mem_upwards.mpr hmem))

end Tree

/-! ### The deepest find -/

namespace Found

variable {α : Type} {f g : Nat → Option α} {x y : Found α}

/-- What was found is what the lowest level with anything has. -/
def Lowest (marks : Nat → Option α) : Found α → Prop
  | none => ∀ depth, marks depth = none
  | some (depth, a) => marks depth = some a ∧ ∀ deeper > depth, marks deeper = none

theorem Lowest.unique (hx : Lowest f x) (hy : Lowest f y) : x = y := by
  cases x with
  | none =>
    cases y with
    | none => rfl
    | some b => cases (hx b.1).symm.trans hy.1
  | some a =>
    cases y with
    | none => cases (hy a.1).symm.trans hx.1
    | some b =>
      obtain ⟨m, a⟩ := a
      obtain ⟨n, b⟩ := b
      rcases lt_trichotomy m n with h | rfl | h
      · cases (hx.2 n h).symm.trans hy.1
      · rw [Option.some.inj (hx.1.symm.trans hy.1)]
      · cases (hy.2 m h).symm.trans hx.1

theorem Lowest.congr (hx : Lowest f x) (h : ∀ depth, g depth = f depth) : Lowest g x := by
  rwa [funext h]

/-- Going up from a level below which there is nothing one comes to the lowest find first. -/
theorem exists_lowest (height : Nat) (h : ∀ depth ≥ height, f depth = none) :
    ∃ x, Lowest f x ∧ x.map Prod.snd = (List.range height).reverse.findSome? f := by
  induction height with
  | zero => exact ⟨none, fun depth => h depth (Nat.zero_le depth), rfl⟩
  | succ height ih =>
    rw [List.range_succ, List.reverse_append, List.reverse_singleton, List.singleton_append]
    cases hf : f height with
    | some a => exact ⟨some (height, a), ⟨hf, fun deeper => h deeper⟩, by simp [hf]⟩
    | none =>
      rw [List.findSome?_cons, hf]
      refine ih fun depth hdepth => ?_
      rcases eq_or_lt_of_le hdepth with rfl | hlt
      · exact hf
      · exact h depth hlt

theorem Lowest.deeper (hx : Lowest f x) (hy : Lowest g y) :
    Lowest (fun depth => (f depth).or (g depth)) (x.deeper y) := by
  have none_or {depth : Nat} (hf : f depth = none) (hg : g depth = none) :
      (f depth).or (g depth) = none := by simp [hf, hg]
  cases x with
  | none =>
    rw [show (fun depth => (f depth).or (g depth)) = g from funext fun n => by simp [hx n]]
    exact hy
  | some a =>
    cases y with
    | none =>
      rw [show (fun depth => (f depth).or (g depth)) = f from funext fun n => by simp [hy n]]
      exact hx
    | some b =>
      obtain ⟨m, a⟩ := a
      obtain ⟨n, b⟩ := b
      rw [Found.deeper]
      split_ifs with h
      · exact ⟨by simp [hx.2 n h, hy.1], fun k hk => none_or (hx.2 k (h.trans hk)) (hy.2 k hk)⟩
      · exact ⟨by simp [hx.1], fun k hk => none_or (hx.2 k hk) (hy.2 k (by omega))⟩

def lowered (f : Nat → Option α) : Nat → Option α
  | 0 => none
  | depth + 1 => f depth

theorem Lowest.below (hx : Lowest f x) : Lowest (lowered f) x.below := by
  cases x with
  | none =>
    intro depth
    cases depth with
    | zero => rfl
    | succ depth => exact hx depth
  | some a =>
    refine ⟨hx.1, fun deeper h => ?_⟩
    cases deeper with
    | zero => rfl
    | succ deeper => exact hx.2 deeper (Nat.lt_of_succ_lt_succ h)

theorem Lowest.orHere {isHere : Bool} {here : α} (hx : Lowest (lowered f) x)
    (hzero : g 0 = if isHere then some here else none) (hsucc : ∀ depth, g (depth + 1) = f depth) :
    Lowest g (x.orHere isHere here) := by
  have hlower (depth : Nat) (h : 0 < depth) : g depth = lowered f depth := by
    obtain ⟨depth, rfl⟩ := Nat.exists_eq_add_one_of_ne_zero h.ne'
    exact hsucc depth
  cases x with
  | none =>
    cases isHere with
    | false =>
      intro depth
      rcases Nat.eq_zero_or_pos depth with rfl | h
      · exact hzero
      · exact (hlower depth h).trans (hx depth)
    | true => exact ⟨hzero, fun deeper h => (hlower deeper h).trans (hx deeper)⟩
  | some a =>
    have hpos : 0 < a.1 := by
      by_contra h
      have hmarked := hx.1
      rw [Nat.eq_zero_of_not_pos h] at hmarked
      cases hmarked
    exact ⟨(hlower _ hpos).trans hx.1, fun deeper h =>
      (hlower deeper (hpos.trans h)).trans (hx.2 deeper h)⟩

end Found

/-- Below the level of the foremost node there is none of its rule. -/
theorem Tree.level_of_foremost {tree clause : Tree} {label : Label}
    (h : tree.foremost? label = some clause) :
    ∃ depth, clause ∈ tree.level depth ∧
      ∀ deeper > depth, ∀ t ∈ tree.level deeper, t.hasLabel label = false := by
  obtain ⟨x, hx, hfirst⟩ := Found.exists_lowest (f := fun depth =>
    (tree.level depth).find? (hasLabel label)) tree.subtrees.length fun depth hd => by
      rw [level_eq_nil hd]
      rfl
  rw [← List.find?_flatMap] at hfirst
  obtain ⟨⟨depth, first⟩, rfl, rfl⟩ := Option.map_eq_some_iff.mp (hfirst.trans h)
  refine ⟨depth, List.mem_of_find?_eq_some hx.1, fun deeper hd t ht => ?_⟩
  simpa using List.find?_eq_none.mp (hx.2 deeper hd) t ht

/-! ### The search for clauses -/

/-- What a rule of clauses has at a depth of the tree. -/
def Tree.mark {α : Type} (label : Label) (content : Tree → α) (tree : Tree) (depth : Nat) :
    Option α :=
  ((tree.level depth).find? (hasLabel label)).map content

/-- The part of a draft that holds the deepest clause of a rule. -/
structure Seeks {α : Type} (label : Label) (content : Tree → α) (find : Draft → Found α) :
    Prop where
  node : ∀ other pos kids, find (Draft.ofTree (.node other pos kids)) =
    (deepest find (kids.map Part.of)).orHere (other == label) (content (.node other pos kids))
  token : ∀ terminal text pos, find (Draft.ofTree (.token terminal text pos)) = none
  value : ∀ v, find (Draft.ofTree (.value v)) = none

namespace Seeks

variable {α : Type} {label : Label} {content : Tree → α} {find : Draft → Found α}

theorem mark_node (other : Label) (pos : Option Pos) (kids : List Tree) (depth : Nat) :
    (Tree.node other pos kids).mark label content (depth + 1) =
      kids.findSome? fun kid => kid.mark label content depth := by
  unfold Tree.mark
  rw [Tree.level, List.find?_flatMap, List.map_findSome?]
  rfl

/-- What the children of a node have at a depth below it. -/
def marks (label : Label) (content : Tree → α) (kids : List Tree) : Nat → Option α :=
  Found.lowered fun depth => kids.findSome? fun kid => kid.mark label content depth

theorem marks_cons (kid : Tree) (rest : List Tree) (depth : Nat) :
    marks label content (kid :: rest) depth =
      (Found.lowered (kid.mark label content) depth).or (marks label content rest depth) := by
  cases depth with
  | zero => rfl
  | succ depth =>
    simp only [marks, Found.lowered, List.findSome?_cons]
    cases kid.mark label content depth <;> rfl

theorem deepest_lowest {kids : List Tree}
    (h : ∀ kid ∈ kids, (find (Draft.ofTree kid)).Lowest (kid.mark label content)) :
    (deepest find (kids.map Part.of)).Lowest (marks label content kids) := by
  have fold (kids : List Tree) (f : Nat → Option α) (x : Found α) (hx : x.Lowest f)
      (h : ∀ kid ∈ kids, (find (Draft.ofTree kid)).Lowest (kid.mark label content)) :
      ((kids.map Part.of).foldl (fun found part => found.deeper (find part.draft).below) x).Lowest
        fun depth => (f depth).or (marks label content kids depth) := by
    induction kids generalizing f x with
    | nil =>
      refine hx.congr fun depth => ?_
      cases depth <;> simp [marks, Found.lowered]
    | cons kid rest ih =>
      have hfirst := hx.deeper (h kid List.mem_cons_self).below
      have hrest := ih _ _ hfirst fun other ho => h other (List.mem_cons_of_mem _ ho)
      exact hrest.congr fun depth => by rw [marks_cons, Option.or_assoc]
  exact fold kids (fun _ => none) none (fun _ => rfl) h

theorem lowest (h : Seeks label content find) (tree : Tree) :
    (find (Draft.ofTree tree)).Lowest (tree.mark label content) := by
  induction tree using Tree.children_induction with
  | token terminal text pos =>
    rw [h.token]
    intro depth
    cases depth <;> rfl
  | value v =>
    rw [h.value]
    intro depth
    cases depth <;> rfl
  | node other pos kids ih =>
    rw [h.node]
    refine (deepest_lowest ih).orHere ?_ (mark_node other pos kids)
    simp only [Tree.mark, Tree.level, List.find?_cons, List.find?_nil, Tree.hasLabel]
    cases other == label <;> rfl

/-- Below a node of another rule there is nothing more. -/
theorem deepest_eq (h : Seeks label content find) {other : Label} (hl : other ≠ label)
    (pos : Option Pos) (kids : List Tree) :
    deepest find (kids.map Part.of) = find (Draft.ofTree (.node other pos kids)) := by
  rw [h.node, beq_false_of_ne hl]
  cases deepest find (kids.map Part.of) <;> rfl

/-- The search finds the foremost clause. -/
theorem find_eq (h : Seeks label content find) (tree : Tree) :
    (find (Draft.ofTree tree)).map Prod.snd = (tree.foremost? label).map content := by
  have hheight (depth : Nat) (hd : depth ≥ tree.subtrees.length) :
      tree.mark label content depth = none := by
    unfold Tree.mark
    rw [Tree.level_eq_nil hd]
    rfl
  obtain ⟨x, hx, hfirst⟩ := Found.exists_lowest _ hheight
  rw [(h.lowest tree).unique hx, hfirst, Tree.foremost?, Tree.upwards, List.find?_flatMap,
    List.map_findSome?]
  rfl

end Seeks

namespace Tree

def named : Tree → Except Defect String
  | .node _ _ kids => Term.clauseName (kids.map Part.of)
  | _ => .error .missing

def guarded : Tree → Term
  | .node _ _ kids => Term.ofFirst (kids.map Part.of)
  | _ => .malformed .missing

def condition : Tree → Option Tree
  | .node .whenClause _ (guard :: _) => some guard
  | _ => none

end Tree

theorem seeks_exit : Seeks .fromClause Tree.named Draft.exit where
  node other pos kids := by
    rw [Draft.ofTree_node]
    rfl
  token _ _ _ := rfl
  value _ := rfl

theorem seeks_next : Seeks .loopVar Tree.named Draft.next where
  node other pos kids := by
    rw [Draft.ofTree_node]
    rfl
  token _ _ _ := rfl
  value _ := rfl

theorem seeks_guard : Seeks .whenClause Tree.guarded Draft.guard where
  node other pos kids := by
    rw [Draft.ofTree_node]
    rfl
  token _ _ _ := rfl
  value _ := rfl

/-! ### Jumps -/

/-- A `break`, which has a result, or a `next`. -/
structure Jump where
  pos : Pos
  /-- The clause that names a loop. -/
  name : Option (Pos × Leaf)
  /-- The clause with the condition. -/
  guard : Option (Pos × Tree)
  result : Option Tree

namespace Jump

def label (j : Jump) : Label := if j.result.isSome then .fromClause else .loopVar

def nameClause (j : Jump) : Option Tree :=
  j.name.map fun clause => .node j.label (some clause.1) [clause.2.tree]

def guardClause (j : Jump) : Option Tree :=
  j.guard.map fun clause => .node .whenClause (some clause.1) [clause.2]

def tree (j : Jump) : Tree :=
  .node (if j.result.isSome then .breakStmt else .nextStmt) (some j.pos)
    (j.nameClause.toList ++ j.guardClause.toList ++ j.result.toList)

def expressions (j : Jump) : List Tree := (j.guard.map Prod.snd).toList ++ j.result.toList

def Nests (j : Jump) (label : Label) : Prop :=
  ∃ e ∈ j.expressions, ∃ t ∈ e.subtrees, t.hasLabel label

instance (j : Jump) (label : Label) : Decidable (j.Nests label) :=
  inferInstanceAs (Decidable (∃ e ∈ j.expressions, ∃ t ∈ e.subtrees, t.hasLabel label))

/-- Whether a condition holds; none always does. -/
def holds (limit : Nat) : Option Tree → Run Bool
  | none => pure true
  | some guard => do return (← eval limit (Term.ofTree guard)).holds

/-- Leaves the loop with the name, with the result as its value, or goes on with it. -/
def leap (limit : Nat) (j : Jump) (name : String) : Run Value :=
  match j.result with
  | some result => do
    let value ← eval limit (Term.ofTree result)
    throw (.signal (.leave name value))
  | none => throw (.signal (.skip name))

def outside (j : Jump) : Cause :=
  if j.result.isSome then .breakOutsideLoop else .nextOutsideLoop

/-- Does something with the running loop that has the name, without a name with the innermost. -/
def aimAt (j : Jump) (name : Option String) (next : String → Run Value) : Run Value := do
  match (← get).loops with
  | [] => blameNode j.outside (some j.pos)
  | innermost :: outer =>
    let name := name.getD innermost
    if (innermost :: outer).contains name then next name
    else blameNode (.loopNotFound name) (some j.pos)

/-- What the jump does with this name and condition. -/
def goTo (limit : Nat) (j : Jump) (name : Option String) (guard : Option Tree) : Run Value :=
  j.aimAt name fun name => do
    if ← holds limit guard then j.leap limit name else return .none

variable {j : Jump}

theorem shape_tree (h : ∀ e ∈ j.expressions, Shape e) : Shape j.tree := by
  obtain ⟨pos, name, guard, result⟩ := j
  have hguard : ∀ clause ∈ guard, Shape clause.2 := by
    intro clause hc
    refine h _ ?_
    simp [expressions, Option.mem_def.mp hc]
  cases result with
  | some result => exact .leave hguard (h result (by simp [expressions]))
  | none =>
    unfold tree
    rw [Option.toList_none, List.append_nil]
    exact .skip hguard

def guardTerm (guard : Option Tree) : Term :=
  (guard.map Term.ofTree).getD (.constant (.bool true))

theorem eval_guardTerm {α : Type} (limit : Nat) (guard : Option Tree) (next : Bool → Run α) :
    (eval limit (guardTerm guard) >>= fun value => next value.holds) =
      holds limit guard >>= next := by
  cases guard with
  | none => rfl
  | some guard =>
    funext s
    change (eval limit (Term.ofTree guard) >>= _) s =
      ((eval limit (Term.ofTree guard) >>= fun value => pure value.holds) >>= next) s
    rw [bind_apply, bind_apply, bind_apply]
    cases eval limit (Term.ofTree guard) s with
    | mk outcome t => cases outcome <;> rfl

def term (j : Jump) (name : Option String) (guard : Option Tree) : Term :=
  match j.result with
  | some result => .leave (.ok name) (guardTerm guard) (Term.ofTree result) (some j.pos)
  | none => .skip (.ok name) (guardTerm guard) (some j.pos)

theorem findLoop_bind (j : Jump) (name : Option String) (next : String → Run Value) :
    (findLoop (.ok name) j.outside (some j.pos) >>= next) = j.aimAt name next := by
  funext s
  rw [bind_apply, findLoop, aimAt, bind_of_ok (rfl : (get : Run State) s = (.ok s, s)),
    bind_of_ok (rfl : (get : Run State) s = (.ok s, s))]
  cases s.loops with
  | nil => rfl
  | cons innermost outer =>
    cases name with
    | none =>
      dsimp only [Option.getD_none]
      rw [if_pos (by simp)]
      rfl
    | some name =>
      dsimp only [Option.getD_some]
      split_ifs <;> rfl

theorem eval_term (limit : Nat) (j : Jump) (name : Option String) (guard : Option Tree) :
    eval limit (j.term name guard) = j.goTo limit name guard := by
  have hnext (name : String) := eval_guardTerm limit guard fun isOn =>
    if isOn then j.leap limit name else pure .none
  rw [goTo, ← funext hnext, ← findLoop_bind]
  obtain ⟨pos, clause, own, result⟩ := j
  cases result <;> rfl

/-! ### Own clauses and others -/

theorem target_foremost {label : Label} {find : Draft → Found (Except Defect String)} {tree : Tree}
    (h : Seeks label Tree.named find) (hl : label = .fromClause ∨ label = .loopVar)
    (hclear : (find (Draft.ofTree tree)).All fun name => ∃ text, name = .ok text) :
    Term.target (find (Draft.ofTree tree)) = .ok ((tree.foremost? label).bind Tree.clauseOf) := by
  have hfind := h.find_eq tree
  cases hfirst : tree.foremost? label with
  | none =>
    rw [hfirst, Option.map_none, Option.map_eq_none_iff] at hfind
    rw [hfind]
    rfl
  | some clause =>
    obtain ⟨pos, kids, rfl⟩ := Tree.eq_node (List.find?_some hfirst)
    rw [hfirst, Option.map_some, Option.map_eq_some_iff] at hfind
    obtain ⟨⟨depth, name⟩, hfind, rfl⟩ := hfind
    obtain ⟨text, hname⟩ := hclear _ _ hfind
    rw [hfind, Option.bind_some, clauseName_clauseOf hl hname]
    simp only [Term.target]
    rw [hname]
    rfl

theorem guardOf_foremost {tree : Tree} (hclear : (Draft.ofTree tree).guard.All Term.Regular) :
    Term.guardOf (Draft.ofTree tree).guard =
      guardTerm ((tree.foremost? .whenClause).bind Tree.condition) := by
  have hfind := seeks_guard.find_eq tree
  cases hfirst : tree.foremost? .whenClause with
  | none =>
    rw [hfirst, Option.map_none, Option.map_eq_none_iff] at hfind
    rw [hfind]
    rfl
  | some clause =>
    obtain ⟨pos, kids, rfl⟩ := Tree.eq_node (List.find?_some hfirst)
    rw [hfirst, Option.map_some, Option.map_eq_some_iff] at hfind
    obtain ⟨⟨depth, guard⟩, hfind, rfl⟩ := hfind
    have hregular := hclear _ _ hfind
    rw [hfind]
    cases kids with
    | nil => cases hregular
    | cons guard rest => rfl

/-- The term of a jump has the foremost clauses in its tree. -/
theorem ofTree_tree (h : ∀ e ∈ j.expressions, Shape e) :
    Term.ofTree j.tree = j.term ((j.tree.foremost? j.label).bind Tree.clauseOf)
      ((j.tree.foremost? .whenClause).bind Tree.condition) := by
  have hclear := (shape_usable (shape_tree h)).2
  have hguard := guardOf_foremost hclear.guard
  obtain ⟨pos, name, guard, result⟩ := j
  cases result with
  | some result =>
    have htarget := target_foremost seeks_exit (.inl rfl) hclear.exit
    change Term.ofTree (.node .breakStmt (some pos) (_ ++ [result])) = _
    rw [Term.ofTree_node, seeks_exit.deepest_eq (by decide : Label.breakStmt ≠ _) (some pos),
      seeks_guard.deepest_eq (by decide : Label.breakStmt ≠ _) (some pos)]
    simp only [Term.ofNode]
    rw [ofFirst_last]
    exact congrArg₂ (Term.leave · · (Term.ofTree result) (some pos)) htarget hguard
  | none =>
    have htarget := target_foremost seeks_next (.inr rfl) hclear.next
    change Term.ofTree (.node .nextStmt (some pos) _) = _
    rw [Term.ofTree_node, seeks_next.deepest_eq (by decide : Label.nextStmt ≠ _) (some pos),
      seeks_guard.deepest_eq (by decide : Label.nextStmt ≠ _) (some pos)]
    exact congrArg₂ (Term.skip · · (some pos)) htarget hguard

def clauseLabels : List Label := [.fromClause, .whenClause, .loopVar]

theorem label_cases (j : Jump) : j.label = .fromClause ∨ j.label = .loopVar := by
  unfold label
  split <;> simp

theorem label_mem (j : Jump) : j.label ∈ clauseLabels := by
  rcases j.label_cases with h | h <;> rw [h] <;> decide

theorem hasLabel_of_shape {e : Tree} {label : Label} (h : Shape e) (hl : label ∈ clauseLabels) :
    e.hasLabel label = false := by
  have hne {other : Label} {pos : Option Pos} {kids : List Tree} (h : other ∉ clauseLabels) :
      (Tree.node other pos kids).hasLabel label = false :=
    beq_false_of_ne fun heq => h (heq ▸ hl)
  cases h with
  | chain hchain =>
    refine hne fun hclause => ?_
    simp only [clauseLabels, List.mem_cons, List.not_mem_nil, or_false] at hclause hchain
    rcases hclause with rfl | rfl | rfl <;> simp at hchain
  | _ => exact hne (by decide)

theorem mem_expressions {e : Tree} :
    e ∈ j.expressions ↔ (∃ place, (place, e) ∈ j.guard) ∨ e ∈ j.result := by
  simp [expressions]

section Depth

variable {label : Label} {t : Tree} {depth : Nat} (h : ∀ e ∈ j.expressions, Shape e)
variable (hl : label ∈ clauseLabels) (hlabel : t.hasLabel label)
include h hl hlabel

/-- A clause in a jump is one of its own, right below it, or stands deeper in an expression. -/
theorem level_cases (ht : t ∈ j.tree.level depth) :
    depth = 1 ∧ (t ∈ j.nameClause ∨ t ∈ j.guardClause) ∨
      2 ≤ depth ∧ ∃ e ∈ j.expressions, t ∈ e.subtrees := by
  cases depth with
  | zero =>
    obtain rfl := List.mem_singleton.mp ht
    cases hlabel.symm.trans (hasLabel_of_shape (shape_tree h) hl)
  | succ depth =>
    obtain ⟨kid, hk, hkid⟩ := List.mem_flatMap.mp ht
    rw [List.mem_append, List.mem_append, Option.mem_toList, Option.mem_toList,
      Option.mem_toList] at hk
    cases depth with
    | zero =>
      obtain rfl := List.mem_singleton.mp hkid
      rcases hk with hown | hresult
      · exact .inl ⟨rfl, hown⟩
      · have hshape := h t (mem_expressions.mpr (.inr hresult))
        cases hlabel.symm.trans (hasLabel_of_shape hshape hl)
    | succ depth =>
      refine .inr ⟨by omega, ?_⟩
      rcases hk with (hname | hguard) | hresult
      · -- below a name there is only its token
        obtain ⟨clause, -, rfl⟩ := Option.mem_map.mp hname
        obtain ⟨leaf, hleaf, hdepth⟩ := List.mem_flatMap.mp hkid
        obtain rfl := List.mem_singleton.mp hleaf
        cases depth with
        | zero =>
          obtain rfl := List.mem_singleton.mp hdepth
          cases hlabel
        | succ depth => cases hdepth
      · obtain ⟨⟨place, e⟩, hclause, rfl⟩ := Option.mem_map.mp hguard
        obtain ⟨only, honly, hdepth⟩ := List.mem_flatMap.mp hkid
        obtain rfl := List.mem_singleton.mp honly
        exact ⟨_, mem_expressions.mpr (.inl ⟨place, hclause⟩),
          Tree.mem_subtrees_of_mem_level hdepth⟩
      · exact ⟨kid, mem_expressions.mpr (.inr hresult), Tree.mem_subtrees_of_mem_level hkid⟩

theorem exists_level_of_nested {e : Tree} (he : e ∈ j.expressions) (ht : t ∈ e.subtrees) :
    ∃ depth ≥ 2, t ∈ j.tree.level depth := by
  obtain ⟨depth, hdepth⟩ := Tree.exists_level ht
  rcases mem_expressions.mp he with ⟨place, hguard⟩ | hresult
  · have hclause : Tree.node .whenClause (some place) [e] ∈ j.guardClause :=
      Option.mem_map.mpr ⟨(place, e), hguard, rfl⟩
    refine ⟨depth + 2, by omega, List.mem_flatMap.mpr ⟨.node .whenClause (some place) [e], ?_,
      List.mem_flatMap.mpr ⟨e, List.mem_singleton_self e, hdepth⟩⟩⟩
    exact List.mem_append_left _ (List.mem_append_right _ (Option.mem_toList.mpr hclause))
  · cases depth with
    | zero =>
      obtain rfl := List.mem_singleton.mp hdepth
      cases hlabel.symm.trans (hasLabel_of_shape (h t he) hl)
    | succ depth =>
      refine ⟨depth + 2, by omega, List.mem_flatMap.mpr ⟨e, ?_, hdepth⟩⟩
      exact List.mem_append_right _ (Option.mem_toList.mpr hresult)

end Depth

section Foremost

variable {label : Label} (h : ∀ e ∈ j.expressions, Shape e) (hl : label ∈ clauseLabels)
include h hl

/-- Without nested clauses the own clause is the foremost one. -/
theorem foremost_own {own : Option Tree} (hn : ¬j.Nests label)
    (hown : ∀ t, t ∈ own ↔ (t ∈ j.nameClause ∨ t ∈ j.guardClause) ∧ t.hasLabel label) :
    j.tree.foremost? label = own := by
  refine Tree.foremost?_eq fun t => (hown t).trans ⟨?_, ?_⟩
  · rintro ⟨hclause, hlabel⟩
    refine ⟨Tree.mem_subtrees_of_child ?_ (Tree.self_mem_subtrees t), hlabel⟩
    rw [List.mem_append, List.mem_append, Option.mem_toList, Option.mem_toList]
    exact .inl hclause
  · rintro ⟨ht, hlabel⟩
    obtain ⟨depth, hdepth⟩ := Tree.exists_level ht
    rcases level_cases h hl hlabel hdepth with ⟨-, hclause⟩ | ⟨-, e, he, hnested⟩
    · exact ⟨hclause, hlabel⟩
    · exact absurd ⟨e, he, t, hnested, hlabel⟩ hn

/-- A nested clause comes before an own one. -/
theorem foremost_nested (hn : j.Nests label) :
    ∃ e ∈ j.expressions, ∃ clause ∈ e.subtrees, clause.hasLabel label ∧
      j.tree.foremost? label = some clause := by
  obtain ⟨e, he, t, ht, hlabel⟩ := hn
  obtain ⟨depth, hdeep, hdepth⟩ := exists_level_of_nested h hl hlabel he ht
  cases hfirst : j.tree.foremost? label with
  | none =>
    have hnone := List.find?_eq_none.mp hfirst t
      (Tree.mem_upwards.mpr (Tree.mem_subtrees_of_mem_level hdepth))
    exact absurd hlabel hnone
  | some clause =>
    have hclause := List.find?_some hfirst
    obtain ⟨lowest, hlowest, hnone⟩ := Tree.level_of_foremost hfirst
    rcases level_cases h hl hclause hlowest with ⟨rfl, -⟩ | ⟨-, e', he', hnested⟩
    · cases hlabel.symm.trans (hnone depth hdeep t hdepth)
    · exact ⟨e', he', clause, hnested, hclause, rfl⟩

end Foremost

theorem hasLabel_nameClause {t : Tree} (ht : t ∈ j.nameClause) (label : Label) :
    t.hasLabel label = (j.label == label) := by
  obtain ⟨clause, -, rfl⟩ := Option.mem_map.mp ht
  rfl

theorem hasLabel_guardClause {t : Tree} (ht : t ∈ j.guardClause) (label : Label) :
    t.hasLabel label = (Label.whenClause == label) := by
  obtain ⟨clause, -, rfl⟩ := Option.mem_map.mp ht
  rfl

theorem foremost_name (h : ∀ e ∈ j.expressions, Shape e) (hn : ¬j.Nests j.label) :
    (j.tree.foremost? j.label).bind Tree.clauseOf = j.name.map fun clause => clause.2.text := by
  have hown : j.tree.foremost? j.label = j.nameClause := by
    refine foremost_own h j.label_mem hn fun t => ⟨fun ht => ⟨.inl ht, ?_⟩, ?_⟩
    · rw [hasLabel_nameClause ht, beq_self_eq_true]
    · rintro ⟨ht | ht, hlabel⟩
      · exact ht
      · rw [hasLabel_guardClause ht] at hlabel
        rcases j.label_cases with hcase | hcase <;> rw [hcase] at hlabel <;> cases hlabel
  rw [hown, nameClause]
  cases j.name with
  | none => rfl
  | some clause => rcases j.label_cases with hcase | hcase <;> rw [hcase] <;> rfl

theorem foremost_guard (h : ∀ e ∈ j.expressions, Shape e) (hn : ¬j.Nests .whenClause) :
    (j.tree.foremost? .whenClause).bind Tree.condition = j.guard.map Prod.snd := by
  have hown : j.tree.foremost? .whenClause = j.guardClause := by
    refine foremost_own h (by decide) hn fun t => ⟨fun ht => ⟨.inr ht, ?_⟩, ?_⟩
    · rw [hasLabel_guardClause ht, beq_self_eq_true]
    · rintro ⟨ht | ht, hlabel⟩
      · rw [hasLabel_nameClause ht] at hlabel
        rcases j.label_cases with hcase | hcase <;> rw [hcase] at hlabel <;> cases hlabel
      · exact ht
  rw [hown, guardClause]
  cases j.guard <;> rfl

end Jump

/-- A jump obeys the clauses that come first when its tree is searched level by level from the
deepest one: its own if none is nested in its condition or result, and otherwise a nested one. -/
theorem jumps_obey_foremost_clauses (limit : Nat) (j : Jump) (h : ∀ e ∈ j.expressions, Shape e) :
    eval limit (Term.ofTree j.tree) =
      j.goTo limit ((j.tree.foremost? j.label).bind Tree.clauseOf)
        ((j.tree.foremost? .whenClause).bind Tree.condition) ∧
    (¬j.Nests j.label →
      (j.tree.foremost? j.label).bind Tree.clauseOf = j.name.map fun clause => clause.2.text) ∧
    (¬j.Nests .whenClause →
      (j.tree.foremost? .whenClause).bind Tree.condition = j.guard.map Prod.snd) ∧
    ∀ label ∈ [j.label, .whenClause], j.Nests label →
      ∃ e ∈ j.expressions, ∃ clause ∈ e.subtrees, clause.hasLabel label ∧
        j.tree.foremost? label = some clause := by
  refine ⟨?_, Jump.foremost_name h, Jump.foremost_guard h, fun label hl hn => ?_⟩
  · rw [Jump.ofTree_tree h, Jump.eval_term]
  · refine Jump.foremost_nested h ?_ hn
    rcases List.mem_pair.mp hl with rfl | rfl
    · exact j.label_mem
    · decide

/-- In the condition of the jump stands a loop with a jump of its own, which names that loop. -/
theorem jumps_obey_foremost_clauses_nested :
    let pos : Pos := ⟨1, 1⟩
    let x : Tree := .node .var (some pos) [.token .name "x" pos]
    let inner : Jump := ⟨pos, some (pos, ⟨.name, "k", pos⟩), none, some x⟩
    let loop : Tree := .node .forExpr (some pos)
      [.token .name "k" pos, x, x, .node .block (some pos) [inner.tree]]
    let outer : Jump := ⟨pos, none, some (pos, loop), some x⟩
    outer.Nests .fromClause ∧
      (outer.tree.foremost? .fromClause).bind Tree.clauseOf = some "k" ∧
      (eval 9 (Term.ofTree outer.tree) { loops := ["i"] }).1 =
        .error (.fault (.script (.loopNotFound "k") (some pos))) := by
  intro pos x inner loop outer
  have hinner : Shape inner.tree := Jump.shape_tree (by simpa [inner, Jump.expressions] using .var)
  have hloop : Shape loop := .loop .var .var (.block fun item hitem _ => by
    obtain rfl := List.mem_singleton.mp hitem
    exact hinner)
  have hshapes : ∀ e ∈ outer.expressions, Shape e := by
    simpa [outer, Jump.expressions, hloop] using .var
  obtain ⟨heval, -⟩ := jumps_obey_foremost_clauses 9 outer hshapes
  have hname : (outer.tree.foremost? .fromClause).bind Tree.clauseOf = some "k" := by
    decide +kernel
  refine ⟨by decide +kernel, hname, ?_⟩
  rw [heval, show outer.label = .fromClause from rfl, hname]
  rfl

/-- A jump that obeys the name of the loop in its condition, and one that obeys the condition of
a jump in its result. -/
theorem jumps_miss_own_clauses :
    (State.executeWithin 9 "for i in 1..2 (break when (for k in 1..1 (break from k with 1)) with 7)"
      {}).1 = .error (.exit (.fault (.script (.loopNotFound "k") (some ⟨1, 16⟩)))) ∧
    (State.executeWithin 9 "for i in 1..3 (break with (for k in 1..1 (next when 0; 5)))" {}).1 =
      .ok .none := by
  decide +kernel

end DecimalScript
