import DecimalScript.Proofs.Refusal
import Mathlib

/-! A chain of comparisons is the conjunction of its links. An operand between two operators is
evaluated for each of them, so the chain comes to the same operands in the same states as
the comparisons that are joined by `and`, and ends where they end. -/

namespace DecimalScript

open Run
open DecimalScript.Tree (pairUp)

/-- A link of a chain: an operator and the operand behind it. Where it is a comparison of its own
it has a place, and an `and` before it. -/
structure Link where
  operator : Leaf
  right : Tree
  joint : Leaf
  pos : Option Pos

namespace Link

def alone (left : Tree) (link : Link) : Tree :=
  .node .comparison link.pos [left, link.operator.tree, link.right]

/-- The comparisons of the links, each with the `and` before it. -/
def conjuncts : Tree → List Link → List (Leaf × Tree)
  | _, [] => []
  | left, link :: rest => (link.joint, link.alone left) :: conjuncts link.right rest

end Link

namespace Tree

def chain (pos : Option Pos) (first : Tree) (links : List Link) : Tree :=
  .node .comparison pos (first :: pairUp (links.map fun link => (link.operator, link.right)))

def conjunction (pos : Option Pos) (first : Tree) (link : Link) (rest : List Link) : Tree :=
  .node .andExpr pos (link.alone first :: pairUp (Link.conjuncts link.right rest))

end Tree

namespace Run

def both (x y : Run Bool) : Run Bool := do if ← x then y else return false

theorem both_assoc (x y z : Run Bool) : both (both x y) z = both x (both y z) := by
  simp only [both, bind_assoc]
  refine bind_congr fun holds => ?_
  cases holds <;> simp

theorem both_true (x : Run Bool) : both x (pure true) = x := by
  have hpure : (fun holds : Bool => if holds then (pure true : Run Bool) else return false) = pure := by
    funext holds
    cases holds <;> rfl
  rw [both, hpure, bind_pure]

variable {limit : Nat}

/-- A chain goes on with its second operand after its first link. -/
theorem evalLinks_cons (left : Run Value) (operator : String) (right : Term)
    (operators : List String) (rest : List Term) :
    evalLinks limit left (operator :: operators) (right :: rest) =
      both (evalLinks limit left [operator] [right])
        (evalLinks limit (eval limit right) operators rest) := by
  rw [evalLinks, evalLinks, both]
  simp only [bind_assoc]
  refine bind_congr fun value => bind_congr fun x => bind_congr fun value' => bind_congr fun y =>
    bind_congr fun holds => ?_
  cases holds <;> simp [evalLinks]

theorem eval_connected_and {left right : Term} {x y : Run Bool}
    (hx : eval limit left = do return .bool (← x))
    (hy : eval limit right = do return .bool (← y)) :
    eval limit (.connected .and left right) = do return .bool (← both x y) := by
  rw [eval, hx, hy, both]
  simp only [bind_assoc, pure_bind, truth]
  refine bind_congr fun holds => ?_
  cases holds <;> simp

end Run

/-- The term of a link alone. -/
theorem Link.ofTree_alone (left : Tree) (link : Link) :
    Term.ofTree (link.alone left) =
      .comparison (Term.ofTree left) [link.operator.text] [Term.ofTree link.right] :=
  ofTree_comparison link.pos left [] [] (link.operator, link.right)

theorem ofTree_chain (pos : Option Pos) (first : Tree) (link : Link) (rest : List Link) :
    Term.ofTree (.chain pos first (link :: rest)) =
      .comparison (Term.ofTree first) ((link :: rest).map (·.operator.text))
        ((link :: rest).map (Term.ofTree ·.right)) := by
  have h := ofTree_comparison pos first [] (rest.map fun link => (link.operator, link.right))
    (link.operator, link.right)
  simp only [List.nil_append, List.map_nil, List.map_map] at h
  exact h

theorem ofTree_conjunction (pos : Option Pos) (first : Tree) (link : Link) (rest : List Link) :
    Term.ofTree (.conjunction pos first link rest) =
      ((Link.conjuncts link.right rest).map (Term.ofTree ·.2)).foldl (.connected .and)
        (.boolean .and (Term.ofTree (link.alone first))) := by
  rw [Tree.conjunction, Term.ofTree_node, List.map_cons, Term.ofNode, Term.ofConnective,
    Term.alternate_pairUp]
  rfl

/-- What is left of a conjunction, behind comparisons that were made already, is what is left of the
chain behind their links. -/
theorem eval_conjuncts {limit : Nat} (links : List Link) (first : Tree) {left : Term}
    {x : Run Bool} (hx : eval limit left = do return .bool (← x)) :
    eval limit (((Link.conjuncts first links).map (Term.ofTree ·.2)).foldl (.connected .and) left) = do
      return .bool (← both x (evalLinks limit (eval limit (Term.ofTree first))
        (links.map (·.operator.text)) (links.map (Term.ofTree ·.right)))) := by
  induction links generalizing first left x with
  | nil =>
    simp only [List.map_nil, evalLinks, both_true]
    exact hx
  | cons link rest ih =>
    have hlink : eval limit (Term.ofTree (link.alone first)) = do
        return .bool (← evalLinks limit (eval limit (Term.ofTree first)) [link.operator.text]
          [Term.ofTree link.right]) := by
      rw [Link.ofTree_alone, eval]
    simp only [Link.conjuncts, List.map_cons, List.foldl_cons]
    rw [ih link.right (eval_connected_and hx hlink), both_assoc, ← evalLinks_cons]

/-- A chain of comparisons is the conjunction of its links, whatever its operands do: in every state
both have the same end and leave the same state, with the same output. -/
theorem comparison_chain_is_conjunction (limit : Nat) (s : State) (pos pos' : Option Pos)
    (first : Tree) (link : Link) (rest : List Link) :
    s.evaluateWithin limit (.chain pos first (link :: rest)) =
      s.evaluateWithin limit (.conjunction pos' first link rest) := by
  have hlink : eval limit (.boolean .and (Term.ofTree (link.alone first))) = do
      return .bool (← evalLinks limit (eval limit (Term.ofTree first)) [link.operator.text]
        [Term.ofTree link.right]) := by
    rw [Link.ofTree_alone, eval, eval]
    simp [truth]
  unfold State.evaluateWithin
  rw [ofTree_chain, ofTree_conjunction, eval_conjuncts rest link.right hlink, ← evalLinks_cons, eval]
  rfl

end DecimalScript
