import DecimalScript.Proofs.TwoRunRelations
import DecimalScript.Proofs.TwoRunEvaluation
import DecimalScript.Proofs.Regular
import DecimalScript.Proofs.Resumption
import DecimalScript.Proofs.Units
import Mathlib

/-! Truth values are no numbers. Where a calculation takes an operand that has a truth value, it
ends with an error of the program. One operand is read before it is looked at, the first of a
product: there a truth value is a text that writes no number. -/

namespace DecimalScript

open Run
open DecimalScript.Tree (pairUp)

/-- Where an operand stands, as far as it matters for a truth value. -/
inductive Site where
  /-- A place where a number is asked for. -/
  | used (usage : Usage)
  /-- The value of an assignment to the variable, whose name stands at the place. -/
  | assigned (name : String) (place : Pos)
  | firstFactor
  deriving DecidableEq

/-- How a calculation ends that takes a truth value there. -/
def Site.refusal : Site → Fault
  | .used usage => .script (.booleanUsed usage) none
  | .assigned name place => .script (.booleanAssigned name) (some place)
  | .firstFactor => .trap .invalidOperation

def lastOperand (first : Tree) (pairs : List (Leaf × Tree)) : Tree :=
  pairs.foldl (fun _ pair => pair.2) first

def loopTree (pos : Option Pos) (name : String) (place : Pos) (start stop : Tree)
    (step : Option Tree) (body : Tree) : Tree :=
  .node .forExpr pos ([.token .name name place, start, stop] ++ step.toList ++ [body])

/-- The evaluation of the tree from the state comes to the operand at the site, and takes the
value for it; the second state is the one in which it goes on, or ends. There is one
rule for each operand of each operation. -/
inductive Takes (limit : Nat) (s : State) : Tree → Site → Value → State → Prop
  | firstTerm {pos first pairs x t} (h : eval limit (Term.ofTree first) s = (.ok x, t)) :
      Takes limit s (.node .sum pos (first :: pairUp pairs)) (.used .sum) x t
  | laterTerm {pos first before operator operand others y x t u}
      (hb : eval limit (Term.ofTree (.node .sum pos (first :: pairUp before))) s = (.ok y, t))
      (h : eval limit (Term.ofTree operand) t = (.ok x, u)) :
      Takes limit s (.node .sum pos (first :: pairUp (before ++ (operator, operand) :: others)))
        (.used .sum) x u
  | firstFactor {pos first pairs x t} (h : eval limit (Term.ofTree first) s = (.ok x, t)) :
      Takes limit s (.node .product pos (first :: pairUp pairs)) .firstFactor x t
  | laterFactor {pos first before operator operand others y x t u}
      (hb : eval limit (Term.ofTree (.node .product pos (first :: pairUp before))) s = (.ok y, t))
      (h : eval limit (Term.ofTree operand) t = (.ok x, u)) :
      Takes limit s (.node .product pos (first :: pairUp (before ++ (operator, operand) :: others)))
        (.used .product) x u
  | base {pos base exponent x t} {operator : Leaf}
      (h : eval limit (Term.ofTree base) s = (.ok x, t)) :
      Takes limit s (.node .power pos [base, operator.tree, exponent]) (.used .powerBase) x t
  | exponent {pos base exponent y x t u} {operator : Leaf}
      (hb : numberOf limit .powerBase (Term.ofTree base) s = (.ok y, t))
      (h : eval limit (Term.ofTree exponent) t = (.ok x, u)) :
      Takes limit s (.node .power pos [base, operator.tree, exponent]) (.used .powerExponent) x u
  | signed {pos item x t} {operator : Leaf} (h : eval limit (Term.ofTree item) s = (.ok x, t)) :
      Takes limit s (.node .unary pos [operator.tree, item]) (.used .unary) x t
  | left {pos first right before others x t u} {operator : Leaf}
      (hb : evalLinks limit (eval limit (Term.ofTree first)) (before.map fun pair => pair.1.text)
        (before.map fun pair => Term.ofTree pair.2) s = (.ok true, t))
      (h : eval limit (Term.ofTree (lastOperand first before)) t = (.ok x, u)) :
      Takes limit s (.node .comparison pos (first :: pairUp (before ++ (operator, right) :: others)))
        (.used .operation) x u
  | right {pos first right before others y x t u v} {operator : Leaf}
      (hb : evalLinks limit (eval limit (Term.ofTree first)) (before.map fun pair => pair.1.text)
        (before.map fun pair => Term.ofTree pair.2) s = (.ok true, t))
      (hl : numberOf limit .operation (Term.ofTree (lastOperand first before)) t = (.ok y, u))
      (h : eval limit (Term.ofTree right) u = (.ok x, v)) :
      Takes limit s (.node .comparison pos (first :: pairUp (before ++ (operator, right) :: others)))
        (.used .operation) x v
  | assigned {pos inner value x t} {name : String} {place : Pos} {operator : Leaf}
      (h : eval limit (Term.ofTree value) s = (.ok x, t)) :
      Takes limit s (.node .assignment pos
        [.token .name name place, .node .assignOp inner [operator.tree], value])
        (.assigned name place) x t
  | current {pos inner value y x t} {name : String} {place : Pos} {operator : Leaf}
      (ho : operator.text ∈ assignments) (hs : operator.text ≠ "=")
      (h : eval limit (Term.ofTree value) s = (.ok y, t)) (hy : ∀ b, y ≠ .bool b)
      (hx : t.env.get? name = some x) :
      Takes limit s (.node .assignment pos
        [.token .name name place, .node .assignOp inner [operator.tree], value])
        (.used .compoundAssignment) x t
  | start {pos name place start stop step body x t} (hn : name ∉ s.loops)
      (h : eval limit (Term.ofTree start) { s with loops := name :: s.loops } = (.ok x, t)) :
      Takes limit s (loopTree pos name place start stop step body) (.used .loopStart) x
        (endLoop name t)
  | stop {pos name place start stop step body y x t u} (hn : name ∉ s.loops)
      (hb : numberOf limit .loopStart (Term.ofTree start) { s with loops := name :: s.loops } =
        (.ok y, t))
      (h : eval limit (Term.ofTree stop) t = (.ok x, u)) :
      Takes limit s (loopTree pos name place start stop step body) (.used .loopEnd) x
        (endLoop name u)
  | step {pos name place start stop step body y z x t u v} (hn : name ∉ s.loops)
      (hb : numberOf limit .loopStart (Term.ofTree start) { s with loops := name :: s.loops } =
        (.ok y, t))
      (he : numberOf limit .loopEnd (Term.ofTree stop) t = (.ok z, u))
      (h : eval limit (Term.ofTree step) u = (.ok x, v)) :
      Takes limit s (loopTree pos name place start stop (some step) body) (.used .loopStep) x
        (endLoop name v)

/-! ### Truth values as operands -/

namespace Run

variable {α : Type} {limit : Nat} {s t u : State} {b : Bool}

theorem numeric_bool (usage : Usage) (b : Bool) (s : State) :
    numeric usage (.bool b) s = (.error (.fault (.script (.booleanUsed usage) none)), s) := rfl

/-- The text of a truth value writes no number. -/
theorem toDecimal_bool (b : Bool) (s : State) :
    toDecimal (.bool b) s = (.error (.fault (.trap .invalidOperation)), s) := by
  cases b <;> rfl

/-- Whatever is done with an operand, a truth value is not passed on to it. -/
theorem operand_bool {usage : Usage} {x : Run Value} {k : Decimal → Run α}
    (h : x s = (.ok (.bool b), t)) : (do k (← numeric usage (← x))) s =
      (.error (.fault (.script (.booleanUsed usage) none)), t) := by
  rw [bind_of_ok h, bind_of_error (numeric_bool usage b t)]

end Run

/-! ### The terms of operations -/

section Terms
variable (pos : Option Pos)

theorem ofTree_sum (first : Tree) (pairs : List (Leaf × Tree)) :
    Term.ofTree (.node .sum pos (first :: pairUp pairs)) =
      pairs.foldl (fun left pair => .sum (!(Part.of pair.1.tree).reads "+") left (Term.ofTree pair.2))
        (.numeric .sum (Term.ofTree first)) := by
  rw [Term.ofTree_node, List.map_cons, Term.ofNode, Term.ofSum, Term.operands_pairUp, List.foldl_map]
  rfl

theorem ofTree_product (first : Tree) (pairs : List (Leaf × Tree)) :
    Term.ofTree (.node .product pos (first :: pairUp pairs)) =
      pairs.foldl (fun left pair =>
          .product (Term.productOp (Part.of pair.1.tree)) left (Term.ofTree pair.2) pos)
        (.unwrapped (Term.ofTree first)) := by
  rw [Term.ofTree_node, List.map_cons, Term.ofNode, Term.ofProduct, Term.operands_pairUp,
    List.foldl_map]
  rfl

theorem ofTree_power (base exponent : Tree) (operator : Leaf) :
    Term.ofTree (.node .power pos [base, operator.tree, exponent]) =
      .power (Term.ofTree base) (Term.ofTree exponent) pos := Term.ofTree_node ..

theorem ofTree_unary (item : Tree) (operator : Leaf) :
    Term.ofTree (.node .unary pos [operator.tree, item]) =
      .signed (operator.text != "+") (Term.ofTree item) := Term.ofTree_node ..

theorem ofTree_assignment (inner : Option Pos) (value : Tree) (name : String) (place : Pos)
    (operator : Leaf) :
    Term.ofTree (.node .assignment pos
      [.token .name name place, .node .assignOp inner [operator.tree], value]) =
      .assign name place (.ok (Term.assignOp operator.text)) (Term.ofTree value) pos :=
  Term.ofTree_node ..

theorem ofTree_loop (name : String) (place : Pos) (start stop : Tree) (step : Option Tree)
    (body : Tree) :
    Term.ofTree (loopTree pos name place start stop step body) =
      .loop name (Term.ofTree start) (Term.ofTree stop)
        ((step.map Term.ofTree).getD (.constant (.decimal .one))) step.isSome (Term.ofTree body)
        pos := by
  rw [loopTree, Term.ofTree_node]
  cases step <;> rfl

theorem ofTree_comparison (first : Tree) (before others : List (Leaf × Tree))
    (link : Leaf × Tree) :
    Term.ofTree (.node .comparison pos (first :: pairUp (before ++ link :: others))) =
      .comparison (Term.ofTree first)
        (before.map (fun pair => pair.1.text) ++ link.1.text :: others.map fun pair => pair.1.text)
        (before.map (fun pair => Term.ofTree pair.2) ++
          Term.ofTree link.2 :: others.map fun pair => Term.ofTree pair.2) := by
  have hterm : Term.ofTree (.node .comparison pos (first :: pairUp (before ++ link :: others))) =
      .comparison (Term.ofTree first)
        ((Term.links ((pairUp (before ++ link :: others)).map Part.of)).map (·.1))
        ((Term.links ((pairUp (before ++ link :: others)).map Part.of)).map (·.2)) := by
    rw [Term.ofTree_node]
    cases before <;> rfl
  rw [hterm, Term.links_pairUp, List.map_map, List.map_map, List.map_append, List.map_append]
  rfl

end Terms

/-! ### Chains -/

section Chains
variable {limit : Nat} {s t : State} {first : Tree} {join : Term → Leaf × Tree → Term} {e : Exit}

/-- An exit of the first part of a chain is that of the chain. -/
theorem eval_chain_error {left : Term}
    (hj : ∀ left pair, eval limit left s = (.error e, t) → eval limit (join left pair) s = (.error e, t))
    (pairs : List (Leaf × Tree)) (h : eval limit left s = (.error e, t)) :
    eval limit (pairs.foldl join left) s = (.error e, t) := by
  induction pairs generalizing left with
  | nil => exact h
  | cons pair rest ih => exact ih (hj left pair h)

theorem eval_sum_error {minus : Bool} {left right : Term} (h : eval limit left s = (.error e, t)) :
    eval limit (.sum minus left right) s = (.error e, t) := by
  rw [eval, bind_of_error h]

theorem eval_product_error {op : ProductOp} {left right : Term} {pos : Option Pos}
    (h : eval limit left s = (.error e, t)) :
    eval limit (.product op left right pos) s = (.error e, t) := by
  rw [eval, bind_of_error h]

/-- The value of the term is a plain number, if it has one. -/
def PlainNumber (limit : Nat) (u : Term) : Prop :=
  ∀ s y t, eval limit u s = (.ok y, t) → ∃ d, y = .decimal d

theorem PlainNumber.chain {left : Term} (hj : ∀ left pair, PlainNumber limit (join left pair))
    (pairs : List (Leaf × Tree)) (h : PlainNumber limit left) :
    PlainNumber limit (pairs.foldl join left) := by
  induction pairs generalizing left with
  | nil => exact h
  | cons pair rest ih => exact ih (hj left pair)

theorem plainNumber_numeric (usage : Usage) (item : Term) :
    PlainNumber limit (.numeric usage item) := by
  intro s y t h
  rw [eval] at h
  obtain ⟨_, _, _, h⟩ := eq_ok_of_bind h
  obtain ⟨d, _, _, h⟩ := eq_ok_of_bind h
  cases h
  exact ⟨d, rfl⟩

theorem plainNumber_unwrapped (item : Term) : PlainNumber limit (.unwrapped item) := by
  intro s y t h
  rw [eval] at h
  obtain ⟨_, _, _, h⟩ := eq_ok_of_bind h
  obtain ⟨d, _, _, h⟩ := eq_ok_of_bind h
  cases h
  exact ⟨d, rfl⟩

theorem plainNumber_sum (minus : Bool) (left right : Term) :
    PlainNumber limit (.sum minus left right) := by
  intro s y t h
  rw [eval] at h
  obtain ⟨_, _, _, h⟩ := eq_ok_of_bind h
  obtain ⟨_, _, _, h⟩ := eq_ok_of_bind h
  obtain ⟨_, _, _, h⟩ := eq_ok_of_bind h
  obtain ⟨_, _, _, h⟩ := eq_ok_of_bind h
  cases minus
  all_goals
    obtain ⟨d, _, _, h⟩ := eq_ok_of_bind h
    cases h
    exact ⟨d, rfl⟩

theorem plainNumber_product (op : ProductOp) (left right : Term) (pos : Option Pos) :
    PlainNumber limit (.product op left right pos) := by
  intro s y t h
  rw [eval] at h
  obtain ⟨_, _, _, h⟩ := eq_ok_of_bind h
  obtain ⟨_, _, _, h⟩ := eq_ok_of_bind h
  obtain ⟨_, _, _, h⟩ := eq_ok_of_bind h
  obtain ⟨_, _, _, h⟩ := eq_ok_of_bind h
  obtain ⟨d, _, _, h⟩ := eq_ok_of_bind h
  cases h
  exact ⟨d, rfl⟩

/-- The beginning of a sum is a plain number. -/
theorem plainNumber_sums (pos : Option Pos) (first : Tree) (pairs : List (Leaf × Tree)) :
    PlainNumber limit (Term.ofTree (.node .sum pos (first :: pairUp pairs))) := by
  rw [ofTree_sum]
  exact .chain (fun _ _ => plainNumber_sum _ _ _) pairs (plainNumber_numeric _ _)

/-- The beginning of a product is a plain number. -/
theorem plainNumber_products (pos : Option Pos) (first : Tree) (pairs : List (Leaf × Tree)) :
    PlainNumber limit (Term.ofTree (.node .product pos (first :: pairUp pairs))) := by
  rw [ofTree_product]
  exact .chain (fun _ _ => plainNumber_product _ _ _ _) pairs (plainNumber_unwrapped _)

/-- A chain of comparisons goes on from the last operand of the ones that hold. -/
theorem linksBy_append {f : Term → Run Value} (before : List (Leaf × Tree))
    (operators : List String) (rest : List Term)
    (h : linksBy f (Term.ofTree first) (before.map fun pair => pair.1.text)
      (before.map fun pair => Term.ofTree pair.2) s = (.ok true, t)) :
    linksBy f (Term.ofTree first) (before.map (fun pair => pair.1.text) ++ operators)
      (before.map (fun pair => Term.ofTree pair.2) ++ rest) s =
      linksBy f (Term.ofTree (lastOperand first before)) operators rest t := by
  induction before generalizing first s with
  | nil =>
    cases h
    rfl
  | cons pair before ih =>
    obtain ⟨value, s₁, h₁, h⟩ := eq_ok_of_bind h
    obtain ⟨x, s₂, h₂, h⟩ := eq_ok_of_bind h
    obtain ⟨value', s₃, h₃, h⟩ := eq_ok_of_bind h
    obtain ⟨y, s₄, h₄, h⟩ := eq_ok_of_bind h
    obtain ⟨holds, s₅, h₅, h⟩ := eq_ok_of_bind h
    cases holds with
    | false => cases h
    | true =>
      simp only [List.map_cons, List.cons_append, linksBy]
      rw [bind_of_ok h₁, bind_of_ok h₂, bind_of_ok h₃, bind_of_ok h₄, bind_of_ok h₅]
      exact ih h

end Chains

/-! ### One operand -/

/-- A loop ends with its head. -/
theorem insideLoop_error {name : String} {pos : Option Pos} {s t : State}
    {run : Run Value} {e : Exit} (hn : name ∉ s.loops)
    (h : run { s with loops := name :: s.loops } = (.error e, t)) :
    insideLoop name pos run s = (.error e, endLoop name t) := by
  unfold insideLoop
  rw [if_neg (by simpa using hn), h]

theorem assignOp_ne_set {text : String} (h : text ∈ assignments) (hs : text ≠ "=") :
    Term.assignOp text ≠ .set := by
  simp only [assignments, List.mem_cons, List.not_mem_nil, or_false] at h
  rcases h with rfl | rfl | rfl | rfl | rfl
  · exact absurd rfl hs
  all_goals
    rw [Term.assignOp]
    simp

/-- An operation on the old value of a variable looks at that value first. -/
theorem assign_bool {name : String} {place : Pos} {op : AssignOp} {y : Value} {pos : Option Pos}
    {s : State} {b : Bool} (hop : op ≠ .set) (hother : ∀ operator, op ≠ .other operator)
    (hy : ∀ b, y ≠ .bool b) (hx : s.env.get? name = some (.bool b)) :
    assign name place op y pos s =
      (.error (.fault (.script (.booleanUsed .compoundAssignment) none)), s) := by
  have hget : (get : Run State) s = (.ok s, s) := rfl
  have hcombined : combined op (.bool b) y pos s =
      (.error (.fault (.script (.booleanUsed .compoundAssignment) none)), s) := by
    cases op with
    | other operator => exact absurd rfl (hother operator)
    | _ => exact bind_of_error (numeric_bool _ b s)
  unfold assign
  split
  · exact absurd rfl (hy _)
  · exact absurd rfl hop
  · rw [bind_of_ok hget, hx]
    exact bind_of_error hcombined

/-- An operand with a truth value ends the evaluation. -/
theorem Takes.refused {limit : Nat} {s w : State} {tree : Tree} {site : Site} {x : Value} {b : Bool}
    (h : Takes limit s tree site x w) (hx : x = .bool b) :
    eval limit (Term.ofTree tree) s = (.error (.fault site.refusal), w) := by
  subst hx
  cases h with
  | firstTerm h =>
    rw [ofTree_sum]
    refine eval_chain_error (fun _ _ => eval_sum_error) _ ?_
    rw [eval]
    exact operand_bool h
  | laterTerm hb h =>
    obtain ⟨d, rfl⟩ := plainNumber_sums _ _ _ _ _ _ hb
    rw [ofTree_sum] at hb ⊢
    rw [List.foldl_append, List.foldl_cons]
    refine eval_chain_error (fun _ _ => eval_sum_error) _ ?_
    rw [eval, bind_of_ok hb]
    exact operand_bool h
  | firstFactor h =>
    rw [ofTree_product]
    refine eval_chain_error (fun _ _ => eval_product_error) _ ?_
    rw [eval, bind_of_ok h, bind_of_error (toDecimal_bool b _)]
    rfl
  | laterFactor hb h =>
    obtain ⟨d, rfl⟩ := plainNumber_products _ _ _ _ _ _ hb
    rw [ofTree_product] at hb ⊢
    rw [List.foldl_append, List.foldl_cons]
    refine eval_chain_error (fun _ _ => eval_product_error) _ ?_
    rw [eval, bind_of_ok hb]
    exact operand_bool h
  | base h =>
    rw [ofTree_power, eval]
    exact operand_bool h
  | exponent hb h =>
    rw [ofTree_power, eval, numberOf_bind hb]
    exact operand_bool h
  | signed h =>
    rw [ofTree_unary, eval]
    exact operand_bool h
  | left hb h =>
    rw [evalLinks_eq_linksBy] at hb
    rw [ofTree_comparison, eval, evalLinks_eq_linksBy]
    refine bind_of_error ?_
    rw [linksBy_append _ _ _ hb]
    exact operand_bool h
  | right hb hl h =>
    rw [evalLinks_eq_linksBy] at hb
    rw [ofTree_comparison, eval, evalLinks_eq_linksBy]
    refine bind_of_error ?_
    rw [linksBy_append _ _ _ hb, linksBy, numberOf_bind hl]
    exact operand_bool h
  | assigned h =>
    rw [ofTree_assignment, eval, bind_of_ok h]
    rfl
  | current ho hs h hy hx =>
    rw [ofTree_assignment, eval, bind_of_ok h]
    exact bind_of_error (assign_bool (assignOp_ne_set ho hs) (assignOp_ne_other ho) hy hx)
  | start hn h =>
    rw [ofTree_loop, eval]
    exact insideLoop_error hn (operand_bool h)
  | stop hn hb h =>
    rw [ofTree_loop, eval]
    refine insideLoop_error hn ?_
    rw [numberOf_bind hb]
    exact operand_bool h
  | step hn hb he h =>
    rw [ofTree_loop, eval]
    refine insideLoop_error hn ?_
    rw [numberOf_bind hb, numberOf_bind he]
    exact operand_bool h

/-- A truth value is refused wherever a number is asked for. An operation that takes one for an
operand ends there; at every operand but the first of a product, with an error of the
program that is about truth values. Such an end is also that of the program
which came to the operation. -/
theorem booleans_refused_but_as_first_factor {limit : Nat} {s w : State} {tree : Tree} {site : Site}
    {b : Bool} (h : Takes limit s tree site (.bool b) w) :
    eval limit (Term.ofTree tree) s = (.error (.fault site.refusal), w) ∧
    (site ≠ .firstFactor → ∃ cause pos, site.refusal = .script cause pos ∧ cause.kind = .boolean) ∧
    (site = .firstFactor → site.refusal = .trap .invalidOperation) ∧
    ∀ text program start, Grammar.parse text = .ok program →
      Reaches limit (Term.ofTree program) { start with source := Text.lines text, output := [] }
        (Term.ofTree tree) s →
      (State.executeWithin limit text start).1 = .error (.exit (.fault site.refusal)) := by
  have hend := h.refused rfl
  refine ⟨hend, fun hs => ?_, ?_, fun text program start hp hr => ?_⟩
  · cases site with
    | used usage => exact ⟨_, _, rfl, rfl⟩
    | assigned name place => exact ⟨_, _, rfl, rfl⟩
    | firstFactor => exact absurd rfl hs
  · rintro rfl
    rfl
  · rw [State.executeWithin_ok hp, hr.fault (congrArg Prod.fst hend)]
    rfl

/-- A variable with a truth value as the second factor and as the first. -/
theorem booleans_refused_but_as_first_factor_variable :
    let s : State := { env := ⟨[("b", .bool true)]⟩ }
    let number (text : String) : Tree := .node .number (some ⟨1, 1⟩) [.token .number text ⟨1, 1⟩]
    let flag : Tree := .node .var (some ⟨1, 1⟩) [.token .name "b" ⟨1, 1⟩]
    let star : Leaf := ⟨.star, "*", ⟨1, 1⟩⟩
    let second : Tree := .node .product (some ⟨1, 1⟩)
      (number "3" :: pairUp ([] ++ (star, flag) :: [(star, number "2")]))
    let first : Tree := .node .product (some ⟨1, 1⟩) (flag :: pairUp [(star, number "3")])
    eval 1 (Term.ofTree second) s =
      (.error (.fault (.script (.booleanUsed .product) none)), s) ∧
    eval 1 (Term.ofTree first) s = (.error (.fault (.trap .invalidOperation)), s) := by
  intro s number flag star second first
  have hflag : eval 1 (Term.ofTree flag) s = (.ok (.bool true), s) := by
    change eval 1 (.var "b" ⟨1, 1⟩) s = _
    rw [eval, bind_apply, get_apply]
    rfl
  have hnumber : eval 1 (Term.ofTree (number "3")) { env := ⟨[("b", .bool true)]⟩ } =
      (.ok (.decimal (.finite false 30000000000 (-10))), { env := ⟨[("b", .bool true)]⟩ }) := rfl
  have hthree : eval 1 (Term.ofTree (.node .product (some ⟨1, 1⟩) (number "3" :: pairUp []))) s =
      (.ok (.decimal (.finite false 30000000000 (-10))), s) := by
    rw [ofTree_product, List.foldl_nil, eval, bind_of_ok hnumber]
    rfl
  have hsecond : Takes 1 s second (.used .product) (.bool true) s := .laterFactor hthree hflag
  have hfirst : Takes 1 s first .firstFactor (.bool true) s := .firstFactor hflag
  exact ⟨(booleans_refused_but_as_first_factor hsecond).1,
    (booleans_refused_but_as_first_factor hfirst).1⟩

/-- The two factors of a product are not treated alike. -/
theorem boolean_first_factor_traps :
    (State.executeWithin 1 "(1 < 2) * 3" {}).1 =
      .error (.exit (.fault (.trap .invalidOperation))) ∧
    (State.executeWithin 1 "3 * (1 < 2)" {}).1 =
      .error (.exit (.fault (.script (.booleanUsed .product) none))) := by
  decide +kernel

end DecimalScript
