import DecimalScript.Proofs.Refusal
import Mathlib

/-! Assignments that change a variable by an operation. Such an assignment is short for the one that
gives the variable the result of the operation on itself. The short one evaluates its value
before it looks the variable up, and the long one behind it; where the value leaves the
variable alone, both come to the same two numbers and change the variable to the same
result, or leave it as it was. -/

namespace DecimalScript

open Run
open DecimalScript.Tree (pairUp)

/-- The operations that can be assigned by an operator of their own. -/
inductive Compound where
  | add | sub | div | mod

/-- The places of a node with a name, and of the node and the token of its operator. -/
structure Layout where
  pos : Option Pos
  name : Pos
  inner : Option Pos
  operator : Pos

namespace Tree

def assignment (layout : Layout) (name : String) (terminal : Terminal) (text : String)
    (value : Tree) : Tree :=
  .node .assignment layout.pos
    [.token .name name layout.name,
      .node .assignOp layout.inner [.token terminal text layout.operator], value]

end Tree

namespace Compound

def assigning : Compound → Terminal × String
  | add => (.plusAssign, "+=")
  | sub => (.minusAssign, "-=")
  | div => (.divAssign, "/=")
  | mod => (.modAssign, "mod=")

def operator : Compound → Terminal × String
  | add => (.plus, "+")
  | sub => (.minus, "-")
  | div => (.slash, "/")
  | mod => (.mod, "mod")

def label : Compound → Label
  | add | sub => .sum
  | div | mod => .product

def short (op : Compound) (layout : Layout) (name : String) (value : Tree) : Tree :=
  .assignment layout name op.assigning.1 op.assigning.2 value

def operation (op : Compound) (layout : Layout) (name : String) (value : Tree) : Tree :=
  .node op.label layout.pos
    [.node .var layout.inner [.token .name name layout.name],
      .token op.operator.1 op.operator.2 layout.operator, value]

def long (op : Compound) (outer inner : Layout) (name : String) (value : Tree) : Tree :=
  .assignment outer name .assign "=" (op.operation inner name value)

def apply (op : Compound) (pos : Option Pos) (x y : Decimal) : Run Decimal :=
  match op with
  | add => Run.add x y
  | sub => Run.sub x y
  | div => Run.div x y pos
  | mod => Run.mod x y pos

end Compound

/-! ### Values as numbers -/

/-- The number that a value stands for, if it does for one. -/
def Value.operand? (value : Value) : Option Decimal := (toDecimal value {}).1.toOption

namespace Run

variable {α β : Type} {s t : State} {value : Value} {x : Decimal}

/-- The ends of two calculations are the same if both parts are. -/
theorem end_inj {r r' : Except Exit α} :
    ((r, s) : Id (Except Exit α × State)) = (r', t) ↔ r = r' ∧ s = t :=
  Iff.of_eq (Prod.mk.injEq ..)

theorem bind_eq_ok {run : Run α} {f : α → Run β} {b : β} :
    (run >>= f) s = (.ok b, t) ↔ ∃ a u, run s = (.ok a, u) ∧ f a u = (.ok b, t) := by
  refine ⟨eq_ok_of_bind, ?_⟩
  rintro ⟨a, u, ha, hb⟩
  rw [bind_of_ok ha, hb]

theorem bind_eq_error {run : Run α} {f : α → Run β} {e : Exit} (h : (run >>= f) s = (.error e, t)) :
    run s = (.error e, t) ∨ ∃ a u, run s = (.ok a, u) ∧ f a u = (.error e, t) := by
  cases hr : run s with
  | mk r u =>
    cases r with
    | error e' =>
      rw [bind_of_error hr] at h
      cases h
      exact .inl rfl
    | ok a => exact .inr ⟨a, u, rfl, (bind_of_ok hr).symm.trans h⟩

theorem pure_eq_ok {a b : α} : (pure a : Run α) s = (.ok b, t) ↔ a = b ∧ t = s := by
  change ((.ok a, s) : Id (Except Exit α × State)) = (.ok b, t) ↔ _
  rw [end_inj, Except.ok.injEq, eq_comm (a := t)]

theorem fail_ne_ok {f : Fault} {a : α} : (fail f : Run α) s ≠ (.ok a, t) := by
  intro h
  cases h

theorem Steady.state {run : Run α} (h : Steady run) {r : Except Exit α} (hr : run s = (r, t)) :
    t = s := by
  obtain ⟨outcome, h⟩ := h
  rw [h s] at hr
  exact (end_inj.mp hr).2.symm

/-- No part of the state counts for the number of a value. -/
theorem toDecimal_apply (value : Value) (s : State) :
    toDecimal value s = ((toDecimal value {}).1, s) := by
  cases value with
  | text text =>
    change decimal (Decimal.ofText text) s = ((decimal (Decimal.ofText text) {}).1, s)
    cases Decimal.ofText text <;> rfl
  | bool b => rw [toDecimal_bool, toDecimal_bool]
  | _ => rfl

theorem toDecimal_eq_ok : toDecimal value s = (.ok x, t) ↔ value.operand? = some x ∧ t = s := by
  rw [toDecimal_apply, Value.operand?, end_inj]
  cases (toDecimal value {}).1 <;> simp [Except.toOption, eq_comm]

theorem numeric_eq_ok {usage : Usage} :
    numeric usage value s = (.ok x, t) ↔ value.operand? = some x ∧ t = s := by
  cases value with
  | bool b =>
    rw [numeric_bool, end_inj, Value.operand?, toDecimal_bool]
    simp [Except.toOption]
  | _ =>
    simp only [numeric]
    exact toDecimal_eq_ok

end Run

/-! ### The operation -/

namespace Compound

variable (op : Compound) {limit : Nat} {s t : State} {name : String}

def usage : Compound → Usage
  | add | sub => .sum
  | div | mod => .product

/-- The number of the variable as the operand on the left. -/
def leftNumber : Compound → Value → Run Decimal
  | add | sub => numeric .sum
  | div | mod => toDecimal

theorem leftNumber_eq_ok {c : Value} {x : Decimal} :
    op.leftNumber c s = (.ok x, t) ↔ c.operand? = some x ∧ t = s := by
  cases op with
  | add | sub => exact numeric_eq_ok
  | div | mod => exact toDecimal_eq_ok

theorem leftNumber_steady (c : Value) : Steady (op.leftNumber c) := by
  cases op with
  | add | sub => exact numeric_steady _ c
  | div | mod => exact toDecimal_steady c

theorem apply_steady (pos : Option Pos) (x y : Decimal) : Steady (op.apply pos x y) := by
  cases op with
  | add | sub => exact rounded_steady _
  | div => exact div_steady x y pos
  | mod => exact mod_steady x y pos

/-- The place of an operation counts only where it fails. -/
theorem apply_eq_ok {pos pos' : Option Pos} {x y z : Decimal} (h : op.apply pos x y s = (.ok z, t)) :
    op.apply pos' x y s = (.ok z, t) := by
  cases op with
  | add | sub => exact h
  | div | mod =>
    obtain ⟨isZero, u, hu, h⟩ := bind_eq_ok.mp h
    refine bind_eq_ok.mpr ⟨isZero, u, hu, ?_⟩
    cases isZero with
    | true => cases pos <;> cases h
    | false => exact h

theorem eval_operation (layout : Layout) (name : String) (value : Tree) :
    eval limit (Term.ofTree (op.operation layout name value)) = do
      let x ← op.leftNumber (← eval limit (.var name layout.name))
      let y ← numeric op.usage (← eval limit (Term.ofTree value))
      return .decimal (← op.apply layout.pos x y) := by
  have hsum := ofTree_sum layout.pos (.node .var layout.inner [.token .name name layout.name])
    [(⟨op.operator.1, op.operator.2, layout.operator⟩, value)]
  have hproduct := ofTree_product layout.pos (.node .var layout.inner [.token .name name layout.name])
    [(⟨op.operator.1, op.operator.2, layout.operator⟩, value)]
  cases op with
  | add | sub =>
    refine (congrArg (eval limit) hsum).trans ?_
    simp only [List.foldl_cons, List.foldl_nil, eval, bind_assoc, pure_bind]
    rfl
  | div | mod =>
    refine (congrArg (eval limit) hproduct).trans ?_
    simp only [List.foldl_cons, List.foldl_nil, eval, bind_assoc, pure_bind]
    rfl

/-- The operation comes to a number: the variable and the value, evaluated in this state, stand for
numbers, and the operation can be done with them in the state after. -/
def Yields (limit : Nat) (name : String) (value : Tree) (pos : Option Pos) (s : State) (z : Decimal)
    (t : State) : Prop :=
  ∃ c v x y, s.env.get? name = some c ∧ eval limit (Term.ofTree value) s = (.ok v, t) ∧
    c.operand? = some x ∧ v.operand? = some y ∧ op.apply pos x y t = (.ok z, t)

variable {op}

theorem Yields.move {value : Tree} {pos pos' : Option Pos} {z : Decimal}
    (h : op.Yields limit name value pos s z t) : op.Yields limit name value pos' s z t := by
  obtain ⟨c, v, x, y, hc, hv, hx, hy, hz⟩ := h
  exact ⟨c, v, x, y, hc, hv, hx, hy, op.apply_eq_ok hz⟩

theorem eval_var_eq_ok {place : Pos} {c : Value} :
    eval limit (.var name place) s = (.ok c, t) ↔ s.env.get? name = some c ∧ t = s := by
  rw [eval, bind_of_ok (get_apply s)]
  cases s.env.get? name with
  | none => exact ⟨fun h => absurd h fail_ne_ok, fun h => by cases h.1⟩
  | some value =>
    rw [Option.some.injEq]
    exact pure_eq_ok

theorem eval_var_state {place : Pos} {r : Except Exit Value}
    (h : eval limit (.var name place) s = (r, t)) : t = s := by
  rw [eval, bind_of_ok (get_apply s)] at h
  cases hc : s.env.get? name with
  | none | some =>
    rw [hc] at h
    exact (end_inj.mp h).2.symm

theorem eval_operation_eq_ok {layout : Layout} {value : Tree} {w : Value} :
    eval limit (Term.ofTree (op.operation layout name value)) s = (.ok w, t) ↔
      ∃ z, op.Yields limit name value layout.pos s z t ∧ w = .decimal z := by
  simp only [eval_operation, bind_eq_ok, pure_eq_ok, eval_var_eq_ok, op.leftNumber_eq_ok,
    numeric_eq_ok]
  constructor
  · rintro ⟨c, _, ⟨hc, rfl⟩, x, _, ⟨hx, rfl⟩, v, u, hv, y, _, ⟨hy, rfl⟩, z, t, hz, rfl, rfl⟩
    obtain rfl := (op.apply_steady layout.pos x y).state hz
    exact ⟨z, ⟨c, v, x, y, hc, hv, hx, hy, hz⟩, rfl⟩
  · rintro ⟨z, ⟨c, v, x, y, hc, hv, hx, hy, hz⟩, rfl⟩
    exact ⟨c, s, ⟨hc, rfl⟩, x, s, ⟨hx, rfl⟩, v, t, hv, y, t, ⟨hy, rfl⟩, z, t, hz, rfl, rfl⟩

/-- An operation that fails leaves the state as it is before the value or after it. -/
theorem eval_operation_error {layout : Layout} {value : Tree} {e : Exit}
    (h : eval limit (Term.ofTree (op.operation layout name value)) s = (.error e, t)) :
    t = s ∨ t = (eval limit (Term.ofTree value) s).2 := by
  rw [eval_operation] at h
  rcases bind_eq_error h with hc | ⟨c, u, hc, hleft⟩
  · exact .inl (eval_var_state hc)
  rcases bind_eq_error hleft with hx | ⟨x, v, hx, hvalue⟩
  · exact .inl (((op.leftNumber_steady c).state hx).trans (eval_var_state hc))
  obtain rfl := ((op.leftNumber_steady c).state hx).trans (eval_var_state hc)
  rcases bind_eq_error hvalue with hv | ⟨w, u, hv, hright⟩
  · rw [hv]
    exact .inr rfl
  · rw [hv]
    have hsteady := (numeric_steady op.usage w).bind fun y =>
      (op.apply_steady layout.pos x y).bind fun z => steady_pure (Value.decimal z)
    exact .inr (hsteady.state hright)

def assignOp : Compound → AssignOp
  | add => .add
  | sub => .sub
  | div => .div
  | mod => .mod

/-- The assignment of a value that is no truth value changes the number of the variable. -/
theorem assign_assignOp {place : Pos} {v : Value} (hv : ∀ b, v ≠ .bool b) (pos : Option Pos) :
    assign name place op.assignOp v pos = (do
      match (← get).env.get? name with
      | none => blameAt (.unbound name) place
      | some current => setVariable name (.decimal (← onNumbers (op.apply pos) current v))) := by
  cases v with
  | bool b => exact absurd rfl (hv b)
  | _ => cases op <;> rfl

theorem assign_eq_ok {place : Pos} {v : Value} {pos : Option Pos} {r : Unit} :
    assign name place op.assignOp v pos s = (.ok r, t) ↔
      ∃ c x y z, s.env.get? name = some c ∧ c.operand? = some x ∧ v.operand? = some y ∧
        op.apply pos x y s = (.ok z, s) ∧ t = { s with env := s.env.set name (.decimal z) } := by
  by_cases hv : ∃ b, v = .bool b
  · obtain ⟨b, rfl⟩ := hv
    refine ⟨fun h => absurd h fail_ne_ok, ?_⟩
    rintro ⟨c, x, y, z, _, _, hy, _⟩
    cases b <;> cases hy
  · rw [assign_assignOp (fun b h => hv ⟨b, h⟩), bind_of_ok (get_apply s)]
    cases s.env.get? name with
    | none => exact ⟨fun h => absurd h fail_ne_ok, by simp⟩
    | some c =>
      simp only [onNumbers, bind_eq_ok, numeric_eq_ok]
      constructor
      · rintro ⟨z, u, ⟨x, _, ⟨hx, rfl⟩, y, _, ⟨hy, rfl⟩, hz⟩, hset⟩
        obtain rfl := (op.apply_steady pos x y).state hz
        cases hset
        exact ⟨c, x, y, z, rfl, hx, hy, hz, rfl⟩
      · rintro ⟨c', x, y, z, hc, hx, hy, hz, rfl⟩
        cases hc
        exact ⟨z, s, ⟨x, s, ⟨hx, rfl⟩, y, s, ⟨hy, rfl⟩, hz⟩, rfl⟩

theorem assign_error {place : Pos} {v : Value} {pos : Option Pos} {e : Exit}
    (h : assign name place op.assignOp v pos s = (.error e, t)) : t = s := by
  by_cases hv : ∃ b, v = .bool b
  · obtain ⟨b, rfl⟩ := hv
    cases h
    rfl
  · rw [assign_assignOp (fun b h => hv ⟨b, h⟩), bind_of_ok (get_apply s)] at h
    cases hc : s.env.get? name with
    | none =>
      rw [hc] at h
      cases h
      rfl
    | some c =>
      rw [hc] at h
      rcases bind_eq_error h with hn | ⟨z, u, _, h⟩
      · exact (onNumbers_steady (op.apply_steady pos) c v).state hn
      · cases h

/-! ### The two assignments -/

theorem ofTree_short (layout : Layout) (name : String) (value : Tree) :
    Term.ofTree (op.short layout name value) =
      .assign name layout.name (.ok op.assignOp) (Term.ofTree value) layout.pos := by
  refine (ofTree_assignment layout.pos layout.inner value name layout.name
    ⟨op.assigning.1, op.assigning.2, layout.operator⟩).trans ?_
  cases op <;> rfl

theorem ofTree_long (outer inner : Layout) (name : String) (value : Tree) :
    Term.ofTree (op.long outer inner name value) =
      .assign name outer.name (.ok .set) (Term.ofTree (op.operation inner name value)) outer.pos :=
  ofTree_assignment outer.pos outer.inner _ name outer.name ⟨.assign, "=", outer.operator⟩

section Ends
variable {value : Tree} {w : Value} {e : Exit}

/-- Where the value leaves the variable alone, the short assignment gives it what the operation
comes to. -/
theorem eval_short_eq_ok {layout : Layout}
    (h : (eval limit (Term.ofTree value) s).2.env.get? name = s.env.get? name) :
    eval limit (Term.ofTree (op.short layout name value)) s = (.ok w, t) ↔
      ∃ z u, op.Yields limit name value layout.pos s z u ∧
        w = .none ∧ t = { u with env := u.env.set name (.decimal z) } := by
  simp only [ofTree_short, eval, bind_eq_ok, pure_eq_ok, assign_eq_ok]
  constructor
  · rintro ⟨v, u, hv, _, t, ⟨c, x, y, z, hc, hx, hy, hz, rfl⟩, rfl, rfl⟩
    rw [hv] at h
    exact ⟨z, u, ⟨c, v, x, y, h.symm.trans hc, hv, hx, hy, hz⟩, rfl, rfl⟩
  · rintro ⟨z, u, ⟨c, v, x, y, hc, hv, hx, hy, hz⟩, rfl, rfl⟩
    rw [hv] at h
    exact ⟨v, u, hv, (), _, ⟨c, x, y, z, h.trans hc, hx, hy, hz, rfl⟩, rfl, rfl⟩

/-- The long assignment gives the variable what the operation comes to. -/
theorem eval_long_eq_ok {outer inner : Layout} :
    eval limit (Term.ofTree (op.long outer inner name value)) s = (.ok w, t) ↔
      ∃ z u, op.Yields limit name value inner.pos s z u ∧
        w = .none ∧ t = { u with env := u.env.set name (.decimal z) } := by
  simp only [ofTree_long, eval, bind_eq_ok, pure_eq_ok, eval_operation_eq_ok]
  constructor
  · rintro ⟨_, u, ⟨z, hz, rfl⟩, _, t, hset, rfl, rfl⟩
    cases hset
    exact ⟨z, u, hz, rfl, rfl⟩
  · rintro ⟨z, u, hz, rfl, rfl⟩
    exact ⟨_, u, ⟨z, hz, rfl⟩, (), _, rfl, rfl, rfl⟩

/-- A short assignment that fails leaves the state as it is after the value. -/
theorem eval_short_error {layout : Layout}
    (h : eval limit (Term.ofTree (op.short layout name value)) s = (.error e, t)) :
    t = (eval limit (Term.ofTree value) s).2 := by
  rw [ofTree_short, eval] at h
  rcases bind_eq_error h with hv | ⟨v, u, hv, h⟩
  · rw [hv]
  · rw [hv]
    rcases bind_eq_error h with ha | ⟨_, _, _, h⟩
    · exact assign_error ha
    · cases h

/-- A long assignment that fails leaves the state as it is before the value or after it. -/
theorem eval_long_error {outer inner : Layout}
    (h : eval limit (Term.ofTree (op.long outer inner name value)) s = (.error e, t)) :
    t = s ∨ t = (eval limit (Term.ofTree value) s).2 := by
  rw [ofTree_long, eval] at h
  rcases bind_eq_error h with ho | ⟨v, u, hv, h⟩
  · exact eval_operation_error ho
  · obtain ⟨z, _, rfl⟩ := eval_operation_eq_ok.mp hv
    cases h

end Ends

end Compound

theorem State.evaluateWithin_eq_ok {limit : Nat} {tree : Tree} {s t : State} {w : Value} :
    s.evaluateWithin limit tree = (.ok w, t) ↔
      eval limit (Term.ofTree tree) { s with output := [] } = (.ok w, t) := by
  change ((eval limit (Term.ofTree tree) { s with output := [] }).1.mapError Failure.exit,
    (eval limit (Term.ofTree tree) { s with output := [] }).2) = (.ok w, t) ↔ _
  rcases eval limit (Term.ofTree tree) { s with output := [] } with ⟨_ | v, u⟩
  · exact ⟨fun h => (by cases h), fun h => (by cases h)⟩
  · exact ⟨fun h => (by cases h; rfl), fun h => (by cases h; rfl)⟩

theorem State.evaluateWithin_error {limit : Nat} {tree : Tree} {s t : State} {failure : Failure}
    (h : s.evaluateWithin limit tree = (.error failure, t)) :
    ∃ e, eval limit (Term.ofTree tree) { s with output := [] } = (.error e, t) := by
  change ((eval limit (Term.ofTree tree) { s with output := [] }).1.mapError Failure.exit,
    (eval limit (Term.ofTree tree) { s with output := [] }).2) = _ at h
  generalize eval limit (Term.ofTree tree) { s with output := [] } = run at h ⊢
  rcases run with ⟨e | v, u⟩
  · cases h
    exact ⟨e, rfl⟩
  · cases h

/-- An assignment with an operator is short for the assignment of the operation on the variable. Where
the value leaves the variable alone, one of them gives a value exactly if the other does, and
both then leave the same state, with the same variables, output and precision;
where one fails, the variable is what it was. -/
theorem compound_assignment_expands (limit : Nat) (s : State) (op : Compound)
    (layout outer inner : Layout) (name : String) (value : Tree)
    (h : (s.evaluateWithin limit value).2.env.get? name = s.env.get? name) :
    (∀ w t, s.evaluateWithin limit (op.short layout name value) = (.ok w, t) ↔
      s.evaluateWithin limit (op.long outer inner name value) = (.ok w, t)) ∧
    ∀ failure t, (s.evaluateWithin limit (op.short layout name value) = (.error failure, t) ∨
        s.evaluateWithin limit (op.long outer inner name value) = (.error failure, t)) →
      t.env.get? name = s.env.get? name := by
  change (eval limit (Term.ofTree value) { s with output := [] }).2.env.get? name =
    ({ s with output := [] } : State).env.get? name at h
  refine ⟨fun w t => ?_, ?_⟩
  · rw [State.evaluateWithin_eq_ok, State.evaluateWithin_eq_ok, Compound.eval_short_eq_ok h,
      Compound.eval_long_eq_ok]
    exact exists₂_congr fun z u => and_congr_left' ⟨fun hz => hz.move, fun hz => hz.move⟩
  · rintro failure t (hshort | hlong)
    · obtain ⟨e, he⟩ := State.evaluateWithin_error hshort
      rw [Compound.eval_short_error he, h]
    · obtain ⟨e, he⟩ := State.evaluateWithin_error hlong
      rcases Compound.eval_long_error he with rfl | rfl
      · rfl
      · exact h

/-- A quotient, where the value sets the precision that it is rounded to. -/
theorem compound_assignment_expands_precision :
    let s : State := { env := ⟨[("x", .decimal (.finite false 1234567890123 (-12)))]⟩ }
    let layout : Layout := ⟨some ⟨1, 1⟩, ⟨1, 1⟩, none, ⟨1, 1⟩⟩
    let value : Tree := .node .funcCall none [.token .name "set_precision" ⟨1, 1⟩,
      .node .argList none [.node .number none [.token .number "20" ⟨1, 1⟩]]]
    (s.evaluateWithin 1 value).2.env.get? "x" = s.env.get? "x" ∧
    ∃ t, s.evaluateWithin 1 (Compound.div.short layout "x" value) = (.ok .none, t) ∧
      s.evaluateWithin 1 (Compound.div.long layout layout "x" value) = (.ok .none, t) ∧
      t.env.get? "x" = some (.decimal (.finite false 12345678901230000000 (-20))) ∧
      t.places = 20 := by
  intro s layout value
  have hkept : (s.evaluateWithin 1 value).2.env.get? "x" = s.env.get? "x" := by decide +kernel
  have hshort : (s.evaluateWithin 1 (Compound.div.short layout "x" value)).1 = .ok .none := by
    decide +kernel
  have hend : s.evaluateWithin 1 (Compound.div.short layout "x" value) =
      (.ok .none, (s.evaluateWithin 1 (Compound.div.short layout "x" value)).2) :=
    Prod.ext hshort rfl
  refine ⟨hkept, _, hend, ?_, by decide +kernel, by decide +kernel⟩
  exact ((compound_assignment_expands 1 s .div layout layout layout "x" value hkept).1 _ _).mp hend

end DecimalScript
