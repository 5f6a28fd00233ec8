import DecimalScript.Proofs.Regular
import DecimalScript.Proofs.Units
import Mathlib

/-! Sums of any number of operands. The operands are evaluated and taken in one after the other;
each result on the way is the exact one or a trap, so a sum that has a value has
the value that it has in any order. -/

namespace DecimalScript

open Decimal Run

namespace Decimal

variable {digits places : Nat} {x y : Decimal}

theorem OnGrid.flipped (h : OnGrid digits places x) : OnGrid digits places x.flipped := by
  obtain ⟨s, c, rfl⟩ := h.exists_eq
  exact h

theorem OnGrid.eq_ofUnits (h : OnGrid digits places x) :
    x = ofUnits places x.isNegative x.units := by
  obtain ⟨s, c, rfl⟩ := h.exists_eq
  unfold ofUnits units
  rw [natAbs_signed]
  congr 1
  by_cases hc : c = 0
  · subst hc
    cases s <;> rfl
  · have hpos := Nat.pos_of_ne_zero hc
    cases s <;> simp [signed, hc, hpos]

theorem units_nonpos (h : x.isNegative) : x.units ≤ 0 := by
  cases x with
  | finite s c e =>
    obtain rfl : s = true := h
    unfold units signed
    simp
  | infinity _ => exact le_rfl
  | nan _ _ _ => exact le_rfl

theorem add_units_nonpos {zero : Bool} {a : Int} (hzero : zero → a ≤ 0)
    (h : (zero && x.isNegative) = true) : a + x.units ≤ 0 := by
  rw [Bool.and_eq_true] at h
  have ha := hzero h.1
  have hx := units_nonpos h.2
  omega

/-- The next result on the way. A zero stays negative as long as all the numbers are. -/
theorem add_ofUnits {zero : Bool} {a : Int} (hzero : zero → a ≤ 0) (ha : a.natAbs < 10 ^ digits)
    (hy : OnGrid digits (keptPlaces digits places) y) :
    (add digits (ofUnits (keptPlaces digits places) zero a) y >>= toPlaces digits places) =
      if Fits digits places (a + y.units).natAbs then
        .ok (ofUnits (keptPlaces digits places) (zero && y.isNegative) (a + y.units))
      else .error (lossTrap (keptPlaces digits places) (a + y.units).natAbs) := by
  rw [Counts.combine hy.digits_pos (counts_ofUnits _ zero a) hy.counts ha hy.units_lt]
  have hsign : a + y.units = 0 →
      ((ofUnits (keptPlaces digits places) zero a).isNegative && y.isNegative) =
        (zero && y.isNegative) := by
    intro hsum
    cases hneg : y.isNegative with
    | false => rw [Bool.and_false, Bool.and_false]
    | true =>
      have hunits := units_nonpos hneg
      by_cases hne : a = 0
      · simp [ofUnits, isNegative, hne]
      · have hfalse : zero = false := by
          by_contra htrue
          have := hzero (by simpa using htrue)
          omega
        have hpos : ¬a < 0 := by omega
        simp [ofUnits, isNegative, hne, hfalse, hpos]
  have hsame : ofUnits (keptPlaces digits places)
      ((ofUnits (keptPlaces digits places) zero a).isNegative && y.isNegative) (a + y.units) =
      ofUnits (keptPlaces digits places) (zero && y.isNegative) (a + y.units) := by
    unfold ofUnits at hsign ⊢
    by_cases hsum : a + y.units = 0
    · rw [if_pos hsum, if_pos hsum, hsign hsum]
    · rw [if_neg hsum, if_neg hsum]
  rw [hsame]

def total (xs : List Decimal) : Int := (xs.map units).sum

theorem total_cons (x : Decimal) (xs : List Decimal) : total (x :: xs) = x.units + total xs := rfl

theorem total_perm {xs ys : List Decimal} (h : xs.Perm ys) : total xs = total ys :=
  (h.map units).sum_eq

end Decimal

/-! ### Operands -/

/-- An operand of a sum after the first, with the number that it gives and the state that it
leaves. -/
structure Operand where
  minus : Bool
  place : Pos
  tree : Tree
  number : Decimal
  left : State

namespace Operand

def trees (o : Operand) : List Tree :=
  [.token (if o.minus then .minus else .plus) (if o.minus then "-" else "+") o.place, o.tree]

def summand (o : Operand) : Decimal := if o.minus then o.number.flipped else o.number

def join (left : Term) (o : Operand) : Term := .sum o.minus left (Term.ofTree o.tree)

/-- The operand gives its number, with the places that are kept and no more than the digits of the
state. -/
structure Gives (limit digits places : Nat) (s : State) (o : Operand) : Prop where
  runs : numberOf limit .sum (Term.ofTree o.tree) s = (.ok o.number, o.left)
  digits_eq : o.left.digits = digits
  places_eq : o.left.places = places
  grid : OnGrid digits (keptPlaces digits places) o.number

theorem Gives.summand_grid {limit digits places : Nat} {s : State} {o : Operand}
    (h : o.Gives limit digits places s) : OnGrid digits (keptPlaces digits places) o.summand := by
  unfold summand
  split
  · exact h.grid.flipped
  · exact h.grid

/-- The operands give their numbers one after the other. -/
def AllGive (limit digits places : Nat) : State → List Operand → Prop
  | _, [] => True
  | s, o :: rest => o.Gives limit digits places s ∧ AllGive limit digits places o.left rest

end Operand

/-- A sum, with the state in which it is evaluated and what its first operand gives there. -/
structure SumRun where
  pos : Pos
  start : State
  first : Tree
  number : Decimal
  left : State
  rest : List Operand

namespace SumRun

def tree (a : SumRun) : Tree := .node .sum (some a.pos) (a.first :: a.rest.flatMap Operand.trees)

def summands (a : SumRun) : List Decimal := a.number :: a.rest.map Operand.summand

def last (a : SumRun) : State := a.rest.foldl (fun _ o => o.left) a.left

def outcome (limit : Nat) (a : SumRun) : Except Exit Value × State :=
  eval limit (Term.ofTree a.tree) a.start

/-- All operands give numbers with the places that are kept and no more than the digits. -/
structure Evaluates (limit digits places : Nat) (a : SumRun) : Prop where
  first : numberOf limit .sum (Term.ofTree a.first) a.start = (.ok a.number, a.left)
  grid : OnGrid digits (keptPlaces digits places) a.number
  rest : Operand.AllGive limit digits places a.left a.rest

def Bounded (digits places : Nat) (a : SumRun) : Prop :=
  ∀ k < a.rest.length, Fits digits places (total (a.summands.take (k + 2))).natAbs

instance (digits places : Nat) (a : SumRun) : Decidable (a.Bounded digits places) :=
  inferInstanceAs (Decidable (∀ k < a.rest.length, _))

theorem ofTree_tree (a : SumRun) : Term.ofTree a.tree =
    a.rest.foldl Operand.join (.numeric .sum (Term.ofTree a.first)) := by
  have hfold (left : Term) (rest : List Operand) :
      (Term.operands ((rest.flatMap Operand.trees).map Part.of)).foldl
        (fun left item => .sum (!item.1.reads "+") left item.2) left =
      rest.foldl Operand.join left := by
    induction rest generalizing left with
    | nil => rfl
    | cons o rest ih =>
      rw [List.foldl_cons, ← ih]
      obtain ⟨minus, place, tree, number, state⟩ := o
      cases minus <;> rfl
  rw [tree, Term.ofTree_node]
  exact hfold _ a.rest

end SumRun

namespace Run

variable {limit digits places : Nat} {s t : State} {left : Term} {zero : Bool} {a : Int}
  {o : Operand}

/-- One operand more. -/
theorem eval_join
    (hleft : eval limit left s = (.ok (.decimal (ofUnits (keptPlaces digits places) zero a)), t))
    (hzero : zero → a ≤ 0) (ha : a.natAbs < 10 ^ digits) (ho : o.Gives limit digits places t) :
    eval limit (o.join left) s =
      if Fits digits places (a + o.summand.units).natAbs then
        (.ok (.decimal (ofUnits (keptPlaces digits places) (zero && o.summand.isNegative)
          (a + o.summand.units))), o.left)
      else
        (.error (.fault (.trap (lossTrap (keptPlaces digits places)
          (a + o.summand.units).natAbs))), o.left) := by
  have hadd (x : Decimal) : (if o.minus then sub x o.number >>= fun z => pure (.decimal z)
      else add x o.number >>= fun z => pure (.decimal z)) =
        (add x o.summand >>= fun z => pure (.decimal z) : Run Value) := by
    unfold Operand.summand
    cases o.minus <;> rfl
  rw [Operand.join, eval, bind_of_ok hleft, bind_of_ok (numeric_decimal _ _ _),
    numberOf_bind ho.runs, hadd]
  refine add_bind ?_ _
  rw [ho.digits_eq, ho.places_eq]
  exact add_ofUnits hzero ha ho.summand_grid

theorem eval_foldl_error {e : Exit} (rest : List Operand) (h : eval limit left s = (.error e, t)) :
    eval limit (rest.foldl Operand.join left) s = (.error e, t) := by
  induction rest generalizing left with
  | nil => exact h
  | cons o rest ih =>
    refine ih ?_
    rw [Operand.join, eval, bind_of_error h]

/-- The operands are taken in without loss as long as all results fit. -/
theorem eval_foldl (rest : List Operand)
    (hleft : eval limit left s = (.ok (.decimal (ofUnits (keptPlaces digits places) zero a)), t))
    (hzero : zero → a ≤ 0) (ha : a.natAbs < 10 ^ digits)
    (hrest : Operand.AllGive limit digits places t rest)
    (hbound : ∀ k < rest.length,
      Fits digits places (a + total ((rest.map Operand.summand).take (k + 1))).natAbs) :
    eval limit (rest.foldl Operand.join left) s =
      (.ok (.decimal (ofUnits (keptPlaces digits places)
        (zero && (rest.map Operand.summand).all isNegative)
        (a + total (rest.map Operand.summand)))), rest.foldl (fun _ o => o.left) t) := by
  induction rest generalizing left zero a t with
  | nil => simpa [total] using hleft
  | cons o rest ih =>
    obtain ⟨ho, hrest⟩ := hrest
    have hnext : Fits digits places (a + o.summand.units).natAbs := by
      simpa [total] using hbound 0 (by simp)
    have hstep := eval_join hleft hzero ha ho
    rw [if_pos hnext] at hstep
    have hsum := ih hstep (add_units_nonpos hzero) hnext.fits hrest fun k hk => by
      have := hbound (k + 1) (by simpa using hk)
      rwa [List.map_cons, List.take_succ_cons, total_cons, ← add_assoc] at this
    rw [List.foldl_cons, hsum, List.map_cons, total_cons, List.all_cons, Bool.and_assoc, add_assoc]
    rfl

/-- The first result that does not fit is a trap, and no operand after it is evaluated. -/
theorem eval_foldl_trap (rest : List Operand)
    (hleft : eval limit left s = (.ok (.decimal (ofUnits (keptPlaces digits places) zero a)), t))
    (hzero : zero → a ≤ 0) (ha : a.natAbs < 10 ^ digits)
    (hrest : Operand.AllGive limit digits places t rest) {k : Nat} (ho : rest[k]? = some o)
    (hbound : ∀ j < k,
      Fits digits places (a + total ((rest.map Operand.summand).take (j + 1))).natAbs)
    (hloss : ¬Fits digits places (a + total ((rest.map Operand.summand).take (k + 1))).natAbs) :
    eval limit (rest.foldl Operand.join left) s =
      (.error (.fault (.trap (lossTrap (keptPlaces digits places)
        (a + total ((rest.map Operand.summand).take (k + 1))).natAbs))), o.left) := by
  induction rest generalizing left zero a t k with
  | nil => cases ho
  | cons next rest ih =>
    obtain ⟨hnext, hrest⟩ := hrest
    have hstep := eval_join hleft hzero ha hnext
    rw [List.map_cons, List.take_succ_cons, total_cons, ← add_assoc] at hloss ⊢
    cases k with
    | zero =>
      obtain rfl : next = o := by simpa using ho
      have hnone : a + next.summand.units + total ((rest.map Operand.summand).take 0) =
          a + next.summand.units := add_zero _
      rw [hnone] at hloss ⊢
      rw [if_neg hloss] at hstep
      exact eval_foldl_error rest hstep
    | succ k =>
      have hfits : Fits digits places (a + next.summand.units).natAbs := by
        simpa [total] using hbound 0 (by omega)
      rw [if_pos hfits] at hstep
      refine ih hstep (add_units_nonpos hzero) hfits.fits hrest (by simpa using ho) (fun j hj => ?_)
        hloss
      have := hbound (j + 1) (by omega)
      rwa [List.map_cons, List.take_succ_cons, total_cons, ← add_assoc] at this

end Run

namespace SumRun

variable {limit digits places : Nat} {a b : SumRun}

theorem eval_first (h : a.Evaluates limit digits places) :
    eval limit (.numeric .sum (Term.ofTree a.first)) a.start =
      (.ok (.decimal (ofUnits (keptPlaces digits places) a.number.isNegative a.number.units)),
        a.left) := by
  rw [eval, numberOf_bind h.first, ← h.grid.eq_ofUnits]
  rfl

theorem outcome_bounded (h : a.Evaluates limit digits places) (hb : a.Bounded digits places) :
    a.outcome limit =
      (.ok (.decimal (ofUnits (keptPlaces digits places) (a.summands.all isNegative)
        (total a.summands))), a.last) := by
  rw [outcome, ofTree_tree]
  exact eval_foldl a.rest (eval_first h) units_nonpos h.grid.units_lt h.rest hb

/-- The first result on the way that does not fit. -/
theorem exists_first_loss (hb : ¬a.Bounded digits places) : ∃ k o, a.rest[k]? = some o ∧
    (∀ j < k, Fits digits places (total (a.summands.take (j + 2))).natAbs) ∧
    ¬Fits digits places (total (a.summands.take (k + 2))).natAbs := by
  have hsome : ∃ k, ∃ _ : k < a.rest.length,
      ¬Fits digits places (total (a.summands.take (k + 2))).natAbs := by
    simpa [Bounded] using hb
  obtain ⟨hk, hloss⟩ := Nat.find_spec hsome
  refine ⟨Nat.find hsome, a.rest[Nat.find hsome], List.getElem?_eq_getElem hk, fun j hj => ?_,
    hloss⟩
  by_contra hfits
  exact Nat.find_min hsome hj ⟨hj.trans hk, hfits⟩

end SumRun

/-- A sum of any number of operands, each of which has the places that are kept and no more than the
digits of the state. If all results on the way fit, the sum is exact; otherwise it ends with
a trap right after the operand that makes the first result that does not. So where
there is a value, it does not depend on the order of the operands. -/
theorem sums_exact_or_trapped {limit digits places : Nat} (a : SumRun)
    (ha : a.Evaluates limit digits places) :
    (a.Bounded digits places → a.outcome limit =
      (.ok (.decimal (ofUnits (keptPlaces digits places) (a.summands.all isNegative)
        (total a.summands))), a.last)) ∧
    (¬a.Bounded digits places → ∃ k o, a.rest[k]? = some o ∧
      (∀ j < k, Fits digits places (total (a.summands.take (j + 2))).natAbs) ∧
      ¬Fits digits places (total (a.summands.take (k + 2))).natAbs ∧
      a.outcome limit = (.error (.fault (.trap (lossTrap (keptPlaces digits places)
        (total (a.summands.take (k + 2))).natAbs))), o.left)) ∧
    ∀ b : SumRun, b.Evaluates limit digits places → b.summands.Perm a.summands →
      a.Bounded digits places → b.Bounded digits places →
      (b.outcome limit).1 = (a.outcome limit).1 := by
  refine ⟨SumRun.outcome_bounded ha, fun hb => ?_, fun b hb hperm hbound hbound' => ?_⟩
  · obtain ⟨k, o, ho, hbound, hloss⟩ := SumRun.exists_first_loss hb
    refine ⟨k, o, ho, hbound, hloss, ?_⟩
    rw [SumRun.outcome, SumRun.ofTree_tree]
    exact eval_foldl_trap a.rest (SumRun.eval_first ha) units_nonpos ha.grid.units_lt ha.rest ho
      hbound hloss
  · rw [SumRun.outcome_bounded ha hbound, SumRun.outcome_bounded hb hbound', total_perm hperm,
      hperm.all_eq]

/-- The number `1.00` less `0.25` and `0.75`, in two orders, and the largest number plus its last
place. -/
theorem sums_exact_or_trapped_initial :
    let number (text : String) : Tree := .node .number (some ⟨1, 1⟩) [.token .number text ⟨1, 1⟩]
    let less (text : String) (c : Nat) : Operand :=
      ⟨true, ⟨1, 1⟩, number text, .finite false c (-10), {}⟩
    let plus (text : String) (c : Nat) : Operand :=
      ⟨false, ⟨1, 1⟩, number text, .finite false c (-10), {}⟩
    let sum (text : String) (c : Nat) (rest : List Operand) : SumRun :=
      ⟨⟨1, 1⟩, {}, number text, .finite false c (-10), {}, rest⟩
    let a := sum "1.00" 10000000000 [less "0.25" 2500000000, less "0.75" 7500000000]
    let b := sum "1.00" 10000000000 [less "0.75" 7500000000, less "0.25" 2500000000]
    let c := sum "999999999999999999.9999999999" 9999999999999999999999999999
      [plus "0" 0, plus "0.0000000001" 1]
    a.outcome 0 = (.ok (.decimal (.finite false 0 (-10))), {}) ∧
    (b.outcome 0).1 = (a.outcome 0).1 ∧
    c.outcome 0 = (.error (.fault (.trap .invalidOperation)), {}) := by
  intro number less plus sum a b c
  have hgives (text : String) (c : Nat) (minus : Bool)
      (h : numberOf 0 .sum (Term.ofTree (number text)) {} = (.ok (.finite false c (-10)), {}))
      (hc : OnGrid 28 10 (.finite false c (-10))) :
      Operand.Gives 0 28 10 {} ⟨minus, ⟨1, 1⟩, number text, .finite false c (-10), {}⟩ :=
    ⟨h, rfl, rfl, hc⟩
  have hone : numberOf 0 .sum (Term.ofTree (number "1.00")) {} =
      (.ok (.finite false 10000000000 (-10)), {}) := rfl
  have hquarter := hgives "0.25" 2500000000 true rfl (by decide)
  have hrest := hgives "0.75" 7500000000 true rfl (by decide)
  have hlargest : numberOf 0 .sum (Term.ofTree (number "999999999999999999.9999999999")) {} =
      (.ok (.finite false 9999999999999999999999999999 (-10)), {}) := rfl
  have hzero := hgives "0" 0 false rfl (by decide)
  have hplace := hgives "0.0000000001" 1 false rfl (by decide)
  have hfirst : a.Evaluates 0 28 10 := ⟨hone, by decide, hquarter, hrest, trivial⟩
  have hsecond : b.Evaluates 0 28 10 := ⟨hone, by decide, hrest, hquarter, trivial⟩
  have hthird : c.Evaluates 0 28 10 := ⟨hlargest, by decide, hzero, hplace, trivial⟩
  obtain ⟨hexact, -, horder⟩ := sums_exact_or_trapped a hfirst
  refine ⟨hexact (by decide), horder b hsecond ?_ (by decide) (by decide), ?_⟩
  · exact .cons _ (.swap _ _ _)
  · obtain ⟨k, o, ho, -, hloss, htrap⟩ := (sums_exact_or_trapped c hthird).2.1 (by decide)
    have hk : k < 2 := (List.getElem?_eq_some_iff.mp ho).1
    obtain rfl : k = 1 := by
      by_contra hne
      obtain rfl : k = 0 := by omega
      exact hloss (by decide)
    obtain rfl := Option.some.inj ho
    have hkind : lossTrap 10 (total c.summands).natAbs = .invalidOperation := by decide
    exact htrap.trans (by rw [← hkind]; rfl)

/-- With so many places that none of them is in range, a number cannot even be added to itself. -/
theorem sum_trapped_out_of_range :
    let s : State := { places := 999999999999999990 }
    let x : Decimal := .finite false 1 (-999999999999999990)
    let a : SumRun := ⟨⟨1, 1⟩, s, .value (.decimal x), x, s,
      [⟨false, ⟨1, 3⟩, .value (.decimal x), x, s⟩]⟩
    (∀ y ∈ a.summands, OnGrid s.digits s.places y) ∧
      (∀ k ≤ a.summands.length, (total (a.summands.take k)).natAbs < 10 ^ s.digits) ∧
      a.outcome 0 = (.error (.fault (.trap .invalidOperation)), s) :=
  ⟨by decide, by decide, rfl⟩

end DecimalScript
