import DecimalScript.Proofs.Agreement
import DecimalScript.Proofs.TwoRunEvaluation
import DecimalScript.Proofs.Origin
import Mathlib

/-! Relations between the states of two runs that are the same inside and outside of
loops. Whatever the end, two runs of a term keep such a relation if the variables
that the term looks up and sets, and its changes of the precision, are allowed. -/

namespace DecimalScript

open Run

/-- A relation between the states of two runs that does not depend on the running loops. -/
structure Accord where
  rel : State → State → Prop
  /-- The faults with which the first run may end alone. -/
  lost : Fault → Prop
  sees : String → Prop
  sets : String → Prop
  /-- Whether the precision may be set. -/
  adjusts : Prop
  measures : ∀ {s t}, rel s t → s.digits = t.digits ∧ s.places = t.places
  get : ∀ {s t name}, rel s t → sees name → s.env.get? name = t.env.get? name
  set : ∀ {s t name}, rel s t → sets name → ∀ value,
    rel { s with env := s.env.set name value } { t with env := t.env.set name value }
  erase : ∀ {s t name}, rel s t → sets name →
    rel { s with env := s.env.erase name } { t with env := t.env.erase name }
  print : ∀ {s t}, rel s t → ∀ text, rel { s with output := .printed text :: s.output }
    { t with output := .printed text :: t.output }
  places : ∀ {s t}, rel s t → adjusts → ∀ places, rel { s with places } { t with places }
  digits : ∀ {s t}, rel s t → adjusts → ∀ digits, rel { s with digits } { t with digits }
  loops : ∀ {s t}, rel s t → ∀ loops, rel { s with loops } { t with loops }

namespace Accord

variable (A : Accord) {s t : State} {name : String}

/-- The accord as a coupling while the given loops run. -/
def coupling (stack : List String) : Coupling where
  rel s t := A.rel s t ∧ s.loops = stack ∧ t.loops = stack
  exit _ s t := A.rel s t ∧ s.loops = stack ∧ t.loops = stack
  lost := A.lost
  stack := stack
  sees := A.sees
  sets := A.sets
  aims _ := True
  adjusts := A.adjusts
  measures h := A.measures h.1
  loops h := h.2
  exit_loops h := h.2
  get h := A.get h.1
  set h hn value := ⟨A.set h.1 hn value, h.2⟩
  print h text := ⟨A.print h.1 text, h.2⟩
  places h ha places := ⟨A.places h.1 ha places, h.2⟩
  digits h ha digits := ⟨A.digits h.1 ha digits, h.2⟩
  stop h _ := h
  jump h _ := h

/-- Entering a loop changes the row of running loops, and nothing else of the coupling. -/
theorem enters (hg : A.sees name) (hs : A.sets name) (stack : List String) :
    (A.coupling stack).Enters name (A.coupling (name :: stack)) (A.coupling (name :: stack)) where
  head_stack := rfl
  body_stack := rfl
  head_lost h := h
  body_lost h := h
  head_sees := hg
  body_sees := hg
  body_sets := hs
  enter := by
    rintro s t ⟨h, hs, ht⟩
    refine ⟨?_, congrArg _ hs, congrArg _ ht⟩
    rw [hs, ht]
    exact A.loops h _
  first h value := ⟨A.set h.1 hs value, h.2⟩
  erase _ _ h := ⟨A.erase h.1 hs, h.2⟩
  restore _ _ h value := ⟨A.set h.1 hs value, h.2⟩
  back h := ⟨A.loops h.1 _, rfl, rfl⟩
  head_exit h := ⟨A.loops h.1 _, rfl, rfl⟩
  body_exit h _ := ⟨A.loops h.1 _, rfl, rfl⟩
  caught h _ := h

/-- Both runs are traced or neither is, and tracing may write. -/
structure Traces : Prop where
  tracing : ∀ {s t}, A.rel s t → s.tracing = t.tracing
  source : ∀ {s t}, A.rel s t → s.source = t.source
  write : ∀ {s t}, A.rel s t → ∀ text, A.rel { s with output := .traced text :: s.output }
    { t with output := .traced text :: t.output }

variable {A}

theorem Traces.coupling (h : A.Traces) (stack : List String) : (A.coupling stack).Traces where
  tracing hr := h.tracing hr.1
  source hr := h.source hr.1
  write hr text := ⟨h.write hr.1 text, hr.2⟩

variable (A) in
/-- The term itself does nothing that the accord does not allow. -/
def Allows : Term → Prop
  | .var name _ => A.sees name
  | .assign name _ _ _ _ | .loop name _ _ _ _ _ _ => A.sees name ∧ A.sets name
  | .call name _ _ => name = "set_precision" → A.adjusts
  | _ => True

theorem Allows.coupling {u : Term} (h : A.Allows u) (hp : u.isPlain) (stack : List String) :
    (A.coupling stack).Allows u := by
  cases u with
  | var | assign | call => exact h
  | leave | skip => exact fun _ _ => trivial
  | _ => trivial

/-- A term whose parts are allowed keeps the accord. -/
theorem Traces.covers (hA : A.Traces) {u : Term} (hu : u.Whole)
    (h : ∀ v, Term.Below v u → A.Allows v) (stack : List String) : (A.coupling stack).Covers u := by
  induction u using Term.children_induction generalizing stack with
  | step u ih =>
    have hchild {v : Term} (hv : v ∈ u.children) (stack : List String) :
        (A.coupling stack).Covers v :=
      ih v hv (hu.child hv) (fun w hw => h w (.child hv hw)) stack
    by_cases hp : u.isPlain
    · exact .plain hp ((h u .here).coupling hp stack) fun v hv => hchild hv stack
    · cases u with
      | traced note pos item =>
        refine .traced (hA.coupling stack) ?_ (hchild (by simp [Term.children]) stack)
        -- a note about a variable stands at an assignment
        rintro name rfl
        obtain ⟨namePos, op, value, place, rfl⟩ := hu.sturdy.2 name rfl
        have hassign := h (.assign name namePos op value place)
          (.child (List.mem_cons_self ..) .here)
        exact hassign.1
      | loop name start stop step showsStep body pos =>
        obtain ⟨hg, hs⟩ := h _ .here
        refine .loop (fun _ => A.enters hg hs stack) (hA.coupling _) hg ?_ ?_
        · exact fun v hv => hchild (Term.header_children hv) _
        · exact hchild (by simp [Term.children]) _
      | _ => exact absurd rfl hp

/-- Two runs from states in accord have the same end and stay in accord. -/
theorem Traces.eval (hA : A.Traces) (hl : ∀ f, ¬A.lost f) {u : Term} (hu : u.Whole)
    (h : ∀ v, Term.Below v u → A.Allows v) (limit : Nat) (hr : A.rel s t)
    (hs : s.loops = t.loops) :
    (eval limit u s).1 = (eval limit u t).1 ∧ A.rel (eval limit u s).2 (eval limit u t).2 ∧
      (eval limit u s).2.loops = (eval limit u t).2.loops := by
  have hkeeps := (hA.covers hu h s.loops).eval limit (s := s) (t := t) ⟨hr, rfl, hs.symm⟩
  cases hkeeps with
  | value hx hy hr =>
    obtain ⟨hr, hs, ht⟩ := hr
    rw [hx, hy]
    exact ⟨rfl, hr, hs.trans ht.symm⟩
  | exit hx hy hr =>
    obtain ⟨hr, hs, ht⟩ := hr
    rw [hx, hy]
    exact ⟨rfl, hr, hs.trans ht.symm⟩
  | lost hx hf => exact absurd hf (hl _)

end Accord

/-- A text that writes a program runs as the term of its tree. -/
theorem State.executeWithin_ok {limit : Nat} {text : String} {tree : Tree} {s : State}
    (h : Grammar.parse text = .ok tree) :
    s.executeWithin limit text =
      ((eval limit (Term.ofTree tree) { s with source := Text.lines text, output := [] }).1.mapError
        .exit, (eval limit (Term.ofTree tree) { s with source := Text.lines text, output := [] }).2) := by
  unfold State.executeWithin
  rw [h]
  rfl

/-- A run that ends with an exit is that of a program, whose term ends so. -/
theorem State.executeWithin_exit {limit : Nat} {text : String} {s : State} {e : Exit}
    (h : (s.executeWithin limit text).1 = .error (.exit e)) :
    ∃ tree, Grammar.parse text = .ok tree ∧
      (eval limit (Term.ofTree tree) { s with source := Text.lines text, output := [] }).1 =
        .error e := by
  cases hp : Grammar.parse text with
  | error mistake =>
    unfold executeWithin at h
    rw [hp] at h
    cases h
  | ok tree =>
    refine ⟨tree, rfl, ?_⟩
    rw [executeWithin_ok hp] at h
    generalize (eval limit (Term.ofTree tree) _).1 = result at h ⊢
    cases result with
    | ok value => cases h
    | error e =>
      cases h
      rfl

end DecimalScript
