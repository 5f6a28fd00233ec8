import DecimalScript.Proofs.Footprint
import DecimalScript.Proofs.Landmark
import DecimalScript.Proofs.Law
import Mathlib

/-! Errors point at what they are about. An error with a place is raised by one of the terms that
the evaluation comes to, at a place of this term; there stands in the text the name of the
variable or function, or the keyword of the loop or jump. -/

namespace DecimalScript

open Run

namespace Run

variable {α β : Type} {limit : Nat} {cause : Cause} {pos : Pos}

/-! ### The term that raises an error -/

def Avoids (cause : Cause) (pos : Pos) (run : Run α) : Prop :=
  ∀ s, (run s).1 ≠ .error (.fault (.script cause (some pos)))

theorem Avoids.bind {x : Run α} {g : α → Run β} (hx : Avoids cause pos x)
    (hg : ∀ a, Avoids cause pos (g a)) : Avoids cause pos (x >>= g) := by
  intro s h
  rw [bind_apply] at h
  have hfirst := hx s
  cases hr : x s with
  | mk r t =>
    rw [hr] at h hfirst
    cases r with
    | ok a => exact hg a t h
    | error e => exact hfirst (congrArg Except.error (Except.error.inj h))

def avoidance (cause : Cause) (pos : Pos) : Law where
  Obeys := Avoids cause pos
  admits other place := ¬(other = cause ∧ place = pos)
  pure _ _ h := by cases h
  bind := Avoids.bind
  get _ h := by cases h
  exit h _ heq := h cause pos (Except.error.inj heq) ⟨rfl, rfl⟩

theorem modify_avoids (g : State → State) : Avoids cause pos (modify g : Run Unit) :=
  fun _ h => by cases h

theorem setPrecision_avoids {place : Pos}
    (harity : (avoidance cause pos).admits (.arity "set_precision" 1) place)
    (hvalue : (avoidance cause pos).admits .precisionArgument place) (items : List Value) :
    Avoids cause pos (setPrecision place items) := by
  let L := avoidance cause pos
  refine L.bind (L.oneArgument harity items) fun item => L.bind (L.toDecimal item) fun x => ?_
  refine L.bind (L.decimal _) fun isWhole => ?_
  cases isWhole with
  | false => exact L.blameAt hvalue
  | true =>
    refine L.bind (L.decimal _) fun isNegative => ?_
    cases isNegative with
    | true => exact L.blameAt hvalue
    | false =>
      refine L.bind L.get fun s => L.bind (L.toInt x) fun n => ?_
      refine L.bind (modify_avoids _) fun _ => ?_
      dsimp only
      split_ifs
      · exact L.fail (by simp)
      · exact L.fail (by simp)
      · exact L.bind (modify_avoids _) fun _ => L.pure _

theorem insideLoop_avoids {name : String} {place : Option Pos} {run : Run α}
    (hplace : ∀ p, place = some p → (avoidance cause pos).admits (.loopVariableInUse name) p)
    (h : Avoids cause pos run) : Avoids cause pos (insideLoop name place run) := by
  intro s heq
  unfold insideLoop at heq
  split at heq
  · exact (avoidance cause pos).blameNode hplace s heq
  · exact h _ heq

theorem catchSignal_avoids {run : Run α} (h : Avoids cause pos run) :
    Avoids cause pos (catchSignal run) := by
  intro s heq
  have hrun := h s
  unfold catchSignal at heq
  cases hr : run s with
  | mk r t =>
    rw [hr] at heq hrun
    cases r with
    | ok a => cases heq
    | error e =>
      cases e with
      | signal signal => cases heq
      | fault fault => exact hrun (congrArg Except.error (Except.error.inj heq))
      | exhausted => cases heq

/-- Never to end with an error is a law that admits all other errors. -/
def avoiding (cause : Cause) (pos : Pos) : Regime where
  toLaw := avoidance cause pos
  write _ := modify_avoids _
  setVariable _ _ := modify_avoids _
  eraseVariable _ := modify_avoids _
  setPrecision := setPrecision_avoids
  insideLoop := insideLoop_avoids
  catchSignal := catchSignal_avoids

/-- The evaluation of the term ends with the fault, and that of no term it asks for does. -/
structure Raises (limit : Nat) (fault : Fault) (t : Term) (s : State) : Prop where
  ends : (eval limit t s).1 = .error (.fault fault)
  own : ∀ u v, (u, v) ∈ calls limit t s → (eval limit u v).1 ≠ .error (.fault fault)

open Classical in
/-- Evaluation where it does not end with the error. -/
noncomputable def spared (cause : Cause) (pos : Pos) (limit : Nat) (t : Term) : Run Value := fun s =>
  if (eval limit t s).1 = .error (.fault (.script cause (some pos))) then (.error .exhausted, s)
  else eval limit t s

theorem spared_avoids (t : Term) : Avoids cause pos (spared cause pos limit t) := by
  intro s
  unfold spared
  split
  · exact fun h => by cases h
  · assumption

/-- A term that raises an error has it among its own. -/
theorem Raises.blames {t : Term} {s : State} (h : Raises limit (.script cause (some pos)) t s) :
    t.Blames cause pos := by
  by_contra hb
  have hagrees : Agrees limit (spared cause pos limit) (calls limit t s) :=
    fun u v hc => if_neg (h.own u v hc)
  have hlayer : Avoids cause pos (evalBy limit (spared cause pos limit) t) := by
    refine (avoiding cause pos).layer ?_ fun u _ => spared_avoids u
    rintro other place hother ⟨rfl, rfl⟩
    exact hb hother
  refine hlayer s ?_
  rw [evalBy_congr hagrees]
  exact h.ends

/-- An error with a place is raised by a term that the evaluation comes to. -/
theorem exists_raises {t : Term} {s : State}
    (h : (eval limit t s).1 = .error (.fault (.script cause (some pos)))) :
    ∃ u v, Term.Below u t ∧ Reaches limit t s u v ∧ Raises limit (.script cause (some pos)) u v := by
  induction t using Term.children_induction generalizing s with
  | step t ih =>
    by_cases hc : ∃ call ∈ calls limit t s,
        (eval limit call.1 call.2).1 = .error (.fault (.script cause (some pos)))
    · obtain ⟨call, hmem, hcall⟩ := hc
      have hchild := mem_children_of_calls hmem
      obtain ⟨u, v, hbelow, hreach, hraise⟩ := ih call.1 hchild hcall
      exact ⟨u, v, .child hchild hbelow, .call hmem hreach, hraise⟩
    · exact ⟨t, s, .here, .here, h, fun u v hm heq => hc ⟨(u, v), hm, heq⟩⟩

end Run

/-! ### What stands at the places of terms -/

/-- The word of a term that stands at its place: its name, or the keyword of a loop or jump. -/
def Term.landmark? : Term → Option (Pos × String)
  | .var name pos | .assign name pos .. | .call name pos _ => some (pos, name)
  | .leave _ _ _ (some pos) => some (pos, "break")
  | .skip _ _ (some pos) => some (pos, "next")
  | .loop _ _ _ _ _ _ (some pos) => some (pos, "for")
  | _ => none

section Node
variable {label : Label} {pos : Option Pos} {kids : List Tree} {exit next : Found (Except Defect String)}
variable {guard : Found Term} {p : Pos} {word : String}

/-- A term whose name is the first token of its node has this token for its landmark. -/
theorem Term.withToken_landmark {f : String → Pos → Term}
    (hf : ∀ text place, (f text place).landmark? = some (p, word) → p = place ∧ word = text)
    (h : (withToken (kids.map Part.of) f).landmark? = some (p, word)) :
    ∃ terminal, .token terminal word p ∈ kids := by
  rcases withToken_cases kids f with ⟨terminal, text, place, rest, rfl, heq⟩ | ⟨defect, heq⟩
  · rw [heq] at h
    obtain ⟨rfl, rfl⟩ := hf text place h
    exact ⟨terminal, List.mem_cons_self ..⟩
  · rw [heq] at h
    cases h

/-- The landmark of an anchored node's term is that of the node or of a token right below it. -/
theorem Term.ofNode_landmark (hl : label ∈ anchors)
    (h : (ofNode label pos (kids.map Part.of) exit guard next).landmark? = some (p, word)) :
    (Tree.node label pos kids).landmark? = some (p, word) ∨
      ∃ terminal, .token terminal word p ∈ kids := by
  simp only [anchors, List.mem_cons, List.not_mem_nil, or_false] at hl
  rcases hl with rfl | rfl | rfl | rfl | rfl | rfl
  · cases pos with
    | none => cases h
    | some place => exact .inl h
  · cases pos with
    | none => cases h
    | some place => exact .inl h
  · change (ofLoop pos (kids.map Part.of)).landmark? = some (p, word) at h
    unfold ofLoop withToken at h
    split at h
    · cases h
    · split at h
      · cases pos with
        | none => cases h
        | some place => exact .inl h
      · cases h
  · refine .inr (Term.withToken_landmark (fun text place hf => ?_) h)
    split at hf
    · cases hf
    · split at hf
      · cases hf
        exact ⟨rfl, rfl⟩
      · cases hf
  · refine .inr (Term.withToken_landmark (fun text place hf => ?_) h)
    cases hf
    exact ⟨rfl, rfl⟩
  · refine .inr (Term.withToken_landmark (fun text place hf => ?_) h)
    split at hf
    · cases hf
      exact ⟨rfl, rfl⟩
    · split at hf
      · cases hf
        exact ⟨rfl, rfl⟩
      · cases hf

end Node

/-- The landmarks of terms come from the tree. -/
theorem Term.exists_landmark {tree : Tree} {u : Term} {p : Pos} {word : String}
    (hu : Term.Below u (Term.ofTree tree)) (hl : u.landmark? = some (p, word)) :
    ∃ sub ∈ tree.subtrees, sub.landmark? = some (p, word) := by
  have hanchored : u.isAnchored := by
    cases u <;> first | rfl | cases hl
  obtain ⟨w, hw, hanchor, rfl⟩ := (draft_from tree).term u hu hanchored
  cases w with
  | value => cases hanchor
  | token terminal text place =>
    refine ⟨_, hw, ?_⟩
    cases terminal with
    | name => exact hl
    | _ => cases hanchor
  | node label pos kids =>
    rw [Term.ofTree_node] at hl
    rcases Term.ofNode_landmark (by simpa [Tree.isAnchored] using hanchor) hl with h | ⟨terminal, hk⟩
    · exact ⟨_, hw, h⟩
    · have htoken : Tree.token terminal word p ∈ (Tree.node label pos kids).subtrees :=
        Tree.mem_subtrees_of_child hk (Tree.self_mem_subtrees _)
      exact ⟨_, Tree.mem_subtrees_trans hw htoken, rfl⟩

/-! ### Programs -/

/-- An error of a function that is called. -/
def Cause.isOfFunction : Cause → Bool
  | .unknownFunction _ | .arity .. | .functionDomain | .rootDomain _ | .rootByZero
  | .cotangentByZero | .precisionArgument => true
  | _ => false

def Cause.function? : Cause → Option String
  | .unknownFunction name | .arity name _ | .rootDomain name => some name
  | _ => none

theorem mem_functionCauses {name : String} {cause : Cause} (h : cause ∈ functionCauses name) :
    cause.isOfFunction ∧ ∀ f, cause.function? = some f → f = name := by
  unfold functionCauses at h
  split at h <;> simp only [List.mem_cons, List.not_mem_nil, or_false] at h <;>
    rcases h with rfl | rfl | rfl <;> simp [Cause.isOfFunction, Cause.function?]

/-- An error of a function is that of a call. -/
theorem Term.Blames.call_of_function {u : Term} {cause : Cause} {p : Pos} (h : u.Blames cause p)
    (hf : cause.isOfFunction) :
    ∃ name items, u = .call name p items ∧ ∀ f, cause.function? = some f → f = name := by
  cases h with
  | call h => exact ⟨_, _, rfl, (mem_functionCauses h).2⟩
  | _ => cases hf

/-- Where an error has a place, there stands what it is about. The error is that of one term
which the evaluation comes to, and of none of the terms that this one asks for. -/
theorem errors_point_at_culprits (limit : Nat) (text : String) (s : State) (cause : Cause) (p : Pos)
    (h : (s.executeWithin limit text).1 = .error (.exit (.fault (.script cause (some p))))) :
    ∃ tree u v, Grammar.parse text = .ok tree ∧
      Run.Reaches limit (Term.ofTree tree) { s with source := Text.lines text, output := [] } u v ∧
      Raises limit (.script cause (some p)) u v ∧
      (cause.isOfFunction → ∃ name items, u = .call name p items ∧ HasAt text p name ∧
        ∀ f, cause.function? = some f → f = name) ∧
      (∀ name, cause = .unbound name → HasAt text p name) ∧
      (cause = .breakOutsideLoop → HasAt text p "break") ∧
      (cause = .nextOutsideLoop → HasAt text p "next") ∧
      (∀ name, cause = .loopNotFound name → HasAt text p "break" ∨ HasAt text p "next") ∧
      (∀ name, cause = .loopVariableInUse name → HasAt text p "for") ∧
      (cause = .zeroStep → HasAt text p "for") := by
  obtain ⟨tree, hparse, hfault⟩ := State.executeWithin_exit h
  obtain ⟨u, v, hbelow, hreach, hraise⟩ := exists_raises hfault
  have hat {word : String} (hl : u.landmark? = some (p, word)) : HasAt text p word := by
    obtain ⟨sub, hs, hl⟩ := Term.exists_landmark hbelow hl
    exact Grammar.parse_landmark hparse hs hl
  have hblames := hraise.blames
  refine ⟨tree, u, v, hparse, hreach, hraise, fun hf => ?_, ?_, ?_, ?_, ?_, ?_, ?_⟩
  · obtain ⟨name, items, rfl, hname⟩ := hblames.call_of_function hf
    exact ⟨name, items, rfl, hat rfl, hname⟩
  · rintro name rfl
    cases hblames with
    | unbound | unassigned => exact hat rfl
    | call h => cases (mem_functionCauses h).1
  · rintro rfl
    cases hblames with
    | leaveOutside => exact hat rfl
    | call h => cases (mem_functionCauses h).1
  · rintro rfl
    cases hblames with
    | skipOutside => exact hat rfl
    | call h => cases (mem_functionCauses h).1
  · rintro name rfl
    cases hblames with
    | leaveOther => exact .inl (hat rfl)
    | skipOther => exact .inr (hat rfl)
    | call h => cases (mem_functionCauses h).1
  · rintro name rfl
    cases hblames with
    | inUse => exact hat rfl
    | call h => cases (mem_functionCauses h).1
  · rintro rfl
    cases hblames with
    | zeroStep => exact hat rfl
    | call h => cases (mem_functionCauses h).1

/-- A call with an argument too many inside another call, in a line with a letter of two bytes. -/
theorem errors_point_at_culprits_nested :
    let text := "for i in 1..2 (\n  print(\"ü\"); y = sin(ln(i, 2))\n)"
    (State.executeWithin 1 text {}).1 =
        .error (.exit (.fault (.script (.arity "ln" 1) (some ⟨2, 23⟩)))) ∧
      HasAt text ⟨2, 23⟩ "ln" := by
  intro text
  have hrun : (State.executeWithin 1 text {}).1 =
      .error (.exit (.fault (.script (.arity "ln" 1) (some ⟨2, 23⟩)))) := by decide +kernel
  obtain ⟨tree, u, v, -, -, -, hfunction, -⟩ := errors_point_at_culprits 1 text {} _ _ hrun
  obtain ⟨name, items, -, hat, hname⟩ := hfunction rfl
  obtain rfl := hname "ln" rfl
  exact ⟨hrun, hat⟩

end DecimalScript
