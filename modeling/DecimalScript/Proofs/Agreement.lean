import DecimalScript.Proofs.Regular
import DecimalScript.Proofs.Rules
import Mathlib

/-! Grammar and evaluation agree. The term of a program that was read has, at every
depth, what its evaluation needs, so no internal fault can come out of it. -/

namespace DecimalScript

namespace Term

/-- The term and all terms below it have what their evaluation needs. -/
inductive Whole : Term → Prop
  | intro {t : Term} (h : t.Sturdy) (hc : ∀ u ∈ t.children, Whole u) : Whole t

theorem Whole.sturdy {t : Term} (h : Whole t) : t.Sturdy := by
  cases h with
  | intro h _ => exact h

theorem Whole.child {t u : Term} (h : Whole t) (hu : u ∈ t.children) : Whole u := by
  cases h with
  | intro _ hc => exact hc u hu

theorem Sturdy.whole {t : Term} (h : t.Sturdy) (hc : t.children = []) : Whole t :=
  .intro h (by simp [hc])

theorem whole_constant (value : Value) : Whole (.constant value) := Sturdy.whole trivial rfl

/-- The faults of a whole term are ordinary. -/
theorem May.ordinary {t : Term} {loops : List String} {f : Fault}
    (h : May t loops (.fault f)) (hw : Whole t) : f.ordinary := by
  generalize he : Exit.fault f = e at h
  induction h with
  | own h =>
    cases he
    exact h hw.sturdy
  | leave => cases he
  | skip => cases he
  | inside hu _ _ ih => exact ih (hw.child hu) he
  | header hu _ ih => exact ih (hw.child (header_children hu)) he
  | body _ _ ih => exact ih (hw.child (by simp [children])) he
  | exhausted => cases he

/-- The faults of a whole term lie in the program. -/
theorem May.not_internal {t : Term} {loops : List String} {f : Fault}
    (h : May t loops (.fault f)) (hw : Whole t) : f.internal = false := by
  have hordinary := h.ordinary hw
  unfold Fault.ordinary at hordinary
  simp_all

theorem Regular.whole {t : Term} (h : Regular t) : Whole t := by
  induction h with
  | truth => exact whole_constant _
  | number => exact Sturdy.whole trivial rfl
  | var => exact Sturdy.whole trivial rfl
  | sequence _ ih => exact .intro trivial ih
  | traced hn _ ih => exact .intro ⟨rfl, hn⟩ (List.forall_mem_singleton.mpr ih)
  | assign ho _ ih => exact .intro ⟨rfl, _, rfl, ho⟩ (List.forall_mem_singleton.mpr ih)
  | leave _ _ ihg ihr => exact .intro ⟨rfl, _, rfl⟩ (by simp [children, ihg, ihr])
  | skip _ ihg => exact .intro ⟨rfl, _, rfl⟩ (List.forall_mem_singleton.mpr ihg)
  | loop _ _ _ ihs iht ihb => exact .intro rfl (by simp [children, ihs, iht, whole_constant, ihb])
  | loopBy _ _ _ _ ihs iht ihw ihb => exact .intro rfl (by simp [children, ihs, iht, ihw, ihb])
  | print _ ih =>
    refine .intro trivial fun item hi => ?_
    by_cases hq : ∃ literal, item = .quoted literal
    · obtain ⟨literal, rfl⟩ := hq
      exact Sturdy.whole trivial rfl
    · exact ih item hi fun literal h => hq ⟨literal, h⟩
  | numeric _ ih | unwrapped _ ih | signed _ ih | boolean _ ih | negated _ ih =>
    exact .intro trivial (List.forall_mem_singleton.mpr ih)
  | sum _ _ ihl ihr | connected _ _ ihl ihr => exact .intro trivial (by simp [children, ihl, ihr])
  | product _ _ ihl ihr | power _ _ ihl ihr => exact .intro rfl (by simp [children, ihl, ihr])
  | call _ ih => exact .intro trivial ih
  | conditional _ _ _ ihc ihh iho => exact .intro trivial (by simp [children, ihc, ihh, iho])
  | comparison _ ho _ ihf ihr => exact .intro ho (List.forall_mem_cons.mpr ⟨ihf, ihr⟩)

end Term

/-- A program is one separator or has a regular term. -/
theorem program_term {tree : Tree} (h : tree.IsProgram) (hs : tree.isSeparator = false) :
    (Term.ofTree tree).Regular :=
  (program_regular h fun item hi hs => shape_usable (h item hi hs)).2 hs

theorem program_whole {tree : Tree} (h : tree.IsProgram) : (Term.ofTree tree).Whole := by
  cases hs : tree.isSeparator with
  | true =>
    obtain ⟨text, pos, rfl⟩ := Tree.eq_of_isSeparator hs
    exact Term.whole_constant _
  | false => exact (program_term h hs).whole

/-- Where the evaluation of a program that was read fails, it fails for a reason that
lies in the program: no node lacks a child, a token or a place that is needed, no
variable is gone, and every node and operator is one that evaluation knows. -/
theorem parsed_program_faults_lie_in_program (limit : Nat) (s : State) {text : String}
    {tree : Tree} {f : Fault} (h : Grammar.parse text = .ok tree)
    (hf : (Run.eval limit (Term.ofTree tree) s).1 = .error (.fault f)) : f.internal = false := by
  have hexit := (Run.eval_tame limit (Term.ofTree tree) s).of_error
    (t := (Run.eval limit (Term.ofTree tree) s).2) (Prod.ext hf rfl)
  exact hexit.2.not_internal (program_whole (Grammar.parse_isProgram h))

/-- A loop that is left for another one that does not run. -/
theorem parsed_program_faults_lie_in_program_break :
    ∃ tree, Grammar.parse "for i in 0..1 (break from j with 1)" = .ok tree ∧
      (Run.eval 1 (Term.ofTree tree) {}).1 =
        .error (.fault (.script (.loopNotFound "j") (some ⟨1, 16⟩))) ∧
      (Fault.script (.loopNotFound "j") (some ⟨1, 16⟩)).internal = false := by
  have hrun : ((Grammar.parse "for i in 0..1 (break from j with 1)").map fun tree =>
      decide ((Run.eval 1 (Term.ofTree tree) {}).1 =
        .error (.fault (.script (.loopNotFound "j") (some ⟨1, 16⟩))))) = .ok true := by
    decide +kernel
  cases hp : Grammar.parse "for i in 0..1 (break from j with 1)" with
  | error mistake =>
    rw [hp] at hrun
    cases hrun
  | ok tree =>
    rw [hp] at hrun
    have hf := of_decide_eq_true (Except.ok.inj hrun)
    exact ⟨tree, rfl, hf, parsed_program_faults_lie_in_program 1 {} hp hf⟩

end DecimalScript
