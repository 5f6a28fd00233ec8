import DecimalScript.Proofs.Course
import Mathlib

/-! The row of running loops. A loop puts its variable in front and takes it away
again however it ends, and refuses a variable that is there already. -/

namespace DecimalScript

variable {limit : Nat} {s : State}

namespace Run

theorem calls_nodup {t u : Term} {v : State} (h : (u, v) ∈ calls limit t s)
    (hs : s.loops.Nodup) : v.loops.Nodup := by
  cases hl : t.isLoop with
  | false =>
    have hframe : Frame s v := calls_kept limit hl s _ h
    rw [hframe.loops]
    exact hs
  | true =>
    cases t with
    | loop name start stop step showsStep body pos =>
      obtain ⟨hn, hv⟩ := calls_loop h
      rw [hv]
      exact List.nodup_cons.mpr ⟨hn, hs⟩
    | _ => cases hl

theorem reaches_nodup {t u : Term} {v : State} (h : Reaches limit t s u v)
    (hs : s.loops.Nodup) : v.loops.Nodup := by
  induction h with
  | here => exact hs
  | call hc _ ih => exact ih (calls_nodup hc hs)

end Run

namespace State

theorem evaluateWithin_loops (limit : Nat) (tree : Tree) (s : State) :
    (s.evaluateWithin limit tree).2.loops = s.loops :=
  (Run.eval_frame limit (Term.ofTree tree) { s with output := [] }).frame.loops

theorem executeWithin_loops (limit : Nat) (text : String) (s : State) :
    (s.executeWithin limit text).2.loops = s.loops := by
  unfold executeWithin
  split
  · rfl
  · exact evaluateWithin_loops limit _ _

/-- No step of a session leaves a loop running. -/
theorem takeWithin_loops (step : Step) (h : s.loops = []) :
    (step.takeWithin limit s).2.loops = [] := by
  cases step with
  | execute text => exact (executeWithin_loops limit text s).trans h
  | assign name value => exact h
  | format value =>
    have hformat := (Run.format_reads Run.admits_all value).map Value.text
    exact (hformat.frame (s := { s with output := [] })).frame.loops.trans h
  | renew given tracing => rfl

theorem visits_loops {allowed : Nat → State → Step → Prop} {start t : State}
    (h : Visits allowed start t) (hs : start.loops = []) : t.loops = [] := by
  induction h with
  | start => exact hs
  | step _ _ ih => exact takeWithin_loops _ ih

end State

/-- Loops are begun and ended in pairs. An evaluation leaves the row of running
loops as it found it, with or without a value; no row on its way names a variable
twice if the first one does not; and between the steps of a session no loop runs. -/
theorem running_loops_restored :
    (∀ limit tree (s : State), (Run.eval limit (Term.ofTree tree) s).2.loops = s.loops) ∧
    (∀ limit tree s u v, s.loops.Nodup → Run.Reaches limit (Term.ofTree tree) s u v →
      v.loops.Nodup) ∧
    ∀ digits given tracing t,
      State.Visits (fun _ _ _ => True) (State.new digits given tracing) t → t.loops = [] := by
  refine ⟨fun limit tree s => ?_, fun limit tree s u v hs h => ?_,
    fun digits given tracing t h => ?_⟩
  · exact (Run.eval_frame limit (Term.ofTree tree) s).frame.loops
  · exact Run.reaches_nodup h hs
  · exact State.visits_loops h rfl

/-- A loop over `i` inside one over `k`, and a session whose first program fails. -/
theorem running_loops_restored_nested :
    let tree := Tree.node .forExpr (some ⟨1, 1⟩)
      [.token .name "i" ⟨1, 5⟩, .value .none, .value .none, .value .none]
    let outside : State := { loops := ["k"] }
    let inside : State := { loops := ["i", "k"] }
    let later := (Step.takeWithin 1 (State.new 28 [] false) (.execute "break with x")).2
    (outside.loops.Nodup ∧ Run.Reaches 1 (Term.ofTree tree) outside (.constant .none) inside ∧
      inside.loops.Nodup) ∧
    State.Visits (fun _ _ _ => True) (State.new 28 [] false) later ∧ later.loops = [] := by
  intro tree outside inside later
  have hs : outside.loops.Nodup := by decide
  have hr : Run.Reaches 1 (Term.ofTree tree) outside (.constant .none) inside :=
    .call (List.mem_cons_self ..) .here
  have hv : State.Visits (fun _ _ _ => True) (State.new 28 [] false) later := .step .start trivial
  exact ⟨⟨hs, hr, running_loops_restored.2.1 _ _ _ _ _ hs hr⟩, hv,
    running_loops_restored.2.2 _ _ _ _ hv⟩

end DecimalScript
