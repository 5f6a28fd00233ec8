import DecimalScript.Proofs.TwoRunRelations
import Mathlib

/-! No definition is lost. What is defined when an evaluation begins is defined all along
and when it ends, and the variable of a loop is so while its body runs. The loop
looks its variable up between the passes, and that never fails. -/

namespace DecimalScript

namespace Run

variable {limit : Nat} {s : State} {name : String} {start stop step body : Term}
  {showsStep : Bool} {pos : Option Pos}

/-! ### Definitions on the way -/

theorem calls_defines {t u : Term} {v : State} (h : (u, v) ∈ calls limit t s) {other : String}
    (hd : s.Defines other) : v.Defines other := by
  cases hl : t.isLoop with
  | false => exact (calls_kept limit hl s _ h).defines other hd
  | true =>
    cases t with
    | loop =>
      dsimp only [calls] at h
      split at h
      · cases h
      · exact (callsOfLoop_kept _ _ _ _ _ _ _ _ _ _ h).defines other hd
    | _ => cases hl

theorem reaches_defines {t u : Term} {v : State} (h : Reaches limit t s u v) {other : String}
    (hd : s.Defines other) : v.Defines other := by
  induction h with
  | here => exact hd
  | call hc _ ih => exact ih (calls_defines hc hd)

theorem eval_defines (limit : Nat) (t : Term) {other : String} (hd : s.Defines other) :
    (eval limit t s).2.Defines other := (eval_frame limit t s).frame.defines other hd

/-! ### The variable of a loop -/

/-- The states in which a loop begins to run its body. -/
def bodyStates (limit : Nat) (name : String) (start stop step : Term) (showsStep : Bool)
    (body : Term) (pos : Option Pos) (s : State) : List State :=
  if s.loops.contains name then []
  else
    after (do numeric .loopStart (← eval limit start)) { s with loops := name :: s.loops }
      fun start s => after (do numeric .loopEnd (← eval limit stop)) s
        fun stop s => after (do numeric .loopStep (← eval limit step)) s
          fun step s =>
            let range : Range := { name, start, stop, step, showsStep, pos }
            after (prepare range) s fun (_, up) s =>
              passStates range up (eval limit body) limit {} s

/-- The bounds and the step that a loop has found, and the state in which its passes begin. -/
theorem bodyStates_cases {w : State}
    (h : w ∈ bodyStates limit name start stop step showsStep body pos s) :
    ∃ (range : Range) (up : Bool) (t : State), range.name = name ∧ t.Defines name ∧
      w ∈ passStates range up (eval limit body) limit {} t := by
  unfold bodyStates at h
  split at h
  · cases h
  · obtain ⟨first, s₁, _, h⟩ := mem_after.mp h
    obtain ⟨last, s₂, _, h⟩ := mem_after.mp h
    obtain ⟨width, s₃, _, h⟩ := mem_after.mp h
    obtain ⟨⟨before, up⟩, s₄, h₄, h⟩ := mem_after.mp h
    have hprepare := (prepare_tame (E := fun _ => True) admits_all (fun _ _ => trivial)
      fun _ => trivial).of_ok h₄
    exact ⟨⟨name, first, last, width, showsStep, pos⟩, up, s₄, rfl, hprepare.2.2, h⟩

theorem callsThen_eq {α : Type} (u : Term) (test : Value → Run α) (s : State)
    (next : α → State → List (Term × State)) :
    callsThen limit u test s next = (u, s) :: after (do test (← eval limit u)) s next := by
  unfold callsThen
  congr 1
  unfold after
  rw [bind_apply]
  cases eval limit u s with
  | mk r t => cases r <;> rfl

/-- One part of the head of a loop is one more call before the runs of the body. -/
theorem exists_header {u : Term} {usage : Usage} {next : Decimal → State → List (Term × State)}
    {bodies : Decimal → State → List State} {parts : List Term} (hu : u ∈ parts)
    (hn : ∀ x w, ∃ header, next x w = header ++ (bodies x w).map (body, ·) ∧
      ∀ call ∈ header, call.1 ∈ parts) :
    ∃ header, callsThen limit u (numeric usage) s next =
        header ++ (after (do numeric usage (← eval limit u)) s bodies).map (body, ·) ∧
      ∀ call ∈ header, call.1 ∈ parts := by
  rw [callsThen_eq]
  unfold after
  cases (do numeric usage (← eval limit u)) s with
  | mk r w =>
    cases r with
    | error e => exact ⟨[(u, s)], by simp, by simpa using hu⟩
    | ok x =>
      obtain ⟨header, heq, hparts⟩ := hn x w
      exact ⟨(u, s) :: header, by simp [heq], by simpa using ⟨hu, by simpa using hparts⟩⟩

/-- The calls of a loop are those of its bounds and step and then the runs of its body. -/
theorem calls_loop_eq : ∃ header,
    calls limit (.loop name start stop step showsStep body pos) s =
      header ++ (bodyStates limit name start stop step showsStep body pos s).map (body, ·) ∧
    ∀ call ∈ header, call.1 ∈ [start, stop, step] := by
  unfold bodyStates
  rw [calls]
  split
  · exact ⟨[], rfl, by simp⟩
  · refine exists_header (by simp) fun first s₁ => exists_header (by simp) fun last s₂ => ?_
    refine exists_header (by simp) fun width s₃ => ⟨[], ?_, by simp⟩
    dsimp only [after]
    cases prepare ⟨name, first, last, width, showsStep, pos⟩ s₃ with
    | mk r t => cases r <;> rfl

theorem bodyStates_defines {w : State}
    (h : w ∈ bodyStates limit name start stop step showsStep body pos s) : w.Defines name := by
  obtain ⟨range, up, t, rfl, hd, hw⟩ := bodyStates_cases h
  exact (passStates_frame (eval_frame limit body) limit {} t hd w hw).defines _ hd

/-! ### The lookups of a loop -/

/-- One of the evaluations that the term asks for ends because a lookup finds no variable. -/
def Misses (limit : Nat) (t : Term) (s : State) : Prop :=
  ∃ call ∈ calls limit t s, (eval limit call.1 call.2).1 = .error (.fault .variableGone)

/-- The exit is no failed lookup, unless something else is to blame for it. -/
def Excused (Q : Prop) (e : Exit) : Prop := e = .fault .variableGone → Q

section Excused
variable {Q : Prop} {range : Range}

theorem present_admits : Admits (· ≠ .variableGone) := by
  rintro f hf rfl
  cases hf

theorem excused_fault {f : Fault} (h : f ≠ .variableGone) : Excused Q (.fault f) := by
  rintro ⟨⟩
  exact absurd rfl h

/-- An evaluation is tame with the exit that it has. -/
theorem eval_exit (limit : Nat) (t : Term) (s : State) :
    Tame (fun e => (eval limit t s).1 = .error e) (eval limit t) s := by
  have hframe := eval_frame limit t s
  refine Ensures.of_run (fun a u hr => hframe.of_ok hr) fun e u hr => ⟨(hframe.of_error hr).1, ?_⟩
  rw [hr]

/-- The passes of a loop end with a failed lookup only if a run of the body does: the variable
is there when the loop looks it up before a pass, after it, and to move it on. -/
theorem passes_excused (up : Bool) (count : Nat) (progress : Progress) (s : State)
    (hd : s.Defines range.name)
    (hQ : ∀ v ∈ passStates range up (eval limit body) count progress s,
      (eval limit body v).1 = .error (.fault .variableGone) → Q) :
    Tame (Excused Q) (passes range up (eval limit body) count progress) s := by
  induction count generalizing progress s with
  | zero => exact tame_throw fun h => by cases h
  | succ count ih =>
    have hE : ∀ f, f ≠ .variableGone → Excused Q (.fault f) := fun f => excused_fault
    rw [passes]
    refine (loopNumber_tame present_admits hE hd).bind fun x s₁ r₁ h₁ => ?_
    refine ((goesOn_reads present_admits range up x).tame hE).bind fun isOn s₂ r₂ h₂ => ?_
    have hs₂ := h₁.trans h₂
    cases isOn with
    | false => exact tame_pure progress
    | true =>
      have hannounce := announcePass_tame present_admits hE progress (hs₂.defines _ hd)
        fun _ h => by cases h
      refine (whenTracing_tame hannounce).bind fun _ s₃ r₃ h₃ => ?_
      have hs₃ := hs₂.trans h₃
      have begun {v : State} (hv : v ∈ s₃ :: after (pass range.name (eval limit body) progress) s₃ _) :
          v ∈ passStates range up (eval limit body) (count + 1) progress s :=
        mem_after.mpr ⟨x, s₁, r₁, mem_after.mpr ⟨true, s₂, r₂, mem_after.mpr ⟨(), s₃, r₃, hv⟩⟩⟩
      have hpass : Tame (Excused Q) (pass range.name (eval limit body) progress) s₃ := by
        refine pass_tame present_admits hE ?_ progress (hs₃.defines _ hd) (eval_exit limit body s₃)
        rintro e he _ rfl
        exact hQ s₃ (begun (List.mem_cons_self ..)) he
      refine hpass.bind ?_
      rintro ⟨progress', left⟩ s₄ r₄ h₄
      have hs₄ := hs₃.trans h₄
      cases left with
      | true => exact tame_pure progress'
      | false =>
        refine (advance_tame present_admits hE (hs₄.defines _ hd)).bind fun _ s₅ r₅ h₅ => ?_
        refine ih progress' s₅ ((hs₄.trans h₅).defines _ hd) fun v hv => hQ v (begun ?_)
        refine List.mem_cons_of_mem _ (mem_after.mpr ⟨_, s₄, r₄, ?_⟩)
        exact mem_after.mpr ⟨(), s₅, r₅, hv⟩

theorem loopOver_excused (s : State)
    (hQ : ∀ before up t, prepare range s = (.ok (before, up), t) →
      ∀ v ∈ passStates range up (eval limit body) limit {} t,
        (eval limit body v).1 = .error (.fault .variableGone) → Q) :
    Tame (Excused Q) (loopOver limit range (eval limit body)) s := by
  have hE : ∀ f, f ≠ .variableGone → Excused Q (.fault f) := fun f => excused_fault
  refine Ensures.bind (prepare_tame present_admits hE fun _ => nofun) ?_
  rintro ⟨before, up⟩ t ht ⟨hst, hb, hd⟩
  have hpasses := passes_excused up limit {} t hd (hQ before up t ht)
  refine Ensures.bind (P := fun _ u => Frame s u) ?_ fun progress u _ hsu => ?_
  · exact Ensures.mono hpasses (fun _ u _ hu => hst.trans hu) fun e u hu => ⟨hst.trans hu.1, hu.2⟩
  · exact (settle_frame hsu hb).bind fun _ v _ hsv => ensures_pure hsv

/-- A bound or the step of a loop. -/
theorem operand_excused {u : Term} {usage : Usage} {g : Decimal → Run Value}
    (hu : (eval limit u s).1 = .error (.fault .variableGone) → Q)
    (hg : ∀ x w, (do numeric usage (← eval limit u)) s = (.ok x, w) → Tame (Excused Q) (g x) w) :
    Tame (Excused Q) (do g (← numeric usage (← eval limit u))) s := by
  have heval : Tame (Excused Q) (eval limit u) s := by
    refine (eval_exit limit u s).mono fun e he hgone => hu ?_
    rw [he, hgone]
  refine heval.bind fun value v hv _ => ?_
  have hnumeric : Tame (Excused Q) (numeric usage value) v :=
    (numeric_reads present_admits usage value).tame fun f => excused_fault
  exact hnumeric.bind fun x w hx _ => hg x w ((bind_of_ok hv).trans hx)

/-- A loop ends with a failed lookup only if its bounds, its step or its body does. -/
theorem loop_excused :
    Tame (Excused (Misses limit (.loop name start stop step showsStep body pos) s))
      (eval limit (.loop name start stop step showsStep body pos)) s := by
  refine insideLoop_tame present_admits (fun f => excused_fault) (fun _ => nofun) fun hn => ?_
  have blame {u : Term} {v : State}
      (hc : (u, v) ∈ callsOfLoop limit name start stop step showsStep body pos
        { s with loops := name :: s.loops })
      (hu : (eval limit u v).1 = .error (.fault .variableGone)) :
      Misses limit (.loop name start stop step showsStep body pos) s := by
    refine ⟨(u, v), ?_, hu⟩
    rw [calls, if_neg (by simpa using hn)]
    exact hc
  refine operand_excused (blame (List.mem_cons_self ..)) fun first s₁ h₁ => ?_
  refine operand_excused (blame (mem_callsThen h₁ (List.mem_cons_self ..))) fun last s₂ h₂ => ?_
  refine operand_excused (blame (mem_callsThen h₁ (mem_callsThen h₂ (List.mem_cons_self ..))))
    fun width s₃ h₃ => ?_
  refine loopOver_excused s₃ fun before up t ht v hv => blame ?_
  refine mem_callsThen h₁ (mem_callsThen h₂ (mem_callsThen h₃ ?_))
  exact mem_after.mpr ⟨_, t, ht, List.mem_map.mpr ⟨v, hv, rfl⟩⟩

end Excused

end Run

theorem State.executeWithin_present (limit : Nat) (text : String) (s : State) :
    (s.executeWithin limit text).1 ≠ .error (.exit (.fault .variableGone)) := by
  intro h
  obtain ⟨tree, hp, hend⟩ := executeWithin_exit h
  have hexit := ((Run.eval_tame limit (Term.ofTree tree) _).of_error (Prod.ext hend rfl)).2
  cases hexit.not_internal (program_whole (Grammar.parse_isProgram hp))

/-- No definition is ever lost. What is defined when the evaluation of a tree begins is defined
when it ends, with a value, a fault or a signal. The variable of a loop is defined in all
that the runs of its body come to, which are its only calls beside those of its bounds and
step, and so the loop itself never fails to find it: a loop that ends because a variable is
gone has that from one of its calls, and no program ends so. -/
theorem definitions_never_lost (limit : Nat) :
    (∀ tree (s : State) name, s.Defines name →
      (Run.eval limit (Term.ofTree tree) s).2.Defines name) ∧
    (∀ name start stop step showsStep body pos s,
      (∃ header, Run.calls limit (.loop name start stop step showsStep body pos) s =
          header ++ (Run.bodyStates limit name start stop step showsStep body pos s).map (body, ·) ∧
        ∀ call ∈ header, call.1 ∈ [start, stop, step]) ∧
      (∀ w ∈ Run.bodyStates limit name start stop step showsStep body pos s, ∀ u v,
        Run.Reaches limit body w u v → v.Defines name ∧ (Run.eval limit u v).2.Defines name) ∧
      ((Run.eval limit (.loop name start stop step showsStep body pos) s).1 =
          .error (.fault .variableGone) →
        Run.Misses limit (.loop name start stop step showsStep body pos) s)) ∧
    ∀ text s, (State.executeWithin limit text s).1 ≠ .error (.exit (.fault .variableGone)) := by
  refine ⟨fun tree s name hd => Run.eval_defines limit _ hd, ?_, State.executeWithin_present limit⟩
  intro name start stop step showsStep body pos s
  refine ⟨Run.calls_loop_eq, fun w hw u v hr => ?_, fun hgone => ?_⟩
  · have hv := Run.reaches_defines hr (Run.bodyStates_defines hw)
    exact ⟨hv, Run.eval_defines limit u hv⟩
  · exact (Run.loop_excused.of_error (Prod.ext hgone rfl)).2 rfl

/-- A loop over `i` whose body is run once, and one that fails in its first bound. -/
theorem definitions_never_lost_once :
    let one : Term := .constant (.decimal .one)
    let body : Term := .var "i" ⟨1, 17⟩
    let inside : State :=
      { env := ⟨[("i", .decimal (.finite false 10000000000 (-10)))]⟩, loops := ["i"] }
    let unnamed : Term := .traced (.assigned "x") (some ⟨1, 10⟩) (.constant .none)
    let loop : Term := .loop "i" unnamed one one false body (some ⟨1, 1⟩)
    let traced : State := { tracing := true }
    (inside.Defines "i" ∧ (Run.eval 1 (Term.ofTree (.value .none)) inside).2.Defines "i") ∧
    (inside ∈ Run.bodyStates 1 "i" one one one false body (some ⟨1, 1⟩) {} ∧
      Run.Reaches 1 body inside body inside ∧ inside.Defines "i" ∧
      (Run.eval 1 body inside).2.Defines "i") ∧
    (Run.eval 1 loop traced).1 = .error (.fault .variableGone) ∧ Run.Misses 1 loop traced := by
  intro one body inside unnamed loop traced
  obtain ⟨hends, hloops, _⟩ := definitions_never_lost 1
  have hd : inside.Defines "i" := rfl
  have hb : inside ∈ Run.bodyStates 1 "i" one one one false body (some ⟨1, 1⟩) {} :=
    List.mem_cons_self ..
  have hgone : (Run.eval 1 loop traced).1 = .error (.fault .variableGone) := rfl
  have hi := (hloops "i" one one one false body (some ⟨1, 1⟩) {}).2.1 inside hb body inside .here
  exact ⟨⟨hd, hends _ _ _ hd⟩, ⟨hb, .here, hi⟩, hgone, (hloops _ _ _ _ _ _ _ _).2.2 hgone⟩

end DecimalScript
