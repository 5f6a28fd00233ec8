import DecimalScript.Proofs.TwoRunRules
import Mathlib

/-! Evaluation under a coupling. Two runs that keep a coupling at the calls of a term keep
it for the term; a loop has couplings of its own for its head and its body. A term
all of whose parts are allowed is covered, and its evaluation keeps the coupling. -/

namespace DecimalScript

open Run

namespace Run

variable {α : Type} {s : State}

theorem eq_ok_of_bind {β : Type} {x : Run α} {f : α → Run β} {b : β} {v : State}
    (h : (x >>= f) s = (.ok b, v)) : ∃ a u, x s = (.ok a, u) ∧ f a u = (.ok b, v) := by
  rw [bind_apply] at h
  cases hx : x s with
  | mk r u =>
    rw [hx] at h
    cases r with
    | ok a => exact ⟨a, u, rfl, h⟩
    | error e => cases h

variable {limit : Nat}

theorem mem_callsThen {u : Term} {test : Value → Run α} {a : α} {v : State}
    {next : α → State → List (Term × State)} {call : Term × State}
    (h : (do test (← eval limit u)) s = (.ok a, v)) (hc : call ∈ next a v) :
    call ∈ callsThen limit u test s next := by
  obtain ⟨value, w, hw, hv⟩ := eq_ok_of_bind h
  exact List.mem_cons_of_mem _ (mem_after.mpr ⟨value, w, hw, mem_after.mpr ⟨a, v, hv, hc⟩⟩)

theorem mem_of_callsInTurn {items : List Term} {call : Term × State}
    (h : call ∈ callsInTurn limit items s) : call.1 ∈ items := by
  induction items generalizing s with
  | nil => cases h
  | cons item rest ih =>
    rcases List.mem_cons.mp h with rfl | h
    · exact List.mem_cons_self ..
    · obtain ⟨_, t, _, h⟩ := mem_after.mp h
      exact List.mem_cons_of_mem _ (ih h)

theorem mem_of_callsThen {u : Term} {test : Value → Run α} {items : List Term}
    {next : α → State → List (Term × State)} {call : Term × State}
    (h : call ∈ callsThen limit u test s next) (hn : ∀ a v, call ∈ next a v → call.1 ∈ items) :
    call.1 ∈ u :: items := by
  rcases List.mem_cons.mp h with rfl | h
  · exact List.mem_cons_self ..
  · obtain ⟨_, t, _, h⟩ := mem_after.mp h
    obtain ⟨a, v, _, h⟩ := mem_after.mp h
    exact List.mem_cons_of_mem _ (hn a v h)

theorem mem_of_callsOfLinks {left : Term} {operators : List String} {rest : List Term}
    {call : Term × State} (h : call ∈ callsOfLinks limit left operators rest s) :
    call.1 ∈ left :: rest := by
  induction operators generalizing left rest s with
  | nil => simp [callsOfLinks] at h
  | cons operator operators ih =>
    cases rest with
    | nil => simp [callsOfLinks] at h
    | cons right rest =>
      refine mem_of_callsThen h fun x t h => ?_
      have hright : call.1 ∈ right :: right :: rest := by
        refine mem_of_callsThen h fun y v h => ?_
        obtain ⟨holds, w, _, h⟩ := mem_after.mp h
        cases holds with
        | true => exact ih h
        | false => cases h
      simpa using hright

/-- An evaluation asks only for the terms right below its own. -/
theorem mem_children_of_calls {u : Term} {call : Term × State} (h : call ∈ calls limit u s) :
    call.1 ∈ u.children := by
  have one {w : Term} {v : State} (h : call ∈ [(w, v)]) : call.1 = w := by
    rw [List.mem_singleton.mp h]
  cases u with
  | sequence items | print items | row items | call name pos items => exact mem_of_callsInTurn h
  | traced note pos item =>
    obtain ⟨_, t, _, h⟩ := mem_after.mp h
    simp [Term.children, one h]
  | assign | numeric | unwrapped | signed | boolean | negated => simp [Term.children, one h]
  | leave target guard result pos =>
    obtain ⟨_, t, _, h⟩ := mem_after.mp h
    rcases List.mem_cons.mp h with rfl | h
    · simp [Term.children]
    · obtain ⟨value, v, _, h⟩ := mem_after.mp h
      split at h
      · simp [Term.children, one h]
      · cases h
  | skip target guard pos =>
    obtain ⟨_, t, _, h⟩ := mem_after.mp h
    simp [Term.children, one h]
  | loop name start stop step showsStep body pos =>
    dsimp only [calls] at h
    split at h
    · cases h
    · refine mem_of_callsThen h fun _ _ h => mem_of_callsThen h fun _ _ h =>
        mem_of_callsThen h fun width v h => ?_
      obtain ⟨_, w, _, h⟩ := mem_after.mp h
      obtain ⟨x, _, rfl⟩ := List.mem_map.mp h
      exact List.mem_cons_self ..
  | sum | product | power =>
    exact mem_of_callsThen h fun _ _ h => List.mem_singleton.mpr (one h)
  | conditional condition holds otherwise =>
    rcases List.mem_cons.mp h with rfl | h
    · simp [Term.children]
    · obtain ⟨value, v, _, h⟩ := mem_after.mp h
      split at h
      · simp [Term.children, one h]
      · simp [Term.children, one h]
      · cases h
  | connected connective left right =>
    refine mem_of_callsThen h fun first v h => ?_
    split at h
    · cases h
    · exact List.mem_singleton.mpr (one h)
  | comparison first operators rest => exact mem_of_callsOfLinks h
  | _ => cases h

theorem catchSignal_ok {x : Run α} {a : α} {u : State} (h : x s = (.ok a, u)) :
    catchSignal x s = (.ok (.inl a), u) := by
  unfold catchSignal
  rw [h]

theorem catchSignal_signal {x : Run α} {signal : Signal} {u : State}
    (h : x s = (.error (.signal signal), u)) : catchSignal x s = (.ok (.inr signal), u) := by
  unfold catchSignal
  rw [h]

theorem catchSignal_error {x : Run α} {e : Exit} {u : State} (h : x s = (.error e, u))
    (he : ∀ signal, e ≠ .signal signal) : catchSignal x s = (.error e, u) := by
  unfold catchSignal
  rw [h]
  cases e with
  | signal signal => exact absurd rfl (he signal)
  | fault | exhausted => rfl

/-- The loop that is found is the innermost one, or the one that is asked for. -/
theorem findLoop_aim {target : Target} {outside : Cause} {pos : Option Pos} {name : String}
    {u : State} (h : findLoop target outside pos s = (.ok name, u)) :
    s.loops.head? = some name ∨ target = .ok (some name) := by
  unfold findLoop at h
  rw [bind_apply, get_apply] at h
  cases hl : s.loops with
  | nil =>
    simp only [hl] at h
    cases pos <;> cases h
  | cons innermost outer =>
    simp only [hl] at h
    cases target with
    | error defect => cases h
    | ok wanted =>
      cases wanted with
      | none =>
        cases h
        exact .inl rfl
      | some wanted =>
        dsimp only at h
        split at h
        · cases h
          exact .inr rfl
        · cases pos <;> cases h

/-- The passes that a loop begins: what it has done so far, and the state. -/
def passStarts (range : Range) (up : Bool) (body : Run Value) :
    Nat → Progress → State → List (Progress × State)
  | 0, _, _ => []
  | count + 1, progress, s =>
    after (loopNumber range.name) s fun x s => after (goesOn range up x) s fun isOn s =>
      if isOn then
        (progress, s) :: after (whenTracing (announcePass range progress)) s fun _ s =>
          after (pass range.name body progress) s fun (progress, left) s =>
            if left then []
            else after (advance range) s fun _ s => passStarts range up body count progress s
      else []

/-- The passes that the loop of a term begins, with the numbers it runs over. -/
def loopStarts (limit : Nat) (name : String) (start stop step : Term) (showsStep : Bool)
    (body : Term) (pos : Option Pos) (s : State) : List (Range × Progress × State) :=
  after (do numeric .loopStart (← eval limit start)) s fun start s =>
    after (do numeric .loopEnd (← eval limit stop)) s fun stop s =>
      after (do numeric .loopStep (← eval limit step)) s fun step s =>
        let range : Range := { name, start, stop, step, showsStep, pos }
        after (prepare range) s fun (_, up) s =>
          (passStarts range up (eval limit body) limit {} s).map (range, ·)

end Run

/-- A term that is neither a loop nor a statement that tracing announces. -/
def Term.isPlain : Term → Bool
  | .loop .. | .traced .. => false
  | _ => true

namespace Coupling

variable {α β : Type} {C H B : Coupling} {s t : State} {name : String} {limit : Nat}

/-! ### Loops -/

/-- How the coupling of two runs changes at a loop over a variable: from the one around the
loop to that of its head, where the variable is not set yet, to that of its body, and
back. An exit of the body that is no signal to the loop leaves it. -/
structure Enters (C : Coupling) (name : String) (H B : Coupling) : Prop where
  head_stack : H.stack = name :: C.stack
  body_stack : B.stack = name :: C.stack
  head_lost : ∀ {f}, H.lost f → C.lost f
  body_lost : ∀ {f}, B.lost f → C.lost f
  head_sees : H.sees name
  body_sees : B.sees name
  body_sets : B.sets name
  enter : ∀ {s t}, C.rel s t →
    H.rel { s with loops := name :: s.loops } { t with loops := name :: t.loops }
  first : ∀ {s t}, H.rel s t → ∀ value,
    B.rel { s with env := s.env.set name value } { t with env := t.env.set name value }
  erase : ∀ {s t u v}, H.rel s t → s.env.get? name = none → B.rel u v →
    H.rel { u with env := u.env.erase name } { v with env := v.env.erase name }
  restore : ∀ {s t u v}, H.rel s t → s.Defines name → B.rel u v → ∀ value,
    H.rel { u with env := u.env.set name value } { v with env := v.env.set name value }
  back : ∀ {s t}, H.rel s t →
    C.rel { s with loops := C.stack } { t with loops := C.stack }
  head_exit : ∀ {e s t}, H.exit e s t →
    C.exit e { s with loops := C.stack } { t with loops := C.stack }
  body_exit : ∀ {e s t}, B.exit e s t →
    (∀ signal, e = .signal signal → signal.target ≠ name) →
    C.exit e { s with loops := C.stack } { t with loops := C.stack }
  caught : ∀ {signal s t}, B.exit (.signal signal) s t → signal.target = name → B.rel s t

variable (C name) in
/-- The states of two runs that an exit takes out of the loop, before it ends. -/
def Leaves (e : Exit) (s t : State) : Prop :=
  s.loops = name :: C.stack ∧ t.loops = name :: C.stack ∧
    C.exit e { s with loops := C.stack } { t with loops := C.stack }

variable (C H name) in
/-- Inside the loop the states stay related by the given coupling, and exits leave the loop. -/
def Inside (x y : Run α) (s t : State) : Prop := Coupled H.rel (C.Leaves name) C.lost x y s t

namespace Enters

variable (hE : C.Enters name H B)
include hE

theorem of_head {x y : Run α} (h : H.Keeps x y s t) : C.Inside H name x y s t := by
  refine h.mono (fun _ _ hr => hr) (fun e u v he => ?_) fun f hf => hE.head_lost hf
  obtain ⟨hu, hv⟩ := H.exit_loops he
  exact ⟨hu.trans hE.head_stack, hv.trans hE.head_stack, hE.head_exit he⟩

theorem head_fault (h : H.rel s t) (f : Fault) : C.Leaves name (.fault f) s t := by
  obtain ⟨hs, ht⟩ := H.loops h
  exact ⟨hs.trans hE.head_stack, ht.trans hE.head_stack, hE.head_exit (H.stop h (by simp))⟩

theorem body_leaves {e : Exit} (h : B.exit e s t)
    (he : ∀ signal, e = .signal signal → signal.target ≠ name) : C.Leaves name e s t := by
  obtain ⟨hs, ht⟩ := B.exit_loops h
  exact ⟨hs.trans hE.body_stack, ht.trans hE.body_stack, hE.body_exit h he⟩

theorem of_body {x y : Run α} (h : B.Shares x y s t) : C.Inside B name x y s t := by
  refine h.mono (fun _ _ hr => hr) ?_ fun f hf => hE.body_lost hf
  rintro _ u v ⟨⟨f, rfl⟩, hr⟩
  exact hE.body_leaves (B.stop hr (by simp)) (by simp)

/-- A pass passes on what its body ends with, but for the signals to the loop itself. -/
theorem pass {x y : Run Value} (h : B.Keeps x y s t) (progress : Progress) :
    C.Inside B name (pass name x progress) (pass name y progress) s t := by
  have last {u v : State} (hr : B.rel u v) :
      C.Inside B name (loopNumber name) (loopNumber name) u v :=
    hE.of_body (shares_loopNumber hr hE.body_sees)
  cases h with
  | lost hx h =>
    exact .lost (bind_of_error (catchSignal_error hx (by simp))) (hE.body_lost h)
  | value hx hy h =>
    refine Coupled.congr ?_ (bind_of_ok (catchSignal_ok hx)) (bind_of_ok (catchSignal_ok hy))
    exact (last h).bind fun _ _ _ _ hr => coupled_pure hr _
  | @exit e u v hx hy h =>
    by_cases he : ∃ signal, e = .signal signal
    · obtain ⟨signal, rfl⟩ := he
      refine Coupled.congr ?_ (bind_of_ok (catchSignal_signal hx))
        (bind_of_ok (catchSignal_signal hy))
      dsimp only
      split
      · rename_i hn
        refine (last (hE.caught h hn)).bind fun _ _ _ _ hr => ?_
        cases signal <;> exact coupled_pure hr _
      · rename_i hn
        refine coupled_throw (hE.body_leaves h ?_)
        rintro _ ⟨⟩
        exact hn
    · have hne : ∀ signal, e ≠ .signal signal := fun signal h => he ⟨signal, h⟩
      exact .exit (bind_of_error (catchSignal_error hx hne))
        (bind_of_error (catchSignal_error hy hne)) (hE.body_leaves h fun signal h => absurd h (hne signal))

end Enters

section Range
variable {range : Range} (hE : C.Enters range.name H B)
include hE

theorem Enters.advance (h : B.rel s t) :
    C.Inside B range.name (advance range) (advance range) s t := by
  apply hE.of_body
  refine (shares_loopNumber h hE.body_sees).bind fun x u v _ h => ?_
  refine (shares_steady h (rounded_steady _)).bind fun next u v _ h => ?_
  exact shares_set h hE.body_sets _

/-- Passes that begin with related states keep them related, whatever the body does. -/
theorem Enters.passes {up : Bool} {x y : Run Value} (count : Nat) (progress : Progress)
    (h : B.rel s t)
    (hbody : ∀ u ∈ passStates range up x count progress s, ∀ v, B.rel u v → B.Keeps x y u v)
    (htrace : ∀ start ∈ passStarts range up x count progress s, ∀ v, B.rel start.2 v →
      B.Shares (whenTracing (announcePass range start.1))
        (whenTracing (announcePass range start.1)) start.2 v) :
    C.Inside B range.name (passes range up x count progress) (passes range up y count progress)
      s t := by
  induction count generalizing progress s t with
  | zero => exact coupled_throw (hE.body_leaves (B.stop h (by simp)) (by simp))
  | succ count ih =>
    rw [Run.passes, Run.passes]
    have hnumber := hE.of_body (shares_loopNumber h hE.body_sees)
    refine hnumber.bind fun current s₁ t₁ h₁ r₁ => ?_
    refine (hE.of_body (shares_steady r₁ (steady_decimal _))).bind fun isOn s₂ t₂ h₂ r₂ => ?_
    cases isOn with
    | false => exact coupled_pure r₂ progress
    | true =>
      have hstart {start : Progress × State} (hm : start ∈ _) :=
        htrace start (mem_after.mpr ⟨current, s₁, h₁, mem_after.mpr ⟨true, s₂, h₂, hm⟩⟩)
      have hstate {u : State} (hm : u ∈ _) :=
        hbody u (mem_after.mpr ⟨current, s₁, h₁, mem_after.mpr ⟨true, s₂, h₂, hm⟩⟩)
      have hannounce := hE.of_body (hstart (List.mem_cons_self ..) t₂ r₂)
      refine hannounce.bind fun _ s₃ t₃ h₃ r₃ => ?_
      have hcalled := hstate (mem_after.mpr ⟨(), s₃, h₃, List.mem_cons_self ..⟩) t₃ r₃
      refine (hE.pass hcalled progress).bind ?_
      rintro ⟨progress', left⟩ s₄ t₄ h₄ r₄
      cases left with
      | true => exact coupled_pure r₄ progress'
      | false =>
        refine (hE.advance r₄).bind fun _ s₅ t₅ h₅ r₅ => ih progress' r₅ ?_ ?_
        · intro u hu
          refine hstate (mem_after.mpr ⟨(), s₃, h₃, List.mem_cons_of_mem _ ?_⟩)
          exact mem_after.mpr ⟨_, s₄, h₄, mem_after.mpr ⟨(), s₅, h₅, hu⟩⟩
        · intro start hm
          refine hstart (List.mem_cons_of_mem _ (mem_after.mpr ⟨(), s₃, h₃, ?_⟩))
          exact mem_after.mpr ⟨_, s₄, h₄, mem_after.mpr ⟨(), s₅, h₅, hm⟩⟩

theorem Enters.prepare (h : H.rel s t) :
    C.Inside B range.name (prepare range) (prepare range) s t := by
  refine (hE.of_head (shares_steady h (steady_decimal _)).keeps).bind fun isZero s t _ h => ?_
  cases isZero with
  | true => cases range.pos <;> exact coupled_throw (hE.head_fault h _)
  | false =>
    refine coupled_get ?_
    rw [H.get h hE.head_sees]
    refine (hE.of_head (shares_steady h (round_steady _)).keeps).bind fun x s t _ h => ?_
    refine Coupled.bind (R := B.rel) (.value rfl rfl (hE.first h _)) fun _ s t _ h => ?_
    refine (hE.of_body (shares_steady h (steady_decimal _))).bind fun up s t _ h => ?_
    exact coupled_pure h _

/-- The variable is set back as it was before the loop, to the same value in both runs. -/
theorem Enters.settle {u v : State} {before : Option Value} (hb : before = s.env.get? range.name)
    (h : H.rel s t) (hr : B.rel u v) (progress : Progress) :
    C.Inside H range.name (settle range.name before progress)
      (settle range.name before progress) u v := by
  cases before with
  | none => exact .value rfl rfl (hE.erase h hb.symm hr)
  | some value =>
    have hd : s.Defines range.name := by simp [State.Defines, ← hb]
    unfold Run.settle
    dsimp only
    split
    · exact .value rfl rfl (hE.restore h hd hr _)
    · exact .value rfl rfl (hE.restore h hd hr _)

variable (range) in
theorem Enters.loopOver {x y : Run Value} (h : H.rel s t)
    (hbody : ∀ before up w, Run.prepare range s = (.ok (before, up), w) →
      ∀ u ∈ passStates range up x limit {} w, ∀ v, B.rel u v → B.Keeps x y u v)
    (htrace : ∀ before up w, Run.prepare range s = (.ok (before, up), w) →
      ∀ start ∈ passStarts range up x limit {} w, ∀ v, B.rel start.2 v →
        B.Shares (whenTracing (announcePass range start.1))
          (whenTracing (announcePass range start.1)) start.2 v) :
    C.Inside H range.name (loopOver limit range x) (loopOver limit range y) s t := by
  refine (hE.prepare h).bind ?_
  rintro ⟨before, up⟩ s₁ t₁ h₁ r₁
  have hb : before = s.env.get? range.name :=
    ((prepare_tame (E := fun _ => True) admits_all (fun _ _ => trivial) fun _ => trivial).of_ok h₁).2.1
  have hpasses := hE.passes limit {} r₁ (hbody before up s₁ h₁) (htrace before up s₁ h₁)
  refine hpasses.bind fun progress s₂ t₂ _ r₂ => ?_
  refine (hE.settle hb h r₂ progress).bind fun _ s₃ t₃ _ r₃ => ?_
  exact coupled_pure r₃ _

end Range

/-- The variable of a loop is on the row of running loops while it runs, and off it then. -/
theorem Enters.insideLoop {x y : Run α} {pos : Option Pos} (h : C.rel s t)
    (hE : name ∉ C.stack → C.Enters name H B)
    (hx : name ∉ C.stack → C.Inside H name x y { s with loops := name :: s.loops }
      { t with loops := name :: t.loops }) :
    C.Keeps (insideLoop name pos x) (insideLoop name pos y) s t := by
  obtain ⟨hs, ht⟩ := C.loops h
  by_cases hn : name ∈ C.stack
  · have refused {z : Run α} {w : State} (hw : w.loops = C.stack) :
        Run.insideLoop name pos z w = blameNode (.loopVariableInUse name) pos w := by
      unfold Run.insideLoop
      rw [if_pos (by simpa [hw] using hn)]
    exact Coupled.congr (shares_steady h (steady_blameNode _ pos)).keeps (refused hs) (refused ht)
  · have entered {z : Run α} {w w' : State} {r : Except Exit α} (hw : w.loops = C.stack)
        (hz : z { w with loops := name :: w.loops } = (r, w')) :
        Run.insideLoop name pos z w = (r, endLoop name w') := by
      unfold Run.insideLoop
      rw [if_neg (by simpa [hw] using hn), hz]
    have ended {w : State} (hw : w.loops = name :: C.stack) :
        endLoop name w = { w with loops := C.stack } := by
      simp only [endLoop, hw, ↓reduceIte]
    cases hx hn with
    | lost hx hf => exact .lost (entered hs hx) hf
    | value hx hy hr =>
      obtain ⟨hu, hv⟩ := H.loops hr
      rw [(hE hn).head_stack] at hu hv
      refine .value (entered hs hx) (entered ht hy) ?_
      rw [ended hu, ended hv]
      exact (hE hn).back hr
    | exit hx hy hr =>
      obtain ⟨hu, hv, he⟩ := hr
      refine .exit (entered hs hx) (entered ht hy) ?_
      rw [ended hu, ended hv]
      exact he

/-! ### Terms -/

variable (C limit) in
/-- The coupling is kept by evaluation at these places. -/
def At (course : List (Term × State)) : Prop :=
  ∀ call ∈ course, ∀ v, C.rel call.2 v →
    C.Keeps (eval limit call.1) (eval limit call.1) call.2 v

section At
variable {u : Term} {next : α → State → List (Term × State)}

theorem At.head {rest : List (Term × State)} (h : C.At limit ((u, s) :: rest)) (hr : C.rel s t) :
    C.Keeps (eval limit u) (eval limit u) s t := h _ (List.mem_cons_self ..) t hr

theorem At.tail {call : Term × State} {rest : List (Term × State)}
    (h : C.At limit (call :: rest)) : C.At limit rest :=
  fun other hm => h other (List.mem_cons_of_mem _ hm)

theorem At.after {run : Run α} {a : α} {v : State} (h : C.At limit (Run.after run s next))
    (hr : run s = (.ok a, v)) : C.At limit (next a v) :=
  fun call hm => h call (mem_after.mpr ⟨a, v, hr, hm⟩)

/-- An operand, a test of its value and what is made of the outcome. -/
theorem At.operand {test : Value → Run α} {p q : α → Run β}
    (h : C.At limit (callsThen limit u test s next)) (hr : C.rel s t) (ht : ∀ x, Steady (test x))
    (hp : ∀ a v w, C.At limit (next a v) → C.rel v w → C.Keeps (p a) (q a) v w) :
    C.Keeps (do p (← test (← eval limit u))) (do q (← test (← eval limit u))) s t := by
  refine (h.head hr).bind fun x v w hv hr => ?_
  refine (shares_steady hr (ht x)).keeps.bind fun a y z hy hr => ?_
  exact hp a y z ((h.tail.after hv).after hy) hr

theorem At.last {test : Value → Run α} {p q : α → Run β} (h : C.At limit [(u, s)])
    (hr : C.rel s t) (ht : ∀ x, Steady (test x)) (hp : ∀ a v w, C.rel v w → C.Keeps (p a) (q a) v w) :
    C.Keeps (do p (← test (← eval limit u))) (do q (← test (← eval limit u))) s t := by
  refine (h.head hr).bind fun x v w _ hr => ?_
  exact (keeps_steady hr (ht x)).bind fun a y z _ hr => hp a y z hr

theorem At.evalAll {items : List Term} (h : C.At limit (callsInTurn limit items s))
    (hr : C.rel s t) : C.Keeps (evalAll limit items) (evalAll limit items) s t := by
  induction items generalizing s t with
  | nil => exact coupled_pure hr []
  | cons item rest ih =>
    rw [Run.evalAll]
    refine (h.head hr).bind fun value v w hv hr => ?_
    exact (ih (h.tail.after hv) hr).bind fun _ _ _ _ hr => coupled_pure hr _

theorem At.evalSequence {items : List Term} (value : Value)
    (h : C.At limit (callsInTurn limit items s)) (hr : C.rel s t) :
    C.Keeps (evalSequence limit value items) (evalSequence limit value items) s t := by
  induction items generalizing s t value with
  | nil => exact coupled_pure hr value
  | cons item rest ih =>
    rw [Run.evalSequence]
    exact (h.head hr).bind fun value v w hv hr => ih value (h.tail.after hv) hr

theorem At.evalLinks {left : Term} {operators : List String} {rest : List Term}
    (h : C.At limit (callsOfLinks limit left operators rest s)) (hr : C.rel s t) :
    C.Keeps (evalLinks limit (eval limit left) operators rest)
      (evalLinks limit (eval limit left) operators rest) s t := by
  induction operators generalizing s t left rest with
  | nil =>
    rw [Run.evalLinks.eq_2 _ _ _ _ (by simp)]
    exact coupled_pure hr true
  | cons operator operators ih =>
    cases rest with
    | nil =>
      rw [Run.evalLinks.eq_2 _ _ _ _ (by simp)]
      exact coupled_pure hr true
    | cons right rest =>
      rw [Run.evalLinks]
      refine h.operand hr (numeric_steady _) fun x v w h hr => ?_
      refine h.operand hr (numeric_steady _) fun y v w h hr => ?_
      have hcompare := (shares_steady hr (compare_steady x operator y)).keeps
      refine hcompare.bind fun holds v w hv hr => ?_
      have hrest := h.after hv
      cases holds with
      | true => exact ih hrest hr
      | false => exact coupled_pure hr false

end At

variable (C) in
/-- The term itself does nothing that the coupling does not allow. -/
def Allows : Term → Prop
  | .var name _ => C.sees name
  | .assign name _ _ _ _ => C.sees name ∧ C.sets name
  | .leave target _ _ _ | .skip target _ _ => ∀ name, target = .ok (some name) → C.aims name
  | .call name _ _ => name = "set_precision" → C.adjusts
  | _ => True

section Constructors
variable {pos : Option Pos}

theorem At.var {pos : Pos} (hr : C.rel s t) (hs : C.sees name) :
    C.Keeps (Run.eval limit (.var name pos)) (Run.eval limit (.var name pos)) s t := by
  refine coupled_get ?_
  rw [C.get hr hs]
  cases t.env.get? name with
  | some value => exact coupled_pure hr value
  | none => exact keeps_steady hr (steady_fail _)

theorem At.assign {namePos : Pos} {op : Except Defect AssignOp} {value : Term}
    (h : C.At limit (calls limit (.assign name namePos op value pos) s)) (hr : C.rel s t)
    (hg : C.sees name) (hs : C.sets name) :
    C.Keeps (Run.eval limit (.assign name namePos op value pos))
      (Run.eval limit (.assign name namePos op value pos)) s t := by
  refine (h.head hr).bind fun value v w _ hr => ?_
  cases op with
  | error defect => exact keeps_steady hr (steady_fail _)
  | ok op =>
    have hassign := (shares_assign hr hg hs namePos op value pos).keeps
    exact hassign.bind fun _ _ _ _ hr => coupled_pure hr _

/-- A jump whose loop is running in both states. -/
theorem exit_signal {target : Target} {outside : Cause} (signal : Signal) {r v w : State}
    (hr : C.rel s t) (ha : ∀ name, target = .ok (some name) → C.aims name)
    (hs : findLoop target outside pos s = (.ok signal.target, r)) (hr' : C.rel v w) :
    C.exit (.signal signal) v w := by
  apply C.jump hr'
  rw [← (C.loops hr).1]
  exact (findLoop_aim hs).imp_right (ha _)

theorem At.leave {target : Target} {guard result : Term}
    (h : C.At limit (calls limit (.leave target guard result pos) s)) (hr : C.rel s t)
    (ha : ∀ name, target = .ok (some name) → C.aims name) :
    C.Keeps (Run.eval limit (.leave target guard result pos))
      (Run.eval limit (.leave target guard result pos)) s t := by
  have hstart := hr
  refine (shares_findLoop hr target _ pos).keeps.bind fun name v w hv hr => ?_
  have hguard := h.after hv
  refine (hguard.head hr).bind fun value x y hx hr => ?_
  have hresult := hguard.tail.after hx
  split
  · rename_i hholds
    rw [if_pos hholds] at hresult
    refine (hresult.head hr).bind fun result x y _ hr => ?_
    exact coupled_throw (exit_signal (.leave name result) hstart ha hv hr)
  · exact coupled_pure hr _

theorem At.skip {target : Target} {guard : Term}
    (h : C.At limit (calls limit (.skip target guard pos) s)) (hr : C.rel s t)
    (ha : ∀ name, target = .ok (some name) → C.aims name) :
    C.Keeps (Run.eval limit (.skip target guard pos)) (Run.eval limit (.skip target guard pos))
      s t := by
  have hstart := hr
  refine (shares_findLoop hr target _ pos).keeps.bind fun name v w hv hr => ?_
  refine ((h.after hv).head hr).bind fun value x y _ hr => ?_
  split
  · exact coupled_throw (exit_signal (.skip name) hstart ha hv hr)
  · exact coupled_pure hr _

theorem At.print {items : List Term} (h : C.At limit (calls limit (.print items) s))
    (hr : C.rel s t) :
    C.Keeps (Run.eval limit (.print items)) (Run.eval limit (.print items)) s t := by
  refine (h.evalAll hr).bind fun values v w _ hr => ?_
  exact (shares_printValues hr values).keeps.bind fun _ _ _ _ hr => coupled_pure hr _

theorem At.sum {minus : Bool} {left right : Term}
    (h : C.At limit (calls limit (.sum minus left right) s)) (hr : C.rel s t) :
    C.Keeps (Run.eval limit (.sum minus left right)) (Run.eval limit (.sum minus left right))
      s t := by
  refine h.operand hr (numeric_steady _) fun x v w h hr => ?_
  refine h.last hr (numeric_steady _) fun y v w hr => ?_
  cases minus <;> exact keeps_return hr (rounded_steady _)

theorem At.product {op : ProductOp} {left right : Term}
    (h : C.At limit (calls limit (.product op left right pos) s)) (hr : C.rel s t) :
    C.Keeps (Run.eval limit (.product op left right pos))
      (Run.eval limit (.product op left right pos)) s t := by
  refine h.operand hr toDecimal_steady fun x v w h hr => ?_
  refine h.last hr (numeric_steady _) fun y v w hr => ?_
  exact keeps_return hr (multiply_steady op x y pos)

theorem At.power {base exponent : Term}
    (h : C.At limit (calls limit (.power base exponent pos) s)) (hr : C.rel s t) :
    C.Keeps (Run.eval limit (.power base exponent pos))
      (Run.eval limit (.power base exponent pos)) s t := by
  refine h.operand hr (numeric_steady _) fun x v w h hr => ?_
  refine h.last hr (numeric_steady _) fun y v w hr => ?_
  exact keeps_return hr (pow_steady x y pos)

theorem At.signed {minus : Bool} {item : Term} (h : C.At limit (calls limit (.signed minus item) s))
    (hr : C.rel s t) :
    C.Keeps (Run.eval limit (.signed minus item)) (Run.eval limit (.signed minus item)) s t := by
  refine h.last hr (numeric_steady _) fun x v w hr => ?_
  cases minus with
  | true => exact keeps_return hr (rounded_steady _)
  | false => exact coupled_pure hr _

theorem At.conditional {condition holds otherwise : Term}
    (h : C.At limit (calls limit (.conditional condition holds otherwise) s)) (hr : C.rel s t) :
    C.Keeps (Run.eval limit (.conditional condition holds otherwise))
      (Run.eval limit (.conditional condition holds otherwise)) s t := by
  refine (h.head hr).bind fun value v w hv hr => ?_
  have hbranch := h.tail.after hv
  split
  · exact hbranch.head hr
  · exact hbranch.head hr
  · exact keeps_steady hr (steady_fail _)

theorem At.connected {connective : Connective} {left right : Term}
    (h : C.At limit (calls limit (.connected connective left right) s)) (hr : C.rel s t) :
    C.Keeps (Run.eval limit (.connected connective left right))
      (Run.eval limit (.connected connective left right)) s t := by
  refine h.operand hr (truth_steady _ _) fun first v w h hr => ?_
  split
  · exact coupled_pure hr _
  · rename_i hne
    rw [if_neg hne] at h
    exact h.last hr (truth_steady _ _) fun _ _ _ hr => coupled_pure hr _

theorem At.negated {item : Term} (h : C.At limit (calls limit (.negated item) s))
    (hr : C.rel s t) :
    C.Keeps (Run.eval limit (.negated item)) (Run.eval limit (.negated item)) s t := by
  refine (h.head hr).bind fun value v w _ hr => ?_
  split
  · exact coupled_pure hr _
  · exact keeps_steady hr (steady_fail _)

end Constructors

/-- A coupling that is kept at the calls of a term is kept by the term. -/
theorem At.eval {u : Term} (hp : u.isPlain) (ho : C.Allows u) (h : C.At limit (calls limit u s))
    (hr : C.rel s t) : C.Keeps (eval limit u) (eval limit u) s t := by
  cases u with
  | constant value => exact coupled_pure hr value
  | exactNumber text => exact keeps_return hr (steady_decimal _)
  | number text =>
    refine (keeps_steady hr (steady_decimal _)).bind fun x v w _ hr => ?_
    exact keeps_return hr (round_steady x)
  | quoted literal =>
    rw [Run.eval]
    split
    · exact coupled_pure hr _
    · exact keeps_steady hr (steady_fail _)
  | var name pos => exact At.var hr ho
  | sequence items => exact h.evalSequence .none hr
  | traced | loop => cases hp
  | assign name namePos op value pos => exact h.assign hr ho.1 ho.2
  | leave target guard result pos => exact h.leave hr ho
  | skip target guard pos => exact h.skip hr ho
  | print items => exact h.print hr
  | row items => exact (h.evalAll hr).bind fun _ _ _ _ hr => coupled_pure hr _
  | numeric usage item =>
    exact h.last hr (numeric_steady usage) fun _ _ _ hr => coupled_pure hr _
  | unwrapped item => exact h.last hr toDecimal_steady fun _ _ _ hr => coupled_pure hr _
  | sum minus left right => exact h.sum hr
  | product op left right pos => exact h.product hr
  | power base exponent pos => exact h.power hr
  | signed minus item => exact h.signed hr
  | call name pos items =>
    exact (h.evalAll hr).bind fun values v w _ hr => (shares_call hr ho pos values).keeps
  | conditional condition holds otherwise => exact h.conditional hr
  | boolean connective item =>
    exact h.last hr (truth_steady _ _) fun _ _ _ hr => coupled_pure hr _
  | connected connective left right => exact h.connected hr
  | negated item => exact h.negated hr
  | comparison first operators rest =>
    exact (h.evalLinks hr).bind fun _ _ _ _ hr => coupled_pure hr _
  | unsupported name => exact keeps_steady hr (steady_fail _)
  | malformed defect => exact keeps_steady hr (steady_fail _)

/-- A statement that tracing announces, where tracing keeps the coupling. -/
theorem At.traced {note : Note} {pos : Option Pos} {item : Term}
    (h : C.At limit (calls limit (.traced note pos item) s))
    (hbefore : C.Shares (whenTracing (announce pos)) (whenTracing (announce pos)) s t)
    (hafter : ∀ u value v w, whenTracing (announce pos) s = (.ok (), u) →
      Run.eval limit item u = (.ok value, v) → C.rel v w →
      C.Shares (whenTracing (announceEffect note value)) (whenTracing (announceEffect note value))
        v w) :
    C.Keeps (Run.eval limit (.traced note pos item)) (Run.eval limit (.traced note pos item)) s t := by
  refine hbefore.keeps.bind fun _ u u' hu hr => ?_
  refine ((h.after hu).head hr).bind fun value v w hv hr => ?_
  refine (hafter u value v w hu hv hr).keeps.bind fun _ _ _ _ hr => ?_
  exact coupled_pure hr value

section Loop
variable {start stop step body : Term} {showsStep : Bool} {pos : Option Pos}

/-- A bound or the step of a loop. -/
theorem Enters.operand {u : Term} {usage : Usage} {p q : Decimal → Run Value}
    (hE : C.Enters name H B) (hu : H.Keeps (Run.eval limit u) (Run.eval limit u) s t)
    (hp : ∀ x v w, (do numeric usage (← Run.eval limit u)) s = (.ok x, v) → H.rel v w →
      C.Inside H name (p x) (q x) v w) :
    C.Inside H name (do p (← numeric usage (← Run.eval limit u)))
      (do q (← numeric usage (← Run.eval limit u))) s t := by
  refine (hE.of_head hu).bind fun value v w hv hr => ?_
  have hnumeric := hE.of_head (keeps_steady hr (numeric_steady usage value))
  refine hnumeric.bind fun x y z hy hr => ?_
  exact hp x y z ((bind_of_ok hv).trans hy) hr

/-- A loop, where tracing keeps the coupling of its body. -/
theorem Enters.eval (hr : C.rel s t) (hE : name ∉ C.stack → C.Enters name H B)
    (hhead : ∀ u ∈ [start, stop, step], ∀ v w,
      (u, v) ∈ calls limit (.loop name start stop step showsStep body pos) s → H.rel v w →
      H.Keeps (Run.eval limit u) (Run.eval limit u) v w)
    (hbody : ∀ v w, (body, v) ∈ calls limit (.loop name start stop step showsStep body pos) s →
      B.rel v w → B.Keeps (Run.eval limit body) (Run.eval limit body) v w)
    (htrace : name ∉ C.stack → ∀ range progress v w, (range, progress, v) ∈ loopStarts limit name
        start stop step showsStep body pos { s with loops := name :: s.loops } →
      range.name = name → B.rel v w → B.Shares (whenTracing (announcePass range progress))
        (whenTracing (announcePass range progress)) v w) :
    C.Keeps (Run.eval limit (.loop name start stop step showsStep body pos))
      (Run.eval limit (.loop name start stop step showsStep body pos)) s t := by
  refine Enters.insideLoop hr hE fun hn => ?_
  have hcalls : calls limit (.loop name start stop step showsStep body pos) s =
      callsOfLoop limit name start stop step showsStep body pos
        { s with loops := name :: s.loops } := by
    rw [calls, if_neg (by simpa [(C.loops hr).1] using hn)]
  rw [hcalls] at hhead hbody
  have hE := hE hn
  have hstart := hhead start (by simp) _ _ (List.mem_cons_self ..) (hE.enter hr)
  refine hE.operand hstart fun first s₁ t₁ h₁ r₁ => ?_
  have hstop := hhead stop (by simp) _ _ (mem_callsThen h₁ (List.mem_cons_self ..)) r₁
  refine hE.operand hstop fun last s₂ t₂ h₂ r₂ => ?_
  have hstep := hhead step (by simp) _ _
    (mem_callsThen h₁ (mem_callsThen h₂ (List.mem_cons_self ..))) r₂
  refine hE.operand hstep fun width s₃ t₃ h₃ r₃ => ?_
  refine Enters.loopOver ⟨name, first, last, width, showsStep, pos⟩ hE r₃ ?_ ?_
  · intro before up w hw u hu v
    refine hbody u v (mem_callsThen h₁ (mem_callsThen h₂ (mem_callsThen h₃ ?_)))
    exact mem_after.mpr ⟨_, w, hw, List.mem_map.mpr ⟨u, hu, rfl⟩⟩
  · intro before up w hw start hs v
    refine htrace hn _ start.1 start.2 v ?_ rfl
    refine mem_after.mpr ⟨first, s₁, h₁, mem_after.mpr ⟨last, s₂, h₂, ?_⟩⟩
    refine mem_after.mpr ⟨width, s₃, h₃, mem_after.mpr ⟨_, w, hw, ?_⟩⟩
    exact List.mem_map.mpr ⟨start, hs, rfl⟩

end Loop

/-! ### Covered terms -/

/-- The coupling is kept by the evaluation of the term: each term in it is allowed by the
coupling that holds there, and tracing is. -/
inductive Covers : Coupling → Term → Prop
  | plain {C : Coupling} {t : Term} (hp : t.isPlain) (ho : C.Allows t)
      (hc : ∀ u ∈ t.children, Covers C u) : Covers C t
  | traced {C : Coupling} {note : Note} {pos : Option Pos} {item : Term} (ht : C.Traces)
      (hn : ∀ name, note = .assigned name → C.sees name) (hi : Covers C item) :
      Covers C (.traced note pos item)
  | loop {C H B : Coupling} {name : String} {start stop step body : Term} {showsStep : Bool}
      {pos : Option Pos} (hE : name ∉ C.stack → C.Enters name H B) (ht : B.Traces)
      (hn : B.sees name) (hhead : ∀ u ∈ [start, stop, step], Covers H u) (hbody : Covers B body) :
      Covers C (.loop name start stop step showsStep body pos)

variable (limit) in
theorem Covers.eval {u : Term} (h : C.Covers u) (hr : C.rel s t) :
    C.Keeps (Run.eval limit u) (Run.eval limit u) s t := by
  induction h generalizing s t with
  | plain hp ho hc ih =>
    refine At.eval hp ho (fun call hm v hv => ?_) hr
    exact ih call.1 (mem_children_of_calls hm) hv
  | traced ht hn hi ih =>
    refine At.traced ?_ (ht.whenTracing hr (ht.announce hr _)) ?_
    · intro call hm v hv
      have hcall := mem_children_of_calls hm
      rw [List.mem_singleton.mp hcall]
      exact ih hv
    · intro u value v w _ _ hv
      exact ht.whenTracing hv (ht.announceEffect hv hn value)
  | loop hE ht hn hhead hbody ihh ihb =>
    refine Enters.eval hr hE (fun u hu v w _ hv => ihh u hu hv) (fun v w _ hv => ihb hv) ?_
    rintro _ range progress v w _ rfl hv
    exact ht.whenTracing hv (ht.announcePass hv hn progress)

end Coupling

end DecimalScript
