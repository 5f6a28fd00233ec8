import DecimalScript.Proofs.Exits
import DecimalScript.Session
import Mathlib

/-! The course of an evaluation: the terms that it comes to, each with the state
in which it does. The running loops change only where a loop begins or ends, so
these states show every row of running loops that an evaluation ever has. -/

namespace DecimalScript.Run

variable {α β : Type} {s t : State}

/-- What follows a calculation that ends with a value. -/
def after (run : Run α) (s : State) (next : α → State → List β) : List β :=
  match run s with
  | (.ok a, t) => next a t
  | (.error _, _) => []

theorem mem_after {run : Run α} {next : α → State → List β} {b : β} :
    b ∈ after run s next ↔ ∃ a t, run s = (.ok a, t) ∧ b ∈ next a t := by
  unfold after
  constructor
  · intro h
    cases hr : run s with
    | mk r t =>
      rw [hr] at h
      cases r with
      | ok a => exact ⟨a, t, rfl, h⟩
      | error e => cases h
  · rintro ⟨a, t, hr, h⟩
    rw [hr]
    exact h

/-- The states in which a loop begins its passes through the body. -/
def passStates (range : Range) (up : Bool) (body : Run Value) :
    Nat → Progress → State → List State
  | 0, _, _ => []
  | count + 1, progress, s =>
    after (loopNumber range.name) s fun x s => after (goesOn range up x) s fun isOn s =>
      if isOn then
        after (whenTracing (announcePass range progress)) s fun _ s =>
          s :: after (pass range.name body progress) s fun (progress, left) s =>
            if left then []
            else after (advance range) s fun _ s => passStates range up body count progress s
      else []

def callsInTurn (limit : Nat) : List Term → State → List (Term × State)
  | [], _ => []
  | item :: rest, s => (item, s) :: after (eval limit item) s fun _ s => callsInTurn limit rest s

/-- A term, and what follows once a test of its value has passed. -/
def callsThen (limit : Nat) (t : Term) (test : Value → Run α) (s : State)
    (next : α → State → List (Term × State)) : List (Term × State) :=
  (t, s) :: after (eval limit t) s fun value s => after (test value) s next

/-- The operands of a chain of comparisons; those in the middle are evaluated twice. -/
def callsOfLinks (limit : Nat) (left : Term) :
    List String → List Term → State → List (Term × State)
  | operator :: operators, right :: rest, s =>
    callsThen limit left (numeric .operation) s fun x s =>
      callsThen limit right (numeric .operation) s fun y s =>
        after (compare x operator y) s fun holds s =>
          if holds then callsOfLinks limit right operators rest s else []
  | _, _, _ => []

/-- The bounds and the step of a loop, and its body once for each pass. -/
def callsOfLoop (limit : Nat) (name : String) (start stop step : Term) (showsStep : Bool)
    (body : Term) (pos : Option Pos) (s : State) : List (Term × State) :=
  callsThen limit start (numeric .loopStart) s fun start s =>
    callsThen limit stop (numeric .loopEnd) s fun stop s =>
      callsThen limit step (numeric .loopStep) s fun step s =>
        let range : Range := { name, start, stop, step, showsStep, pos }
        after (prepare range) s fun (_, up) s =>
          (passStates range up (eval limit body) limit {} s).map (body, ·)

/-- The evaluations that the evaluation of a term itself asks for. -/
def calls (limit : Nat) (t : Term) (s : State) : List (Term × State) :=
  match t with
  | .sequence items | .print items | .row items | .call _ _ items => callsInTurn limit items s
  | .traced _ pos item => after (whenTracing (announce pos)) s fun _ s => [(item, s)]
  | .assign _ _ _ item _ | .numeric _ item | .unwrapped item | .signed _ item
  | .boolean _ item | .negated item => [(item, s)]
  | .leave target guard result pos =>
    after (findLoop target .breakOutsideLoop pos) s fun _ s =>
      (guard, s) :: after (eval limit guard) s fun value s =>
        if value.holds then [(result, s)] else []
  | .skip target guard pos =>
    after (findLoop target .nextOutsideLoop pos) s fun _ s => [(guard, s)]
  | .loop name start stop step showsStep body pos =>
    if s.loops.contains name then []
    else
      callsOfLoop limit name start stop step showsStep body pos
        { s with loops := name :: s.loops }
  | .sum _ left right => callsThen limit left (numeric .sum) s fun _ s => [(right, s)]
  | .product _ left right _ => callsThen limit left toDecimal s fun _ s => [(right, s)]
  | .power base exponent _ =>
    callsThen limit base (numeric .powerBase) s fun _ s => [(exponent, s)]
  | .conditional condition holds otherwise =>
    (condition, s) :: after (eval limit condition) s fun value s =>
      match value with
      | .bool true => [(holds, s)]
      | .bool false => [(otherwise, s)]
      | _ => []
  | .connected connective left right =>
    callsThen limit left (truth .left connective) s fun first s =>
      if first = (connective = .or) then [] else [(right, s)]
  | .comparison first operators rest => callsOfLinks limit first operators rest s
  | _ => []

/-- The evaluation of the first term in the first state comes to that of the second
in the second. -/
inductive Reaches (limit : Nat) : Term → State → Term → State → Prop
  | here {t : Term} {s : State} : Reaches limit t s t s
  | call {t u w : Term} {s v x : State} (h : (u, v) ∈ calls limit t s)
      (hr : Reaches limit u v w x) : Reaches limit t s w x

/-! ### What is kept on the way -/

/-- All the states have the running loops and the definitions of the given one. -/
def Kept (s : State) (course : List (Term × State)) : Prop := ∀ call ∈ course, Frame s call.2

theorem kept_nil : Kept s [] := by simp [Kept]

theorem Kept.cons {u : Term} {course : List (Term × State)} (h : Kept s course) :
    Kept s ((u, s) :: course) := by
  intro call hc
  rcases List.mem_cons.mp hc with rfl | hc
  · exact Frame.refl s
  · exact h call hc

theorem kept_after {E : Exit → Prop} {run : Run α} {next : α → State → List (Term × State)}
    (h : Tame E run s) (hn : ∀ a t, Kept t (next a t)) : Kept s (after run s next) := by
  intro call hc
  obtain ⟨a, t, hr, hc⟩ := mem_after.mp hc
  exact (h.of_ok hr).trans (hn a t call hc)

/-- An evaluation keeps loops and definitions, with any exit. -/
theorem eval_frame (limit : Nat) (t : Term) (s : State) :
    Tame (fun _ => True) (eval limit t) s :=
  (eval_tame limit t s).mono fun _ _ => trivial

theorem Reads.frame {F : Fault → Prop} {run : Run α} (h : Reads F run) :
    Tame (fun _ => True) run s := h.tame fun _ _ => trivial

theorem callsThen_kept {F : Fault → Prop} {limit : Nat} {t : Term} {test : Value → Run α}
    {next : α → State → List (Term × State)} (ht : ∀ v, Reads F (test v))
    (hn : ∀ a u, Kept u (next a u)) : Kept s (callsThen limit t test s next) := by
  refine (kept_after (eval_frame limit t s) fun value u => ?_).cons
  exact kept_after (ht value).frame hn

theorem callsInTurn_kept (limit : Nat) (items : List Term) (s : State) :
    Kept s (callsInTurn limit items s) := by
  induction items generalizing s with
  | nil => exact kept_nil
  | cons item rest ih => exact (kept_after (eval_frame limit item s) fun _ t => ih t).cons

theorem callsOfLinks_kept (limit : Nat) (left : Term) (operators : List String)
    (rest : List Term) (s : State) : Kept s (callsOfLinks limit left operators rest s) := by
  induction operators generalizing left rest s with
  | nil => simp [callsOfLinks, kept_nil]
  | cons operator operators ih =>
    cases rest with
    | nil => simp [callsOfLinks, kept_nil]
    | cons right rest =>
      refine callsThen_kept (numeric_reads admits_all _) fun x t => ?_
      refine callsThen_kept (numeric_reads admits_all _) fun y u => ?_
      refine kept_after (compare_reads admits_all x y fun _ => trivial).frame fun holds v => ?_
      cases holds with
      | true => exact ih right rest v
      | false => exact kept_nil

/-- Each pass through the body begins with the loops and definitions that the loop began with. -/
theorem passStates_frame {range : Range} {up : Bool} {body : Run Value}
    (hbody : ∀ t, Tame (fun _ => True) body t) (count : Nat) (progress : Progress) (s : State)
    (hd : s.Defines range.name) : ∀ v ∈ passStates range up body count progress s, Frame s v := by
  induction count generalizing progress s with
  | zero => simp [passStates]
  | succ count ih =>
    intro v hv
    obtain ⟨x, r, hr, hv⟩ := mem_after.mp hv
    have hnumber := loopNumber_tame (E := fun _ => True) admits_all (fun _ _ => trivial) hd
    obtain ⟨isOn, t, ht, hv⟩ := mem_after.mp hv
    have hgo := (goesOn_reads admits_all range up x).frame.of_ok ht
    have hst : Frame s t := (hnumber.of_ok hr).trans hgo
    cases isOn with
    | false => cases hv
    | true =>
      obtain ⟨_, u, hu, hv⟩ := mem_after.mp hv
      have hannounce := announcePass_tame (E := fun _ => True) admits_all (fun _ _ => trivial)
        progress (hst.defines _ hd) fun _ => trivial
      have hsu : Frame s u := hst.trans ((whenTracing_tame hannounce).of_ok hu)
      rcases List.mem_cons.mp hv with rfl | hv
      · exact hsu
      · obtain ⟨⟨progress', left⟩, w, hw, hv⟩ := mem_after.mp hv
        have hpass := pass_tame (E := fun _ => True) admits_all (fun _ _ => trivial)
          (fun _ _ _ => trivial) progress (hsu.defines _ hd) (hbody u)
        have hsw : Frame s w := hsu.trans (hpass.of_ok hw)
        cases left with
        | true => cases hv
        | false =>
          obtain ⟨_, x, hx, hv⟩ := mem_after.mp hv
          have hadvance := advance_tame (E := fun _ => True) admits_all (fun _ _ => trivial)
            (hsw.defines _ hd)
          have hsx : Frame s x := hsw.trans (hadvance.of_ok hx)
          exact hsx.trans (ih progress' x (hsx.defines _ hd) v hv)

theorem callsOfLoop_kept (limit : Nat) (name : String) (start stop step : Term) (showsStep : Bool)
    (body : Term) (pos : Option Pos) (s : State) :
    Kept s (callsOfLoop limit name start stop step showsStep body pos s) := by
  refine callsThen_kept (numeric_reads admits_all _) fun first t => ?_
  refine callsThen_kept (numeric_reads admits_all _) fun last u => ?_
  refine callsThen_kept (numeric_reads admits_all _) fun width v => ?_
  intro call hc
  obtain ⟨⟨before, up⟩, w, hw, hc⟩ := mem_after.mp hc
  obtain ⟨x, hx, rfl⟩ := List.mem_map.mp hc
  obtain ⟨hvw, _, hd⟩ := (prepare_tame (E := fun _ => True) admits_all (fun _ _ => trivial)
    fun _ => trivial).of_ok hw
  exact hvw.trans (passStates_frame (eval_frame limit body) limit {} w hd x hx)

/-- Below a term that is no loop the running loops are the same. -/
theorem calls_kept (limit : Nat) {t : Term} (hl : t.isLoop = false) (s : State) :
    Kept s (calls limit t s) := by
  have one (u : Term) (v : State) : Kept v [(u, v)] := kept_nil.cons
  have hfind {target : Target} {outside : Cause} {pos : Option Pos}
      (ho : ∀ p, (Fault.script outside (some p)).ordinary) :
      Reads (fun _ => True) (findLoop target outside pos) :=
    findLoop_reads admits_all target outside pos ho (fun _ => trivial) fun _ _ => trivial
  cases t with
  | sequence items | print items | row items | call name pos items =>
    exact callsInTurn_kept limit items s
  | traced note pos item =>
    have hannounce : Tame (fun _ => True) (announce pos) s :=
      announce_tame (F := fun _ => True) (fun _ _ => trivial) fun _ => trivial
    exact kept_after (whenTracing_tame hannounce) fun _ t => one item t
  | assign | numeric | unwrapped | signed | boolean | negated => exact one _ s
  | leave target guard result pos =>
    refine kept_after (hfind fun _ => rfl).frame fun _ t => ?_
    refine (kept_after (eval_frame limit guard t) fun value u => ?_).cons
    split
    · exact one result u
    · exact kept_nil
  | skip target guard pos => exact kept_after (hfind fun _ => rfl).frame fun _ t => one guard t
  | loop => cases hl
  | sum minus left right =>
    exact callsThen_kept (numeric_reads admits_all _) fun _ t => one right t
  | product op left right pos =>
    exact callsThen_kept (toDecimal_reads admits_all) fun _ t => one right t
  | power base exponent pos =>
    exact callsThen_kept (numeric_reads admits_all _) fun _ t => one exponent t
  | conditional condition holds otherwise =>
    refine (kept_after (eval_frame limit condition s) fun value t => ?_).cons
    split
    · exact one holds t
    · exact one otherwise t
    · exact kept_nil
  | connected connective left right =>
    refine callsThen_kept (truth_reads admits_all _ _) fun first t => ?_
    split
    · exact kept_nil
    · exact one right t
  | comparison first operators rest => exact callsOfLinks_kept limit first operators rest s
  | _ => exact kept_nil

/-- Below a loop its variable comes first among the running loops, where it was not before. -/
theorem calls_loop {limit : Nat} {name : String} {start stop step : Term} {showsStep : Bool}
    {body : Term} {pos : Option Pos} {u : Term} {v : State}
    (h : (u, v) ∈ calls limit (.loop name start stop step showsStep body pos) s) :
    name ∉ s.loops ∧ v.loops = name :: s.loops := by
  dsimp only [calls] at h
  split at h
  · cases h
  · rename_i hn
    exact ⟨by simpa using hn, (callsOfLoop_kept _ _ _ _ _ _ _ _ _ _ h).loops⟩

end DecimalScript.Run

/-! ### Sessions -/

/-- The states that a session comes to. Each of its steps has some limit for the
passes of its loops and may depend on the state it is taken in. -/
inductive DecimalScript.State.Visits (allowed : Nat → State → Step → Prop) (start : State) :
    State → Prop
  | start : Visits allowed start start
  | step {s : State} {limit : Nat} {step : Step} (h : Visits allowed start s)
      (ha : allowed limit s step) : Visits allowed start (step.takeWithin limit s).2
