import DecimalScript.Proofs.TwoRunRules
import DecimalScript.Proofs.Precision
import Mathlib

/-! An evaluation within another. What asks for the value of a term goes on from the way in
which the evaluation of the term ends: a fault ends it too, and no output is taken back. So
every fault that an evaluation comes to is its own end, and all that was written on the way
stays in its output. -/

namespace DecimalScript

open Run

/-- The second state can follow on the first: it has all the output of the first and the same
program, and its settings differ only by calls that set the precision. -/
structure State.Before (s t : State) : Prop where
  output : s.output <:+ t.output
  source : t.source = s.source
  adjusted : s.Adjusted t

namespace State.Before

variable {s t u : State}

theorem of_eq (ho : s.output <:+ t.output) (hs : t.source = s.source) (ht : t.tracing = s.tracing)
    (hp : t.places = s.places) (hd : t.digits = s.digits) : s.Before t :=
  ⟨ho, hs, .of_eq ht hp hd⟩

theorem refl (s : State) : s.Before s := ⟨List.suffix_refl _, rfl, .refl s⟩

theorem trans (h : s.Before t) (k : t.Before u) : s.Before u :=
  ⟨h.output.trans k.output, k.source.trans h.source, h.adjusted.trans k.adjusted⟩

end State.Before

namespace Run

variable {α β : Type} {limit : Nat} {s t v : State} {u : Term}

/-! ### States follow on each other -/

/-- However the calculation ends, its state follows on the first one. -/
def Onward (run : Run α) : Prop := ∀ s : State, s.Before (run s).2

theorem Onward.of_ok {run : Run α} (h : Onward run) {a : α} (hr : run s = (.ok a, t)) :
    s.Before t := by
  have hend := h s
  rw [hr] at hend
  exact hend

theorem Onward.bind {x : Run α} {f : α → Run β} (hx : Onward x) (hf : ∀ a, Onward (f a)) :
    Onward (x >>= f) := by
  intro s
  have hfirst := hx s
  cases hr : x s with
  | mk r t =>
    rw [hr] at hfirst
    cases r with
    | ok a =>
      rw [bind_of_ok hr]
      exact hfirst.trans (hf a t)
    | error e =>
      rw [bind_of_error hr]
      exact hfirst

theorem endLoop_before (name : String) (s : State) : s.Before (endLoop name s) := by
  unfold endLoop
  split
  · split
    · exact .of_eq (List.suffix_refl _) rfl rfl rfl rfl
    · exact .refl s
  · exact .refl s

theorem insideLoop_onward {name : String} {pos : Option Pos} {run : Run α} (h : Onward run) :
    Onward (insideLoop name pos run) := by
  intro s
  unfold insideLoop
  split
  · cases pos <;> exact .refl s
  · have hinside : s.Before { s with loops := name :: s.loops } :=
      .of_eq (List.suffix_refl _) rfl rfl rfl rfl
    exact (hinside.trans (h _)).trans (endLoop_before name _)

theorem catchSignal_onward {run : Run α} (h : Onward run) : Onward (catchSignal run) := by
  intro s
  have hend := h s
  unfold catchSignal
  split
  all_goals
    rename_i hr
    rw [hr] at hend
    exact hend

def following : Law where
  Obeys := Onward
  admits _ _ := True
  pure _ s := .refl s
  bind := Onward.bind
  get s := .refl s
  exit _ s := .refl s

/-- The calculation writes nothing, and leaves the program alone. -/
def Silent (run : Run α) : Prop := ∀ s, (run s).2.output = s.output ∧ (run s).2.source = s.source

theorem Silent.bind {x : Run α} {f : α → Run β} (hx : Silent x) (hf : ∀ a, Silent (f a)) :
    Silent (x >>= f) := by
  intro s
  have hfirst := hx s
  cases hr : x s with
  | mk r t =>
    rw [hr] at hfirst
    cases r with
    | ok a =>
      rw [bind_of_ok hr]
      exact ⟨(hf a t).1.trans hfirst.1, (hf a t).2.trans hfirst.2⟩
    | error e =>
      rw [bind_of_error hr]
      exact hfirst

def silence : Law where
  Obeys := Silent
  admits _ _ := True
  pure _ _ := ⟨rfl, rfl⟩
  bind := Silent.bind
  get _ := ⟨rfl, rfl⟩
  exit _ _ := ⟨rfl, rfl⟩

theorem setPrecision_silent (pos : Pos) (items : List Value) : Silent (setPrecision pos items) := by
  let L := silence
  have hset {g : State → State} (ho : ∀ s, (g s).output = s.output)
      (hs : ∀ s, (g s).source = s.source) : Silent (modify g : Run Unit) := fun s => ⟨ho s, hs s⟩
  refine L.bind (L.oneArgument trivial items) fun item => L.bind (L.toDecimal item) fun x => ?_
  refine L.bind (L.decimal _) fun isWhole => ?_
  cases isWhole with
  | false => exact L.blameAt trivial
  | true =>
    refine L.bind (L.decimal _) fun isNegative => ?_
    cases isNegative with
    | true => exact L.blameAt trivial
    | false =>
      refine L.bind L.get fun s => L.bind (L.toInt x) fun n => ?_
      refine L.bind (hset (fun _ => rfl) fun _ => rfl) fun _ => ?_
      dsimp only
      split_ifs
      · exact L.fail (by simp)
      · exact L.fail (by simp)
      · exact L.bind (hset (fun _ => rfl) fun _ => rfl) fun _ => L.pure _

theorem setPrecision_onward (pos : Pos) (items : List Value) : Onward (setPrecision pos items) := by
  intro s
  obtain ⟨ho, hs⟩ := setPrecision_silent pos items s
  exact ⟨ho ▸ List.suffix_refl _, hs, setPrecision_adjusts pos items s⟩

/-- To come to states that follow is a law that admits all errors. -/
def onward : Regime where
  toLaw := following
  write line s := .of_eq (List.suffix_cons line s.output) rfl rfl rfl rfl
  setVariable _ _ _ := .of_eq (List.suffix_refl _) rfl rfl rfl rfl
  eraseVariable _ _ := .of_eq (List.suffix_refl _) rfl rfl rfl rfl
  setPrecision _ _ := setPrecision_onward _
  insideLoop _ := insideLoop_onward
  catchSignal := catchSignal_onward

theorem eval_onward (limit : Nat) (t : Term) : Onward (eval limit t) :=
  onward.eval limit fun _ _ _ _ _ => trivial

/-! ### Going on from the end of an evaluation -/

/-- What a calculation does after its first part. -/
def resume (f : α → Run β) : Except Exit α × State → Except Exit β × State
  | (.ok a, t) => f a t
  | (.error e, t) => (.error e, t)

theorem bind_eq_resume (x : Run α) (f : α → Run β) (s : State) : (x >>= f) s = resume f (x s) := by
  rw [bind_apply]
  rfl

/-- From the first state the calculation comes to the evaluation of the term in the second
one, and goes on from its end: with a fault it ends itself, and its states follow on. -/
def Awaits (limit : Nat) (x : Run α) (s : State) (u : Term) (v : State) : Prop :=
  ∃ rest : Except Exit Value × State → Except Exit α × State, x s = rest (eval limit u v) ∧
    (∀ f w, (rest (.error (.fault f), w)).1 = .error (.fault f)) ∧
    (∀ r (w : State), w.Before (rest (r, w)).2) ∧ s.Before v

theorem awaits_eval : Awaits limit (eval limit u) v u v :=
  ⟨id, rfl, fun _ _ => rfl, fun _ w => .refl w, .refl v⟩

theorem Awaits.bind {x : Run α} {f : α → Run β} (h : Awaits limit x s u v)
    (hf : ∀ a, Onward (f a)) : Awaits limit (x >>= f) s u v := by
  obtain ⟨rest, hx, hfault, hout, hs⟩ := h
  refine ⟨fun e => resume f (rest e), ?_, fun g w => ?_, fun r w => ?_, hs⟩
  · rw [bind_eq_resume, hx]
  · have hg := hfault g w
    dsimp only
    cases hr : rest (.error (.fault g), w) with
    | mk r t =>
      rw [hr] at hg
      cases hg
      rfl
  · refine (hout r w).trans ?_
    dsimp only
    cases rest (r, w) with
    | mk r t =>
      cases r with
      | ok a => exact hf a t
      | error e => exact .refl t

theorem Awaits.after {x : Run α} {f : α → Run β} {a : α} (hx : Onward x)
    (hr : x s = (.ok a, t)) (h : Awaits limit (f a) t u v) : Awaits limit (x >>= f) s u v := by
  obtain ⟨rest, heq, hfault, hout, ht⟩ := h
  exact ⟨rest, (bind_of_ok hr).trans heq, hfault, hout, (hx.of_ok hr).trans ht⟩

theorem Awaits.insideLoop {name : String} {pos : Option Pos} {x : Run α}
    (hn : s.loops.contains name = false)
    (h : Awaits limit x { s with loops := name :: s.loops } u v) :
    Awaits limit (Run.insideLoop name pos x) s u v := by
  obtain ⟨rest, hx, hfault, hout, hs⟩ := h
  have hinside : s.Before { s with loops := name :: s.loops } :=
    .of_eq (List.suffix_refl _) rfl rfl rfl rfl
  refine ⟨fun e => ((rest e).1, endLoop name (rest e).2), ?_, hfault, fun r w => ?_,
    hinside.trans hs⟩
  · unfold Run.insideLoop
    rw [if_neg (by rw [hn]; simp), hx]
  · exact (hout r w).trans (endLoop_before name _)

theorem Awaits.catchSignal {x : Run α} (h : Awaits limit x s u v) :
    Awaits limit (Run.catchSignal x) s u v := by
  obtain ⟨rest, hx, hfault, hout, hs⟩ := h
  refine ⟨fun e => Run.catchSignal (fun _ => rest e) s, ?_, fun f w => ?_, fun r w => ?_, hs⟩
  · unfold Run.catchSignal
    rw [hx]
  · have hg := hfault f w
    cases hr : rest (.error (.fault f), w) with
    | mk r t =>
      rw [hr] at hg
      cases hg
      simp only [Run.catchSignal, hr]
  · refine (hout r w).trans ?_
    cases hr : rest (r, w) with
    | mk r t =>
      unfold Run.catchSignal
      dsimp only
      rw [hr]
      cases r with
      | ok a => exact .refl t
      | error e => cases e <;> exact .refl t

/-- An evaluation within an evaluation within a calculation. -/
theorem Awaits.trans {x : Run α} {w : Term} {y : State} (h : Awaits limit x s u v)
    (k : Awaits limit (eval limit u) v w y) : Awaits limit x s w y := by
  obtain ⟨rest, hx, hfault, hout, hs⟩ := h
  obtain ⟨more, hu, hfault', hout', hv⟩ := k
  refine ⟨fun e => rest (more e), ?_, fun f z => ?_, fun r z => ?_, hs.trans hv⟩
  · rw [hx, hu]
  · have hg := hfault' f z
    dsimp only
    cases hr : more (.error (.fault f), z) with
    | mk r t =>
      rw [hr] at hg
      cases hg
      exact hfault f t
  · exact (hout' r z).trans (hout (more (r, z)).1 (more (r, z)).2)

/-! ### The calls of a term -/

/-- An operand, its test and what is made of it. -/
theorem awaits_callsThen {w : Term} {test : Value → Run α}
    {next : α → State → List (Term × State)} {f : α → Run β} (ht : ∀ value, Onward (test value))
    (hf : ∀ a, Onward (f a)) (h : (u, v) ∈ callsThen limit w test s next)
    (hn : ∀ a t, (u, v) ∈ next a t → Awaits limit (f a) t u v) :
    Awaits limit (do f (← test (← eval limit w))) s u v := by
  rcases List.mem_cons.mp h with heq | h
  · cases heq
    exact awaits_eval.bind fun value => (ht value).bind hf
  · obtain ⟨value, t, hw, h⟩ := mem_after.mp h
    obtain ⟨a, t, ha, h⟩ := mem_after.mp h
    exact .after (eval_onward limit w) hw (.after (ht value) ha (hn a t h))

theorem awaits_foldlM {items : List Term} (value : Value)
    (h : (u, v) ∈ callsInTurn limit items s) :
    Awaits limit (items.foldlM (fun _ item => eval limit item) value) s u v := by
  induction items generalizing s value with
  | nil => cases h
  | cons item rest ih =>
    rw [List.foldlM_cons]
    rcases List.mem_cons.mp h with heq | h
    · cases heq
      exact awaits_eval.bind fun value => onward.sequence (fun w _ => eval_onward limit w) value
    · obtain ⟨value, t, ht, h⟩ := mem_after.mp h
      exact .after (eval_onward limit item) ht (ih value h)

theorem awaits_mapM {items : List Term} (h : (u, v) ∈ callsInTurn limit items s) :
    Awaits limit (items.mapM (eval limit)) s u v := by
  induction items generalizing s with
  | nil => cases h
  | cons item rest ih =>
    rw [List.mapM_cons]
    rcases List.mem_cons.mp h with heq | h
    · cases heq
      refine awaits_eval.bind fun value => ?_
      exact onward.bind (onward.mapM fun w _ => eval_onward limit w) fun _ => onward.pure _
    · obtain ⟨value, t, ht, h⟩ := mem_after.mp h
      exact .after (eval_onward limit item) ht ((ih h).bind fun _ => onward.pure _)

theorem awaits_linksBy {left : Term} {operators : List String} {rest : List Term}
    (h : (u, v) ∈ callsOfLinks limit left operators rest s) :
    Awaits limit (linksBy (eval limit) left operators rest) s u v := by
  have honward := eval_onward limit
  induction operators generalizing s left rest with
  | nil => simp [callsOfLinks] at h
  | cons operator operators ih =>
    cases rest with
    | nil => simp [callsOfLinks] at h
    | cons right rest =>
      have hnext (x y : Decimal) : Onward (do
          if ← compare x operator y then linksBy (eval limit) right operators rest
          else return false) := by
        refine onward.bind (onward.compare x operator y) fun holds => ?_
        cases holds with
        | true => exact onward.links (honward right) fun w _ => honward w
        | false => exact onward.pure false
      refine awaits_callsThen (onward.numeric _)
        (fun x => onward.operand (honward right) (hnext x)) h fun x t h => ?_
      refine awaits_callsThen (onward.numeric _) (hnext x) h fun y t h => ?_
      obtain ⟨holds, w, hw, h⟩ := mem_after.mp h
      refine .after (onward.compare x operator y) hw ?_
      cases holds with
      | true => exact ih h
      | false => cases h

/-- A loop comes to its body wherever a pass begins. -/
theorem awaits_passes {range : Range} {up : Bool} {body : Term} {count : Nat}
    {progress : Progress} (h : v ∈ passStates range up (eval limit body) count progress s) :
    Awaits limit (passes range up (eval limit body) count progress) s body v := by
  induction count generalizing progress s with
  | zero => cases h
  | succ count ih =>
    obtain ⟨x, t, hx, h⟩ := mem_after.mp h
    obtain ⟨isOn, t, ht, h⟩ := mem_after.mp h
    rw [passes]
    refine .after (onward.loopNumber _) hx (.after (onward.decimal _) ht ?_)
    cases isOn with
    | false => cases h
    | true =>
      obtain ⟨_, w, hw, h⟩ := mem_after.mp h
      refine .after (onward.whenTracing (onward.announcePass range progress)) hw ?_
      have hbody := eval_onward limit body
      have hpass : Onward (pass range.name (eval limit body) progress) := onward.pass progress hbody
      have hrest (outcome : Progress × Bool) : Onward (do
          if outcome.2 then return outcome.1
          else
            advance range
            passes range up (eval limit body) count outcome.1) := by
        cases outcome.2 with
        | true => exact onward.pure _
        | false => exact onward.bind (onward.advance range) fun _ => onward.passes hbody count _
      rcases List.mem_cons.mp h with rfl | h
      · -- the body is the first thing that a pass does
        refine Awaits.bind (awaits_eval.catchSignal.bind fun outcome => ?_) hrest
        cases outcome with
        | inl result => exact onward.bind (onward.loopNumber _) fun _ => onward.pure _
        | inr signal =>
          dsimp only
          split
          · refine onward.bind (onward.loopNumber _) fun _ => ?_
            cases signal <;> exact onward.pure _
          · exact onward.throwSignal signal
      · obtain ⟨⟨progress', left⟩, z, hz, h⟩ := mem_after.mp h
        refine .after hpass hz ?_
        cases left with
        | true => cases h
        | false =>
          obtain ⟨_, z, hz, h⟩ := mem_after.mp h
          exact .after (onward.advance range) hz (ih h)

/-- A run that begins with the one evaluation of the course. -/
theorem awaits_single {item : Term} {g : Value → Run β} (hg : ∀ value, Onward (g value))
    (h : (u, v) ∈ [(item, t)]) : Awaits limit (eval limit item >>= g) t u v := by
  cases List.mem_singleton.mp h
  exact awaits_eval.bind hg

/-- A loop awaits its bounds, its step and each pass of its body. -/
theorem awaits_loop {name : String} {start stop step body : Term} {showsStep : Bool}
    {pos : Option Pos}
    (h : (u, v) ∈ calls limit (.loop name start stop step showsStep body pos) s) :
    Awaits limit (eval limit (.loop name start stop step showsStep body pos)) s u v := by
  have honward := eval_onward limit
  rw [← evalBy_eval, evalBy]
  dsimp only [calls] at h
  split at h
  · cases h
  · rename_i hn
    refine .insideLoop (by simpa using hn) ?_
    have hloop (first last width : Decimal) : Onward (loopOver limit
        { name, start := first, stop := last, step := width, showsStep, pos } (eval limit body)) :=
      onward.loopOver (fun _ _ => trivial) (honward body)
    refine awaits_callsThen (onward.numeric _) (fun first => onward.operand (honward stop)
      fun last => onward.operand (honward step) (hloop first last)) h fun first t h => ?_
    refine awaits_callsThen (onward.numeric _)
      (fun last => onward.operand (honward step) (hloop first last)) h fun last t h => ?_
    refine awaits_callsThen (onward.numeric _) (hloop first last) h fun width t h => ?_
    obtain ⟨⟨before, up⟩, z, hz, h⟩ := mem_after.mp h
    obtain ⟨y, hy, heq⟩ := List.mem_map.mp h
    cases heq
    refine .after (onward.prepare fun _ _ => trivial) hz ((awaits_passes hy).bind fun progress => ?_)
    exact onward.bind (onward.settle _ before progress) fun _ => onward.pure _

section Calls
variable {pos : Option Pos}

theorem awaits_traced {note : Note} {item : Term}
    (h : (u, v) ∈ calls limit (.traced note pos item) s) :
    Awaits limit (eval limit (.traced note pos item)) s u v := by
  rw [← evalBy_eval]
  obtain ⟨_, t, ht, h⟩ := mem_after.mp h
  refine .after (onward.whenTracing (onward.announce pos)) ht (awaits_single (fun value => ?_) h)
  exact onward.bind (onward.whenTracing (onward.announceEffect note value)) fun _ => onward.pure _

theorem awaits_assign {name : String} {namePos : Pos} {op : Except Defect AssignOp} {item : Term}
    (h : (u, v) ∈ calls limit (.assign name namePos op item pos) s) :
    Awaits limit (eval limit (.assign name namePos op item pos)) s u v := by
  rw [← evalBy_eval]
  refine awaits_single (fun value => ?_) h
  cases op with
  | error defect => exact onward.fail (by simp)
  | ok op =>
    have hblames (cause : Cause) (p : Pos)
        (_ : (Term.assign name namePos (.ok op) item pos).Blames cause p) : True := trivial
    exact onward.bind (onward.assign hblames value) fun _ => onward.pure _

theorem awaits_leave {target : Target} {guard result : Term}
    (h : (u, v) ∈ calls limit (.leave target guard result pos) s) :
    Awaits limit (eval limit (.leave target guard result pos)) s u v := by
  have honward := eval_onward limit
  rw [← evalBy_eval]
  obtain ⟨name, t, ht, h⟩ := mem_after.mp h
  refine .after (onward.findLoop (fun _ _ => trivial) fun _ _ _ _ => trivial) ht ?_
  rcases List.mem_cons.mp h with heq | h
  · cases heq
    refine awaits_eval.bind fun value => ?_
    split
    · exact onward.bind (honward result) fun _ => onward.throwSignal _
    · exact onward.pure _
  · obtain ⟨value, z, hz, h⟩ := mem_after.mp h
    refine .after (honward guard) hz ?_
    split at h
    · rename_i hv
      rw [if_pos hv]
      exact awaits_single (fun _ => onward.throwSignal _) h
    · cases h

theorem awaits_skip {target : Target} {guard : Term}
    (h : (u, v) ∈ calls limit (.skip target guard pos) s) :
    Awaits limit (eval limit (.skip target guard pos)) s u v := by
  rw [← evalBy_eval]
  obtain ⟨name, t, ht, h⟩ := mem_after.mp h
  refine .after (onward.findLoop (fun _ _ => trivial) fun _ _ _ _ => trivial) ht ?_
  refine awaits_single (fun value => ?_) h
  split
  · exact onward.throwSignal _
  · exact onward.pure _

/-- An operation on two operands, of which the first is tested before the second is evaluated. -/
theorem awaits_operands {left right : Term} {test : Value → Run Decimal} {usage : Usage}
    {g : Decimal → Decimal → Run Value} (ht : ∀ value, Onward (test value))
    (hg : ∀ x y, Onward (g x y))
    (h : (u, v) ∈ callsThen limit left test s fun _ t => [(right, t)]) :
    Awaits limit (do
      let x ← test (← eval limit left)
      let y ← numeric usage (← eval limit right)
      g x y) s u v := by
  refine awaits_callsThen ht (fun x => onward.operand (eval_onward limit right) (hg x)) h
    fun x t h => ?_
  exact awaits_single (fun value => onward.bind (onward.numeric _ value) (hg x)) h

theorem awaits_sum {minus : Bool} {left right : Term}
    (h : (u, v) ∈ calls limit (.sum minus left right) s) :
    Awaits limit (eval limit (.sum minus left right)) s u v := by
  rw [← evalBy_eval]
  refine awaits_operands (onward.numeric _) (fun x y => ?_) h
  cases minus <;> exact onward.bind (onward.rounded _) fun _ => onward.pure _

theorem awaits_product {op : ProductOp} {left right : Term}
    (h : (u, v) ∈ calls limit (.product op left right pos) s) :
    Awaits limit (eval limit (.product op left right pos)) s u v := by
  rw [← evalBy_eval]
  refine awaits_operands onward.toDecimal (fun x y => onward.bind ?_ fun _ => onward.pure _) h
  cases op with
  | mul => exact onward.rounded _
  | div => exact onward.div (fun _ _ => trivial) x y
  | mod => exact onward.mod (fun _ _ => trivial) x y

theorem awaits_power {base exponent : Term}
    (h : (u, v) ∈ calls limit (.power base exponent pos) s) :
    Awaits limit (eval limit (.power base exponent pos)) s u v := by
  rw [← evalBy_eval]
  refine awaits_operands (onward.numeric _) (fun x y => ?_) h
  exact onward.bind (onward.pow (fun _ _ => trivial) x y) fun _ => onward.pure _

theorem awaits_signed {minus : Bool} {item : Term}
    (h : (u, v) ∈ calls limit (.signed minus item) s) :
    Awaits limit (eval limit (.signed minus item)) s u v := by
  rw [← evalBy_eval]
  refine awaits_single (fun value => onward.bind (onward.numeric _ value) fun x => ?_) h
  cases minus with
  | true => exact onward.bind (onward.rounded _) fun _ => onward.pure _
  | false => exact onward.pure _

theorem awaits_conditional {condition holds otherwise : Term}
    (h : (u, v) ∈ calls limit (.conditional condition holds otherwise) s) :
    Awaits limit (eval limit (.conditional condition holds otherwise)) s u v := by
  have honward := eval_onward limit
  rw [← evalBy_eval]
  rcases List.mem_cons.mp h with heq | h
  · cases heq
    refine awaits_eval.bind fun value => ?_
    split
    · exact honward holds
    · exact honward otherwise
    · exact onward.blame _
  · obtain ⟨value, t, ht, h⟩ := mem_after.mp h
    refine .after (honward condition) ht ?_
    split at h
    · cases List.mem_singleton.mp h
      exact awaits_eval
    · cases List.mem_singleton.mp h
      exact awaits_eval
    · cases h

theorem awaits_connected {connective : Connective} {left right : Term}
    (h : (u, v) ∈ calls limit (.connected connective left right) s) :
    Awaits limit (eval limit (.connected connective left right)) s u v := by
  rw [← evalBy_eval]
  have hend (value : Value) : Onward (do return Value.bool (← truth .right connective value)) :=
    onward.bind (onward.truth _ _ value) fun _ => onward.pure _
  refine awaits_callsThen (onward.truth _ _) (fun first => ?_) h fun first t h => ?_
  · split
    · exact onward.pure _
    · exact onward.bind (eval_onward limit right) hend
  · split at h
    · cases h
    · rename_i hne
      rw [if_neg hne]
      exact awaits_single hend h

theorem awaits_negated {item : Term} (h : (u, v) ∈ calls limit (.negated item) s) :
    Awaits limit (eval limit (.negated item)) s u v := by
  rw [← evalBy_eval]
  refine awaits_single (fun value => ?_) h
  split
  · exact onward.pure _
  · exact onward.blame _

end Calls

/-- A term awaits the evaluations that it calls. -/
theorem awaits_calls {w : Term} (h : (u, v) ∈ calls limit w s) :
    Awaits limit (eval limit w) s u v := by
  cases w with
  | traced note pos item => exact awaits_traced h
  | assign name namePos op item pos => exact awaits_assign h
  | leave target guard result pos => exact awaits_leave h
  | skip target guard pos => exact awaits_skip h
  | loop name start stop step showsStep body pos => exact awaits_loop h
  | sum minus left right => exact awaits_sum h
  | product op left right pos => exact awaits_product h
  | power base exponent pos => exact awaits_power h
  | signed minus item => exact awaits_signed h
  | conditional condition holds otherwise => exact awaits_conditional h
  | connected connective left right => exact awaits_connected h
  | negated item => exact awaits_negated h
  | sequence items =>
    rw [← evalBy_eval]
    exact awaits_foldlM _ h
  | print items =>
    rw [← evalBy_eval]
    refine (awaits_mapM h).bind fun values => ?_
    exact onward.bind (onward.printValues values) fun _ => onward.pure _
  | row items =>
    rw [← evalBy_eval]
    exact (awaits_mapM h).bind fun _ => onward.pure _
  | call name pos items =>
    rw [← evalBy_eval]
    exact (awaits_mapM h).bind fun values => onward.call (fun _ _ => trivial) values
  | numeric usage item =>
    rw [← evalBy_eval]
    exact awaits_single (fun value => onward.bind (onward.numeric _ value) fun _ => onward.pure _) h
  | unwrapped item =>
    rw [← evalBy_eval]
    exact awaits_single (fun value => onward.bind (onward.toDecimal value) fun _ => onward.pure _) h
  | boolean connective item =>
    rw [← evalBy_eval]
    exact awaits_single (fun value => onward.bind (onward.truth _ _ value) fun _ => onward.pure _) h
  | comparison first operators rest =>
    rw [← evalBy_eval]
    exact (awaits_linksBy h).bind fun _ => onward.pure _
  | _ => cases h

/-! ### All that an evaluation comes to -/

theorem Reaches.extend {w y : Term} {x : State} (h : Reaches limit w s u v)
    (hc : (y, x) ∈ calls limit u v) : Reaches limit w s y x := by
  induction h with
  | here => exact .call hc .here
  | call hfirst _ ih => exact .call hfirst (ih hc)

theorem Reaches.awaits {w : Term} (h : Reaches limit w s u v) : Awaits limit (eval limit w) s u v := by
  induction h with
  | here => exact awaits_eval
  | call hc _ ih => exact (awaits_calls hc).trans ih

/-- A fault that an evaluation comes to is its end. -/
theorem Reaches.fault {w : Term} {f : Fault} (h : Reaches limit w s u v)
    (hf : (eval limit u v).1 = .error (.fault f)) : (eval limit w s).1 = .error (.fault f) := by
  obtain ⟨rest, hw, hfault, _, _⟩ := h.awaits
  rw [hw]
  cases hr : eval limit u v with
  | mk r t =>
    rw [hr] at hf
    cases hf
    exact hfault f t

/-- The states that an evaluation comes to follow on the first, and its end on them. -/
theorem Reaches.before {w : Term} (h : Reaches limit w s u v) :
    s.Before v ∧ v.Before (eval limit w s).2 := by
  obtain ⟨rest, hw, _, hout, hs⟩ := h.awaits
  refine ⟨hs, (eval_onward limit u v).trans ?_⟩
  rw [hw]
  exact hout _ _

end Run

end DecimalScript
