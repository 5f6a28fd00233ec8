import DecimalScript.Proofs.TwoRunRelations
import DecimalScript.Proofs.StandardPreservation
import Mathlib

/-! Tracing is an observer. It reads variables and shows values, and what it shows can fail
to have a text; otherwise a traced run does all that the run without tracing does,
and its output is that of the other with the lines of the trace between. -/

namespace DecimalScript

open Run

/-- A line that a program writes, not tracing. -/
def Line.isPrinted : Line → Bool
  | .printed _ => true
  | .traced _ => false

/-- The state that a run without tracing has instead. -/
def State.untraced (s : State) : State :=
  { s with tracing := false, output := s.output.filter Line.isPrinted }

namespace Run

variable {α β : Type} {s t : State} {lost : Fault → Prop}

/-! ### The values that tracing shows -/

/-- The values shown of a statement that was run. -/
def effectShown (note : Note) (value : Value) (s : State) : List Value :=
  match note, value with
  | .assigned name, _ => (s.env.get? name).toList
  | .silent, _ | .result, .none => []
  | .result, value => [value]

/-- The values shown before a pass: the head of the loop before the first, and the variable. -/
def passShown (range : Range) (progress : Progress) (s : State) : List Value :=
  (if progress.last.isNone then
    (if range.showsStep then [.decimal range.step] else []) ++
      [.decimal range.start, .decimal range.stop]
  else []) ++ (s.env.get? range.name).toList

/-- The values that tracing shows at the evaluation of a term, without the terms below it,
each with the state in which it is shown. -/
def shown (limit : Nat) (t : Term) (s : State) : List (Value × State) :=
  match t with
  | .traced note pos item =>
    after (whenTracing (announce pos)) s fun _ s => after (eval limit item) s fun value s =>
      (effectShown note value s).map (·, s)
  | .loop name start stop step showsStep body pos =>
    if s.loops.contains name then []
    else
      (loopStarts limit name start stop step showsStep body pos
        { s with loops := name :: s.loops }).flatMap fun start =>
          (passShown start.1 start.2.1 start.2.2).map (·, start.2.2)
  | _ => []

/-- Somewhere in the evaluation of the term, tracing shows a value that has no text. -/
def TraceFails (limit : Nat) (t : Term) (s : State) (f : Fault) : Prop :=
  ∃ u v, Reaches limit t s u v ∧
    ∃ value w, (value, w) ∈ shown limit u v ∧ format value w = (.error (.fault f), w)

theorem TraceFails.call {limit : Nat} {t : Term} {f : Fault} {call : Term × State}
    (hc : call ∈ calls limit t s) (h : TraceFails limit call.1 call.2 f) : TraceFails limit t s f := by
  obtain ⟨u, v, hr, hshown⟩ := h
  exact ⟨u, v, .call hc hr, hshown⟩

/-! ### Notes -/

/-- The calculation only adds lines of a trace to the output, or ends with one of the faults. -/
def Notes (lost : Fault → Prop) (x : Run α) (s : State) : Prop :=
  (∃ a lines, x s = (.ok a, { s with output := lines ++ s.output }) ∧
    ∀ line ∈ lines, line.isPrinted = false) ∨
  ∃ f t, x s = (.error (.fault f), t) ∧ lost f

theorem notes_pure (a : α) : Notes lost (pure a) s := .inl ⟨a, [], rfl, by simp⟩

theorem notes_write (text : String) : Notes lost (write (.traced text)) s :=
  .inl ⟨(), [.traced text], rfl, by simp [Line.isPrinted]⟩

theorem Notes.bind {x : Run α} {f : α → Run β} (hx : Notes lost x s)
    (hf : ∀ a lines, Notes lost (f a) { s with output := lines ++ s.output }) :
    Notes lost (x >>= f) s := by
  rcases hx with ⟨a, lines, hx, hlines⟩ | ⟨fault, t, hx, hlost⟩
  · rcases hf a lines with ⟨b, more, hb, hmore⟩ | ⟨fault, t, hb, hlost⟩
    · refine .inl ⟨b, more ++ lines, ?_, fun line hl => ?_⟩
      · rw [bind_of_ok hx, hb, List.append_assoc]
      · exact (List.mem_append.mp hl).elim (hmore line) (hlines line)
    · exact .inr ⟨fault, t, (bind_of_ok hx).trans hb, hlost⟩
  · exact .inr ⟨fault, t, bind_of_error hx, hlost⟩

/-- The value has a text, or its fault is one of the given ones. -/
def Tells (lost : Fault → Prop) (value : Value) (s : State) : Prop :=
  ∀ f, format value s = (.error (.fault f), s) → lost f

theorem Tells.notes {value : Value} (h : Tells lost value s) (lines : List Line) :
    Notes lost (format value) { s with output := lines ++ s.output } := by
  have halike := (format_steady value).alike (s := s)
    (t := { s with output := lines ++ s.output }) rfl rfl
  rcases halike with ⟨text, _, ht⟩ | ⟨f, hs, ht⟩
  · exact .inl ⟨text, [], ht, by simp⟩
  · exact .inr ⟨f, _, ht, h f hs⟩

theorem announce_notes {pos : Option Pos} (hp : pos.isSome) : Notes lost (announce pos) s := by
  obtain ⟨pos, rfl⟩ := Option.isSome_iff_exists.mp hp
  unfold announce
  dsimp only
  split
  · exact notes_pure ()
  · exact notes_write _

theorem announceVariable_notes {name : String} (hd : s.Defines name)
    (h : ∀ value ∈ s.env.get? name, Tells lost value s) (lines : List Line) :
    Notes lost (announceVariable name) { s with output := lines ++ s.output } := by
  obtain ⟨value, hv⟩ := Option.isSome_iff_exists.mp hd
  have hlookup : lookup name { s with output := lines ++ s.output } =
      (.ok value, { s with output := lines ++ s.output }) := by
    unfold lookup
    rw [bind_apply, get_apply]
    dsimp only
    rw [hv]
    rfl
  have htext := (h value hv).notes lines
  have hnotes := htext.bind (f := fun text => write (.traced ("+ " ++ name ++ " = " ++ text)))
    fun text _ => notes_write _
  unfold Notes at hnotes ⊢
  rw [announceVariable, bind_of_ok hlookup]
  exact hnotes

theorem announceEffect_notes {note : Note} {value : Value}
    (hd : ∀ name, note = .assigned name → s.Defines name)
    (h : ∀ shown ∈ effectShown note value s, Tells lost shown s) :
    Notes lost (announceEffect note value) s := by
  unfold announceEffect
  split
  · exact announceVariable_notes (hd _ rfl) (fun value hv => h value (Option.mem_toList.mpr hv)) []
  · exact notes_pure ()
  · exact notes_pure ()
  · rename_i hne
    have htells : Tells lost value s := by
      refine h value ?_
      unfold effectShown
      split <;> simp_all
    exact (htells.notes []).bind fun text _ => notes_write _

theorem announceLoop_notes {range : Range} (hp : range.pos.isSome)
    (h : ∀ value ∈ (if range.showsStep then [.decimal range.step] else []) ++
      [.decimal range.start, .decimal range.stop], Tells lost value s) :
    Notes lost (announceLoop range.name range.start range.stop range.step range.showsStep range.pos)
      s := by
  obtain ⟨pos, hpos⟩ := Option.isSome_iff_exists.mp hp
  have hstart : Tells lost (.decimal range.start) s := h _ (by simp)
  have hstop : Tells lost (.decimal range.stop) s := h _ (by simp)
  have bounds (stepText : String) (lines : List Line) : Notes lost (do
      let startText ← format (.decimal range.start)
      let stopText ← format (.decimal range.stop)
      write (.traced ("- " ++ Nat.repr pos.line ++ ": for " ++ range.name ++ " in " ++
        startText ++ " .. " ++ stopText ++ stepText))) { s with output := lines ++ s.output } := by
    refine (hstart.notes lines).bind fun startText more => ?_
    rw [← List.append_assoc]
    exact (hstop.notes (more ++ lines)).bind fun stopText _ => notes_write _
  rw [hpos]
  unfold announceLoop
  dsimp only
  cases hs : range.showsStep with
  | true =>
    have hstep : Tells lost (.decimal range.step) s := h _ (by simp [hs])
    have htext : Notes lost ((" by " ++ ·) <$> format (.decimal range.step)) s := by
      rw [← bind_pure_comp]
      exact (hstep.notes []).bind fun text _ => notes_pure _
    exact htext.bind fun stepText lines => bounds stepText lines
  | false => exact (notes_pure "").bind fun stepText lines => bounds stepText lines

theorem announcePass_notes {range : Range} {progress : Progress} (hp : range.pos.isSome)
    (hd : s.Defines range.name) (h : ∀ value ∈ passShown range progress s, Tells lost value s) :
    Notes lost (announcePass range progress) s := by
  have hvariable (lines : List Line) :
      Notes lost (announceVariable range.name) { s with output := lines ++ s.output } :=
    announceVariable_notes hd
      (fun value hv => h value (List.mem_append_right _ (Option.mem_toList.mpr hv))) lines
  unfold announcePass
  split
  · rename_i hn
    refine (announceLoop_notes hp fun value hv => h value ?_).bind fun _ lines => hvariable lines
    rw [passShown, if_pos hn]
    exact List.mem_append_left _ hv
  · exact hvariable []

/-! ### The variable of a loop at its passes -/

theorem loopNumber_defines {name : String} {x : Decimal} (h : loopNumber name s = (.ok x, t)) :
    t = s ∧ s.Defines name := by
  have hstate : t = s := by
    rcases loopNumber_reads name s with ⟨y, hy⟩ | ⟨f, _, hf⟩
    · exact (congrArg Prod.snd (h.symm.trans hy))
    · exact (congrArg Prod.snd (h.symm.trans hf))
  refine ⟨hstate, ?_⟩
  obtain ⟨value, u, hl, _⟩ := eq_ok_of_bind h
  unfold lookup at hl
  rw [bind_apply, get_apply] at hl
  dsimp only at hl
  unfold State.Defines
  cases hv : s.env.get? name with
  | some value => rfl
  | none =>
    rw [hv] at hl
    cases hl

/-- A loop begins a pass only with a variable that is there. -/
theorem passStarts_defines {range : Range} {up : Bool} {body : Run Value} {count : Nat}
    {progress : Progress} {start : Progress × State}
    (h : start ∈ passStarts range up body count progress s) : start.2.Defines range.name := by
  induction count generalizing progress s with
  | zero => cases h
  | succ count ih =>
    obtain ⟨x, u, hx, hon⟩ := mem_after.mp h
    obtain ⟨isOn, v, hv, hstart⟩ := mem_after.mp hon
    cases isOn with
    | false => cases hstart
    | true =>
      rcases List.mem_cons.mp hstart with rfl | hlater
      · obtain ⟨rfl, hd⟩ := loopNumber_defines hx
        rcases goesOn_reads admits_all range up x u with ⟨y, hy⟩ | ⟨f, _, hf⟩
        · rw [congrArg Prod.snd (hv.symm.trans hy)]
          exact hd
        · cases hv.symm.trans hf
      · obtain ⟨_, w, _, hpass⟩ := mem_after.mp hlater
        obtain ⟨⟨progress', left⟩, w, _, hnext⟩ := mem_after.mp hpass
        cases left with
        | true => cases hnext
        | false =>
          obtain ⟨_, w, _, hrest⟩ := mem_after.mp hnext
          exact ih hrest

theorem loopStarts_pass {limit : Nat} {name : String} {start stop step body : Term}
    {showsStep : Bool} {pos : Option Pos} {range : Range} {progress : Progress}
    (h : (range, progress, t) ∈ loopStarts limit name start stop step showsStep body pos s) :
    t.Defines range.name ∧ range.pos = pos := by
  obtain ⟨first, u, _, h⟩ := mem_after.mp h
  obtain ⟨last, u, _, h⟩ := mem_after.mp h
  obtain ⟨width, u, _, h⟩ := mem_after.mp h
  obtain ⟨⟨before, up⟩, u, _, h⟩ := mem_after.mp h
  obtain ⟨begun, hb, heq⟩ := List.mem_map.mp h
  cases heq
  exact ⟨passStarts_defines hb, rfl⟩

end Run

/-! ### A run with tracing beside one without -/

/-- The first run is traced, and the second is as it would be without. -/
def mirror (lost : Fault → Prop) : Accord where
  rel s t := s.tracing = true ∧ t = s.untraced
  lost := lost
  sees _ := True
  sets _ := True
  adjusts := True
  measures := by
    rintro s _ ⟨_, rfl⟩
    exact ⟨rfl, rfl⟩
  get := by
    rintro s _ name ⟨_, rfl⟩ _
    rfl
  set := by
    rintro s _ name ⟨h, rfl⟩ _ value
    exact ⟨h, rfl⟩
  erase := by
    rintro s _ name ⟨h, rfl⟩ _
    exact ⟨h, rfl⟩
  print := by
    rintro s _ ⟨h, rfl⟩ text
    exact ⟨h, rfl⟩
  places := by
    rintro s _ ⟨h, rfl⟩ _ places
    exact ⟨h, rfl⟩
  digits := by
    rintro s _ ⟨h, rfl⟩ _ digits
    exact ⟨h, rfl⟩
  loops := by
    rintro s _ ⟨h, rfl⟩ loops
    exact ⟨h, rfl⟩

section Mirror
variable {lost more : Fault → Prop} {stack : List String} {s t : State}

/-- Where tracing only adds lines, the run without it passes by. -/
theorem mirror_whenTracing {x : Run Unit} (h : Notes lost x s)
    (hr : ((mirror lost).coupling stack).rel s t) :
    ((mirror lost).coupling stack).Shares (whenTracing x) (whenTracing x) s t := by
  obtain ⟨⟨htracing, rfl⟩, hs, ht⟩ := hr
  have htraced : whenTracing x s = x s := by
    unfold whenTracing
    rw [bind_apply, get_apply]
    simp only [htracing, ↓reduceIte]
  rcases h with ⟨_, lines, hx, hlines⟩ | ⟨f, u, hx, hf⟩
  · refine .value (htraced.trans hx) rfl ⟨⟨htracing, ?_⟩, hs, ht⟩
    have hnone : lines.filter Line.isPrinted = [] := by simpa using hlines
    simp [State.untraced, hnone]
  · exact .lost (htraced.trans hx) hf

theorem mirror_mono {α : Type} {x y : Run α} (hm : ∀ f, lost f → more f)
    (h : ((mirror lost).coupling stack).Keeps x y s t) :
    ((mirror more).coupling stack).Keeps x y s t :=
  h.mono (fun _ _ hr => hr) (fun _ _ _ he => he) hm

end Mirror

theorem mirror_allows (lost : Fault → Prop) (u : Term) : (mirror lost).Allows u := by
  cases u with
  | assign | loop => exact ⟨trivial, trivial⟩
  | call => exact fun _ => trivial
  | _ => trivial

/-- The evaluation of a term with tracing, beside that without: the only fault of its own
comes from a value that tracing shows. -/
theorem eval_mirror {u : Term} (hu : u.Whole) (limit : Nat) {s t : State} {stack : List String}
    (hr : ((mirror (TraceFails limit u s)).coupling stack).rel s t) :
    ((mirror (TraceFails limit u s)).coupling stack).Keeps (eval limit u) (eval limit u) s t := by
  induction u using Term.children_induction generalizing s t stack with
  | step u ih =>
    have hcalls {stack : List String} {call : Term × State} (hc : call ∈ calls limit u s) {v : State}
        (hv : ((mirror (TraceFails limit u s)).coupling stack).rel call.2 v) :
        ((mirror (TraceFails limit u s)).coupling stack).Keeps (eval limit call.1)
          (eval limit call.1) call.2 v := by
      have hchild := mem_children_of_calls hc
      exact mirror_mono (fun f hf => hf.call hc) (ih call.1 hchild (hu.child hchild) hv)
    have htells {value : Value} {w : State} (hs : (value, w) ∈ shown limit u s) :
        Tells (TraceFails limit u s) value w :=
      fun f hf => ⟨u, s, .here, value, w, hs, hf⟩
    by_cases hp : u.isPlain
    · exact Coupling.At.eval hp ((mirror_allows _ u).coupling hp stack) (fun _ hc _ => hcalls hc) hr
    · cases u with
      | traced note pos item =>
        refine Coupling.At.traced (fun _ hc _ => hcalls hc) ?_ ?_
        · exact mirror_whenTracing (announce_notes hu.sturdy.1) hr
        · intro v value w x hv hw hx
          refine mirror_whenTracing (announceEffect_notes ?_ fun shown hs => htells ?_) hx
          · rintro name rfl
            obtain ⟨namePos, op, rhs, place, rfl⟩ := hu.sturdy.2 name rfl
            exact eval_assign_defines hw
          · refine mem_after.mpr ⟨(), v, hv, mem_after.mpr ⟨value, w, hw, ?_⟩⟩
            exact List.mem_map.mpr ⟨shown, hs, rfl⟩
      | loop name start stop step showsStep body pos =>
        refine Coupling.Enters.eval hr (fun _ => (mirror _).enters trivial trivial stack)
          (fun v _ w x hc => hcalls hc) (fun v w hc => hcalls hc) ?_
        intro hn range progress v w hstart _ hv
        obtain ⟨hd, hpos⟩ := loopStarts_pass hstart
        have hsome : range.pos.isSome := by
          rw [hpos]
          exact hu.sturdy
        refine mirror_whenTracing (announcePass_notes hsome hd fun value hs => htells ?_) hv
        have hfree : s.loops.contains name = false := by
          have hn : name ∉ stack := hn
          rw [hr.2.1]
          simpa using hn
        rw [shown, hfree]
        exact List.mem_flatMap.mpr ⟨_, hstart, List.mem_map.mpr ⟨value, hs, rfl⟩⟩
      | _ => exact absurd rfl hp

/-- Every text runs with tracing as it does without: it has the same end and leaves the same
variables, places, digits and running loops, and the output without tracing is the
output with it less the lines of the trace. The one exception is a traced run that ends
because a value that tracing shows has no text. -/
theorem tracing_only_adds_lines (limit : Nat) (text : String) (s : State) :
    (∃ tree f, Grammar.parse text = .ok tree ∧
      TraceFails limit (Term.ofTree tree)
        { s with tracing := true, source := Text.lines text, output := [] } f ∧
      (State.executeWithin limit text { s with tracing := true }).1 = .error (.exit (.fault f))) ∨
    (State.executeWithin limit text { s with tracing := false }).1 =
        (State.executeWithin limit text { s with tracing := true }).1 ∧
      (State.executeWithin limit text { s with tracing := false }).2 =
        (State.executeWithin limit text { s with tracing := true }).2.untraced := by
  cases hp : Grammar.parse text with
  | error mistake =>
    unfold State.executeWithin
    rw [hp]
    exact .inr ⟨rfl, rfl⟩
  | ok tree =>
    have hkeeps := eval_mirror (program_whole (Grammar.parse_isProgram hp)) limit
      (s := { s with tracing := true, source := Text.lines text, output := [] })
      (t := { s with tracing := false, source := Text.lines text, output := [] })
      ⟨⟨rfl, rfl⟩, rfl, rfl⟩
    rw [State.executeWithin_ok hp, State.executeWithin_ok hp]
    cases hkeeps with
    | value hx hy hr =>
      rw [hx, hy]
      exact .inr ⟨rfl, hr.1.2⟩
    | exit hx hy hr =>
      rw [hx, hy]
      exact .inr ⟨rfl, hr.1.2⟩
    | lost hx hf =>
      rw [hx]
      exact .inl ⟨tree, _, rfl, hf, rfl⟩

-- The exception: the last value is too long for a text with ten places, which only tracing asks for.
example :
    (State.executeWithin 1 "set_precision(0)\nx = 5 * 10 ** 20\nset_precision(10)\nx" {}).1 =
      .ok (.decimal (.finite false 500000000000000000000 0)) ∧
    (State.executeWithin 1 "set_precision(0)\nx = 5 * 10 ** 20\nset_precision(10)\nx"
      { tracing := true }).1 = .error (.exit (.fault (.trap .invalidOperation))) := by
  decide +kernel

end DecimalScript
