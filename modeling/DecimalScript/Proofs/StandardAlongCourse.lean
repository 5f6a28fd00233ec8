import DecimalScript.Proofs.Environment
import DecimalScript.Proofs.Tracing
import Mathlib

/-! A standard along the course of an evaluation. What keeps a standard from its first state to
its last keeps it at every evaluation on the way, and the values that tracing shows
there fit it. -/

namespace DecimalScript

/-- A term of a program: it is regular, or the text of an argument of `print`, or the step of a
loop that has none. -/
def Term.Ordinary (t : Term) : Prop :=
  t.Regular ∨ (∃ literal, t = .quoted literal) ∨ t = .constant (.decimal .one)

theorem Term.Regular.child {t u : Term} (h : t.Regular) (hu : u ∈ t.children) : u.Ordinary := by
  cases h with
  | truth | number | var => cases hu
  | print h =>
    by_cases hq : ∃ literal, u = .quoted literal
    · exact .inr (.inl hq)
    · exact .inl (h u hu fun literal heq => hq ⟨literal, heq⟩)
  | sequence h | call h => exact .inl (h u hu)
  | traced _ h | assign _ h | skip h | numeric h | unwrapped h | signed h | boolean h | negated h =>
    cases List.mem_singleton.mp hu
    exact .inl h
  | leave hl hr | sum hl hr | product hl hr | power hl hr | connected hl hr =>
    simp only [Term.children, List.mem_cons, List.not_mem_nil, or_false] at hu
    rcases hu with rfl | rfl
    · exact .inl hl
    · exact .inl hr
  | conditional hc hh ho =>
    simp only [Term.children, List.mem_cons, List.not_mem_nil, or_false] at hu
    rcases hu with rfl | rfl | rfl
    · exact .inl hc
    · exact .inl hh
    · exact .inl ho
  | loop hs ht hb =>
    simp only [Term.children, List.mem_cons, List.not_mem_nil, or_false] at hu
    rcases hu with rfl | rfl | rfl | rfl
    · exact .inl hs
    · exact .inl ht
    · exact .inr (.inr rfl)
    · exact .inl hb
  | loopBy hs ht hw hb =>
    simp only [Term.children, List.mem_cons, List.not_mem_nil, or_false] at hu
    rcases hu with rfl | rfl | rfl | rfl
    · exact .inl hs
    · exact .inl ht
    · exact .inl hw
    · exact .inl hb
  | comparison hf _ hr =>
    rcases List.mem_cons.mp hu with rfl | hu
    · exact .inl hf
    · exact .inl (hr u hu)

theorem Standard.Good.inside {S : Standard} {s : State} (h : S.Good s) (name : String) :
    S.Good { s with loops := name :: s.loops } := ⟨h.fixed, h.held⟩

namespace Run

variable {α : Type} {S : Standard} {limit : Nat} {s t : State} {F : Fault → Prop}

/-- A value that the term can have: a regular term has one that fits, a constant only itself. -/
def Suits (S : Standard) (u : Term) (value : Value) : Prop :=
  (u.Regular → S.Fits value) ∧ ∀ v, u = .constant v → value = v

theorem Suits.number {u : Term} {value : Value} {usage : Usage} (h : Suits S u value)
    (hu : u.Regular) : Yields (numeric usage value) s S.Meets := numeric_yields (h.1 hu)

/-- The evaluation of an ordinary term keeps every standard. -/
theorem ordinary_sound {u : Term} (hu : u.Ordinary) (hs : S.Good s) (ha : S.Allows limit u s) :
    Sound S (eval limit u) s (Suits S u) := by
  rcases hu with hu | ⟨literal, rfl⟩ | rfl
  · refine Ensures.mono (eval_sound hu hs ha) (fun value t hr hv => ⟨hv.1, fun _ => hv.2, ?_⟩)
      fun _ _ he => he
    rintro v rfl
    cases hr
    rfl
  · rw [eval]
    split
    · exact sound_pure hs ⟨fun hu => (by cases hu), by simp⟩
    · exact sound_fail hs
  · refine sound_pure hs ⟨fun hu => (by cases hu), ?_⟩
    rintro v ⟨⟩
    rfl

/-! ### The calls of a term -/

/-- All evaluations of the course are from good states. -/
def Upheld (S : Standard) (course : List (Term × State)) : Prop := ∀ call ∈ course, S.Good call.2

/-- From good states, the evaluations of the course keep the standard. -/
def Trusted (S : Standard) (limit : Nat) (course : List (Term × State)) : Prop :=
  ∀ call ∈ course, S.Good call.2 → Sound S (eval limit call.1) call.2 (Suits S call.1)

theorem upheld_nil : Upheld S [] := by simp [Upheld]

theorem Upheld.cons {u : Term} {course : List (Term × State)} (hs : S.Good s)
    (h : Upheld S course) : Upheld S ((u, s) :: course) := by
  intro call hc
  rcases List.mem_cons.mp hc with rfl | hc
  · exact hs
  · exact h call hc

theorem Trusted.tail {call : Term × State} {course : List (Term × State)}
    (h : Trusted S limit (call :: course)) : Trusted S limit course :=
  fun other hc => h other (List.mem_cons_of_mem _ hc)

/-- What comes after a calculation that keeps the standard. -/
theorem upheld_after {run : Run α} {P : α → Prop} {next : α → State → List (Term × State)}
    (h : Sound S run s P) (hc : Trusted S limit (after run s next))
    (hn : ∀ a t, S.Good t → P a → Trusted S limit (next a t) → Upheld S (next a t)) :
    Upheld S (after run s next) := by
  intro call hm
  obtain ⟨a, t, hr, hm⟩ := mem_after.mp hm
  obtain ⟨ht, ha⟩ := h.of_ok hr
  refine hn a t ht ha (fun other ho => hc other (mem_after.mpr ⟨a, t, hr, ho⟩)) call hm

/-- An operand that passes its test, and what follows. -/
theorem Trusted.next {u : Term} {test : Value → Run α} {P : α → Prop}
    {next : α → State → List (Term × State)} {a : α} (hs : S.Good s)
    (hc : Trusted S limit (callsThen limit u test s next)) (hr : ∀ value, Reads F (test value))
    (ht : ∀ value t, S.Good t → Suits S u value → Yields (test value) t P)
    (h : (do test (← eval limit u)) s = (.ok a, t)) :
    S.Good t ∧ P a ∧ Trusted S limit (next a t) := by
  obtain ⟨value, v, hv, ha⟩ := eq_ok_of_bind h
  obtain ⟨hgood, hsuits⟩ := (hc (u, s) (List.mem_cons_self ..) hs).of_ok hv
  obtain ⟨hgood', hp⟩ := ((hr value).sound (ht value v hgood hsuits) hgood).of_ok ha
  refine ⟨hgood', hp, fun other ho => hc other (List.mem_cons_of_mem _ ?_)⟩
  exact mem_after.mpr ⟨value, v, hv, mem_after.mpr ⟨a, t, ha, ho⟩⟩

/-- An operand, its test and what follows. -/
theorem upheld_callsThen {u : Term} {test : Value → Run α} {P : α → Prop}
    {next : α → State → List (Term × State)} (hs : S.Good s)
    (hc : Trusted S limit (callsThen limit u test s next)) (hr : ∀ value, Reads F (test value))
    (ht : ∀ value t, S.Good t → Suits S u value → Yields (test value) t P)
    (hn : ∀ a t, S.Good t → P a → Trusted S limit (next a t) → Upheld S (next a t)) :
    Upheld S (callsThen limit u test s next) := by
  have hfirst := hc (u, s) (List.mem_cons_self ..) hs
  refine .cons hs (upheld_after hfirst hc.tail fun value t hgood hv hc => ?_)
  exact upheld_after ((hr value).sound (ht value t hgood hv) hgood) hc hn

theorem upheld_callsInTurn {items : List Term} (hs : S.Good s)
    (hc : Trusted S limit (callsInTurn limit items s)) : Upheld S (callsInTurn limit items s) := by
  induction items generalizing s with
  | nil => exact upheld_nil
  | cons item rest ih =>
    have hfirst := hc (item, s) (List.mem_cons_self ..) hs
    exact .cons hs (upheld_after hfirst hc.tail fun _ _ ht _ hc => ih ht hc)

theorem upheld_callsOfLinks {left : Term} {operators : List String} {rest : List Term}
    (hs : S.Good s) (hc : Trusted S limit (callsOfLinks limit left operators rest s)) :
    Upheld S (callsOfLinks limit left operators rest s) := by
  induction operators generalizing left rest s with
  | nil => simp [callsOfLinks, upheld_nil]
  | cons operator operators ih =>
    cases rest with
    | nil => simp [callsOfLinks, upheld_nil]
    | cons right rest =>
      refine upheld_callsThen hs hc (numeric_reads admits_all _) (fun _ _ _ _ => yields_any)
        fun x t ht _ hc => ?_
      refine upheld_callsThen ht hc (numeric_reads admits_all _) (fun _ _ _ _ => yields_any)
        fun y t ht _ hc => ?_
      have hcompare : Reads (fun _ => True) (compare x operator y) :=
        compare_reads admits_all x y fun _ => trivial
      refine upheld_after (hcompare.sound yields_any ht) hc fun holds t ht _ hc => ?_
      cases holds with
      | true => exact ih ht hc
      | false => exact upheld_nil

/-! ### Passes -/

/-- A pass through the body begins once the loop has announced it. -/
theorem mem_passStates {range : Range} {up : Bool} {body : Run Value} {count : Nat}
    {progress : Progress} {v : State} (h : v ∈ passStates range up body count progress s) :
    ∃ start ∈ passStarts range up body count progress s,
      whenTracing (announcePass range start.1) start.2 = (.ok (), v) := by
  induction count generalizing progress s with
  | zero => cases h
  | succ count ih =>
    obtain ⟨x, r, hr, h⟩ := mem_after.mp h
    obtain ⟨isOn, t, ht, h⟩ := mem_after.mp h
    cases isOn with
    | false => cases h
    | true =>
      have hstarts {start : Progress × State} (hm : start ∈ _) :
          start ∈ passStarts range up body (count + 1) progress s :=
        mem_after.mpr ⟨x, r, hr, mem_after.mpr ⟨true, t, ht, hm⟩⟩
      obtain ⟨_, u, hu, h⟩ := mem_after.mp h
      rcases List.mem_cons.mp h with rfl | h
      · exact ⟨(progress, t), hstarts (List.mem_cons_self ..), hu⟩
      · obtain ⟨⟨progress', left⟩, w, hw, h⟩ := mem_after.mp h
        cases left with
        | true => cases h
        | false =>
          obtain ⟨_, z, hz, h⟩ := mem_after.mp h
          obtain ⟨start, hm, hv⟩ := ih h
          refine ⟨start, hstarts (List.mem_cons_of_mem _ ?_), hv⟩
          refine mem_after.mpr ⟨(), u, hu, mem_after.mpr ⟨_, w, hw, ?_⟩⟩
          exact mem_after.mpr ⟨(), z, hz, hm⟩

/-- Pass by pass the standard is kept, if the body keeps it where it is run. -/
theorem passStarts_good {range : Range} {up : Bool} {body : Run Value} {count : Nat}
    {progress : Progress} (hs : S.Good s) (hstep : range.step.isFinite) (hp : Tracks S progress)
    (hbody : ∀ v ∈ passStates range up body count progress s, S.Good v → Sound S body v S.Fits) :
    ∀ start ∈ passStarts range up body count progress s, S.Good start.2 := by
  induction count generalizing progress s with
  | zero => simp [passStarts]
  | succ count ih =>
    intro start hm
    obtain ⟨x, r, hr, hm⟩ := mem_after.mp hm
    have hnumber := (loopNumber_reads range.name).sound (yields_any (s := s)) hs
    obtain ⟨isOn, t, ht, hm⟩ := mem_after.mp hm
    have hgoes := (goesOn_reads admits_all range up x).sound yields_any (hnumber.of_ok hr).1
    have hgood : S.Good t := (hgoes.of_ok ht).1
    cases isOn with
    | false => cases hm
    | true =>
      rcases List.mem_cons.mp hm with rfl | hm
      · exact hgood
      · obtain ⟨_, u, hu, hm⟩ := mem_after.mp hm
        have hannounce := (whenTracing_writes (announcePass_writes range progress)).sound hgood
        have hgood := (hannounce.of_ok hu).1
        have hstates {v : State} (hv : v ∈ _) :=
          hbody v (mem_after.mpr ⟨x, r, hr, mem_after.mpr ⟨true, t, ht, mem_after.mpr ⟨(), u, hu, hv⟩⟩⟩)
        have hrun := hstates (List.mem_cons_self ..) hgood
        have hpass : Sound S (pass range.name body progress) u _ := pass_sound hrun hp
        obtain ⟨⟨progress', left⟩, w, hw, hm⟩ := mem_after.mp hm
        obtain ⟨hgood, hp⟩ := hpass.of_ok hw
        cases left with
        | true => cases hm
        | false =>
          obtain ⟨_, z, hz, hm⟩ := mem_after.mp hm
          have hgood := ((advance_sound hgood hstep).of_ok hz).1
          refine ih hgood hp (fun v hv => hstates (List.mem_cons_of_mem _ ?_)) start hm
          exact mem_after.mpr ⟨_, w, hw, mem_after.mpr ⟨(), z, hz, hv⟩⟩

def IsStep (u : Term) : Prop := u.Regular ∨ u = .constant (.decimal .one)

theorem Suits.step {u : Term} {value : Value} (h : Suits S u value) (hu : IsStep u) :
    Yields (numeric .loopStep value) s fun x => x.isFinite ∧ (u.Regular → S.Meets x) := by
  rcases hu with hu | rfl
  · intro x t hx
    have hmeets := h.number hu x t hx
    exact ⟨S.finite hmeets, fun _ => hmeets⟩
  · rw [h.2 _ rfl]
    exact yields_pure ⟨rfl, nofun⟩

theorem Trusted.body {body : Term} {states : List State} (hb : body.Regular)
    (hc : Trusted S limit (states.map (body, ·))) :
    ∀ v ∈ states, S.Good v → Sound S (eval limit body) v S.Fits := by
  intro v hv hgood
  exact (hc (body, v) (List.mem_map.mpr ⟨v, hv, rfl⟩) hgood).mono fun _ h => h.1 hb

theorem tracks_start : Tracks S {} := ⟨trivial, nofun⟩

section Loop
variable {name : String} {start stop step body : Term} {showsStep : Bool} {pos : Option Pos}
variable (hstart : start.Regular) (hstop : stop.Regular) (hstep : IsStep step)
variable (hbody : body.Regular) (hs : S.Good s)
variable (hc : Trusted S limit (callsOfLoop limit name start stop step showsStep body pos s))
include hstart hstop hstep hbody hs hc

theorem upheld_callsOfLoop :
    Upheld S (callsOfLoop limit name start stop step showsStep body pos s) := by
  refine upheld_callsThen hs hc (numeric_reads admits_all _) (fun _ _ _ hv => hv.number hstart)
    fun first t ht hfirst hc => ?_
  refine upheld_callsThen ht hc (numeric_reads admits_all _) (fun _ _ _ hv => hv.number hstop)
    fun last t ht _ hc => ?_
  refine upheld_callsThen ht hc (numeric_reads admits_all _) (fun _ _ _ hv => hv.step hstep)
    fun width t ht hwidth hc => ?_
  refine upheld_after (prepare_sound ht (S.finite hfirst)) hc fun (before, up) t ht _ hc => ?_
  intro call hm
  obtain ⟨v, hv, rfl⟩ := List.mem_map.mp hm
  obtain ⟨begun, hb, hannounce⟩ := mem_passStates hv
  have hgood := passStarts_good ht hwidth.1 tracks_start (hc.body hbody) begun hb
  exact (((whenTracing_writes (announcePass_writes _ _)).sound hgood).of_ok hannounce).1

/-- The numbers that a loop shows meet the standard, at each of its passes. -/
theorem loopStarts_meet {range : Range} {progress : Progress} {w : State}
    (h : (range, progress, w) ∈ loopStarts limit name start stop step showsStep body pos s) :
    S.Good w ∧ S.Meets range.start ∧ S.Meets range.stop ∧ (step.Regular → S.Meets range.step) ∧
      range.showsStep = showsStep := by
  obtain ⟨first, t, hfirst, h⟩ := mem_after.mp h
  obtain ⟨ht, hmeets, hc⟩ := hc.next hs (numeric_reads admits_all _)
    (fun _ _ _ hv => hv.number hstart) hfirst
  obtain ⟨last, u, hlast, h⟩ := mem_after.mp h
  obtain ⟨hu, hmeets', hc⟩ := hc.next ht (numeric_reads admits_all _)
    (fun _ _ _ hv => hv.number hstop) hlast
  obtain ⟨width, v, hwidth, h⟩ := mem_after.mp h
  obtain ⟨hv, ⟨hfinite, hstep⟩, hc⟩ := hc.next hu (numeric_reads admits_all _)
    (fun _ _ _ hv => hv.step hstep) hwidth
  obtain ⟨⟨before, up⟩, x, hx, h⟩ := mem_after.mp h
  obtain ⟨begun, hb, heq⟩ := List.mem_map.mp h
  cases heq
  have hx' := ((prepare_sound hv (S.finite hmeets)).of_ok hx).1
  have hbodies : Trusted S limit ((passStates _ up (eval limit body) limit {} x).map (body, ·)) :=
    fun other ho => hc other (mem_after.mpr ⟨(before, up), x, hx, ho⟩)
  exact ⟨passStarts_good hx' hfinite tracks_start (hbodies.body hbody) _ hb, hmeets, hmeets', hstep,
    rfl⟩

/-- So do all the values that it shows before a pass. -/
theorem passShown_fits {range : Range} {progress : Progress} {w : State} {value : Value}
    (hshows : showsStep → step.Regular)
    (h : (range, progress, w) ∈ loopStarts limit name start stop step showsStep body pos s)
    (hv : value ∈ passShown range progress w) : S.Fits value ∧ S.Good w := by
  obtain ⟨hgood, hfirst, hlast, hwidth, heq⟩ := loopStarts_meet hstart hstop hstep hbody hs hc h
  refine ⟨?_, hgood⟩
  rcases List.mem_append.mp hv with hv | hv
  · split at hv
    · rcases List.mem_append.mp hv with hv | hv
      · split at hv
        · rename_i hs
          cases List.mem_singleton.mp hv
          exact hwidth (hshows (heq ▸ hs))
        · cases hv
      · simp only [List.mem_cons, List.not_mem_nil, or_false] at hv
        rcases hv with rfl | rfl
        · exact hfirst
        · exact hlast
    · cases hv
  · exact (hgood.held _ value (Option.mem_toList.mp hv)).fits

end Loop

/-- A term that keeps a standard asks for evaluations from good states alone. -/
theorem calls_good {u : Term} (hu : u.Regular) (hs : S.Good s)
    (hc : Trusted S limit (calls limit u s)) : Upheld S (calls limit u s) := by
  have one {v : Term} {t : State} (ht : S.Good t) : Upheld S [(v, t)] := upheld_nil.cons ht
  cases hu with
  | truth | number | var => exact upheld_nil
  | sequence | print | call => exact upheld_callsInTurn hs hc
  | @traced note pos item _ _ =>
    have hannounce := (whenTracing_writes (announce_writes (some pos))).sound hs
    exact upheld_after hannounce hc fun _ t ht _ _ => one ht
  | assign | numeric | unwrapped | signed | boolean | negated => exact one hs
  | @leave name guard result pos hg hr =>
    have hfind : Reads (fun _ => True) (findLoop (.ok name) .breakOutsideLoop (some pos)) :=
      findLoop_reads admits_all _ _ _ (fun _ => rfl) (fun _ => trivial) fun _ _ => trivial
    refine upheld_after (hfind.sound yields_any hs) hc fun _ t ht _ hc => ?_
    refine .cons ht (upheld_after (hc (guard, t) (List.mem_cons_self ..) ht) hc.tail ?_)
    intro value t ht _ _
    split
    · exact one ht
    · exact upheld_nil
  | @skip name guard pos hg =>
    have hfind : Reads (fun _ => True) (findLoop (.ok name) .nextOutsideLoop (some pos)) :=
      findLoop_reads admits_all _ _ _ (fun _ => rfl) (fun _ => trivial) fun _ _ => trivial
    exact upheld_after (hfind.sound yields_any hs) hc fun _ t ht _ _ => one ht
  | loop hstart hstop hbody =>
    dsimp only [calls] at hc ⊢
    split
    · exact upheld_nil
    · rename_i hn
      rw [if_neg hn] at hc
      exact upheld_callsOfLoop hstart hstop (.inr rfl) hbody (hs.inside _) hc
  | loopBy hstart hstop hstep hbody =>
    dsimp only [calls] at hc ⊢
    split
    · exact upheld_nil
    · rename_i hn
      rw [if_neg hn] at hc
      exact upheld_callsOfLoop hstart hstop (.inl hstep) hbody (hs.inside _) hc
  | sum | power =>
    exact upheld_callsThen hs hc (numeric_reads admits_all _) (fun _ _ _ _ => yields_any)
      fun _ _ ht _ _ => one ht
  | product =>
    exact upheld_callsThen hs hc (fun _ => toDecimal_reads admits_all _)
      (fun _ _ _ _ => yields_any) fun _ _ ht _ _ => one ht
  | @conditional condition holds otherwise _ _ _ =>
    refine .cons hs (upheld_after (hc (condition, s) (List.mem_cons_self ..) hs) hc.tail ?_)
    intro value t ht _ _
    split
    · exact one ht
    · exact one ht
    · exact upheld_nil
  | connected =>
    refine upheld_callsThen hs hc (truth_reads admits_all _ _) (fun _ _ _ _ => yields_any) ?_
    intro first t ht _ _
    split
    · exact upheld_nil
    · exact one ht
  | comparison => exact upheld_callsOfLinks hs hc

theorem calls_trusted {u : Term} (hu : u.Regular) (ha : S.Allows limit u s) :
    Trusted S limit (calls limit u s) := fun _ hc hs =>
  ordinary_sound (hu.child (mem_children_of_calls hc)) hs fun hi => ha (hi.of_call hc)

/-- Wherever an evaluation comes to, the state is good. -/
theorem Reaches.good {u w : Term} {v : State} (h : Reaches limit u s w v) (hu : u.Ordinary)
    (hs : S.Good s) (ha : S.Allows limit u s) : w.Ordinary ∧ S.Good v ∧ S.Allows limit w v := by
  induction h with
  | here => exact ⟨hu, hs, ha⟩
  | @call u x w s v z hc _ ih =>
    rcases hu with hu | ⟨literal, rfl⟩ | rfl
    · refine ih (hu.child (mem_children_of_calls hc)) ?_ fun hi => ha (hi.of_call hc)
      exact calls_good hu hs (calls_trusted hu ha) _ hc
    · cases hc
    · cases hc

/-- The values that tracing shows fit the standard of the state in which it shows them. -/
theorem shown_fits {u : Term} {value : Value} {w : State} (hu : u.Regular) (hs : S.Good s)
    (ha : S.Allows limit u s) (h : (value, w) ∈ shown limit u s) : S.Fits value ∧ S.Good w := by
  have hc := calls_trusted hu ha
  cases hu with
  | @traced note pos item _ hitem =>
    obtain ⟨_, t, ht, h⟩ := mem_after.mp h
    have hgood := (((whenTracing_writes (announce_writes (some pos))).sound hs).of_ok ht).1
    obtain ⟨result, x, hx, h⟩ := mem_after.mp h
    obtain ⟨shown, hm, heq⟩ := List.mem_map.mp h
    cases heq
    have hcall : (item, t) ∈ calls limit (.traced note (some pos) item) s :=
      mem_after.mpr ⟨(), t, ht, List.mem_singleton.mpr rfl⟩
    obtain ⟨hgood, hfits⟩ := (hc _ hcall hgood).of_ok hx
    refine ⟨?_, hgood⟩
    unfold effectShown at hm
    split at hm
    · exact (hgood.held _ _ (Option.mem_toList.mp hm)).fits
    · cases hm
    · cases hm
    · cases List.mem_singleton.mp hm
      exact hfits.1 hitem
  | loop hstart hstop hbody =>
    dsimp only [shown, calls] at h hc
    split at h
    · cases h
    · rename_i hn
      rw [if_neg hn] at hc
      obtain ⟨⟨range, progress, t⟩, hm, h⟩ := List.mem_flatMap.mp h
      obtain ⟨shown, hv, heq⟩ := List.mem_map.mp h
      cases heq
      exact passShown_fits hstart hstop (.inr rfl) hbody (hs.inside _) hc (by simp) hm hv
  | loopBy hstart hstop hstep hbody =>
    dsimp only [shown, calls] at h hc
    split at h
    · cases h
    · rename_i hn
      rw [if_neg hn] at hc
      obtain ⟨⟨range, progress, t⟩, hm, h⟩ := List.mem_flatMap.mp h
      obtain ⟨shown, hv, heq⟩ := List.mem_map.mp h
      cases heq
      exact passShown_fits hstart hstop (.inl hstep) hbody (hs.inside _) hc (fun _ => hstep) hm hv
  | _ => cases h

end Run

end DecimalScript
