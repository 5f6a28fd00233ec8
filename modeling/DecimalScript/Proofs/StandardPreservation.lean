import DecimalScript.Proofs.Standard
import Mathlib

/-! Calculations that keep a standard: from a good state they come to a good state,
however they end, and what they pass on fits. Tracing and printing only write;
variables change where a value is assigned and where a loop counts. -/

namespace DecimalScript

/-- The values that leave a calculation with its exit fit. -/
def Standard.Carries (S : Standard) : Exit → Prop
  | .signal (.leave _ value) => S.Fits value
  | _ => True

namespace Run

variable {α β : Type} {s : State} {F : Fault → Prop} {P : α → Prop} {Q : β → Prop} {S : Standard}

/-- The calculation leaves a good state behind, and its value is as given. -/
def Sound (S : Standard) (run : Run α) (s : State) (P : α → Prop) : Prop :=
  Ensures run s (fun a t => S.Good t ∧ P a) fun e t => S.Good t ∧ S.Carries e

theorem Sound.good {run : Run α} (h : Sound S run s P) : S.Good (run s).2 := by
  cases hr : run s with
  | mk r t =>
    cases r with
    | ok a => exact (h.of_ok hr).1
    | error e => exact (h.of_error hr).1

theorem sound_pure {a : α} (hs : S.Good s) (h : P a) : Sound S (pure a) s P := ⟨hs, h⟩

theorem sound_throw {e : Exit} (hs : S.Good s) (h : S.Carries e) :
    Sound S (throw e : Run α) s P := ⟨hs, h⟩

theorem sound_fail {fault : Fault} (hs : S.Good s) : Sound S (fail fault : Run α) s P :=
  sound_throw hs trivial

theorem sound_blameNode {cause : Cause} {pos : Option Pos} (hs : S.Good s) :
    Sound S (blameNode cause pos : Run α) s P := by
  cases pos <;> exact sound_fail hs

theorem Sound.bind {x : Run α} {f : α → Run β} (hx : Sound S x s P)
    (hf : ∀ a t, S.Good t → P a → Sound S (f a) t Q) : Sound S (x >>= f) s Q :=
  Ensures.bind hx fun a t _ ha => hf a t ha.1 ha.2

theorem Sound.mono {x : Run α} {P' : α → Prop} (hx : Sound S x s P) (h : ∀ a, P a → P' a) :
    Sound S x s P' :=
  Ensures.mono hx (fun a _ _ ha => ⟨ha.1, h a ha.2⟩) fun _ _ he => he

theorem Reads.sound {x : Run α} (hr : Reads F x) (hy : Yields x s P) (hs : S.Good s) :
    Sound S x s P :=
  hr.ensures (fun a ha => ⟨hs, hy a s ha⟩) fun _ _ => ⟨hs, trivial⟩

/-- Something that is only read stands first. -/
theorem Reads.sound_bind {x : Run α} {f : α → Run β} (hr : Reads F x) (hy : Yields x s P)
    (hs : S.Good s) (hf : ∀ a, P a → Sound S (f a) s Q) : Sound S (x >>= f) s Q :=
  hr.then (fun _ _ => ⟨hs, trivial⟩) fun a ha => hf a (hy a s ha)

/-! ### Writing -/

/-- The calculation does nothing to the state but write lines, and sends no signal. -/
def Writes (run : Run α) : Prop :=
  ∀ s, Ensures run s (fun _ t => ∃ output, t = { s with output }) fun e t =>
    (∃ output, t = { s with output }) ∧ ∃ fault, e = .fault fault

theorem Writes.sound {run : Run α} (h : Writes run) (hs : S.Good s) :
    Sound S run s fun _ => True := by
  have good {t : State} (ht : ∃ output, t = { s with output }) : S.Good t := by
    obtain ⟨output, rfl⟩ := ht
    exact ⟨hs.fixed, hs.held⟩
  refine (h s).mono (fun _ _ _ ht => ⟨good ht, trivial⟩) ?_
  rintro _ t ⟨ht, fault, rfl⟩
  exact ⟨good ht, trivial⟩

theorem Reads.writes {run : Run α} (h : Reads F run) : Writes run := fun s =>
  h.ensures (fun _ _ => ⟨s.output, rfl⟩) fun fault _ => ⟨⟨s.output, rfl⟩, fault, rfl⟩

theorem writes_write (line : Line) : Writes (write line) := fun s => ⟨line :: s.output, rfl⟩

theorem Writes.bind {x : Run α} {f : α → Run β} (hx : Writes x) (hf : ∀ a, Writes (f a)) :
    Writes (x >>= f) := by
  intro s
  refine Ensures.bind (hx s) ?_
  rintro a t _ ⟨output, rfl⟩
  refine (hf a _).mono ?_ ?_
  · rintro _ _ _ ⟨output', rfl⟩
    exact ⟨output', rfl⟩
  · rintro e _ ⟨⟨output', rfl⟩, he⟩
    exact ⟨⟨output', rfl⟩, he⟩

theorem lookup_reads (name : String) : Reads (fun _ => True) (lookup name) := by
  refine reads_get.bind fun s => ?_
  split
  · exact reads_pure _
  · exact reads_fail trivial

theorem format_writes {f : String → Run α} {value : Value} (h : ∀ text, Writes (f text)) :
    Writes (do f (← format value)) :=
  (format_reads admits_all value).writes.bind h

theorem whenTracing_writes {run : Run Unit} (h : Writes run) : Writes (whenTracing run) := by
  refine reads_get (F := fun _ => True) |>.writes.bind fun s => ?_
  split
  · exact h
  · exact (reads_pure (F := fun _ => True) ()).writes

theorem announce_writes (pos : Option Pos) : Writes (announce pos) := by
  cases pos with
  | none => exact (reads_fail (F := fun _ => True) trivial).writes
  | some pos =>
    unfold announce
    dsimp only
    split
    · exact (reads_pure (F := fun _ => True) ()).writes
    · exact reads_get (F := fun _ => True) |>.writes.bind fun s => writes_write _

theorem announceVariable_writes (name : String) : Writes (announceVariable name) :=
  (lookup_reads name).writes.bind fun _ => format_writes fun _ => writes_write _

theorem announceEffect_writes (note : Note) (value : Value) : Writes (announceEffect note value) := by
  unfold announceEffect
  split
  · exact announceVariable_writes _
  · exact (reads_pure (F := fun _ => True) ()).writes
  · exact (reads_pure (F := fun _ => True) ()).writes
  · exact format_writes fun _ => writes_write _

theorem announceLoop_writes (name : String) (start stop step : Decimal) (showsStep : Bool)
    (pos : Option Pos) : Writes (announceLoop name start stop step showsStep pos) := by
  cases pos with
  | none => exact (reads_fail (F := fun _ => True) trivial).writes
  | some pos =>
    have bounds {text : String → String → String} : Writes (do
        let first ← format (.decimal start)
        let last ← format (.decimal stop)
        write (.traced (text first last))) :=
      format_writes fun _ => format_writes fun _ => writes_write _
    cases showsStep with
    | true => exact ((format_reads admits_all _).map _).writes.bind fun _ => bounds
    | false => exact bounds

theorem announcePass_writes (range : Range) (progress : Progress) :
    Writes (announcePass range progress) := by
  unfold announcePass
  split
  · exact (announceLoop_writes _ _ _ _ _ _).bind fun _ => announceVariable_writes _
  · exact announceVariable_writes _

theorem printValues_writes (values : List Value) : Writes (printValues values) :=
  (reads_mapM (format_reads admits_all) values).writes.bind fun _ => writes_write _

/-! ### Variables -/

theorem setVariable_sound {name : String} {value : Value} (hs : S.Good s) (hv : S.Held value) :
    Sound S (setVariable name value) s fun _ => True := ⟨hs.set hv, trivial⟩

theorem lookup_yields {name : String} (hs : S.Good s) : Yields (lookup name) s S.Held := by
  refine yields_get ?_
  split
  · rename_i value hget
    exact yields_pure (hs.held name value hget)
  · exact yields_throw

/-- A truth value is not assigned, and any other value of an expression can be held. -/
theorem assign_sound {name : String} {namePos : Pos} {op : AssignOp} {value : Value}
    {pos : Option Pos} (hs : S.Good s) (hv : S.Fits value) :
    Sound S (assign name namePos op value pos) s fun _ => True := by
  unfold assign
  split
  · exact sound_fail hs
  · rename_i hb
    refine setVariable_sound hs ?_
    cases value with
    | bool b => exact absurd rfl (hb b)
    | _ => exact hv
  · refine ensures_get ?_
    split
    · exact sound_fail hs
    · rename_i current hget
      have hreads : Reads (fun _ => True) (combined op current value pos) :=
        combined_reads admits_all current value (fun _ => trivial) fun _ _ _ => trivial
      refine hreads.sound_bind (combined_yields hs (hs.held _ _ hget).fits hv) hs fun x hx => ?_
      exact setVariable_sound hs hx

/-- The precision may be set where any number of places will do. -/
theorem setPrecision_sound {pos : Pos} {items : List Value} (hs : S.Good s) (hfree : S.Free)
    (hi : ∀ item ∈ items, S.Fits item) : Sound S (setPrecision pos items) s S.Fits := by
  refine (oneArgument_reads admits_all _ _ _).sound_bind (oneArgument_yields hi) hs fun item h => ?_
  refine (toDecimal_reads admits_all _).sound_bind (toDecimal_yields h) hs fun x _ => ?_
  refine (decimal_reads admits_all _).sound_bind yields_any hs fun isWhole _ => ?_
  cases isWhole with
  | false => exact sound_fail hs
  | true =>
    refine (decimal_reads admits_all _).sound_bind yields_any hs fun isNegative _ => ?_
    cases isNegative with
    | true => exact sound_fail hs
    | false =>
      refine ensures_get ?_
      refine (toInt_reads admits_all _).sound_bind yields_any hs fun n _ => ?_
      have hplaces : S.Good { s with places := n.toNat } := ⟨hfree.1 _ _, hs.held⟩
      refine Sound.bind (x := modify _) (P := fun _ => True) ⟨hplaces, trivial⟩ fun _ t ht _ => ?_
      dsimp only
      split
      · exact sound_fail ht
      · split
        · exact sound_fail ht
        · have hdigits : S.Good { t with digits := digitsFor n.toNat } := ⟨hfree.1 _ _, ht.held⟩
          refine Sound.bind (x := modify _) (P := fun _ => True) ⟨hdigits, trivial⟩ fun _ u hu _ => ?_
          exact sound_pure hu (hfree.2 _)

/-! ### Loops -/

theorem endLoop_good {name : String} (hs : S.Good s) : S.Good (endLoop name s) := by
  unfold endLoop
  split
  · split
    · exact ⟨hs.fixed, hs.held⟩
    · exact hs
  · exact hs

theorem insideLoop_sound {name : String} {pos : Option Pos} {run : Run α} (hs : S.Good s)
    (h : ∀ t, S.Good t → Sound S run t P) : Sound S (insideLoop name pos run) s P := by
  unfold Sound Ensures insideLoop
  by_cases hn : s.loops.contains name
  · rw [if_pos hn]
    exact sound_blameNode hs
  · rw [if_neg hn]
    have hrun := h { s with loops := name :: s.loops } ⟨hs.fixed, hs.held⟩
    cases hr : run { s with loops := name :: s.loops } with
    | mk r t =>
      cases r with
      | ok a => exact ⟨endLoop_good (hrun.of_ok hr).1, (hrun.of_ok hr).2⟩
      | error e => exact ⟨endLoop_good (hrun.of_error hr).1, (hrun.of_error hr).2⟩

/-- The numbers that a loop has come to so far. -/
structure Tracks (S : Standard) (progress : Progress) : Prop where
  result : S.Fits progress.result
  last : ∀ x, progress.last = some x → S.Meets x

theorem loopNumber_reads (name : String) : Reads (fun _ => True) (loopNumber name) :=
  (lookup_reads name).bind fun value => toDecimal_reads admits_all value

theorem loopNumber_yields {name : String} (hs : S.Good s) : Yields (loopNumber name) s S.Meets :=
  yields_bind (lookup_reads name) (lookup_yields hs) fun _ hv => toDecimal_yields hv.fits

theorem advance_sound {range : Range} (hs : S.Good s) (hstep : range.step.isFinite) :
    Sound S (advance range) s fun _ => True := by
  refine (loopNumber_reads _).sound_bind (loopNumber_yields hs) hs fun x hx => ?_
  refine (add_reads admits_all _ _).sound_bind (add_yields hs (S.finite hx) hstep) hs fun y hy => ?_
  exact setVariable_sound hs hy

theorem prepare_sound {range : Range} (hs : S.Good s) (hstart : range.start.isFinite) :
    Sound S (prepare range) s fun (before, _) => ∀ value, before = some value → S.Held value := by
  refine (decimal_reads admits_all _).sound_bind yields_any hs fun isZero _ => ?_
  cases isZero with
  | true => exact sound_blameNode hs
  | false =>
    refine ensures_get ?_
    have hround := round_yields hs (Decimal.isNaN_of_finite hstart)
    refine (round_reads admits_all _).sound_bind hround hs fun x hx => ?_
    have hheld : S.Held (.decimal x) := hx
    refine (setVariable_sound hs hheld).bind fun _ t ht _ => ?_
    refine (decimal_reads admits_all _).sound_bind yields_any ht fun up _ => ?_
    exact sound_pure ht fun value hget => hs.held _ value hget

theorem pass_sound {name : String} {body : Run Value} {progress : Progress}
    (hbody : Sound S body s S.Fits) (hp : Tracks S progress) :
    Sound S (pass name body progress) s fun (progress, _) => Tracks S progress := by
  have hcaught : Sound S (catchSignal body) s (Sum.elim S.Fits fun signal =>
      S.Carries (.signal signal)) := by
    refine Ensures.catchSignal (Ensures.mono hbody (fun _ _ _ h => h) fun e t he => ?_)
    refine ⟨?_, fun _ => he⟩
    rintro signal rfl
    exact he
  refine hcaught.bind fun outcome t ht ho => ?_
  have hnumber : Yields (loopNumber name) t S.Meets := loopNumber_yields ht
  cases outcome with
  | inl result =>
    refine (loopNumber_reads _).sound_bind hnumber ht fun x hx => ?_
    exact sound_pure ht ⟨ho, by rintro _ ⟨⟩; exact hx⟩
  | inr signal =>
    dsimp only
    split
    · refine (loopNumber_reads _).sound_bind hnumber ht fun x hx => ?_
      cases signal with
      | leave _ result => exact sound_pure ht ⟨ho, by rintro _ ⟨⟩; exact hx⟩
      | skip => exact sound_pure ht ⟨hp.result, by rintro _ ⟨⟩; exact hx⟩
    · exact sound_throw ht ho

/-- Pass by pass the state stays good, if the body keeps it good. -/
theorem passes_sound {range : Range} {up : Bool} {body : Run Value} {progress : Progress}
    (hstep : range.step.isFinite) (hbody : ∀ t, S.Good t → Sound S body t S.Fits) (limit : Nat)
    (hs : S.Good s) (hp : Tracks S progress) :
    Sound S (passes range up body limit progress) s (Tracks S) := by
  induction limit generalizing progress s with
  | zero => exact sound_throw hs trivial
  | succ limit ih =>
    refine (loopNumber_reads _).sound_bind (loopNumber_yields hs) hs fun x _ => ?_
    refine (goesOn_reads admits_all range up x).sound_bind yields_any hs fun isOn _ => ?_
    cases isOn with
    | false => exact sound_pure hs hp
    | true =>
      have hannounce := whenTracing_writes (announcePass_writes range progress)
      refine (hannounce.sound hs).bind fun _ t ht _ => ?_
      refine (pass_sound (hbody t ht) hp).bind fun (progress', left) u hu hp' => ?_
      cases left with
      | true => exact sound_pure hu hp'
      | false => exact (advance_sound hu hstep).bind fun _ v hv _ => ih hv hp'

theorem settle_sound {name : String} {before : Option Value} {progress : Progress}
    (hs : S.Good s) (hb : ∀ value, before = some value → S.Held value)
    (hp : Tracks S progress) : Sound S (settle name before progress) s fun _ => True := by
  unfold settle
  split
  · exact ⟨hs.erase, trivial⟩
  · split
    · exact setVariable_sound hs (hb _ rfl)
    · rename_i last hlast
      exact setVariable_sound hs (hp.last last hlast)

theorem loopOver_sound {limit : Nat} {range : Range} {body : Run Value} (hs : S.Good s)
    (hstart : range.start.isFinite) (hstep : range.step.isFinite)
    (hbody : ∀ t, S.Good t → Sound S body t S.Fits) :
    Sound S (loopOver limit range body) s S.Fits := by
  refine (prepare_sound hs hstart).bind fun (before, up) t ht hb => ?_
  have hempty : Tracks S {} := ⟨trivial, nofun⟩
  refine (passes_sound hstep hbody limit ht hempty).bind fun progress u hu hp => ?_
  exact (settle_sound hu hb hp).bind fun _ v hv _ => sound_pure hv hp.result

end Run

end DecimalScript
