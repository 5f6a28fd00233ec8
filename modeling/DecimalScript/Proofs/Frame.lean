import DecimalScript.Proofs.Reading
import Mathlib

/-! What every calculation keeps: the row of running loops and the definition of
each variable that had one. A calculation that does so, with exits of a given
kind, is tame; the helpers of the evaluator are. -/

namespace DecimalScript

/-- The places that numbers have when they have been rounded. -/
abbrev State.kept (s : State) : Nat := Decimal.keptPlaces s.digits s.places

namespace Env

theorem lookup_cons_eq (name other : String) (value : Value) (rest : List (String × Value)) :
    ((name, value) :: rest).lookup other = if other = name then some value else rest.lookup other := by
  by_cases h : other = name
  · simp [h]
  · simp [List.lookup_cons, beq_false_of_ne h, h]

theorem lookup_setIn (name other : String) (value : Value) (entries : List (String × Value)) :
    (setIn name value entries).lookup other =
      if other = name then some value else entries.lookup other := by
  induction entries with
  | nil => simp [setIn, lookup_cons_eq]
  | cons entry rest ih =>
    obtain ⟨first, old⟩ := entry
    simp only [setIn]
    split_ifs with hf h h
    · simp [h]
    · simp [lookup_cons_eq, hf, h]
    · subst h
      simp [lookup_cons_eq, ih, Ne.symm hf]
    · simp [lookup_cons_eq, ih, h]

@[simp] theorem get?_set (env : Env) (name other : String) (value : Value) :
    (env.set name value).get? other = if other = name then some value else env.get? other :=
  lookup_setIn name other value env.entries

theorem lookup_filter (name other : String) (entries : List (String × Value)) :
    (entries.filter (·.1 != name)).lookup other =
      if other = name then none else entries.lookup other := by
  induction entries with
  | nil => simp
  | cons entry rest ih =>
    obtain ⟨first, old⟩ := entry
    by_cases hf : first = name
    · rw [List.filter_cons_of_neg (by simp [hf]), ih]
      by_cases ho : other = name <;> simp [lookup_cons_eq, hf, ho]
    · rw [List.filter_cons_of_pos (by simp [hf]), lookup_cons_eq, lookup_cons_eq, ih]
      by_cases ho : other = name
      · simp [ho, Ne.symm hf]
      · simp [ho]

@[simp] theorem get?_erase (env : Env) (name other : String) :
    (env.erase name).get? other = if other = name then none else env.get? other :=
  lookup_filter name other env.entries

end Env

def State.Defines (s : State) (name : String) : Prop := (s.env.get? name).isSome

/-- The later state has the running loops of the earlier one, and its definitions. -/
structure Frame (s t : State) : Prop where
  loops : t.loops = s.loops
  defines : ∀ name, s.Defines name → t.Defines name

namespace Frame

theorem refl (s : State) : Frame s s := ⟨rfl, fun _ h => h⟩

theorem trans {s t u : State} (h : Frame s t) (k : Frame t u) : Frame s u :=
  ⟨k.loops.trans h.loops, fun name hn => k.defines name (h.defines name hn)⟩

theorem set (s : State) (name : String) (value : Value) :
    Frame s { s with env := s.env.set name value } := by
  refine ⟨rfl, fun other h => ?_⟩
  unfold State.Defines at h ⊢
  by_cases ho : other = name <;> simp_all

end Frame

namespace Run

variable {α β : Type} {s : State} {E : Exit → Prop} {F : Fault → Prop}

/-- The calculation keeps loops and definitions, and its exits are among the given ones. -/
def Tame (E : Exit → Prop) (run : Run α) (s : State) : Prop :=
  Ensures run s (fun _ t => Frame s t) fun e t => Frame s t ∧ E e

theorem tame_pure (a : α) : Tame E (pure a : Run α) s := Frame.refl s

theorem tame_throw {e : Exit} (h : E e) : Tame E (throw e : Run α) s := ⟨Frame.refl s, h⟩

/-- The first part of a calculation may tell more about its value. -/
theorem tame_bind {x : Run α} {f : α → Run β} {P : α → State → Prop}
    (hx : Ensures x s (fun a t => Frame s t ∧ P a t) fun e t => Frame s t ∧ E e)
    (hf : ∀ a t, Frame s t → P a t → Tame E (f a) t) : Tame E (x >>= f) s := by
  refine Ensures.bind hx fun a t _ h => ?_
  exact (hf a t h.1 h.2).mono (fun b u _ hu => h.1.trans hu) fun e u hu => ⟨h.1.trans hu.1, hu.2⟩

theorem Tame.bind {x : Run α} {f : α → Run β} (hx : Tame E x s)
    (hf : ∀ a t, x s = (.ok a, t) → Frame s t → Tame E (f a) t) : Tame E (x >>= f) s :=
  tame_bind (Ensures.mono hx (fun _ _ ha hst => ⟨hst, ha⟩) fun _ _ h => h)
    fun a t hst ha => hf a t ha hst

theorem Tame.mono {run : Run α} {E' : Exit → Prop} (h : Tame E run s) (he : ∀ e, E e → E' e) :
    Tame E' run s :=
  Ensures.mono h (fun _ _ _ hst => hst) fun e _ hst => ⟨hst.1, he e hst.2⟩

/-- Loops and definitions are kept whatever the end. -/
theorem Tame.frame {run : Run α} (h : Tame E run s) : Frame s (run s).2 := by
  cases hr : run s with
  | mk r t =>
    cases r with
    | ok a => exact h.of_ok hr
    | error e => exact (h.of_error hr).1

theorem Reads.tame {run : Run α} (h : Reads F run) (hF : ∀ f, F f → E (.fault f)) :
    Tame E run s :=
  h.ensures (fun _ _ => Frame.refl s) fun f hf => ⟨Frame.refl s, hF f hf⟩

/-! ### Changing the state -/

theorem setVariable_tame (name : String) (value : Value) : Tame E (setVariable name value) s :=
  Frame.set s name value

theorem write_tame (line : Line) : Tame E (write line) s := ⟨rfl, fun _ h => h⟩

theorem lookup_tame {name : String} (h : ¬s.Defines name → E (.fault .variableGone)) :
    Tame E (lookup name) s := by
  refine ensures_get ?_
  split
  next value hv => exact tame_pure value
  next hv => exact tame_throw (h (by simp [State.Defines, hv]))

/-! ### Tracing and printing -/

theorem whenTracing_tame {run : Run Unit} (h : Tame E run s) : Tame E (whenTracing run) s := by
  refine ensures_get ?_
  split
  · exact h
  · exact tame_pure ()

section Admits
variable (hF : Admits F) (hE : ∀ f, F f → E (.fault f))

include hE in
theorem announce_tame {pos : Option Pos} (hp : pos = none → F .noPlace) : Tame E (announce pos) s := by
  unfold announce
  split
  · exact (reads_fail (hp rfl)).tame hE
  · split
    · exact tame_pure ()
    · exact ensures_get (write_tame _)

include hF hE

theorem loopNumber_tame {name : String} (h : s.Defines name) : Tame E (loopNumber name) s :=
  (lookup_tame (absurd h)).bind fun v _ _ _ => (toDecimal_reads hF v).tame hE

theorem announceVariable_tame {name : String} (h : ¬s.Defines name → F .variableGone) :
    Tame E (announceVariable name) s := by
  refine (lookup_tame fun hn => hE _ (h hn)).bind fun v t _ _ => ?_
  exact ((format_reads hF v).tame hE).bind fun _ _ _ _ => write_tame _

/-- Of an assignment tracing shows the variable, which has to be there then. -/
theorem announceEffect_tame {note : Note} {value : Value}
    (h : ∀ name, note = .assigned name → ¬s.Defines name → F .variableGone) :
    Tame E (announceEffect note value) s := by
  unfold announceEffect
  split
  · exact announceVariable_tame hF hE (h _ rfl)
  · exact tame_pure ()
  · exact tame_pure ()
  · exact ((format_reads hF _).tame hE).bind fun _ _ _ _ => write_tame _

theorem announceLoop_tame (name : String) (start stop step : Decimal) (showsStep : Bool)
    {pos : Option Pos} (hp : pos = none → F .noPlace) :
    Tame E (announceLoop name start stop step showsStep pos) s := by
  unfold announceLoop
  split
  · exact (reads_fail (hp rfl)).tame hE
  · cases showsStep with
    | true =>
      refine (((format_reads hF _).map _).tame hE).bind fun _ _ _ _ => ?_
      refine ((format_reads hF _).tame hE).bind fun _ _ _ _ => ?_
      exact ((format_reads hF _).tame hE).bind fun _ _ _ _ => write_tame _
    | false =>
      refine ((reads_pure (F := F) _).tame hE).bind fun _ _ _ _ => ?_
      refine ((format_reads hF _).tame hE).bind fun _ _ _ _ => ?_
      exact ((format_reads hF _).tame hE).bind fun _ _ _ _ => write_tame _

theorem printValues_tame (values : List Value) : Tame E (printValues values) s :=
  ((reads_mapM (format_reads hF) values).tame hE).bind fun _ _ _ _ => write_tame _

/-! ### Assignments and functions -/

omit hE in
theorem onNumbers_reads {f : Decimal → Decimal → Run Decimal} (current value : Value)
    (hf : ∀ x y, Reads F (f x y)) : Reads F (onNumbers f current value) := by
  refine (numeric_reads hF _ current).bind fun x => ?_
  exact (numeric_reads hF _ value).bind fun y => hf x y

omit hE in
theorem combined_reads {op : AssignOp} (current value : Value) {pos : Option Pos}
    (hp : pos = none → F .noPlace)
    (ho : ∀ operator p, op = .other operator → F (.script (.unsupportedAssignment operator) p)) :
    Reads F (combined op current value pos) := by
  cases op with
  | set | add => exact onNumbers_reads hF current value (add_reads hF)
  | sub => exact onNumbers_reads hF current value (sub_reads hF)
  | div => exact onNumbers_reads hF current value fun x y => div_reads hF x y hp
  | mod => exact onNumbers_reads hF current value fun x y => mod_reads hF x y hp
  | other operator =>
    cases pos with
    | none => exact reads_fail (hp rfl)
    | some p => exact reads_fail (ho operator (some p) rfl)

theorem assign_tame (name : String) (namePos : Pos) {op : AssignOp} (value : Value)
    {pos : Option Pos} (hp : pos = none → F .noPlace)
    (ho : ∀ operator p, op = .other operator → F (.script (.unsupportedAssignment operator) p)) :
    Tame E (assign name namePos op value pos) s := by
  unfold assign
  split
  · exact (blameAt_reads hF rfl).tame hE
  · exact setVariable_tame name value
  · refine ensures_get ?_
    split
    · exact (blameAt_reads hF rfl).tame hE
    · exact ((combined_reads hF _ value hp ho).tame hE).bind fun _ _ _ _ => setVariable_tame _ _

theorem setPrecision_tame (pos : Pos) (items : List Value) : Tame E (setPrecision pos items) s := by
  refine ((oneArgument_reads hF _ pos items).tame hE).bind fun item _ _ _ => ?_
  refine ((toDecimal_reads hF item).tame hE).bind fun x _ _ _ => ?_
  refine ((decimal_reads hF _).tame hE).bind fun isWhole _ _ _ => ?_
  cases isWhole with
  | false => exact (blameAt_reads hF rfl).tame hE
  | true =>
    refine ((decimal_reads hF _).tame hE).bind fun isNegative _ _ _ => ?_
    cases isNegative with
    | true => exact (blameAt_reads hF rfl).tame hE
    | false =>
      refine ensures_get ?_
      refine ((toInt_reads hF x).tame hE).bind fun n t _ _ => ?_
      refine Tame.bind (x := modify _) ⟨rfl, fun _ h => h⟩ fun _ t _ _ => ?_
      dsimp only
      split
      · exact (reads_fail (hF _ rfl)).tame hE
      · split
        · exact (reads_fail (hF _ rfl)).tame hE
        · exact Tame.bind (x := modify _) ⟨rfl, fun _ h => h⟩ fun _ _ _ _ => tame_pure _

theorem call_tame (name : String) (pos : Pos) (items : List Value) :
    Tame E (call name pos items) s := by
  by_cases hn : name = "set_precision"
  · subst hn
    exact setPrecision_tame hF hE pos items
  · exact (call_reads hF hn pos items).tame hE

end Admits

/-- After an assignment the variable has a value. -/
theorem assign_defines {name : String} {namePos : Pos} {op : AssignOp} {value : Value}
    {pos : Option Pos} {t : State} (h : assign name namePos op value pos s = (.ok (), t)) :
    t.Defines name := by
  have hset (v : Value) (u : State) :
      Ensures (setVariable name v) u (fun _ t => t.Defines name) fun _ _ => True := by
    change State.Defines { u with env := u.env.set name v } name
    simp [State.Defines]
  suffices hassign : Ensures (assign name namePos op value pos) s
      (fun _ t => t.Defines name) fun _ _ => True from hassign.of_ok h
  unfold assign
  split
  · exact trivial
  · exact hset value s
  · refine ensures_get ?_
    split
    · exact trivial
    · exact ensures_true.bind fun _ u _ _ => hset _ u

end Run

end DecimalScript
