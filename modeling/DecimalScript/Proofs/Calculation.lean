import DecimalScript.Eval.State
import Mathlib

/-! What can be said about the end of a calculation: one condition on its value
and one on its exit, each with the state that is left. The rules follow the way
calculations are put together, so no proof has to open the monad again. -/

namespace DecimalScript.Run

variable {α β : Type} {s : State}

theorem bind_apply (x : Run α) (f : α → Run β) (s : State) :
    (x >>= f) s = match x s with
      | (.ok a, t) => f a t
      | (.error e, t) => (.error e, t) := by
  change (ExceptT.bindCont f (x s).1) (x s).2 = _
  rcases x s with ⟨_ | _, t⟩ <;> rfl

theorem get_apply (s : State) : (get : Run State) s = (.ok s, s) := rfl

/-! ### Conditions on the end -/

/-- The calculation from this state ends with a value or with an exit as given. -/
def Ensures (run : Run α) (s : State) (value : α → State → Prop)
    (exit : Exit → State → Prop) : Prop :=
  match run s with
  | (.ok a, t) => value a t
  | (.error e, t) => exit e t

section Rules
variable {run : Run α} {value value' : α → State → Prop} {exit exit' : Exit → State → Prop}

theorem Ensures.of_ok {a : α} {t : State} (h : Ensures run s value exit)
    (ha : run s = (.ok a, t)) : value a t := by
  unfold Ensures at h
  rw [ha] at h
  exact h

theorem Ensures.of_error {e : Exit} {t : State} (h : Ensures run s value exit)
    (he : run s = (.error e, t)) : exit e t := by
  unfold Ensures at h
  rw [he] at h
  exact h

theorem Ensures.of_run (hv : ∀ a t, run s = (.ok a, t) → value a t)
    (he : ∀ e t, run s = (.error e, t) → exit e t) : Ensures run s value exit := by
  unfold Ensures
  cases hr : run s with
  | mk r t =>
    cases r with
    | error e => exact he e t hr
    | ok a => exact hv a t hr

theorem Ensures.mono (h : Ensures run s value exit)
    (hv : ∀ a t, run s = (.ok a, t) → value a t → value' a t)
    (he : ∀ e t, exit e t → exit' e t) : Ensures run s value' exit' :=
  .of_run (fun a t ha => hv a t ha (h.of_ok ha)) fun e t hr => he e t (h.of_error hr)

theorem ensures_true : Ensures run s (fun _ _ => True) fun _ _ => True :=
  .of_run (fun _ _ _ => trivial) fun _ _ _ => trivial

theorem ensures_pure {a : α} (h : value a s) : Ensures (pure a) s value exit := h

theorem ensures_get {f : State → Run α} (h : Ensures (f s) s value exit) :
    Ensures (get >>= f) s value exit := h

/-- The rest of a calculation may use that its first part ended with this value. -/
theorem Ensures.bind {x : Run α} {f : α → Run β} {value : β → State → Prop}
    {P : α → State → Prop} (hx : Ensures x s P exit)
    (hf : ∀ a t, x s = (.ok a, t) → P a t → Ensures (f a) t value exit) :
    Ensures (x >>= f) s value exit := by
  unfold Ensures
  rw [bind_apply]
  cases hr : x s with
  | mk r t =>
    cases r with
    | error e => exact hx.of_error hr
    | ok a => exact hf a t hr (hx.of_ok hr)

/-- A calculation whose signals are caught ends with them as values. -/
theorem Ensures.catchSignal {value : α ⊕ Signal → State → Prop}
    (h : Ensures run s (fun a t => value (.inl a) t)
      fun e t => (∀ signal, e = .signal signal → value (.inr signal) t) ∧
        ((∀ signal, e ≠ .signal signal) → exit e t)) :
    Ensures (Run.catchSignal run) s value exit := by
  unfold Ensures Run.catchSignal
  cases hr : run s with
  | mk r t =>
    cases r with
    | ok a => exact h.of_ok hr
    | error e =>
      have he := h.of_error hr
      cases e with
      | signal signal => exact he.1 signal rfl
      | fault fault => exact he.2 (by simp)
      | exhausted => exact he.2 (by simp)

end Rules

/-! ### Calculations that change nothing -/

/-- The calculation leaves the state as it is, and its exits are among the given faults. -/
def Reads (F : Fault → Prop) (run : Run α) : Prop :=
  ∀ s, (∃ a, run s = (.ok a, s)) ∨ ∃ f, F f ∧ run s = (.error (.fault f), s)

section Reads
variable {F : Fault → Prop} {run : Run α} {value : α → State → Prop} {exit : Exit → State → Prop}

theorem Reads.ensures (h : Reads F run) (hv : ∀ a, run s = (.ok a, s) → value a s)
    (he : ∀ f, F f → exit (.fault f) s) : Ensures run s value exit := by
  unfold Ensures
  rcases h s with ⟨a, ha⟩ | ⟨f, hf, hr⟩
  · rw [ha]
    exact hv a ha
  · rw [hr]
    exact he f hf

theorem Reads.then {x : Run β} {f : β → Run α} (hx : Reads F x)
    (he : ∀ f, F f → exit (.fault f) s) (hf : ∀ a, x s = (.ok a, s) → Ensures (f a) s value exit) :
    Ensures (x >>= f) s value exit := by
  refine Ensures.bind (P := fun _ t => t = s) (hx.ensures (fun _ _ => rfl) he) ?_
  rintro a t ha rfl
  exact hf a ha

theorem reads_pure (a : α) : Reads F (pure a : Run α) := fun _ => .inl ⟨a, rfl⟩

theorem reads_fail {f : Fault} (h : F f) : Reads F (fail f : Run α) := fun _ => .inr ⟨f, h, rfl⟩

theorem reads_get : Reads F (get : Run State) := fun s => .inl ⟨s, rfl⟩

theorem Reads.bind {x : Run α} {f : α → Run β} (hx : Reads F x) (hf : ∀ a, Reads F (f a)) :
    Reads F (x >>= f) := by
  intro s
  rw [bind_apply]
  rcases hx s with ⟨a, ha⟩ | ⟨g, hg, hr⟩
  · rw [ha]
    exact hf a s
  · rw [hr]
    exact .inr ⟨g, hg, rfl⟩

theorem Reads.map {x : Run α} (f : α → β) (hx : Reads F x) : Reads F (f <$> x) := by
  rw [← bind_pure_comp]
  exact hx.bind fun a => reads_pure _

theorem reads_mapM {f : α → Run β} (h : ∀ a, Reads F (f a)) (items : List α) :
    Reads F (items.mapM f) := by
  induction items with
  | nil => exact reads_pure _
  | cons a rest ih =>
    rw [List.mapM_cons]
    exact (h a).bind fun b => ih.bind fun _ => reads_pure _

end Reads

end DecimalScript.Run
