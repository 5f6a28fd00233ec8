import DecimalScript.Proofs.Layer
import DecimalScript.Proofs.NumericIndependence
import Mathlib

/-! Two runs side by side. A coupling says what the states of two runs have in common
while both go on and when both end with an exit; what one run keeps is the case of
two equal runs. The rules follow the way calculations are put together, down to
the passes of loops. -/

namespace DecimalScript

namespace Run

variable {α β : Type} {s t : State}

theorem bind_of_ok {x : Run α} {f : α → Run β} {a : α} {u : State} (h : x s = (.ok a, u)) :
    (x >>= f) s = f a u := by
  rw [bind_apply, h]

theorem bind_of_error {x : Run α} {f : α → Run β} {e : Exit} {u : State}
    (h : x s = (.error e, u)) : (x >>= f) s = (.error e, u) := by
  rw [bind_apply, h]

/-- Two calculations end with one value or with one exit, in states that are related; or
the first of them ends with a fault that it may end with alone. -/
inductive Coupled (R : State → State → Prop) (E : Exit → State → State → Prop)
    (L : Fault → Prop) (x y : Run α) (s t : State) : Prop
  | value {a : α} {u v : State} (hx : x s = (.ok a, u)) (hy : y t = (.ok a, v)) (h : R u v)
  | exit {e : Exit} {u v : State} (hx : x s = (.error e, u)) (hy : y t = (.error e, v))
      (h : E e u v)
  | lost {f : Fault} {u : State} (hx : x s = (.error (.fault f), u)) (h : L f)

section Rules
variable {R R' : State → State → Prop} {E E' : Exit → State → State → Prop} {L L' : Fault → Prop}

theorem coupled_pure (h : R s t) (a : α) : Coupled R E L (pure a) (pure a) s t := .value rfl rfl h

theorem coupled_throw {e : Exit} (h : E e s t) : Coupled R E L (throw e : Run α) (throw e) s t :=
  .exit rfl rfl h

/-- Only the ends of the two calculations count. -/
theorem Coupled.congr {x y x' y' : Run α} {u v : State} (h : Coupled R E L x' y' u v)
    (hx : x s = x' u) (hy : y t = y' v) : Coupled R E L x y s t := by
  cases h with
  | value hx' hy' h => exact .value (hx.trans hx') (hy.trans hy') h
  | exit hx' hy' h => exact .exit (hx.trans hx') (hy.trans hy') h
  | lost hx' h => exact .lost (hx.trans hx') h

theorem coupled_get {f g : State → Run α} (h : Coupled R E L (f s) (g t) s t) :
    Coupled R E L (get >>= f) (get >>= g) s t := h.congr rfl rfl

theorem Coupled.bind {x y : Run α} {f g : α → Run β} (h : Coupled R E L x y s t)
    (hf : ∀ a u v, x s = (.ok a, u) → R u v → Coupled R' E L (f a) (g a) u v) :
    Coupled R' E L (x >>= f) (y >>= g) s t := by
  cases h with
  | exit hx hy h => exact .exit (bind_of_error hx) (bind_of_error hy) h
  | lost hx h => exact .lost (bind_of_error hx) h
  | value hx hy h => exact (hf _ _ _ hx h).congr (bind_of_ok hx) (bind_of_ok hy)

theorem Coupled.mono {x y : Run α} (h : Coupled R E L x y s t) (hR : ∀ u v, R u v → R' u v)
    (hE : ∀ e u v, E e u v → E' e u v) (hL : ∀ f, L f → L' f) : Coupled R' E' L' x y s t := by
  cases h with
  | value hx hy h => exact .value hx hy (hR _ _ h)
  | exit hx hy h => exact .exit hx hy (hE _ _ _ h)
  | lost hx h => exact .lost hx (hL _ h)

end Rules

end Run

open Run

/-- What two runs side by side have in common. -/
structure Coupling where
  /-- The states of both runs while they go on. -/
  rel : State → State → Prop
  /-- The states in which both end with an exit. -/
  exit : Exit → State → State → Prop
  /-- The faults with which the first run may end alone. -/
  lost : Fault → Prop
  /-- The running loops of both. -/
  stack : List String
  /-- The variables that may be looked up, those that may be set, and the loops that a
  jump may name. -/
  sees : String → Prop
  sets : String → Prop
  aims : String → Prop
  /-- Whether the precision may be set. -/
  adjusts : Prop
  measures : ∀ {s t}, rel s t → s.digits = t.digits ∧ s.places = t.places
  loops : ∀ {s t}, rel s t → s.loops = stack ∧ t.loops = stack
  exit_loops : ∀ {e s t}, exit e s t → s.loops = stack ∧ t.loops = stack
  get : ∀ {s t name}, rel s t → sees name → s.env.get? name = t.env.get? name
  set : ∀ {s t name}, rel s t → sets name → ∀ value,
    rel { s with env := s.env.set name value } { t with env := t.env.set name value }
  print : ∀ {s t}, rel s t → ∀ text, rel { s with output := .printed text :: s.output }
    { t with output := .printed text :: t.output }
  places : ∀ {s t}, rel s t → adjusts → ∀ places, rel { s with places } { t with places }
  digits : ∀ {s t}, rel s t → adjusts → ∀ digits, rel { s with digits } { t with digits }
  stop : ∀ {e s t}, rel s t → (∀ signal, e ≠ .signal signal) → exit e s t
  jump : ∀ {signal s t}, rel s t → (stack.head? = some signal.target ∨ aims signal.target) →
    exit (.signal signal) s t

namespace Coupling

variable {α β : Type} {s t : State} (C : Coupling)

def Keeps (x y : Run α) (s t : State) : Prop := Coupled C.rel C.exit C.lost x y s t

/-- They end with one value or one fault, and keep the states related in either case. -/
def Shares (x y : Run α) (s t : State) : Prop :=
  Coupled C.rel (fun e u v => (∃ f, e = .fault f) ∧ C.rel u v) C.lost x y s t

variable {C}

theorem Shares.keeps {x y : Run α} (h : C.Shares x y s t) : C.Keeps x y s t := by
  refine h.mono (fun _ _ hr => hr) ?_ fun _ hf => hf
  rintro _ u v ⟨⟨f, rfl⟩, hr⟩
  exact C.stop hr (by simp)

/-! ### Calculations -/

section Calculations
variable (h : C.rel s t)
include h

theorem shares_steady {x : Run α} (hx : Steady x) : C.Shares x x s t := by
  obtain ⟨hd, hp⟩ := C.measures h
  rcases hx.alike hd hp with ⟨a, hs, ht⟩ | ⟨f, hs, ht⟩
  · exact .value hs ht h
  · exact .exit hs ht ⟨⟨f, rfl⟩, h⟩

theorem keeps_steady {x : Run α} (hx : Steady x) : C.Keeps x x s t := (shares_steady h hx).keeps

theorem keeps_return {x : Run α} {f : α → β} (hx : Steady x) :
    C.Keeps (do return f (← x)) (do return f (← x)) s t :=
  (keeps_steady h hx).bind fun _ _ _ _ hr => coupled_pure hr _

theorem shares_set {name : String} (hn : C.sets name) (value : Value) :
    C.Shares (setVariable name value) (setVariable name value) s t :=
  .value rfl rfl (C.set h hn value)

theorem shares_lookup {name : String} (hn : C.sees name) :
    C.Shares (lookup name) (lookup name) s t := by
  refine coupled_get ?_
  rw [C.get h hn]
  cases t.env.get? name with
  | some value => exact coupled_pure h value
  | none => exact shares_steady h (steady_fail _)

theorem shares_loopNumber {name : String} (hn : C.sees name) :
    C.Shares (loopNumber name) (loopNumber name) s t :=
  (shares_lookup h hn).bind fun value _ _ _ hr => shares_steady hr (toDecimal_steady value)

theorem shares_printValues (values : List Value) :
    C.Shares (printValues values) (printValues values) s t := by
  refine (shares_steady h (steady_mapM format_steady values)).bind fun texts u v _ hr => ?_
  exact .value rfl rfl (C.print hr _)

theorem shares_assign {name : String} (hg : C.sees name) (hn : C.sets name) (namePos : Pos)
    (op : AssignOp) (value : Value) (pos : Option Pos) :
    C.Shares (assign name namePos op value pos) (assign name namePos op value pos) s t := by
  unfold assign
  split
  · exact shares_steady h (steady_fail _)
  · exact shares_set h hn value
  · refine coupled_get ?_
    rw [C.get h hg]
    cases t.env.get? name with
    | none => exact shares_steady h (steady_fail _)
    | some current =>
      refine (shares_steady h (combined_steady _ current value pos)).bind fun x u v _ hr => ?_
      exact shares_set hr hn _

theorem shares_setPrecision (ha : C.adjusts) (pos : Pos) (items : List Value) :
    C.Shares (setPrecision pos items) (setPrecision pos items) s t := by
  refine (shares_steady h (oneArgument_steady _ pos items)).bind fun item s t _ h => ?_
  refine (shares_steady h (toDecimal_steady item)).bind fun x s t _ h => ?_
  refine (shares_steady h (steady_decimal _)).bind fun isWhole s t _ h => ?_
  cases isWhole with
  | false => exact shares_steady h (steady_fail _)
  | true =>
    refine (shares_steady h (steady_decimal _)).bind fun isNegative s t _ h => ?_
    cases isNegative with
    | true => exact shares_steady h (steady_fail _)
    | false =>
      refine coupled_get ?_
      rw [(C.measures h).2]
      refine (shares_steady h (toInt_steady x)).bind fun n s t _ h => ?_
      refine Coupled.bind (R := C.rel) (.value rfl rfl (C.places h ha n.toNat)) fun _ s t _ h => ?_
      dsimp only
      split
      · exact shares_steady h (steady_fail _)
      · split
        · exact shares_steady h (steady_fail _)
        · have hdigits := C.digits h ha (digitsFor n.toNat)
          exact Coupled.bind (R := C.rel) (.value rfl rfl hdigits) fun _ _ _ _ h => coupled_pure h _

theorem shares_call {name : String} (ha : name = "set_precision" → C.adjusts) (pos : Pos)
    (items : List Value) : C.Shares (call name pos items) (call name pos items) s t := by
  by_cases hn : name = "set_precision"
  · subst hn
    exact shares_setPrecision h (ha rfl) pos items
  · exact shares_steady h (call_steady hn pos items)

theorem shares_findLoop (target : Target) (outside : Cause) (pos : Option Pos) :
    C.Shares (findLoop target outside pos) (findLoop target outside pos) s t := by
  refine coupled_get ?_
  obtain ⟨hs, ht⟩ := C.loops h
  rw [hs, ht]
  refine shares_steady h ?_
  cases C.stack with
  | nil => exact steady_blameNode outside pos
  | cons innermost outer =>
    cases target with
    | error defect => exact steady_fail _
    | ok name =>
      cases name with
      | none => exact steady_pure innermost
      | some name =>
        dsimp only
        split
        · exact steady_pure name
        · exact steady_blameNode _ pos

end Calculations

/-! ### Tracing -/

variable (C) in
/-- Both runs are traced or neither is, and tracing may write. -/
structure Traces : Prop where
  tracing : ∀ {s t}, C.rel s t → s.tracing = t.tracing
  source : ∀ {s t}, C.rel s t → s.source = t.source
  write : ∀ {s t}, C.rel s t → ∀ text, C.rel { s with output := .traced text :: s.output }
    { t with output := .traced text :: t.output }

namespace Traces

variable (hC : C.Traces) (h : C.rel s t)
include hC h

theorem whenTracing {x : Run Unit} (hx : C.Shares x x s t) :
    C.Shares (whenTracing x) (whenTracing x) s t := by
  refine coupled_get ?_
  rw [hC.tracing h]
  split
  · exact hx
  · exact coupled_pure h ()

theorem announce (pos : Option Pos) : C.Shares (announce pos) (announce pos) s t := by
  unfold Run.announce
  split
  · exact shares_steady h (steady_fail _)
  · split
    · exact coupled_pure h ()
    · refine coupled_get ?_
      rw [hC.source h]
      exact .value rfl rfl (hC.write h _)

theorem announceVariable {name : String} (hn : C.sees name) :
    C.Shares (announceVariable name) (announceVariable name) s t := by
  refine (shares_lookup h hn).bind fun value u v _ h => ?_
  refine (shares_steady h (format_steady value)).bind fun text u v _ h => ?_
  exact .value rfl rfl (hC.write h _)

theorem announceEffect {note : Note} (hn : ∀ name, note = .assigned name → C.sees name)
    (value : Value) : C.Shares (announceEffect note value) (announceEffect note value) s t := by
  unfold Run.announceEffect
  split
  · exact hC.announceVariable h (hn _ rfl)
  · exact coupled_pure h ()
  · exact coupled_pure h ()
  · refine (shares_steady h (format_steady _)).bind fun text u v _ h => ?_
    exact .value rfl rfl (hC.write h _)

theorem announceLoop (name : String) (start stop step : Decimal) (showsStep : Bool)
    (pos : Option Pos) : C.Shares (announceLoop name start stop step showsStep pos)
      (announceLoop name start stop step showsStep pos) s t := by
  unfold Run.announceLoop
  split
  · exact shares_steady h (steady_fail _)
  · cases showsStep with
    | true =>
      refine (shares_steady h ((format_steady _).map _)).bind fun stepText u v _ h => ?_
      refine (shares_steady h (format_steady _)).bind fun startText u v _ h => ?_
      refine (shares_steady h (format_steady _)).bind fun stopText u v _ h => ?_
      exact .value rfl rfl (hC.write h _)
    | false =>
      refine (shares_steady h (steady_pure _)).bind fun stepText u v _ h => ?_
      refine (shares_steady h (format_steady _)).bind fun startText u v _ h => ?_
      refine (shares_steady h (format_steady _)).bind fun stopText u v _ h => ?_
      exact .value rfl rfl (hC.write h _)

theorem announcePass {range : Range} (hn : C.sees range.name) (progress : Progress) :
    C.Shares (announcePass range progress) (announcePass range progress) s t := by
  unfold Run.announcePass
  split
  · refine (hC.announceLoop h _ _ _ _ _ _).bind fun _ u v _ h => ?_
    exact hC.announceVariable h hn
  · exact hC.announceVariable h hn

end Traces

end Coupling

end DecimalScript
