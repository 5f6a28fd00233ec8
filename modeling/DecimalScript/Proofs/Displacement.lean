import DecimalScript.Proofs.Precision
import DecimalScript.Proofs.Relocation
import Mathlib

/-! Places play no part in what a program does. If the places in a term are moved, the places
in the errors of its evaluation move with them and so do the line numbers that
tracing writes, and nothing else changes. -/

namespace DecimalScript

/-- The state with the program of another one, whose output comes before its own. -/
def State.beside (s other : State) : State :=
  { s with source := other.source, output := s.output ++ other.output }

def Fault.relocate (σ : Pos → Pos) : Fault → Fault
  | .script cause pos => .script cause (pos.map σ)
  | f => f

def Exit.relocate (σ : Pos → Pos) : Exit → Exit
  | .fault f => .fault (f.relocate σ)
  | e => e

def Range.relocate (σ : Pos → Pos) (range : Range) : Range :=
  { range with pos := range.pos.map σ }

/-- The place whose line tracing shows before the term, or before its first pass. -/
def Term.heading? : Term → Option Pos
  | .traced _ pos _ | .loop _ _ _ _ _ _ pos => pos
  | _ => none

/-- All places that tracing shows are such places. -/
def Term.Heads (P : Pos → Prop) (t : Term) : Prop := ∀ u, Below u t → ∀ p ∈ u.heading?, P p

theorem Term.Heads.child {P : Pos → Prop} {t u : Term} (h : t.Heads P) (hu : u ∈ t.children) :
    u.Heads P := fun w hw => h w (.child hu hw)

/-! ### Runs of one program at two places -/

/-- Two runs of a program whose places are moved in the second. -/
structure Displacement where
  /-- The places of statements and loops in the first, and where a place stands in the second. -/
  live : Pos → Prop
  move : Pos → Pos
  /-- Whether both are traced. -/
  tracing : Bool
  /-- The texts that both show when they are traced. -/
  first : List String
  second : List String
  /-- What was written before the second. -/
  base : List Line
  /-- How the lines of both correspond. -/
  alike : Line → Line → Prop
  printed : ∀ text, alike (.printed text) (.printed text)
  effect : tracing → ∀ text, alike (.traced ("+ " ++ text)) (.traced ("+ " ++ text))
  headed : tracing → ∀ p, live p → ∀ text,
    alike (.traced ("- " ++ Nat.repr p.line ++ ": " ++ text))
      (.traced ("- " ++ Nat.repr (move p).line ++ ": " ++ text))
  placed : tracing → ∀ p, live p → p.line ≠ 0 ∧ (move p).line ≠ 0
  sourced : tracing → ∀ p, live p →
    Run.sourceLine second (move p).line = Run.sourceLine first p.line

structure Displacement.Joins (D : Displacement) (s t : State) : Prop where
  tracing : s.tracing = D.tracing
  source : s.source = D.first
  same : t = { s with source := D.second, output := t.output }
  output : ∃ lines, t.output = lines ++ D.base ∧ List.Forall₂ D.alike s.output lines

/-- What changes neither the program nor the output changes both states alike. -/
theorem Displacement.Joins.apply {D : Displacement} {s t : State} (h : D.Joins s t)
    {f : State → State}
    (hf : ∀ (s : State) source output, f { s with source, output } = { f s with source, output })
    (hk : ∀ s, (f s).tracing = s.tracing ∧ (f s).source = s.source ∧ (f s).output = s.output) :
    D.Joins (f s) (f t) := by
  obtain ⟨htracing, hsource, houtput⟩ := hk s
  have hsame := hf s D.second t.output
  rw [← h.same] at hsame
  obtain ⟨lines, hlines, halike⟩ := h.output
  refine ⟨htracing.trans h.tracing, hsource.trans h.source, ?_, lines, ?_, ?_⟩
  · rw [hsame]
  · rw [hsame, hlines]
  · rwa [houtput]

namespace Run

variable {α β : Type} {limit : Nat} {D : Displacement}

/-- The second calculation does what the first does at the places where it stands. -/
def Relocates (D : Displacement) (x y : Run α) : Prop :=
  ∀ s t : State, D.Joins s t → (y t).1 = (x s).1.mapError (Exit.relocate D.move) ∧
    D.Joins (x s).2 (y t).2

theorem relocates_pure (a : α) : Relocates D (pure a) (pure a) := fun _ _ h => ⟨rfl, h⟩

theorem relocates_fail (fault : Fault) :
    Relocates D (fail fault : Run α) (fail (fault.relocate D.move)) := fun _ _ h => ⟨rfl, h⟩

/-- A fault without a place stays the same. -/
theorem relocates_fixed {fault : Fault} (h : fault.relocate D.move = fault) :
    Relocates D (fail fault : Run α) (fail fault) := by
  have hmoved := relocates_fail (α := α) (D := D) fault
  rwa [h] at hmoved

theorem relocates_signal (signal : Signal) :
    Relocates D (throw (.signal signal) : Run α) (throw (.signal signal)) := fun _ _ h => ⟨rfl, h⟩

theorem relocates_blameAt (cause : Cause) (pos : Pos) :
    Relocates D (blameAt cause pos : Run α) (blameAt cause (D.move pos)) := relocates_fail _

theorem relocates_blameNode (cause : Cause) (pos : Option Pos) :
    Relocates D (blameNode cause pos : Run α) (blameNode cause (pos.map D.move)) := by
  cases pos with
  | none => exact relocates_fixed rfl
  | some pos => exact relocates_blameAt cause pos

theorem Relocates.bind {x y : Run α} {f g : α → Run β} (hx : Relocates D x y)
    (hf : ∀ a, Relocates D (f a) (g a)) : Relocates D (x >>= f) (y >>= g) := by
  intro s t hst
  obtain ⟨hend, hst⟩ := hx s t hst
  rw [bind_apply, bind_apply]
  cases hr : x s with
  | mk r u =>
    cases hq : y t with
    | mk q v =>
      rw [hr, hq] at hend hst
      cases r with
      | error e =>
        cases hend
        exact ⟨rfl, hst⟩
      | ok a =>
        cases hend
        exact hf a u v hst

/-- Of the state a calculation may use all but the program and the output. -/
theorem relocates_get {f g : State → Run α} (h : ∀ s, Relocates D (f s) (g s))
    (hg : ∀ (s : State) source output, g { s with source, output } = g s) :
    Relocates D (get >>= f) (get >>= g) := by
  intro s t hst
  have hrest := h s s t hst
  rw [← hg s D.second t.output, ← hst.same] at hrest
  exact hrest

theorem relocates_modify {f : State → State}
    (hf : ∀ (s : State) source output, f { s with source, output } = { f s with source, output })
    (hk : ∀ s, (f s).tracing = s.tracing ∧ (f s).source = s.source ∧ (f s).output = s.output) :
    Relocates D (modify f : Run Unit) (modify f) :=
  fun _ _ h => ⟨rfl, h.apply hf hk⟩

theorem relocates_setVariable (name : String) (value : Value) :
    Relocates D (setVariable name value) (setVariable name value) :=
  relocates_modify (fun _ _ _ => rfl) fun _ => ⟨rfl, rfl, rfl⟩

theorem relocates_write {line other : Line} (h : D.alike line other) :
    Relocates D (write line) (write other) := by
  intro s t hst
  obtain ⟨lines, hlines, halike⟩ := hst.output
  refine ⟨rfl, hst.tracing, hst.source, ?_, other :: lines, congrArg (other :: ·) hlines,
    .cons h halike⟩
  change { t with output := other :: t.output } = _
  rw [hst.same]
  rfl

/-- Untraced, nothing is announced. -/
theorem whenTracing_of_not_tracing {s : State} (hs : s.tracing = false) (x : Run Unit) :
    whenTracing x s = (.ok (), s) := by
  unfold whenTracing
  rw [bind_apply, get_apply]
  simp only [hs, Bool.false_eq_true, ↓reduceIte]
  rfl

theorem whenTracing_of_tracing {s : State} (hs : s.tracing) (x : Run Unit) :
    whenTracing x s = x s := by
  unfold whenTracing
  rw [bind_apply, get_apply]
  simp only [hs, ↓reduceIte]

theorem relocates_whenTracing {x y : Run Unit} (h : D.tracing → Relocates D x y) :
    Relocates D (whenTracing x) (whenTracing y) := by
  intro s t hst
  have ht : t.tracing = D.tracing := by rw [hst.same, ← hst.tracing]
  cases hD : D.tracing with
  | false =>
    rw [whenTracing_of_not_tracing (hst.tracing.trans hD), whenTracing_of_not_tracing (ht.trans hD)]
    exact ⟨rfl, hst⟩
  | true =>
    rw [whenTracing_of_tracing (hst.tracing.trans hD), whenTracing_of_tracing (ht.trans hD)]
    exact h hD s t hst

theorem relocates_mapM {f g : α → Run β} {items : List α}
    (h : ∀ a ∈ items, Relocates D (f a) (g a)) : Relocates D (items.mapM f) (items.mapM g) := by
  induction items with
  | nil => exact relocates_pure _
  | cons a rest ih =>
    rw [List.mapM_cons, List.mapM_cons]
    refine (h a (by simp)).bind fun b => ?_
    exact (ih fun c hc => h c (by simp [hc])).bind fun _ => relocates_pure _

/-! ### Numbers -/

theorem relocates_decimal (x : Except Decimal.Trap α) : Relocates D (decimal x) (decimal x) := by
  cases x with
  | ok x => exact relocates_pure x
  | error condition => exact relocates_fixed rfl

theorem relocates_toDecimal (v : Value) : Relocates D (toDecimal v) (toDecimal v) := by
  cases v with
  | text | bool => exact relocates_decimal _
  | none | row => exact relocates_fixed rfl
  | _ => exact relocates_pure _

theorem relocates_numeric (usage : Usage) (v : Value) :
    Relocates D (numeric usage v) (numeric usage v) := by
  unfold numeric
  split
  · exact relocates_fixed rfl
  · exact relocates_toDecimal v

theorem relocates_round (x : Decimal) : Relocates D (round x) (round x) :=
  relocates_get (fun _ => relocates_decimal _) fun _ _ _ => rfl

theorem relocates_working (f : Nat → Decimal.Outcome) : Relocates D (working f) (working f) :=
  relocates_get (fun _ => relocates_decimal _) fun _ _ _ => rfl

theorem relocates_rounded (f : Nat → Decimal.Outcome) :
    Relocates D (do round (← working f)) (do round (← working f)) :=
  (relocates_working f).bind fun _ => relocates_round _

theorem relocates_format (v : Value) : Relocates D (format v) (format v) := by
  cases v with
  | decimal d =>
    refine relocates_get (fun s => ?_) fun _ _ _ => rfl
    exact (relocates_decimal _).bind fun _ => relocates_pure _
  | _ => exact relocates_pure _

theorem relocates_div (x y : Decimal) (pos : Option Pos) :
    Relocates D (div x y pos) (div x y (pos.map D.move)) := by
  refine (relocates_decimal _).bind fun isZero => ?_
  cases isZero with
  | true => exact relocates_blameNode _ pos
  | false => exact relocates_rounded _

theorem relocates_mod (x y : Decimal) (pos : Option Pos) :
    Relocates D (mod x y pos) (mod x y (pos.map D.move)) := by
  refine (relocates_decimal _).bind fun isZero => ?_
  cases isZero with
  | true => exact relocates_blameNode _ pos
  | false =>
    refine (relocates_working _).bind fun modulus => (relocates_working _).bind fun quotient => ?_
    refine (relocates_decimal _).bind fun quotient => ?_
    exact (relocates_working _).bind fun multiple => relocates_rounded _

theorem relocates_multiply (op : ProductOp) (x y : Decimal) (pos : Option Pos) :
    Relocates D (multiply op x y pos) (multiply op x y (pos.map D.move)) := by
  cases op with
  | mul => exact relocates_rounded _
  | div => exact relocates_div x y pos
  | mod => exact relocates_mod x y pos

theorem relocates_toInt (x : Decimal) : Relocates D (toInt x) (toInt x) := by
  cases x with
  | finite => exact relocates_pure _
  | infinity | nan => exact relocates_fixed rfl

theorem relocates_toDouble (x : Decimal) : Relocates D (toDouble x) (toDouble x) := by
  unfold toDouble
  split
  · exact relocates_pure _
  · exact relocates_fixed rfl

theorem relocates_doublePower (x y : Binary64) : Relocates D (doublePower x y) (doublePower x y) := by
  unfold doublePower
  split
  · exact relocates_pure _
  all_goals exact relocates_fixed rfl

theorem relocates_pow (x y : Decimal) (pos : Option Pos) :
    Relocates D (pow x y pos) (pow x y (pos.map D.move)) := by
  refine (relocates_decimal _).bind fun isWhole => ?_
  cases isWhole with
  | false =>
    refine (relocates_toDouble x).bind fun base => (relocates_toDouble y).bind fun exponent => ?_
    exact (relocates_doublePower base exponent).bind fun power => relocates_round power
  | true =>
    cases y with
    | infinity negative => exact relocates_blameNode _ pos
    | _ => exact (relocates_toInt _).bind fun n => relocates_rounded _

theorem relocates_compare (x : Decimal) (operator : String) (y : Decimal) :
    Relocates D (compare x operator y) (compare x operator y) := by
  unfold compare
  split
  case h_7 => exact relocates_fixed rfl
  all_goals exact relocates_decimal _

theorem relocates_truth (side : Side) (connective : Connective) (v : Value) :
    Relocates D (truth side connective v) (truth side connective v) := by
  cases v with
  | bool b => exact relocates_pure b
  | _ => exact relocates_fixed rfl

/-! ### Assignments and functions -/

theorem relocates_onNumbers {f g : Decimal → Decimal → Run Decimal}
    (h : ∀ x y, Relocates D (f x y) (g x y)) (current value : Value) :
    Relocates D (onNumbers f current value) (onNumbers g current value) := by
  refine (relocates_numeric _ current).bind fun x => ?_
  exact (relocates_numeric _ value).bind fun y => h x y

theorem relocates_combined (op : AssignOp) (current value : Value) (pos : Option Pos) :
    Relocates D (combined op current value pos) (combined op current value (pos.map D.move)) := by
  cases op with
  | set | add | sub => exact relocates_onNumbers (fun _ _ => relocates_rounded _) current value
  | div => exact relocates_onNumbers (fun x y => relocates_div x y pos) current value
  | mod => exact relocates_onNumbers (fun x y => relocates_mod x y pos) current value
  | other operator => exact relocates_blameNode _ pos

theorem relocates_assign (name : String) (namePos : Pos) (op : AssignOp) (value : Value)
    (pos : Option Pos) :
    Relocates D (assign name namePos op value pos) (assign name (D.move namePos) op value (pos.map D.move)) := by
  unfold assign
  split
  · exact relocates_blameAt _ namePos
  · exact relocates_setVariable name _
  · refine relocates_get (fun s => ?_) fun _ _ _ => rfl
    split
    · exact relocates_blameAt _ namePos
    · exact (relocates_combined op _ _ pos).bind fun x => relocates_setVariable name _

theorem relocates_oneArgument (name : String) (pos : Pos) (items : List Value) :
    Relocates D (oneArgument name pos items) (oneArgument name (D.move pos) items) := by
  unfold oneArgument
  split
  · exact relocates_pure _
  · exact relocates_blameAt _ pos

theorem relocates_elementary (name : String) (f : Binary64.Elementary) (pos : Pos)
    (items : List Value) :
    Relocates D (elementary name f pos items) (elementary name f (D.move pos) items) := by
  refine (relocates_oneArgument name pos items).bind fun item => ?_
  refine (relocates_toDecimal item).bind fun x => (relocates_toDouble x).bind fun x => ?_
  cases f.apply? x with
  | some y => exact (relocates_round _).bind fun _ => relocates_pure _
  | none => exact relocates_blameAt _ pos

theorem relocates_cotangent (pos : Pos) (items : List Value) :
    Relocates D (cotangent pos items) (cotangent (D.move pos) items) := by
  refine (relocates_oneArgument _ pos items).bind fun item => ?_
  refine (relocates_toDecimal item).bind fun x => (relocates_toDouble x).bind fun x => ?_
  cases Binary64.Elementary.tan.apply? x with
  | none => exact relocates_fixed rfl
  | some tangent =>
    cases h : tangent.reciprocal? with
    | none => simpa [h] using relocates_blameAt _ pos
    | some y => simpa [h] using (relocates_round _).bind fun _ => relocates_pure _

theorem relocates_squareRoot (pos : Pos) (items : List Value) :
    Relocates D (squareRoot pos items) (squareRoot (D.move pos) items) := by
  refine (relocates_oneArgument _ pos items).bind fun item => ?_
  refine (relocates_toDecimal item).bind fun x => (relocates_decimal _).bind fun isNegative => ?_
  cases isNegative with
  | true => exact relocates_blameAt _ pos
  | false =>
    refine (relocates_toDouble x).bind fun x => ?_
    cases x.sqrt? with
    | some y => exact (relocates_round _).bind fun _ => relocates_pure _
    | none => exact relocates_fixed rfl

theorem relocates_isEven (n : Decimal) : Relocates D (isEven n) (isEven n) := by
  refine (relocates_decimal _).bind fun isWhole => ?_
  cases isWhole with
  | true => exact (relocates_toInt n).bind fun _ => relocates_pure _
  | false => exact relocates_pure _

theorem relocates_inversePower (x n : Decimal) :
    Relocates D (inversePower x n) (inversePower x n) := by
  refine (relocates_toDouble x).bind fun base => (relocates_toDouble n).bind fun degree => ?_
  cases degree.reciprocal? with
  | none => exact relocates_fixed rfl
  | some exponent =>
    refine (relocates_doublePower base exponent).bind fun power => ?_
    exact (relocates_round power).bind fun _ => relocates_pure _

theorem relocates_root (pos : Pos) (items : List Value) :
    Relocates D (root pos items) (root (D.move pos) items) := by
  unfold root
  split
  · rename_i first second
    refine (relocates_toDecimal first).bind fun x => (relocates_toDecimal second).bind fun n => ?_
    refine (relocates_decimal _).bind fun isZero => ?_
    cases isZero with
    | true => exact relocates_blameAt _ pos
    | false =>
      refine (relocates_isEven n).bind fun isEven => ?_
      cases isEven with
      | false => exact relocates_inversePower x n
      | true =>
        refine (relocates_decimal _).bind fun isNegative => ?_
        cases isNegative with
        | true => exact relocates_blameAt _ pos
        | false => exact relocates_inversePower x n
  · exact relocates_blameAt _ pos

theorem relocates_setPrecision (pos : Pos) (items : List Value) :
    Relocates D (setPrecision pos items) (setPrecision (D.move pos) items) := by
  refine (relocates_oneArgument _ pos items).bind fun item => ?_
  refine (relocates_toDecimal item).bind fun x => (relocates_decimal _).bind fun isWhole => ?_
  cases isWhole with
  | false => exact relocates_blameAt _ pos
  | true =>
    refine (relocates_decimal _).bind fun isNegative => ?_
    cases isNegative with
    | true => exact relocates_blameAt _ pos
    | false =>
      refine relocates_get (fun s => ?_) fun _ _ _ => rfl
      refine (relocates_toInt x).bind fun n => ?_
      refine Relocates.bind (x := modify _) (y := modify _)
        (relocates_modify (fun _ _ _ => rfl) fun _ => ⟨rfl, rfl, rfl⟩) fun _ => ?_
      dsimp only
      split
      · exact relocates_fixed rfl
      · split
        · exact relocates_fixed rfl
        · exact Relocates.bind (x := modify _) (y := modify _)
            (relocates_modify (fun _ _ _ => rfl) fun _ => ⟨rfl, rfl, rfl⟩) fun _ => relocates_pure _

theorem relocates_call (name : String) (pos : Pos) (items : List Value) :
    Relocates D (call name pos items) (call name (D.move pos) items) := by
  unfold call
  split
  · exact relocates_setPrecision pos items
  · refine relocates_get (fun s => ?_) fun _ _ _ => rfl
    exact (relocates_round _).bind fun _ => relocates_pure _
  · exact relocates_elementary _ _ pos items
  · exact relocates_elementary _ _ pos items
  · exact relocates_elementary _ _ pos items
  · exact relocates_elementary _ _ pos items
  · exact relocates_elementary _ _ pos items
  · exact relocates_elementary _ _ pos items
  · exact relocates_cotangent pos items
  · exact relocates_squareRoot pos items
  · exact relocates_root pos items
  · exact relocates_blameAt _ pos

theorem relocates_findLoop (target : Target) (outside : Cause) (pos : Option Pos) :
    Relocates D (findLoop target outside pos) (findLoop target outside (pos.map D.move)) := by
  refine relocates_get (fun s => ?_) fun _ _ _ => rfl
  split
  · exact relocates_blameNode _ pos
  · split
    · exact relocates_fixed rfl
    · exact relocates_pure _
    · split
      · exact relocates_pure _
      · exact relocates_blameNode _ pos

/-! ### Loops -/

theorem joins_endLoop {s t : State} (h : D.Joins s t) (name : String) :
    D.Joins (endLoop name s) (endLoop name t) := by
  refine h.apply (fun s source output => ?_) fun s => ?_
  · obtain ⟨env, places, digits, tracing, old, loops, written⟩ := s
    rcases loops with _ | ⟨top, rest⟩
    · rfl
    · by_cases htop : top = name <;> simp [endLoop, htop]
  · obtain ⟨env, places, digits, tracing, old, loops, written⟩ := s
    rcases loops with _ | ⟨top, rest⟩
    · exact ⟨rfl, rfl, rfl⟩
    · by_cases htop : top = name <;> simp [endLoop, htop]

theorem relocates_insideLoop (name : String) (pos : Option Pos) {x y : Run α}
    (h : Relocates D x y) :
    Relocates D (insideLoop name pos x) (insideLoop name (pos.map D.move) y) := by
  intro s t hst
  have hloops : t.loops = s.loops := by rw [hst.same]
  unfold insideLoop
  rw [hloops]
  by_cases hn : s.loops.contains name
  · rw [if_pos hn, if_pos hn]
    exact relocates_blameNode _ pos s t hst
  · rw [if_neg hn, if_neg hn]
    obtain ⟨hend, hjoins⟩ := h _ _
      (hst.apply (f := fun s => { s with loops := name :: s.loops }) (fun _ _ _ => rfl)
        fun _ => ⟨rfl, rfl, rfl⟩)
    rw [hloops] at hend hjoins
    exact ⟨hend, joins_endLoop hjoins name⟩

theorem relocates_catchSignal {x y : Run α} (h : Relocates D x y) :
    Relocates D (catchSignal x) (catchSignal y) := by
  intro s t hst
  obtain ⟨hend, hst⟩ := h s t hst
  unfold catchSignal
  cases hr : x s with
  | mk r u =>
    cases hq : y t with
    | mk q v =>
      rw [hr, hq] at hend hst
      cases hend
      cases r with
      | ok a => exact ⟨rfl, hst⟩
      | error e => cases e <;> exact ⟨rfl, hst⟩

theorem relocates_lookup (name : String) : Relocates D (lookup name) (lookup name) := by
  refine relocates_get (fun s => ?_) fun _ _ _ => rfl
  split
  · exact relocates_pure _
  · exact relocates_fixed rfl

theorem relocates_loopNumber (name : String) : Relocates D (loopNumber name) (loopNumber name) :=
  (relocates_lookup name).bind fun value => relocates_toDecimal value

/-! ### Tracing -/

section Tracing
variable (hD : D.tracing)
include hD

theorem relocates_announce {pos : Option Pos} (hp : ∀ p ∈ pos, D.live p) :
    Relocates D (announce pos) (announce (pos.map D.move)) := by
  cases pos with
  | none => exact relocates_fixed rfl
  | some pos =>
    have hlive := hp pos rfl
    obtain ⟨hline, hmoved⟩ := D.placed hD pos hlive
    change Relocates D (if pos.line = 0 then pure () else _)
      (if (D.move pos).line = 0 then pure () else _)
    rw [if_neg hline, if_neg hmoved]
    intro s t hst
    have hsource : t.source = D.second := by rw [hst.same]
    have hlines := D.headed hD pos hlive (sourceLine s.source pos.line)
    have hshown := D.sourced hD pos hlive
    rw [← hst.source, ← hsource] at hshown
    nth_rewrite 2 [← hshown] at hlines
    exact relocates_write hlines s t hst

theorem relocates_announceVariable (name : String) :
    Relocates D (announceVariable name) (announceVariable name) := by
  refine (relocates_lookup name).bind fun value => (relocates_format value).bind fun text => ?_
  have hline := D.effect hD (name ++ " = " ++ text)
  rw [← String.append_assoc, ← String.append_assoc] at hline
  exact relocates_write hline

theorem relocates_announceEffect (note : Note) (value : Value) :
    Relocates D (announceEffect note value) (announceEffect note value) := by
  unfold announceEffect
  split
  · exact relocates_announceVariable hD _
  · exact relocates_pure ()
  · exact relocates_pure ()
  · exact (relocates_format _).bind fun text => relocates_write (D.effect hD text)

theorem relocates_announceLoop (name : String) (start stop step : Decimal) (showsStep : Bool)
    {pos : Option Pos} (hp : ∀ p ∈ pos, D.live p) :
    Relocates D (announceLoop name start stop step showsStep pos)
      (announceLoop name start stop step showsStep (pos.map D.move)) := by
  cases pos with
  | none => exact relocates_fixed rfl
  | some pos =>
    have hhead (n stepText startText stopText : String) : "- " ++ n ++ ": " ++
        ("for " ++ name ++ " in " ++ startText ++ " .. " ++ stopText ++ stepText) =
        "- " ++ n ++ ": for " ++ name ++ " in " ++ startText ++ " .. " ++ stopText ++ stepText := by
      have hcolon : ": for " = ": " ++ "for " := rfl
      simp only [hcolon, String.append_assoc]
    have hrest (stepText : String) : Relocates D
        (do write (.traced ("- " ++ Nat.repr pos.line ++ ": for " ++ name ++ " in " ++
          (← format (.decimal start)) ++ " .. " ++ (← format (.decimal stop)) ++ stepText)))
        (do write (.traced ("- " ++ Nat.repr (D.move pos).line ++ ": for " ++ name ++ " in " ++
          (← format (.decimal start)) ++ " .. " ++ (← format (.decimal stop)) ++ stepText))) := by
      refine (relocates_format _).bind fun startText => (relocates_format _).bind fun stopText => ?_
      have hline := D.headed hD pos (hp pos rfl)
        ("for " ++ name ++ " in " ++ startText ++ " .. " ++ stopText ++ stepText)
      rw [hhead, hhead] at hline
      exact relocates_write hline
    cases showsStep with
    | true => exact ((relocates_format _).bind fun _ => relocates_pure _).bind hrest
    | false => exact (relocates_pure _).bind hrest

theorem relocates_announcePass {range : Range} (hp : ∀ p ∈ range.pos, D.live p)
    (progress : Progress) :
    Relocates D (announcePass range progress) (announcePass (range.relocate D.move) progress) := by
  unfold announcePass
  split
  · refine Relocates.bind ?_ fun _ => relocates_announceVariable hD _
    exact relocates_announceLoop hD range.name range.start range.stop range.step range.showsStep hp
  · exact relocates_announceVariable hD _

end Tracing

theorem relocates_pass {name : String} {x y : Run Value} (progress : Progress)
    (h : Relocates D x y) : Relocates D (pass name x progress) (pass name y progress) := by
  refine (relocates_catchSignal h).bind fun outcome => ?_
  cases outcome with
  | inl result => exact (relocates_loopNumber name).bind fun _ => relocates_pure _
  | inr signal =>
    dsimp only
    split
    · refine (relocates_loopNumber name).bind fun _ => ?_
      cases signal <;> exact relocates_pure _
    · exact relocates_signal signal

theorem relocates_passes {range : Range} {up : Bool} {x y : Run Value}
    (hp : ∀ p ∈ range.pos, D.live p) (h : Relocates D x y) (limit : Nat) (progress : Progress) :
    Relocates D (passes range up x limit progress) (passes (range.relocate D.move) up y limit progress) := by
  induction limit generalizing progress with
  | zero => exact fun _ _ hs => ⟨rfl, hs⟩
  | succ limit ih =>
    refine (relocates_loopNumber _).bind fun number => (relocates_decimal _).bind fun isOn => ?_
    cases isOn with
    | false => exact relocates_pure _
    | true =>
      refine (relocates_whenTracing fun hD => relocates_announcePass hD hp progress).bind fun _ => ?_
      refine (relocates_pass progress h).bind fun outcome => ?_
      obtain ⟨progress', left⟩ := outcome
      cases left with
      | true => exact relocates_pure _
      | false =>
        refine Relocates.bind ?_ fun _ => ih progress'
        refine (relocates_loopNumber _).bind fun number => ?_
        exact (relocates_rounded _).bind fun next => relocates_setVariable _ _

theorem relocates_prepare (range : Range) :
    Relocates D (prepare range) (prepare (range.relocate D.move)) := by
  refine (relocates_decimal _).bind fun isZero => ?_
  cases isZero with
  | true => exact relocates_blameNode _ range.pos
  | false =>
    refine relocates_get (fun s => ?_) fun _ _ _ => rfl
    refine (relocates_round _).bind fun first => (relocates_setVariable _ _).bind fun _ => ?_
    exact (relocates_decimal _).bind fun up => relocates_pure _

theorem relocates_settle (name : String) (before : Option Value) (progress : Progress) :
    Relocates D (settle name before progress) (settle name before progress) := by
  unfold settle
  split
  · exact relocates_modify (fun _ _ _ => rfl) fun _ => ⟨rfl, rfl, rfl⟩
  · split <;> exact relocates_setVariable name _

theorem relocates_loopOver {range : Range} {x y : Run Value} (hp : ∀ p ∈ range.pos, D.live p)
    (h : Relocates D x y) :
    Relocates D (loopOver limit range x) (loopOver limit (range.relocate D.move) y) := by
  refine (relocates_prepare range).bind fun first => ?_
  obtain ⟨before, up⟩ := first
  refine (relocates_passes hp h limit {}).bind fun progress => ?_
  exact (relocates_settle _ before progress).bind fun _ => relocates_pure _

/-! ### Terms -/

section Terms
variable {f g : Term → Run Value}

/-- An operand that has to be a number, and what is made of it. -/
theorem Relocates.numeric {x y : Run Value} {usage : Usage} {f g : Decimal → Run α}
    (hx : Relocates D x y) (hf : ∀ a, Relocates D (f a) (g a)) :
    Relocates D (do f (← Run.numeric usage (← x))) (do g (← Run.numeric usage (← y))) :=
  hx.bind fun value => (relocates_numeric usage value).bind hf

theorem relocates_links {first : Term} {operators : List String} {rest : List Term}
    (hf : Relocates D (f first) (g (first.relocate D.move)))
    (hr : ∀ item ∈ rest, Relocates D (f item) (g (item.relocate D.move))) :
    Relocates D (linksBy f first operators rest)
      (linksBy g (first.relocate D.move) operators (rest.map (Term.relocate D.move))) := by
  induction operators generalizing first rest with
  | nil => simpa only [linksBy] using relocates_pure true
  | cons operator operators ih =>
    cases rest with
    | nil => exact relocates_pure true
    | cons right rest =>
      have hright := hr right (by simp)
      refine hf.numeric fun x => hright.numeric fun y => ?_
      refine (relocates_compare x operator y).bind fun holds => ?_
      cases holds with
      | true => exact ih hright fun item hi => hr item (by simp [hi])
      | false => exact relocates_pure false

theorem relocates_sequence {items : List Term}
    (h : ∀ item ∈ items, Relocates D (f item) (g (item.relocate D.move))) (value : Value) :
    Relocates D (items.foldlM (fun _ item => f item) value)
      ((items.map (Term.relocate D.move)).foldlM (fun _ item => g item) value) := by
  induction items generalizing value with
  | nil => exact relocates_pure _
  | cons item rest ih =>
    rw [List.map_cons, List.foldlM_cons, List.foldlM_cons]
    exact (h item (by simp)).bind fun value => ih (fun other ho => h other (by simp [ho])) value

theorem relocates_all {items : List Term}
    (h : ∀ item ∈ items, Relocates D (f item) (g (item.relocate D.move))) :
    Relocates D (items.mapM f) ((items.map (Term.relocate D.move)).mapM g) := by
  rw [List.mapM_map]
  exact relocates_mapM h

theorem relocates_quoted (literal : String) :
    Relocates D (evalBy limit f (.quoted literal)) (evalBy limit g (.quoted literal)) := by
  change Relocates D (eval limit (.quoted literal)) (eval limit (.quoted literal))
  rw [eval]
  split
  · exact relocates_pure _
  · exact relocates_fixed rfl

theorem relocates_var (name : String) (pos : Pos) :
    Relocates D (evalBy limit f (.var name pos)) (evalBy limit g (.var name (D.move pos))) := by
  refine relocates_get (fun s => ?_) fun _ _ _ => rfl
  split
  · exact relocates_pure _
  · exact relocates_blameAt _ pos

variable {pos : Option Pos}

theorem relocates_traced {note : Note} {item other : Term} (hp : ∀ p ∈ pos, D.live p)
    (h : Relocates D (f item) (g other)) :
    Relocates D (evalBy limit f (.traced note pos item))
      (evalBy limit g (.traced note (pos.map D.move) other)) := by
  refine (relocates_whenTracing fun hD => relocates_announce hD hp).bind fun _ => ?_
  refine h.bind fun value => (relocates_whenTracing fun hD => ?_).bind fun _ => relocates_pure _
  exact relocates_announceEffect hD note value

theorem relocates_assignTerm {name : String} {namePos : Pos} {op : Except Defect AssignOp}
    {item other : Term} (h : Relocates D (f item) (g other)) :
    Relocates D (evalBy limit f (.assign name namePos op item pos))
      (evalBy limit g (.assign name (D.move namePos) op other (pos.map D.move))) := by
  refine h.bind fun value => ?_
  cases op with
  | error defect => exact relocates_fixed rfl
  | ok op => exact (relocates_assign name namePos op value pos).bind fun _ => relocates_pure _

theorem relocates_leave {target : Target} {guard result guard' result' : Term}
    (hg : Relocates D (f guard) (g guard')) (hr : Relocates D (f result) (g result')) :
    Relocates D (evalBy limit f (.leave target guard result pos))
      (evalBy limit g (.leave target guard' result' (pos.map D.move))) := by
  refine (relocates_findLoop target _ pos).bind fun name => hg.bind fun value => ?_
  split
  · exact hr.bind fun _ => relocates_signal _
  · exact relocates_pure _

theorem relocates_skip {target : Target} {guard guard' : Term}
    (hg : Relocates D (f guard) (g guard')) :
    Relocates D (evalBy limit f (.skip target guard pos))
      (evalBy limit g (.skip target guard' (pos.map D.move))) := by
  refine (relocates_findLoop target _ pos).bind fun name => hg.bind fun value => ?_
  split
  · exact relocates_signal _
  · exact relocates_pure _

theorem relocates_loop {name : String} {start stop step body : Term} {showsStep : Bool}
    (hp : ∀ p ∈ pos, D.live p)
    (h : ∀ u ∈ [start, stop, step, body], Relocates D (f u) (g (u.relocate D.move))) :
    Relocates D (evalBy limit f (.loop name start stop step showsStep body pos))
      (evalBy limit g ((Term.loop name start stop step showsStep body pos).relocate D.move)) := by
  have hmoved : (Term.loop name start stop step showsStep body pos).relocate D.move =
      .loop name (start.relocate D.move) (stop.relocate D.move) (step.relocate D.move) showsStep
        (body.relocate D.move) (pos.map D.move) := rfl
  rw [hmoved, evalBy, evalBy]
  refine relocates_insideLoop name pos ?_
  refine (h start (by simp)).numeric fun first => (h stop (by simp)).numeric fun last => ?_
  exact (h step (by simp)).numeric fun width => relocates_loopOver hp (h body (by simp))

theorem relocates_print {items : List Term}
    (h : ∀ item ∈ items, Relocates D (f item) (g (item.relocate D.move))) :
    Relocates D (evalBy limit f (.print items))
      (evalBy limit g (.print (items.map (Term.relocate D.move)))) := by
  refine (relocates_all h).bind fun values => Relocates.bind ?_ fun _ => relocates_pure _
  exact (relocates_mapM fun value _ => relocates_format value).bind fun _ =>
    relocates_write (D.printed _)

theorem relocates_sum {minus : Bool} {left right left' right' : Term}
    (hl : Relocates D (f left) (g left')) (hr : Relocates D (f right) (g right')) :
    Relocates D (evalBy limit f (.sum minus left right))
      (evalBy limit g (.sum minus left' right')) := by
  refine hl.numeric fun x => hr.numeric fun y => ?_
  cases minus <;> exact (relocates_rounded _).bind fun _ => relocates_pure _

theorem relocates_product {op : ProductOp} {left right left' right' : Term}
    (hl : Relocates D (f left) (g left')) (hr : Relocates D (f right) (g right')) :
    Relocates D (evalBy limit f (.product op left right pos))
      (evalBy limit g (.product op left' right' (pos.map D.move))) := by
  refine hl.bind fun value => (relocates_toDecimal value).bind fun x => hr.numeric fun y => ?_
  exact (relocates_multiply op x y pos).bind fun _ => relocates_pure _

theorem relocates_power {base exponent base' exponent' : Term}
    (hb : Relocates D (f base) (g base')) (he : Relocates D (f exponent) (g exponent')) :
    Relocates D (evalBy limit f (.power base exponent pos))
      (evalBy limit g (.power base' exponent' (pos.map D.move))) :=
  hb.numeric fun x => he.numeric fun y => (relocates_pow x y pos).bind fun _ => relocates_pure _

theorem relocates_signed {minus : Bool} {item other : Term} (h : Relocates D (f item) (g other)) :
    Relocates D (evalBy limit f (.signed minus item)) (evalBy limit g (.signed minus other)) := by
  refine h.numeric fun x => ?_
  cases minus with
  | true => exact (relocates_rounded _).bind fun _ => relocates_pure _
  | false => exact relocates_pure _

theorem relocates_conditional {condition holds otherwise condition' holds' otherwise' : Term}
    (hc : Relocates D (f condition) (g condition')) (hh : Relocates D (f holds) (g holds'))
    (ho : Relocates D (f otherwise) (g otherwise')) :
    Relocates D (evalBy limit f (.conditional condition holds otherwise))
      (evalBy limit g (.conditional condition' holds' otherwise')) := by
  refine hc.bind fun value => ?_
  split
  · exact hh
  · exact ho
  · exact relocates_fixed rfl

theorem relocates_connected {connective : Connective} {left right left' right' : Term}
    (hl : Relocates D (f left) (g left')) (hr : Relocates D (f right) (g right')) :
    Relocates D (evalBy limit f (.connected connective left right))
      (evalBy limit g (.connected connective left' right')) := by
  refine hl.bind fun value => (relocates_truth _ _ value).bind fun first => ?_
  split
  · exact relocates_pure _
  · exact hr.bind fun value => (relocates_truth _ _ value).bind fun _ => relocates_pure _

theorem relocates_negated {item other : Term} (h : Relocates D (f item) (g other)) :
    Relocates D (evalBy limit f (.negated item)) (evalBy limit g (.negated other)) := by
  refine h.bind fun value => ?_
  split
  · exact relocates_pure _
  · exact relocates_fixed rfl

/-- One layer of an evaluation is moved by moving the term and what stands below it. -/
theorem relocates_evalBy {t : Term} (hp : ∀ p ∈ t.heading?, D.live p)
    (h : ∀ u ∈ t.children, Relocates D (f u) (g (u.relocate D.move))) :
    Relocates D (evalBy limit f t) (evalBy limit g (t.relocate D.move)) := by
  cases t with
  | constant value => exact relocates_pure value
  | exactNumber text => exact (relocates_decimal _).bind fun _ => relocates_pure _
  | number text =>
    refine (relocates_decimal _).bind fun x => ?_
    exact (relocates_round x).bind fun _ => relocates_pure _
  | quoted literal => exact relocates_quoted literal
  | var name pos => exact relocates_var name pos
  | sequence items =>
    rw [Term.relocate_sequence]
    exact relocates_sequence h _
  | traced note pos item => exact relocates_traced hp (h item (by simp [Term.children]))
  | assign name namePos op value pos =>
    exact relocates_assignTerm (h value (by simp [Term.children]))
  | leave target guard result pos =>
    exact relocates_leave (h guard (by simp [Term.children])) (h result (by simp [Term.children]))
  | skip target guard pos => exact relocates_skip (h guard (by simp [Term.children]))
  | loop name start stop step showsStep body pos => exact relocates_loop hp h
  | print items =>
    rw [Term.relocate_print]
    exact relocates_print h
  | row items =>
    rw [Term.relocate_row]
    exact (relocates_all h).bind fun _ => relocates_pure _
  | numeric usage item => exact (h item (by simp [Term.children])).numeric fun _ => relocates_pure _
  | unwrapped item =>
    refine (h item (by simp [Term.children])).bind fun value => ?_
    exact (relocates_toDecimal value).bind fun _ => relocates_pure _
  | sum minus left right =>
    exact relocates_sum (h left (by simp [Term.children])) (h right (by simp [Term.children]))
  | product op left right pos =>
    exact relocates_product (h left (by simp [Term.children])) (h right (by simp [Term.children]))
  | power base exponent pos =>
    exact relocates_power (h base (by simp [Term.children])) (h exponent (by simp [Term.children]))
  | signed minus item => exact relocates_signed (h item (by simp [Term.children]))
  | call name pos items =>
    rw [Term.relocate_call]
    exact (relocates_all h).bind fun values => relocates_call name pos values
  | conditional condition holds otherwise =>
    exact relocates_conditional (h condition (by simp [Term.children]))
      (h holds (by simp [Term.children])) (h otherwise (by simp [Term.children]))
  | boolean connective item =>
    refine (h item (by simp [Term.children])).bind fun value => ?_
    exact (relocates_truth _ _ value).bind fun _ => relocates_pure _
  | connected connective left right =>
    exact relocates_connected (h left (by simp [Term.children])) (h right (by simp [Term.children]))
  | negated item => exact relocates_negated (h item (by simp [Term.children]))
  | comparison first operators rest =>
    rw [Term.relocate_comparison]
    obtain ⟨hfirst, hrest⟩ := List.forall_mem_cons.mp h
    exact (relocates_links hfirst hrest).bind fun _ => relocates_pure _
  | unsupported name => exact relocates_fixed rfl
  | malformed defect => exact relocates_fixed rfl

end Terms

/-- A term whose places are moved is evaluated as before, and its errors have moved places. -/
theorem relocates_eval (limit : Nat) {t : Term} (ht : t.Heads D.live) :
    Relocates D (eval limit t) (eval limit (t.relocate D.move)) := by
  induction t using Term.children_induction with
  | step t ih =>
    rw [← evalBy_eval, ← evalBy_eval]
    exact relocates_evalBy (ht t .here) fun u hu => ih u hu (ht.child hu)

end Run

/-! ### Runs that write the same lines -/

namespace Run

/-- If the lines of both are the same, the second calculation does the same behind other output. -/
theorem Relocates.beside {α : Type} {D : Displacement} {x y : Run α} (h : Relocates D x y)
    (hD : D.alike = Eq) {s : State} (ht : s.tracing = D.tracing) (hs : s.source = D.first) :
    y (s.beside { source := D.second, output := D.base }) =
      ((x s).1.mapError (Exit.relocate D.move),
        (x s).2.beside { source := D.second, output := D.base }) := by
  have hjoins : D.Joins s (s.beside { source := D.second, output := D.base }) :=
    ⟨ht, hs, rfl, s.output, rfl, List.forall₂_same.mpr fun _ _ => hD ▸ rfl⟩
  obtain ⟨hend, hjoins⟩ := h s _ hjoins
  obtain ⟨lines, hlines, halike⟩ := hjoins.output
  rw [hD, List.forall₂_eq_eq_eq] at halike
  subst halike
  refine Prod.ext hend (hjoins.same.trans ?_)
  rw [hlines]
  rfl

end Run

theorem Line.printed_self (text : String) : Line.printed text = .printed text := rfl

/-- An untraced run of a program, and one beside another program and behind its output. -/
def Displacement.untraced (σ : Pos → Pos) (source : List String) (other : State) : Displacement where
  live _ := True
  move := σ
  tracing := false
  first := source
  second := other.source
  base := other.output
  alike := Eq
  printed := Line.printed_self
  effect h := (Bool.false_ne_true h).elim
  headed h := (Bool.false_ne_true h).elim
  placed h := (Bool.false_ne_true h).elim
  sourced h := (Bool.false_ne_true h).elim

/-- Untraced, a term at another place does the same, whatever program stands beside the state and
whatever was written before. -/
theorem Run.eval_relocate (σ : Pos → Pos) (limit : Nat) (t : Term) {s : State}
    (hs : s.tracing = false) (other : State) : eval limit (t.relocate σ) (s.beside other) =
      ((eval limit t s).1.mapError (Exit.relocate σ), (eval limit t s).2.beside other) :=
  (relocates_eval (D := .untraced σ s.source other) limit fun _ _ _ _ => trivial).beside rfl hs rfl

end DecimalScript
