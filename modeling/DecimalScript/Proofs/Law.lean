import DecimalScript.Proofs.Layer
import DecimalScript.Proofs.Origin
import Mathlib

/-! Laws of calculations. A law holds of the single steps and passes on to what is put together of
them; so it holds of every evaluation, as soon as it admits the errors that the terms
of a program make at their places. -/

namespace DecimalScript

/-! ### The errors of terms -/

/-- The errors that the call of a function can end with at its own place. -/
def functionCauses (name : String) : List Cause :=
  match name with
  | "set_precision" => [.arity name 1, .precisionArgument]
  | "get_precision" => []
  | "ln" | "log2" | "log10" | "sin" | "cos" | "tg" => [.arity name 1, .functionDomain]
  | "ctg" => [.arity name 1, .cotangentByZero]
  | "sqrt" => [.arity name 1, .rootDomain name]
  | "nrt" => [.arity name 2, .rootByZero, .rootDomain name]
  | name => [.unknownFunction name]

/-- The errors that a term can end with at a place of its own, apart from those of the terms
below it. -/
inductive Term.Blames : Term → Cause → Pos → Prop
  | unbound {name pos} : Blames (.var name pos) (.unbound name) pos
  | unassigned {name namePos op value pos} :
    Blames (.assign name namePos op value pos) (.unbound name) namePos
  | boolean {name namePos op value pos} :
    Blames (.assign name namePos op value pos) (.booleanAssigned name) namePos
  | dividedInto {name namePos value pos} :
    Blames (.assign name namePos (.ok .div) value (some pos)) .divisionByZero pos
  | reducedInto {name namePos value pos} :
    Blames (.assign name namePos (.ok .mod) value (some pos)) .modByZero pos
  | otherwise {name namePos operator value pos} :
    Blames (.assign name namePos (.ok (.other operator)) value (some pos))
      (.unsupportedAssignment operator) pos
  | leaveOutside {target guard result pos} :
    Blames (.leave target guard result (some pos)) .breakOutsideLoop pos
  | leaveOther {name guard result pos} :
    Blames (.leave (.ok (some name)) guard result (some pos)) (.loopNotFound name) pos
  | skipOutside {target guard pos} : Blames (.skip target guard (some pos)) .nextOutsideLoop pos
  | skipOther {name guard pos} :
    Blames (.skip (.ok (some name)) guard (some pos)) (.loopNotFound name) pos
  | inUse {name start stop step showsStep body pos} :
    Blames (.loop name start stop step showsStep body (some pos)) (.loopVariableInUse name) pos
  | zeroStep {name start stop step showsStep body pos} :
    Blames (.loop name start stop step showsStep body (some pos)) .zeroStep pos
  | divided {left right pos} : Blames (.product .div left right (some pos)) .divisionByZero pos
  | reduced {left right pos} : Blames (.product .mod left right (some pos)) .modByZero pos
  | raised {base exponent pos} : Blames (.power base exponent (some pos)) .infiniteExponent pos
  | call {name pos items cause} (h : cause ∈ functionCauses name) :
    Blames (.call name pos items) cause pos

namespace Run

/-- A law that calculations obey if their parts do. The errors that are made at places have to be
among those that it admits. -/
structure Law where
  Obeys : {α : Type} → Run α → Prop
  admits : Cause → Pos → Prop
  pure {α : Type} (a : α) : Obeys (pure a : Run α)
  bind {α β : Type} {x : Run α} {f : α → Run β} (hx : Obeys x) (hf : ∀ a, Obeys (f a)) :
    Obeys (x >>= f)
  get : Obeys (get : Run State)
  exit {α : Type} {e : Exit}
    (h : ∀ cause pos, e = .fault (.script cause (some pos)) → admits cause pos) :
    Obeys (throw e : Run α)

/-- A law that the steps obey which change a state. -/
structure Regime extends Law where
  write (line : Line) : Obeys (write line)
  setVariable (name : String) (value : Value) : Obeys (setVariable name value)
  eraseVariable (name : String) : Obeys (eraseVariable name)
  setPrecision {pos : Pos} (harity : admits (.arity "set_precision" 1) pos)
    (hvalue : admits .precisionArgument pos) (items : List Value) : Obeys (setPrecision pos items)
  insideLoop {α : Type} {name : String} {pos : Option Pos} {run : Run α}
    (hpos : ∀ p, pos = some p → admits (.loopVariableInUse name) p) (h : Obeys run) :
    Obeys (insideLoop name pos run)
  catchSignal {α : Type} {run : Run α} (h : Obeys run) : Obeys (catchSignal run)

namespace Law

variable {α β : Type} (L : Law) {f : Term → Run Value}

/-! ### Numbers -/

/-- A fault that is no error of the program, or has no place. -/
theorem fail {fault : Fault} (h : ∀ cause pos, fault ≠ .script cause (some pos)) :
    L.Obeys (Run.fail fault : Run α) :=
  L.exit fun cause pos heq => absurd (Exit.fault.inj heq) (h cause pos)

theorem blame (cause : Cause) : L.Obeys (Run.blame cause : Run α) := L.fail (by simp)

theorem blameAt {cause : Cause} {pos : Pos} (h : L.admits cause pos) :
    L.Obeys (Run.blameAt cause pos : Run α) := by
  refine L.exit fun cause' pos' heq => ?_
  cases heq
  exact h

theorem blameNode {cause : Cause} {pos : Option Pos} (h : ∀ p, pos = some p → L.admits cause p) :
    L.Obeys (Run.blameNode cause pos : Run α) := by
  cases pos with
  | none => exact L.fail (by simp)
  | some p => exact L.blameAt (h p rfl)

theorem decimal (x : Except Decimal.Trap α) : L.Obeys (Run.decimal x) := by
  cases x with
  | ok x => exact L.pure x
  | error condition => exact L.fail (by simp)

theorem toDecimal (value : Value) : L.Obeys (Run.toDecimal value) := by
  cases value with
  | text | bool => exact L.decimal _
  | none | row => exact L.blame _
  | _ => exact L.pure _

theorem numeric (usage : Usage) (value : Value) : L.Obeys (Run.numeric usage value) := by
  unfold Run.numeric
  split
  · exact L.blame _
  · exact L.toDecimal value

theorem round (x : Decimal) : L.Obeys (Run.round x) := L.bind L.get fun _ => L.decimal _

theorem working (g : Nat → Decimal.Outcome) : L.Obeys (Run.working g) :=
  L.bind L.get fun _ => L.decimal _

theorem rounded (g : Nat → Decimal.Outcome) : L.Obeys (do Run.round (← Run.working g)) :=
  L.bind (L.working g) L.round

theorem format (value : Value) : L.Obeys (Run.format value) := by
  cases value with
  | decimal d => exact L.bind L.get fun _ => L.bind (L.decimal _) fun _ => L.pure _
  | _ => exact L.pure _

theorem div {pos : Option Pos} (h : ∀ p, pos = some p → L.admits .divisionByZero p)
    (x y : Decimal) : L.Obeys (Run.div x y pos) := by
  refine L.bind (L.decimal _) fun isZero => ?_
  cases isZero with
  | true => exact L.blameNode h
  | false => exact L.rounded _

theorem mod {pos : Option Pos} (h : ∀ p, pos = some p → L.admits .modByZero p)
    (x y : Decimal) : L.Obeys (Run.mod x y pos) := by
  refine L.bind (L.decimal _) fun isZero => ?_
  cases isZero with
  | true => exact L.blameNode h
  | false =>
    refine L.bind (L.working _) fun modulus => L.bind (L.working _) fun quotient => ?_
    refine L.bind (L.decimal _) fun quotient => ?_
    exact L.bind (L.working _) fun multiple => L.rounded _

theorem toInt (x : Decimal) : L.Obeys (Run.toInt x) := by
  cases x with
  | finite => exact L.pure _
  | infinity | nan => exact L.fail (by simp)

theorem toDouble (x : Decimal) : L.Obeys (Run.toDouble x) := by
  unfold Run.toDouble
  split
  · exact L.pure _
  · exact L.fail (by simp)

theorem doublePower (x y : Binary64) : L.Obeys (Run.doublePower x y) := by
  unfold Run.doublePower
  split
  · exact L.pure _
  all_goals exact L.fail (by simp)

theorem pow {pos : Option Pos} (h : ∀ p, pos = some p → L.admits .infiniteExponent p)
    (x y : Decimal) : L.Obeys (Run.pow x y pos) := by
  refine L.bind (L.decimal _) fun isWhole => ?_
  cases isWhole with
  | false =>
    refine L.bind (L.toDouble x) fun base => L.bind (L.toDouble y) fun exponent => ?_
    exact L.bind (L.doublePower base exponent) L.round
  | true =>
    cases y with
    | infinity negative => exact L.blameNode h
    | _ => exact L.bind (L.toInt _) fun n => L.rounded _

theorem compare (x : Decimal) (operator : String) (y : Decimal) :
    L.Obeys (Run.compare x operator y) := by
  unfold Run.compare
  split
  case h_7 => exact L.blame _
  all_goals exact L.decimal _

theorem truth (side : Side) (connective : Connective) (value : Value) :
    L.Obeys (Run.truth side connective value) := by
  cases value with
  | bool b => exact L.pure b
  | _ => exact L.blame _

/-! ### Functions -/

theorem oneArgument {name : String} {pos : Pos} (h : L.admits (.arity name 1) pos)
    (items : List Value) : L.Obeys (Run.oneArgument name pos items) := by
  unfold Run.oneArgument
  split
  · exact L.pure _
  · exact L.blameAt h

theorem elementary {name : String} {pos : Pos} (ha : L.admits (.arity name 1) pos)
    (hd : L.admits .functionDomain pos) (g : Binary64.Elementary) (items : List Value) :
    L.Obeys (Run.elementary name g pos items) := by
  refine L.bind (L.oneArgument ha items) fun item => L.bind (L.toDecimal item) fun x => ?_
  refine L.bind (L.toDouble x) fun x => ?_
  cases g.apply? x with
  | some y => exact L.bind (L.round _) fun _ => L.pure _
  | none => exact L.blameAt hd

theorem cotangent {pos : Pos} (ha : L.admits (.arity "ctg" 1) pos)
    (hd : L.admits .cotangentByZero pos) (items : List Value) :
    L.Obeys (Run.cotangent pos items) := by
  refine L.bind (L.oneArgument ha items) fun item => L.bind (L.toDecimal item) fun x => ?_
  refine L.bind (L.toDouble x) fun x => ?_
  cases Binary64.Elementary.tan.apply? x with
  | none => exact L.fail (by simp)
  | some tangent =>
    cases h : tangent.reciprocal? with
    | none => simpa [h] using L.blameAt hd
    | some y => simpa [h] using L.bind (L.round _) fun _ => L.pure _

theorem squareRoot {pos : Pos} (ha : L.admits (.arity "sqrt" 1) pos)
    (hd : L.admits (.rootDomain "sqrt") pos) (items : List Value) :
    L.Obeys (Run.squareRoot pos items) := by
  refine L.bind (L.oneArgument ha items) fun item => L.bind (L.toDecimal item) fun x => ?_
  refine L.bind (L.decimal _) fun isNegative => ?_
  cases isNegative with
  | true => exact L.blameAt hd
  | false =>
    refine L.bind (L.toDouble x) fun x => ?_
    cases x.sqrt? with
    | some y => exact L.bind (L.round _) fun _ => L.pure _
    | none => exact L.fail (by simp)

theorem isEven (n : Decimal) : L.Obeys (Run.isEven n) := by
  refine L.bind (L.decimal _) fun isWhole => ?_
  cases isWhole with
  | true => exact L.bind (L.toInt n) fun _ => L.pure _
  | false => exact L.pure _

theorem inversePower (x n : Decimal) : L.Obeys (Run.inversePower x n) := by
  refine L.bind (L.toDouble x) fun base => L.bind (L.toDouble n) fun degree => ?_
  cases degree.reciprocal? with
  | none => exact L.fail (by simp)
  | some exponent =>
    exact L.bind (L.doublePower base exponent) fun power => L.bind (L.round power) fun _ => L.pure _

theorem root {pos : Pos} (h : ∀ cause ∈ functionCauses "nrt", L.admits cause pos)
    (items : List Value) : L.Obeys (Run.root pos items) := by
  unfold Run.root
  split
  · rename_i first second
    refine L.bind (L.toDecimal first) fun x => L.bind (L.toDecimal second) fun n => ?_
    refine L.bind (L.decimal _) fun isZero => ?_
    cases isZero with
    | true => exact L.blameAt (h _ (by simp [functionCauses]))
    | false =>
      refine L.bind (L.isEven n) fun isEven => ?_
      cases isEven with
      | false => exact L.inversePower x n
      | true =>
        refine L.bind (L.decimal _) fun isNegative => ?_
        cases isNegative with
        | true => exact L.blameAt (h _ (by simp [functionCauses]))
        | false => exact L.inversePower x n
  · exact L.blameAt (h _ (by simp [functionCauses]))

/-! ### Variables and loops -/

theorem lookup (name : String) : L.Obeys (Run.lookup name) := by
  refine L.bind L.get fun s => ?_
  split
  · exact L.pure _
  · exact L.fail (by simp)

theorem onNumbers {g : Decimal → Decimal → Run Decimal} (h : ∀ x y, L.Obeys (g x y))
    (current value : Value) : L.Obeys (Run.onNumbers g current value) :=
  L.bind (L.numeric _ current) fun x => L.bind (L.numeric _ value) fun y => h x y

theorem loopNumber (name : String) : L.Obeys (Run.loopNumber name) :=
  L.bind (L.lookup name) L.toDecimal

theorem throwSignal (signal : Signal) : L.Obeys (throw (.signal signal) : Run α) :=
  L.exit (by simp)

theorem findLoop {target : Target} {outside : Cause} {pos : Option Pos}
    (hout : ∀ p, pos = some p → L.admits outside p)
    (hname : ∀ name p, target = .ok (some name) → pos = some p → L.admits (.loopNotFound name) p) :
    L.Obeys (Run.findLoop target outside pos) := by
  refine L.bind L.get fun s => ?_
  split
  · exact L.blameNode hout
  · split
    · exact L.fail (by simp)
    · exact L.pure _
    · split
      · exact L.pure _
      · exact L.blameNode fun p hp => hname _ p rfl hp

/-! ### Operands -/

/-- An operand that has to be a number, and what is made of it. -/
theorem operand {x : Run Value} {usage : Usage} {g : Decimal → Run α} (hx : L.Obeys x)
    (hg : ∀ a, L.Obeys (g a)) : L.Obeys (do g (← Run.numeric usage (← x))) :=
  L.bind hx fun value => L.bind (L.numeric usage value) hg

theorem mapM {γ : Type} {g : γ → Run β} {items : List γ} (h : ∀ item ∈ items, L.Obeys (g item)) :
    L.Obeys (items.mapM g) := by
  induction items with
  | nil => exact L.pure _
  | cons item rest ih =>
    rw [List.mapM_cons]
    refine L.bind (h item (by simp)) fun value => ?_
    exact L.bind (ih fun other ho => h other (by simp [ho])) fun values => L.pure _

theorem links {first : Term} {operators : List String} {rest : List Term} (hf : L.Obeys (f first))
    (hr : ∀ item ∈ rest, L.Obeys (f item)) : L.Obeys (linksBy f first operators rest) := by
  induction operators generalizing first rest with
  | nil => simpa only [linksBy] using L.pure true
  | cons operator operators ih =>
    cases rest with
    | nil => simpa only [linksBy] using L.pure true
    | cons right rest =>
      have hright := hr right (by simp)
      refine L.operand hf fun x => L.operand hright fun y => ?_
      refine L.bind (L.compare x operator y) fun holds => ?_
      cases holds with
      | true => exact ih hright fun item hi => hr item (by simp [hi])
      | false => exact L.pure false

theorem sequence {items : List Term} (h : ∀ item ∈ items, L.Obeys (f item)) (value : Value) :
    L.Obeys (items.foldlM (fun _ item => f item) value) := by
  induction items generalizing value with
  | nil => exact L.pure _
  | cons item rest ih =>
    rw [List.foldlM_cons]
    exact L.bind (h item (by simp)) fun value => ih (fun other ho => h other (by simp [ho])) value

end Law

namespace Regime

variable {α : Type} (L : Regime) {limit : Nat} {f : Term → Run Value}

/-- A call makes no errors at its place but those of its function. -/
theorem call {name : String} {pos : Pos} (h : ∀ cause ∈ functionCauses name, L.admits cause pos)
    (items : List Value) : L.Obeys (Run.call name pos items) := by
  unfold Run.call
  split
  case h_1 => exact L.setPrecision (h _ (.head _)) (h _ (.tail _ (.head _))) items
  case h_2 => exact L.bind L.get fun _ => L.bind (L.round _) fun _ => L.pure _
  case h_9 => exact L.cotangent (h _ (.head _)) (h _ (.tail _ (.head _))) items
  case h_10 => exact L.squareRoot (h _ (.head _)) (h _ (.tail _ (.head _))) items
  case h_11 => exact L.root h items
  case h_12 h₁ h₂ h₃ h₄ h₅ h₆ h₇ h₈ h₉ h₁₀ h₁₁ =>
    refine L.blameAt (h _ ?_)
    unfold functionCauses
    split <;> simp_all
  all_goals exact L.elementary (h _ (.head _)) (h _ (.tail _ (.head _))) _ items

/-! ### Output -/

theorem whenTracing {run : Run Unit} (h : L.Obeys run) : L.Obeys (Run.whenTracing run) := by
  refine L.bind L.get fun s => ?_
  split
  · exact h
  · exact L.pure ()

theorem announce (pos : Option Pos) : L.Obeys (Run.announce pos) := by
  unfold Run.announce
  split
  · exact L.fail (by simp)
  · split
    · exact L.pure ()
    · exact L.bind L.get fun _ => L.write _

theorem announceVariable (name : String) : L.Obeys (Run.announceVariable name) :=
  L.bind (L.lookup name) fun value => L.bind (L.format value) fun _ => L.write _

theorem announceEffect (note : Note) (value : Value) : L.Obeys (Run.announceEffect note value) := by
  unfold Run.announceEffect
  split
  · exact L.announceVariable _
  · exact L.pure ()
  · exact L.pure ()
  · exact L.bind (L.format _) fun _ => L.write _

theorem announceLoop (name : String) (start stop step : Decimal) (showsStep : Bool)
    (pos : Option Pos) : L.Obeys (Run.announceLoop name start stop step showsStep pos) := by
  unfold Run.announceLoop
  split
  · exact L.fail (by simp)
  · have hrest (g : String → String → Line) : L.Obeys (do
        let startText ← Run.format (.decimal start)
        let stopText ← Run.format (.decimal stop)
        Run.write (g startText stopText)) :=
      L.bind (L.format _) fun _ => L.bind (L.format _) fun _ => L.write _
    dsimp only
    split
    · rw [map_eq_pure_bind]
      exact L.bind (L.bind (L.format _) fun _ => L.pure _) fun _ => hrest _
    · exact L.bind (L.pure _) fun _ => hrest _

theorem printValues (values : List Value) : L.Obeys (Run.printValues values) :=
  L.bind (L.mapM fun value _ => L.format value) fun _ => L.write _

/-! ### Loops -/

theorem announcePass (range : Range) (progress : Progress) :
    L.Obeys (Run.announcePass range progress) := by
  unfold Run.announcePass
  split
  · exact L.bind (L.announceLoop _ _ _ _ _ _) fun _ => L.announceVariable _
  · exact L.announceVariable _

theorem pass {name : String} {body : Run Value} (progress : Progress) (h : L.Obeys body) :
    L.Obeys (Run.pass name body progress) := by
  refine L.bind (L.catchSignal h) fun outcome => ?_
  cases outcome with
  | inl result => exact L.bind (L.loopNumber name) fun _ => L.pure _
  | inr signal =>
    dsimp only
    split
    · refine L.bind (L.loopNumber name) fun _ => ?_
      cases signal <;> exact L.pure _
    · exact L.throwSignal signal

theorem advance (range : Range) : L.Obeys (Run.advance range) := by
  refine L.bind (L.loopNumber _) fun x => L.bind (L.rounded _) fun y => ?_
  exact L.setVariable _ _

/-- Pass by pass a loop does nothing of its own that could break the law. -/
theorem passes {range : Range} {up : Bool} {body : Run Value} (h : L.Obeys body) (count : Nat)
    (progress : Progress) : L.Obeys (Run.passes range up body count progress) := by
  induction count generalizing progress with
  | zero => exact L.exit (by simp)
  | succ count ih =>
    refine L.bind (L.loopNumber _) fun x => L.bind (L.decimal _) fun isOn => ?_
    cases isOn with
    | false => exact L.pure _
    | true =>
      refine L.bind (L.whenTracing (L.announcePass range progress)) fun _ => ?_
      refine L.bind (L.pass progress h) fun outcome => ?_
      obtain ⟨progress', left⟩ := outcome
      cases left with
      | true => exact L.pure _
      | false => exact L.bind (L.advance range) fun _ => ih progress'

theorem prepare {range : Range} (h : ∀ p, range.pos = some p → L.admits .zeroStep p) :
    L.Obeys (Run.prepare range) := by
  refine L.bind (L.decimal _) fun isZero => ?_
  cases isZero with
  | true => exact L.blameNode h
  | false =>
    refine L.bind L.get fun s => L.bind (L.round _) fun x => ?_
    exact L.bind (L.setVariable _ _) fun _ => L.bind (L.decimal _) fun up => L.pure _

theorem settle (name : String) (before : Option Value) (progress : Progress) :
    L.Obeys (Run.settle name before progress) := by
  unfold Run.settle
  split
  · exact L.eraseVariable name
  · split <;> exact L.setVariable name _

theorem loopOver {range : Range} {body : Run Value}
    (h : ∀ p, range.pos = some p → L.admits .zeroStep p) (hbody : L.Obeys body) :
    L.Obeys (Run.loopOver limit range body) := by
  refine L.bind (L.prepare h) fun first => ?_
  obtain ⟨before, up⟩ := first
  refine L.bind (L.passes hbody limit {}) fun progress => ?_
  exact L.bind (L.settle _ before progress) fun _ => L.pure _

/-! ### Terms -/

theorem assign {name : String} {namePos : Pos} {op : AssignOp} {item : Term} {pos : Option Pos}
    (h : ∀ cause p, (Term.assign name namePos (.ok op) item pos).Blames cause p → L.admits cause p)
    (value : Value) : L.Obeys (Run.assign name namePos op value pos) := by
  unfold Run.assign
  split
  · exact L.blameAt (h _ _ .boolean)
  · exact L.setVariable _ _
  · refine L.bind L.get fun s => ?_
    split
    · exact L.blameAt (h _ _ .unassigned)
    · refine L.bind ?_ fun _ => L.setVariable _ _
      unfold Run.combined
      split
      · exact L.onNumbers (fun _ _ => L.rounded _) _ _
      · exact L.onNumbers (fun _ _ => L.rounded _) _ _
      · exact L.onNumbers (fun _ _ => L.rounded _) _ _
      · refine L.onNumbers (fun x y => L.div ?_ x y) _ _
        rintro p rfl
        exact h _ _ .dividedInto
      · refine L.onNumbers (fun x y => L.mod ?_ x y) _ _
        rintro p rfl
        exact h _ _ .reducedInto
      · refine L.blameNode ?_
        rintro p rfl
        exact h _ _ .otherwise

section Layers
variable {pos : Option Pos}

theorem layer_quoted (literal : String) : L.Obeys (evalBy limit f (.quoted literal)) := by
  change L.Obeys (Run.eval limit (.quoted literal))
  rw [Run.eval]
  split
  · exact L.pure _
  · exact L.fail (by simp)

theorem layer_var {name : String} {pos : Pos} (h : L.admits (.unbound name) pos) :
    L.Obeys (evalBy limit f (.var name pos)) := by
  refine L.bind L.get fun s => ?_
  split
  · exact L.pure _
  · exact L.blameAt h

theorem layer_traced {note : Note} {item : Term} (h : L.Obeys (f item)) :
    L.Obeys (evalBy limit f (.traced note pos item)) := by
  refine L.bind (L.whenTracing (L.announce pos)) fun _ => L.bind h fun value => ?_
  exact L.bind (L.whenTracing (L.announceEffect note value)) fun _ => L.pure _

theorem layer_assign {name : String} {namePos : Pos} {op : Except Defect AssignOp} {item : Term}
    (hb : ∀ cause p, (Term.assign name namePos op item pos).Blames cause p → L.admits cause p)
    (h : L.Obeys (f item)) : L.Obeys (evalBy limit f (.assign name namePos op item pos)) := by
  refine L.bind h fun value => ?_
  cases op with
  | error defect => exact L.fail (by simp)
  | ok op => exact L.bind (L.assign hb value) fun _ => L.pure _

theorem layer_leave {target : Target} {guard result : Term}
    (hb : ∀ cause p, (Term.leave target guard result pos).Blames cause p → L.admits cause p)
    (hg : L.Obeys (f guard)) (hr : L.Obeys (f result)) :
    L.Obeys (evalBy limit f (.leave target guard result pos)) := by
  refine L.bind (L.findLoop ?_ ?_) fun name => L.bind hg fun value => ?_
  · rintro p rfl
    exact hb _ _ .leaveOutside
  · rintro name p rfl rfl
    exact hb _ _ .leaveOther
  · split
    · exact L.bind hr fun _ => L.throwSignal _
    · exact L.pure _

theorem layer_skip {target : Target} {guard : Term}
    (hb : ∀ cause p, (Term.skip target guard pos).Blames cause p → L.admits cause p)
    (hg : L.Obeys (f guard)) : L.Obeys (evalBy limit f (.skip target guard pos)) := by
  refine L.bind (L.findLoop ?_ ?_) fun name => L.bind hg fun value => ?_
  · rintro p rfl
    exact hb _ _ .skipOutside
  · rintro name p rfl rfl
    exact hb _ _ .skipOther
  · split
    · exact L.throwSignal _
    · exact L.pure _

theorem layer_loop {name : String} {start stop step body : Term} {showsStep : Bool}
    (hb : ∀ cause p, (Term.loop name start stop step showsStep body pos).Blames cause p →
      L.admits cause p)
    (h : ∀ u ∈ [start, stop, step, body], L.Obeys (f u)) :
    L.Obeys (evalBy limit f (.loop name start stop step showsStep body pos)) := by
  rw [evalBy]
  refine L.insideLoop ?_ ?_
  · rintro p rfl
    exact hb _ _ .inUse
  · refine L.operand (h start (by simp)) fun first => L.operand (h stop (by simp)) fun last => ?_
    refine L.operand (h step (by simp)) fun width => L.loopOver ?_ (h body (by simp))
    rintro p rfl
    exact hb _ _ .zeroStep

theorem layer_sum {minus : Bool} {left right : Term} (hl : L.Obeys (f left))
    (hr : L.Obeys (f right)) : L.Obeys (evalBy limit f (.sum minus left right)) := by
  refine L.operand hl fun x => L.operand hr fun y => ?_
  cases minus <;> exact L.bind (L.rounded _) fun _ => L.pure _

theorem layer_product {op : ProductOp} {left right : Term}
    (hb : ∀ cause p, (Term.product op left right pos).Blames cause p → L.admits cause p)
    (hl : L.Obeys (f left)) (hr : L.Obeys (f right)) :
    L.Obeys (evalBy limit f (.product op left right pos)) := by
  refine L.bind hl fun value => L.bind (L.toDecimal value) fun x => L.operand hr fun y => ?_
  refine L.bind ?_ fun _ => L.pure _
  cases op with
  | mul => exact L.rounded _
  | div =>
    refine L.div ?_ x y
    rintro p rfl
    exact hb _ _ .divided
  | mod =>
    refine L.mod ?_ x y
    rintro p rfl
    exact hb _ _ .reduced

theorem layer_power {base exponent : Term}
    (hb : ∀ cause p, (Term.power base exponent pos).Blames cause p → L.admits cause p)
    (hx : L.Obeys (f base)) (hy : L.Obeys (f exponent)) :
    L.Obeys (evalBy limit f (.power base exponent pos)) := by
  refine L.operand hx fun x => L.operand hy fun y => L.bind (L.pow ?_ x y) fun _ => L.pure _
  rintro p rfl
  exact hb _ _ .raised

theorem layer_signed {minus : Bool} {item : Term} (h : L.Obeys (f item)) :
    L.Obeys (evalBy limit f (.signed minus item)) := by
  refine L.operand h fun x => ?_
  cases minus with
  | true => exact L.bind (L.rounded _) fun _ => L.pure _
  | false => exact L.pure _

theorem layer_conditional {condition holds otherwise : Term} (hc : L.Obeys (f condition))
    (hh : L.Obeys (f holds)) (ho : L.Obeys (f otherwise)) :
    L.Obeys (evalBy limit f (.conditional condition holds otherwise)) := by
  refine L.bind hc fun value => ?_
  split
  · exact hh
  · exact ho
  · exact L.blame _

theorem layer_connected {connective : Connective} {left right : Term} (hl : L.Obeys (f left))
    (hr : L.Obeys (f right)) : L.Obeys (evalBy limit f (.connected connective left right)) := by
  refine L.bind hl fun value => L.bind (L.truth _ _ value) fun first => ?_
  split
  · exact L.pure _
  · exact L.bind hr fun value => L.bind (L.truth _ _ value) fun _ => L.pure _

theorem layer_negated {item : Term} (h : L.Obeys (f item)) :
    L.Obeys (evalBy limit f (.negated item)) := by
  refine L.bind h fun value => ?_
  split
  · exact L.pure _
  · exact L.blame _

end Layers

/-- A term obeys if the terms below it do and its own errors are admitted. -/
theorem layer {t : Term} (hb : ∀ cause pos, t.Blames cause pos → L.admits cause pos)
    (h : ∀ u ∈ t.children, L.Obeys (f u)) : L.Obeys (evalBy limit f t) := by
  cases t with
  | constant value => exact L.pure value
  | exactNumber text => exact L.bind (L.decimal _) fun _ => L.pure _
  | number text => exact L.bind (L.decimal _) fun x => L.bind (L.round x) fun _ => L.pure _
  | quoted literal => exact L.layer_quoted literal
  | var name pos => exact L.layer_var (hb _ _ .unbound)
  | sequence items => exact L.sequence h _
  | traced note pos item => exact L.layer_traced (h item (by simp [Term.children]))
  | assign name namePos op item pos => exact L.layer_assign hb (h item (by simp [Term.children]))
  | leave target guard result pos =>
    exact L.layer_leave hb (h guard (by simp [Term.children])) (h result (by simp [Term.children]))
  | skip target guard pos => exact L.layer_skip hb (h guard (by simp [Term.children]))
  | loop name start stop step showsStep body pos => exact L.layer_loop hb h
  | print items => exact L.bind (L.mapM h) fun values => L.bind (L.printValues values) fun _ => L.pure _
  | row items => exact L.bind (L.mapM h) fun _ => L.pure _
  | numeric usage item => exact L.operand (h item (by simp [Term.children])) fun _ => L.pure _
  | unwrapped item =>
    refine L.bind (h item (by simp [Term.children])) fun value => ?_
    exact L.bind (L.toDecimal value) fun _ => L.pure _
  | sum minus left right =>
    exact L.layer_sum (h left (by simp [Term.children])) (h right (by simp [Term.children]))
  | product op left right pos =>
    exact L.layer_product hb (h left (by simp [Term.children])) (h right (by simp [Term.children]))
  | power base exponent pos =>
    exact L.layer_power hb (h base (by simp [Term.children])) (h exponent (by simp [Term.children]))
  | signed minus item => exact L.layer_signed (h item (by simp [Term.children]))
  | call name pos items =>
    exact L.bind (L.mapM h) fun values => L.call (fun _ hc => hb _ _ (.call hc)) values
  | conditional condition holds otherwise =>
    exact L.layer_conditional (h condition (by simp [Term.children]))
      (h holds (by simp [Term.children])) (h otherwise (by simp [Term.children]))
  | boolean connective item =>
    refine L.bind (h item (by simp [Term.children])) fun value => ?_
    exact L.bind (L.truth _ _ value) fun _ => L.pure _
  | connected connective left right =>
    exact L.layer_connected (h left (by simp [Term.children])) (h right (by simp [Term.children]))
  | negated item => exact L.layer_negated (h item (by simp [Term.children]))
  | comparison first operators rest =>
    obtain ⟨hfirst, hrest⟩ := List.forall_mem_cons.mp h
    exact L.bind (L.links hfirst hrest) fun _ => L.pure _
  | unsupported name => exact L.blame _
  | malformed defect => exact L.fail (by simp)

/-- Evaluation obeys a law that admits the errors of all terms in the term. -/
theorem eval (limit : Nat) {t : Term}
    (h : ∀ u, Term.Below u t → ∀ cause pos, u.Blames cause pos → L.admits cause pos) :
    L.Obeys (Run.eval limit t) := by
  induction t using Term.children_induction with
  | step t ih =>
    rw [← evalBy_eval]
    exact L.layer (h t .here) fun u hu => ih u hu fun w hw => h w (.child hu hw)

end Regime

end Run

end DecimalScript
