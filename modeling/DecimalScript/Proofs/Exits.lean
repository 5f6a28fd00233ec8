import DecimalScript.Proofs.Frame
import Mathlib

/-! How the evaluation of a term can end without a value. An exit comes from the
term itself or from one of the terms right below it; a loop takes the signals of
its body that are for it, but not those of its bounds. Every evaluation keeps
the running loops and the definitions. -/

namespace DecimalScript

namespace Term

/-- The terms right below a term. -/
def children : Term → List Term
  | .sequence items | .print items | .row items | .call _ _ items => items
  | .traced _ _ item | .numeric _ item | .unwrapped item | .signed _ item | .boolean _ item
  | .negated item | .assign _ _ _ item _ | .skip _ item _ => [item]
  | .leave _ guard result _ => [guard, result]
  | .loop _ start stop step _ body _ => [start, stop, step, body]
  | .sum _ left right | .product _ left right _ | .power left right _
  | .connected _ left right => [left, right]
  | .conditional condition holds otherwise => [condition, holds, otherwise]
  | .comparison first _ rest => first :: rest
  | _ => []

theorem sizeOf_children {t u : Term} (h : u ∈ t.children) : sizeOf u < sizeOf t := by
  cases t with
  | sequence items | print items | row items | call name pos items =>
    have : sizeOf u < sizeOf items := List.sizeOf_lt_of_mem h
    simp
    omega
  | comparison first operators rest =>
    rcases List.mem_cons.mp h with rfl | h
    · simp
      omega
    · have := List.sizeOf_lt_of_mem h
      simp
      omega
  | _ =>
    simp only [children, List.mem_cons, List.not_mem_nil, or_false] at h <;>
      (rcases h with rfl | rfl | rfl | rfl <;> simp <;> omega)

/-- What holds of a term whenever it holds of all terms right below holds of all terms. -/
theorem children_induction {P : Term → Prop} (step : ∀ t, (∀ u ∈ t.children, P u) → P t)
    (t : Term) : P t :=
  step t fun u _ => children_induction step u
termination_by sizeOf t
decreasing_by exact sizeOf_children ‹_›

def isLoop : Term → Bool
  | .loop .. => true
  | _ => false

/-- The term has all that its own evaluation needs, whatever stands below it. -/
def Sturdy : Term → Prop
  | .traced note pos item => pos.isSome ∧ ∀ name, note = .assigned name →
      ∃ namePos op value place, item = .assign name namePos op value place
  | .assign _ _ op _ pos => pos.isSome ∧ ∃ o, op = .ok o ∧ ∀ operator, o ≠ .other operator
  | .leave target _ _ pos | .skip target _ pos => pos.isSome ∧ ∃ name, target = .ok name
  | .loop _ _ _ _ _ _ pos | .product _ _ _ pos | .power _ _ pos => pos.isSome
  | .comparison _ operators _ => ∀ operator ∈ operators, operator ∈ Run.comparisons
  | .unsupported _ | .malformed _ => False
  | _ => True

/-- The exits that a term can have while the given loops run. -/
inductive May : Term → List String → Exit → Prop
  | own {t loops f} (h : Sturdy t → f.ordinary) : May t loops (.fault f)
  | leave {target guard result pos loops name value} (h : name ∈ loops) :
      May (.leave target guard result pos) loops (.signal (.leave name value))
  | skip {target guard pos loops name} (h : name ∈ loops) :
      May (.skip target guard pos) loops (.signal (.skip name))
  | inside {t u loops e} (h : u ∈ t.children) (hl : t.isLoop = false) (hu : May u loops e) :
      May t loops e
  | header {name start stop step showsStep body pos u loops e} (h : u ∈ [start, stop, step])
      (hu : May u (name :: loops) e) : May (.loop name start stop step showsStep body pos) loops e
  | body {name start stop step showsStep body pos loops e}
      (he : ∀ signal, e = .signal signal → signal.target ≠ name)
      (hu : May body (name :: loops) e) : May (.loop name start stop step showsStep body pos) loops e
  | exhausted {name start stop step showsStep body pos loops} :
      May (.loop name start stop step showsStep body pos) loops .exhausted

theorem header_children {name : String} {start stop step body : Term} {showsStep : Bool}
    {pos : Option Pos} {u : Term} (h : u ∈ [start, stop, step]) :
    u ∈ (Term.loop name start stop step showsStep body pos).children := by
  simp only [children, List.mem_cons, List.not_mem_nil, or_false] at h ⊢
  tauto

end Term

namespace Run

variable {α : Type} {s : State} {E : Exit → Prop} {F : Fault → Prop} {limit : Nat}

/-! ### Lists of terms -/

theorem evalAll_tame {items : List Term}
    (h : ∀ u ∈ items, ∀ t, Frame s t → Tame E (eval limit u) t) :
    Tame E (evalAll limit items) s := by
  induction items generalizing s with
  | nil => exact tame_pure []
  | cons item rest ih =>
    rw [evalAll]
    refine (h item (by simp) s (Frame.refl s)).bind fun value t _ hst => ?_
    have hrest := ih fun u hu v htv => h u (by simp [hu]) v (hst.trans htv)
    exact hrest.bind fun _ _ _ _ => tame_pure _

theorem evalSequence_tame {value : Value} {items : List Term}
    (h : ∀ u ∈ items, ∀ t, Frame s t → Tame E (eval limit u) t) :
    Tame E (evalSequence limit value items) s := by
  induction items generalizing s value with
  | nil => exact tame_pure value
  | cons item rest ih =>
    rw [evalSequence]
    refine (h item (by simp) s (Frame.refl s)).bind fun value t _ hst => ?_
    exact ih fun u hu v htv => h u (by simp [hu]) v (hst.trans htv)

theorem evalLinks_tame (hF : Admits F) (hE : ∀ f, F f → E (.fault f)) {left : Run Value}
    {operators : List String} {rest : List Term}
    (ho : ∀ operator ∈ operators, operator ∉ comparisons →
      F (.script (.unknownComparison operator) none))
    (hleft : ∀ t, Frame s t → Tame E left t)
    (h : ∀ u ∈ rest, ∀ t, Frame s t → Tame E (eval limit u) t) :
    Tame E (evalLinks limit left operators rest) s := by
  induction operators generalizing s left rest with
  | nil =>
    rw [evalLinks.eq_2 _ _ _ _ (by simp)]
    exact tame_pure true
  | cons operator operators ih =>
    cases rest with
    | nil =>
      rw [evalLinks.eq_2 _ _ _ _ (by simp)]
      exact tame_pure true
    | cons right rest =>
      rw [evalLinks]
      refine (hleft s (Frame.refl s)).bind fun x t _ hst => ?_
      refine ((numeric_reads hF _ x).tame hE).bind fun x t₁ _ h₁ => ?_
      have hst₁ := hst.trans h₁
      refine (h right (by simp) t₁ hst₁).bind fun y t₂ _ h₂ => ?_
      refine ((numeric_reads hF _ y).tame hE).bind fun y t₃ _ h₃ => ?_
      have hst₃ := (hst₁.trans h₂).trans h₃
      refine ((compare_reads hF x y (ho operator (by simp))).tame hE).bind fun holds t₄ _ h₄ => ?_
      have hst₄ := hst₃.trans h₄
      cases holds with
      | false => exact tame_pure false
      | true =>
        refine ih (fun o hmem => ho o (by simp [hmem])) ?_ ?_
        · exact fun v hv => h right (by simp) v (hst₄.trans hv)
        · exact fun u hu v hv => h u (by simp [hu]) v (hst₄.trans hv)

/-! ### Loops -/

/-- The loop takes its variable off the row of running loops again, whatever
happened in between: that variable is the first of the row then. -/
theorem insideLoop_tame (hF : Admits F) (hE : ∀ f, F f → E (.fault f)) {name : String}
    {pos : Option Pos} {run : Run α} (hp : pos = none → F .noPlace)
    (h : name ∉ s.loops → Tame E run { s with loops := name :: s.loops }) :
    Tame E (insideLoop name pos run) s := by
  by_cases hn : s.loops.contains name
  · have hblame : insideLoop name pos run s = blameNode (.loopVariableInUse name) pos s := by
      unfold insideLoop
      rw [if_pos hn]
    unfold Tame Ensures
    rw [hblame]
    exact (blameNode_reads hF (fun _ => rfl) hp).tame hE
  · have hrun := h (by simpa using hn)
    unfold Tame Ensures insideLoop
    rw [if_neg hn]
    cases hr : run { s with loops := name :: s.loops } with
    | mk r t =>
      have hframe : Frame { s with loops := name :: s.loops } t := by
        cases r with
        | ok a => exact hrun.of_ok hr
        | error e => exact (hrun.of_error hr).1
      have hloops : t.loops = name :: s.loops := hframe.loops
      have hpop : Frame s { t with loops := s.loops } := ⟨rfl, hframe.defines⟩
      simp only [endLoop, hloops, ↓reduceIte]
      cases r with
      | ok a => exact hpop
      | error e => exact ⟨hpop, (hrun.of_error hr).2⟩

section Loop
variable {range : Range} {body : Run Value} {B : Exit → Prop}
variable (hF : Admits F) (hE : ∀ f, F f → E (.fault f))
variable (hB : ∀ e, B e → (∀ signal, e = .signal signal → signal.target ≠ range.name) → E e)
include hF hE hB

/-- A pass passes on what its body ends with, but for the signals to the loop itself. -/
theorem pass_tame (progress : Progress) (hd : s.Defines range.name) (hbody : Tame B body s) :
    Tame E (pass range.name body progress) s := by
  have hcaught : Ensures (catchSignal body) s
      (fun r t => Frame s t ∧ ∀ signal, r = .inr signal → B (.signal signal))
      fun e t => Frame s t ∧ E e := by
    refine Ensures.catchSignal (Ensures.mono hbody (fun a t _ h => ⟨h, nofun⟩) fun e t h => ⟨?_, ?_⟩)
    · rintro signal rfl
      refine ⟨h.1, ?_⟩
      rintro _ ⟨⟩
      exact h.2
    · exact fun hne => ⟨h.1, hB e h.2 fun signal hs => absurd hs (hne signal)⟩
  have hlast {t : State} (hst : Frame s t) : Tame E (loopNumber range.name) t :=
    loopNumber_tame hF hE (hst.defines _ hd)
  refine tame_bind hcaught fun r t hst hsignal => ?_
  cases r with
  | inl result => exact (hlast hst).bind fun _ _ _ _ => tame_pure _
  | inr signal =>
    dsimp only
    split
    · refine (hlast hst).bind fun _ _ _ _ => ?_
      cases signal <;> exact tame_pure _
    · rename_i hne
      refine tame_throw (hB _ (hsignal signal rfl) ?_)
      rintro _ ⟨⟩
      exact hne

omit hB in
theorem announcePass_tame (progress : Progress) (hd : s.Defines range.name)
    (hp : range.pos = none → F .noPlace) : Tame E (announcePass range progress) s := by
  unfold announcePass
  split
  · refine (announceLoop_tame hF hE _ _ _ _ _ hp).bind fun _ t _ hst => ?_
    exact announceVariable_tame hF hE (absurd (hst.defines _ hd))
  · exact announceVariable_tame hF hE (absurd hd)

omit hB in
theorem advance_tame (hd : s.Defines range.name) : Tame E (advance range) s := by
  refine (loopNumber_tame hF hE hd).bind fun x _ _ _ => ?_
  exact ((add_reads hF x range.step).tame hE).bind fun _ _ _ _ => setVariable_tame _ _

theorem passes_tame (hx : E .exhausted) (hp : range.pos = none → F .noPlace) (up : Bool) :
    ∀ (count : Nat) (progress : Progress) (s : State), s.Defines range.name →
      (∀ t, Frame s t → Tame B body t) → Tame E (passes range up body count progress) s := by
  intro count
  induction count with
  | zero => exact fun _ _ _ _ => tame_throw hx
  | succ count ih =>
    intro progress s hd hbody
    rw [passes]
    refine (loopNumber_tame hF hE hd).bind fun x t₁ _ h₁ => ?_
    refine ((goesOn_reads hF range up x).tame hE).bind fun goesOn t₂ _ h₂ => ?_
    have hst₂ := h₁.trans h₂
    cases goesOn with
    | false => exact tame_pure progress
    | true =>
      have hannounce := announcePass_tame hF hE progress (hst₂.defines _ hd) hp
      refine (whenTracing_tame hannounce).bind fun _ t₃ _ h₃ => ?_
      have hst₃ := hst₂.trans h₃
      have hpass := pass_tame hF hE hB progress (hst₃.defines _ hd) (hbody t₃ hst₃)
      refine hpass.bind fun (progress, left) t₄ _ h₄ => ?_
      have hst₄ := hst₃.trans h₄
      cases left with
      | true => exact tame_pure progress
      | false =>
        refine (advance_tame hF hE (hst₄.defines _ hd)).bind fun _ t₅ _ h₅ => ?_
        have hst₅ := hst₄.trans h₅
        exact ih progress t₅ (hst₅.defines _ hd) fun t ht => hbody t (hst₅.trans ht)

omit hB in
/-- Before its first pass a loop has noted what its variable was, and defined it. -/
theorem prepare_tame (hp : range.pos = none → F .noPlace) :
    Ensures (prepare range) s
      (fun r t => Frame s t ∧ r.1 = s.env.get? range.name ∧ t.Defines range.name)
      fun e t => Frame s t ∧ E e := by
  have hfault : ∀ f, F f → Frame s s ∧ E (.fault f) := fun f hf => ⟨Frame.refl s, hE f hf⟩
  refine (decimal_reads hF _).then hfault fun isZero _ => ?_
  cases isZero with
  | true => exact blameNode_ensures hF (fun _ => rfl) hp hfault
  | false =>
    refine ensures_get ((round_reads hF _).then hfault fun x _ => ?_)
    refine Ensures.bind (P := fun _ t => Frame s t ∧ t.Defines range.name) ?_ fun _ t _ ht => ?_
    · refine ⟨Frame.set s _ _, ?_⟩
      simp [State.Defines]
    · refine (decimal_reads hF _).then (fun f hf => ⟨ht.1, hE f hf⟩) fun up _ => ?_
      exact ensures_pure ⟨ht.1, rfl, ht.2⟩

omit hF hE hB in
/-- At its end a loop takes back only a definition that it made itself. -/
theorem settle_frame {name : String} {before : Option Value} {progress : Progress} {t : State}
    (hst : Frame s t) (hb : before = s.env.get? name) {exit : Exit → State → Prop} :
    Ensures (settle name before progress) t (fun _ u => Frame s u) exit := by
  cases before with
  | none =>
    refine ⟨hst.loops, fun other h => ?_⟩
    have hne : other ≠ name := by
      rintro rfl
      simp [State.Defines, ← hb] at h
    have := hst.defines other h
    simpa [State.Defines, hne] using this
  | some value =>
    dsimp only [settle]
    split
    · exact hst.trans (Frame.set t _ _)
    · exact hst.trans (Frame.set t _ _)

theorem loopOver_tame (hx : E .exhausted) (hp : range.pos = none → F .noPlace)
    (hbody : ∀ t, Frame s t → Tame B body t) : Tame E (loopOver limit range body) s := by
  refine Ensures.bind (prepare_tame hF hE hp) fun (before, up) t _ ⟨hst, hb, hd⟩ => ?_
  have hpasses := passes_tame hF hE hB hx hp up limit {} t hd fun u hu => hbody u (hst.trans hu)
  refine Ensures.bind (P := fun _ u => Frame s u) ?_ fun progress u _ hsu => ?_
  · exact Ensures.mono hpasses (fun _ u _ hu => hst.trans hu) fun e u hu => ⟨hst.trans hu.1, hu.2⟩
  · exact (settle_frame hsu hb).bind fun _ v _ hsv => ensures_pure hsv

end Loop

theorem eval_assign_defines {name : String} {namePos : Pos} {op : Except Defect AssignOp}
    {rhs : Term} {pos : Option Pos} {value : Value} {t : State}
    (h : eval limit (.assign name namePos op rhs pos) s = (.ok value, t)) : t.Defines name := by
  suffices heval : Ensures (eval limit (.assign name namePos op rhs pos)) s
      (fun _ t => t.Defines name) fun _ _ => True from heval.of_ok h
  rw [eval]
  refine ensures_true.bind fun v u _ _ => ?_
  cases op with
  | error defect => exact trivial
  | ok op => exact ensures_true.bind fun _ w hw _ => ensures_pure (assign_defines hw)

/-! ### Terms other than loops -/

def Own (t : Term) (f : Fault) : Prop := t.Sturdy → f.ordinary

theorem own_admits {t : Term} : Admits (Own t) := fun _ h _ => h

theorem Reads.own {t : Term} {loops : List String} {run : Run α} (h : Reads (Own t) run) :
    Tame (t.May loops) run s := h.tame fun _ hf => .own hf

/-- The terms right below have only exits that the term can have, also in later states. -/
def Inherits (limit : Nat) (t : Term) (s : State) : Prop :=
  ∀ u ∈ t.children, ∀ v, Frame s v → Tame (t.May s.loops) (eval limit u) v

section Inherits
variable {β : Type} {t u : Term} {v : State}

/-- A term below, a test of its value and what is made of the outcome. -/
theorem Inherits.operand {test : Value → Run α} {g : α → Run β} (h : Inherits limit t s)
    (hu : u ∈ t.children) (hv : Frame s v) (ht : ∀ x, Reads (Own t) (test x))
    (hg : ∀ a w, Frame s w → Tame (t.May s.loops) (g a) w) :
    Tame (t.May s.loops) (do g (← test (← eval limit u))) v := by
  refine (h u hu v hv).bind fun x w _ hw => ?_
  exact (ht x).own.bind fun a z _ hz => hg a z ((hv.trans hw).trans hz)

/-- What a term makes of the values below it in the end. -/
theorem Reads.own_map {loops : List String} {run : Run α} {f : α → β} (h : Reads (Own t) run) :
    Tame (t.May loops) (do return f (← run)) s := h.own.bind fun _ _ _ _ => tame_pure _

end Inherits

section Terms
variable {note : Note} {pos : Option Pos} {item left right guard result : Term} {minus : Bool}

theorem traced_tame (h : Inherits limit (.traced note pos item) s) :
    Tame ((Term.traced note pos item).May s.loops) (eval limit (.traced note pos item)) s := by
  have hE : ∀ f, Own (.traced note pos item) f →
      (Term.traced note pos item).May s.loops (.fault f) := fun _ hf => .own hf
  have hp : pos = none → Own (.traced note pos item) .noPlace := by
    rintro rfl ⟨hplace, _⟩
    cases hplace
  refine (whenTracing_tame (announce_tame hE hp)).bind fun _ t _ hst => ?_
  refine (h item (by simp [Term.children]) t hst).bind fun value u hu _ => ?_
  have heffect : ∀ name, note = .assigned name → ¬u.Defines name →
      Own (.traced note pos item) .variableGone := by
    -- a note about a variable stands at an assignment, and that has defined it
    rintro name rfl hn ⟨_, hassign⟩
    obtain ⟨namePos, op, rhs, place, rfl⟩ := hassign name rfl
    exact absurd (eval_assign_defines hu) hn
  refine (whenTracing_tame (announceEffect_tame own_admits hE heffect)).bind fun _ _ _ _ => ?_
  exact tame_pure value

theorem assign_term_tame {name : String} {namePos : Pos} {op : Except Defect AssignOp}
    (h : Inherits limit (.assign name namePos op item pos) s) :
    Tame ((Term.assign name namePos op item pos).May s.loops)
      (eval limit (.assign name namePos op item pos)) s := by
  refine (h item (by simp [Term.children]) s (Frame.refl s)).bind fun value t _ _ => ?_
  cases op with
  | error defect =>
    refine (reads_fail ?_).own
    rintro ⟨_, o, ho, _⟩
    cases ho
  | ok op =>
    have hp : pos = none → Own (.assign name namePos (.ok op) item pos) .noPlace := by
      rintro rfl ⟨hplace, _⟩
      cases hplace
    have ho : ∀ operator p, op = .other operator → Own (.assign name namePos (.ok op) item pos)
        (.script (.unsupportedAssignment operator) p) := by
      rintro operator p rfl ⟨_, o, ho, hother⟩
      cases ho
      exact absurd rfl (hother operator)
    refine Tame.bind (assign_tame own_admits ?_ name namePos value hp ho) fun _ _ _ _ => tame_pure _
    exact fun _ hf => .own hf

/-- The loop that a jump aims at is looked for before anything is evaluated. -/
theorem findLoop_own {t : Term} {target : Target} {outside : Cause}
    (ho : ∀ p, (Fault.script outside (some p)).ordinary)
    (ht : t.Sturdy → pos.isSome ∧ ∃ name, target = .ok name) :
    Reads (Own t) (findLoop target outside pos) := by
  refine findLoop_reads own_admits target outside pos ho ?_ ?_
  · rintro rfl h
    cases (ht h).1
  · rintro defect rfl h
    obtain ⟨_, name, hname⟩ := ht h
    cases hname

theorem leave_tame {target : Target} (h : Inherits limit (.leave target guard result pos) s) :
    Tame ((Term.leave target guard result pos).May s.loops)
      (eval limit (.leave target guard result pos)) s := by
  have hfind : Reads (Own (.leave target guard result pos))
      (findLoop target .breakOutsideLoop pos) := findLoop_own (fun _ => rfl) id
  refine hfind.own.bind fun name t hname hst => ?_
  refine (h guard (by simp [Term.children]) t hst).bind fun holds u _ htu => ?_
  split
  · refine (h result (by simp [Term.children]) u (hst.trans htu)).bind fun value v _ _ => ?_
    exact tame_throw (.leave (findLoop_mem hname))
  · exact tame_pure _

theorem skip_tame {target : Target} (h : Inherits limit (.skip target guard pos) s) :
    Tame ((Term.skip target guard pos).May s.loops) (eval limit (.skip target guard pos)) s := by
  have hfind : Reads (Own (.skip target guard pos)) (findLoop target .nextOutsideLoop pos) :=
    findLoop_own (fun _ => rfl) id
  refine hfind.own.bind fun name t hname hst => ?_
  refine (h guard (by simp [Term.children]) t hst).bind fun holds u _ _ => ?_
  split
  · exact tame_throw (.skip (findLoop_mem hname))
  · exact tame_pure _

theorem sum_tame (h : Inherits limit (.sum minus left right) s) :
    Tame ((Term.sum minus left right).May s.loops) (eval limit (.sum minus left right)) s := by
  refine h.operand (by simp [Term.children]) (Frame.refl s) (numeric_reads own_admits _)
    fun x t ht => ?_
  refine h.operand (by simp [Term.children]) ht (numeric_reads own_admits _) fun y u _ => ?_
  cases minus with
  | true => exact (sub_reads own_admits x y).own_map
  | false => exact (add_reads own_admits x y).own_map

theorem product_tame {op : ProductOp} (h : Inherits limit (.product op left right pos) s) :
    Tame ((Term.product op left right pos).May s.loops)
      (eval limit (.product op left right pos)) s := by
  refine h.operand (by simp [Term.children]) (Frame.refl s) (toDecimal_reads own_admits)
    fun x t ht => ?_
  refine h.operand (by simp [Term.children]) ht (numeric_reads own_admits _) fun y u _ => ?_
  refine (multiply_reads own_admits op x y ?_).own_map
  rintro rfl hplace
  cases hplace

theorem power_tame (h : Inherits limit (.power left right pos) s) :
    Tame ((Term.power left right pos).May s.loops) (eval limit (.power left right pos)) s := by
  refine h.operand (by simp [Term.children]) (Frame.refl s) (numeric_reads own_admits _)
    fun x t ht => ?_
  refine h.operand (by simp [Term.children]) ht (numeric_reads own_admits _) fun y u _ => ?_
  refine (pow_reads own_admits x y ?_).own_map
  rintro rfl hplace
  cases hplace

theorem signed_tame (h : Inherits limit (.signed minus item) s) :
    Tame ((Term.signed minus item).May s.loops) (eval limit (.signed minus item)) s := by
  refine h.operand (by simp [Term.children]) (Frame.refl s) (numeric_reads own_admits _)
    fun x t _ => ?_
  cases minus with
  | true => exact (negate_reads own_admits x).own_map
  | false => exact (reads_pure x).own_map

theorem conditional_tame (h : Inherits limit (.conditional guard left right) s) :
    Tame ((Term.conditional guard left right).May s.loops)
      (eval limit (.conditional guard left right)) s := by
  refine (h guard (by simp [Term.children]) s (Frame.refl s)).bind fun value t _ hst => ?_
  split
  · exact h left (by simp [Term.children]) t hst
  · exact h right (by simp [Term.children]) t hst
  · exact (blame_reads own_admits rfl).own

theorem connected_tame {connective : Connective}
    (h : Inherits limit (.connected connective left right) s) :
    Tame ((Term.connected connective left right).May s.loops)
      (eval limit (.connected connective left right)) s := by
  refine h.operand (by simp [Term.children]) (Frame.refl s) (truth_reads own_admits _ _)
    fun first t ht => ?_
  split
  · exact tame_pure _
  · exact h.operand (by simp [Term.children]) ht (truth_reads own_admits _ _)
      fun _ _ _ => tame_pure _

theorem negated_tame (h : Inherits limit (.negated item) s) :
    Tame ((Term.negated item).May s.loops) (eval limit (.negated item)) s := by
  refine (h item (by simp [Term.children]) s (Frame.refl s)).bind fun value _ _ _ => ?_
  split
  · exact tame_pure _
  · exact (blame_reads own_admits rfl).own

theorem comparison_tame {operators : List String} {rest : List Term}
    (h : Inherits limit (.comparison left operators rest) s) :
    Tame ((Term.comparison left operators rest).May s.loops)
      (eval limit (.comparison left operators rest)) s := by
  refine Tame.bind (evalLinks_tame own_admits (fun _ hf => .own hf) ?_ ?_ ?_)
    fun _ _ _ _ => tame_pure _
  · exact fun operator ho hn hsturdy => absurd (hsturdy operator ho) hn
  · exact fun t ht => h left (by simp [Term.children]) t ht
  · exact fun u hu t ht => h u (by simp [Term.children, hu]) t ht

end Terms

/-! ### All terms -/

section Loops
variable {name : String} {start stop step body u : Term} {showsStep : Bool} {pos : Option Pos}
variable (ih : ∀ u ∈ (Term.loop name start stop step showsStep body pos).children, ∀ v,
  Tame (u.May v.loops) (eval limit u) v)
include ih

/-- In the head of a loop its variable counts among the running loops, but the signals
for it are not taken there. -/
theorem header_tame {usage : Usage} {g : Decimal → Run Value} {v : State}
    (hu : u ∈ [start, stop, step]) (hv : Frame { s with loops := name :: s.loops } v)
    (hg : ∀ x w, Frame { s with loops := name :: s.loops } w →
      Tame ((Term.loop name start stop step showsStep body pos).May s.loops) (g x) w) :
    Tame ((Term.loop name start stop step showsStep body pos).May s.loops)
      (do g (← numeric usage (← eval limit u))) v := by
  have heval : Tame ((Term.loop name start stop step showsStep body pos).May s.loops)
      (eval limit u) v := by
    refine (ih u (Term.header_children hu) v).mono fun e he => .header hu ?_
    rwa [hv.loops] at he
  refine heval.bind fun value w _ hw => ?_
  refine (numeric_reads own_admits usage value).own.bind fun x z _ hz => ?_
  exact hg x z ((hv.trans hw).trans hz)

theorem loop_tame : Tame ((Term.loop name start stop step showsStep body pos).May s.loops)
    (eval limit (.loop name start stop step showsStep body pos)) s := by
  have hE : ∀ f, Own (.loop name start stop step showsStep body pos) f →
      (Term.loop name start stop step showsStep body pos).May s.loops (.fault f) :=
    fun _ hf => .own hf
  have hp : pos = none → Own (.loop name start stop step showsStep body pos) .noPlace := by
    rintro rfl h
    simp [Term.Sturdy] at h
  refine insideLoop_tame own_admits hE hp fun hname => ?_
  refine header_tame ih (by simp) (Frame.refl _) fun first t ht => ?_
  refine header_tame ih (by simp) ht fun last u hu => ?_
  refine header_tame ih (by simp) hu fun width v hv => ?_
  refine loopOver_tame (B := body.May (name :: s.loops)) own_admits hE
    (fun e he hne => .body hne he) .exhausted hp fun w hw => ?_
  have hbody := ih body (by simp [Term.children]) w
  rwa [(hv.trans hw).loops] at hbody

end Loops

/-- Every evaluation keeps the running loops and the definitions, and has only
exits that its term can have. -/
theorem eval_tame (limit : Nat) (t : Term) (s : State) :
    Tame (t.May s.loops) (eval limit t) s := by
  induction t using Term.children_induction generalizing s with
  | step t ih =>
    have inherits (hl : t.isLoop = false) : Inherits limit t s := by
      intro u hu v hsv
      refine (ih u hu v).mono fun e he => .inside hu hl ?_
      rwa [hsv.loops] at he
    have hE : ∀ f, Own t f → t.May s.loops (.fault f) := fun _ hf => .own hf
    cases t with
    | constant value => exact tame_pure value
    | exactNumber text => exact (decimal_reads own_admits _).own_map
    | number text =>
      refine (decimal_reads own_admits _).own.bind fun x _ _ _ => ?_
      exact (round_reads own_admits x).own_map
    | quoted literal =>
      rw [eval]
      split
      · exact tame_pure _
      · exact (reads_fail (own_admits _ rfl)).own
    | var name pos =>
      refine ensures_get ?_
      split
      · exact tame_pure _
      · exact (blameAt_reads own_admits rfl).own
    | sequence items => exact evalSequence_tame (inherits rfl)
    | traced note pos item => exact traced_tame (inherits rfl)
    | assign name namePos op value pos => exact assign_term_tame (inherits rfl)
    | leave target guard result pos => exact leave_tame (inherits rfl)
    | skip target guard pos => exact skip_tame (inherits rfl)
    | loop name start stop step showsStep body pos => exact loop_tame ih
    | print items =>
      refine (evalAll_tame (inherits rfl)).bind fun values _ _ _ => ?_
      exact (printValues_tame own_admits hE values).bind fun _ _ _ _ => tame_pure _
    | row items =>
      refine (evalAll_tame (inherits rfl)).bind fun values _ _ _ => ?_
      exact tame_pure (Value.rowOf values)
    | numeric usage item =>
      exact (inherits rfl).operand (by simp [Term.children]) (Frame.refl s)
        (numeric_reads own_admits usage) fun _ _ _ => tame_pure _
    | unwrapped item =>
      exact (inherits rfl).operand (by simp [Term.children]) (Frame.refl s)
        (toDecimal_reads own_admits) fun _ _ _ => tame_pure _
    | sum minus left right => exact sum_tame (inherits rfl)
    | product op left right pos => exact product_tame (inherits rfl)
    | power base exponent pos => exact power_tame (inherits rfl)
    | signed minus item => exact signed_tame (inherits rfl)
    | call name pos items =>
      refine (evalAll_tame (inherits rfl)).bind fun values _ _ _ => ?_
      exact call_tame own_admits hE name pos values
    | conditional condition holds otherwise => exact conditional_tame (inherits rfl)
    | boolean connective item =>
      exact (inherits rfl).operand (by simp [Term.children]) (Frame.refl s)
        (truth_reads own_admits _ _) fun _ _ _ => tame_pure _
    | connected connective left right => exact connected_tame (inherits rfl)
    | negated item => exact negated_tame (inherits rfl)
    | comparison first operators rest => exact comparison_tame (inherits rfl)
    | unsupported name => exact (reads_fail fun h : False => h.elim).own
    | malformed defect => exact (reads_fail fun h : False => h.elim).own

end Run

end DecimalScript
