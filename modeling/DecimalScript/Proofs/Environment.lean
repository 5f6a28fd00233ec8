import DecimalScript.Proofs.Agreement
import DecimalScript.Proofs.Layer
import DecimalScript.Proofs.StandardPreservation
import Mathlib

/-! What variables hold. The evaluation of a regular term keeps every standard, and
so does a session of programs. Two standards are of interest: that numbers are
finite, which always holds, and that they have the places and digits of a state
whose precision is never set. -/

namespace DecimalScript

/-- From every good state the calculation comes to a good state and a value that fits. -/
def Standard.Keeps (S : Standard) (x : Run Value) : Prop :=
  ∀ s, S.Good s → Run.Sound S x s S.Fits

namespace Run

variable {α : Type} {s : State} {S : Standard} {limit : Nat} {f : Term → Run Value}

/-! ### One layer of an evaluation -/

/-- A number that is calculated from what is known already. -/
theorem sound_decimal {F : Fault → Prop} {x : Run Decimal} (hr : Reads F x)
    (hy : Yields x s S.Meets) (hs : S.Good s) :
    Sound S (do return .decimal (← x)) s S.Fits :=
  hr.sound_bind hy hs fun _ hx => sound_pure hs hx

/-- An operand that has to be a number, and what is made of it. -/
theorem numeric_sound {x : Run Value} {usage : Usage} {g : Decimal → Run α} {Q : α → Prop}
    (hx : S.Keeps x) (hs : S.Good s) (hg : ∀ a t, S.Good t → S.Meets a → Sound S (g a) t Q) :
    Sound S (do g (← numeric usage (← x))) s Q := by
  refine (hx s hs).bind fun value t ht hv => ?_
  exact (numeric_reads admits_all _ _).sound_bind (numeric_yields hv) ht fun a ha => hg a t ht ha

theorem toDecimal_sound {x : Run Value} {g : Decimal → Run Value} (hx : S.Keeps x)
    (hs : S.Good s) (hg : ∀ a t, S.Good t → S.Meets a → Sound S (g a) t S.Fits) :
    Sound S (do g (← toDecimal (← x))) s S.Fits := by
  refine (hx s hs).bind fun value t ht hv => ?_
  exact (toDecimal_reads admits_all _).sound_bind (toDecimal_yields hv) ht fun a ha => hg a t ht ha

theorem truth_sound {x : Run Value} {side : Side} {connective : Connective} {g : Bool → Run Value}
    (hx : S.Keeps x) (hs : S.Good s) (hg : ∀ b t, S.Good t → Sound S (g b) t S.Fits) :
    Sound S (do g (← truth side connective (← x))) s S.Fits := by
  refine (hx s hs).bind fun value t ht _ => ?_
  exact (truth_reads admits_all _ _ _).sound_bind yields_any ht fun b _ => hg b t ht

theorem mapM_sound {items : List Term} {P : Value → Prop}
    (h : ∀ item ∈ items, ∀ s, S.Good s → Sound S (f item) s P) (hs : S.Good s) :
    Sound S (items.mapM f) s fun values => ∀ value ∈ values, P value := by
  induction items generalizing s with
  | nil => exact sound_pure hs nofun
  | cons item rest ih =>
    rw [List.mapM_cons]
    refine (h item (by simp) s hs).bind fun value t ht hv => ?_
    refine (ih (fun other ho => h other (by simp [ho])) ht).bind fun values u hu hvs => ?_
    exact sound_pure hu (List.forall_mem_cons.mpr ⟨hv, hvs⟩)

theorem sequence_sound {items : List Term} {value : Value} (h : ∀ item ∈ items, S.Keeps (f item))
    (hs : S.Good s) (hv : S.Fits value) :
    Sound S (items.foldlM (fun _ item => f item) value) s S.Fits := by
  induction items generalizing s value with
  | nil => exact sound_pure hs hv
  | cons item rest ih =>
    rw [List.foldlM_cons]
    refine (h item (by simp) s hs).bind fun value t ht hv => ?_
    exact ih (fun other ho => h other (by simp [ho])) ht hv

theorem traced_sound {note : Note} {pos : Option Pos} {item : Term} (h : S.Keeps (f item)) :
    S.Keeps (evalBy limit f (.traced note pos item)) := by
  intro s hs
  refine ((whenTracing_writes (announce_writes pos)).sound hs).bind fun _ t ht _ => ?_
  refine (h t ht).bind fun value u hu hv => ?_
  have heffect := whenTracing_writes (announceEffect_writes note value)
  exact (heffect.sound hu).bind fun _ v hv' _ => sound_pure hv' hv

theorem assignment_sound {name : String} {namePos : Pos} {op : AssignOp} {value : Term}
    {pos : Option Pos} (h : S.Keeps (f value)) :
    S.Keeps (evalBy limit f (.assign name namePos (.ok op) value pos)) := by
  intro s hs
  refine (h s hs).bind fun value t ht hv => ?_
  exact (assign_sound ht hv).bind fun _ u hu _ => sound_pure hu trivial

theorem leave_sound {name : Option String} {guard result : Term} {pos : Option Pos}
    (hg : S.Keeps (f guard)) (hr : S.Keeps (f result)) :
    S.Keeps (evalBy limit f (.leave (.ok name) guard result pos)) := by
  intro s hs
  have hfind : Reads (fun _ => True) (findLoop (.ok name) .breakOutsideLoop pos) :=
    findLoop_reads admits_all _ _ _ (fun _ => rfl) (fun _ => trivial) fun _ _ => trivial
  refine hfind.sound_bind yields_any hs fun target _ => ?_
  refine (hg s hs).bind fun value t ht _ => ?_
  split
  · exact (hr t ht).bind fun result u hu hv => sound_throw hu hv
  · exact sound_pure ht trivial

theorem skip_sound {name : Option String} {guard : Term} {pos : Option Pos}
    (hg : S.Keeps (f guard)) : S.Keeps (evalBy limit f (.skip (.ok name) guard pos)) := by
  intro s hs
  have hfind : Reads (fun _ => True) (findLoop (.ok name) .nextOutsideLoop pos) :=
    findLoop_reads admits_all _ _ _ (fun _ => rfl) (fun _ => trivial) fun _ _ => trivial
  refine hfind.sound_bind yields_any hs fun target _ => ?_
  refine (hg s hs).bind fun value t ht _ => ?_
  split
  · exact sound_throw ht trivial
  · exact sound_pure ht trivial

/-- Of the step a loop needs only that it is finite: where none is written it is the
number one, whatever the places. -/
theorem loop_sound {name : String} {start stop step body : Term} {showsStep : Bool}
    {pos : Option Pos} (hs : S.Keeps (f start)) (ht : S.Keeps (f stop))
    (hw : ∀ s, S.Good s → Sound S (do numeric .loopStep (← f step)) s (·.isFinite))
    (hb : S.Keeps (f body)) :
    S.Keeps (evalBy limit f (.loop name start stop step showsStep body pos)) := by
  intro s good
  rw [evalBy]
  refine insideLoop_sound good fun t good => ?_
  refine numeric_sound hs good fun first u good hfirst => ?_
  refine numeric_sound ht good fun last v good _ => ?_
  rw [← bind_assoc]
  refine (hw v good).bind fun width w good hwidth => ?_
  exact loopOver_sound good (S.finite hfirst) hwidth hb

theorem print_sound {items : List Term}
    (h : ∀ item ∈ items, ∀ s, S.Good s → Sound S (f item) s fun _ => True) :
    S.Keeps (evalBy limit f (.print items)) := by
  intro s hs
  refine (mapM_sound h hs).bind fun values t ht _ => ?_
  exact ((printValues_writes values).sound ht).bind fun _ u hu _ => sound_pure hu trivial

theorem numericTerm_sound {usage : Usage} {item : Term} (h : S.Keeps (f item)) :
    S.Keeps (evalBy limit f (.numeric usage item)) := fun _ hs =>
  numeric_sound h hs fun _ _ ht hx => sound_pure ht hx

theorem unwrapped_sound {item : Term} (h : S.Keeps (f item)) :
    S.Keeps (evalBy limit f (.unwrapped item)) := fun _ hs =>
  toDecimal_sound h hs fun _ _ ht hx => sound_pure ht hx

theorem sum_sound {minus : Bool} {left right : Term} (hl : S.Keeps (f left))
    (hr : S.Keeps (f right)) : S.Keeps (evalBy limit f (.sum minus left right)) := by
  intro s hs
  refine numeric_sound hl hs fun x t ht hx => numeric_sound hr ht fun y u hu hy => ?_
  have hfx := S.finite hx
  have hfy := S.finite hy
  cases minus with
  | true => exact sound_decimal (sub_reads admits_all x y) (sub_yields hu hfx hfy) hu
  | false => exact sound_decimal (add_reads admits_all x y) (add_yields hu hfx hfy) hu

theorem product_sound {op : ProductOp} {left right : Term} {pos : Option Pos}
    (hl : S.Keeps (f left)) (hr : S.Keeps (f right)) :
    S.Keeps (evalBy limit f (.product op left right pos)) := by
  intro s hs
  refine toDecimal_sound hl hs fun x t ht hx => numeric_sound hr ht fun y u hu hy => ?_
  exact sound_decimal (multiply_reads admits_all op x y fun _ => trivial)
    (multiply_yields hu (S.finite hx) (S.finite hy)) hu

/-- A power keeps its base and its exponent, which were rounded before. -/
theorem power_sound {base exponent : Term} {pos : Option Pos} (hb : S.Keeps (f base))
    (he : S.Keeps (f exponent)) : S.Keeps (evalBy limit f (.power base exponent pos)) := by
  intro s hs
  refine numeric_sound hb hs fun x t ht hx => numeric_sound he ht fun y u hu hy => ?_
  refine (pow_reads admits_all x y fun _ => trivial).sound_bind
    (pow_yields hu (S.finite hx) (S.finite hy)) hu fun z hz => ?_
  exact sound_pure hu ⟨hx, hy, hz⟩

theorem signed_sound {minus : Bool} {item : Term} (h : S.Keeps (f item)) :
    S.Keeps (evalBy limit f (.signed minus item)) := by
  intro s hs
  refine numeric_sound h hs fun x t ht hx => ?_
  cases minus with
  | true => exact sound_decimal (negate_reads admits_all x) (negate_yields ht (S.finite hx)) ht
  | false => exact sound_pure ht hx

/-- The precision is set only once the arguments have values. -/
theorem call_sound {name : String} {pos : Pos} {items : List Term}
    (h : ∀ item ∈ items, S.Keeps (f item)) (hs : S.Good s)
    (hset : name = "set_precision" → ∀ values t, items.mapM f s = (.ok values, t) → S.Free) :
    Sound S (evalBy limit f (.call name pos items)) s S.Fits := by
  refine Ensures.bind (mapM_sound h hs) fun values t hvalues ⟨ht, hv⟩ => ?_
  by_cases hn : name = "set_precision"
  · have hfree := hset hn values t hvalues
    subst hn
    exact setPrecision_sound ht hfree hv
  · exact (call_reads admits_all hn pos values).sound (call_yields ht hv hn) ht

theorem conditional_sound {condition holds otherwise : Term} (hc : S.Keeps (f condition))
    (hh : S.Keeps (f holds)) (ho : S.Keeps (f otherwise)) :
    S.Keeps (evalBy limit f (.conditional condition holds otherwise)) := by
  intro s hs
  refine (hc s hs).bind fun value t ht _ => ?_
  split
  · exact hh t ht
  · exact ho t ht
  · exact sound_fail ht

theorem boolean_sound {connective : Connective} {item : Term} (h : S.Keeps (f item)) :
    S.Keeps (evalBy limit f (.boolean connective item)) := fun _ hs =>
  truth_sound h hs fun _ _ ht => sound_pure ht trivial

theorem connected_sound {connective : Connective} {left right : Term} (hl : S.Keeps (f left))
    (hr : S.Keeps (f right)) : S.Keeps (evalBy limit f (.connected connective left right)) := by
  intro s hs
  refine truth_sound hl hs fun first t ht => ?_
  split
  · exact sound_pure ht trivial
  · exact truth_sound hr ht fun _ _ hu => sound_pure hu trivial

theorem negated_sound {item : Term} (h : S.Keeps (f item)) :
    S.Keeps (evalBy limit f (.negated item)) := by
  intro s hs
  refine (h s hs).bind fun value t ht _ => ?_
  split
  · exact sound_pure ht trivial
  · exact sound_fail ht

theorem links_sound {first : Term} {operators : List String} {rest : List Term}
    (hf : S.Keeps (f first)) (hr : ∀ item ∈ rest, S.Keeps (f item)) (hs : S.Good s) :
    Sound S (linksBy f first operators rest) s fun _ => True := by
  induction operators generalizing first rest s with
  | nil => simpa only [linksBy] using sound_pure hs trivial
  | cons operator operators ih =>
    cases rest with
    | nil => simpa only [linksBy] using sound_pure hs trivial
    | cons right rest =>
      have hright := hr right (by simp)
      refine numeric_sound hf hs fun x t ht _ => numeric_sound hright ht fun y u hu _ => ?_
      have hcompare : Reads (fun _ => True) (compare x operator y) :=
        compare_reads admits_all x y fun _ => trivial
      refine hcompare.sound_bind yields_any hu fun holds _ => ?_
      cases holds with
      | true => exact ih hright (fun item hi => hr item (by simp [hi])) hu
      | false => exact sound_pure hu trivial

/-! ### Evaluation -/

/-- The evaluation comes to a call of the function, and all its arguments have values. -/
def Invokes (limit : Nat) (name : String) (t : Term) (s : State) : Prop :=
  ∃ pos items v values u,
    Reaches limit t s (.call name pos items) v ∧ evalAll limit items v = (.ok values, u)

theorem Invokes.inv {name : String} {t : Term} (h : Invokes limit name t s) :
    (∃ pos items, t = .call name pos items) ∨
      ∃ u v, (u, v) ∈ calls limit t s ∧ Invokes limit name u v := by
  obtain ⟨pos, items, w, values, x, hr, hv⟩ := h
  cases hr with
  | here => exact .inl ⟨pos, items, rfl⟩
  | call hc hr => exact .inr ⟨_, _, hc, pos, items, w, values, x, hr, hv⟩

theorem Invokes.of_call {name : String} {t u : Term} {v : State} (hc : (u, v) ∈ calls limit t s)
    (h : Invokes limit name u v) : Invokes limit name t s := by
  obtain ⟨pos, items, w, values, x, hr, hv⟩ := h
  exact ⟨pos, items, w, values, x, .call hc hr, hv⟩

end Run

/-- The precision is set on the way only if any precision will do. -/
def Standard.Allows (S : Standard) (limit : Nat) (t : Term) (s : State) : Prop :=
  Run.Invokes limit "set_precision" t s → S.Free

namespace Run

variable {s : State} {S : Standard} {limit : Nat}

open Classical in
/-- Evaluation where it is allowed. An evaluation that is allowed never comes to a
place where it is not, so nothing is lost. -/
noncomputable def allowed (S : Standard) (limit : Nat) (t : Term) : Run Value := fun s =>
  if S.Allows limit t s then eval limit t s else (.error .exhausted, s)

theorem allowed_sound {t : Term} {P : Value → Prop} (hs : S.Good s)
    (h : S.Allows limit t s → Sound S (eval limit t) s P) : Sound S (allowed S limit t) s P := by
  unfold Sound Ensures allowed
  by_cases ha : S.Allows limit t s
  · simp only [ha, ↓reduceIte]
    exact h ha
  · simp only [ha, ↓reduceIte]
    exact ⟨hs, trivial⟩

theorem allowed_agrees {t : Term} (h : S.Allows limit t s) :
    Agrees limit (allowed S limit) (calls limit t s) :=
  fun _ _ hc => if_pos fun hi => h (hi.of_call hc)

/-- It is enough to look at one layer. -/
theorem sound_of_layer {t : Term} {P : Value → Prop} (ha : S.Allows limit t s)
    (h : Sound S (evalBy limit (allowed S limit) t) s P) : Sound S (eval limit t) s P := by
  unfold Sound Ensures at h
  rwa [evalBy_congr (allowed_agrees ha)] at h

/-- The evaluation of a regular term keeps every standard. -/
theorem eval_sound {t : Term} (ht : t.Regular) (hs : S.Good s) (ha : S.Allows limit t s) :
    Sound S (eval limit t) s S.Fits := by
  have keeps {u : Term}
      (ih : ∀ {s : State}, S.Good s → S.Allows limit u s → Sound S (eval limit u) s S.Fits) :
      S.Keeps (allowed S limit u) := fun s hs => allowed_sound hs (ih hs)
  induction ht generalizing s with
  | truth => exact sound_pure hs trivial
  | @number text h =>
    have hread : Yields (decimal (Decimal.ofText text)) s (·.isNaN = false) :=
      decimal_yields fun x hx => Decimal.ofText_numeral h hx
    refine (decimal_reads admits_all _).sound_bind hread hs fun x hx => ?_
    exact sound_decimal (round_reads admits_all x) (round_yields hs hx) hs
  | var =>
    refine ensures_get ?_
    split
    · rename_i hget
      exact sound_pure hs (hs.held _ _ hget).fits
    · exact sound_fail hs
  | sequence _ ih =>
    exact sound_of_layer ha (sequence_sound (fun item hi => keeps (ih item hi)) hs trivial)
  | traced _ _ ih => exact sound_of_layer ha (traced_sound (keeps ih) s hs)
  | assign _ _ ih => exact sound_of_layer ha (assignment_sound (keeps ih) s hs)
  | leave _ _ ihg ihr => exact sound_of_layer ha (leave_sound (keeps ihg) (keeps ihr) s hs)
  | skip _ ihg => exact sound_of_layer ha (skip_sound (keeps ihg) s hs)
  | loop _ _ _ ihs iht ihb =>
    refine sound_of_layer ha
      (loop_sound (keeps ihs) (keeps iht) (fun t good => ?_) (keeps ihb) s hs)
    have hone : Sound S (allowed S limit (.constant (.decimal .one))) t (· = .decimal .one) :=
      allowed_sound good fun _ => sound_pure good rfl
    refine hone.bind ?_
    rintro _ u good rfl
    exact sound_pure good rfl
  | loopBy _ _ _ _ ihs iht ihw ihb =>
    refine sound_of_layer ha
      (loop_sound (keeps ihs) (keeps iht) (fun t good => ?_) (keeps ihb) s hs)
    refine (keeps ihw t good).bind fun value u good hv => ?_
    have hfinite : Yields (numeric .loopStep value) u (·.isFinite) :=
      fun x v h => S.finite (numeric_yields hv x v h)
    exact (numeric_reads admits_all _ _).sound hfinite good
  | print _ ih =>
    refine sound_of_layer ha (print_sound (fun item hi t good => ?_) s hs)
    by_cases hq : ∃ literal, item = .quoted literal
    · obtain ⟨literal, rfl⟩ := hq
      refine allowed_sound good fun _ => ?_
      rw [eval]
      split
      · exact sound_pure good trivial
      · exact sound_fail good
    · refine (keeps (ih item hi fun literal h => hq ⟨literal, h⟩) t good).mono ?_
      exact fun _ _ => trivial
  | numeric _ ih => exact sound_of_layer ha (numericTerm_sound (keeps ih) s hs)
  | unwrapped _ ih => exact sound_of_layer ha (unwrapped_sound (keeps ih) s hs)
  | sum _ _ ihl ihr => exact sound_of_layer ha (sum_sound (keeps ihl) (keeps ihr) s hs)
  | product _ _ ihl ihr => exact sound_of_layer ha (product_sound (keeps ihl) (keeps ihr) s hs)
  | power _ _ ihb ihe => exact sound_of_layer ha (power_sound (keeps ihb) (keeps ihe) s hs)
  | signed _ ih => exact sound_of_layer ha (signed_sound (keeps ih) s hs)
  | @call name pos items _ ih =>
    refine sound_of_layer ha (call_sound (fun item hi => keeps (ih item hi)) hs ?_)
    rintro rfl values t hv
    rw [mapM_congr (allowed_agrees ha), ← evalAll_eq_mapM] at hv
    exact ha ⟨pos, items, s, values, t, .here, hv⟩
  | conditional _ _ _ ihc ihh iho =>
    exact sound_of_layer ha (conditional_sound (keeps ihc) (keeps ihh) (keeps iho) s hs)
  | boolean _ ih => exact sound_of_layer ha (boolean_sound (keeps ih) s hs)
  | connected _ _ ihl ihr => exact sound_of_layer ha (connected_sound (keeps ihl) (keeps ihr) s hs)
  | negated _ ih => exact sound_of_layer ha (negated_sound (keeps ih) s hs)
  | comparison _ _ _ ihf ihr =>
    refine sound_of_layer ha ?_
    refine (links_sound (keeps ihf) (fun item hi => keeps (ihr item hi)) hs).bind fun _ t ht _ => ?_
    exact sound_pure ht trivial

end Run

/-! ### Sessions -/

namespace State

/-- The program that the text writes, run in this state, calls the function. -/
def Invokes (limit : Nat) (name text : String) (s : State) : Prop :=
  ∃ tree, Grammar.parse text = .ok tree ∧
    Run.Invokes limit name (Term.ofTree tree) { s with source := Text.lines text, output := [] }

/-- All variables have values whose numbers have the property. -/
def Holds (P : Decimal → Prop) (s : State) : Prop :=
  ∀ name value, s.env.get? name = some value → value.Numeric P

theorem holds_of_entries {P : Decimal → Prop} {s : State}
    (h : ∀ entry ∈ s.env.entries, entry.2.Numeric P) : s.Holds P := by
  intro name value hget
  obtain ⟨before, after, hentries, _⟩ := List.lookup_eq_some_iff.mp hget
  exact h (name, value) (by simp [hentries])

variable {S : Standard} {limit : Nat} {s : State}

theorem executeWithin_good {text : String} (hs : S.Good s)
    (ha : s.Invokes limit "set_precision" text → S.Free) :
    S.Good (s.executeWithin limit text).2 := by
  unfold executeWithin
  split
  · exact ⟨hs.fixed, hs.held⟩
  · rename_i tree hparse
    have hprogram := Grammar.parse_isProgram hparse
    have good : S.Good { s with source := Text.lines text, output := [] } := ⟨hs.fixed, hs.held⟩
    cases hsep : tree.isSeparator with
    | true =>
      -- a lone separator has its own text as its value
      obtain ⟨sep, pos, rfl⟩ := Tree.eq_of_isSeparator hsep
      exact good
    | false =>
      have hsound := Run.eval_sound (program_term hprogram hsep) good
        fun hi => ha ⟨tree, hparse, hi⟩
      exact hsound.good

theorem visits_good {allowed : Nat → State → Step → Prop} {start t : State}
    (ha : ∀ limit s step, allowed limit s step →
      ∃ text, step = .execute text ∧ (s.Invokes limit "set_precision" text → S.Free))
    (h : Visits allowed start t) (hs : S.Good start) : S.Good t := by
  induction h with
  | start => exact hs
  | step _ hstep ih =>
    obtain ⟨text, rfl, hfree⟩ := ha _ _ _ hstep
    exact executeWithin_good ih hfree

end State

/-- Numbers are finite, at any precision. -/
def Standard.ofFinite : Standard where
  Meets x := x.isFinite
  Fixed _ _ := True
  finite h := h
  round _ hx h := Decimal.toPlaces_finite hx h

/-- Numbers lie on the grid of a precision that stays the same. -/
def Standard.ofGrid (digits places : Nat) (h : 0 < digits) : Standard where
  Meets := Decimal.OnGrid digits (Decimal.keptPlaces digits places)
  Fixed d p := d = digits ∧ p = places
  finite hx := hx.finite
  round := by
    rintro _ _ x y ⟨rfl, rfl⟩ hx hy
    exact Decimal.toPlaces_onGrid h hx hy

/-- Whatever programs a session runs, and whether they fail or not, its variables hold
nothing but finite numbers and powers of them. As long as no program sets the
precision, all these numbers have exactly the places that the first state keeps and no more
digits than it allows, if they had so at first. -/
theorem variables_hold_rounded_numbers {start : State} (hstart : start.Holds (·.isFinite)) :
    (∀ t, start.Visits (fun _ _ step => ∃ text, step = .execute text) t →
      t.Holds (·.isFinite)) ∧
    (0 < start.digits → start.Holds (·.OnGrid start.digits start.kept) →
      ∀ t, start.Visits (fun limit s step => ∃ text, step = .execute text ∧
          ¬s.Invokes limit "set_precision" text) t →
        t.Holds (·.OnGrid start.digits start.kept)) := by
  refine ⟨fun t h => ?_, fun hd hgrid t h => ?_⟩
  · have hgood : Standard.ofFinite.Good start := ⟨trivial, hstart⟩
    refine (State.visits_good ?_ h hgood).held
    rintro limit s step ⟨text, rfl⟩
    exact ⟨text, rfl, fun _ => ⟨fun _ _ => trivial, fun _ => rfl⟩⟩
  · have hgood : (Standard.ofGrid start.digits start.places hd).Good start := ⟨⟨rfl, rfl⟩, hgrid⟩
    refine (State.visits_good ?_ h hgood).held
    rintro limit s step ⟨text, rfl, hcall⟩
    exact ⟨text, rfl, fun hi => absurd hi hcall⟩

/-- A power of a number that was given. -/
theorem variables_hold_rounded_numbers_power :
    let start := State.new 28 [("x", .decimal (.finite false 15000000000 (-10)))] false
    let text := "y = x ** 2"
    let t := (Step.takeWithin 1 start (.execute text)).2
    start.Holds (·.isFinite) ∧ start.Holds (·.OnGrid 28 10) ∧
      ¬start.Invokes 1 "set_precision" text ∧
      t.env.get? "y" = some (.power (.finite false 15000000000 (-10))
        (.finite false 20000000000 (-10)) (.finite false 22500000000 (-10))) ∧
      t.Holds (·.isFinite) ∧ t.Holds (·.OnGrid 28 10) := by
  intro start text t
  have hfinite : start.Holds (·.isFinite) := State.holds_of_entries (by decide +kernel)
  have hgrid : start.Holds (·.OnGrid 28 10) := State.holds_of_entries (by decide +kernel)
  have hcall : ¬start.Invokes 1 "set_precision" text := by
    have hterm : ((Grammar.parse text).map fun tree => match Term.ofTree tree with
        | .assign _ _ _ (.power (.var ..) (.number _) _) _ => true
        | _ => false) = .ok true := by decide +kernel
    rintro ⟨tree, hparse, hi⟩
    rw [hparse] at hterm
    replace hterm := Except.ok.inj hterm
    dsimp only at hterm
    split at hterm
    · rename_i heq
      rw [heq] at hi
      -- below the assignment stands the power, and below that a variable and a number
      obtain ⟨_, _, ⟨⟩⟩ | ⟨u, v, hu, hi⟩ := hi.inv
      cases List.mem_singleton.mp hu
      obtain ⟨_, _, ⟨⟩⟩ | ⟨u, v, hu, hi⟩ := hi.inv
      rcases List.mem_cons.mp hu with ⟨⟨⟩⟩ | hu
      · obtain ⟨_, _, ⟨⟩⟩ | ⟨_, _, ⟨⟩, _⟩ := hi.inv
      · obtain ⟨_, _, _, hu⟩ := Run.mem_after.mp hu
        obtain ⟨_, _, _, hu⟩ := Run.mem_after.mp hu
        cases List.mem_singleton.mp hu
        obtain ⟨_, _, ⟨⟩⟩ | ⟨_, _, ⟨⟩, _⟩ := hi.inv
    · cases hterm
  have hy : t.env.get? "y" = some (.power (.finite false 15000000000 (-10))
      (.finite false 20000000000 (-10)) (.finite false 22500000000 (-10))) := by
    decide +kernel
  obtain ⟨hall, hrounded⟩ := variables_hold_rounded_numbers hfinite
  refine ⟨hfinite, hgrid, hcall, hy, hall t ?_, hrounded (by decide) hgrid t ?_⟩
  · exact .step .start ⟨text, rfl⟩
  · exact .step .start ⟨text, rfl, hcall⟩

end DecimalScript
