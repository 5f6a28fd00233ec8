import DecimalScript.Proofs.Advance
import DecimalScript.Proofs.Halves
import DecimalScript.Proofs.Resumption
import DecimalScript.Proofs.StandardAlongCourse
import Mathlib

/-! Tracing writes values that a program may never print. A number has a text only if there are
digits enough for all its places, and a traced run ends where one that is shown has none.
Without calls that set the precision this cannot happen: all numbers were rounded to
the places that they are written with. -/

namespace DecimalScript

open Run

/-! ### Numbers that can be written -/

namespace Decimal

variable {digits places : Nat} {x : Decimal}

/-- The number can be written with so many places: rounded to them it has no more than the
digits. Infinities cannot be written, and of what is not a number only the quiet ones. -/
def Writable (digits places : Nat) : Decimal → Prop
  | .finite _ c e => Fits digits places (unitsOf digits places c e)
  | .infinity _ => False
  | .nan _ signaling _ => signaling = false ∧ places ≤ 2 * (maxExponent.toNat + digits)

theorem Writable.toPlaces (hd : 0 < digits) (h : x.Writable digits places) :
    ∃ y, x.toPlaces digits places = .ok y := by
  cases x with
  | finite negative c e =>
    unfold Writable at h
    rw [toPlaces_eq hd, if_pos h]
    exact ⟨_, rfl⟩
  | infinity negative => cases h
  | nan negative signaling payload =>
    obtain ⟨rfl, hfew⟩ := h
    unfold Decimal.toPlaces
    rw [if_neg (by omega)]
    exact ⟨_, rfl⟩

theorem toPlaces_of_not_writable (hd : 0 < digits) (h : ¬x.Writable digits places) :
    x.toPlaces digits places = .error .invalidOperation := by
  cases x with
  | finite negative c e =>
    unfold Writable at h
    rw [toPlaces_eq hd, if_neg h]
  | infinity negative => exact toPlaces_infinity _ _ _
  | nan negative signaling payload =>
    unfold Decimal.toPlaces
    split
    · rfl
    · rename_i hfew
      cases signaling with
      | true => rfl
      | false => exact absurd ⟨rfl, by omega⟩ h

theorem writable_iff (hd : 0 < digits) :
    x.Writable digits places ↔ ∃ y, x.toPlaces digits places = .ok y := by
  refine ⟨Writable.toPlaces hd, fun ⟨y, hy⟩ => ?_⟩
  by_contra h
  rw [toPlaces_of_not_writable hd h] at hy
  cases hy

/-- A number that was rounded to its places can be written with them. -/
theorem writable_of_toPlaces {y : Decimal} (hd : 0 < digits) (hx : x.isNaN = false)
    (h : x.toPlaces digits places = .ok y) : y.Writable digits places := by
  cases x with
  | finite negative c e =>
    obtain ⟨n, rfl, hfits⟩ := fits_of_toPlaces hd h
    exact (writable_iff hd).mpr ⟨_, hfits.toPlaces hd negative⟩
  | infinity negative =>
    rw [toPlaces_infinity] at h
    cases h
  | nan => cases hx

end Decimal

/-- Numbers that are finite and can be written at a precision that stays the same. -/
def Standard.ofWritable (digits places : Nat) (h : 0 < digits) : Standard where
  Meets x := x.isFinite ∧ x.Writable digits places
  Fixed d p := d = digits ∧ p = places
  finite hx := hx.1
  round := by
    rintro _ _ x y ⟨rfl, rfl⟩ hx hy
    exact ⟨Decimal.toPlaces_finite hx hy, Decimal.writable_of_toPlaces h hx hy⟩

def Value.Writable (s : State) : Value → Prop
  | .decimal d => d.Writable s.digits s.places
  | _ => True

namespace Run

variable {α β : Type} {s t : State} {limit : Nat}

/-- The calculation ends because a number cannot be written. -/
def Trapped (x : Run α) (s : State) : Prop := (x s).1 = .error (.fault (.trap .invalidOperation))

theorem Trapped.bind {x : Run α} (h : Trapped x s) (f : α → Run β) : Trapped (x >>= f) s := by
  unfold Trapped at h ⊢
  cases hr : x s with
  | mk r t =>
    rw [hr] at h
    cases h
    rw [bind_of_error hr]

theorem Trapped.after {x : Run α} {f : α → Run β} {a : α} (hx : x s = (.ok a, t))
    (h : Trapped (f a) t) : Trapped (x >>= f) s := by
  unfold Trapped
  rw [bind_of_ok hx]
  exact h

theorem format_cases (hd : 0 < s.digits) (value : Value) :
    (value.Writable s ∧ ∃ text, format value s = (.ok text, s)) ∨
      ¬value.Writable s ∧ format value s = (.error (.fault (.trap .invalidOperation)), s) := by
  cases value with
  | decimal d =>
    by_cases hw : d.Writable s.digits s.places
    · obtain ⟨y, hy⟩ := hw.toPlaces hd
      refine .inl ⟨hw, y.toFixed s.places, ?_⟩
      rw [format, bind_apply, get_apply]
      dsimp only
      rw [hy]
      rfl
    · refine .inr ⟨hw, ?_⟩
      rw [format, bind_apply, get_apply]
      dsimp only
      rw [Decimal.toPlaces_of_not_writable hd hw]
      rfl
  | _ => exact .inl ⟨trivial, _, rfl⟩

/-- A text that is asked for. -/
theorem format_trapped {value : Value} {f : String → Run α} (hd : 0 < s.digits)
    (h : value.Writable s → ∀ text, Trapped (f text) s) : Trapped (format value >>= f) s := by
  rcases format_cases hd value with ⟨hw, text, ht⟩ | ⟨_, ht⟩
  · exact .after ht (h hw text)
  · exact Trapped.bind (congrArg Prod.fst ht) f

/-! ### Where a traced run ends -/

theorem announceVariable_trapped {name : String} {value : Value} (hd : 0 < s.digits)
    (hv : s.env.get? name = some value) (h : ¬value.Writable s) : Trapped (announceVariable name) s := by
  have hlookup : lookup name s = (.ok value, s) := by
    unfold lookup
    rw [bind_apply, get_apply]
    dsimp only
    rw [hv]
    rfl
  exact .after hlookup (format_trapped hd fun hw => absurd hw h)

theorem announceEffect_trapped {note : Note} {value shown : Value} (hd : 0 < s.digits)
    (hs : shown ∈ effectShown note value s) (h : ¬shown.Writable s) :
    Trapped (announceEffect note value) s := by
  unfold effectShown at hs
  unfold announceEffect
  split at hs
  · exact announceVariable_trapped hd (Option.mem_toList.mp hs) h
  · cases hs
  · cases hs
  · cases List.mem_singleton.mp hs
    cases value with
    | none => exact absurd trivial h
    | _ => exact format_trapped hd fun hw => absurd hw h

theorem announceLoop_trapped {range : Range} {value : Value} (hd : 0 < s.digits)
    (hp : range.pos.isSome)
    (hv : value ∈ (if range.showsStep then [.decimal range.step] else []) ++
      [.decimal range.start, .decimal range.stop]) (h : ¬value.Writable s) :
    Trapped (announceLoop range.name range.start range.stop range.step range.showsStep range.pos)
      s := by
  obtain ⟨pos, hpos⟩ := Option.isSome_iff_exists.mp hp
  rw [hpos]
  unfold announceLoop
  dsimp only
  -- if all three could be written, so could the value
  have bounds (stepText : String)
      (hstep : range.showsStep → (Value.decimal range.step).Writable s) : Trapped (do
        let startText ← format (.decimal range.start)
        let stopText ← format (.decimal range.stop)
        write (.traced ("- " ++ Nat.repr pos.line ++ ": for " ++ range.name ++ " in " ++
          startText ++ " .. " ++ stopText ++ stepText))) s := by
    refine format_trapped hd fun hstart _ => format_trapped hd fun hstop _ => absurd ?_ h
    rcases List.mem_append.mp hv with hv | hv
    · split at hv
      · rename_i hs
        cases List.mem_singleton.mp hv
        exact hstep hs
      · cases hv
    · simp only [List.mem_cons, List.not_mem_nil, or_false] at hv
      rcases hv with rfl | rfl
      · exact hstart
      · exact hstop
  cases hs : range.showsStep with
  | true =>
    simp only [↓reduceIte, ← bind_pure_comp, bind_assoc, pure_bind]
    exact format_trapped hd fun hstep text => bounds _ fun _ => hstep
  | false => exact bounds "" fun hs' => by rw [hs] at hs'; cases hs'

theorem announcePass_trapped {range : Range} {progress : Progress} {value : Value}
    (hd : 0 < s.digits) (hp : range.pos.isSome) (hv : value ∈ passShown range progress s)
    (h : ¬value.Writable s) : Trapped (announcePass range progress) s := by
  have htells (value : Value) : Tells (· = .trap .invalidOperation) value s := by
    intro f hf
    rcases format_cases hd value with ⟨_, text, ht⟩ | ⟨_, ht⟩
    · cases hf.symm.trans ht
    · cases hf.symm.trans ht
      rfl
  have hvariable (hv : value ∈ (s.env.get? range.name).toList) (lines : List Line) :
      Trapped (announceVariable range.name) { s with output := lines ++ s.output } :=
    announceVariable_trapped hd (Option.mem_toList.mp hv) h
  unfold passShown at hv
  unfold announcePass
  split
  · rename_i hn
    rw [if_pos hn] at hv
    rcases List.mem_append.mp hv with hv | hv
    · exact (announceLoop_trapped hd hp hv h).bind _
    · rcases announceLoop_notes hp fun value _ => htells value with ⟨_, lines, hx, _⟩ | ⟨f, t, hx, rfl⟩
      · exact .after hx (hvariable hv lines)
      · exact Trapped.bind (congrArg Prod.fst hx) _
  · rename_i hn
    rw [if_neg hn] at hv
    exact hvariable hv []

theorem whenTracing_trapped {x : Run Unit} (ht : s.tracing) (h : Trapped x s) :
    Trapped (whenTracing x) s := by
  unfold whenTracing Trapped
  rw [bind_apply, get_apply]
  simp only [ht, ↓reduceIte]
  exact h

/-- A loop ends where the announcement of a pass does. -/
theorem passes_trapped {range : Range} {up : Bool} {body : Run Value} {count : Nat}
    {progress : Progress} {start : Progress × State}
    (hm : start ∈ passStarts range up body count progress s)
    (h : Trapped (whenTracing (announcePass range start.1)) start.2) :
    Trapped (passes range up body count progress) s := by
  induction count generalizing progress s with
  | zero => cases hm
  | succ count ih =>
    obtain ⟨x, t, hx, hm⟩ := mem_after.mp hm
    obtain ⟨isOn, t, ht, hm⟩ := mem_after.mp hm
    rw [passes]
    refine .after hx (.after ht ?_)
    cases isOn with
    | false => cases hm
    | true =>
      rcases List.mem_cons.mp hm with rfl | hm
      · exact h.bind _
      · obtain ⟨_, u, hu, hm⟩ := mem_after.mp hm
        obtain ⟨⟨progress', left⟩, w, hw, hm⟩ := mem_after.mp hm
        cases left with
        | true => cases hm
        | false =>
          obtain ⟨_, z, hz, hm⟩ := mem_after.mp hm
          exact .after hu (.after hw (.after hz (ih hm)))

theorem passStarts_before {range : Range} {up : Bool} {body : Run Value} (hb : Onward body)
    {count : Nat} {progress : Progress} {start : Progress × State}
    (hm : start ∈ passStarts range up body count progress s) : s.Before start.2 := by
  induction count generalizing progress s with
  | zero => cases hm
  | succ count ih =>
    obtain ⟨x, t, hx, hm⟩ := mem_after.mp hm
    obtain ⟨isOn, u, hu, hm⟩ := mem_after.mp hm
    have hbegun := (onward.loopNumber _).of_ok hx |>.trans ((onward.decimal _).of_ok hu)
    cases isOn with
    | false => cases hm
    | true =>
      rcases List.mem_cons.mp hm with rfl | hm
      · exact hbegun
      · obtain ⟨_, v, hv, hm⟩ := mem_after.mp hm
        have hannounced := (onward.whenTracing (onward.announcePass range progress)).of_ok hv
        obtain ⟨⟨progress', left⟩, w, hw, hm⟩ := mem_after.mp hm
        have hpassed := (onward.pass progress hb).of_ok hw
        cases left with
        | true => cases hm
        | false =>
          obtain ⟨_, z, hz, hm⟩ := mem_after.mp hm
          have hadvanced := (onward.advance range).of_ok hz
          exact (hbegun.trans hannounced).trans ((hpassed.trans hadvanced).trans (ih hm))

/-- An operand that is a number, and what is made of it. -/
theorem Trapped.operand {usage : Usage} {x : Run Value} {f : Decimal → Run α} {a : Decimal}
    (hx : (do numeric usage (← x)) s = (.ok a, t)) (h : Trapped (f a) t) :
    Trapped (do f (← numeric usage (← x))) s := by
  obtain ⟨value, u, hu, ha⟩ := eq_ok_of_bind hx
  exact .after hu (.after ha h)

theorem insideLoop_trapped {name : String} {pos : Option Pos} {run : Run α}
    (hn : s.loops.contains name = false) (h : Trapped run { s with loops := name :: s.loops }) :
    Trapped (insideLoop name pos run) s := by
  unfold Trapped insideLoop
  rw [if_neg (by rw [hn]; simp)]
  exact h

section Shown
variable {u : Term} {value : Value} {w : State}

theorem operand_onward (limit : Nat) (usage : Usage) (u : Term) :
    Onward (do numeric usage (← eval limit u)) :=
  onward.bind (eval_onward limit u) fun _ => onward.numeric usage _

theorem loopStarts_before {name : String} {start stop step body : Term} {showsStep : Bool}
    {pos : Option Pos} {range : Range} {progress : Progress}
    (h : (range, progress, w) ∈ loopStarts limit name start stop step showsStep body pos s) :
    s.Before w := by
  obtain ⟨first, s₁, h₁, h⟩ := mem_after.mp h
  obtain ⟨last, s₂, h₂, h⟩ := mem_after.mp h
  obtain ⟨width, s₃, h₃, h⟩ := mem_after.mp h
  obtain ⟨⟨before, up⟩, s₄, h₄, h⟩ := mem_after.mp h
  obtain ⟨begun, hb, heq⟩ := List.mem_map.mp h
  cases heq
  have hhead := ((operand_onward limit .loopStart start).of_ok h₁).trans
    (((operand_onward limit .loopEnd stop).of_ok h₂).trans
      ((operand_onward limit .loopStep step).of_ok h₃))
  have hprepared := (onward.prepare fun _ _ => trivial).of_ok h₄
  exact hhead.trans (hprepared.trans (passStarts_before (eval_onward limit body) hb))

/-- What is shown is shown in a state that follows. -/
theorem shown_before (h : (value, w) ∈ shown limit u s) : s.Before w := by
  cases u with
  | traced note pos item =>
    obtain ⟨_, t, ht, h⟩ := mem_after.mp h
    obtain ⟨result, x, hx, h⟩ := mem_after.mp h
    obtain ⟨_, _, heq⟩ := List.mem_map.mp h
    cases heq
    have hannounced := (onward.whenTracing (onward.announce pos)).of_ok ht
    exact hannounced.trans ((eval_onward limit item).of_ok hx)
  | loop name start stop step showsStep body pos =>
    dsimp only [shown] at h
    split at h
    · cases h
    · obtain ⟨⟨range, progress, t⟩, hm, h⟩ := List.mem_flatMap.mp h
      obtain ⟨_, _, heq⟩ := List.mem_map.mp h
      cases heq
      have hinside : s.Before { s with loops := name :: s.loops } :=
        .of_eq (List.suffix_refl _) rfl rfl rfl rfl
      exact hinside.trans (loopStarts_before hm)
  | _ => cases h

/-- A term ends where a value that tracing shows cannot be written. -/
theorem shown_trapped (hu : u.Whole) (ht : s.tracing) (hd : 0 < w.digits)
    (hs : (value, w) ∈ shown limit u s) (h : ¬value.Writable w) : Trapped (eval limit u) s := by
  have htracing : w.tracing := by rw [(shown_before hs).adjusted.tracing, ht]
  cases u with
  | traced note pos item =>
    obtain ⟨_, t, ht, hs⟩ := mem_after.mp hs
    obtain ⟨result, x, hx, hs⟩ := mem_after.mp hs
    obtain ⟨_, hm, heq⟩ := List.mem_map.mp hs
    cases heq
    rw [eval]
    refine .after ht (.after hx (Trapped.bind (whenTracing_trapped htracing ?_) _))
    exact announceEffect_trapped hd hm h
  | loop name start stop step showsStep body pos =>
    dsimp only [shown] at hs
    split at hs
    · cases hs
    · rename_i hn
      obtain ⟨⟨range, progress, t⟩, hm, hs⟩ := List.mem_flatMap.mp hs
      obtain ⟨_, hv, heq⟩ := List.mem_map.mp hs
      cases heq
      have hpos : range.pos.isSome := (loopStarts_pass hm).2 ▸ hu.sturdy
      obtain ⟨first, s₁, h₁, hm⟩ := mem_after.mp hm
      obtain ⟨last, s₂, h₂, hm⟩ := mem_after.mp hm
      obtain ⟨width, s₃, h₃, hm⟩ := mem_after.mp hm
      obtain ⟨⟨before, up⟩, s₄, h₄, hm⟩ := mem_after.mp hm
      obtain ⟨begun, hb, heq⟩ := List.mem_map.mp hm
      cases heq
      rw [eval]
      refine insideLoop_trapped (by simpa using hn) (.operand h₁ (.operand h₂ (.operand h₃ ?_)))
      refine .after h₄ (Trapped.bind (passes_trapped hb ?_) _)
      exact whenTracing_trapped htracing (announcePass_trapped hd hpos hv h)
  | _ => cases hs

end Shown

end Run

/-! ### Programs -/

/-- A program that is run with tracing comes to show a number that cannot be written. -/
def State.ShowsUnwritable (limit : Nat) (text : String) (s : State) : Prop :=
  ∃ tree u v x w, Grammar.parse text = .ok tree ∧
    Reaches limit (Term.ofTree tree)
      { s with tracing := true, source := Text.lines text, output := [] } u v ∧
    (.decimal x, w) ∈ shown limit u v ∧ ¬x.Writable w.digits w.places

/-- The digits never run out. -/
theorem State.Before.digits_pos {s t : State} (h : s.Before t) (hs : 0 < s.digits) : 0 < t.digits := by
  refine h.adjusted.invariant (P := fun now => 0 < now.2) (fun before places hb => ?_) hs
  unfold setting digitsFor
  dsimp only
  split_ifs <;> omega

theorem Run.Reaches.whole {limit : Nat} {t u : Term} {s v : State} (h : Reaches limit t s u v)
    (ht : t.Whole) : u.Whole := by
  induction h with
  | here => exact ht
  | call hc _ ih => exact ih (ht.child (mem_children_of_calls hc))

/-- A run with tracing ends where a number that it shows cannot be written. -/
theorem State.ShowsUnwritable.trapped {limit : Nat} {text : String} {s : State}
    (h : s.ShowsUnwritable limit text) (hd : 0 < s.digits) :
    (State.executeWithin limit text { s with tracing := true }).1 =
      .error (.exit (.fault (.trap .invalidOperation))) := by
  obtain ⟨tree, u, v, x, w, hp, hr, hs, hx⟩ := h
  have hv := hr.before.1
  have hw := hv.trans (shown_before hs)
  have htrap : Trapped (eval limit u) v :=
    shown_trapped (hr.whole (program_whole (Grammar.parse_isProgram hp))) hv.adjusted.tracing
      (hw.digits_pos hd) hs hx
  rw [State.executeWithin_ok hp, hr.fault htrap]
  rfl

theorem Run.Reaches.term_below {limit : Nat} {t u : Term} {s v : State}
    (h : Reaches limit t s u v) : Term.Below u t := by
  induction h with
  | here => exact .here
  | call hc _ ih => exact .child (mem_children_of_calls hc) ih

/-- A function whose name is called nowhere in a program is not called by it. -/
theorem State.not_invokes {limit : Nat} {name text : String} {s : State}
    (h : ∀ tree, Grammar.parse text = .ok tree → name ∉ tree.functions) :
    ¬s.Invokes limit name text := by
  rintro ⟨tree, hp, pos, items, v, values, u, hr, _⟩
  have htitled := (Grammar.parse_isProgram hp).titled
  exact h tree hp ((title_source htitled hr.term_below rfl).2.2.2 rfl)

/-- At a precision that stays the same, all numbers can be written that were rounded to it. -/
theorem State.not_showsUnwritable {limit : Nat} {text : String} {s : State} (hd : 0 < s.digits)
    (hset : ¬State.Invokes limit "set_precision" text { s with tracing := true })
    (hs : s.Holds fun x => x.isFinite ∧ x.Writable s.digits s.places) :
    ¬s.ShowsUnwritable limit text := by
  rintro ⟨tree, u, v, x, w, hp, hr, hm, hx⟩
  let S := Standard.ofWritable s.digits s.places hd
  have hgood : S.Good { s with tracing := true, source := Text.lines text, output := [] } :=
    ⟨⟨rfl, rfl⟩, hs⟩
  have hallows : S.Allows limit (Term.ofTree tree)
      { s with tracing := true, source := Text.lines text, output := [] } :=
    fun hi => absurd ⟨tree, hp, hi⟩ hset
  cases hsep : tree.isSeparator with
  | true =>
    obtain ⟨sep, pos, rfl⟩ := Tree.eq_of_isSeparator hsep
    cases hr with
    | here => cases hm
    | call hc => cases hc
  | false =>
    have hordinary : (Term.ofTree tree).Ordinary :=
      .inl (program_term (Grammar.parse_isProgram hp) hsep)
    obtain ⟨hu, hv, ha⟩ := hr.good hordinary hgood hallows
    rcases hu with hu | ⟨literal, rfl⟩ | rfl
    · obtain ⟨hfits, hw⟩ := shown_fits hu hv ha hm
      obtain ⟨hdigits, hplaces⟩ := hw.fixed
      rw [hdigits, hplaces] at hx
      exact hx hfits.2
    · cases hm
    · cases hm

/-- A text that runs without tracing runs with it too and has the same value, unless the traced run
comes to show a number that cannot be written with the places it has then; there it
ends. If the traced run does not set the precision, and all variables have
numbers that can be written at first, it never does. -/
theorem tracing_returns_unless_unwritable (limit : Nat) (text : String) (s : State) (value : Value)
    (hd : 0 < s.digits)
    (h : (State.executeWithin limit text { s with tracing := false }).1 = .ok value) :
    ((State.executeWithin limit text { s with tracing := true }).1 = .ok value ∧
        ¬s.ShowsUnwritable limit text ∨
      (State.executeWithin limit text { s with tracing := true }).1 =
          .error (.exit (.fault (.trap .invalidOperation))) ∧ s.ShowsUnwritable limit text) ∧
    (¬State.Invokes limit "set_precision" text { s with tracing := true } →
      s.Holds (fun x => x.isFinite ∧ x.Writable s.digits s.places) →
      (State.executeWithin limit text { s with tracing := true }).1 = .ok value) := by
  have hcases : (State.executeWithin limit text { s with tracing := true }).1 = .ok value ∨
      s.ShowsUnwritable limit text := by
    cases hp : Grammar.parse text with
    | error mistake =>
      unfold State.executeWithin at h
      rw [hp] at h
      cases h
    | ok tree =>
      have hkeeps := eval_mirror (program_whole (Grammar.parse_isProgram hp)) limit
        (s := { s with tracing := true, source := Text.lines text, output := [] })
        (t := { s with tracing := false, source := Text.lines text, output := [] })
        ⟨⟨rfl, rfl⟩, rfl, rfl⟩
      rw [State.executeWithin_ok hp] at h ⊢
      cases hkeeps with
      | value hx hy _ =>
        rw [hy] at h
        rw [hx]
        exact .inl h
      | exit _ hy _ =>
        rw [hy] at h
        cases h
      | lost _ hf =>
        obtain ⟨u, v, hr, shown, w, hm, hformat⟩ := hf
        have hw := (hr.before.1.trans (shown_before hm)).digits_pos hd
        rcases format_cases hw shown with ⟨_, text, ht⟩ | ⟨hx, _⟩
        · cases hformat.symm.trans ht
        · cases shown with
          | decimal x => exact .inr ⟨tree, u, v, x, w, hp, hr, hm, hx⟩
          | _ => exact absurd trivial hx
  refine ⟨?_, fun hset hs => ?_⟩
  · by_cases hshows : s.ShowsUnwritable limit text
    · exact .inr ⟨hshows.trapped hd, hshows⟩
    · exact .inl ⟨hcases.resolve_right hshows, hshows⟩
  · exact hcases.resolve_right (State.not_showsUnwritable hd hset hs)

/-- A fraction and a loop, in a program that calls no function. -/
theorem tracing_returns_unless_unwritable_loop :
    let text := "x = 2 / 3\nfor i in 1..2 (\n  x += i\n  x\n)"
    (State.executeWithin 4 text {}).1 = .ok (.decimal (.finite false 36666666667 (-10))) ∧
    (State.executeWithin 4 text { tracing := true }).1 =
      .ok (.decimal (.finite false 36666666667 (-10))) := by
  intro text
  have hrun : (State.executeWithin 4 text {}).1 =
      .ok (.decimal (.finite false 36666666667 (-10))) := by decide +kernel
  have hfunctions : ((Grammar.parse text).map Tree.functions) = .ok [] := by decide +kernel
  obtain ⟨-, hsafe⟩ := tracing_returns_unless_unwritable 4 text {} _ (by decide) hrun
  refine ⟨hrun, hsafe (State.not_invokes fun tree hp => ?_) (State.holds_of_entries (by simp))⟩
  rw [hp] at hfunctions
  rw [Except.ok.inj hfunctions]
  simp

/-- A number of thirteen digits is assigned after ten more places have been asked for: with the
twenty places that tracing writes, thirty digits are too few. -/
theorem tracing_breaks_assignment :
    let text := "y = 10 ** 12 + 0; x = set_precision(20); z = y"
    (State.executeWithin 1 text {}).1 = .ok .none ∧
    (State.executeWithin 1 text { tracing := true }).1 =
      .error (.exit (.fault (.trap .invalidOperation))) := by
  decide +kernel

end DecimalScript
