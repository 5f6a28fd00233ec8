import DecimalScript.Proofs.TwoRunEvaluation
import DecimalScript.Proofs.Definedness
import DecimalScript.Proofs.Displacement
import DecimalScript.Proofs.Precision
import DecimalScript.Proofs.Regular
import DecimalScript.Proofs.Units
import Mathlib

/-! How often a loop runs its body. The variable is moved on by additions that are exact, so after
any number of passes it is where the step times that number takes it; it
stops when it is past the end. The number beyond the end has to fit too. -/

namespace DecimalScript

open Decimal Run

namespace Env

variable {env : Env} {name : String} {value : Value}

theorem setIn_setIn (name : String) (old value : Value) (entries : List (String × Value)) :
    setIn name value (setIn name old entries) = setIn name value entries := by
  induction entries with
  | nil => simp [setIn]
  | cons entry rest ih =>
    simp only [setIn]
    split_ifs with h
    · simp [setIn]
    · simp [setIn, h, ih]

theorem set_set (env : Env) (name : String) (old value : Value) :
    (env.set name old).set name value = env.set name value := by
  simp [set, setIn_setIn]

theorem set_eq_self (h : env.get? name = some value) : env.set name value = env := by
  have hentries (entries : List (String × Value)) (h : entries.lookup name = some value) :
      setIn name value entries = entries := by
    induction entries with
    | nil => cases h
    | cons entry rest ih =>
      rw [lookup_cons_eq] at h
      simp only [setIn]
      split_ifs with hname
      · rw [if_pos hname.symm] at h
        cases h
        rw [← hname]
      · rw [if_neg (Ne.symm hname)] at h
        rw [ih h]
  unfold set
  rw [hentries env.entries h]

theorem erase_set (env : Env) (name : String) (value : Value) :
    (env.set name value).erase name = env.erase name := by
  have hentries (entries : List (String × Value)) :
      (setIn name value entries).filter (·.1 != name) = entries.filter (·.1 != name) := by
    induction entries with
    | nil => simp [setIn]
    | cons entry rest ih =>
      simp only [setIn]
      split_ifs with hname
      · simp [hname]
      · simp [hname, ih]
  unfold erase set
  rw [hentries env.entries]

theorem erase_eq_self (h : env.get? name = none) : env.erase name = env := by
  have hentries : env.entries.filter (·.1 != name) = env.entries := by
    rw [List.filter_eq_self]
    intro entry hentry
    by_contra hname
    have := List.lookup_eq_none_iff.mp h entry hentry
    simp_all
  unfold erase
  rw [hentries]

theorem get?_kept (kept : Bool) (h : env.get? name = some value) :
    (if kept then env else env.erase name).get? name = if kept then some value else none := by
  cases kept <;> simp [h]

end Env

/-! ### The numbers of a loop -/

/-- The bounds and the step of a loop in units of the last place. -/
structure Span where
  digits : Nat
  places : Nat
  first : Int
  last : Int
  step : Int

namespace Span

/-- How often the step goes into the way from the first number to the last. -/
def trips (c : Span) : Int := (c.last - c.first).fdiv c.step

def ascends (c : Span) : Bool := decide (0 < c.step)

def unitsAt (c : Span) (k : Nat) : Int := c.first + k * c.step

/-- The trap for the `k`-th number, if that does not fit. -/
def trapAt (c : Span) (k : Nat) : Trap := lossTrap c.places (c.unitsAt k).natAbs

/-- The numbers of a loop are of so many units, all places are kept, and the bounds fit. -/
structure Measures (c : Span) (range : Range) : Prop where
  digits_pos : 0 < c.digits
  tiny : tinyExponent c.digits ≤ -c.places
  start : Counts c.places range.start c.first
  stop : Counts c.places range.stop c.last
  step : Counts c.places range.step c.step
  start_fits : Fits c.digits c.places c.first.natAbs
  stop_fits : Fits c.digits c.places c.last.natAbs
  step_lt : c.step.natAbs < 10 ^ c.digits
  step_ne : c.step ≠ 0

/-- The number that the variable has in the `k`-th pass, from zero. -/
def number (c : Span) (range : Range) (k : Nat) : Decimal :=
  ofUnits c.places (range.start.isNegative && k == 0) (c.unitsAt k)

variable {c : Span} {range : Range} {k : Nat}

theorem le_trips_iff (hstep : c.step ≠ 0) (k : Int) :
    k ≤ c.trips ↔
      if 0 < c.step then c.first + k * c.step ≤ c.last else c.last ≤ c.first + k * c.step := by
  unfold trips
  split
  · rename_i hpos
    rw [Int.fdiv_eq_ediv_of_nonneg _ hpos.le, Int.le_ediv_iff_mul_le hpos]
    omega
  · rename_i hneg
    have hpos : 0 < -c.step := by omega
    rw [← Int.neg_fdiv_neg, Int.fdiv_eq_ediv_of_nonneg _ hpos.le, Int.le_ediv_iff_mul_le hpos,
      Int.mul_neg]
    omega

/-- The numbers before the end lie between the bounds. -/
theorem Measures.unitsAt_fits (h : c.Measures range) (hk : k ≤ c.trips) :
    Fits c.digits c.places (c.unitsAt k).natAbs := by
  have hend := (le_trips_iff h.step_ne k).mp hk
  have hbetween : (c.unitsAt k).natAbs ≤ max c.first.natAbs c.last.natAbs := by
    unfold unitsAt
    split at hend
    · rename_i hpos
      have := Int.mul_nonneg (Int.natCast_nonneg k) hpos.le
      omega
    · rename_i hneg
      have := Int.mul_nonneg (Int.natCast_nonneg k) (by omega : 0 ≤ -c.step)
      rw [Int.mul_neg] at this
      omega
  rcases le_max_iff.mp hbetween with hle | hle
  · exact h.start_fits.mono hle
  · exact h.stop_fits.mono hle

theorem unitsAt_succ (c : Span) (k : Nat) : c.unitsAt (k + 1) = c.unitsAt k + c.step := by
  unfold unitsAt
  push_cast
  ring

theorem Measures.goesOn (h : c.Measures range) (k : Nat) (w : State) :
    goesOn range c.ascends (c.number range k) w =
      (.ok (decide ((k : Int) ≤ c.trips)), w) := by
  have horder := (counts_ofUnits c.places (range.start.isNegative && k == 0) (c.unitsAt k)).ordered
    h.stop (if c.ascends then Ordering.isLE else Ordering.isGE)
  unfold Run.goesOn number
  rw [decimal_ok horder w]
  congr 2
  rw [Bool.eq_iff_iff]
  refine Iff.trans ?_ (decide_eq_true_iff.trans (le_trips_iff h.step_ne k)).symm
  by_cases hpos : 0 < c.step
  · simp only [ascends, hpos, decide_true, ↓reduceIte]
    exact Std.isLE_compare
  · simp only [ascends, hpos, decide_false, Bool.false_eq_true, ↓reduceIte]
    exact Std.isGE_compare

theorem loopNumber_eq {name : String} {x : Decimal} {u : State}
    (h : u.env.get? name = some (.decimal x)) : loopNumber name u = (.ok x, u) := by
  have hlookup : lookup name u = (.ok (.decimal x), u) := by
    unfold lookup
    rw [bind_of_ok (rfl : (get : Run State) u = (.ok u, u)), h]
    rfl
  rw [loopNumber, bind_of_ok hlookup]
  rfl

theorem Measures.combine (h : c.Measures range) {x y : Decimal} {a b : Int}
    (hx : Counts c.places x a) (hy : Counts c.places y b) (ha : a.natAbs < 10 ^ c.digits)
    (hb : b.natAbs < 10 ^ c.digits) :
    (Decimal.add c.digits x y >>= toPlaces c.digits c.places) =
      if Fits c.digits c.places (a + b).natAbs then
        .ok (ofUnits c.places (x.isNegative && y.isNegative) (a + b))
      else .error (lossTrap c.places (a + b).natAbs) := by
  have hkept := keptPlaces_eq h.tiny
  rw [← hkept] at hx hy
  have hsum := Counts.combine h.digits_pos hx hy ha hb
  rwa [hkept] at hsum

/-- The step after the `k`-th pass. -/
theorem Measures.advance (h : c.Measures range) (hk : k ≤ c.trips) {u : State}
    (hvariable : u.env.get? range.name = some (.decimal (c.number range k)))
    (hdigits : u.digits = c.digits) (hplaces : u.places = c.places) :
    advance range u =
      if Fits c.digits c.places (c.unitsAt (k + 1)).natAbs then
        (.ok (), { u with env := u.env.set range.name (.decimal (c.number range (k + 1))) })
      else (.error (.fault (.trap (c.trapAt (k + 1)))), u) := by
  have hcounts := counts_ofUnits c.places (range.start.isNegative && k == 0) (c.unitsAt k)
  have hsum := h.combine hcounts h.step (h.unitsAt_fits hk).fits h.step_lt
  have hnumber : ofUnits c.places ((ofUnits c.places (range.start.isNegative && k == 0)
      (c.unitsAt k)).isNegative && range.step.isNegative) (c.unitsAt k + c.step) =
      c.number range (k + 1) := by
    unfold number
    rw [unitsAt_succ]
    unfold ofUnits
    congr 1
    split
    · -- the step leads to zero, so the last number had the other sign
      rename_i hzero
      have hstep := h.step_ne
      rw [h.step.isNegative_eq hstep]
      have hne : c.unitsAt k ≠ 0 := by omega
      simp only [isNegative, hne, ↓reduceIte]
      by_cases hneg : c.unitsAt k < 0
      · have hpos : ¬c.step < 0 := by omega
        simp [hneg, hpos]
      · simp [hneg]
    · rfl
  rw [hnumber, ← unitsAt_succ, ← trapAt] at hsum
  rw [Run.advance, bind_of_ok (loopNumber_eq hvariable)]
  refine add_bind ?_ _
  rw [hdigits, hplaces]
  exact hsum

end Span

/-! ### Passes -/

/-- The body of a loop ends with a value or goes on to the next pass, and does not change the
variable, the places or the digits. -/
structure Orderly (name : String) (body : Run Value) (w : State) : Prop where
  ends : (∃ value, (body w).1 = .ok value) ∨ (body w).1 = .error (.signal (.skip name))
  variable_eq : (body w).2.env.get? name = w.env.get? name
  digits_eq : (body w).2.digits = w.digits
  places_eq : (body w).2.places = w.places

/-- The value of a loop after one more pass. -/
def resultAfter (body : Run Value) (result : Value) (w : State) : Value :=
  match (body w).1 with
  | .ok value => value
  | .error _ => result

theorem Orderly.pass {name : String} {body : Run Value} {w : State} (h : Orderly name body w)
    {x : Decimal} (hvariable : w.env.get? name = some (.decimal x)) (progress : Progress) :
    pass name body progress w =
      (.ok ({ result := resultAfter body progress.result w, last := some x }, false),
        (body w).2) := by
  have hnumber := Span.loopNumber_eq (h.variable_eq.trans hvariable)
  have hends := h.ends
  unfold Run.pass resultAfter
  rw [bind_apply]
  unfold catchSignal
  cases hrun : body w with
  | mk outcome u =>
    rw [hrun] at hends hnumber
    rcases hends with ⟨value, rfl⟩ | rfl
    · dsimp only
      rw [bind_of_ok hnumber]
      rfl
    · have htarget : (Signal.skip name).target = name := rfl
      dsimp only
      rw [if_pos htarget, bind_of_ok hnumber]
      rfl

namespace Span

/-- A state in which the `k`-th pass of a loop begins, or would begin. -/
structure At (c : Span) (range : Range) (outer : List String) (k : Nat) (w : State) : Prop where
  variable_eq : w.env.get? range.name = some (.decimal (c.number range k))
  digits_eq : w.digits = c.digits
  places_eq : w.places = c.places
  untraced : w.tracing = false
  loops_eq : w.loops = range.name :: outer

def moved (c : Span) (range : Range) (k : Nat) (u : State) : State :=
  { u with env := u.env.set range.name (.decimal (c.number range (k + 1))) }

variable {c : Span} {range : Range} {outer : List String} {k limit : Nat} {body : Term} {w : State}

theorem At.moved (h : c.At range outer k w) (ho : Orderly range.name (eval limit body) w) :
    c.At range outer (k + 1) (c.moved range k (eval limit body w).2) where
  variable_eq := by simp [Span.moved]
  digits_eq := ho.digits_eq.trans h.digits_eq
  places_eq := ho.places_eq.trans h.places_eq
  untraced := (eval_adjusts limit body w).tracing.trans h.untraced
  loops_eq := (eval_frame limit body w).frame.loops.trans h.loops_eq

theorem Measures.mem_passStates (hc : c.Measures range) (hk : k ≤ c.trips)
    (h : c.At range outer k w) (count : Nat) (progress : Progress) :
    w ∈ passStates range c.ascends (eval limit body) (count + 1) progress w := by
  rw [passStates]
  simp [after, loopNumber_eq h.variable_eq, hc.goesOn, hk, whenTracing_of_not_tracing h.untraced]

/-- One pass, and the step after it. -/
theorem Measures.passes_succ (hc : c.Measures range) (hk : k ≤ c.trips) (h : c.At range outer k w)
    (ho : Orderly range.name (eval limit body) w) (count : Nat) (progress : Progress) :
    passes range c.ascends (eval limit body) (count + 1) progress w =
        (if Fits c.digits c.places (c.unitsAt (k + 1)).natAbs then
          passes range c.ascends (eval limit body) count
            { result := resultAfter (eval limit body) progress.result w,
              last := some (c.number range k) } (c.moved range k (eval limit body w).2)
        else (.error (.fault (.trap (c.trapAt (k + 1)))), (eval limit body w).2)) ∧
    passStates range c.ascends (eval limit body) (count + 1) progress w =
        w :: if Fits c.digits c.places (c.unitsAt (k + 1)).natAbs then
          passStates range c.ascends (eval limit body) count
            { result := resultAfter (eval limit body) progress.result w,
              last := some (c.number range k) } (c.moved range k (eval limit body w).2)
        else [] := by
  have hgoes := hc.goesOn k w
  rw [decide_eq_true hk] at hgoes
  have htrace := whenTracing_of_not_tracing h.untraced (announcePass range progress)
  have hpass := ho.pass h.variable_eq progress
  have hadvance := hc.advance hk (ho.variable_eq.trans h.variable_eq)
    (ho.digits_eq.trans h.digits_eq) (ho.places_eq.trans h.places_eq)
  constructor
  · rw [passes, bind_of_ok (loopNumber_eq h.variable_eq), bind_of_ok hgoes, if_pos rfl,
      bind_of_ok htrace, bind_of_ok hpass]
    dsimp only
    rw [if_neg (by simp), bind_apply, hadvance]
    by_cases hfits : Fits c.digits c.places (c.unitsAt (k + 1)).natAbs
    · rw [if_pos hfits, if_pos hfits]
      rfl
    · rw [if_neg hfits, if_neg hfits]
  · rw [passStates]
    simp only [after, loopNumber_eq h.variable_eq, hgoes, htrace, hpass, hadvance]
    by_cases hfits : Fits c.digits c.places (c.unitsAt (k + 1)).natAbs
    · simp [hfits, Span.moved]
    · simp [hfits]

/-- Past the end there is no pass. -/
theorem Measures.passes_end (hc : c.Measures range) (hk : c.trips < k) (h : c.At range outer k w)
    (limit : Nat) (body : Term) (count : Nat) (progress : Progress) :
    passes range c.ascends (eval limit body) (count + 1) progress w = (.ok progress, w) ∧
    passStates range c.ascends (eval limit body) (count + 1) progress w = [] := by
  have hgoes := hc.goesOn k w
  rw [decide_eq_false (not_le.mpr hk)] at hgoes
  constructor
  · rw [passes, bind_of_ok (loopNumber_eq h.variable_eq), bind_of_ok hgoes, if_neg (by simp)]
    rfl
  · rw [passStates]
    simp [after, loopNumber_eq h.variable_eq, hgoes]

/-- The passes that are left, from the `k`-th to the last. -/
theorem Measures.passes_run (hc : c.Measures range) (m : Nat) {count : Nat} {progress : Progress}
    (hm : (k + m : Nat) = c.trips) (hcount : m + 1 < count) (h : c.At range outer k w)
    {states : List State}
    (hstates : passStates range c.ascends (eval limit body) count progress w = states)
    (ho : ∀ v ∈ states, Orderly range.name (eval limit body) v) :
    states.map (·.env.get? range.name) =
      (List.range' k (m + 1)).map (fun j => some (.decimal (c.number range j))) ∧
    ∃ v, states.getLast? = some v ∧ c.At range outer (k + m) v ∧
      passes range c.ascends (eval limit body) count progress w =
        if Fits c.digits c.places (c.unitsAt (k + m + 1)).natAbs then
          (.ok ⟨states.foldl (resultAfter (eval limit body)) progress.result,
            some (c.number range (k + m))⟩, c.moved range (k + m) (eval limit body v).2)
        else (.error (.fault (.trap (c.trapAt (k + m + 1)))), (eval limit body v).2) := by
  induction m generalizing k count progress w states with
  | zero =>
    obtain ⟨count, rfl⟩ : ∃ n, count = n + 2 := ⟨count - 2, by omega⟩
    have hw := ho w (hstates ▸ hc.mem_passStates (by omega) h (count + 1) progress)
    obtain ⟨hpasses, hlist⟩ := hc.passes_succ (by omega) h hw (count + 1) progress
    obtain ⟨hend, hnone⟩ := hc.passes_end (by omega) (h.moved hw) limit body
      count ⟨resultAfter (eval limit body) progress.result w, some (c.number range k)⟩
    rw [hend] at hpasses
    rw [hstates, hnone, ite_self] at hlist
    subst hlist
    exact ⟨by simp [h.variable_eq], w, rfl, h, hpasses⟩
  | succ m ih =>
    obtain ⟨count, rfl⟩ : ∃ n, count = n + 1 := ⟨count - 1, by omega⟩
    have hw := ho w (hstates ▸ hc.mem_passStates (by omega) h count progress)
    obtain ⟨hpasses, hlist⟩ := hc.passes_succ (by omega) h hw count progress
    have hfits := hc.unitsAt_fits (k := k + 1) (by omega)
    rw [if_pos hfits] at hpasses hlist
    rw [hstates] at hlist
    subst hlist
    have hnext : k + 1 + m = k + (m + 1) := by omega
    obtain ⟨hmap, v, hlast, hv, hrest⟩ := ih (by rw [hnext]; exact hm) (by omega) (h.moved hw) rfl
      fun v hv => ho v (List.mem_cons_of_mem _ hv)
    rw [hnext] at hv hrest
    refine ⟨?_, v, ?_, hv, ?_⟩
    · rw [List.map_cons, hmap, h.variable_eq, List.range'_succ (s := k), List.map_cons]
    · rw [List.getLast?_cons, hlast]
      rfl
    · rw [hpasses, hrest]
      rfl

end Span

/-! ### Loops over known numbers -/

namespace Span

variable {c : Span} {range : Range} {outer : List String} {limit n : Nat} {body : Term} {s : State}

/-- A state in which a loop over the numbers can begin. -/
structure Opens (c : Span) (range : Range) (outer : List String) (s : State) : Prop where
  digits_eq : s.digits = c.digits
  places_eq : s.places = c.places
  untraced : s.tracing = false
  loops_eq : s.loops = range.name :: outer

def opened (c : Span) (range : Range) (s : State) : State :=
  { s with env := s.env.set range.name (.decimal (c.number range 0)) }

theorem Opens.opened (h : c.Opens range outer s) : c.At range outer 0 (c.opened range s) where
  variable_eq := by simp [Span.opened]
  digits_eq := h.digits_eq
  places_eq := h.places_eq
  untraced := h.untraced
  loops_eq := h.loops_eq

theorem Measures.prepare (hc : c.Measures range) (h : c.Opens range outer s) :
    prepare range s = (.ok (s.env.get? range.name, c.ascends), c.opened range s) := by
  have hzero : range.step.equal .zero = .ok false := by
    rw [hc.step.equal_zero, decide_eq_false hc.step_ne]
  have hround : range.start.toPlaces s.digits s.places = .ok (c.number range 0) := by
    have hkept := keptPlaces_eq hc.tiny
    have hstart := hc.start
    rw [← hkept] at hstart
    rw [h.digits_eq, h.places_eq, hstart.rounded hc.digits_pos hc.start_fits, hkept]
    simp [number, unitsAt]
  have hup : range.step.ordered Ordering.isGT .zero = .ok c.ascends := by
    rw [hc.step.ordered (counts_zero c.places), ascends]
    congr 1
    rw [Bool.eq_iff_iff, decide_eq_true_iff, Ordering.isGT_iff_eq_gt]
    exact compare_gt_iff_gt
  rw [Run.prepare, bind_of_ok (decimal_ok hzero s), if_neg (by simp),
    bind_of_ok (rfl : (get : Run State) s = (.ok s, s)), bind_of_ok (round_ok hround),
    bind_of_ok (rfl : setVariable range.name (.decimal (c.number range 0)) s =
      (.ok (), c.opened range s)), bind_of_ok (decimal_ok hup _)]
  rfl

/-- The states in which a loop over the numbers runs its body. -/
def states (range : Range) (limit : Nat) (body : Term) (s : State) : List State :=
  after (Run.prepare range) s fun found s =>
    passStates range found.2 (eval limit body) limit {} s

theorem Measures.states_eq (hc : c.Measures range) (h : c.Opens range outer s) :
    states range limit body s =
      passStates range c.ascends (eval limit body) limit {} (c.opened range s) := by
  unfold states after
  rw [hc.prepare h]

theorem Measures.loopOver_eq (hc : c.Measures range) (h : c.Opens range outer s) :
    loopOver limit range (eval limit body) s =
      (passes range c.ascends (eval limit body) limit {} >>= fun progress =>
        settle range.name (s.env.get? range.name) progress >>= fun _ => pure progress.result)
      (c.opened range s) := by
  rw [loopOver, bind_of_ok (hc.prepare h)]

/-- A loop whose first number is past the end leaves the state as it was. -/
theorem Measures.loopOver_empty (hc : c.Measures range) (h : c.Opens range outer s) (body : Term)
    (hn : c.trips < 0) (hlimit : 0 < limit) :
    states range limit body s = [] ∧ loopOver limit range (eval limit body) s = (.ok .none, s) := by
  obtain ⟨count, rfl⟩ : ∃ count, limit = count + 1 := ⟨limit - 1, by omega⟩
  obtain ⟨hpasses, hstates⟩ := hc.passes_end (by omega) h.opened (count + 1) body count
    {}
  refine ⟨(hc.states_eq h).trans hstates, ?_⟩
  rw [hc.loopOver_eq h, bind_of_ok hpasses]
  cases hbefore : s.env.get? range.name with
  | none =>
    have hstate : { s with env := (c.opened range s).env.erase range.name } = s := by
      rw [opened, Env.erase_set, Env.erase_eq_self hbefore]
    exact congrArg _ hstate
  | some value =>
    have hstate : { s with env := (c.opened range s).env.set range.name value } = s := by
      rw [opened, Env.set_set, Env.set_eq_self hbefore]
    exact congrArg _ hstate

/-- A loop runs its body for each number up to the end. Then it ends, or the step past the end is
a trap. -/
theorem Measures.loopOver_run (hc : c.Measures range) (h : c.Opens range outer s)
    (hn : c.trips = n) (hlimit : n + 1 < limit)
    (ho : ∀ w ∈ states range limit body s, Orderly range.name (eval limit body) w) :
    (states range limit body s).map (·.env.get? range.name) =
      (List.range (n + 1)).map (fun k => some (.decimal (c.number range k))) ∧
    ∃ w, (states range limit body s).getLast? = some w ∧ c.At range outer n w ∧
      loopOver limit range (eval limit body) s =
        if Fits c.digits c.places (c.unitsAt (n + 1)).natAbs then
          (.ok ((states range limit body s).foldl (resultAfter (eval limit body)) .none),
            { (eval limit body w).2 with
              env := if (s.env.get? range.name).isSome then (eval limit body w).2.env
                else (eval limit body w).2.env.erase range.name })
        else (.error (.fault (.trap (c.trapAt (n + 1)))), (eval limit body w).2) := by
  obtain ⟨hmap, w, hlast, hw, hpasses⟩ := hc.passes_run n (by omega) hlimit h.opened
    (hc.states_eq h).symm ho
  rw [Nat.zero_add] at hw hpasses
  rw [← List.range_eq_range'] at hmap
  refine ⟨hmap, w, hlast, hw, ?_⟩
  have hvariable := (ho w (List.mem_of_getLast? hlast)).variable_eq.trans hw.variable_eq
  rw [hc.loopOver_eq h, bind_apply, hpasses]
  by_cases hfits : Fits c.digits c.places (c.unitsAt (n + 1)).natAbs
  · rw [if_pos hfits, if_pos hfits]
    cases hbefore : s.env.get? range.name with
    | none =>
      have henv : (c.moved range n (eval limit body w).2).env.erase range.name =
          (eval limit body w).2.env.erase range.name := Env.erase_set ..
      rw [Option.isSome_none, if_neg (by simp), ← henv]
      rfl
    | some value =>
      have henv : (c.moved range n (eval limit body w).2).env.set range.name
          (.decimal (c.number range n)) = (eval limit body w).2.env := by
        rw [moved, Env.set_set, Env.set_eq_self hvariable]
      rw [Option.isSome_some, if_pos rfl, ← henv]
      rfl
  · rw [if_neg hfits, if_neg hfits]

end Span

/-! ### Loops -/

/-- A loop, with the state in which it is evaluated, the numbers of its head and the state that
the head leaves. -/
structure LoopRun where
  pos : Pos
  place : Pos
  name : String
  start : Tree
  stop : Tree
  step : Option Tree
  body : Tree
  before : State
  first : Decimal
  last : Decimal
  width : Decimal
  inside : State

namespace LoopRun

def tree (a : LoopRun) : Tree :=
  .node .forExpr (some a.pos)
    ([.token .name a.name a.place, a.start, a.stop] ++ a.step.toList ++ [a.body])

def stepTerm (a : LoopRun) : Term :=
  match a.step with
  | some tree => Term.ofTree tree
  | none => .constant (.decimal .one)

def range (a : LoopRun) : Range where
  name := a.name
  start := a.first
  stop := a.last
  step := a.width
  showsStep := a.step.isSome
  pos := some a.pos

def outcome (limit : Nat) (a : LoopRun) : Except Exit Value × State :=
  eval limit (Term.ofTree a.tree) a.before

def states (limit : Nat) (a : LoopRun) : List State :=
  bodyStates limit a.name (Term.ofTree a.start) (Term.ofTree a.stop) a.stepTerm a.step.isSome
    (Term.ofTree a.body) (some a.pos) a.before

def head (limit : Nat) (a : LoopRun) : Run (Decimal × Decimal × Decimal) := do
  let first ← numberOf limit .loopStart (Term.ofTree a.start)
  let last ← numberOf limit .loopEnd (Term.ofTree a.stop)
  let width ← numberOf limit .loopStep a.stepTerm
  return (first, last, width)

/-- The loop begins: its variable is not that of a running loop, and its head gives the numbers. -/
structure Begins (limit : Nat) (a : LoopRun) : Prop where
  fresh : a.name ∉ a.before.loops
  head : a.head limit { a.before with loops := a.name :: a.before.loops } =
    (.ok (a.first, a.last, a.width), a.inside)
  untraced : a.inside.tracing = false

theorem ofTree_tree (a : LoopRun) : Term.ofTree a.tree =
    .loop a.name (Term.ofTree a.start) (Term.ofTree a.stop) a.stepTerm a.step.isSome
      (Term.ofTree a.body) (some a.pos) := by
  rw [tree, Term.ofTree_node]
  obtain ⟨pos, place, name, start, stop, step, body, before, first, last, width, inside⟩ := a
  cases step <;> rfl

variable {limit : Nat} {a : LoopRun} {c : Span}

theorem after_of_ok {α β : Type} {run : Run α} {s t : State} {x : α} {next : α → State → List β}
    (h : run s = (.ok x, t)) : after run s next = next x t := by
  unfold after
  rw [h]

theorem numberOf_loops {usage : Usage} {t : Term} {s u : State} {x : Decimal}
    (h : numberOf limit usage t s = (.ok x, u)) : u.loops = s.loops := by
  obtain ⟨value, v, hv, hx⟩ := eq_ok_of_bind h
  have hnumeric : Frame v u := (numeric_reads admits_all usage value).frame.of_ok hx
  exact hnumeric.loops.trans ((eval_frame limit t s).of_ok hv).loops

/-- A loop that begins is a loop over the numbers of its head. -/
theorem Begins.outcome_eq (h : a.Begins limit) :
    a.outcome limit =
      ((loopOver limit a.range (eval limit (Term.ofTree a.body)) a.inside).1,
        endLoop a.name (loopOver limit a.range (eval limit (Term.ofTree a.body)) a.inside).2) ∧
    a.states limit = Span.states a.range limit (Term.ofTree a.body) a.inside ∧
    a.inside.loops = a.name :: a.before.loops := by
  have hfresh : a.before.loops.contains a.name = false := by simpa using h.fresh
  obtain ⟨first, s₁, hfirst, hrest⟩ := eq_ok_of_bind h.head
  obtain ⟨last, s₂, hlast, hrest⟩ := eq_ok_of_bind hrest
  obtain ⟨width, s₃, hwidth, hrest⟩ := eq_ok_of_bind hrest
  obtain ⟨hnumbers, rfl⟩ := Prod.mk.inj hrest
  obtain ⟨rfl, hpair⟩ := Prod.mk.inj (Except.ok.inj hnumbers)
  obtain ⟨rfl, rfl⟩ := Prod.mk.inj hpair
  refine ⟨?_, ?_, ?_⟩
  · rw [outcome, ofTree_tree, eval]
    unfold insideLoop
    rw [hfresh, if_neg (by simp), numberOf_bind hfirst, numberOf_bind hlast, numberOf_bind hwidth]
    rfl
  · unfold states bodyStates
    rw [hfresh, if_neg (by simp)]
    refine (after_of_ok hfirst).trans ((after_of_ok hlast).trans ((after_of_ok hwidth).trans ?_))
    change after (prepare a.range) a.inside _ = _
    unfold Span.states after
    cases prepare a.range a.inside with
    | mk found s => cases found <;> rfl
  · rw [numberOf_loops hwidth, numberOf_loops hlast, numberOf_loops hfirst]

theorem endLoop_eq {name : String} {outer : List String} {s : State}
    (h : s.loops = name :: outer) : endLoop name s = { s with loops := outer } := by
  unfold endLoop
  rw [h]
  dsimp only
  rw [if_pos rfl]

end LoopRun

/-- How often a loop runs its body, where the bounds and the step are whole numbers of units in the
last place and the body leaves the variable alone. If the first number is past the end,
nothing happens. Otherwise the body is run once for each number from the first to the
end, with the variable equal to it. If the next number fits, the loop ends normally,
with the last number in the variable if that was defined before; if it does not,
the loop ends with a trap after the last run of the body. -/
theorem loops_trip_exactly {limit : Nat} (a : LoopRun) (c : Span) (h : a.Begins limit)
    (hc : c.Measures a.range) (hdigits : a.inside.digits = c.digits)
    (hplaces : a.inside.places = c.places)
    (ho : ∀ w ∈ a.states limit, Orderly a.name (eval limit (Term.ofTree a.body)) w)
    (hlimit : (c.trips + 1).toNat < limit) :
    (c.trips < 0 → a.states limit = [] ∧
      a.outcome limit = (.ok .none, { a.inside with loops := a.before.loops })) ∧
    ∀ n : Nat, c.trips = n →
      (a.states limit).map (·.env.get? a.name) =
        (List.range (n + 1)).map (fun k => some (.decimal (c.number a.range k))) ∧
      ∃ w u, (a.states limit).getLast? = some w ∧ u = (eval limit (Term.ofTree a.body) w).2 ∧
        (Fits c.digits c.places (c.unitsAt (n + 1)).natAbs → ∃ t,
          a.outcome limit =
            (.ok ((a.states limit).foldl (resultAfter (eval limit (Term.ofTree a.body))) .none),
              t) ∧
          t = { u with
            loops := a.before.loops
            env := if (a.inside.env.get? a.name).isSome then u.env else u.env.erase a.name } ∧
          t.env.get? a.name = if (a.inside.env.get? a.name).isSome then
            some (.decimal (c.number a.range n)) else none) ∧
        (¬Fits c.digits c.places (c.unitsAt (n + 1)).natAbs → a.outcome limit =
          (.error (.fault (.trap (c.trapAt (n + 1)))), { u with loops := a.before.loops })) := by
  obtain ⟨houtcome, hstates, hloops⟩ := h.outcome_eq
  have hopens : c.Opens a.range a.before.loops a.inside := ⟨hdigits, hplaces, h.untraced, hloops⟩
  rw [hstates] at ho ⊢
  rw [houtcome]
  constructor
  · intro hn
    obtain ⟨hnone, hloop⟩ := hc.loopOver_empty hopens (Term.ofTree a.body) hn
      (by omega : 0 < limit)
    rw [hloop, hnone]
    exact ⟨rfl, congrArg _ (LoopRun.endLoop_eq hloops)⟩
  · intro n hn
    obtain ⟨hmap, w, hlast, hw, hloop⟩ := hc.loopOver_run hopens hn (by omega) ho
    have hbody := ho w (List.mem_of_getLast? hlast)
    have hleft : (eval limit (Term.ofTree a.body) w).2.loops = a.name :: a.before.loops :=
      (eval_frame limit (Term.ofTree a.body) w).frame.loops.trans hw.loops_eq
    refine ⟨hmap, w, _, hlast, rfl, fun hfits => ?_, fun hloss => ?_⟩
    · rw [hloop, if_pos hfits]
      refine ⟨_, congrArg _ (LoopRun.endLoop_eq hleft), rfl, ?_⟩
      exact Env.get?_kept _ (hbody.variable_eq.trans hw.variable_eq)
    · rw [hloop, if_neg hloss]
      exact congrArg _ (LoopRun.endLoop_eq hleft)

/-- A loop over numbers of units whose body is a constant, outside of other loops. -/
def LoopRun.over (places : Nat) (first last width : Int) : LoopRun where
  pos := ⟨1, 1⟩
  place := ⟨1, 5⟩
  name := "i"
  start := .value (.decimal (ofUnits places false first))
  stop := .value (.decimal (ofUnits places false last))
  step := some (.value (.decimal (ofUnits places false width)))
  body := .value (.decimal .one)
  before := { places }
  first := ofUnits places false first
  last := ofUnits places false last
  width := ofUnits places false width
  inside := { places, loops := ["i"] }

/-- A loop over `5`, `3` and `1`, and one that ends at the largest number. -/
theorem loops_trip_exactly_down :
    let down := LoopRun.over 10 5 0 (-2)
    let up := LoopRun.over 10 9999999999999999999999999998 9999999999999999999999999999 1
    ((down.states 9).map (·.env.get? "i") =
        [some (.decimal (.finite false 5 (-10))), some (.decimal (.finite false 3 (-10))),
          some (.decimal (.finite false 1 (-10)))] ∧
      ∃ v t, down.outcome 9 = (.ok v, t) ∧ t.env.get? "i" = none) ∧
    (up.states 9).length = 2 ∧ (up.outcome 9).1 = .error (.fault (.trap .invalidOperation)) := by
  intro down up
  have horderly (a : LoopRun) (ha : a.body = .value (.decimal .one)) (w : State) :
      Orderly a.name (eval 9 (Term.ofTree a.body)) w := by
    rw [ha]
    exact ⟨.inl ⟨_, rfl⟩, rfl, rfl, rfl⟩
  have hmeasures (first last width : Int) (hfirst : Fits 28 10 first.natAbs)
      (hlast : Fits 28 10 last.natAbs) (hwidth : width.natAbs < 10 ^ 28) (hne : width ≠ 0) :
      Span.Measures ⟨28, 10, first, last, width⟩ (LoopRun.over 10 first last width).range :=
    ⟨Nat.succ_pos 27, (by decide : tinyExponent 28 ≤ -(10 : Nat)), counts_ofUnits ..,
      counts_ofUnits .., counts_ofUnits .., hfirst, hlast, hwidth, hne⟩
  have hbegins (first last width : Int) : (LoopRun.over 10 first last width).Begins 9 :=
    ⟨by simp [LoopRun.over], rfl, rfl⟩
  have hdown := loops_trip_exactly down ⟨28, 10, 5, 0, -2⟩ (hbegins ..)
    (hmeasures _ _ _ (by decide) (by decide) (by decide) (by decide)) rfl rfl
    (fun w _ => horderly down rfl w) (by decide)
  have hup := loops_trip_exactly up
    ⟨28, 10, 9999999999999999999999999998, 9999999999999999999999999999, 1⟩ (hbegins ..)
    (hmeasures _ _ _ (by decide) (by decide) (by decide) (by decide)) rfl rfl
    (fun w _ => horderly up rfl w) (by decide)
  obtain ⟨hnumbers, w, u, -, -, hends, -⟩ := hdown.2 2 (by decide)
  obtain ⟨t, houtcome, -, hgone⟩ := hends (by decide)
  obtain ⟨hnumbers', w', u', -, -, -, htraps⟩ := hup.2 1 (by decide)
  refine ⟨⟨hnumbers, _, t, houtcome, hgone⟩, ?_, ?_⟩
  · simpa using congrArg List.length hnumbers'
  · have hkind : Span.trapAt ⟨28, 10, 9999999999999999999999999998, 9999999999999999999999999999, 1⟩
        (1 + 1) = .invalidOperation := by decide
    rw [htraps (by decide), hkind]

/-- With so many places that none of them is in range, a loop from zero to zero does not begin. -/
theorem loop_trapped_out_of_range :
    let a := LoopRun.over 999999999999999990 0 0 1
    a.Begins 2 ∧ Span.trips ⟨28, 999999999999999990, 0, 0, 1⟩ = 0 ∧ a.states 2 = [] ∧
      a.outcome 2 = (.error (.fault (.trap .invalidOperation)), a.before) :=
  ⟨⟨by simp [LoopRun.over], rfl, rfl⟩, rfl, rfl, rfl⟩

end DecimalScript
