import DecimalScript.Proofs.Modulus
import DecimalScript.Proofs.DoubleRounding
import DecimalScript.Proofs.Trips
import Mathlib

/-! Whether a loop gets on. Its variable is moved by a sum that is rounded to the places, so a step
counts only if it is larger than about half a unit. With a larger step every pass leads on
by a unit at least and the loop runs out of numbers; with a smaller one the variable
stays where it is, and so does the loop. -/

namespace DecimalScript

open Decimal Run

namespace Decimal

variable {digits places : Nat} {x y : Decimal} {v : ℚ}

theorem isFinite_iff : x.isFinite ↔ ∃ s c e, x = .finite s c e := by
  cases x with
  | finite s c e => exact iff_of_true rfl ⟨s, c, e, rfl⟩
  | infinity s => simp [isFinite]
  | nan a b c => simp [isFinite]

theorem OnGrid.value_eq (h : OnGrid digits places x) :
    x.value = x.units * (10 : ℚ) ^ (-places : Int) := by
  obtain ⟨s, c, rfl⟩ := h.exists_eq
  rfl

theorem OnGrid.value_lt_iff (hx : OnGrid digits places x) (hy : OnGrid digits places y) :
    x.value < y.value ↔ x.units < y.units := by
  have hunit : (0 : ℚ) < 10 ^ (-places : Int) := by positivity
  rw [hx.value_eq, hy.value_eq, mul_lt_mul_iff_left₀ hunit, Int.cast_lt]

theorem signed_sumNegative (both : Bool) (v : ℚ) :
    (if sumNegative both v then -|v| else |v|) = v := by
  unfold sumNegative
  rcases lt_trichotomy v 0 with h | rfl | h
  · simp [h, h.ne, abs_of_neg h]
  · simp
  · simp [h.ne', not_lt.mpr h.le, abs_of_pos h]

/-- A step of more than eleven twentieths of a unit leads on. -/
theorem moves_of_near {d r u w : ℚ} (hnear : 20 * |r - (w + d)| ≤ 11 * u)
    (hlarge : 11 * u < 20 * |d|) : (0 < d → w < r) ∧ (d < 0 → r < w) := by
  obtain ⟨hlow, hhigh⟩ := abs_le.mp (show |20 * (r - (w + d))| ≤ 11 * u by
    rwa [abs_mul, abs_of_pos (by norm_num : (0 : ℚ) < 20)])
  constructor
  · intro hd
    rw [abs_of_pos hd] at hlarge
    linarith
  · intro hd
    rw [abs_of_neg hd] at hlarge
    linarith

/-- A step of less than nine twentieths of a unit leads nowhere. -/
theorem stays_of_near {d : ℚ} {m n : Int} {u : ℚ} (hu : 0 < u)
    (hnear : 20 * |n * u - (m * u + d)| ≤ 11 * u) (hsmall : 20 * |d| < 9 * u) : n = m := by
  have htriangle := abs_add_le (n * u - (m * u + d)) d
  have hless : |((n - m : Int) : ℚ)| * u < 1 * u := by
    rw [← abs_of_pos hu, ← abs_mul, abs_of_pos hu]
    have heq : ((n - m : Int) : ℚ) * u = n * u - (m * u + d) + d := by
      push_cast
      ring
    rw [heq]
    linarith
  have hless := lt_of_mul_lt_mul_right hless hu.le
  have hless : |n - m| < 1 := by exact_mod_cast hless
  exact sub_eq_zero.mp (Int.abs_lt_one_iff.mp hless)

/-! ### Numbers that are not finite -/

theorem toPlaces_infinity (digits places : Nat) (negative : Bool) :
    toPlaces digits places (.infinity negative) = .error .invalidOperation := by
  unfold toPlaces
  split <;> rfl

theorem toPlaces_nan (hx : x.isNaN) (h : x.toPlaces digits places = .ok y) : y.isNaN := by
  cases x with
  | finite s c e => cases hx
  | infinity s => cases hx
  | nan a signaling payload =>
    unfold toPlaces at h
    split at h
    · cases h
    · cases signaling with
      | true => cases h
      | false =>
        cases h
        rfl

/-- A number that was rounded to places and is finite fits. -/
theorem fits_of_toPlaces_isFinite (hd : 0 < digits) (h : x.toPlaces digits places = .ok y)
    (hy : y.isFinite) :
    OnGrid digits (keptPlaces digits places) y ∧ Fits digits places y.units.natAbs := by
  cases x with
  | finite a c e =>
    obtain ⟨n, rfl, hfits⟩ := fits_of_toPlaces hd h
    refine ⟨⟨rfl, (digitCount_le_iff hd).mpr hfits.fits⟩, ?_⟩
    rwa [units, natAbs_signed]
  | infinity a =>
    rw [toPlaces_infinity] at h
    cases h
  | nan a b c =>
    have hnan := toPlaces_nan rfl h
    cases y with
    | nan => cases hy
    | finite => cases hnan
    | infinity => cases hnan

theorem ordered_nan (hx : x.isNaN) (accept : Ordering → Bool) (y : Decimal) :
    ∃ trap, x.ordered accept y = .error trap := by
  cases x with
  | finite s c e => cases hx
  | infinity s => cases hx
  | nan a signaling payload =>
    unfold Decimal.ordered compare?
    split
    · exact ⟨_, rfl⟩
    · exact ⟨_, rfl⟩

theorem isNaN_of_ordered {accept : Ordering → Bool} {b : Bool}
    (h : x.ordered accept y = .ok b) : x.isNaN = false := by
  by_contra hnan
  obtain ⟨trap, htrap⟩ := ordered_nan (Bool.not_eq_false _ ▸ hnan) accept y
  rw [htrap] at h
  cases h

theorem value_ordered_zero (hx : x.isFinite) :
    x.ordered Ordering.isGT .zero = .ok (decide (0 < x.value)) := by
  obtain ⟨a, c, e, rfl⟩ := isFinite_iff.mp hx
  have hzero : signedMagnitude false 0 0 = 0 := by simp [signedMagnitude, signed]
  change Except.ok (Ordering.isGT (compareFinite a c e false 0 0)) = _
  rw [compareFinite_signed, hzero]
  congr 1
  rw [Bool.eq_iff_iff, decide_eq_true_iff, Ordering.isGT_iff_eq_gt]
  exact compare_gt_iff_gt

end Decimal

namespace Run

variable {s t : State} {x d r : Decimal}

theorem add_settled_eq (hd : 0 < s.digits) (hx : x.isFinite) (hd' : d.isFinite) :
    add x d s = decimal (settled s.digits s.places
      (sumNegative (x.isNegative && d.isNegative) (x.value + d.value)) |x.value + d.value|) s := by
  obtain ⟨a, c, e, rfl⟩ := isFinite_iff.mp hx
  obtain ⟨b, m, f, rfl⟩ := isFinite_iff.mp hd'
  rw [add_eq, add_settled hd]
  rfl

/-- A sum that has a value is off the exact one by little more than half a unit. -/
theorem add_near (hd : 0 < s.digits) (hx : x.isFinite) (hd' : d.isFinite)
    (h : add x d s = (.ok r, t)) :
    t = s ∧ OnGrid s.digits s.kept r ∧
      20 * |r.value - (x.value + d.value)| ≤ 11 * 10 ^ (-s.kept : Int) := by
  rw [add_settled_eq hd hx hd'] at h
  obtain ⟨hr, rfl⟩ := eq_ok_of_decimal h
  obtain ⟨hfits, rfl⟩ := settled_ok (rfl : _ = t.kept) hr
  have hplace := fun hpos => lastPlace_le hd hpos (tinyExponent_le_kept _ _) hfits.fits
  have hnear := value_near (abs_nonneg (x.value + d.value)) hplace
    (sumNegative (x.isNegative && d.isNegative) (x.value + d.value))
  rw [signed_sumNegative] at hnear
  exact ⟨rfl, ⟨rfl, (digitCount_le_iff hd).mpr hfits.fits⟩, hnear⟩

/-- A sum with a step that is too small to count gives the number back, up to the sign of zero. -/
theorem add_small (hd : 0 < s.digits) (hx : OnGrid s.digits s.kept x)
    (hfits : Fits s.digits s.places x.units.natAbs) (hd' : d.isFinite)
    (hsmall : 20 * |d.value| < 9 * 10 ^ (-s.kept : Int)) :
    ∃ r, add x d s = (.ok r, s) ∧ OnGrid s.digits s.kept r ∧ r.units = x.units := by
  have htiny : tinyExponent s.digits ≤ -s.kept := tinyExponent_le_kept _ _
  have hunit : (0 : ℚ) < 10 ^ (-s.kept : Int) := by positivity
  have habs : |x.value| = x.units.natAbs * (10 : ℚ) ^ (-s.kept : Int) := by
    rw [hx.value_eq, ← magnitude_natAbs]
    rfl
  have htriangle := abs_abs_sub_abs_le (x.value + d.value) x.value
  rw [add_sub_cancel_left] at htriangle
  generalize hv : |x.value + d.value| = v at htriangle
  have hnonneg : 0 ≤ v := hv ▸ abs_nonneg _
  rw [habs] at htriangle
  have hfew : roundedUnits s.digits s.kept v < 10 ^ s.digits := by
    have hexp : (s.digits : Int) - s.kept - s.digits = -s.kept := by omega
    have hpow : (10 : ℚ) ^ (s.digits - s.kept : Int) =
        (10 ^ s.digits : Nat) * 10 ^ (-s.kept : Int) := by
      rw [sub_eq_add_neg, zpow_add₀ (by norm_num), zpow_natCast]
      norm_cast
    have hlt : (x.units.natAbs : ℚ) + 1 ≤ (10 ^ s.digits : Nat) := by exact_mod_cast hfits.fits
    have hlt := mul_le_mul_of_nonneg_right hlt hunit.le
    rw [← not_le, pow_le_roundedUnits_iff hd hnonneg htiny, attains_iff, hexp, hpow]
    intro hle
    have hhigh := (abs_le.mp htriangle).2
    linarith
  have hplace := fun hpos => lastPlace_le hd hpos htiny hfew
  have hunits : roundedUnits s.digits s.kept v = x.units.natAbs := by
    have hnear := value_near hnonneg hplace false
    have hsame := stays_of_near (d := v - x.units.natAbs * (10 : ℚ) ^ (-s.kept : Int))
      (m := x.units.natAbs) (n := roundedUnits s.digits s.kept v) hunit ?_ (by linarith)
    · exact_mod_cast hsame
    · rw [Int.cast_natCast x.units.natAbs, add_sub_cancel]
      exact hnear
  have hadd := add_settled_eq hd hx.finite hd'
  rw [hv, settled_of_fits (rfl : _ = s.kept) _ (hunits ▸ hfits)] at hadd
  obtain ⟨-, hgrid, hnear⟩ := add_near hd hx.finite hd' hadd
  refine ⟨_, hadd, hgrid, stays_of_near hunit ?_ hsmall⟩
  rwa [← hx.value_eq, ← hgrid.value_eq]

/-! ### Passes -/

/-- After such an outcome of its body the loop goes on. -/
def Continues (name : String) (outcome : Except Exit Value) : Prop :=
  (∃ value, outcome = .ok value) ∨ outcome = .error (.signal (.skip name))

/-- A run of the body after which the loop goes on leaves the variable, the digits and the places as
they were. -/
def Spares (name : String) (body : Run Value) (w : State) : Prop :=
  Continues name (body w).1 → (body w).2.env.get? name = w.env.get? name ∧
    (body w).2.digits = w.digits ∧ (body w).2.places = w.places

variable {name : String} {body : Run Value} {w : State} {range : Range} {up : Bool}

/-- A pass after which the loop goes on is a run of the body. -/
theorem pass_goes_on {progress progress' : Progress} {v : State}
    (h : pass name body progress w = (.ok (progress', false), v)) :
    Continues name (body w).1 ∧ v = (body w).2 := by
  have hnumber {u u' : State} {x : Decimal} (hx : loopNumber name u = (.ok x, u')) : u' = u := by
    rcases loopNumber_reads name u with ⟨y, hy⟩ | ⟨f, -, hf⟩
    · exact congrArg Prod.snd (hx.symm.trans hy)
    · exact congrArg Prod.snd (hx.symm.trans hf)
  unfold pass at h
  rw [bind_apply] at h
  unfold catchSignal at h
  cases hrun : body w with
  | mk outcome u =>
    rw [hrun] at h
    cases outcome with
    | ok value =>
      obtain ⟨x, u', hx, hpure⟩ := eq_ok_of_bind h
      cases hpure
      exact ⟨.inl ⟨value, rfl⟩, hnumber hx⟩
    | error e =>
      cases e with
      | signal signal =>
        dsimp only at h
        split at h
        · rename_i htarget
          obtain ⟨x, u', hx, hpure⟩ := eq_ok_of_bind h
          cases signal with
          | leave _ result => cases hpure
          | skip target =>
            cases hpure
            exact ⟨.inr (by rw [← htarget]; rfl), hnumber hx⟩
        · cases h
      | fault f => cases h
      | exhausted => cases h

theorem loopNumber_bind_exhausted {α : Type} {f : Decimal → Run α} {u : State}
    (h : ((loopNumber name >>= f) u).1 = .error .exhausted) :
    ∃ x, (f x u).1 = .error .exhausted := by
  rcases loopNumber_reads name u with ⟨x, hx⟩ | ⟨fault, -, hf⟩
  · rw [bind_of_ok hx] at h
    exact ⟨x, h⟩
  · rw [bind_of_error hf] at h
    cases h

theorem pass_exhausted {progress : Progress}
    (h : (pass name body progress w).1 = .error .exhausted) : (body w).1 = .error .exhausted := by
  unfold pass at h
  rw [bind_apply] at h
  unfold catchSignal at h
  cases hrun : body w with
  | mk outcome u =>
    rw [hrun] at h
    cases outcome with
    | ok value =>
      obtain ⟨x, hx⟩ := loopNumber_bind_exhausted h
      cases hx
    | error e =>
      cases e with
      | signal signal =>
        dsimp only at h
        split at h
        · obtain ⟨x, hx⟩ := loopNumber_bind_exhausted h
          cases signal <;> cases hx
        · cases h
      | fault f => cases h
      | exhausted => rfl

theorem advance_not_exhausted (range : Range) (u : State) :
    (advance range u).1 ≠ .error .exhausted := by
  intro h
  obtain ⟨x, hx⟩ := loopNumber_bind_exhausted h
  rcases add_reads admits_all x range.step u with ⟨y, hy⟩ | ⟨f, -, hf⟩
  · rw [bind_of_ok hy] at hx
    cases hx
  · rw [bind_of_error hf] at hx
    cases hx

/-- A loop comes to its body, or it ends before. -/
theorem passes_begins (range : Range) (up : Bool) (body : Run Value) (count : Nat)
    (progress : Progress) (w : State) :
    (∃ x output, loopNumber range.name w = (.ok x, w) ∧ goesOn range up x w = (.ok true, w) ∧
      whenTracing (announcePass range progress) w = (.ok (), { w with output })) ∨
    passStates range up body (count + 1) progress w = [] ∧
      (passes range up body (count + 1) progress w).1 ≠ .error .exhausted := by
  rw [passes, passStates]
  rcases loopNumber_reads range.name w with ⟨x, hx⟩ | ⟨f, -, hf⟩
  swap
  · rw [bind_of_error hf]
    simp [after, hf]
  rw [bind_of_ok hx, LoopRun.after_of_ok hx]
  rcases goesOn_reads admits_all range up x w with ⟨isOn, hon⟩ | ⟨f, -, hf⟩
  swap
  · rw [bind_of_error hf]
    simp [after, hf]
  rw [bind_of_ok hon, LoopRun.after_of_ok hon]
  cases isOn with
  | false =>
    rw [if_neg (by simp), if_neg (by simp)]
    refine .inr ⟨rfl, fun h => ?_⟩
    cases h
  | true =>
    have hwrites := whenTracing_writes (announcePass_writes range progress) w
    unfold Ensures at hwrites
    cases htrace : whenTracing (announcePass range progress) w with
    | mk traced t =>
      rw [htrace] at hwrites
      cases traced with
      | error e =>
        obtain ⟨-, fault, rfl⟩ := hwrites
        rw [if_pos rfl, if_pos rfl, bind_of_error htrace]
        simp [after, htrace]
      | ok _ =>
        obtain ⟨output, rfl⟩ := hwrites
        exact .inl ⟨x, output, hx, hon, rfl⟩

/-- A loop passes through its body and goes on, or it ends; then it is exhausted only if its body
is. -/
theorem passes_cases (range : Range) (up : Bool) (body : Run Value) (count : Nat)
    (progress : Progress) (w : State) :
    (∃ x output progress' v, loopNumber range.name w = (.ok x, w) ∧
      goesOn range up x w = (.ok true, w) ∧ Continues range.name (body { w with output }).1 ∧
      advance range (body { w with output }).2 = (.ok (), v) ∧
      passes range up body (count + 1) progress w = passes range up body count progress' v ∧
      passStates range up body (count + 1) progress w =
        { w with output } :: passStates range up body count progress' v) ∨
    (passStates range up body (count + 1) progress w).length ≤ 1 ∧
      ((passes range up body (count + 1) progress w).1 = .error .exhausted →
        ∃ v ∈ passStates range up body (count + 1) progress w,
          (body v).1 = .error .exhausted) := by
  rcases passes_begins range up body count progress w with
    ⟨x, output, hx, hon, htrace⟩ | ⟨hnone, hne⟩
  swap
  · rw [hnone]
    exact .inr ⟨Nat.zero_le 1, fun h => absurd h hne⟩
  rw [passes, passStates, bind_of_ok hx, LoopRun.after_of_ok hx, bind_of_ok hon,
    LoopRun.after_of_ok hon, if_pos rfl, if_pos rfl, bind_of_ok htrace, LoopRun.after_of_ok htrace]
  cases hpass : pass range.name body progress { w with output } with
  | mk passed u =>
    cases passed with
    | error e =>
      rw [bind_of_error hpass]
      refine .inr ⟨by simp [after, hpass], ?_⟩
      rintro ⟨⟩
      exact ⟨_, List.mem_cons_self, pass_exhausted (congrArg Prod.fst hpass)⟩
    | ok found =>
      obtain ⟨progress', left⟩ := found
      rw [bind_of_ok hpass, LoopRun.after_of_ok hpass]
      dsimp only
      cases left with
      | true =>
        rw [if_pos rfl, if_pos rfl]
        refine .inr ⟨le_rfl, fun h => ?_⟩
        cases h
      | false =>
        obtain ⟨hbody, rfl⟩ := pass_goes_on hpass
        rw [if_neg (by simp), if_neg (by simp)]
        cases hadvance : advance range (body { w with output }).2 with
        | mk advanced v =>
          cases advanced with
          | error e =>
            have hne := advance_not_exhausted range (body { w with output }).2
            rw [hadvance] at hne
            rw [bind_of_error hadvance]
            refine .inr ⟨by simp [after, hadvance], ?_⟩
            rintro ⟨⟩
            exact absurd rfl hne
          | ok _ =>
            exact .inl ⟨x, output, progress', v, hx, hon, hbody, hadvance, bind_of_ok hadvance,
              congrArg _ (LoopRun.after_of_ok hadvance)⟩

/-! ### Large steps -/

/-- The numbers that are left on the way of the step, with this one. -/
def room (digits : Nat) (step : ℚ) (x : Decimal) : Nat :=
  ((10 ^ digits : Nat) - if 0 < step then x.units else -x.units).toNat

theorem room_le (digits : Nat) (step : ℚ) {places : Nat} (h : OnGrid digits places x) :
    room digits step x ≤ 2 * 10 ^ digits := by
  have hlt := h.units_lt
  unfold room
  split <;> omega

theorem room_pos {digits places : Nat} (step : ℚ) (h : OnGrid digits places x) :
    0 < room digits step x := by
  have hlt := h.units_lt
  unfold room
  split <;> omega

/-- The step counts: it is infinite or more than eleven twentieths of a unit. -/
structure Leads (places : Nat) (step : Decimal) : Prop where
  number : step.isNaN = false
  large : step.isFinite → 11 * (10 : ℚ) ^ (-places : Int) < 20 * |step.value|

theorem add_infinity (hx : x.isFinite) (negative : Bool) (u : State) :
    add x (.infinity negative) u = (.error (.fault (.trap .invalidOperation)), u) := by
  obtain ⟨s, c, e, rfl⟩ := isFinite_iff.mp hx
  rw [add_eq]
  exact decimal_error (toPlaces_infinity u.digits u.places negative) u

/-- A step that counts leads to a number with less room, or it is a trap. -/
theorem advance_leads {digits places : Nat} {u v : State} (hdigits : u.digits = digits)
    (hplaces : u.places = places) (hd : 0 < digits)
    (hstep : Leads (keptPlaces digits places) range.step)
    (hx : OnGrid digits (keptPlaces digits places) x)
    (hvariable : u.env.get? range.name = some (.decimal x)) (h : advance range u = (.ok (), v)) :
    ∃ y, v.env.get? range.name = some (.decimal y) ∧ v.digits = digits ∧ v.places = places ∧
      OnGrid digits (keptPlaces digits places) y ∧
      room digits range.step.value y < room digits range.step.value x := by
  subst hdigits hplaces
  rw [advance, bind_of_ok (Span.loopNumber_eq hvariable)] at h
  obtain ⟨y, t, hy, hset⟩ := eq_ok_of_bind h
  have hfinite : range.step.isFinite := by
    cases hkind : range.step with
    | finite => rfl
    | infinity t =>
      rw [hkind, add_infinity hx.finite] at hy
      cases hy
    | nan a b c =>
      have hnumber := hstep.number
      rw [hkind] at hnumber
      cases hnumber
  obtain ⟨rfl, hgrid, hnear⟩ := add_near hd hx.finite hfinite hy
  cases hset
  refine ⟨y, by simp, rfl, rfl, hgrid, ?_⟩
  obtain ⟨hup, hdown⟩ := moves_of_near hnear (hstep.large hfinite)
  have hxl := hx.units_lt
  have hyl := hgrid.units_lt
  unfold room
  split_ifs with hpos
  · have hlt := (hx.value_lt_iff hgrid).mp (hup hpos)
    omega
  · have hne : range.step.value ≠ 0 := by
      intro hzero
      have hlarge := hstep.large hfinite
      rw [hzero, abs_zero, mul_zero] at hlarge
      exact absurd hlarge (not_lt.mpr (by positivity))
    have hlt := (hgrid.value_lt_iff hx).mp (hdown (lt_of_le_of_ne (not_lt.mp hpos) hne))
    omega

/-- From pass to pass there is less room, so the loop ends. -/
theorem passes_bounded {digits places : Nat} (hd : 0 < digits)
    (hstep : Leads (keptPlaces digits places) range.step) (count : Nat) {progress : Progress}
    (hdigits : w.digits = digits) (hplaces : w.places = places)
    (hvariable : w.env.get? range.name = some (.decimal x))
    (hx : OnGrid digits (keptPlaces digits places) x)
    (hspares : ∀ v ∈ passStates range up body count progress w, Spares range.name body v) :
    (passStates range up body count progress w).length ≤ room digits range.step.value x ∧
      (room digits range.step.value x < count →
        (passes range up body count progress w).1 = .error .exhausted →
        ∃ v ∈ passStates range up body count progress w, (body v).1 = .error .exhausted) := by
  induction count generalizing progress w x with
  | zero => exact ⟨Nat.zero_le _, fun h => absurd h (Nat.not_lt_zero _)⟩
  | succ count ih =>
    have hpos := room_pos range.step.value hx
    rcases passes_cases range up body count progress w with
      ⟨y, output, progress', v, hy, hon, hbody, hadvance, hpasses, hstates⟩ | ⟨hlength, hends⟩
    · rw [hstates] at hspares
      obtain ⟨hsame, hdigits', hplaces'⟩ := hspares _ List.mem_cons_self hbody
      obtain ⟨z, hvariable', hdigits, hplaces, hz, hless⟩ := advance_leads (hdigits'.trans hdigits)
        (hplaces'.trans hplaces) hd hstep hx (hsame.trans hvariable) hadvance
      have hrest (u : State) (hu : u ∈ passStates range up body count progress' v) :
          Spares range.name body u := hspares u (List.mem_cons_of_mem _ hu)
      obtain ⟨hlength, hends⟩ := ih hdigits hplaces hvariable' hz hrest
      rw [hpasses, hstates, List.length_cons]
      refine ⟨by omega, fun hcount h => ?_⟩
      obtain ⟨u, hu, hexhausted⟩ := hends (by omega) h
      exact ⟨u, List.mem_cons_of_mem _ hu, hexhausted⟩
    · exact ⟨hlength.trans hpos, fun _ => hends⟩

/-! ### Small steps -/

/-- Whether the loop goes on depends on the units alone. -/
theorem goesOn_congr {digits places : Nat} {y : Decimal} (hx : OnGrid digits places x)
    (hy : OnGrid digits places y) (h : y.units = x.units) (range : Range) (up : Bool) :
    goesOn range up y = goesOn range up x := by
  obtain ⟨a, c, rfl⟩ := hx.exists_eq
  obtain ⟨b, m, rfl⟩ := hy.exists_eq
  have hvalue : signedMagnitude b m (-places) = signedMagnitude a c (-places) := by
    unfold signedMagnitude
    rw [show signed b m = signed a c from h]
  have hcompare : compare? (.finite b m (-places)) range.stop =
      compare? (.finite a c (-places)) range.stop := by
    cases range.stop with
    | finite t n f =>
      change Except.ok (some (compareFinite b m _ t n f)) = .ok (some (compareFinite a c _ t n f))
      rw [compareFinite_signed, compareFinite_signed, hvalue]
    | infinity t => rfl
    | nan t signaling payload => rfl
  unfold goesOn Decimal.ordered
  rw [hcompare]

/-- A step that is too small leaves the variable where it is. -/
theorem advance_stays {digits places : Nat} {u : State} (hdigits : u.digits = digits)
    (hplaces : u.places = places) (hd : 0 < digits)
    (hx : OnGrid digits (keptPlaces digits places) x) (hfits : Fits digits places x.units.natAbs)
    (hvariable : u.env.get? range.name = some (.decimal x)) (hfinite : range.step.isFinite)
    (hsmall : 20 * |range.step.value| < 9 * (10 : ℚ) ^ (-keptPlaces digits places : Int)) :
    ∃ y, advance range u = (.ok (), { u with env := u.env.set range.name (.decimal y) }) ∧
      OnGrid digits (keptPlaces digits places) y ∧ y.units = x.units := by
  subst hdigits hplaces
  obtain ⟨y, hy, hgrid, hunits⟩ := add_small hd hx hfits hfinite hsmall
  refine ⟨y, ?_, hgrid, hunits⟩
  rw [advance, bind_of_ok (Span.loopNumber_eq hvariable), bind_of_ok hy]
  rfl

theorem passes_stuck {digits places limit : Nat} {body : Term} (hd : 0 < digits)
    (hfinite : range.step.isFinite)
    (hsmall : 20 * |range.step.value| < 9 * (10 : ℚ) ^ (-keptPlaces digits places : Int))
    (count : Nat) {progress : Progress} (hdigits : w.digits = digits) (hplaces : w.places = places)
    (huntraced : w.tracing = false) (hvariable : w.env.get? range.name = some (.decimal x))
    (hx : OnGrid digits (keptPlaces digits places) x) (hfits : Fits digits places x.units.natAbs)
    (hon : ∀ u, goesOn range up x u = (.ok true, u))
    (ho : ∀ v ∈ passStates range up (eval limit body) count progress w,
      Orderly range.name (eval limit body) v) :
    (passes range up (eval limit body) count progress w).1 = .error .exhausted := by
  induction count generalizing progress w x with
  | zero => rfl
  | succ count ih =>
    have htrace := whenTracing_of_not_tracing huntraced (announcePass range progress)
    have hw : Orderly range.name (eval limit body) w := by
      refine ho w ?_
      rw [passStates]
      simp [after, Span.loopNumber_eq hvariable, hon, htrace]
    have hpass := hw.pass hvariable progress
    obtain ⟨y, hadvance, hy, hunits⟩ := advance_stays (hw.digits_eq.trans hdigits)
      (hw.places_eq.trans hplaces) hd hx hfits (hw.variable_eq.trans hvariable) hfinite hsmall
    rw [passes, bind_of_ok (Span.loopNumber_eq hvariable), bind_of_ok (hon w), if_pos rfl,
      bind_of_ok htrace, bind_of_ok hpass]
    dsimp only
    rw [if_neg (by simp), bind_of_ok hadvance]
    refine ih (hw.digits_eq.trans hdigits) (hw.places_eq.trans hplaces)
      ((eval_adjusts limit body w).tracing.trans huntraced) (by simp) hy (hunits ▸ hfits)
      (fun u => (congrFun (goesOn_congr hx hy hunits range up) u).trans (hon u)) fun v hv => ho v ?_
    rw [passStates]
    simp only [after, Span.loopNumber_eq hvariable, hon, htrace, hpass, hadvance]
    exact List.mem_cons_of_mem _ hv

/-! ### Loops -/

/-- A loop begins with its first number and a direction, or its head is at fault. -/
theorem prepare_cases (range : Range) (s : State) :
    (∃ f t, prepare range s = (.error (.fault f), t)) ∨
    ∃ x up, range.start.toPlaces s.digits s.places = .ok x ∧
      range.step.ordered Ordering.isGT .zero = .ok up ∧
      prepare range s = (.ok (s.env.get? range.name, up),
        { s with env := s.env.set range.name (.decimal x) }) := by
  unfold prepare
  rcases decimal_reads admits_all (range.step.equal .zero) s with ⟨isZero, hzero⟩ | ⟨f, -, hf⟩
  swap
  · exact .inl ⟨f, s, bind_of_error hf⟩
  rw [bind_of_ok hzero]
  cases isZero with
  | true =>
    cases range.pos with
    | none => exact .inl ⟨_, _, rfl⟩
    | some pos => exact .inl ⟨_, _, rfl⟩
  | false =>
    rw [if_neg (by simp), bind_of_ok (rfl : (get : Run State) s = (.ok s, s))]
    rcases round_reads admits_all range.start s with ⟨x, hx⟩ | ⟨f, -, hf⟩
    swap
    · exact .inl ⟨f, s, bind_of_error hf⟩
    rw [bind_of_ok hx, bind_of_ok (rfl : setVariable range.name (.decimal x) s =
      (.ok (), { s with env := s.env.set range.name (.decimal x) }))]
    rcases decimal_reads admits_all (range.step.ordered Ordering.isGT .zero)
      { s with env := s.env.set range.name (.decimal x) } with ⟨up, hup⟩ | ⟨f, -, hf⟩
    swap
    · exact .inl ⟨f, _, bind_of_error hf⟩
    exact .inr ⟨x, up, (eq_ok_of_decimal hx).1, (eq_ok_of_decimal hup).1, bind_of_ok hup⟩

/-- A loop is exhausted only by its passes. -/
theorem passes_exhausted {limit : Nat} {before : Option Value}
    (h : ((passes range up body limit {} >>= fun progress =>
      settle range.name before progress >>= fun _ => pure progress.result) w).1 =
        .error .exhausted) : (passes range up body limit {} w).1 = .error .exhausted := by
  rw [bind_apply] at h
  cases hpasses : passes range up body limit {} w with
  | mk r u =>
    rw [hpasses] at h
    cases r with
    | error e =>
      cases e with
      | exhausted => rfl
      | fault f => cases h
      | signal signal => cases h
    | ok progress =>
      obtain ⟨result, last⟩ := progress
      cases before with
      | none => cases h
      | some value => cases last <;> cases h

theorem loopOver_bounded {limit : Nat} {body : Term} (hd : 0 < s.digits)
    (hstep : range.step.isFinite → 11 * (10 : ℚ) ^ (-s.kept : Int) < 20 * |range.step.value|)
    (hspares : ∀ w ∈ Span.states range limit body s, Spares range.name (eval limit body) w) :
    (Span.states range limit body s).length ≤ 2 * 10 ^ s.digits ∧
      (2 * 10 ^ s.digits < limit →
        (loopOver limit range (eval limit body) s).1 = .error .exhausted →
        ∃ w ∈ Span.states range limit body s, (eval limit body w).1 = .error .exhausted) := by
  unfold Span.states at hspares ⊢
  unfold loopOver
  rcases prepare_cases range s with ⟨f, t, hf⟩ | ⟨x, up, hstart, hup, hprepare⟩
  · rw [bind_of_error hf]
    simp [after, hf]
  rw [LoopRun.after_of_ok hprepare] at hspares ⊢
  rw [bind_of_ok hprepare]
  dsimp only at hspares ⊢
  have hvariable : (s.env.set range.name (.decimal x)).get? range.name = some (.decimal x) := by
    simp
  by_cases hnan : range.start.isNaN
  · -- the loop does not even begin
    obtain ⟨trap, htrap⟩ := ordered_nan (toPlaces_nan hnan hstart)
      (if up then Ordering.isLE else Ordering.isGE) range.stop
    cases limit with
    | zero => exact ⟨Nat.zero_le _, fun h => absurd h (Nat.not_lt_zero _)⟩
    | succ count =>
      rcases passes_cases range up (eval (count + 1) body) count {}
          { s with env := s.env.set range.name (.decimal x) } with
        ⟨y, output, progress, v, hy, hon, -⟩ | ⟨hlength, hends⟩
      · rw [Span.loopNumber_eq hvariable] at hy
        cases hy
        cases (decimal_error htrap _).symm.trans hon
      · have hpos : 1 ≤ 10 ^ s.digits := Nat.one_le_pow _ _ (by norm_num)
        exact ⟨by omega, fun _ h => hends (passes_exhausted h)⟩
  · have hgrid := toPlaces_onGrid hd (by simpa using hnan) hstart
    have hleads : Leads s.kept range.step := ⟨isNaN_of_ordered hup, hstep⟩
    obtain ⟨hlength, hends⟩ := passes_bounded
      (w := { s with env := s.env.set range.name (.decimal x) }) hd hleads limit rfl rfl hvariable
      hgrid hspares
    have hroom := room_le s.digits range.step.value hgrid
    exact ⟨hlength.trans hroom, fun hlimit h => hends (by omega) (passes_exhausted h)⟩

theorem prepare_of_step (hfinite : range.step.isFinite) (hne : range.step.value ≠ 0)
    (hstart : range.start.toPlaces s.digits s.places = .ok x) :
    prepare range s = (.ok (s.env.get? range.name, decide (0 < range.step.value)),
      { s with env := s.env.set range.name (.decimal x) }) := by
  have hzero : range.step.equal .zero = .ok false := by
    obtain ⟨a, c, e, hstep⟩ := isFinite_iff.mp hfinite
    rw [hstep] at hne ⊢
    refine equal_zero_of_ne a ?_ e
    rintro rfl
    exact hne (by simp [value, signedMagnitude, signed])
  rw [prepare, bind_of_ok (decimal_ok hzero s), if_neg (by simp),
    bind_of_ok (rfl : (get : Run State) s = (.ok s, s)), bind_of_ok (round_ok hstart),
    bind_of_ok (rfl : setVariable range.name (.decimal x) s =
      (.ok (), { s with env := s.env.set range.name (.decimal x) })),
    bind_of_ok (decimal_ok (value_ordered_zero hfinite) _)]
  rfl

/-- A loop with a step that is too small never ends. -/
theorem loopOver_stuck {limit : Nat} {body : Term} (hd : 0 < s.digits)
    (huntraced : s.tracing = false) (hfinite : range.step.isFinite) (hne : range.step.value ≠ 0)
    (hsmall : 20 * |range.step.value| < 9 * (10 : ℚ) ^ (-s.kept : Int))
    (hstart : range.start.toPlaces s.digits s.places = .ok x) (hx : x.isFinite)
    (hon : goesOn range (decide (0 < range.step.value)) x s = (.ok true, s))
    (ho : ∀ w ∈ Span.states range limit body s, Orderly range.name (eval limit body) w) :
    (loopOver limit range (eval limit body) s).1 = .error .exhausted := by
  have hprepare := prepare_of_step hfinite hne hstart
  obtain ⟨hgrid, hfits⟩ := fits_of_toPlaces_isFinite hd hstart hx
  have hstuck := passes_stuck (w := { s with env := s.env.set range.name (.decimal x) }) hd hfinite
    hsmall limit rfl rfl huntraced (by simp) hgrid hfits
    (fun u => decimal_ok (eq_ok_of_decimal hon).1 u) fun v hv => ho v (by
      unfold Span.states
      rwa [LoopRun.after_of_ok hprepare])
  rw [loopOver, bind_of_ok hprepare]
  dsimp only
  rw [bind_apply]
  cases hpasses : passes range (decide (0 < range.step.value)) (eval limit body) limit {}
      { s with env := s.env.set range.name (.decimal x) } with
  | mk r u =>
    rw [hpasses] at hstuck
    obtain rfl : r = .error .exhausted := hstuck
    rfl

end Run

/-- The variable of a loop is moved on by a sum that is off by little more than half a unit. So a
step of more than that leads on, and the loop runs out of numbers; a step of less leads nowhere,
and the loop never ends, although its step is not zero. -/
theorem steps_lead_on_unless_small (s : State) (hd : 0 < s.digits) :
    (∀ (x d r : Decimal) (t : State), x.isFinite → d.isFinite → add x d s = (.ok r, t) →
      t = s ∧ OnGrid s.digits s.kept r ∧
      20 * |r.value - (x.value + d.value)| ≤ 11 * 10 ^ (-s.kept : Int) ∧
      (11 * 10 ^ (-s.kept : Int) < 20 * |d.value| →
        (0 < d.value → x.value < r.value) ∧ (d.value < 0 → r.value < x.value)) ∧
      (OnGrid s.digits s.kept x → 20 * |d.value| < 9 * 10 ^ (-s.kept : Int) →
        r.value = x.value)) ∧
    (∀ (limit : Nat) (range : Range) (body : Term),
      (range.step.isFinite → 11 * 10 ^ (-s.kept : Int) < 20 * |range.step.value|) →
      (∀ w ∈ Span.states range limit body s, Spares range.name (eval limit body) w) →
      (Span.states range limit body s).length ≤ 2 * 10 ^ s.digits ∧
      (2 * 10 ^ s.digits < limit →
        (∀ w ∈ Span.states range limit body s, (eval limit body w).1 ≠ .error .exhausted) →
        (loopOver limit range (eval limit body) s).1 ≠ .error .exhausted)) ∧
    ∀ (limit : Nat) (range : Range) (body : Term) (x : Decimal), s.tracing = false →
      range.step.isFinite → range.step.value ≠ 0 →
      20 * |range.step.value| < 9 * 10 ^ (-s.kept : Int) →
      range.start.toPlaces s.digits s.places = .ok x → x.isFinite →
      goesOn range (decide (0 < range.step.value)) x s = (.ok true, s) →
      (∀ w ∈ Span.states range limit body s, Orderly range.name (eval limit body) w) →
      (loopOver limit range (eval limit body) s).1 = .error .exhausted := by
  refine ⟨fun x d r t hx hd' h => ?_, fun limit range body hstep hspares => ?_,
    fun limit range body x huntraced hfinite hne hsmall hstart hx hon ho =>
      loopOver_stuck hd huntraced hfinite hne hsmall hstart hx hon ho⟩
  · obtain ⟨rfl, hgrid, hnear⟩ := add_near hd hx hd' h
    refine ⟨rfl, hgrid, hnear, moves_of_near hnear, fun hx hsmall => ?_⟩
    rw [hx.value_eq, hgrid.value_eq] at hnear ⊢
    rw [stays_of_near (by positivity) hnear hsmall]
  · obtain ⟨hlength, hends⟩ := loopOver_bounded hd hstep hspares
    refine ⟨hlength, fun hlimit hbody h => ?_⟩
    obtain ⟨w, hw, hexhausted⟩ := hends hlimit h
    exact hbody w hw hexhausted

/-- From zero to zero, a step of one ends the loop and one of a ten thousand millionth of a unit
does not. -/
theorem steps_lead_on_unless_small_tiny :
    let tiny : Decimal := .finite false 1 (-20)
    let range (step : Decimal) : Range := ⟨"i", .zero, .zero, step, true, none⟩
    let zero : Decimal := .finite false 0 (-10)
    (add zero tiny {} = (.ok zero, {}) ∧ 0 < tiny.value ∧
      20 * |zero.value - (zero.value + tiny.value)| ≤ 11 * 10 ^ (-10 : Int)) ∧
    (loopOver (2 * 10 ^ 28 + 1) (range .one) (eval (2 * 10 ^ 28 + 1) (.constant .none)) {}).1 ≠
      .error .exhausted ∧
    (loopOver 9 (range tiny) (eval 9 (.constant .none)) {}).1 = .error .exhausted := by
  intro tiny range zero
  obtain ⟨hsum, hends, hstuck⟩ := steps_lead_on_unless_small {} (by decide)
  have htiny : tiny.value = 10 ^ (-20 : Int) := by simp [tiny, value, signedMagnitude, signed]
  have hone : Decimal.one.value = 1 := by
    simp [Decimal.one, ofNat, value, signedMagnitude, signed]
  have hpos : 0 < tiny.value := by rw [htiny]; positivity
  have hsmall : 20 * |tiny.value| < 9 * 10 ^ (-10 : Int) := by
    rw [htiny]
    norm_num
  have hadd : add zero tiny {} = (.ok zero, {}) := rfl
  refine ⟨⟨hadd, hpos, (hsum zero tiny zero {} rfl rfl hadd).2.2.1⟩, ?_, ?_⟩
  · refine (hends _ (range .one) (.constant .none) (fun _ => ?_)
      fun w _ _ => ⟨rfl, rfl, rfl⟩).2 (Nat.lt_succ_self _) fun w _ h => ?_
    · change 11 * (10 : ℚ) ^ (-10 : Int) < 20 * |Decimal.one.value|
      rw [hone]
      norm_num
    · cases h
  · refine hstuck 9 (range tiny) (.constant .none) zero rfl rfl hpos.ne' hsmall
      rfl rfl ?_ fun w _ => ⟨.inl ⟨_, rfl⟩, rfl, rfl, rfl⟩
    rw [decide_eq_true (show 0 < (range tiny).step.value from hpos)]
    rfl

/-- A loop over one number that is passed three times. -/
theorem step_leads_nowhere :
    (State.executeWithin 9 "set_precision(20); d = 0.00000000000000000001; set_precision(10);
      n = 0; for i in 0..0 by d (n += 1; break when n > 2 with n)" {}).1 =
      .ok (.decimal (.finite false 30000000000 (-10))) := by
  decide +kernel

end DecimalScript
