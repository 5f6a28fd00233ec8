import DecimalScript.Proofs.Containment
import DecimalScript.Proofs.Displacement
import DecimalScript.Proofs.Tracing
import Mathlib

/-! What is known of the failure of a program, and what the command line makes of it. An error
that the program made has a place in it, unless a value was of the wrong type. -/

namespace DecimalScript

open Run

/-! ### Places -/

namespace Tree

def place? : Tree → Option Pos
  | .node _ pos _ => pos
  | .token _ _ pos => some pos
  | .value _ => none

def places (tree : Tree) : List Pos := tree.subtrees.filterMap place?

theorem mem_places_of_child {label : Label} {pos : Option Pos} {kids : List Tree} {kid : Tree}
    {p : Pos} (hk : kid ∈ kids) (hp : p ∈ kid.places) : p ∈ (Tree.node label pos kids).places := by
  obtain ⟨part, hpart, hplace⟩ := List.mem_filterMap.mp hp
  exact List.mem_filterMap.mpr ⟨part, mem_subtrees_of_child hk hpart, hplace⟩

theorem mem_places_of_place {tree : Tree} {p : Pos} (h : tree.place? = some p) : p ∈ tree.places :=
  List.mem_filterMap.mpr ⟨tree, self_mem_subtrees tree, h⟩

/-- A tree does not change if none of its places is moved. -/
theorem relocate_eq_self {σ : Pos → Pos} {tree : Tree} (h : ∀ p ∈ tree.places, σ p = p) :
    tree.relocate σ = tree := by
  induction tree using children_induction with
  | node label pos kids ih =>
    have hpos : pos.map σ = pos := by
      cases pos with
      | none => rfl
      | some p => exact congrArg some (h p (mem_places_of_place rfl))
    have hkids : kids.map (relocate σ) = kids := by
      rw [List.map_congr_left fun kid hk => ih kid hk fun p hp => h p (mem_places_of_child hk hp)]
      exact List.map_id' kids
    rw [relocate_node, hpos, hkids]
  | token terminal text pos => rw [relocate_token, h pos (mem_places_of_place rfl)]
  | value v => rfl

theorem relocate_id (tree : Tree) : tree.relocate id = tree := relocate_eq_self fun _ _ => rfl

end Tree

section Places
variable {limit : Nat} {tree : Tree} {s : State} {cause : Cause} {p : Pos}

/-- If the place of an error did not stand in the tree, it could be moved without the tree. -/
theorem eval_place (hs : s.tracing = false)
    (h : (eval limit (Term.ofTree tree) s).1 = .error (.fault (.script cause (some p)))) :
    p ∈ tree.places := by
  by_contra hp
  let σ : Pos → Pos := fun q => if q = p then ⟨p.line + 1, p.column⟩ else q
  have hsame : tree.relocate σ = tree := by
    refine Tree.relocate_eq_self fun q hq => if_neg ?_
    rintro rfl
    exact hp hq
  have hself : s.beside { source := s.source } = s := by simp [State.beside]
  have hmoved := eval_relocate σ limit (Term.ofTree tree) hs { source := s.source }
  rw [← Term.ofTree_relocate, hsame, hself] at hmoved
  have hend : (eval limit (Term.ofTree tree) s).1 =
      (eval limit (Term.ofTree tree) s).1.mapError (Exit.relocate σ) := congrArg Prod.fst hmoved
  rw [h] at hend
  have hline : (σ p).line = p.line := by
    injection hend with hend
    injection hend with hend
    injection hend with _ hend
    injection hend with hend
    rw [← hend]
  simp [σ] at hline

/-- Tracing fails only where a value has no text. -/
theorem trap_of_traceFails {u : Term} {f : Fault} (h : TraceFails limit u s f) :
    ∃ condition, f = .trap condition := by
  obtain ⟨_, _, _, value, w, _, hf⟩ := h
  cases value with
  | decimal d =>
    change (do
      let fixed ← decimal (d.toPlaces w.digits w.places)
      pure (fixed.toFixed w.places) : Run String) w = _ at hf
    cases hround : d.toPlaces w.digits w.places with
    | ok x =>
      rw [hround] at hf
      cases hf
    | error condition =>
      rw [hround] at hf
      cases hf
      exact ⟨condition, rfl⟩
  | _ => cases hf

/-- The place of an error is that of a node or a token of the program, traced or not. -/
theorem executeWithin_place {text : String} (h : Grammar.parse text = .ok tree)
    (hf : (s.executeWithin limit text).1 = .error (.exit (.fault (.script cause (some p))))) :
    p ∈ tree.places := by
  rw [State.executeWithin_ok h] at hf
  generalize hstart : ({ s with source := Text.lines text, output := [] } : State) = t at hf
  have hend : (eval limit (Term.ofTree tree) t).1 = .error (.fault (.script cause (some p))) := by
    cases hr : (eval limit (Term.ofTree tree) t).1 with
    | ok value =>
      rw [hr] at hf
      cases hf
    | error e =>
      rw [hr] at hf
      cases hf
      rfl
  cases ht : t.tracing with
  | false => exact eval_place ht hend
  | true =>
    have hkeeps := eval_mirror (program_whole (Grammar.parse_isProgram h)) limit
      (s := t) (t := t.untraced) ⟨⟨ht, rfl⟩, rfl, rfl⟩
    cases hkeeps with
    | value hx hy hr =>
      rw [hx] at hend
      cases hend
    | exit hx hy hr =>
      rw [hx] at hend
      have huntraced : (eval limit (Term.ofTree tree) t.untraced).1 =
          .error (.fault (.script cause (some p))) := by
        rw [hy]
        exact hend
      exact eval_place rfl huntraced
    | lost hx hfails =>
      obtain ⟨condition, rfl⟩ := trap_of_traceFails hfails
      rw [hx] at hend
      cases hend

end Places

/-! ### Failures -/

/-- A fault that the language has no error for, and that has no place. -/
def Fault.isForeign : Fault → Bool
  | .trap _ | .tooLarge | .zeroInverted | .noSuchValue | .badLiteral => true
  | _ => false

/-- A fault that is ordinary is an error of the program, with a place unless a value was of the
wrong type, or it is foreign. -/
theorem Fault.ordinary_cases {f : Fault} (h : f.ordinary) :
    (∃ cause pos, f = .script cause pos ∧ (pos = none ↔ cause.isMismatch)) ∨ f.isForeign := by
  cases f with
  | script cause pos =>
    refine .inl ⟨cause, pos, rfl, ?_⟩
    simp only [Fault.ordinary, Fault.isPlaced, Bool.and_eq_true, beq_iff_eq] at h
    rw [← h.2, Option.isNone_iff_eq_none]
  | noPlace | variableGone | malformed => cases h
  | _ => exact .inr rfl

/-- How the run of a program can fail. -/
inductive Failure.Explained (tree : Tree) (loops : List String) : Failure → Prop
  /-- By an error of the program, at one of its places. -/
  | placed {cause pos} (h : cause.isMismatch = false) (hp : pos ∈ tree.places) :
      Explained tree loops (.exit (.fault (.script cause (some pos))))
  /-- By a value of the wrong type. -/
  | mismatch {cause} (h : cause.isMismatch) :
      Explained tree loops (.exit (.fault (.script cause none)))
  | foreign {fault} (h : fault.isForeign) : Explained tree loops (.exit (.fault fault))
  /-- By a jump to a loop that ran before, or out of the bounds or the step of a loop. -/
  | jump {signal} (h : signal.target ∈ loops ∨ tree.JumpsInHeader signal.target) :
      Explained tree loops (.exit (.signal signal))
  | exhausted : Explained tree loops (.exit .exhausted)

theorem executeWithin_explained {limit : Nat} {text : String} {tree : Tree} {s : State}
    {failure : Failure} (h : Grammar.parse text = .ok tree)
    (hf : (s.executeWithin limit text).1 = .error failure) : failure.Explained tree s.loops := by
  have hrun := hf
  rw [State.executeWithin_ok h] at hrun
  generalize hstart : ({ s with source := Text.lines text, output := [] } : State) = t at hrun
  have hloops : t.loops = s.loops := by rw [← hstart]
  cases hend : (eval limit (Term.ofTree tree) t).1 with
  | ok value =>
    rw [hend] at hrun
    cases hrun
  | error e =>
    rw [hend] at hrun
    cases hrun
    cases e with
    | fault f =>
      have hexit := (eval_tame limit (Term.ofTree tree) t).of_error (Prod.ext hend rfl)
      have hordinary := hexit.2.ordinary (program_whole (Grammar.parse_isProgram h))
      rcases Fault.ordinary_cases hordinary with ⟨cause, pos, rfl, hplaced⟩ | hforeign
      · cases pos with
        | none => exact .mismatch (hplaced.mp rfl)
        | some p => exact .placed (by simpa using hplaced) (executeWithin_place h hf)
      · exact .foreign hforeign
    | signal signal =>
      refine .jump ?_
      rw [← hloops]
      exact eval_signal hend
    | exhausted => exact .exhausted

/-! ### The command line -/

namespace CommandLine

def outcome (limit : Nat) (program : String) (overrides : List (String × Decimal))
    (tracing : Bool) : Except Failure Value × State :=
  let given := overrides.map fun (name, x) => (name, Value.decimal x)
  (State.new 28 given tracing).executeWithin limit program

variable {limit : Nat} {program : String} {overrides : List (String × Decimal)} {tracing : Bool}

theorem runProgram_script {cause : Cause} {pos : Option Pos}
    (h : (outcome limit program overrides tracing).1 =
      .error (.exit (.fault (.script cause pos)))) :
    runProgram limit program overrides tracing =
      { ending := .code 1, out := (outcome limit program overrides tracing).2.outputText
        err := cause.report pos ++ "\n" } := by
  unfold outcome at h ⊢
  unfold runProgram
  extract_lets given
  cases hr : (State.new 28 given tracing).executeWithin limit program with
  | mk result s =>
    rw [hr] at h
    cases h
    rfl

theorem runProgram_failure {failure : Failure}
    (h : (outcome limit program overrides tracing).1 = .error failure)
    (hf : ∀ cause pos, failure ≠ .exit (.fault (.script cause pos))) :
    (runProgram limit program overrides tracing).ending = .failure failure := by
  unfold outcome at h
  unfold runProgram
  extract_lets given
  cases hr : (State.new 28 given tracing).executeWithin limit program with
  | mk result s =>
    rw [hr] at h
    cases h
    dsimp only
    split
    · rename_i hshown
      cases hshown
    · rename_i cause pos hshown
      cases hshown
      exact absurd rfl (hf cause pos)
    · rename_i hshown
      cases hshown
      rfl

end CommandLine

/-- What is known of the failure of a program that was read. If the program made an error, the
error has no place exactly if a value was of the wrong type, and else the place of a node
or a token of the program. The other failures are foreign faults, which have no place,
jumps that leave a loop by its bounds or its step, and loops that run too long. The
command line reports the errors of the program, with their places, and ends with code 1;
all other failures are passed on. -/
theorem errors_have_places_unless_mismatched {text : String} {tree : Tree}
    (h : Grammar.parse text = .ok tree) :
    (∀ limit (s : State) failure, (s.executeWithin limit text).1 = .error failure →
      failure.Explained tree s.loops) ∧
    ∀ limit overrides tracing failure,
      (CommandLine.outcome limit text overrides tracing).1 = .error failure →
      (∃ cause pos, failure = .exit (.fault (.script cause pos)) ∧
        (CommandLine.runProgram limit text overrides tracing).ending = .code 1 ∧
        (CommandLine.runProgram limit text overrides tracing).err = cause.report pos ++ "\n") ∨
      (∀ cause pos, failure ≠ .exit (.fault (.script cause pos))) ∧
        (CommandLine.runProgram limit text overrides tracing).ending = .failure failure := by
  refine ⟨fun limit s failure hf => executeWithin_explained h hf,
    fun limit overrides tracing failure hf => ?_⟩
  by_cases hscript : ∃ cause pos, failure = .exit (.fault (.script cause pos))
  · obtain ⟨cause, pos, rfl⟩ := hscript
    rw [CommandLine.runProgram_script hf]
    exact .inl ⟨cause, pos, rfl, rfl, rfl⟩
  · have hother : ∀ cause pos, failure ≠ .exit (.fault (.script cause pos)) :=
      fun cause pos heq => hscript ⟨cause, pos, heq⟩
    exact .inr ⟨hother, CommandLine.runProgram_failure hf hother⟩

/-- A division by zero in the second line. -/
theorem errors_have_places_unless_mismatched_division :
    ∃ tree, Grammar.parse "x = 1\nx / 0" = .ok tree ∧
      (State.executeWithin 0 "x = 1\nx / 0" {}).1 =
        .error (.exit (.fault (.script .divisionByZero (some ⟨2, 1⟩)))) ∧
      ⟨2, 1⟩ ∈ tree.places := by
  have hrun : (State.executeWithin 0 "x = 1\nx / 0" {}).1 =
      .error (.exit (.fault (.script .divisionByZero (some ⟨2, 1⟩)))) := by decide +kernel
  cases hp : Grammar.parse "x = 1\nx / 0" with
  | error mistake =>
    unfold State.executeWithin at hrun
    rw [hp] at hrun
    cases hrun
  | ok tree =>
    refine ⟨tree, rfl, hrun, ?_⟩
    have hexplained := (errors_have_places_unless_mismatched hp).1 0 {} _ hrun
    cases hexplained with
    | placed _ hplace => exact hplace
    | foreign hforeign => cases hforeign

/-- Some failures without a place: a truth value that is added, a power that is too large, a root
of zero, more places than there can be, a text that is not well formed, and a jump out
of the bounds of a loop. -/
theorem failures_without_place :
    (State.executeWithin 0 "1 + (1 < 2)" {}).1 =
      .error (.exit (.fault (.script (.booleanUsed .sum) none))) ∧
    (CommandLine.runProgram 0 "1 + (1 < 2)" [] false).err =
      "Cannot use boolean value in arithmetic operation (sum)\n" ∧
    (State.executeWithin 0 "10 ** 30" {}).1 = .error (.exit (.fault (.trap .invalidOperation))) ∧
    (State.executeWithin 0 "nrt(0, -1)" {}).1 = .error (.exit (.fault .zeroInverted)) ∧
    (State.executeWithin 0 "set_precision(999999999999999990)" {}).1 =
      .error (.exit (.fault .noSuchValue)) ∧
    (State.executeWithin 0 "print(\"\\x\")" {}).1 = .error (.exit (.fault .badLiteral)) ∧
    (State.executeWithin 0 "for i in (next)..2 (i)" {}).1 = .error (.exit (.signal (.skip "i"))) := by
  decide +kernel

end DecimalScript
