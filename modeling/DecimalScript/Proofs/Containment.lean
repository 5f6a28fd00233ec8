import DecimalScript.CommandLine.Run
import DecimalScript.Proofs.Course
import DecimalScript.Proofs.Origin
import Mathlib

/-! Signals stay inside the loops they are for. A loop counts as running while its
bounds and step are evaluated, but takes only the signals of its body, so the one
way out is a jump in the head of a loop. -/

namespace DecimalScript

namespace Term

def isJump : Term → Bool
  | .leave .. | .skip .. => true
  | _ => false

theorem isAnchored_of_isJump {t : Term} (h : t.isJump) : t.isAnchored := by
  cases t with
  | leave | skip => rfl
  | _ => cases h

/-- Somewhere in the term a loop over the variable has a jump in its bounds or step. -/
def Leaks (name : String) (t : Term) : Prop :=
  ∃ start stop step showsStep body pos,
    Below (.loop name start stop step showsStep body pos) t ∧
    ∃ part ∈ [start, stop, step], ∃ jump, Below jump part ∧ jump.isJump

theorem Leaks.child {name : String} {t u : Term} (h : Leaks name u) (hu : u ∈ t.children) :
    Leaks name t := by
  obtain ⟨start, stop, step, showsStep, body, pos, hb, hj⟩ := h
  exact ⟨start, stop, step, showsStep, body, pos, .child hu hb, hj⟩

/-- A term that can end with a signal has a jump in it. -/
theorem May.jump {t : Term} {loops : List String} {signal : Signal}
    (h : May t loops (.signal signal)) : ∃ jump, Below jump t ∧ jump.isJump := by
  generalize he : Exit.signal signal = e at h
  induction h with
  | own => cases he
  | exhausted => cases he
  | leave => exact ⟨_, .here, rfl⟩
  | skip => exact ⟨_, .here, rfl⟩
  | inside hu _ _ ih =>
    obtain ⟨jump, hb, hj⟩ := ih he
    exact ⟨jump, .child hu hb, hj⟩
  | header hu _ ih =>
    obtain ⟨jump, hb, hj⟩ := ih he
    exact ⟨jump, .child (header_children hu) hb, hj⟩
  | body _ _ ih =>
    obtain ⟨jump, hb, hj⟩ := ih he
    exact ⟨jump, .child (by simp [children]) hb, hj⟩

/-- A signal is for a running loop unless a loop in the term leaks it. -/
theorem May.target {t : Term} {loops : List String} {signal : Signal}
    (h : May t loops (.signal signal)) : signal.target ∈ loops ∨ Leaks signal.target t := by
  generalize he : Exit.signal signal = e at h
  induction h with
  | own => cases he
  | exhausted => cases he
  | leave h =>
    cases he
    exact .inl h
  | skip h =>
    cases he
    exact .inl h
  | inside hu _ _ ih => exact (ih he).imp_right fun hl => hl.child hu
  | @header name start stop step showsStep body pos u loops e hu hm ih =>
    subst he
    rcases ih rfl with hmem | hl
    · -- the loop of this head is not there to take the signal yet
      rcases List.mem_cons.mp hmem with heq | hmem
      · exact .inr ⟨start, stop, step, showsStep, body, pos, heq ▸ .here, u, hu, hm.jump⟩
      · exact .inl hmem
    · exact .inr (hl.child (header_children hu))
  | body hne hm ih =>
    rcases ih he with hmem | hl
    · exact .inl ((List.mem_cons.mp hmem).resolve_left (hne signal he.symm))
    · exact .inr (hl.child (by simp [children]))

end Term

/-! ### Back to trees -/

/-- A child that is looked for as a term. -/
theorem ofFirst_drop (kids : List Tree) (n : Nat) :
    (∃ kid, kids[n]? = some kid ∧ Term.ofFirst ((kids.map Part.of).drop n) = Term.ofTree kid) ∨
      Term.ofFirst ((kids.map Part.of).drop n) = .malformed .missing := by
  rw [← List.map_drop]
  cases hd : kids.drop n with
  | nil => exact .inr rfl
  | cons kid rest =>
    refine .inl ⟨kid, ?_, rfl⟩
    have := congrArg (·[0]?) hd
    simpa using this

theorem header_mem {pos : Option Pos} {kids : List Tree} {kid : Tree} {n : Nat}
    (h : kids[n + 1]? = some kid) (hn : n < if kids.length = 5 then 3 else 2) :
    kid ∈ (Tree.node .forExpr pos kids).header := by
  refine List.mem_of_getElem? (i := n) ?_
  rw [Tree.header, List.getElem?_take_of_lt hn, List.getElem?_drop, Nat.add_comm]
  exact h

theorem below_leaf {jump t : Term} (h : Term.Below jump t) (hc : t.children = []) : jump = t := by
  cases h with
  | here => rfl
  | child hm => rw [hc] at hm; cases hm

theorem header_jump {pos : Option Pos} {kids : List Tree} {n : Nat} {jump : Term}
    (hn : n < if kids.length = 5 then 3 else 2) (hj : jump.isJump)
    (hb : Term.Below jump (Term.ofFirst ((kids.map Part.of).drop (n + 1)))) :
    ∃ tree ∈ (Tree.node .forExpr pos kids).header, Term.Below jump (Term.ofTree tree) := by
  rcases ofFirst_drop kids (n + 1) with ⟨kid, hk, heq⟩ | heq
  · exact ⟨kid, header_mem hk hn, heq ▸ hb⟩
  · rw [heq] at hb
    rw [below_leaf hb rfl] at hj
    cases hj

/-- The head of a loop in a term comes from the head of the loop in the tree. -/
theorem loop_source {w : Tree} {name : String} {start stop step body : Term} {showsStep : Bool}
    {pos : Option Pos} (hw : w.isAnchored)
    (h : Term.ofTree w = .loop name start stop step showsStep body pos) :
    w.loopName = some name ∧ ∀ part ∈ [start, stop, step], ∀ jump, Term.Below jump part →
      jump.isJump → ∃ tree ∈ w.header, Term.Below jump (Term.ofTree tree) := by
  rcases anchor_source hw h rfl with ⟨_, _, _, _, hvar⟩ | ⟨place, kids, rfl, htitle⟩
  · cases hvar
  · obtain ⟨terminal, spot, rest, rfl⟩ := htitle name rfl
    rw [Term.ofTree_node] at h
    obtain ⟨-, rfl, rfl, rfl, _⟩ := Term.loop.inj h
    refine ⟨rfl, fun part hp jump hb hj => ?_⟩
    simp only [List.mem_cons, List.not_mem_nil, or_false] at hp
    rcases hp with rfl | rfl | rfl
    · exact header_jump (n := 0) (by split <;> omega) hj hb
    · exact header_jump (n := 1) (by split <;> omega) hj hb
    · split at hb
      · rename_i hlen
        rw [List.length_map, beq_iff_eq] at hlen
        exact header_jump (n := 2) (by rw [if_pos hlen]; omega) hj hb
      · rw [below_leaf hb rfl] at hj
        cases hj

theorem jump_source {w : Tree} (hw : w.isAnchored) (h : (Term.ofTree w).isJump) : w.isJump := by
  cases hterm : Term.ofTree w with
  | leave =>
    obtain ⟨pos, kids, rfl⟩ := anchor_node .breakStmt hw hterm rfl (by simp)
    rfl
  | skip =>
    obtain ⟨pos, kids, rfl⟩ := anchor_node .nextStmt hw hterm rfl (by simp)
    rfl
  | _ => rw [hterm] at h; cases h

theorem leaks_jumpsInHeader {tree : Tree} {name : String} (h : (Term.ofTree tree).Leaks name) :
    tree.JumpsInHeader name := by
  obtain ⟨start, stop, step, showsStep, body, pos, hloop, part, hp, jump, hjump, hj⟩ := h
  obtain ⟨w, hw, hwc, heq⟩ := (draft_from tree).term _ hloop rfl
  obtain ⟨hname, hheader⟩ := loop_source hwc heq
  obtain ⟨inner, hi, hb⟩ := hheader part hp jump hjump hj
  obtain ⟨x, hx, hxc, rfl⟩ := (draft_from inner).term jump hb (Term.isAnchored_of_isJump hj)
  exact ⟨w, hw, hname, inner, hi, x, hx, jump_source hxc hj⟩

/-! ### Programs and scripts -/

theorem eval_signal {limit : Nat} {tree : Tree} {s : State} {signal : Signal}
    (h : (Run.eval limit (Term.ofTree tree) s).1 = .error (.signal signal)) :
    signal.target ∈ s.loops ∨ tree.JumpsInHeader signal.target := by
  have hexit := (Run.eval_tame limit (Term.ofTree tree) s).of_error
    (t := (Run.eval limit (Term.ofTree tree) s).2) (Prod.ext h rfl)
  exact hexit.2.target.imp_right leaks_jumpsInHeader

/-- If the text writes a program, no loop of it has a jump in its bounds or step. -/
def NoJumpInHeader (text : String) : Prop :=
  ∀ tree, Grammar.parse text = .ok tree → tree.FreeHeaders

instance (text : String) : Decidable (NoJumpInHeader text) :=
  match h : Grammar.parse text with
  | .ok tree => decidable_of_iff tree.FreeHeaders
      ⟨fun hf _ ht => Except.ok.inj (h.symm.trans ht) ▸ hf, fun ht => ht tree h⟩
  | .error _ => isTrue fun _ ht => nomatch h.symm.trans ht

theorem State.run_exit {α : Type} {calculation : Run α} {s : State} {e : Exit}
    (h : (s.run calculation).1 = .error (.exit e)) :
    (calculation { s with output := [] }).1 = .error e := by
  unfold State.run at h
  cases hr : calculation { s with output := [] } with
  | mk r t =>
    rw [hr] at h
    cases r with
    | ok a => cases h
    | error e => cases h; rfl

theorem executeWithin_signal {limit : Nat} {text : String} {s : State} {signal : Signal}
    (hs : s.loops = []) (ht : NoJumpInHeader text) :
    (s.executeWithin limit text).1 ≠ .error (.exit (.signal signal)) := by
  unfold State.executeWithin
  split
  · simp
  · rename_i tree htree
    intro h
    rcases eval_signal (State.run_exit h) with hmem | hjump
    · simp [hs] at hmem
    · exact (ht tree htree).not_jumpsInHeader hjump

/-- Showing a value never ends with a signal. -/
theorem format_signal {value : Value} {s : State} {signal : Signal} :
    s.format value ≠ .error (.exit (.signal signal)) := by
  intro h
  have hr := State.run_exit h
  rcases Run.format_reads Run.admits_all value { s with output := [] } with ⟨text, ht⟩ | ⟨f, _, hf⟩
  · rw [ht] at hr
    cases hr
  · rw [hf] at hr
    cases hr

namespace CommandLine

theorem runProgram_signal {limit : Nat} {program : String} {overrides : List (String × Decimal)}
    {tracing : Bool} {signal : Signal} (h : NoJumpInHeader program) :
    (runProgram limit program overrides tracing).ending ≠ .failure (.exit (.signal signal)) := by
  unfold runProgram
  extract_lets given
  cases hr : (State.new 28 given tracing).executeWithin limit program with
  | mk result s =>
    dsimp only
    split
    · simp
    · simp
    · rename_i failure _ hshown
      intro hending
      obtain rfl := Ending.failure.inj hending
      split at hshown
      · cases hshown
        exact executeWithin_signal (s := State.new 28 given tracing) rfl h (congrArg Prod.fst hr)
      · cases hshown
      · rename_i value _
        cases hf : s.format value with
        | ok text =>
          rw [hf] at hshown
          cases hshown
        | error failure =>
          rw [hf] at hshown
          cases hshown
          exact format_signal hf

theorem mem_of_find {folder : Folder} {test : String × String → Bool} {path content : String}
    (h : folder.find? test = some (path, content)) : ∃ path, (path, content) ∈ folder :=
  ⟨path, List.mem_of_find?_eq_some h⟩

theorem mem_of_walk {folder : Folder} {directory parts : List String} {content : String}
    (h : folder.walk directory parts = .file content) : ∃ path, (path, content) ∈ folder := by
  fun_induction Folder.walk folder directory parts with
  | case1 => cases h
  | case2 => cases h
  | case3 => cases h
  | case4 _ _ _ ih => exact ih h
  | case5 _ _ _ _ _ path found hfind =>
    cases h
    exact mem_of_find hfind
  | case6 => cases h
  | case7 _ _ _ _ _ _ _ ih => exact ih h
  | case8 => cases h

/-- What is found in a folder is the content of one of its files. -/
theorem mem_of_entry {folder : Folder} {path content : String}
    (h : folder.entry path = .file content) : ∃ path, (path, content) ∈ folder := by
  unfold Folder.entry at h
  split at h
  · rename_i hfind
    cases h
    exact mem_of_find hfind
  · split at h
    · split at h <;> cases h
    · exact mem_of_walk h

def IsScript (folder : Folder) (arguments : List String) (program : String) : Prop :=
  ∃ script items tracing content, readArguments arguments = .ok (.run script items tracing) ∧
    folder.entry (cleanPath script) = .file content ∧
    program = String.ofList (Text.unifyLineEnds content.toList)

theorem run_signal {limit : Nat} {folder : Folder} {arguments : List String} {signal : Signal}
    (h : ∀ program, IsScript folder arguments program → NoJumpInHeader program) :
    (run limit folder arguments).ending ≠ .failure (.exit (.signal signal)) := by
  unfold run
  split
  · simp
  · simp
  · rename_i script items tracing harguments
    unfold runScript
    extract_lets path
    split
    · simp
    · split
      · simp
      · split
        · rename_i content hentry
          exact runProgram_signal (h _ ⟨script, items, tracing, content, harguments, hentry, rfl⟩)
        · simp

end CommandLine

/-- A signal that leaves the evaluation of a tree is for a loop that ran before, or a
loop in the tree has a jump in its bounds or step. So no signal leaves a program, or
a script on the command line, that has no such jump. -/
theorem signals_stay_inside_loops :
    (∀ limit tree s signal, (Run.eval limit (Term.ofTree tree) s).1 = .error (.signal signal) →
      signal.target ∈ s.loops ∨ tree.JumpsInHeader signal.target) ∧
    (∀ limit text (s : State) signal, NoJumpInHeader text → s.loops = [] →
      (s.executeWithin limit text).1 ≠ .error (.exit (.signal signal))) ∧
    ∀ limit folder arguments signal,
      (∀ program, CommandLine.IsScript folder arguments program → NoJumpInHeader program) →
      (CommandLine.run limit folder arguments).ending ≠ .failure (.exit (.signal signal)) := by
  refine ⟨fun limit tree s signal h => ?_, fun limit text s signal ht hs => ?_,
    fun limit folder arguments signal h => ?_⟩
  · exact eval_signal h
  · exact executeWithin_signal hs ht
  · exact CommandLine.run_signal h

/-- A loop that is left from its own bounds, and one that is left from its body. -/
theorem signals_stay_inside_loops_break :
    (∃ tree signal, Grammar.parse "for i in (break with 1)..2 (i)" = .ok tree ∧
      (Run.eval 1 (Term.ofTree tree) {}).1 = .error (.signal signal) ∧
      (signal.target ∈ ([] : List String) ∨ tree.JumpsInHeader signal.target)) ∧
    (NoJumpInHeader "for i in 1..2 (break with i)" ∧ ∀ signal,
      (State.executeWithin 1 "for i in 1..2 (break with i)" {}).1 ≠ .error (.exit (.signal signal))) ∧
    ∀ signal, (CommandLine.run 1 [("a", "for i in 1..2 (break with i)")] ["a"]).ending ≠
      .failure (.exit (.signal signal)) := by
  have hfree : NoJumpInHeader "for i in 1..2 (break with i)" := by decide +kernel
  refine ⟨?_, ⟨hfree, fun signal => ?_⟩, fun signal => ?_⟩
  · have hrun : ((Grammar.parse "for i in (break with 1)..2 (i)").map fun tree =>
        decide ((Run.eval 1 (Term.ofTree tree) {}).1 = .error (.signal (.leave "i"
          (.decimal (.finite false 10000000000 (-10))))))) = .ok true := by
      decide +kernel
    cases hp : Grammar.parse "for i in (break with 1)..2 (i)" with
    | error mistake =>
      rw [hp] at hrun
      cases hrun
    | ok tree =>
      rw [hp] at hrun
      have hsignal := of_decide_eq_true (Except.ok.inj hrun)
      exact ⟨tree, _, rfl, hsignal, signals_stay_inside_loops.1 _ _ _ _ hsignal⟩
  · exact signals_stay_inside_loops.2.1 1 _ {} signal hfree rfl
  · refine signals_stay_inside_loops.2.2 _ _ _ signal ?_
    rintro program ⟨script, items, tracing, content, -, hentry, rfl⟩
    obtain ⟨path, hfile⟩ := CommandLine.mem_of_entry hentry
    obtain ⟨-, rfl⟩ := Prod.mk.inj (List.mem_singleton.mp hfile)
    exact hfree

end DecimalScript
