import DecimalScript.CommandLine.Run
import DecimalScript.Proofs.Announcement
import Mathlib

/-! A line feed before or behind a script. It adds no statement, but it makes a list of a script
that is one statement, and such a list is traced; and a script without statements that is
one separator has its text for a value. -/

namespace DecimalScript

open Grammar Run

/-- A line of a run, and what a run writes for it whose program stands a line further down. -/
inductive Line.Lowered : Line → Line → Prop
  | printed (text : String) : Lowered (.printed text) (.printed text)
  | effect (text : String) : Lowered (.traced ("+ " ++ text)) (.traced ("+ " ++ text))
  | headed (line : Nat) (text : String) :
      Lowered (.traced ("- " ++ Nat.repr line ++ ": " ++ text))
        (.traced ("- " ++ Nat.repr (line + 1) ++ ": " ++ text))

/-! ### Terms with moved places -/

namespace Term

variable {σ : Pos → Pos}

theorem children_relocate (t : Term) : (t.relocate σ).children = t.children.map (relocate σ) := by
  cases t with
  | sequence items => rw [relocate_sequence]; rfl
  | print items => rw [relocate_print]; rfl
  | row items => rw [relocate_row]; rfl
  | call name pos items => rw [relocate_call]; rfl
  | comparison first operators rest => rw [relocate_comparison]; rfl
  | _ => rfl

theorem heading?_relocate (t : Term) : (t.relocate σ).heading? = t.heading?.map σ := by
  cases t <;> rfl

/-- Places that were moved are where they were moved to. -/
theorem heads_relocate {P : Pos → Prop} (h : ∀ p, P (σ p)) (t : Term) : (t.relocate σ).Heads P := by
  induction t using children_induction with
  | step t ih =>
    intro u hu
    cases hu with
    | here =>
      intro p hp
      rw [heading?_relocate] at hp
      obtain ⟨q, -, rfl⟩ := Option.map_eq_some_iff.mp hp
      exact h q
    | child hm hb =>
      rw [children_relocate] at hm
      obtain ⟨w, hw, rfl⟩ := List.mem_map.mp hm
      exact ih w hw u hb

theorem ofContent_relocate (items : List Tree) :
    ofContent (items.map (Tree.relocate σ)) = (ofContent items).relocate σ := by
  have hpart (tree : Tree) : Part.of (tree.relocate σ) = (Part.of tree).relocate σ := by
    unfold Part.of Part.relocate
    rw [Draft.ofTree_relocate]
  unfold ofContent
  rw [relocate_sequence, List.map_map, List.map_map]
  congr 1
  refine List.map_congr_left fun tree _ => ?_
  simp only [Function.comp_apply, hpart, ofStatement_relocate]

end Term

/-! ### The statements of a script with a line feed -/

variable {text : String} {p : Tree}

/-- A text with a line feed before it is a list of statements if it has any, each a line further
down. -/
theorem Grammar.parse_newline_append (h : parse text = .ok p) :
    ∃ tree, parse ("\n" ++ text) = .ok tree ∧
      tree.content = p.content.map (Tree.relocate (lowered 1)) ∧
      (p.content ≠ [] → ∃ pos kids, tree = .node .statementList pos kids) := by
  have hprogram := program_newlines 1 text.toList ⟨1, 1⟩
  have htext : List.replicate 1 '\n' ++ text.toList = ("\n" ++ text).toList := by simp
  change _ = program text.toList (lowered 1 ⟨1, 1⟩) at hprogram
  rw [program_relocate (lowered_moves 1), program_eq_some_iff.mpr ⟨p, h, rfl⟩, htext] at hprogram
  obtain ⟨tree, hparse, hcontent⟩ := program_eq_some_iff.mp hprogram
  refine ⟨tree, hparse, hcontent, fun hstatement => ?_⟩
  rcases parse_cases hparse with hlist | hs | ⟨y, hy, -⟩
  · exact hlist
  · rw [content_of_isSeparator hs] at hcontent
    exact absurd (List.map_eq_nil_iff.mp hcontent.symm) hstatement
  · rw [← htext] at hy
    change y ∈ (Form.rule .statement).reads ('\n' :: text.toList) _ at hy
    rw [reads_statement_eq_nil (.inl ⟨_, lexes_newline _⟩)] at hy
    cases hy

/-- All places of a script are those of a text that starts a line further up, moved down: none is
in a line 0. -/
theorem Grammar.content_lowered (h : parse text = .ok p) :
    ∃ items : List Tree, p.content = items.map (Tree.relocate (lowered 1)) := by
  have hprogram := program_relocate (lowered_moves 1) text.toList ⟨0, 1⟩
  change program text.toList ⟨1, 1⟩ = _ at hprogram
  rw [program_eq_some_iff.mpr ⟨p, h, rfl⟩] at hprogram
  obtain ⟨items, -, hitems⟩ := Option.map_eq_some_iff.mp hprogram.symm
  exact ⟨items, hitems.symm⟩

/-! ### Runs that show the same lines -/

/-- A run of a program, and one with another text behind other output, where tracing shows the
same lines. -/
def Displacement.resourced (s other : State)
    (h : ∀ line, sourceLine other.source line = sourceLine s.source line) : Displacement where
  live place := place.line ≠ 0
  move := id
  tracing := s.tracing
  first := s.source
  second := other.source
  base := other.output
  alike := Eq
  printed := Line.printed_self
  effect _ _ := rfl
  headed _ _ _ _ := rfl
  placed _ _ hline := ⟨hline, hline⟩
  sourced _ place _ := h place.line

/-- A run of a program, and one of the program a line further down. -/
def Displacement.lowering (tracing : Bool) (first second : List String)
    (h : ∀ line, line ≠ 0 → sourceLine second (line + 1) = sourceLine first line) : Displacement where
  live place := place.line ≠ 0
  move := lowered 1
  tracing := tracing
  first := first
  second := second
  base := []
  alike := Line.Lowered
  printed := .printed
  effect _ := .effect
  headed _ place _ := .headed place.line
  placed _ place hline := ⟨hline, Nat.succ_ne_zero place.line⟩
  sourced _ place hline := h place.line hline

theorem mapError_relocate_id {α : Type} (r : Except Exit α) : r.mapError (Exit.relocate id) = r := by
  cases r with
  | error e => exact congrArg Except.error e.relocate_id
  | ok a => rfl

theorem content_alone (hone : p.statements = [p]) (hstatement : p.content ≠ []) :
    p.content = [p] := by
  unfold Tree.content at *
  rw [hone] at *
  cases hs : p.isSeparator with
  | true => simp [hs] at hstatement
  | false => simp [hs]

/-- The term of a script is that of its statements, or of the one that it is. -/
theorem heads_of_parse (h : parse text = .ok p) (hstatement : p.content ≠ []) :
    (Term.ofTree p).Heads fun place => place.line ≠ 0 := by
  obtain ⟨items, hitems⟩ := content_lowered h
  have hlowered (t : Term) : (t.relocate (lowered 1)).Heads fun place => place.line ≠ 0 :=
    t.heads_relocate fun place => Nat.succ_ne_zero place.line
  rcases p.statements_cases with ⟨pos, kids, rfl⟩ | hone
  · rw [Term.ofTree_list (parse_isProgram h), hitems, Term.ofContent_relocate]
    exact hlowered _
  · rw [content_alone hone hstatement] at hitems
    obtain ⟨item, rfl⟩ := List.length_eq_one_iff.mp (by simpa using (congrArg List.length hitems).symm)
    cases hitems
    rw [Term.ofTree_relocate]
    exact hlowered _

/-- With a text that shows the same lines a script does the same. -/
theorem eval_resourced (h : parse text = .ok p) (hstatement : p.content ≠ []) (limit : Nat)
    {s other : State} (hsource : ∀ line, sourceLine other.source line = sourceLine s.source line) :
    eval limit (Term.ofTree p) (s.beside other) =
      ((eval limit (Term.ofTree p) s).1, (eval limit (Term.ofTree p) s).2.beside other) := by
  have hrelocates := relocates_eval (D := .resourced s other hsource) limit
    (heads_of_parse h hstatement)
  have hsame : (Term.ofTree p).relocate id = Term.ofTree p := by
    rw [← Term.ofTree_relocate, p.relocate_id]
  change Relocates _ _ (eval limit ((Term.ofTree p).relocate id)) at hrelocates
  rw [hsame] at hrelocates
  have hrun := hrelocates.beside rfl rfl rfl
  change _ = ((eval limit (Term.ofTree p) s).1.mapError (Exit.relocate id), _) at hrun
  rw [mapError_relocate_id] at hrun
  exact hrun

/-! ### Runs with a line feed behind and before -/

/-- The second run does what the first does, a line further down. -/
structure Descends (x y : Except Failure Value × State) : Prop where
  result : y.1 = x.1.mapError (Failure.relocate (lowered 1))
  output : List.Forall₂ Line.Lowered x.2.output y.2.output
  state : y.2 = { x.2 with source := y.2.source, output := y.2.output }

/-- A run before which a line is written and after which its effect is. -/
def announced (note : Note) (line : Line) (source : List String)
    (x : Except Failure Value × State) : Except Failure Value × State :=
  let t := { x.2 with source, output := x.2.output ++ [line] }
  match x.1 with
  | .error failure => (.error failure, t)
  | .ok value =>
    let shown := announceEffect note value t
    ((shown.1.map fun _ => value).mapError .exit, shown.2)

section Runs
variable (h : parse text = .ok p) (limit : Nat) {s : State}
include h

/-- Untraced, and for a list of statements, a line feed behind a script does nothing. -/
theorem execute_append_newline (hstatement : p.content ≠ [])
    (halike : s.tracing = false ∨ ∃ pos kids, p = .node .statementList pos kids) :
    s.executeWithin limit (text ++ "\n") = ((s.executeWithin limit text).1,
      { (s.executeWithin limit text).2 with source := Text.lines (text ++ "\n") }) := by
  obtain ⟨q, hq, hcontent, hlist⟩ := parse_append_newline h
  obtain ⟨pos, kids, rfl⟩ := hlist hstatement
  let start : State := { s with source := Text.lines text, output := [] }
  let other : State := { source := Text.lines (text ++ "\n") }
  have hterm : eval limit (Term.ofTree (.node .statementList pos kids)) (start.beside other) =
      eval limit (Term.ofTree p) (start.beside other) := by
    rcases halike with hs | ⟨place, items, rfl⟩
    · obtain ⟨first, hfirst⟩ := eval_content (parse_isProgram h) limit
      obtain ⟨second, hsecond⟩ := eval_content (parse_isProgram hq) limit
      replace hs : (start.beside other).tracing = false := hs
      rw [hfirst _ hs, hsecond _ hs, hcontent, evalSequence_start (by simpa using hstatement) first]
    · rw [Term.ofTree_list (parse_isProgram h), Term.ofTree_list (parse_isProgram hq), hcontent]
  have hsource (line : Nat) : sourceLine other.source line = sourceLine start.source line :=
    Text.sourceLine_append_newline text line
  have hrun := eval_resourced h hstatement limit hsource
  rw [State.executeWithin_ok h, State.executeWithin_ok hq]
  change ((eval limit _ (start.beside other)).1.mapError _, (eval limit _ (start.beside other)).2) = _
  rw [hterm, hrun]
  simp [State.beside, other, start]

omit h in
theorem eval_alone (t : Term) (s : State) : eval limit (.sequence [t]) s = eval limit t s := by
  rw [eval, evalSequence]
  simp only [evalSequence, bind_pure]

omit h in
/-- A traced statement is evaluated between its line and its effect. -/
theorem eval_traced_apply {note : Note} {place : Pos} {item : Term} (ht : s.tracing)
    (hline : place.line ≠ 0) : eval limit (.traced note (some place) item) s =
      (eval limit item >>= fun value => whenTracing (announceEffect note value) >>= fun _ => pure value)
        { s with output := announcement s.source place :: s.output } := by
  rw [eval, bind_apply, whenTracing_of_tracing ht, announce_apply hline]

omit h in
/-- A run that does the same with another text and behind a line that was written, and then shows
its effect. -/
theorem announced_apply {note : Note} {line : Line} {source : List String} {run : Run Value}
    (ht : (run s).2.tracing)
    (hrun : run (s.beside { source, output := [line] }) =
      ((run s).1, (run s).2.beside { source, output := [line] })) :
    let shown := (run >>= fun value => whenTracing (announceEffect note value) >>= fun _ => pure value)
      (s.beside { source, output := [line] })
    (shown.1.mapError Failure.exit, shown.2) =
      announced note line source ((run s).1.mapError Failure.exit, (run s).2) := by
  rw [bind_apply, hrun]
  cases hr : run s with
  | mk r t =>
    rw [hr] at ht
    cases r with
    | error e => rfl
    | ok value =>
      let after : State := t.beside { source, output := [line] }
      have htraced : after.tracing := ht
      dsimp only
      rw [bind_apply, whenTracing_of_tracing htraced]
      change _ = (((announceEffect note value after).1.map fun _ => value).mapError Failure.exit,
        (announceEffect note value after).2)
      cases announceEffect note value after with
      | mk shown u => cases shown <;> rfl

/-- Traced, a script that is one statement is announced with a line feed behind it. -/
theorem execute_append_newline_alone (ht : s.tracing) (hone : p.content = [p]) :
    ∃ label place kids, p = .node label (some place) kids ∧
      s.executeWithin limit (text ++ "\n") =
        announced (Term.noteOf label kids) (announcement (Text.lines text) place)
          (Text.lines (text ++ "\n")) (s.executeWithin limit text) := by
  obtain ⟨q, hq, hcontent, hlist⟩ := parse_append_newline h
  obtain ⟨pos, items, rfl⟩ := hlist (by simp [hone])
  have hmem : p ∈ p.content := by simp [hone]
  obtain ⟨hitem, hs⟩ := List.mem_filter.mp hmem
  obtain ⟨label, place, kids, rfl, -⟩ := Shape.node (parse_isProgram h p hitem (by simpa using hs))
  refine ⟨label, place, kids, rfl, ?_⟩
  obtain ⟨before, -, -, hplace⟩ := parse_placed h (Tree.self_mem_subtrees _)
  have hline : place.line ≠ 0 := by simp [hplace, Pos.behind]
  let start : State := { s with source := Text.lines text, output := [] }
  let other : State := { source := Text.lines (text ++ "\n"),
                         output := [announcement (Text.lines text) place] }
  have hsource (line : Nat) : sourceLine other.source line = sourceLine start.source line :=
    Text.sourceLine_append_newline text line
  have hrun := eval_resourced h (by simp [hone]) limit hsource
  have htracing := (eval_adjusts limit (Term.ofTree (.node label (some place) kids)) start).tracing
  have hannounced : eval limit (Term.ofContent [.node label (some place) kids])
      { s with source := Text.lines (text ++ "\n"), output := [] } =
      (eval limit (Term.ofTree (.node label (some place) kids)) >>= fun value =>
        whenTracing (announceEffect (Term.noteOf label kids) value) >>= fun _ => pure value)
        (start.beside other) := by
    have hsame : announcement (Text.lines (text ++ "\n")) place = announcement (Text.lines text) place := by
      unfold announcement
      rw [Text.sourceLine_append_newline]
    change eval limit (.sequence [.traced _ (some place) _]) _ = _
    rw [eval_alone, eval_traced_apply limit
      (s := { s with source := Text.lines (text ++ "\n"), output := [] }) ht hline, hsame]
    rfl
  rw [State.executeWithin_ok hq, State.executeWithin_ok h, Term.ofTree_list (parse_isProgram hq),
    hcontent, hone, hannounced]
  exact announced_apply (htracing.trans ht) hrun

/-- With a line feed before it a script does what it does with one behind it, a line further
down. -/
theorem execute_newline_append (hstatement : p.content ≠ []) :
    Descends (s.executeWithin limit (text ++ "\n")) (s.executeWithin limit ("\n" ++ text)) := by
  obtain ⟨q, hq, hcontent, hlist⟩ := parse_append_newline h
  obtain ⟨pos, kids, rfl⟩ := hlist hstatement
  obtain ⟨r, hr, hlowered, hlist⟩ := parse_newline_append h
  obtain ⟨place, items, rfl⟩ := hlist hstatement
  have hsource (line : Nat) (hline : line ≠ 0) : sourceLine (Text.lines ("\n" ++ text)) (line + 1) =
      sourceLine (Text.lines (text ++ "\n")) line := by
    rw [Text.sourceLine_newline_append text hline, Text.sourceLine_append_newline]
  have hterm : Term.ofTree (.node .statementList place items) =
      (Term.ofTree (.node .statementList pos kids)).relocate (lowered 1) := by
    rw [Term.ofTree_list (parse_isProgram hr), Term.ofTree_list (parse_isProgram hq), hlowered,
      hcontent, Term.ofContent_relocate]
  have hrelocates := relocates_eval (D := .lowering s.tracing _ _ hsource) limit
    (heads_of_parse hq (by rw [hcontent]; exact hstatement))
  obtain ⟨hend, hjoins⟩ := hrelocates { s with source := Text.lines (text ++ "\n"), output := [] }
    { s with source := Text.lines ("\n" ++ text), output := [] } ⟨rfl, rfl, rfl, [], rfl, .nil⟩
  rw [State.executeWithin_ok hq, State.executeWithin_ok hr, hterm]
  obtain ⟨lines, hlines, halike⟩ := hjoins.output
  refine ⟨?_, ?_, ?_⟩
  · dsimp only
    change (eval limit (Term.relocate (lowered 1) _) _).1 = _ at hend
    rw [hend]
    exact mapError_relocate _ _
  · dsimp only
    change (eval limit (Term.relocate (lowered 1) _) _).2.output = lines ++ [] at hlines
    rw [hlines, List.append_nil]
    exact halike
  · have hstate := hjoins.same
    change (eval limit (Term.relocate (lowered 1) _) _).2 = _ at hstate
    dsimp only
    rw [congrArg State.source hstate]
    exact hstate

/-- A script without statements does nothing. Its value is the text of its separator if that is
all of it. -/
theorem execute_without_statements (hempty : p.content = []) :
    (p.isSeparator = false → s.executeWithin limit text =
      (.ok .none, { s with source := Text.lines text, output := [] })) ∧
    (∀ word place, p = .token .sep word place → s.executeWithin limit text =
      (.ok (.text word), { s with source := Text.lines text, output := [] })) := by
  rw [State.executeWithin_ok h]
  constructor
  · intro hs
    rcases p.statements_cases with ⟨pos, kids, rfl⟩ | hone
    · rw [Term.ofTree_list (parse_isProgram h), hempty]
      rfl
    · simp [Tree.content, hone, hs] at hempty
  · rintro word place rfl
    rfl

end Runs

namespace CommandLine

variable {limit : Nat} {program : String} {overrides : List (String × Decimal)} {tracing : Bool}
  {t : State}

theorem runProgram_none (h : outcome limit program overrides tracing = (.ok .none, t)) :
    runProgram limit program overrides tracing = { ending := .code 0, out := t.outputText } := by
  unfold outcome at h
  unfold runProgram
  extract_lets given
  have hrun : (State.new 28 given tracing).executeWithin limit program = (.ok .none, t) := h
  rw [hrun]
  simp

theorem runProgram_text {word : String}
    (h : outcome limit program overrides tracing = (.ok (.text word), t))
    (hsilent : t.outputText = "") :
    runProgram limit program overrides tracing = { ending := .code 0, out := word ++ "\n" } := by
  unfold outcome at h
  unfold runProgram
  extract_lets given
  have hrun : (State.new 28 given tracing).executeWithin limit program = (.ok (.text word), t) := h
  rw [hrun]
  change ({ ending := .code 0, out := t.outputText ++ (word ++ "\n") } : Report) = _
  rw [hsilent, String.empty_append]

end CommandLine

/-- A line feed behind a script or before it adds no statement. Where there is a statement the
script does the same with it behind, and with it before the same a line further down, but that a
traced script of one statement is announced only with a line feed. A script without statements
does nothing, and its value is none unless it is one separator: that is then its value, and the
command line prints it. -/
theorem line_feed_around_script (limit : Nat) {text : String} {p : Tree}
    (h : parse text = .ok p) (s : State) :
    (∃ q, parse (text ++ "\n") = .ok q ∧ q.content = p.content) ∧
    (∃ q, parse ("\n" ++ text) = .ok q ∧ q.content = p.content.map (Tree.relocate (lowered 1))) ∧
    (p.content ≠ [] →
      (s.tracing = false ∨ (∃ pos kids, p = .node .statementList pos kids) →
        s.executeWithin limit (text ++ "\n") = ((s.executeWithin limit text).1,
          { (s.executeWithin limit text).2 with source := Text.lines (text ++ "\n") })) ∧
      (s.tracing → (¬ ∃ pos kids, p = .node .statementList pos kids) →
        ∃ label place kids, p = .node label (some place) kids ∧
          s.executeWithin limit (text ++ "\n") =
            announced (Term.noteOf label kids) (announcement (Text.lines text) place)
              (Text.lines (text ++ "\n")) (s.executeWithin limit text)) ∧
      Descends (s.executeWithin limit (text ++ "\n")) (s.executeWithin limit ("\n" ++ text))) ∧
    (p.content = [] →
      (p.isSeparator = false →
        s.executeWithin limit text =
          (.ok .none, { s with source := Text.lines text, output := [] }) ∧
        ∀ overrides tracing,
          CommandLine.runProgram limit text overrides tracing = { ending := .code 0 }) ∧
      (∀ word place, p = .token .sep word place →
        s.executeWithin limit text =
          (.ok (.text word), { s with source := Text.lines text, output := [] }) ∧
        ∀ overrides tracing,
          CommandLine.runProgram limit text overrides tracing =
            { ending := .code 0, out := word ++ "\n" })) := by
  obtain ⟨q, hq, hcontent, -⟩ := parse_append_newline h
  obtain ⟨r, hr, hlowered, -⟩ := parse_newline_append h
  refine ⟨⟨q, hq, hcontent⟩, ⟨r, hr, hlowered⟩, fun hstatement => ⟨?_, ?_, ?_⟩, fun hempty => ⟨?_, ?_⟩⟩
  · exact execute_append_newline h limit hstatement
  · intro ht hlist
    exact execute_append_newline_alone h limit ht
      (content_alone (p.statements_cases.resolve_left hlist) hstatement)
  · exact execute_newline_append h limit hstatement
  · intro hs
    refine ⟨(execute_without_statements h limit hempty).1 hs, fun overrides tracing => ?_⟩
    exact CommandLine.runProgram_none ((execute_without_statements h _ hempty).1 hs)
  · intro word place hp
    refine ⟨(execute_without_statements h limit hempty).2 word place hp, fun overrides tracing => ?_⟩
    exact CommandLine.runProgram_text ((execute_without_statements h _ hempty).2 word place hp) rfl

/-- Traced, a script of two statements that fails in its second fails so with a line feed behind
it, and a line further down with one before it. -/
theorem line_feed_around_script_failing :
    (State.executeWithin 0 "x = 1\ny # none" { tracing := true }).1 =
        .error (.exit (.fault (.script (.unbound "y") (some ⟨2, 1⟩)))) ∧
    (State.executeWithin 0 ("x = 1\ny # none" ++ "\n") { tracing := true }).1 =
        .error (.exit (.fault (.script (.unbound "y") (some ⟨2, 1⟩)))) ∧
    (State.executeWithin 0 ("\n" ++ "x = 1\ny # none") { tracing := true }).1 =
        .error (.exit (.fault (.script (.unbound "y") (some ⟨3, 1⟩)))) := by
  have hrun : (State.executeWithin 0 "x = 1\ny # none" { tracing := true }).1 =
      .error (.exit (.fault (.script (.unbound "y") (some ⟨2, 1⟩)))) := by decide +kernel
  have hcount : (parse "x = 1\ny # none").map (fun p => (p.content.length, p.statements.length)) =
      .ok (2, 3) := by decide +kernel
  cases hp : parse "x = 1\ny # none" with
  | error failure => rw [hp] at hcount; cases hcount
  | ok p =>
    rw [hp] at hcount
    obtain ⟨hcontent, hstatements⟩ := Prod.mk.inj (Except.ok.inj hcount)
    have hlist := p.statements_cases.resolve_right fun hone => by simp [hone] at hstatements
    have hstatement : p.content ≠ [] := fun hnone => by simp [hnone] at hcontent
    obtain ⟨hbehind, -, hbefore⟩ :=
      (line_feed_around_script 0 hp { tracing := true }).2.2.1 hstatement
    have hafter := congrArg Prod.fst (hbehind (.inr hlist))
    dsimp only at hafter
    rw [hrun] at hafter
    have hlowered := hbefore.result
    rw [hafter] at hlowered
    exact ⟨hrun, hafter, hlowered⟩

/-- A script that is line feeds has them for its value, and the command line prints them, while two
separators have no value. One statement is announced only with a line feed behind it. -/
theorem lone_separator_is_value :
    (State.executeWithin 0 "" {}).1 = .ok .none ∧
    (State.executeWithin 0 "# nothing\n" {}).1 = .ok (.text "\n") ∧
    (State.executeWithin 0 "\n;" {}).1 = .ok .none ∧
    (CommandLine.runProgram 0 "# nothing\n" [] false).out = "\n\n" ∧
    (State.executeWithin 0 "x = 1" { tracing := true }).2.output = [] ∧
    (State.executeWithin 0 "x = 1\n" { tracing := true }).2.output =
      [.traced "+ x = 1.0000000000", .traced "- 1: x = 1"] := by
  decide +kernel

end DecimalScript
