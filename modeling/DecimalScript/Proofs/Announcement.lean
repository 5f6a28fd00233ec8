import DecimalScript.Proofs.TwoRunRelations
import DecimalScript.Proofs.Footprint
import DecimalScript.Proofs.Placement
import DecimalScript.Proofs.Resumption
import DecimalScript.Proofs.Splitting
import Mathlib

/-! The lines that tracing writes before statements. A statement of a list is announced each time
it is due, at any depth of blocks and loops, with its line and the text that stands
there. A program or a block that is one statement is no list, and nothing is
written before that statement. -/

namespace DecimalScript

open Run

/-- A run of the program comes to a statement, which is due in the first state and begins in the
second. It is the program itself, or one of a list of statements, or all that a block has. -/
inductive Executes (limit : Nat) (program : Tree) (s : State) : Bool → Tree → State → State → Prop
  | alone (h : program.content = [program]) : Executes limit program s false program s s
  | inList {pos : Option Pos} {kids : List Tree} {item : Tree} {x v w : State}
      (hl : .node .statementList pos kids ∈ program.subtrees)
      (hr : Reaches limit (Term.ofTree program) s (Term.ofTree (.node .statementList pos kids)) x)
      (hi : item ∈ kids) (hs : item.isSeparator = false)
      (hv : (Term.ofStatement (Part.of item), v) ∈
        calls limit (Term.ofTree (.node .statementList pos kids)) x)
      (hw : (Term.ofTree item, w) ∈ calls limit (Term.ofStatement (Part.of item)) v) :
      Executes limit program s true item v w
  | inBlock {pos : Option Pos} {item : Tree} {x w : State}
      (hb : .node .block pos [item] ∈ program.subtrees)
      (hr : Reaches limit (Term.ofTree program) s (Term.ofTree (.node .block pos [item])) x)
      (hi : item.content = [item])
      (hw : (Term.ofTree item, w) ∈ calls limit (Term.ofTree (.node .block pos [item])) x) :
      Executes limit program s false item x w

namespace Executes

variable {limit : Nat} {program item : Tree} {listed : Bool} {s v w : State}

theorem reaches (h : Executes limit program s listed item v w) :
    Reaches limit (Term.ofTree program) s (Term.ofTree item) w := by
  cases h with
  | alone => exact .here
  | inList hl hr hi hs hv hw => exact (hr.extend hv).extend hw
  | inBlock hb hr hi hw => exact hr.extend hw

end Executes

/-- A statement of a list is a node with a place. -/
theorem Tree.IsProgram.listed_node {program item : Tree} (hp : program.IsProgram) {pos : Option Pos}
    {kids : List Tree} (hl : .node .statementList pos kids ∈ program.subtrees) (hi : item ∈ kids)
    (hs : item.isSeparator = false) :
    ∃ label place inner, item = .node label (some place) inner := by
  generalize hlist : Tree.node .statementList pos kids = list at hl
  cases hp.orderly list hl with
  | shape h =>
    obtain ⟨label, place, inner, rfl, hlabel, -⟩ := Shape.node h
    cases hlist
    simp at hlabel
  | token => cases hlist
  | clause h =>
    cases hlist
    simp [Tree.clauses] at h
  | list h =>
    cases hlist
    obtain ⟨label, place, inner, rfl, -⟩ := Shape.node (h item hi hs)
    exact ⟨label, place, inner, rfl⟩

def Term.ofContent (items : List Tree) : Term :=
  .sequence (items.map fun item => ofStatement (Part.of item))

theorem Term.ofTree_list {pos : Option Pos} {kids : List Tree}
    (h : Tree.IsProgram (.node .statementList pos kids)) :
    Term.ofTree (.node .statementList pos kids) =
      ofContent (Tree.node .statementList pos kids).content := by
  rw [Term.ofTree_node]
  change Term.sequence ((List.filter _ (kids.map Part.of)).map Term.ofStatement) = _
  rw [filter_separators kids h, List.map_map]
  rfl

namespace Run

variable {limit : Nat} {s v w : State}

/-- A statement that is alone in its block begins when the block does. -/
theorem calls_block {pos : Option Pos} {item : Tree} {u : Term}
    (h : (u, w) ∈ calls limit (Term.ofTree (.node .block pos [item])) v) : w = v := by
  rw [Term.ofTree_node] at h
  change (u, w) ∈ callsInTurn limit ((Term.upToList (Term.content [Part.of item])).map Part.term) v at h
  have hone : Term.upToList (Term.content [Part.of item]) ∈ [[], [Part.of item]] := by
    unfold Term.content
    rw [List.filter_singleton]
    generalize (!_ && !_ && !_) = kept
    cases kept <;> simp [Term.upToList]
  simp only [List.mem_cons, List.not_mem_nil, or_false] at hone
  rcases hone with hone | hone
  · rw [hone] at h
    cases h
  · rw [hone, List.map_singleton, callsInTurn] at h
    rcases List.mem_cons.mp h with heq | h
    · cases heq
      rfl
    · obtain ⟨_, _, _, h⟩ := mem_after.mp h
      cases h

def announcement (source : List String) (place : Pos) : Line :=
  .traced ("- " ++ Nat.repr place.line ++ ": " ++ sourceLine source place.line)

theorem announce_apply {place : Pos} (h : place.line ≠ 0) :
    announce (some place) s =
      (.ok (), { s with output := announcement s.source place :: s.output }) := by
  rw [announce, if_neg h]
  rfl

/-- The line of a statement is all that is written before it begins. -/
theorem calls_traced {note : Note} {place : Pos} {item : Term} (ht : v.tracing)
    (h : place.line ≠ 0) : calls limit (.traced note (some place) item) v =
      [(item, { v with output := announcement v.source place :: v.output })] := by
  have hline := (whenTracing_of_tracing ht (announce (some place))).trans (announce_apply h)
  change after _ v _ = _
  unfold after
  rw [hline]

end Run

/-- With tracing, each time that a run comes to a statement of a list, it writes the line of the
statement and the text that stands there, and then begins the statement; before a
statement that is all of a program or of a block it writes nothing. The line is
that of the place of the statement, and its text is the line around this place
if lines end with line feeds. All that was written before a statement is in the output. -/
theorem listed_statements_announced (limit : Nat) {text : String} {program : Tree} {s : State}
    (hp : Grammar.parse text = .ok program) (ht : s.tracing) {listed : Bool} {item : Tree}
    {v w : State}
    (h : Executes limit program { s with source := Text.lines text, output := [] } listed item v w) :
    w.output <:+ (s.executeWithin limit text).2.output ∧
    (listed = false → w = v) ∧
    (listed = true → ∃ label place inner before after, item = .node label (some place) inner ∧
      text.toList = before ++ after ∧ place = Pos.behind before ∧
      w = { v with output := announcement (Text.lines text) place :: v.output } ∧
      (Text.hasPlainLines text.toList → sourceLine (Text.lines text) place.line =
        String.ofList (Text.trimmed (Text.lineAround before after)))) := by
  refine ⟨?_, fun hl => ?_, fun hl => ?_⟩
  · rw [State.executeWithin_ok hp]
    exact h.reaches.before.2.output
  · cases h with
    | alone => rfl
    | inList => cases hl
    | inBlock hb hr hi hw => exact calls_block hw
  · cases h with
    | alone => cases hl
    | inBlock => cases hl
    | @inList pos kids item x v w hlist hr hi hs hv hw =>
      obtain ⟨label, place, inner, rfl⟩ := (Grammar.parse_isProgram hp).listed_node hlist hi hs
      have hsub := Tree.mem_subtrees_trans hlist
        (Tree.mem_subtrees_of_child hi (Tree.self_mem_subtrees _))
      obtain ⟨before, after, htext, hplace⟩ := Grammar.parse_placed hp hsub
      have hbefore := (hr.extend hv).before.1
      have htracing : v.tracing := by rw [hbefore.adjusted.tracing, ht]
      have hline : place.line ≠ 0 := by simp [hplace, Pos.behind]
      refine ⟨label, place, inner, before, after, rfl, htext, hplace, ?_, fun hplain => ?_⟩
      · change (_, w) ∈ calls limit (.traced _ (some place) _) v at hw
        rw [calls_traced htracing hline] at hw
        cases List.mem_singleton.mp hw
        rw [show v.source = Text.lines text from hbefore.source]
      · rw [hplace]
        exact Text.sourceLine_behind htext hplain

/-- A statement in the second line. -/
theorem listed_statements_announced_indented :
    let text := "\n  x = 5"
    ∃ program item v w, Grammar.parse text = .ok program ∧
      Executes 1 program { tracing := true, source := Text.lines text } true item v w ∧
      v.output = [] ∧ w.output = [.traced "- 2: x = 5"] := by
  intro text
  have hlengths : (Grammar.parse text).map (fun tree => (tree.statements.length, tree.content.length)) =
      .ok (2, 1) := by decide +kernel
  have hrun : (State.executeWithin 1 text { tracing := true }).2.output =
      [.traced "+ x = 5.0000000000", .traced "- 2: x = 5"] := by decide +kernel
  cases hp : Grammar.parse text with
  | error mistake =>
    rw [hp] at hlengths
    cases hlengths
  | ok program =>
    rw [hp] at hlengths
    obtain ⟨hmany, hone⟩ := Prod.mk.inj (Except.ok.inj hlengths)
    obtain ⟨item, hitem⟩ := List.length_eq_one_iff.mp hone
    have hprogram := Grammar.parse_isProgram hp
    rcases program.statements_cases with ⟨pos, kids, rfl⟩ | halone
    · have hmem : item ∈ kids.filter (!·.isSeparator) := by
        change item ∈ (Tree.node .statementList pos kids).content
        simp [hitem]
      obtain ⟨hi, hs⟩ := List.mem_filter.mp hmem
      replace hs : item.isSeparator = false := by simpa using hs
      obtain ⟨label, place, inner, rfl⟩ := hprogram.listed_node (Tree.self_mem_subtrees _) hi hs
      obtain ⟨before, _, _, hplace⟩ := Grammar.parse_placed hp
        (Tree.mem_subtrees_of_child hi (Tree.self_mem_subtrees _))
      have hline : place.line ≠ 0 := by simp [hplace, Pos.behind]
      let start : State := { tracing := true, source := Text.lines text }
      have hexecutes : Executes 1 (.node .statementList pos kids) start true
          (.node label (some place) inner) start
          { start with output := [announcement start.source place] } := by
        refine .inList (Tree.self_mem_subtrees _) .here hi hs ?_ ?_
        · rw [Term.ofTree_list hprogram, hitem]
          exact List.mem_cons_self ..
        · change _ ∈ calls 1 (.traced _ (some place) _) start
          rw [calls_traced rfl hline]
          exact List.mem_singleton.mpr rfl
      have hsuffix := (listed_statements_announced 1 (s := { tracing := true }) hp rfl hexecutes).1
      rw [hrun] at hsuffix
      refine ⟨_, _, _, _, rfl, hexecutes, rfl, ?_⟩
      simpa [List.suffix_cons_iff] using hsuffix
    · simp [halone] at hmany

/-- A statement that is all of a text, or of the body of a loop, is not announced; and a form feed,
which ends no line for the places of statements, takes another line to be theirs. -/
theorem lone_statement_unannounced :
    (State.executeWithin 1 "x = 5" { tracing := true }).2.output = [] ∧
    (State.executeWithin 1 "x = 5\n" { tracing := true }).2.output =
      [.traced "+ x = 5.0000000000", .traced "- 1: x = 5"] ∧
    (State.executeWithin 2 "for i in 1..1 (x = i)" { tracing := true }).2.output =
      [.traced "+ i = 1.0000000000", .traced "- 1: for i in 1.0000000000 .. 1.0000000000"] ∧
    (State.executeWithin 1 "# \x0c\ny = 2" { tracing := true }).2.output =
      [.traced "+ y = 2.0000000000", .traced "- 2: "] := by
  decide +kernel

end DecimalScript
