import DecimalScript.Proofs.Margin
import DecimalScript.Proofs.Reports
import Mathlib

/-! Scripts one after the other. Two texts with a line feed between them are read as the
statements of the first and then those of the second, further down, and run so; only
a conditional at the end of the first text that lacks its last part may take the second. -/

namespace DecimalScript

namespace Grammar

/-! ### Lines -/

def lowered (n : Nat) (p : Pos) : Pos := ⟨p.line + n, p.column⟩

theorem lowered_moves (n : Nat) : Moves (lowered n) := by
  intro p c
  unfold Pos.after lowered
  split_ifs
  · simp only [Pos.mk.injEq, and_true]
    omega
  · rfl

def lineCount (text : List Char) : Nat := text.count '\n' + 1

theorem advance_line (pos : Pos) (text : List Char) :
    (advance pos text).line = pos.line + text.count '\n' := by
  unfold advance
  induction text generalizing pos with
  | nil => rfl
  | cons c rest ih =>
    rw [List.foldl_cons, ih, List.count_cons]
    unfold Pos.after
    split_ifs with hc hb hb
    · dsimp only
      omega
    · simp [hc] at hb
    · simp [hc] at hb
    · rfl

theorem advance_lines (text : List Char) :
    advance ⟨1, 1⟩ (text ++ ['\n']) = lowered (lineCount text) ⟨1, 1⟩ := by
  rw [advance_append]
  have hline := advance_line ⟨1, 1⟩ text
  change (⟨(advance ⟨1, 1⟩ text).line + 1, 1⟩ : Pos) = _
  rw [hline]
  rfl

theorem plain_newlines (n : Nat) (text : List Char) :
    plain (List.replicate n '\n' ++ text) = List.replicate n '\n' ++ plain text := by
  apply plain_append_of_forall
  intro c hc
  rw [List.eq_of_mem_replicate hc]
  decide

theorem depth_newlines (n : Nat) : depth (List.replicate n '\n') = 0 := by
  apply depth_eq_zero
  intro c hc
  rw [List.eq_of_mem_replicate hc]
  decide

theorem nesting_newlines (n : Nat) (text : List Char) :
    nesting (List.replicate n '\n' ++ text) = nesting text := by
  unfold nesting
  rw [plain_newlines, depth_append, depth_newlines, zero_add]

theorem plain_append_newlines (u : List Char) (n : Nat) :
    plain (u ++ List.replicate n '\n') = plain u ++ List.replicate n '\n' := by
  have hnewlines := plain_newlines n []
  rw [List.append_nil] at hnewlines
  cases n with
  | zero => simp
  | succ n =>
    rw [List.replicate_succ] at hnewlines ⊢
    rw [plain_append_newline, hnewlines]
    simp [plain]

theorem Reaches.append {u v w : List Char} (hl : u.getLast? ≠ some '\n') (hv : LineEnds v)
    (h : Reaches u w) : Reaches (u ++ v) (w ++ v) := by
  induction h with
  | refl => exact .refl
  | tail hfirst hlast ih =>
    obtain ⟨kind, hk, hlexes⟩ := hlast
    have hl := getLast?_suffix hl (Reaches.suffix hfirst)
    exact ih.tail ⟨kind, hk, (lexes_append_iff hk hl hv).mpr hlexes⟩

theorem EndsOpen.append_newlines {u : List Char} (h : EndsOpen u) (hl : u.getLast? ≠ some '\n')
    (n : Nat) : EndsOpen (u ++ List.replicate n '\n') := by
  cases n with
  | zero => simpa using h
  | succ n =>
    obtain ⟨start, rest, hstart, hopen, hend⟩ := h
    cases hopen with
    | @pair _ _ _ mid _ hhalfway hs =>
      have hline := lineEnds_newline (List.replicate n '\n')
      have hlstart := getLast?_suffix hl (Reaches.suffix hstart)
      have hlmid := getLast?_suffix hlstart hhalfway.suffix
      rw [List.replicate_succ]
      exact ⟨_, [], hstart.append hl hline,
        .pair ((leads_append_iff (d := 0) (by decide) (by decide) hlstart hline).mpr hhalfway)
          (hs.append_end hlmid hend (settles_newlines n)).leads, rfl⟩

/-- Line feeds at the end of a text do not close it. -/
theorem closed_of_newlines {u : List Char} {n : Nat} (hl : u.getLast? ≠ some '\n')
    (hn : nesting (u ++ List.replicate n '\n') = 0)
    (he : ¬EndsOpen (u ++ List.replicate n '\n')) : Closed u where
  last := hl
  nesting := by
    unfold Grammar.nesting at *
    rwa [plain_append_newlines, depth_append, depth_newlines, add_zero] at hn
  complete := fun hopen => he (hopen.append_newlines hl n)

/-! ### The statements of joined texts -/

/-- The statements of the second text come after those of the first, as many lines further
down as the first has. -/
theorem program_joined {first second : List Char} {a b : List Tree} (hfirst : nesting first = 0)
    (hsecond : nesting second = 0) (hopen : ¬EndsOpen first) (hone : ¬Ambiguous first)
    (hother : ¬Ambiguous second) (ha : program first ⟨1, 1⟩ = some a)
    (hb : program second ⟨1, 1⟩ = some b) (hne : b ≠ []) :
    program (first ++ '\n' :: second) ⟨1, 1⟩ =
      some (a ++ b.map (Tree.relocate (lowered (lineCount first)))) := by
  obtain ⟨u, n, rfl, hlast⟩ := exists_newlines first
  have hclosed := closed_of_newlines hlast hfirst hopen
  have honly : ¬Ambiguous u := fun h => hone (h.append_newlines hlast n)
  rw [← ambiguous_newlines (n + 1), List.replicate_succ, List.cons_append] at hother
  rw [program_append_newlines hlast] at ha
  have hlowered := program_relocate (lowered_moves (lineCount (u ++ List.replicate n '\n')))
    second ⟨1, 1⟩
  rw [← advance_lines, List.append_assoc, ← List.replicate_succ', advance_append,
    ← program_newlines, hb, List.replicate_succ, List.cons_append, Option.map_some] at hlowered
  have hnesting := nesting_newlines (n + 1) second
  rw [hsecond, List.replicate_succ, List.cons_append] at hnesting
  have hjoined : u ++ List.replicate n '\n' ++ '\n' :: second =
      u ++ '\n' :: (List.replicate n '\n' ++ second) := by
    simp [← List.cons_append, ← List.replicate_succ, List.replicate_succ']
  rw [hjoined, program_append (closed_seam hnesting) hclosed honly hother hlowered
    (by simpa using hne), ha, Option.map_some]

end Grammar

theorem Exit.relocate_id (e : Exit) : e.relocate id = e := by
  cases e with
  | fault f => cases f <;> simp [Exit.relocate, Fault.relocate]
  | signal | exhausted => rfl

namespace Run

variable {limit : Nat} {s : State}

/-! ### Statements one after the other -/

theorem eval_traced (hs : s.tracing = false) (note : Note) (pos : Option Pos) (item : Term) :
    eval limit (.traced note pos item) s = eval limit item s := by
  rw [eval, bind_apply, whenTracing_of_not_tracing hs]
  dsimp only
  rw [bind_apply]
  have htracing := (eval_adjusts limit item s).tracing
  cases hr : eval limit item s with
  | mk r t =>
    rw [hr] at htracing
    cases r with
    | error e => rfl
    | ok value =>
      dsimp only
      rw [bind_apply, whenTracing_of_not_tracing (htracing.trans hs)]
      rfl

theorem eval_ofStatement (hs : s.tracing = false) (tree : Tree) :
    eval limit (Term.ofStatement (Part.of tree)) s = eval limit (Term.ofTree tree) s := by
  cases tree with
  | node label pos kids => exact eval_traced hs ..
  | token => rfl
  | value => rfl

theorem evalSequence_map {trees : List Tree} {f g : Tree → Term}
    (h : ∀ tree s, s.tracing = false → eval limit (f tree) s = eval limit (g tree) s)
    (value : Value) (hs : s.tracing = false) :
    evalSequence limit value (trees.map f) s = evalSequence limit value (trees.map g) s := by
  induction trees generalizing value s with
  | nil => rfl
  | cons tree rest ih =>
    have htracing := (eval_adjusts limit (g tree) s).tracing
    rw [List.map_cons, List.map_cons, evalSequence, evalSequence, bind_apply, bind_apply, h tree s hs]
    cases hr : eval limit (g tree) s with
    | mk r t =>
      rw [hr] at htracing
      cases r with
      | error e => rfl
      | ok value => exact ih value (htracing.trans hs)

theorem evalSequence_append (value : Value) (xs ys : List Term) :
    evalSequence limit value (xs ++ ys) =
      evalSequence limit value xs >>= fun last => evalSequence limit last ys := by
  simp only [evalSequence_eq_foldlM, List.foldlM_append]

/-- The value before the first statement is lost. -/
theorem evalSequence_start {items : List Term} (h : items ≠ []) (value other : Value) :
    evalSequence limit value items = evalSequence limit other items := by
  cases items with
  | nil => contradiction
  | cons item rest => rw [evalSequence, evalSequence]

theorem filter_separators (trees : List Tree) (h : ∀ tree ∈ trees, tree.isSeparator = false →
    Tree.Shape tree) :
    (trees.map Part.of).filter (fun part => !part.isToken .sep && !part.isNode .sep) =
      (trees.filter (!·.isSeparator)).map Part.of := by
  rw [List.filter_map]
  congr 1
  refine List.filter_congr fun tree ht => ?_
  rw [Function.comp_apply, isToken_separator]
  cases hs : tree.isSeparator with
  | true => rfl
  | false =>
    obtain ⟨label, pos, kids, rfl, hl, -⟩ := Shape.node (h tree ht hs)
    cases label <;> simp_all [Part.isNode, Part.of]

/-- Untraced, a program does what its statements do one after the other. -/
theorem eval_content {tree : Tree} (h : tree.IsProgram) (limit : Nat) :
    ∃ value, ∀ s : State, s.tracing = false → eval limit (Term.ofTree tree) s =
      evalSequence limit value (tree.content.map Term.ofTree) s := by
  rcases tree.statements_cases with ⟨pos, kids, rfl⟩ | hone
  · refine ⟨.none, fun s hs => ?_⟩
    rw [Term.ofTree_node]
    change evalSequence limit .none ((List.filter _ (kids.map Part.of)).map Term.ofStatement) s = _
    rw [filter_separators kids h, List.map_map]
    exact evalSequence_map (fun tree s hs => eval_ofStatement hs tree) _ hs
  · unfold Tree.content
    rw [hone]
    cases hsep : tree.isSeparator with
    | true =>
      obtain ⟨text, pos, rfl⟩ := Tree.eq_of_isSeparator hsep
      exact ⟨.text text, fun s hs => rfl⟩
    | false =>
      refine ⟨.none, fun s hs => ?_⟩
      simp [hsep, evalSequence]

theorem relocates_evalSequence {D : Displacement} (value : Value) {items : List Term}
    (h : ∀ item ∈ items, item.Heads D.live) :
    Relocates D (evalSequence limit value items)
      (evalSequence limit value (items.map (Term.relocate D.move))) := by
  simp only [evalSequence_eq_foldlM]
  exact relocates_sequence (fun item hi => relocates_eval limit (h item hi)) value

/-- An untraced program does the same beside another one, and after other output. -/
theorem eval_beside (limit : Nat) (hs : s.tracing = false) (tree : Tree) (other : State) :
    eval limit (Term.ofTree tree) (s.beside other) =
      ((eval limit (Term.ofTree tree) s).1, (eval limit (Term.ofTree tree) s).2.beside other) := by
  have hmoved := eval_relocate id limit (Term.ofTree tree) hs other
  rw [← Term.ofTree_relocate, tree.relocate_id] at hmoved
  rw [hmoved]
  cases (eval limit (Term.ofTree tree) s).1 with
  | error e => simp [Except.mapError, Exit.relocate_id]
  | ok value => rfl

end Run

def Failure.relocate (σ : Pos → Pos) : Failure → Failure
  | .mistake m => .mistake m
  | .exit e => .exit (e.relocate σ)

theorem mapError_relocate {α : Type} (σ : Pos → Pos) (r : Except Exit α) :
    (r.mapError (Exit.relocate σ)).mapError .exit =
      (r.mapError .exit).mapError (Failure.relocate σ) := by
  cases r with
  | error e => rfl
  | ok a => rfl

open Grammar

variable {first second : String} {p q : Tree}

theorem parse_joined (hp : parse first = .ok p) (hq : parse second = .ok q)
    (hstatement : q.content ≠ []) (hopen : ¬EndsOpen first.toList)
    (hone : ¬Ambiguous first.toList) (hother : ¬Ambiguous second.toList) :
    ∃ tree, parse (first ++ "\n" ++ second) = .ok tree ∧ tree.content =
      p.content ++ q.content.map (Tree.relocate (lowered (lineCount first.toList))) := by
  have hprogram := program_joined (nesting_of_parse hp) (nesting_of_parse hq) hopen hone hother
    (program_eq_some_iff.mpr ⟨p, hp, rfl⟩) (program_eq_some_iff.mpr ⟨q, hq, rfl⟩) hstatement
  have htext : (first ++ "\n" ++ second).toList = first.toList ++ '\n' :: second.toList := by simp
  rw [← htext] at hprogram
  exact program_eq_some_iff.mp hprogram

section Joined
variable (limit : Nat) {s : State}

open Run

/-- A joined text does what the first program does and then, unless that failed, what the
statements of the second do. -/
theorem eval_joined (hp : p.IsProgram) {tree : Tree} (htree : tree.IsProgram) {items : List Tree}
    (hitems : items ≠ []) (hcontent : tree.content = p.content ++ items) (hs : s.tracing = false) :
    eval limit (Term.ofTree tree) s = (eval limit (Term.ofTree p) >>= fun value =>
      evalSequence limit value (items.map Term.ofTree)) s := by
  obtain ⟨value, hvalue⟩ := eval_content hp limit
  obtain ⟨start, hstart⟩ := eval_content htree limit
  have hne : p.content.map Term.ofTree ++ items.map Term.ofTree ≠ [] := by simp [hitems]
  rw [hstart s hs, hcontent, List.map_append, evalSequence_start hne start value,
    evalSequence_append, bind_apply, bind_apply, hvalue s hs]

/-- The statements of a program run elsewhere as the program does. -/
theorem evalSequence_relocate (hq : q.IsProgram) (hstatement : q.content ≠ []) (σ : Pos → Pos)
    (value : Value) (other : State) (hs : s.tracing = false) :
    evalSequence limit value ((q.content.map (Tree.relocate σ)).map Term.ofTree) (s.beside other) =
      ((eval limit (Term.ofTree q) s).1.mapError (Exit.relocate σ),
        (eval limit (Term.ofTree q) s).2.beside other) := by
  obtain ⟨start, hstart⟩ := eval_content hq limit
  have hterms : (q.content.map (Tree.relocate σ)).map Term.ofTree =
      (q.content.map Term.ofTree).map (Term.relocate σ) := by
    rw [List.map_map, List.map_map]
    exact List.map_congr_left fun tree _ => Term.ofTree_relocate tree
  have hne : q.content.map Term.ofTree ≠ [] := by simp [hstatement]
  rw [hterms, hstart s hs, evalSequence_start hne start value]
  refine (relocates_evalSequence (D := .untraced σ s.source other) value ?_).beside rfl hs rfl
  exact fun _ _ _ _ _ _ => trivial

end Joined

end DecimalScript
