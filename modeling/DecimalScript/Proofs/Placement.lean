import DecimalScript.Eval.Trace
import DecimalScript.Proofs.Landmark
import DecimalScript.Text.Line
import Mathlib

/-! The places of a tree in its text, and the lines of the text there. Each node stands behind
some characters of the text, and the line that is shown for it is the line around
that place as long as lines end with line feeds. -/

namespace DecimalScript

/-! ### Nodes -/

namespace Grammar

/-- The nodes of the trees stand in the text. -/
def Placed (text : List Char) (pos : Pos) (trees : List Tree) : Prop :=
  ∀ tree ∈ trees, ∀ label p kids, .node label (some p) kids ∈ tree.subtrees → Shows text pos p ""

section Placed
variable {text : List Char} {pos : Pos} {trees others : List Tree}

theorem placed_nil : Placed text pos [] := by simp [Placed]

theorem Placed.append (h : Placed text pos trees) (ho : Placed text pos others) :
    Placed text pos (trees ++ others) := by
  intro tree ht
  rcases List.mem_append.mp ht with ht | ht
  · exact h tree ht
  · exact ho tree ht

theorem Placed.of_drop {n : Nat} (hn : n ≤ text.length)
    (h : Placed (text.drop n) (advance pos (text.take n)) trees) : Placed text pos trees :=
  fun tree ht label p kids hs => (h tree ht label p kids hs).of_drop hn

theorem Placed.node {label : Label} {start : Option Pos} (h : Placed text pos trees)
    (hstart : ∀ p, start = some p → Shows text pos p "") :
    Placed text pos [.node label start trees] := by
  intro tree ht label p kids hs
  rw [List.mem_singleton.mp ht, Tree.subtrees, Tree.subtreesOf_eq] at hs
  rcases List.mem_cons.mp hs with heq | hs
  · cases heq
    exact hstart p rfl
  · obtain ⟨kid, hkid, hs⟩ := List.mem_flatMap.mp hs
    exact h kid hkid label p kids hs

end Placed

def Reading.Placed (text : List Char) (pos : Pos) (x : Reading) : Prop :=
  (∀ p, x.start = some p → Shows text pos p "") ∧ Grammar.Placed text pos x.kids

variable {text : List Char} {pos : Pos}

theorem shows_gap (text : List Char) (pos : Pos) :
    Shows text pos (advance pos (text.take (gapLength false text))) "" :=
  ⟨gapLength false text, gapLength_le _ _, rfl, List.nil_prefix⟩

theorem Reading.Placed.append {x y : Reading} (hx : x.Placed text pos) (hn : x.length ≤ text.length)
    (hy : y.Placed (text.drop x.length) (advance pos (text.take x.length))) :
    (x.append y).Placed text pos := by
  refine ⟨fun p hp => ?_, hx.2.append (hy.2.of_drop hn)⟩
  change (x.start <|> y.start) = some p at hp
  cases hstart : x.start with
  | some q =>
    rw [hstart] at hp
    cases hp
    exact hx.1 p hstart
  | none =>
    rw [hstart] at hp
    exact (hy.1 p hp).of_drop hn

/-- What a form reads stands in the text. -/
theorem Form.reads_placed (f : Form) (hf : f.isProper) (text : List Char) (pos : Pos) (x : Reading)
    (hx : x ∈ f.reads text pos) : x.Placed text pos := by
  refine Form.places_induction (C := fun f text => ∀ pos, ∀ x ∈ f.reads text pos,
    x.Placed text pos) ?lexeme ?rule ?pair ?either ?many ?node ?grouped f hf text pos x hx
  case lexeme =>
    intro terminal kind text pos x hx
    obtain ⟨n, -, rfl⟩ := Form.mem_reads_lexeme hx
    refine ⟨fun p hp => ?_, fun tree ht label p kids hs => ?_⟩
    · cases hp
      exact shows_gap text pos
    · cases terminal with
      | none => cases ht
      | some terminal =>
        rw [List.mem_singleton.mp ht] at hs
        cases List.mem_singleton.mp hs
  case rule =>
    intro r text ih pos x hx
    rw [Form.reads_rule] at hx
    exact ih pos x hx
  case pair =>
    intro f g text ihf ihg pos x hx
    rw [Form.reads_pair] at hx
    obtain ⟨y, hy, hx⟩ := List.mem_flatMap.mp hx
    obtain ⟨z, hz, rfl⟩ := List.mem_map.mp hx
    have hle := Form.reads_le hy
    exact (ihf pos y hy).append hle (ihg y.length hle (Form.nullable_of_reads hy) _ z hz)
  case either =>
    intro forms text ih pos x hx
    rw [Form.reads_either] at hx
    obtain ⟨f, hm, hx⟩ := List.mem_flatMap.mp (mem_distinct hx)
    exact ih f hm pos x hx
  case many =>
    intro f text hnull ih pos x hx
    rw [Form.reads_many hnull] at hx
    rcases List.mem_cons.mp (mem_distinct hx) with rfl | hx
    · exact ⟨fun p hp => (by cases hp), placed_nil⟩
    · exact ih pos x hx
  case node =>
    intro label f text ih pos x hx
    rw [Form.reads_node] at hx
    obtain ⟨y, hy, rfl⟩ := List.mem_map.mp hx
    obtain ⟨hstart, hkids⟩ := ih pos y hy
    exact ⟨hstart, hkids.node hstart⟩
  case grouped =>
    intro label f text ih pos x hx
    rw [Form.reads_grouped] at hx
    obtain ⟨y, hy, rfl⟩ := List.mem_map.mp hx
    obtain ⟨hstart, hkids⟩ := ih pos y hy
    refine ⟨hstart, ?_⟩
    unfold Reading.gathered
    dsimp only
    split
    · rename_i kid heq
      rwa [heq] at hkids
    · exact hkids.node hstart

/-- Each node in the tree of a program stands behind some characters of its text. -/
theorem parse_placed {text : String} {tree : Tree} {label : Label} {p : Pos} {kids : List Tree}
    (h : parse text = .ok tree) (hs : .node label (some p) kids ∈ tree.subtrees) :
    ∃ before after, text.toList = before ++ after ∧ p = Pos.behind before := by
  obtain ⟨x, hx, hkids⟩ := parse_eq_ok_iff.mp h
  have hplaced := (Form.reads_placed (.rule .statements) rfl text.toList ⟨1, 1⟩ x
    (List.mem_of_find?_eq_some hx)).2
  rw [hkids] at hplaced
  obtain ⟨before, after, htext, hp⟩ :=
    (hplaced tree (List.mem_singleton.mpr rfl) label p kids hs).hasAt
  exact ⟨before, after, by simpa using htext, hp⟩

end Grammar

/-! ### Lines -/

namespace Text

/-- All lines of the text end with a line feed, which may follow a carriage return. -/
def hasPlainLines : List Char → Bool
  | [] => true
  | '\r' :: '\n' :: rest => hasPlainLines rest
  | c :: rest => (c == '\n' || !isLineEnd c) && hasPlainLines rest

/-- The characters between the last line feed before a place and the next behind it. -/
def lineAround (before after : List Char) : List Char :=
  (before.reverse.takeWhile (· != '\n')).reverse ++ after.takeWhile (· != '\n')

theorem trimmed_concat {c : Char} (hc : isBlank c) (text : List Char) :
    trimmed (text ++ [c]) = trimmed text := by
  unfold trimmed
  rw [List.dropWhile_append]
  split
  · rename_i hempty
    rw [List.isEmpty_iff.mp hempty]
    simp [hc]
  · rw [List.reverse_append, List.reverse_singleton, List.singleton_append,
      List.dropWhile_cons_of_pos hc]

/-- The line with an index, without the blanks around it, empty if there is none. -/
def lineAt (lines : List (List Char)) (index : Nat) : List Char :=
  ((lines[index]?).map trimmed).getD []

theorem sourceLine_lines (text : String) (index : Nat) :
    Run.sourceLine (lines text) (index + 1) = String.ofList (lineAt (linesFrom [] text.toList) index) := by
  unfold Run.sourceLine lines lineAt trim
  rw [if_neg (by omega), Nat.add_sub_cancel, List.getElem?_map]
  cases (linesFrom [] text.toList)[index]? with
  | none => rfl
  | some line => simp

/-- A line end is a line feed, alone or behind a carriage return. -/
theorem hasPlainLines_cons {c : Char} {rest : List Char} (h : hasPlainLines (c :: rest))
    (hpair : ∀ after, c = '\r' → rest = '\n' :: after → False) :
    (isLineEnd c → c = '\n') ∧ hasPlainLines rest := by
  rw [hasPlainLines] at h
  · simp only [Bool.and_eq_true, Bool.or_eq_true, beq_iff_eq, Bool.not_eq_true'] at h
    refine ⟨fun hc => h.1.resolve_right ?_, h.2⟩
    simp [hc]
  · exact hpair

/-- The first line goes on to the next line feed. -/
theorem lineAt_zero (line text : List Char) (h : hasPlainLines text) :
    lineAt (linesFrom line text) 0 = trimmed (line.reverse ++ text.takeWhile (· != '\n')) := by
  fun_induction linesFrom line text with
  | case1 line hempty =>
    rw [List.isEmpty_iff.mp hempty]
    rfl
  | case2 line hne => simp [lineAt]
  | case3 line rest ih => exact (trimmed_concat (by decide) _).symm
  | case4 line c rest hpair hend ih =>
    obtain rfl := (hasPlainLines_cons h hpair).1 hend
    simp [lineAt]
  | case5 line c rest hpair hend ih =>
    have hc : c ≠ '\n' := by
      rintro rfl
      exact hend rfl
    rw [ih (hasPlainLines_cons h hpair).2]
    simp [hc]

theorem lineAround_newline (front before after : List Char) :
    lineAround (front ++ '\n' :: before) after = lineAround before after := by
  unfold lineAround
  rw [List.reverse_append, List.reverse_cons, List.append_assoc, List.singleton_append,
    Grammar.takeWhile_append_of_head (by decide) (Grammar.lineEnds_newline _)]

theorem lineAround_line {line : List Char} (h : '\n' ∉ line) (after : List Char) :
    lineAround line.reverse after = line.reverse ++ after.takeWhile (· != '\n') := by
  unfold lineAround
  rw [List.reverse_reverse, List.takeWhile_eq_self_iff.mpr]
  intro c hc
  rw [bne_iff_ne]
  rintro rfl
  exact h hc

/-- The line behind so many line feeds is the one around the place. -/
theorem lineAt_count (line before after : List Char) (hline : '\n' ∉ line)
    (h : hasPlainLines (before ++ after)) :
    lineAt (linesFrom line (before ++ after)) (before.count '\n') =
      trimmed (lineAround (line.reverse ++ before) after) := by
  generalize htext : before ++ after = text at h
  fun_induction linesFrom line text generalizing before with
  | case1 line hempty =>
    obtain ⟨rfl, rfl⟩ := List.append_eq_nil_iff.mp htext
    rw [List.isEmpty_iff.mp hempty]
    rfl
  | case2 line hne =>
    obtain ⟨rfl, rfl⟩ := List.append_eq_nil_iff.mp htext
    rw [List.append_nil, lineAround_line hline]
    simp [lineAt]
  | case3 line rest ih =>
    rcases before with _ | ⟨c, _ | ⟨d, before⟩⟩
    · cases htext
      rw [List.append_nil, lineAround_line hline]
      exact (trimmed_concat (by decide) _).symm
    · -- the place is between the two characters that end its line
      cases htext
      have hreturn : lineAround (line.reverse ++ ['\r']) ('\n' :: rest) = line.reverse ++ ['\r'] := by
        rw [← List.reverse_cons, lineAround_line (by simpa using hline)]
        simp
      rw [hreturn, trimmed_concat (by decide)]
      rfl
    · cases htext
      have hfeed : line.reverse ++ '\r' :: '\n' :: before = (line.reverse ++ ['\r']) ++ '\n' :: before := by
        simp
      rw [hfeed, lineAround_newline]
      simpa [lineAt] using ih before (by simp) rfl h
  | case4 line c rest hpair hend ih =>
    obtain ⟨hc, hrest⟩ := hasPlainLines_cons h hpair
    obtain rfl := hc hend
    rcases before with _ | ⟨c, before⟩
    · cases htext
      rw [List.append_nil, lineAround_line hline]
      simp [lineAt]
    · cases htext
      rw [lineAround_newline]
      simpa [lineAt] using ih before (by simp) rfl hrest
  | case5 line c rest hpair hend ih =>
    have hrest := (hasPlainLines_cons h hpair).2
    have hc : c ≠ '\n' := by
      rintro rfl
      exact hend rfl
    rcases before with _ | ⟨c, before⟩
    · subst htext
      rw [List.append_nil, lineAround_line hline]
      simpa [hc] using lineAt_zero (c :: line) rest hrest
    · cases htext
      simpa [hc] using ih before (by simp [hc.symm, hline]) rfl hrest

/-- The line that is shown for a place of a text with plain lines is the one around it. -/
theorem sourceLine_behind {text : String} {before after : List Char}
    (htext : text.toList = before ++ after) (h : hasPlainLines text.toList) :
    Run.sourceLine (lines text) (Pos.behind before).line =
      String.ofList (trimmed (lineAround before after)) := by
  rw [htext] at h
  change Run.sourceLine (lines text) (before.count '\n' + 1) = _
  rw [sourceLine_lines, htext, lineAt_count [] before after (by simp) h]
  rfl

/-! ### A line feed around a text -/

/-- A line feed behind a text adds at most an empty line. -/
theorem linesFrom_append_newline (line text : List Char) :
    ∃ blank ∈ [[], [[]]], linesFrom line (text ++ ['\n']) = linesFrom line text ++ blank := by
  fun_induction linesFrom line text with
  | case1 line hempty =>
    rw [List.isEmpty_iff.mp hempty]
    exact ⟨[[]], by simp, rfl⟩
  | case2 line hne => exact ⟨[], by simp, rfl⟩
  | case3 line rest ih =>
    obtain ⟨blank, hblank, hlines⟩ := ih
    exact ⟨blank, hblank, congrArg (line.reverse :: ·) hlines⟩
  | case4 line c rest hpair hend ih =>
    obtain ⟨blank, hblank, hlines⟩ := ih
    by_cases hreturn : c = '\r' ∧ rest = []
    · obtain ⟨rfl, rfl⟩ := hreturn
      exact ⟨[], by simp, rfl⟩
    · refine ⟨blank, hblank, ?_⟩
      rw [List.cons_append, linesFrom, if_pos hend, hlines, List.cons_append]
      intro after hc hrest
      cases rest with
      | nil => exact hreturn ⟨hc, rfl⟩
      | cons d rest =>
        cases hrest
        exact hpair _ hc rfl
  | case5 line c rest hpair hend ih =>
    obtain ⟨blank, hblank, hlines⟩ := ih
    refine ⟨blank, hblank, ?_⟩
    rw [List.cons_append, linesFrom, if_neg hend, hlines]
    rintro after rfl
    exact absurd rfl hend

theorem lineAt_append_blank (lines : List (List Char)) {blank : List (List Char)}
    (h : blank ∈ [[], [[]]]) (index : Nat) : lineAt (lines ++ blank) index = lineAt lines index := by
  simp only [List.mem_cons, List.not_mem_nil, or_false] at h
  rcases h with rfl | rfl
  · rw [List.append_nil]
  · unfold lineAt
    rcases Nat.lt_trichotomy index lines.length with hlt | rfl | hgt
    · rw [List.getElem?_append_left hlt]
    · simp [trimmed]
    · rw [List.getElem?_eq_none (by simpa using hgt), List.getElem?_eq_none hgt.le]

/-- A line feed behind a text changes no line that is shown. -/
theorem sourceLine_append_newline (text : String) (line : Nat) :
    Run.sourceLine (lines (text ++ "\n")) line = Run.sourceLine (lines text) line := by
  cases line with
  | zero => rfl
  | succ index =>
    obtain ⟨blank, hblank, hlines⟩ := linesFrom_append_newline [] text.toList
    have htext : (text ++ "\n").toList = text.toList ++ ['\n'] := by simp
    rw [sourceLine_lines, sourceLine_lines, htext, hlines, lineAt_append_blank _ hblank]

/-- A line feed before a text moves its lines down. -/
theorem sourceLine_newline_append (text : String) {line : Nat} (h : line ≠ 0) :
    Run.sourceLine (lines ("\n" ++ text)) (line + 1) = Run.sourceLine (lines text) line := by
  obtain ⟨index, rfl⟩ := Nat.exists_eq_succ_of_ne_zero h
  have htext : ("\n" ++ text).toList = '\n' :: text.toList := by simp
  rw [sourceLine_lines, Nat.succ_eq_add_one, sourceLine_lines, htext]
  rfl

end Text

end DecimalScript
