import DecimalScript.Proofs.Succession
import Mathlib

/-! Line feeds at the ends of a text. No statement takes them: a statement ends with a lexeme
that is no separator. So they add no statements and leave those of the text as they
are, and a text with line feeds at an end is a list of statements if it has any. -/

namespace DecimalScript.Grammar

variable {f g : Form} {text rest : List Char} {pos : Pos}

/-! ### How a statement ends -/

mutual

/-- What the form reads, if anything, ends with a lexeme that is no separator. -/
def Form.ends : Form → Bool
  | .lexeme _ kind => kind.isPlain && !kind.isSeparator
  | .rule r => r != .statements
  | .pair f g => Form.ends g && (!g.nullable || Form.ends f)
  | .either forms => Form.allEnd forms
  | .many f | .node _ f | .grouped _ f => Form.ends f

def Form.allEnd : List Form → Bool
  | [] => true
  | f :: rest => Form.ends f && Form.allEnd rest

end

theorem Form.ends_of_mem {forms : List Form} (h : Form.allEnd forms) (hf : f ∈ forms) : f.ends := by
  induction forms with
  | nil => cases hf
  | cons g rest ih =>
    rw [Form.allEnd, Bool.and_eq_true] at h
    rcases List.mem_cons.mp hf with rfl | hf
    · exact h.1
    · exact ih h.2 hf

theorem Rule.ends_form {r : Rule} (h : r ≠ .statements) : r.form.ends := by
  cases r with
  | statements => exact absurd rfl h
  | _ => decide

/-- The last lexeme on the way of such a form. -/
theorem Leads.ends (h : Leads Lexes f text rest) (hf : f.ends) :
    text = rest ∨ ∃ kind m, kind.isPlain ∧ kind.isSeparator = false ∧ m <:+ text ∧
      Lexes kind m rest := by
  induction h with
  | @lexeme terminal kind s t h =>
    rw [Form.ends, Bool.and_eq_true, Bool.not_eq_true'] at hf
    exact .inr ⟨kind, s, hf.1, hf.2, List.suffix_refl _, h⟩
  | @rule r s t _ ih => exact ih (Rule.ends_form (by simpa [Form.ends] using hf))
  | @pair f g s m t hfirst hsecond ihf ihg =>
    rw [Form.ends, Bool.and_eq_true] at hf
    rcases ihg hf.1 with rfl | ⟨kind, w, hplain, hkind, hw, hlexes⟩
    · have hnull : g.nullable := by
        by_contra hnull
        have hlt := hsecond.length_lt (by simpa using hnull)
        omega
      exact ihf (by simpa [hnull] using hf.2)
    · exact .inr ⟨kind, w, hplain, hkind, hw.trans hfirst.suffix, hlexes⟩
  | either hm _ ih => exact ih (Form.ends_of_mem hf hm)
  | stop => exact .inl rfl
  | again hfirst _ ihf ihr =>
    rcases ihr hf with rfl | ⟨kind, w, hplain, hkind, hw, hlexes⟩
    · exact ihf hf
    · exact .inr ⟨kind, w, hplain, hkind, hw.trans hfirst.suffix, hlexes⟩
  | node _ ih | grouped _ ih => exact ih hf

/-- At line feeds only a separator is read. -/
theorem not_lexes_newlines {kind : Kind} (hk : kind.isPlain) (hs : kind.isSeparator = false)
    (h : ∀ c ∈ text, c = '\n') : ¬Lexes kind text rest := by
  rintro ⟨n, hn, -⟩
  have hline : LineEnds text := fun c hc => h c (List.mem_of_mem_head? hc)
  have hgap : afterGap text = text := by
    cases text with
    | nil => rfl
    | cons c text =>
      obtain rfl := h c (List.mem_cons_self ..)
      rfl
  have hkind : kind ≠ .separator := by
    rintro rfl
    cases hs
  rw [hgap, Kind.lexeme_lineEnd hk hkind hline] at hn
  cases hn

/-- A statement ends before the line feeds at the end of a text. -/
theorem Leads.statement_before_newlines {u m : List Char} {n : Nat} (hl : u.getLast? ≠ some '\n')
    (h : Leads Lexes (.rule .statement) (u ++ '\n' :: List.replicate n '\n') m) :
    (List.replicate n '\n').length < m.length := by
  rcases h.ends rfl with heq | ⟨kind, w, hplain, hkind, hw, hlexes⟩
  · have hlt := h.length_lt rfl
    rw [heq] at hlt
    omega
  · by_contra hm
    by_cases hlength : (List.replicate n '\n').length < w.length
    · obtain ⟨x, rfl, hx⟩ := exists_append_of_suffix hw hlength
      obtain ⟨rfl, -⟩ := hlexes.crossing hplain (getLast?_suffix hl hx) (by omega)
      cases hkind
    · have hsuffix : w <:+ List.replicate n '\n' := by
        refine List.suffix_of_suffix_length_le hw ?_ (by omega)
        exact (List.suffix_cons ..).trans (List.suffix_append ..)
      refine not_lexes_newlines hplain hkind (fun c hc => ?_) hlexes
      exact List.eq_of_mem_replicate (hsuffix.subset hc)

theorem newlines_seam (n : Nat) : Seam (List.replicate n '\n') fun u => u.getLast? ≠ some '\n' where
  last h := h
  leads h _ hw := getLast?_suffix h hw.suffix
  stays hl h := h.statement_before_newlines hl

theorem settles_newlines (n : Nat) : Settles ('\n' :: List.replicate n '\n') [] := by
  obtain ⟨w, hw⟩ := exists_settles ('\n' :: List.replicate n '\n')
  have hrest := (hw.step (lexes_newline _)).leads.suffix
  obtain rfl : w = [] := by simpa [List.dropWhile_replicate] using hrest
  exact hw

/-- Line feeds behind a text do not matter. -/
theorem program_append_newlines {u : List Char} (hl : u.getLast? ≠ some '\n') (n : Nat) (pos : Pos) :
    program (u ++ List.replicate n '\n') pos = program u pos := by
  cases n with
  | zero => simp
  | succ n => exact program_append_separators (newlines_seam n) hl (settles_newlines n) rfl pos

theorem Ambiguous.append_newlines {u : List Char} (h : Ambiguous u) (hl : u.getLast? ≠ some '\n')
    (n : Nat) : Ambiguous (u ++ List.replicate n '\n') := by
  cases n with
  | zero => simpa using h
  | succ n =>
    obtain ⟨u', hs⟩ := exists_settles u
    rw [ambiguous_iff hs ⟨1, 1⟩] at h
    have hend : afterGap u' ≠ [] := by
      intro hend
      rw [starting_eq_none (.inr hend)] at h
      exact absurd h.1 (by simp)
    have hl' := getLast?_suffix hl hs.leads.suffix
    rw [List.replicate_succ, ambiguous_iff (hs.append hl (lineEnds_newline _) hend) ⟨1, 1⟩,
      starting_append_separators (newlines_seam n) hl' (settles_newlines n) rfl,
      starting_append_separators (newlines_seam n) hl' (settles_newlines n) rfl]
    exact h

/-- A text without the line feeds at its end. -/
theorem exists_newlines (text : List Char) :
    ∃ u n, text = u ++ List.replicate n '\n' ∧ u.getLast? ≠ some '\n' := by
  induction text using List.reverseRecOn with
  | nil => exact ⟨[], 0, rfl, by simp⟩
  | append_singleton text c ih =>
    by_cases hc : c = '\n'
    · obtain ⟨u, n, rfl, hu⟩ := ih
      refine ⟨u, n + 1, ?_, hu⟩
      rw [hc, List.append_assoc, List.replicate_succ']
    · exact ⟨text ++ [c], 0, by simp, by simpa using hc⟩

theorem program_append_newline (text : List Char) (pos : Pos) :
    program (text ++ ['\n']) pos = program text pos := by
  obtain ⟨u, n, rfl, hl⟩ := exists_newlines text
  rw [List.append_assoc, ← List.replicate_succ', program_append_newlines hl,
    program_append_newlines hl]

/-! ### A statement alone -/

/-- Whatever the form reads leaves a tree. -/
def Form.Leaves (f : Form) : Prop := ∀ text pos, ∀ x ∈ f.reads text pos, x.kids ≠ []

theorem separator_leaves : Form.separator.Leaves := by
  intro text pos x hx
  obtain ⟨n, -, rfl⟩ := Form.mem_reads_lexeme hx
  simp [leaves]

theorem Form.Leaves.pair (hf : f.Leaves) (g : Form) : (Form.pair f g).Leaves := by
  intro text pos x hx
  rw [Form.reads_pair] at hx
  obtain ⟨y, hy, hx⟩ := List.mem_flatMap.mp hx
  obtain ⟨z, -, rfl⟩ := List.mem_map.mp hx
  have hkids := hf text pos y hy
  simp [Reading.append, hkids]

theorem length_of_no_kids (hf : f.Leaves) (hnull : f.nullable = false) {x : Reading}
    (hx : x ∈ (Form.many f).reads text pos) (hkids : x.kids = []) : x.length = 0 := by
  rw [Form.reads_many hnull] at hx
  rcases List.mem_cons.mp (mem_distinct hx) with rfl | hx
  · rfl
  · exact absurd hkids (hf.pair _ text pos x hx)

/-- A reading of statements that leaves one statement alone is one of a statement. -/
theorem reads_alone {x : Reading} {tree : Tree} (hx : x ∈ (Form.either [Tail.more.list,
      Tail.alone.list, .many .separator]).reads text pos)
    (hkids : x.kids = [tree]) (hs : tree.isSeparator = false) :
    ∃ y ∈ (Form.rule .statement).reads text pos, y.length = x.length := by
  rw [Form.reads_either] at hx
  obtain ⟨f, hm, hx⟩ := List.mem_flatMap.mp (mem_distinct hx)
  simp only [List.mem_cons, List.not_mem_nil, or_false] at hm
  have hlengths := congrArg List.length hkids
  have hempty {y : Reading} (hy : y.kids.length = 0) : y.kids = [] := List.length_eq_zero_iff.mp hy
  rcases hm with rfl | rfl | rfl
  · change x ∈ (Form.pair _ (.pair _ Tail.more.form)).reads text pos at hx
    simp only [Form.reads_pair, List.mem_flatMap, List.mem_map] at hx
    obtain ⟨a, -, _, ⟨b, hb, c, hc, rfl⟩, rfl⟩ := hx
    obtain ⟨item, hitem, -⟩ := kids_statement hb
    have hfurther : Tail.more.form.Leaves := ((separator_leaves.pair _).pair _).pair _ |>.pair _
    have hmore := List.length_pos_iff.mpr (hfurther _ _ c hc)
    simp only [Reading.append, List.length_append, hitem, List.length_cons, List.length_nil] at hlengths
    omega
  · change x ∈ (Form.pair _ (.pair _ (.many .separator))).reads text pos at hx
    simp only [Form.reads_pair, List.mem_flatMap, List.mem_map] at hx
    obtain ⟨a, ha, _, ⟨b, hb, c, hc, rfl⟩, rfl⟩ := hx
    obtain ⟨item, hitem, -⟩ := kids_statement hb
    simp only [Reading.append, List.length_append, hitem, List.length_cons, List.length_nil] at hlengths
    have hbefore := length_of_no_kids separator_leaves rfl ha (hempty (by omega))
    have hbehind := length_of_no_kids separator_leaves rfl hc (hempty (by omega))
    rw [hbefore] at hb
    exact ⟨b, hb, by simp [Reading.append, hbefore, hbehind]⟩
  · have hcontent := content_separators hx
    simp [Reading.content, hkids, hs] at hcontent

/-- The tree of a text is a list of statements, or one statement is the whole text, or there is
none. -/
theorem parse_cases {text : String} {tree : Tree} (h : parse text = .ok tree) :
    (∃ pos kids, tree = .node .statementList pos kids) ∨ tree.isSeparator ∨
      ∃ y ∈ (Form.rule .statement).reads text.toList ⟨1, 1⟩,
        afterGap (text.toList.drop y.length) = [] := by
  obtain ⟨_, hfirst, hkids⟩ := parse_eq_ok_iff.mp h
  rw [first_statements] at hfirst
  obtain ⟨x, hx, rfl⟩ := Option.map_eq_some_iff.mp hfirst
  have hend : afterGap (text.toList.drop x.length) = [] := by simpa using List.find?_some hx
  have hmem := List.mem_of_find?_eq_some hx
  unfold Reading.gathered at hkids
  dsimp only at hkids
  split at hkids
  · rename_i kid hkid
    cases hkids
    cases hs : tree.isSeparator with
    | true => exact .inr (.inl rfl)
    | false =>
      obtain ⟨y, hy, hlength⟩ := reads_alone hmem hkid hs
      exact .inr (.inr ⟨y, hy, by rw [hlength, hend]⟩)
  · cases hkids
    exact .inl ⟨_, _, rfl⟩

theorem content_of_isSeparator {tree : Tree} (h : tree.isSeparator) : tree.content = [] := by
  obtain ⟨text, pos, rfl⟩ := Tree.eq_of_isSeparator h
  rfl

/-- A text with a line feed behind it is a list of statements if it has any. -/
theorem parse_append_newline {text : String} {p : Tree} (h : parse text = .ok p) :
    ∃ tree, parse (text ++ "\n") = .ok tree ∧ tree.content = p.content ∧
      (p.content ≠ [] → ∃ pos kids, tree = .node .statementList pos kids) := by
  have hprogram := program_append_newline text.toList ⟨1, 1⟩
  have htext : text.toList ++ ['\n'] = (text ++ "\n").toList := by simp
  rw [program_eq_some_iff.mpr ⟨p, h, rfl⟩, htext] at hprogram
  obtain ⟨tree, hparse, hcontent⟩ := program_eq_some_iff.mp hprogram
  refine ⟨tree, hparse, hcontent, fun hstatement => ?_⟩
  rcases parse_cases hparse with hlist | hs | ⟨y, hy, hend⟩
  · exact hlist
  · rw [← hcontent, content_of_isSeparator hs] at hstatement
    exact absurd rfl hstatement
  · exfalso
    obtain ⟨u, n, hu, hl⟩ := exists_newlines text.toList
    rw [← htext, hu, List.append_assoc, ← List.replicate_succ', List.replicate_succ] at hy hend
    obtain ⟨hleads, -⟩ := Form.reads_follows hy
    obtain ⟨w, hw, -⟩ := exists_append_of_suffix hleads.suffix (hleads.statement_before_newlines hl)
    rw [hw, afterGap_append (lineEnds_newline _)] at hend
    simp at hend

end DecimalScript.Grammar
