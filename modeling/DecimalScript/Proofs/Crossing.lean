import DecimalScript.Proofs.Locality
import Mathlib

/-! Where a statement can go on in the next line. A line feed is read as a separator only, so a
statement that takes one reads it in parentheses or behind `else`. Which parentheses are
open at the end of a line can be counted without reading it, and so a statement ends
in the line where all of them are closed, unless the line can be read with a
conditional at its end that lacks its last part. -/

namespace DecimalScript.Grammar

/-! ### Lexemes over the end of a line -/

section Lexemes
variable {kind : Kind} {u v m : List Char}

theorem lineEnds_newline (v : List Char) : LineEnds ('\n' :: v) := by
  intro c hc
  cases hc
  rfl

/-- A lexeme that goes on in the next line is a separator, and stands at the end of the line. -/
theorem Lexes.crossing (hk : kind.isPlain) (hl : u.getLast? ≠ some '\n')
    (h : Lexes kind (u ++ '\n' :: v) m) (hm : m.length ≤ v.length) :
    kind = .separator ∧ afterGap u = [] := by
  obtain ⟨n, hn, rfl⟩ := h
  rw [afterGap_append (lineEnds_newline v)] at hn hm
  by_cases ha : afterGap u = []
  · refine ⟨?_, ha⟩
    by_contra hs
    rw [ha, List.nil_append, Kind.lexeme_lineEnd hk hs (lineEnds_newline v)] at hn
    cases hn
  · rw [Kind.lexeme_append hk ha (getLast?_drop hl _) (lineEnds_newline v)] at hn
    have hle := Kind.lexeme_le hn
    rw [List.length_drop, List.length_append, List.length_cons] at hm
    omega

/-- A place before the next line is a place of the line. -/
theorem exists_append_of_suffix (h : m <:+ u ++ '\n' :: v) (hm : v.length < m.length) :
    ∃ w, m = w ++ '\n' :: v ∧ w <:+ u := by
  obtain ⟨w, rfl⟩ := List.suffix_of_suffix_length_le (List.suffix_append u ('\n' :: v)) h hm
  obtain ⟨front, hfront⟩ := h
  rw [← List.append_assoc] at hfront
  exact ⟨w, rfl, front, List.append_cancel_right hfront⟩

theorem getLast?_suffix {w : List Char} (hl : u.getLast? ≠ some '\n') (h : w <:+ u) :
    w.getLast? ≠ some '\n' := by
  rw [List.suffix_iff_eq_drop.mp h]
  exact getLast?_drop hl _

theorem Reaches.suffix {text rest : List Char} (h : Reaches text rest) : rest <:+ text := by
  induction h with
  | refl => exact List.suffix_refl _
  | tail _ hlast ih =>
    obtain ⟨kind, -, hlexes⟩ := hlast
    have hleads : Leads Lexes (.lexeme none kind) _ _ := .lexeme hlexes
    exact hleads.suffix.trans ih

/-- Lexemes of a line are lexemes of the line alone. -/
theorem Reaches.of_append {w : List Char} (hl : u.getLast? ≠ some '\n')
    (h : Reaches (u ++ '\n' :: v) (w ++ '\n' :: v)) : Reaches u w := by
  generalize htext : u ++ '\n' :: v = text at h
  induction h using Relation.ReflTransGen.head_induction_on generalizing u with
  | refl =>
    rw [List.append_cancel_right htext]
    exact .refl
  | @head s mid hfirst hrest ih =>
    subst htext
    obtain ⟨kind, hk, hlexes⟩ := hfirst
    have hlength : v.length < mid.length := by
      have hle := (Reaches.suffix hrest).length_le
      rw [List.length_append, List.length_cons] at hle
      omega
    have hleads : Leads Lexes (.lexeme none kind) (u ++ '\n' :: v) mid := .lexeme hlexes
    obtain ⟨u', rfl, hu'⟩ := exists_append_of_suffix hleads.suffix hlength
    exact .head ⟨kind, hk, (lexes_append_iff hk hl (lineEnds_newline v)).mp hlexes⟩
      (ih (getLast?_suffix hl hu') rfl)

/-- If separators go on in the next line, those of the line lead to its end. -/
theorem Leads.separators_crossing (hl : u.getLast? ≠ some '\n')
    (h : Leads Lexes (.many .separator) (u ++ '\n' :: v) m) (hm : m.length ≤ v.length) :
    ∃ rest, Leads Lexes (.many .separator) u rest ∧ afterGap rest = [] := by
  generalize htext : u ++ '\n' :: v = text at h
  generalize hform : Form.many .separator = form at h
  induction h generalizing u with
  | stop =>
    rw [← htext, List.length_append, List.length_cons] at hm
    omega
  | @again f s mid t hf hr ihf ihr =>
    cases hform
    subst htext
    have hfirst : Lexes .separator (u ++ '\n' :: v) mid := hf.reads
    by_cases hmid : mid.length ≤ v.length
    · exact ⟨u, .stop, (hfirst.crossing rfl hl hmid).2⟩
    · obtain ⟨w, rfl, hw⟩ := exists_append_of_suffix hf.suffix (by omega)
      obtain ⟨rest, hrest, hend⟩ := ihr (getLast?_suffix hl hw) hm rfl rfl
      have hfirst : Lexes .separator u w := (lexes_append_iff rfl hl (lineEnds_newline v)).mp hfirst
      exact ⟨rest, .again (.lexeme hfirst) hrest, hend⟩
  | _ => cases hform

end Lexemes

/-! ### Conditionals without their last part -/

def Form.halfway : Form :=
  .row (.rule .disjunction) [.word "if", .rule .disjunction, .word "else"]

/-- Lexemes of the text and a conditional without its last part lead to its end. -/
def EndsOpen (text : List Char) : Prop :=
  ∃ start rest, Reaches text start ∧ Leads Lexes (.pair .halfway (.many .separator)) start rest ∧
    afterGap rest = []

theorem EndsOpen.of_reaches {text rest : List Char} (h : EndsOpen rest) (hr : Reaches text rest) :
    EndsOpen text := by
  obtain ⟨start, last, hstart, hopen, hend⟩ := h
  exact ⟨start, last, Relation.ReflTransGen.trans hr hstart, hopen, hend⟩

/-! ### Forms over the end of a line -/

/-- How many more parentheses are closed than opened behind every separator of the rule, but for
those behind `else`. -/
def Rule.shelter : Rule → Int
  | .statements => 0
  | _ => 1

def Kind.isSeparator : Kind → Bool
  | .separator => true
  | _ => false

namespace Form

mutual

/-- Behind every separator in the form at least so many more parentheses are closed than opened. -/
def shelters : Form → Int → Bool
  | .lexeme _ kind, n => !kind.isSeparator || n ≤ 0
  | .rule r, n => n ≤ r.shelter
  | .pair f g, n => match g.depth with
    | some d => shelters f (n + d) && shelters g n
    | none => false
  | .either forms, n => allShelter forms n
  | .many f, n => shelters f n
  | .node _ f, n | .grouped _ f, n => shelters f n

def allShelter : List Form → Int → Bool
  | [], _ => true
  | f :: rest, n => shelters f n && allShelter rest n

end

theorem shelters_of_mem {f : Form} {forms : List Form} {n : Int} (h : allShelter forms n)
    (hf : f ∈ forms) : f.shelters n := by
  induction forms with
  | nil => cases hf
  | cons g rest ih =>
    rw [allShelter, Bool.and_eq_true] at h
    rcases List.mem_cons.mp hf with rfl | hf
    · exact h.1
    · exact ih h.2 hf

end Form

theorem Rule.shelters_form {r : Rule} (h : r ≠ .conditional) : r.form.shelters r.shelter := by
  cases r with
  | conditional => exact absurd rfl h
  | _ => decide

section Crossing
variable {v : List Char}

/-- If the way goes on in the next line, then at the place where it leads to so many parentheses
are open that were opened in the line, or the line ends in a conditional. -/
def Crosses (v : List Char) (n : Int) (text rest : List Char) : Prop :=
  ∀ u, text = u ++ '\n' :: v → u.getLast? ≠ some '\n' → rest.length ≤ v.length →
    n ≤ nesting rest ∨ EndsOpen u

variable {f g : Form} {m u : List Char} {n : Int}

/-- A way of two parts crosses in the first or starts the second in the line. -/
theorem Crosses.pair {text mid rest : List Char} {d : Int} (hf : Leads Lexes f text mid)
    (hg : Leads Lexes g mid rest) (hfd : f.depth.isSome) (hgd : g.depth = some d)
    (hcf : Crosses v (n + d) text mid) (hcg : Crosses v n mid rest) : Crosses v n text rest := by
  rintro u rfl hl hrest
  by_cases hmid : mid.length ≤ v.length
  · refine (hcf u rfl hl hmid).imp_left fun hn => ?_
    have := hg.nesting_eq hgd
    omega
  · obtain ⟨w, rfl, hw⟩ := exists_append_of_suffix hf.suffix (by omega)
    obtain ⟨e, hfd⟩ := Option.isSome_iff_exists.mp hfd
    exact (hcg w rfl (getLast?_suffix hl hw) hrest).imp_right fun he =>
      he.of_reaches ((hf.reaches hfd).of_append hl)

theorem Crosses.mono {text rest : List Char} {k : Int} (h : Crosses v n text rest) (hk : k ≤ n) :
    Crosses v k text rest :=
  fun u htext hl hrest => (h u htext hl hrest).imp_left hk.trans

theorem Lexes.crosses {kind : Kind} {text rest : List Char} (hv : nesting ('\n' :: v) = 0)
    (hk : kind.isPlain) (h : Lexes kind text rest) (hn : !kind.isSeparator || n ≤ 0) :
    Crosses v n text rest := by
  rintro u rfl hl hrest
  obtain ⟨rfl, ha⟩ := h.crossing hk hl hrest
  left
  have hline : nesting u = 0 := by
    rw [← nesting_gap, ha]
    rfl
  have hn : n ≤ 0 := by simpa [Kind.isSeparator] using hn
  have hnesting := h.nesting_eq hk
  rw [nesting_append_newline, hline, hv] at hnesting
  have : Kind.separator.depth = 0 := rfl
  omega

/-- What the rules in a form keep to, the form keeps to. -/
theorem Form.Reads.crosses (hv : nesting ('\n' :: v) = 0) {rules : Rule → List Char → List Char → Prop}
    (hrules : ∀ {r s t}, rules r s t → Leads Lexes (.rule r) s t ∧ Crosses v r.shelter s t)
    {text rest : List Char} {d : Int} (hf : f.Reads Lexes rules text rest) (hd : f.depth = some d)
    (hs : f.shelters n) : Crosses v n text rest := by
  have leads {f : Form} {s t : List Char} (h : f.Reads Lexes rules s t) : Leads Lexes f s t :=
    h.leads fun hr => (hrules hr).1
  induction f using Form.parts_induction generalizing text rest n d with
  | lexeme terminal kind =>
    unfold Form.depth at hd
    split_ifs at hd with hk
    exact Lexes.crosses hv hk hf hs
  | rule r => exact (hrules hf).2.mono (of_decide_eq_true hs)
  | pair f g ihf ihg =>
    obtain ⟨mid, hf, hg⟩ := hf
    obtain ⟨a, b, hfd, hgd, -⟩ := Form.depth_pair hd
    rw [Form.shelters, hgd, Bool.and_eq_true] at hs
    exact Crosses.pair (leads hf) (leads hg) (by rw [hfd]; rfl) hgd (ihf hf hfd hs.1)
      (ihg hg hgd hs.2)
  | either forms ih =>
    obtain ⟨f, hm, hf⟩ := Form.readsOne_iff.mp hf
    exact ih f hm hf (Form.depth_of_mem hd hm) (Form.shelters_of_mem hs hm)
  | many f ih =>
    obtain ⟨hzero, rfl⟩ := Form.depth_many hd
    change Relation.ReflTransGen (f.Reads Lexes rules) text rest at hf
    induction hf using Relation.ReflTransGen.head_induction_on with
    | refl =>
      rintro u rfl - hrest
      rw [List.length_append, List.length_cons] at hrest
      omega
    | @head s mid hfirst hrest ihr =>
      refine Crosses.pair (f := f) (g := .many f) (leads hfirst) (leads (f := .many f) hrest)
        (by rw [hzero]; rfl) hd ?_ ihr
      rw [add_zero]
      exact ih hfirst hzero hs
  | node label f ih => exact ih hf hd hs
  | grouped label f ih => exact ih hf hd hs

/-- Separators behind `else` may go on in the next line. -/
theorem crosses_halfway {text mid rest : List Char} (hopen : Leads Lexes .halfway text mid)
    (hs : Leads Lexes (.several .separator) mid rest) (hc : Crosses v n text mid) :
    Crosses v n text rest := by
  rintro u rfl hl hrest
  by_cases hmid : mid.length ≤ v.length
  · refine (hc u rfl hl hmid).imp_left fun hn => ?_
    have := hs.nesting_eq (d := 0) rfl
    omega
  · obtain ⟨w, rfl, hw⟩ := exists_append_of_suffix hopen.suffix (by omega)
    have hseparators : Leads Lexes (.many .separator) (w ++ '\n' :: v) rest := by
      cases hs with
      | pair hfirst hmore => exact .again hfirst hmore
    obtain ⟨last, hlast, hend⟩ := hseparators.separators_crossing (getLast?_suffix hl hw) hrest
    have hopen := (leads_append_iff (d := 0) (by decide) (by decide) hl (lineEnds_newline v)).mp hopen
    exact .inr ⟨u, last, .refl, .pair hopen hlast, hend⟩

theorem crosses_conditional (hv : nesting ('\n' :: v) = 0) {text rest : List Char}
    (h : Rule.conditional.form.Reads Lexes (fun r s t => Leads Lexes (.rule r) s t ∧
      Crosses v r.shelter s t) text rest) : Crosses v 1 text rest := by
  obtain ⟨f, hm, hf⟩ := Form.readsOne_iff.mp h
  simp only [List.mem_cons, List.not_mem_nil, or_false] at hm
  rcases hm with rfl | rfl | rfl
  · exact hf.crosses hv (fun h => h) (d := 0) (by decide) (by decide)
  · -- the separators behind `else` are apart, the rest is as in the other alternatives
    obtain ⟨m₁, hholds, m₂, hif, m₃, hcondition, m₄, helse, m₅, hs, hotherwise, hcotherwise⟩ := hf
    have hopen : Form.halfway.Reads Lexes (fun r s t => Leads Lexes (.rule r) s t ∧
        Crosses v r.shelter s t) text m₄ := ⟨m₁, hholds, m₂, hif, m₃, hcondition, helse⟩
    have hleads : Leads Lexes .halfway text m₄ := hopen.leads And.left
    have hseveral : Leads Lexes (.several .separator) m₄ m₅ := hs.leads And.left
    have hcrosses := hopen.crosses hv (n := 1) (fun h => h) (d := 0) (by decide) (by decide)
    exact Crosses.pair (d := 0) (.pair hleads hseveral) hotherwise (by decide) rfl
      (crosses_halfway hleads hseveral hcrosses) hcotherwise
  · exact hf.crosses hv (fun h => h) (d := 0) (by decide) (by decide)

/-- Where a rule can go on in the next line. -/
theorem Leads.crosses (hv : nesting ('\n' :: v) = 0) {r : Rule} {text rest : List Char}
    (h : Leads Lexes (.rule r) text rest) : Crosses v r.shelter text rest := by
  refine Leads.rule_induction (B := fun r text rest => Crosses v r.shelter text rest) ?_ h
  clear h
  intro r text rest h
  by_cases hr : r = .conditional
  · subst hr
    exact crosses_conditional hv h
  · exact h.crosses hv (fun h => h) r.depth_form (Rule.shelters_form hr)

/-- A statement ends in the line where no parenthesis is open. -/
theorem Leads.statement_in_line (hl : u.getLast? ≠ some '\n') (hu : nesting u = 0)
    (hv : nesting ('\n' :: v) = 0) (he : ¬EndsOpen u)
    (h : Leads Lexes (.rule .statement) (u ++ '\n' :: v) m) : v.length < m.length := by
  by_contra hm
  rcases h.crosses hv u rfl hl (by omega) with hn | hopen
  · have hnesting := h.nesting_eq rfl
    rw [nesting_append_newline, hu, hv] at hnesting
    have : Rule.statement.shelter = 1 := rfl
    omega
  · exact he hopen

/-- The statements that start in a line are those of the line alone if none goes on behind it. -/
theorem reads_statement_append (hl : u.getLast? ≠ some '\n')
    (hstays : ∀ {m}, Leads Lexes (.rule .statement) (u ++ '\n' :: v) m → v.length < m.length)
    (pos : Pos) :
    (Form.rule .statement).reads (u ++ '\n' :: v) pos = (Form.rule .statement).reads u pos := by
  rw [← Form.reads_append (.rule .statement) rfl rfl hl (lineEnds_newline v) pos]
  symm
  refine List.filter_eq_self.mpr fun x hx => ?_
  obtain ⟨hleads, hle⟩ := Form.reads_follows hx
  have hlength := hstays hleads
  rw [List.length_drop, List.length_append, List.length_cons] at hlength
  simp only [decide_eq_true_eq]
  omega

end Crossing

/-! ### Texts that do not end in `else` -/

def isFiller (c : Char) : Bool := isGap c || c == ';' || c == '\n'

/-- The last letters outside comments and strings, separators aside, are `else`. -/
def endsInElse (text : List Char) : Bool :=
  "esle".toList.isPrefixOf ((plain text).reverse.dropWhile isFiller)

section Ends
variable {text rest : List Char}

theorem endsInElse_of_plain {a b : List Char} (h : plain text = a ++ ("else".toList ++ b))
    (hb : ∀ c ∈ b, isFiller c) : endsInElse text := by
  unfold endsInElse
  rw [h, List.reverse_append, List.reverse_append, List.append_assoc,
    List.dropWhile_append_of_pos fun c hc => hb c (List.mem_reverse.mp hc)]
  rfl

theorem isFiller_of_isGap {c : Char} (h : isGap c) : isFiller c := by
  simp [isFiller, h]

/-- Only blanks and separators stand before the end of a text to which separators lead. -/
theorem Leads.forall_isFiller (h : Leads Lexes (.many .separator) text rest)
    (hend : afterGap rest = []) : ∀ c ∈ plain text, isFiller c := by
  generalize hform : Form.many .separator = form at h
  induction h with
  | @stop _ s =>
    obtain ⟨blanks, hplain, hblanks⟩ := plain_gap s
    rw [hend] at hplain
    intro c hc
    rw [hplain] at hc
    exact isFiller_of_isGap (hblanks c (by simpa [plain] using hc))
  | again hfirst _ _ ih =>
    cases hform
    have hlexes : Lexes .separator _ _ := hfirst.reads
    obtain ⟨blanks, piece, hplain, hblanks, hpiece⟩ := hlexes.adds rfl
    intro c hc
    rw [hplain, List.mem_append, List.mem_append] at hc
    rcases hc with hc | hc | hc
    · exact isFiller_of_isGap (hblanks c hc)
    · rcases hpiece c hc with rfl | rfl <;> rfl
    · exact ih hend rfl c hc
  | _ => cases hform

theorem EndsOpen.endsInElse (h : EndsOpen text) : endsInElse text := by
  obtain ⟨start, rest, hstart, hopen, hend⟩ := h
  cases hopen with
  | pair hhalfway hs =>
    obtain ⟨m₁, hholds, m₂, hif, m₃, hcondition, helse⟩ := hhalfway.reads
    have hfront : Leads Lexes (.row (.rule .disjunction) [.word "if", .rule .disjunction]) start m₃ :=
      .pair hholds (.pair (.lexeme hif) hcondition)
    have hreaches : Reaches text m₃ := hstart.trans (hfront.reaches (d := 0) (by decide))
    obtain ⟨front, hfront⟩ := hreaches.plain_suffix
    have helse : Lexes (.spelled "else") m₃ _ := helse
    obtain ⟨blanks, piece, hplain, -, rfl⟩ := helse.adds rfl
    refine endsInElse_of_plain (a := front ++ blanks) ?_ (hs.forall_isFiller hend)
    rw [← hfront, hplain, List.append_assoc]

end Ends

end DecimalScript.Grammar
