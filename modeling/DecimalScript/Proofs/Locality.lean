import DecimalScript.Proofs.Nesting
import DecimalScript.Proofs.Relocation
import Mathlib

/-! What a form reads depends on what it takes only: a reading that ends within a line does not
see the next one, and the place where a text starts shows in the places of its trees
and nowhere else. -/

namespace DecimalScript.Grammar

open Grammar.Parser

variable {f g : Form} {text : List Char} {pos : Pos}

/-- What holds of the lexemes, and of a form at a place whenever it holds of its parts where they
are read, holds of all forms at all places. -/
theorem Form.places_induction {C : Form → List Char → Prop}
    (lexeme : ∀ terminal kind text, C (.lexeme terminal kind) text)
    (rule : ∀ r text, C r.form text → C (.rule r) text)
    (pair : ∀ f g text, C f text →
      (∀ n ≤ text.length, (n = 0 → f.nullable) → C g (text.drop n)) → C (.pair f g) text)
    (either : ∀ forms text, (∀ f ∈ forms, C f text) → C (.either forms) text)
    (many : ∀ f text, f.nullable = false → C (.pair f (.many f)) text → C (.many f) text)
    (node : ∀ label f text, C f text → C (.node label f) text)
    (grouped : ∀ label f text, C f text → C (.grouped label f) text)
    (f : Form) (hf : f.isProper) (text : List Char) : C f text := by
  induction hlength : text.length using Nat.strong_induction_on generalizing f text with
  | _ length ihlength =>
    subst hlength
    have later {f : Form} (hf : f.isProper) {n : Nat} (hn : n ≤ text.length) (hpos : 0 < n) :
        C f (text.drop n) := by
      refine ihlength _ ?_ f hf (text.drop n) rfl
      rw [List.length_drop]
      omega
    -- at the place itself the rules come first that the form asks for
    have here (f : Form) (hf : f.isProper) (hrules : ∀ r ∈ f.leading, C (.rule r) text) :
        C f text := by
      induction f using Form.parts_induction with
      | lexeme terminal kind => exact lexeme terminal kind text
      | rule r => exact hrules r (by simp [Form.leading])
      | pair f g ihf ihg =>
        rw [Form.isProper, Bool.and_eq_true] at hf
        refine pair f g text (ihf hf.1 fun r hr => hrules r (by simp [Form.leading, hr]))
          fun n hn hnull => ?_
        rcases Nat.eq_zero_or_pos n with rfl | hpos
        · refine ihg hf.2 fun r hr => hrules r ?_
          simp [Form.leading, hnull rfl, hr]
        · exact later hf.2 hn hpos
      | either forms ih =>
        refine either forms text fun f hm => ih f hm (Form.isProper_of_mem hf hm) fun r hr => ?_
        refine hrules r ?_
        rw [Form.leading]
        exact Form.mem_allLeading hm hr
      | many f ih =>
        have hmany := hf
        rw [Form.isProper, Bool.and_eq_true, Bool.not_eq_true'] at hf
        refine many f text hf.1 (pair f (.many f) text (ih hf.2 hrules) fun n hn hnull => ?_)
        refine later hmany hn (Nat.pos_of_ne_zero fun hzero => ?_)
        rw [hnull hzero] at hf
        cases hf.1
      | node label f ih => exact node label f text (ih hf hrules)
      | grouped label f ih => exact grouped label f text (ih hf hrules)
    have rules (n : Nat) (r : Rule) (hr : r.rank < n) : C (.rule r) text := by
      induction n generalizing r with
      | zero => exact absurd hr (Nat.not_lt_zero _)
      | succ n ih =>
        refine rule r text (here r.form r.isProper_form fun l hl => ih l ?_)
        have := r.leading_rank l hl
        omega
    exact here f hf fun r _ => rules _ r (Nat.lt_succ_self _)

/-- Only what may read nothing has a reading without characters. -/
theorem Form.nullable_of_reads {x : Reading} (hx : x ∈ f.reads text pos) (hzero : x.length = 0) :
    f.nullable := by
  by_contra hn
  have := (Form.reads_follows hx).pos (by simpa using hn)
  omega

@[simp] theorem Reading.length_append (x y : Reading) :
    (x.append y).length = x.length + y.length := rfl

theorem Form.reads_lexeme (terminal : Option Terminal) (kind : Kind) (text : List Char) (pos : Pos) :
    (Form.lexeme terminal kind).reads text pos = ((kind.lexeme (afterGap text)).map fun length =>
      ⟨leaves terminal (String.ofList ((afterGap text).take length))
          (advance pos (text.take (gapLength false text))),
        some (advance pos (text.take (gapLength false text))),
        gapLength false text + length⟩).toList :=
  (stands_rows text pos).lexed_eq _ _

/-! ### The start of a text -/

section Relocate
variable {σ : Pos → Pos}

def Reading.relocate (σ : Pos → Pos) (x : Reading) : Reading :=
  { x with kids := x.kids.map (Tree.relocate σ), start := x.start.map σ }

theorem Reading.relocate_append (x y : Reading) :
    (x.append y).relocate σ = (x.relocate σ).append (y.relocate σ) := by
  unfold Reading.relocate Reading.append
  dsimp only
  rw [List.map_append]
  cases x.start <;> rfl

theorem distinct_map {φ : Reading → Reading} (h : ∀ x, (φ x).length = x.length) (l : List Reading) :
    distinct (l.map φ) = (distinct l).map φ := by
  induction l with
  | nil => rfl
  | cons x rest ih =>
    rw [List.map_cons, distinct, distinct, List.map_cons, ih, List.filter_map]
    congr 2
    refine List.filter_congr fun y _ => ?_
    rw [Function.comp_apply, h, h]

/-- Places that move with the characters. -/
def Moves (σ : Pos → Pos) : Prop := ∀ p c, (σ p).after c = σ (p.after c)

theorem Moves.advance (h : Moves σ) (pos : Pos) (text : List Char) :
    advance (σ pos) text = σ (advance pos text) := by
  unfold Grammar.advance
  induction text generalizing pos with
  | nil => rfl
  | cons c rest ih => rw [List.foldl_cons, List.foldl_cons, h, ih]

/-- Where a text starts shows in the places alone. -/
theorem Form.reads_relocate (hσ : Moves σ) (f : Form) (hf : f.isProper) (text : List Char) (pos : Pos) :
    f.reads text (σ pos) = (f.reads text pos).map (Reading.relocate σ) := by
  refine Form.places_induction (C := fun f text => ∀ pos, f.reads text (σ pos) =
    (f.reads text pos).map (Reading.relocate σ)) ?lexeme ?rule ?pair ?either ?many ?node ?grouped
    f hf text pos
  case lexeme =>
    intro terminal kind text pos
    rw [Form.reads_lexeme, Form.reads_lexeme, hσ.advance]
    cases kind.lexeme (afterGap text) with
    | none => rfl
    | some n => cases terminal <;> rfl
  case rule =>
    intro r text ih pos
    rw [Form.reads_rule, Form.reads_rule, ih]
  case pair =>
    intro f g text ihf ihg pos
    rw [Form.reads_pair, Form.reads_pair, ihf, List.flatMap_map, List.map_flatMap]
    refine List.flatMap_congr fun x hx => ?_
    have hg := ihg x.length (Form.reads_le hx) (Form.nullable_of_reads hx)
      (advance pos (text.take x.length))
    change (g.reads (text.drop x.length) (advance (σ pos) (text.take x.length))).map _ = _
    rw [hσ.advance, hg, List.map_map, List.map_map]
    exact List.map_congr_left fun y _ => (Reading.relocate_append x y).symm
  case either =>
    intro forms text ih pos
    rw [Form.reads_either, Form.reads_either, ← distinct_map (φ := Reading.relocate σ) fun _ => rfl,
      List.map_flatMap]
    congr 1
    exact List.flatMap_congr fun f hf => ih f hf pos
  case many =>
    intro f text hf ih pos
    rw [Form.reads_many hf, Form.reads_many hf, ih,
      ← distinct_map (φ := Reading.relocate σ) fun _ => rfl]
    rfl
  case node =>
    intro label f text ih pos
    rw [Form.reads_node, Form.reads_node, ih, List.map_map, List.map_map]
    exact List.map_congr_left fun x _ => by simp [Reading.enclosed, Reading.relocate]
  case grouped =>
    intro label f text ih pos
    rw [Form.reads_grouped, Form.reads_grouped, ih, List.map_map, List.map_map]
    refine List.map_congr_left fun x _ => ?_
    obtain ⟨kids, start, length⟩ := x
    rcases kids with _ | ⟨kid, _ | ⟨next, kids⟩⟩ <;> simp [Reading.gathered, Reading.relocate]

end Relocate

/-! ### What follows a line -/

def LineEnds (rest : List Char) : Prop := ∀ c ∈ rest.head?, c = '\n'

section Append
variable {u v : List Char}

theorem gapLength_append (hv : LineEnds v) (comment : Bool) (u : List Char) :
    gapLength comment (u ++ v) = gapLength comment u := by
  induction u generalizing comment with
  | nil =>
    cases v with
    | nil => rfl
    | cons c v =>
      obtain rfl := hv c rfl
      cases comment <;> rfl
  | cons c u ih =>
    rw [List.cons_append]
    unfold gapLength
    rw [ih, ih]

theorem afterGap_append (hv : LineEnds v) (u : List Char) : afterGap (u ++ v) = afterGap u ++ v := by
  unfold afterGap
  rw [gapLength_append hv, List.drop_append_of_le_length (gapLength_le _ _)]

theorem takeWhile_append_of_head {p : Char → Bool} (hp : p '\n' = false) (hv : LineEnds v)
    (u : List Char) : (u ++ v).takeWhile p = u.takeWhile p := by
  induction u with
  | nil =>
    cases v with
    | nil => rfl
    | cons c v =>
      obtain rfl := hv c rfl
      rw [List.nil_append, List.takeWhile_cons, hp]
      rfl
  | cons c u ih => rw [List.cons_append, List.takeWhile_cons, List.takeWhile_cons, ih]

theorem stringTail_append (hv : LineEnds v) (escaped : Bool) (u : List Char) :
    stringTail escaped (u ++ v) = stringTail escaped u := by
  induction u generalizing escaped with
  | nil =>
    cases v with
    | nil => rfl
    | cons c v =>
      obtain rfl := hv c rfl
      rfl
  | cons c u ih =>
    rw [List.cons_append]
    unfold stringTail
    rw [ih]

theorem isPrefixOf_append {word : List Char} (hw : ∀ c ∈ word, c ≠ '\n') (hv : LineEnds v)
    (u : List Char) : word.isPrefixOf (u ++ v) = word.isPrefixOf u := by
  induction u generalizing word with
  | nil =>
    cases word with
    | nil => rfl
    | cons d word =>
      cases v with
      | nil => rfl
      | cons c v =>
        obtain rfl := hv c rfl
        have hd : (d == '\n') = false := by simpa using hw d (List.mem_cons_self ..)
        simp [List.isPrefixOf, hd]
  | cons c u ih =>
    cases word with
    | nil => rfl
    | cons d word =>
      rw [List.cons_append, List.isPrefixOf, List.isPrefixOf,
        ih fun c hc => hw c (List.mem_cons_of_mem _ hc)]

theorem spelled_append {word : String} (hw : ∀ c ∈ word.toList, c ≠ '\n') (hv : LineEnds v)
    (u : List Char) : spelled word (u ++ v) = spelled word u := by
  unfold spelled
  rw [isPrefixOf_append hw hv]

theorem numberLexeme_append (hv : LineEnds v) (u : List Char) :
    numberLexeme (u ++ v) = numberLexeme u := by
  have hdigit : Text.isDigit '\n' = false := by decide
  have hfraction (u : List Char) : fractionLength (u ++ v) = fractionLength u := by
    unfold fractionLength
    cases u with
    | nil =>
      cases v with
      | nil => rfl
      | cons c v =>
        obtain rfl := hv c rfl
        rfl
    | cons c u =>
      rw [List.cons_append]
      split
      · rename_i rest heq
        cases heq
        dsimp only
        rw [takeWhile_append_of_head hdigit hv]
        rfl
      · rename_i hne
        split
        · rename_i rest heq
          cases heq
          exact absurd rfl (hne _)
        · rfl
  unfold numberLexeme
  dsimp only
  rw [takeWhile_append_of_head hdigit hv, List.drop_append_of_le_length
    (List.takeWhile_prefix _).length_le, hfraction]

theorem separatorLexeme_of_ne {c : Char} {rest : List Char} (hc : c ≠ ';') :
    separatorLexeme (c :: rest) = if ((c :: rest).takeWhile (· == '\n')).length = 0 then none
      else some ((c :: rest).takeWhile (· == '\n')).length := by
  unfold separatorLexeme
  split
  · rename_i heq
    cases heq
    exact absurd rfl hc
  · rfl

/-- Line feeds that end before other characters are not more of them with what follows. -/
theorem separatorLexeme_append (hu : u ≠ []) (hl : u.getLast? ≠ some '\n') (v : List Char) :
    separatorLexeme (u ++ v) = separatorLexeme u := by
  have htake : (u ++ v).takeWhile (· == '\n') = u.takeWhile (· == '\n') := by
    rw [List.takeWhile_append, if_neg]
    intro hlength
    have hall : u.takeWhile (· == '\n') = u := (List.takeWhile_prefix _).eq_of_length hlength
    have hlast : u.getLast hu == '\n' := List.takeWhile_eq_self_iff.mp hall _ (List.getLast_mem hu)
    rw [List.getLast?_eq_some_getLast hu, beq_iff_eq.mp hlast] at hl
    exact hl rfl
  cases u with
  | nil => exact absurd rfl hu
  | cons c u =>
    by_cases hc : c = ';'
    · subst hc
      rfl
    · rw [List.cons_append] at htake ⊢
      rw [separatorLexeme_of_ne hc, separatorLexeme_of_ne hc, htake]

/-- A lexeme does not depend on the lines behind its own. -/
theorem Kind.lexeme_append {kind : Kind} (hk : kind.isPlain) (hu : u ≠ [])
    (hl : u.getLast? ≠ some '\n') (hv : LineEnds v) : kind.lexeme (u ++ v) = kind.lexeme u := by
  cases kind with
  | name =>
    obtain ⟨c, u, rfl⟩ := List.exists_cons_of_ne_nil hu
    have htake := takeWhile_append_of_head (p := isNamePart) (by decide) hv u
    change (if isNameStart c then some (((u ++ v).takeWhile isNamePart).length + 1) else none) = _
    rw [htake]
    rfl
  | number => exact numberLexeme_append hv u
  | string =>
    obtain ⟨c, u, rfl⟩ := List.exists_cons_of_ne_nil hu
    unfold Kind.lexeme stringLexeme
    dsimp only
    rw [List.cons_append]
    split
    · rename_i rest heq
      cases heq
      rw [stringTail_append hv]
      rfl
    · rename_i hne
      split
      · rename_i rest heq
        cases heq
        exact absurd rfl (hne _)
      · rfl
  | separator => exact separatorLexeme_append hu hl v
  | comparison =>
    unfold Kind.lexeme comparisonLexeme oneOf
    dsimp only
    have hwords : ∀ word ∈ ["==", "!=", "<=", "<", ">=", ">"], ∀ c ∈ word.toList, c ≠ '\n' := by
      simp
    have hspelled := fun word hm => spelled_append (hwords word hm) hv u
    simp only [List.forall_mem_cons] at hspelled
    simp only [List.findSome?_cons, hspelled, List.findSome?_nil]
  | spelled word => exact spelled_append (fun c hc => (mem_word hk hc).1) hv u

theorem Kind.lexeme_nil {kind : Kind} (hk : kind.isPlain) : kind.lexeme [] = none := by
  cases h : kind.lexeme [] with
  | none => rfl
  | some n =>
    have hpos := Kind.lexeme_pos (isProper_of_isPlain hk) h
    have hle : n ≤ 0 := Kind.lexeme_le h
    omega

/-- At the end of a line only separators are read. -/
theorem Kind.lexeme_lineEnd {kind : Kind} (hk : kind.isPlain) (hs : kind ≠ .separator)
    (hv : LineEnds v) : kind.lexeme v = none := by
  cases kind with
  | separator => exact absurd rfl hs
  | number => exact (numberLexeme_append hv []).trans (lexeme_nil hk)
  | spelled word =>
    exact (spelled_append (fun c hc => (mem_word hk hc).1) hv []).trans (lexeme_nil hk)
  | name | string | comparison =>
    cases v with
    | nil => rfl
    | cons c v =>
      obtain rfl := hv c rfl
      rfl

/-! ### Readings that end in their line -/

theorem distinct_filter (n : Nat) (l : List Reading) :
    (distinct l).filter (·.length ≤ n) = distinct (l.filter (·.length ≤ n)) := by
  induction l with
  | nil => rfl
  | cons x rest ih =>
    rw [distinct]
    by_cases hx : x.length ≤ n
    · rw [List.filter_cons_of_pos (by simpa using hx), List.filter_cons_of_pos (by simpa using hx),
        distinct, ← ih, List.filter_comm]
    · rw [List.filter_cons_of_neg (by simpa using hx), List.filter_cons_of_neg (by simpa using hx),
        ← ih, List.filter_filter]
      refine List.filter_congr fun y _ => ?_
      -- a reading that is kept is shorter than the one that is dropped
      rw [Bool.eq_iff_iff]
      simp only [Bool.and_eq_true, decide_eq_true_eq, bne_iff_ne]
      omega

theorem getLast?_drop (hl : u.getLast? ≠ some '\n') (n : Nat) : (u.drop n).getLast? ≠ some '\n' := by
  rw [List.getLast?_drop]
  split_ifs
  · simp
  · exact hl

theorem flatMap_filter {α β : Type} {p : α → Bool} {φ ψ : α → List β} {l : List α}
    (hkept : ∀ x ∈ l, p x → φ x = ψ x) (hdropped : ∀ x ∈ l, p x = false → φ x = []) :
    l.flatMap φ = (l.filter p).flatMap ψ := by
  induction l with
  | nil => rfl
  | cons x rest ih =>
    obtain ⟨hx, hrest⟩ := List.forall_mem_cons.mp hkept
    obtain ⟨hx', hrest'⟩ := List.forall_mem_cons.mp hdropped
    rw [List.flatMap_cons, ih hrest hrest']
    cases hp : p x with
    | true => rw [hx hp, List.filter_cons_of_pos hp, List.flatMap_cons]
    | false => rw [hx' hp, List.filter_cons_of_neg (by simp [hp]), List.nil_append]

theorem Form.reads_lexeme_append {kind : Kind} (hk : kind.isPlain) (hl : u.getLast? ≠ some '\n')
    (hv : LineEnds v) (terminal : Option Terminal) (pos : Pos) :
    ((Form.lexeme terminal kind).reads (u ++ v) pos).filter (·.length ≤ u.length) =
      (Form.lexeme terminal kind).reads u pos := by
  have hgap := gapLength_le false u
  have hlength := afterGap_length u
  rw [Form.reads_lexeme, Form.reads_lexeme, afterGap_append hv, gapLength_append hv,
    List.take_append_of_le_length hgap]
  by_cases ha : afterGap u = []
  · -- what is read here lies behind the line
    rw [ha, List.nil_append, Kind.lexeme_nil hk]
    rw [ha, List.length_nil] at hlength
    cases hn : kind.lexeme v with
    | none => rfl
    | some n =>
      have hpos := Kind.lexeme_pos (Kind.isProper_of_isPlain hk) hn
      refine List.filter_cons_of_neg ?_
      simp only [decide_eq_true_eq]
      omega
  · rw [Kind.lexeme_append hk ha (getLast?_drop hl _) hv]
    cases hn : kind.lexeme (afterGap u) with
    | none => rfl
    | some n =>
      have hle := Kind.lexeme_le hn
      rw [Option.map_some, Option.map_some, List.take_append_of_le_length hle]
      refine List.filter_cons_of_pos ?_
      simp only [decide_eq_true_eq]
      omega

theorem Form.reads_pair_append
    (hf : (f.reads (u ++ v) pos).filter (·.length ≤ u.length) = f.reads u pos)
    (hg : ∀ n ≤ u.length, (n = 0 → f.nullable) → ∀ pos,
      (g.reads (u.drop n ++ v) pos).filter (·.length ≤ (u.drop n).length) = g.reads (u.drop n) pos) :
    ((Form.pair f g).reads (u ++ v) pos).filter (·.length ≤ u.length) =
      (Form.pair f g).reads u pos := by
  rw [Form.reads_pair, Form.reads_pair, List.filter_flatMap, ← hf]
  refine flatMap_filter (fun x hx hle => ?_) fun x hx hle => ?_
  · have hle : x.length ≤ u.length := of_decide_eq_true hle
    rw [List.drop_append_of_le_length hle, List.take_append_of_le_length hle,
      ← hg x.length hle (Form.nullable_of_reads hx), List.filter_map]
    congr 1
    refine List.filter_congr fun y _ => ?_
    have hlength : (u.drop x.length).length = u.length - x.length := List.length_drop
    rw [Function.comp_apply, Reading.length_append, Bool.eq_iff_iff, decide_eq_true_eq,
      decide_eq_true_eq]
    omega
  · have hlt : u.length < x.length := by simpa using hle
    refine List.filter_eq_nil_iff.mpr fun z hz => ?_
    obtain ⟨y, -, rfl⟩ := List.mem_map.mp hz
    rw [Reading.length_append, decide_eq_true_eq]
    omega

/-- The readings that end within a line are those of the line alone. -/
theorem Form.reads_append {d : Int} (f : Form) (hf : f.isProper) (hd : f.depth = some d)
    (hl : u.getLast? ≠ some '\n') (hv : LineEnds v) (pos : Pos) :
    (f.reads (u ++ v) pos).filter (·.length ≤ u.length) = f.reads u pos := by
  refine Form.places_induction (C := fun f u => ∀ d, f.depth = some d → u.getLast? ≠ some '\n' →
    ∀ pos, (f.reads (u ++ v) pos).filter (·.length ≤ u.length) = f.reads u pos)
    ?lexeme ?rule ?pair ?either ?many ?node ?grouped f hf u d hd hl pos
  case lexeme =>
    intro terminal kind u d hd hl pos
    unfold Form.depth at hd
    split_ifs at hd with hk
    exact Form.reads_lexeme_append hk hl hv terminal pos
  case rule =>
    intro r u ih _ _ hl pos
    rw [Form.reads_rule, Form.reads_rule]
    exact ih 0 r.depth_form hl pos
  case pair =>
    intro f g u ihf ihg d hd hl pos
    obtain ⟨m, n, hf, hg, -⟩ := Form.depth_pair hd
    exact Form.reads_pair_append (ihf m hf hl pos) fun k hk hnull =>
      ihg k hk hnull n hg (getLast?_drop hl k)
  case either =>
    intro forms u ih d hd hl pos
    rw [Form.reads_either, Form.reads_either, distinct_filter, List.filter_flatMap]
    congr 1
    exact List.flatMap_congr fun f hm => ih f hm d (Form.depth_of_mem hd hm) hl pos
  case many =>
    intro f u hf ih d hd hl pos
    obtain ⟨hzero, rfl⟩ := Form.depth_many hd
    have hpair : (Form.pair f (.many f)).depth = some 0 := by
      unfold Form.depth
      rw [hzero, hd]
      rfl
    rw [Form.reads_many hf, Form.reads_many hf, distinct_filter, List.filter_cons_of_pos (by
      simp [Reading.empty]), ih 0 hpair hl pos]
  case node =>
    intro label f u ih d hd hl pos
    rw [Form.reads_node, Form.reads_node, List.filter_map, ← ih d hd hl pos]
    rfl
  case grouped =>
    intro label f u ih d hd hl pos
    rw [Form.reads_grouped, Form.reads_grouped, List.filter_map, ← ih d hd hl pos]
    rfl

/-- A way within a line does not depend on the lines behind it. -/
theorem leads_append_iff {w : List Char} {d : Int} {f : Form} (hf : f.isProper) (hd : f.depth = some d)
    (hl : u.getLast? ≠ some '\n') (hv : LineEnds v) :
    Leads Lexes f (u ++ v) (w ++ v) ↔ Leads Lexes f u w := by
  constructor
  · intro h
    obtain ⟨x, hx, hrest⟩ := h.exists_reading hf ⟨1, 1⟩
    have hle := Form.reads_le hx
    have hlength := congrArg List.length hrest
    rw [List.length_drop, List.length_append, List.length_append] at hlength
    rw [List.length_append] at hle
    have hx : x ∈ f.reads u ⟨1, 1⟩ := by
      rw [← Form.reads_append f hf hd hl hv, List.mem_filter, decide_eq_true_eq]
      exact ⟨hx, by omega⟩
    rw [List.drop_append_of_le_length (Form.reads_le hx)] at hrest
    rw [← List.append_cancel_right hrest]
    exact (Form.reads_follows hx).1
  · intro h
    obtain ⟨x, hx, rfl⟩ := h.exists_reading hf ⟨1, 1⟩
    rw [← List.drop_append_of_le_length (Form.reads_le hx)]
    rw [← Form.reads_append f hf hd hl hv] at hx
    exact (Form.reads_follows (List.mem_of_mem_filter hx)).1

theorem lexes_append_iff {w : List Char} {kind : Kind} (hk : kind.isPlain) (hl : u.getLast? ≠ some '\n')
    (hv : LineEnds v) : Lexes kind (u ++ v) (w ++ v) ↔ Lexes kind u w := by
  have hleads := leads_append_iff (f := .lexeme none kind) (w := w) (d := kind.depth)
    rfl (if_pos hk) hl hv
  exact ⟨fun h => (hleads.mp (.lexeme h)).reads, fun h => (hleads.mpr (.lexeme h)).reads⟩

end Append

end DecimalScript.Grammar
