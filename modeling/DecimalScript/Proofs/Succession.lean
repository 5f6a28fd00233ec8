import DecimalScript.Proofs.Crossing
import DecimalScript.Proofs.Regular
import DecimalScript.Proofs.Rules
import Mathlib

/-! The program of a text as a succession of statements. Several statements are preferred to one,
and among the ways to cut a text into several the one is chosen that prefers them from the first
to the last. So a text that is cut at a line where no statement can go on has the statements of
its two parts, if neither of them can be read as one statement and also as several. -/

/-- The statements of a program without the separators between them. -/
def DecimalScript.Tree.content (tree : DecimalScript.Tree) : List DecimalScript.Tree :=
  tree.statements.filter (!·.isSeparator)

namespace DecimalScript.Grammar

open Grammar.Parser
open DecimalScript.Tree (IsProgram)

variable {f g : Form} {text rest : List Char} {pos : Pos}

/-! ### The chosen reading up to blanks -/

/-- The reading that is chosen among those that leave only blanks and comments. -/
def Form.first (f : Form) (text : List Char) (pos : Pos) : Option Reading :=
  (f.reads text pos).find? fun x => (afterGap (text.drop x.length)).isEmpty

section Search
variable {α β : Type}

theorem findSome?_flatMap (l : List α) (k : α → List β) {γ : Type} (φ : β → Option γ) :
    (l.flatMap k).findSome? φ = l.findSome? fun x => (k x).findSome? φ := by
  induction l with
  | nil => rfl
  | cons x rest ih =>
    rw [List.flatMap_cons, List.findSome?_append, ih, List.findSome?_cons]
    cases (k x).findSome? φ <;> rfl

theorem findSome?_filter {p : α → Bool} {φ : α → Option β} {l : List α}
    (h : ∀ x ∈ l, p x = false → φ x = none) : (l.filter p).findSome? φ = l.findSome? φ := by
  induction l with
  | nil => rfl
  | cons x rest ih =>
    obtain ⟨hx, hrest⟩ := List.forall_mem_cons.mp h
    rw [List.findSome?_cons, ← ih hrest]
    cases hp : p x with
    | true => rw [List.filter_cons_of_pos hp, List.findSome?_cons]
    | false => rw [List.filter_cons_of_neg (by simp [hp]), hx hp]

/-- A search that fails at all items but those with one answer finds that answer. -/
theorem findSome?_eq_of_forall {φ : α → Option β} {l : List α} {b : Option β}
    (h : ∀ x ∈ l, φ x = none ∨ φ x = b) (hb : ∃ x ∈ l, φ x = b) : l.findSome? φ = b := by
  cases b with
  | none => exact List.findSome?_eq_none_iff.mpr fun x hx => (h x hx).elim id id
  | some b =>
    cases hfind : l.findSome? φ with
    | none =>
      obtain ⟨x, hx, hφ⟩ := hb
      rw [List.findSome?_eq_none_iff.mp hfind x hx] at hφ
      cases hφ
    | some c =>
      obtain ⟨x, hx, hφ⟩ := List.exists_of_findSome?_eq_some hfind
      rcases h x hx with hnone | hsome
      · rw [hφ] at hnone
        cases hnone
      · rw [← hφ, hsome]

/-- A search whose success depends on the length alone does not see which readings were dropped. -/
theorem findSome?_distinct {φ : Reading → Option β}
    (h : ∀ x y : Reading, x.length = y.length → (φ x).isSome = (φ y).isSome) (l : List Reading) :
    (distinct l).findSome? φ = l.findSome? φ := by
  induction l with
  | nil => rfl
  | cons x rest ih =>
    rw [distinct, List.findSome?_cons, List.findSome?_cons]
    cases hx : φ x with
    | some b => rfl
    | none =>
      dsimp only
      rw [findSome?_filter, ih]
      intro y _ hy
      have hlength : y.length = x.length := by simpa using hy
      have hsome := h y x hlength
      rw [hx] at hsome
      simpa using hsome

end Search

theorem Form.mem_reads_lexeme {x : Reading} {terminal : Option Terminal} {kind : Kind}
    (hx : x ∈ (Form.lexeme terminal kind).reads text pos) :
    ∃ n, kind.lexeme (afterGap text) = some n ∧
      x = ⟨leaves terminal (String.ofList ((afterGap text).take n))
          (advance pos (text.take (gapLength false text))),
        some (advance pos (text.take (gapLength false text))), gapLength false text + n⟩ := by
  rw [Form.reads_lexeme, Option.mem_toList] at hx
  obtain ⟨n, hn, rfl⟩ := Option.map_eq_some_iff.mp hx
  exact ⟨n, hn, rfl⟩

theorem Form.first_rule (r : Rule) (text : List Char) (pos : Pos) :
    (Form.rule r).first text pos = r.form.first text pos := by
  unfold Form.first
  rw [Form.reads_rule]

theorem advance_append (pos : Pos) (xs ys : List Char) :
    advance pos (xs ++ ys) = advance (advance pos xs) ys := List.foldl_append

theorem advance_take (pos : Pos) (text : List Char) (m n : Nat) :
    advance (advance pos (text.take m)) ((text.drop m).take n) = advance pos (text.take (m + n)) := by
  rw [← advance_append, List.take_add]

theorem Form.first_pair (f g : Form) (text : List Char) (pos : Pos) :
    (Form.pair f g).first text pos = (f.reads text pos).findSome? fun x =>
      (g.first (text.drop x.length) (advance pos (text.take x.length))).map x.append := by
  unfold Form.first
  rw [Form.reads_pair, List.find?_flatMap]
  congr 1
  funext x
  rw [List.find?_map]
  congr 2
  funext y
  rw [Function.comp_apply, Reading.length_append, List.drop_drop]

theorem Form.first_either (forms : List Form) (text : List Char) (pos : Pos) :
    (Form.either forms).first text pos = forms.findSome? fun f => f.first text pos := by
  unfold Form.first
  rw [Form.reads_either, List.find?_eq_findSome?_guard, findSome?_distinct, findSome?_flatMap]
  · simp only [List.findSome?_guard]
  · intro x y hlength
    simp only [Option.guard, hlength]
    split_ifs <;> rfl

theorem Reading.append_assoc (x y z : Reading) :
    (x.append y).append z = x.append (y.append z) := by
  obtain ⟨kids, start, length⟩ := x
  cases start <;> simp [Reading.append, Nat.add_assoc]

/-- A repetition stops where what follows can be read. -/
theorem Form.first_pair_many (hf : f.nullable = false) (g : Form) (text : List Char) (pos : Pos) :
    (Form.pair (.many f) g).first text pos = (g.first text pos).or ((f.reads text pos).findSome?
      fun x => ((Form.pair (.many f) g).first (text.drop x.length)
        (advance pos (text.take x.length))).map x.append) := by
  have hempty : (g.first (text.drop Reading.empty.length)
      (advance pos (text.take Reading.empty.length))).map Reading.empty.append = g.first text pos := by
    have hid : Reading.empty.append = id := funext Reading.empty_append
    rw [hid, Option.map_id]
    rfl
  have happend (x y : Reading) : (x.append y).append = x.append ∘ y.append :=
    funext (Reading.append_assoc x y)
  rw [Form.first_pair, Form.reads_many hf, findSome?_distinct]
  · rw [List.findSome?_cons, hempty, Form.reads_pair, findSome?_flatMap]
    cases g.first text pos with
    | some x => rfl
    | none =>
      rw [Option.none_or]
      dsimp only
      congr 1
      funext x
      rw [List.findSome?_map, Form.first_pair, List.map_findSome?]
      congr 1
      funext y
      rw [Function.comp_apply, Function.comp_apply, Reading.length_append, List.drop_drop, advance_take,
        happend, Option.map_map]
  · intro x y hlength
    rw [hlength]
    simp

/-! ### Separators -/

def Reading.content (x : Reading) : List Tree := x.kids.filter (!·.isSeparator)

theorem Reading.content_append (x y : Reading) : (x.append y).content = x.content ++ y.content :=
  List.filter_append ..

theorem content_of_leaves {p : Parser} (hp : Leaves p (Every fun tree => tree.isSeparator)) {x : Reading}
    (h : x ∈ (p (rows text pos)).readings) : x.content = [] :=
  List.filter_eq_nil_iff.mpr fun tree hm => by
    simp [hp (rows text pos) (rows_sound text pos) x h tree hm]

theorem content_separators {x : Reading} (h : x ∈ (Form.many .separator).reads text pos) :
    x.content = [] :=
  content_of_leaves (leaves_many (makes_separator.leaves.mono fun _ => One.every) (by simp [Every])
    fun _ _ => Every.append) h

theorem content_several {x : Reading} (h : x ∈ (Form.several .separator).reads text pos) :
    x.content = [] :=
  content_of_leaves (leaves_several (makes_separator.leaves.mono fun _ => One.every)
    (by simp [Every]) fun _ _ => Every.append) h

theorem kids_statement {x : Reading} (h : x ∈ (Form.rule .statement).reads text pos) :
    ∃ tree, x.kids = [tree] ∧ tree.Shape := by
  have hstatement : Row.statement ∈ Row.rules := by simp [Row.rules]
  exact (makes_rule hstatement).leaves (rows text pos) (rows_sound text pos) x h

theorem content_statement {x : Reading} (h : x ∈ (Form.rule .statement).reads text pos) :
    x.content = x.kids := by
  obtain ⟨tree, hkids, hshape⟩ := kids_statement h
  unfold Reading.content
  rw [hkids, List.filter_singleton, shape_not_separator hshape]
  rfl

/-- Separators lead to the place, and no further one stands there. -/
structure Settles (text rest : List Char) : Prop where
  leads : Leads Lexes (.many .separator) text rest
  stops : ∀ m, ¬Lexes .separator rest m

theorem Lexes.length_lt {kind : Kind} (hk : kind.isPlain) (h : Lexes kind text rest) :
    rest.length < text.length := by
  have hleads : Leads Lexes (.lexeme none kind) text rest := .lexeme h
  exact hleads.length_lt (by simp [Form.nullable, Kind.isProper_of_isPlain hk])

theorem Settles.of_lexes {m : List Char} (hfirst : Lexes .separator text m) (h : Settles m rest) :
    Settles text rest :=
  ⟨.again (.lexeme hfirst) h.leads, h.stops⟩

theorem exists_settles (text : List Char) : ∃ rest, Settles text rest := by
  induction hlength : text.length using Nat.strong_induction_on generalizing text with
  | _ length ih =>
    subst hlength
    by_cases hfirst : ∃ m, Lexes .separator text m
    · obtain ⟨m, hm⟩ := hfirst
      obtain ⟨rest, hrest⟩ := ih m.length (hm.length_lt rfl) m rfl
      exact ⟨rest, hrest.of_lexes hm⟩
    · exact ⟨text, .stop, fun m hm => hfirst ⟨m, hm⟩⟩

theorem Lexes.unique {kind : Kind} {m m' : List Char} (h : Lexes kind text m)
    (h' : Lexes kind text m') : m = m' := by
  obtain ⟨n, hn, rfl⟩ := h
  obtain ⟨n', hn', rfl⟩ := h'
  rw [hn] at hn'
  cases hn'
  rfl

theorem Settles.exists_lexes (h : Settles text rest) (hne : text ≠ rest) :
    ∃ m, Lexes .separator text m := by
  cases h.leads with
  | stop => exact absurd rfl hne
  | again hfirst _ => exact ⟨_, hfirst.reads⟩

/-- Behind the first separator the place is the same. -/
theorem Settles.step {m : List Char} (h : Settles text rest) (hm : Lexes .separator text m) :
    Settles m rest := by
  refine ⟨?_, h.stops⟩
  cases h.leads with
  | stop => exact absurd hm (h.stops m)
  | again hfirst hmore =>
    have hfirst : Lexes .separator text _ := hfirst.reads
    rw [hm.unique hfirst]
    exact hmore

/-- Separators lead to the place, unless a further one follows. -/
theorem Settles.eq_or {m : List Char} (h : Settles text rest)
    (hm : Leads Lexes (.many .separator) text m) : m = rest ∨ ∃ m', Lexes .separator m m' := by
  generalize hform : Form.many .separator = form at hm
  induction hm with
  | stop =>
    cases h.leads with
    | stop => exact .inl rfl
    | again hfirst _ => exact .inr ⟨_, hfirst.reads⟩
  | again hfirst _ _ ih =>
    cases hform
    exact ih (h.step hfirst.reads) rfl
  | _ => cases hform

/-! ### Where a statement starts -/

/-- A lexeme of the kind does not start where a separator does. -/
def Kind.begins : Kind → Bool
  | .separator => false
  | .spelled word => (Kind.spelled word).isPlain && word.toList.head? != some ';'
  | _ => true

mutual

/-- The form starts with a lexeme that is no separator. -/
def Form.begins : Form → Bool
  | .lexeme _ kind => kind.begins
  | .rule r => r != .statements
  | .pair f _ => f.begins
  | .either forms => Form.allBegin forms
  | .many _ => false
  | .node _ f | .grouped _ f => f.begins

def Form.allBegin : List Form → Bool
  | [] => true
  | f :: rest => f.begins && Form.allBegin rest

end

theorem Form.begins_of_mem {forms : List Form} (h : Form.allBegin forms) (hf : f ∈ forms) :
    f.begins := by
  induction forms with
  | nil => cases hf
  | cons g rest ih =>
    rw [Form.allBegin, Bool.and_eq_true] at h
    rcases List.mem_cons.mp hf with rfl | hf
    · exact h.1
    · exact ih h.2 hf

theorem Rule.begins_form {r : Rule} (h : r ≠ .statements) : r.form.begins := by
  cases r with
  | statements => exact absurd rfl h
  | _ => decide

theorem Leads.begins (h : Leads Lexes f text rest) (hf : f.begins) :
    ∃ kind m, kind.begins ∧ Lexes kind text m := by
  induction h with
  | lexeme h => exact ⟨_, _, hf, h⟩
  | @rule r s t _ ih => exact ih (Rule.begins_form (by simpa [Form.begins] using hf))
  | pair _ _ ih _ => exact ih hf
  | either hm _ ih => exact ih (Form.begins_of_mem hf hm)
  | stop | again => cases hf
  | node _ ih | grouped _ ih => exact ih hf

theorem Kind.begins_isPlain {kind : Kind} (h : kind.begins) : kind.isPlain := by
  cases kind with
  | spelled word => exact (Bool.and_eq_true_iff.mp h).1
  | _ => rfl

theorem Kind.begins_lexeme {kind : Kind} (h : kind.begins) {n : Nat}
    (hs : separatorLexeme text = some n) : kind.lexeme text = none := by
  have hseparator : kind ≠ .separator := by
    rintro rfl
    cases h
  cases text with
  | nil => cases hs
  | cons c rest =>
    by_cases hn : c = '\n'
    · subst hn
      exact Kind.lexeme_lineEnd (begins_isPlain h) hseparator (lineEnds_newline rest)
    · have hc : c = ';' := by
        by_contra hc
        have hnone : separatorLexeme (c :: rest) = none :=
          separatorLexeme_eq_none (by simpa using hc) (by simpa using hn)
        rw [hnone] at hs
        cases hs
      subst hc
      cases kind with
      | separator => exact absurd rfl hseparator
      | spelled word =>
        obtain ⟨hplain, hhead⟩ := Bool.and_eq_true_iff.mp h
        cases hletters : word.toList with
        | nil =>
          have hproper := isProper_of_isPlain hplain
          simp [Kind.isProper, ← String.length_toList, hletters] at hproper
        | cons d letters =>
          refine spelled_eq_none (c := d) (by rw [hletters]; rfl) ?_
          rintro ⟨⟩
          simp [hletters] at hhead
      | _ => rfl

/-- No statement starts at a separator or at the end of a text. -/
theorem reads_statement_eq_nil (h : (∃ m, Lexes .separator text m) ∨ afterGap text = []) (pos : Pos) :
    (Form.rule .statement).reads text pos = [] := by
  refine List.eq_nil_iff_forall_not_mem.mpr fun x hx => ?_
  obtain ⟨kind, m, hbegins, n, hn, -⟩ := (Form.reads_follows hx).1.begins rfl
  rcases h with ⟨m, k, hk, -⟩ | hend
  · rw [Kind.begins_lexeme hbegins hk] at hn
    cases hn
  · rw [hend, Kind.lexeme_nil (Kind.begins_isPlain hbegins)] at hn
    cases hn

/-! ### The statements of a text -/

def Form.further : Form := .pair (.several .separator) (.rule .statement)

/-- What stands behind a statement up to the end: no further one, some, or either. -/
inductive Tail where
  | alone | more | any
  deriving DecidableEq

namespace Tail

def form : Tail → Form
  | .alone => .many .separator
  | .more => .pair (.several .further) (.many .separator)
  | .any => .pair (.many .further) (.many .separator)

def list (k : Tail) : Form := .row (.many .separator) [.rule .statement, k.form]

end Tail

def Form.chosen (f : Form) (text : List Char) (pos : Pos) : Option (List Tree) :=
  (f.first text pos).map Reading.content

/-- The statements that the chosen reading has behind a statement. -/
def following (k : Tail) : List Char → Pos → Option (List Tree) := k.form.chosen

/-- The statements of the chosen reading that begins with one. -/
def starting (k : Tail) : List Char → Pos → Option (List Tree) :=
  (Form.pair (.rule .statement) k.form).chosen

/-- The statements of the chosen reading. Several statements are preferred to one. -/
def program : List Char → Pos → Option (List Tree) :=
  (Form.either [Tail.more.list, Tail.alone.list, .many .separator]).chosen

/-- The place that is reached with the rest of a text. -/
def reached (pos : Pos) (text rest : List Char) : Pos :=
  advance pos (text.take (text.length - rest.length))

theorem reached_append (pos : Pos) (front rest : List Char) :
    reached pos (front ++ rest) rest = advance pos front := by
  simp [reached]

theorem findSome?_congr {α β : Type} {φ ψ : α → Option β} {l : List α} (h : ∀ x ∈ l, φ x = ψ x) :
    l.findSome? φ = l.findSome? ψ := by
  induction l with
  | nil => rfl
  | cons x rest ih =>
    obtain ⟨hx, hrest⟩ := List.forall_mem_cons.mp h
    rw [List.findSome?_cons, List.findSome?_cons, hx, ih hrest]

/-- The first statement is chosen before the others. -/
theorem starting_eq (k : Tail) (text : List Char) (pos : Pos) :
    starting k text pos = ((Form.rule .statement).reads text pos).findSome? fun x =>
      (following k (text.drop x.length) (advance pos (text.take x.length))).map (x.kids ++ ·) := by
  unfold starting following Form.chosen
  rw [Form.first_pair, List.map_findSome?]
  refine findSome?_congr fun x hx => ?_
  rw [Function.comp_apply, Option.map_map, Option.map_map]
  congr 1
  funext y
  rw [Function.comp_apply, Function.comp_apply, Reading.content_append, content_statement hx]

theorem starting_eq_none (h : (∃ m, Lexes .separator text m) ∨ afterGap text = []) (k : Tail)
    (pos : Pos) : starting k text pos = none := by
  rw [starting_eq, reads_statement_eq_nil h]
  rfl

theorem Form.first_assoc (f g h : Form) (text : List Char) (pos : Pos) :
    (Form.pair (.pair f g) h).first text pos = (Form.pair f (.pair g h)).first text pos := by
  rw [Form.first_pair, Form.first_pair, Form.reads_pair, findSome?_flatMap]
  congr 1
  funext x
  rw [List.findSome?_map, Form.first_pair, List.map_findSome?]
  congr 1
  funext y
  have happend : (x.append y).append = x.append ∘ y.append := funext (Reading.append_assoc x y)
  rw [Function.comp_apply, Function.comp_apply, Reading.length_append, List.drop_drop, advance_take,
    happend, Option.map_map]

/-- Further statements come behind separators, the first of them before any others. -/
theorem following_more (text : List Char) (pos : Pos) : following .more text pos =
    (Form.pair (.several .separator) (.pair (.rule .statement) Tail.any.form)).chosen text pos := by
  change ((Form.pair (.pair .further (.many .further)) (.many .separator)).first text pos).map _ = _
  rw [Form.first_assoc]
  change ((Form.pair (.pair (.several .separator) (.rule .statement)) Tail.any.form).first
    text pos).map _ = _
  rw [Form.first_assoc]
  rfl

/-- Behind a statement come separators to the end, or separators and further statements. -/
theorem following_any (text : List Char) (pos : Pos) :
    following .any text pos = (following .alone text pos).or (following .more text pos) := by
  unfold following Tail.form Form.chosen Form.several
  rw [Form.first_assoc, Form.first_pair .further, Form.first_pair_many rfl]
  cases (Form.many .separator).first text pos <;> rfl

section Settled
variable (h : Settles text rest)
include h

theorem following_alone_of_end (hend : afterGap rest = []) (pos : Pos) :
    following .alone text pos = some [] := by
  obtain ⟨x, hx, hdrop⟩ := h.leads.exists_reading rfl pos
  have hsome : ((Form.many .separator).first text pos).isSome := by
    unfold Form.first
    rw [List.find?_isSome]
    exact ⟨x, hx, by simp [hdrop, hend]⟩
  obtain ⟨y, hy⟩ := Option.isSome_iff_exists.mp hsome
  change ((Form.many .separator).first text pos).map Reading.content = some []
  rw [hy, Option.map_some, content_separators (List.mem_of_find?_eq_some hy)]

theorem following_alone_eq_none (hrest : afterGap rest ≠ []) (pos : Pos) :
    following .alone text pos = none := by
  change ((Form.many .separator).first text pos).map Reading.content = none
  rw [Option.map_eq_none_iff, Form.first, List.find?_eq_none]
  intro x hx hend
  have hend : afterGap (text.drop x.length) = [] := by simpa using hend
  rcases h.eq_or (Form.reads_follows hx).1 with heq | ⟨m, n, hn, -⟩
  · exact hrest (heq ▸ hend)
  · rw [hend] at hn
    cases hn

/-- Separators before a statement are passed, all of them. -/
theorem chosen_settled {separators : Form} (k : Tail) (hs : separators.isProper)
    (hmany : ∀ x ∈ separators.reads text pos,
      Leads Lexes (.many .separator) text (text.drop x.length) ∧ x.content = [])
    (hleads : Leads Lexes separators text rest) :
    (Form.pair separators (.pair (.rule .statement) k.form)).chosen text pos =
      starting k rest (reached pos text rest) := by
  have hstarting (x : Reading) (hx : x ∈ separators.reads text pos) :
      (((Form.pair (.rule .statement) k.form).first (text.drop x.length)
        (advance pos (text.take x.length))).map x.append).map Reading.content =
      starting k (text.drop x.length) (advance pos (text.take x.length)) := by
    unfold starting Form.chosen
    rw [Option.map_map]
    congr 1
    funext y
    rw [Function.comp_apply, Reading.content_append, (hmany x hx).2, List.nil_append]
  have hplace (x : Reading) (hx : x ∈ separators.reads text pos) (hdrop : text.drop x.length = rest) :
      starting k (text.drop x.length) (advance pos (text.take x.length)) =
        starting k rest (reached pos text rest) := by
    have hle := Form.reads_le hx
    have hlength := congrArg List.length hdrop
    rw [List.length_drop] at hlength
    unfold reached
    rw [hdrop, ← hlength, Nat.sub_sub_self hle]
  unfold Form.chosen
  rw [Form.first_pair, List.map_findSome?]
  refine findSome?_eq_of_forall (fun x hx => ?_) ?_
  · rw [Function.comp_apply, hstarting x hx]
    rcases h.eq_or (hmany x hx).1 with hdrop | hmore
    · exact .inr (hplace x hx hdrop)
    · exact .inl (starting_eq_none (.inl hmore) _ _)
  · obtain ⟨x, hx, hdrop⟩ := hleads.exists_reading hs pos
    exact ⟨x, hx, (hstarting x hx).trans (hplace x hx hdrop)⟩

theorem list_eq (k : Tail) (pos : Pos) :
    k.list.chosen text pos = starting k rest (reached pos text rest) :=
  chosen_settled h k rfl (fun _ hx => ⟨(Form.reads_follows hx).1, content_separators hx⟩) h.leads

theorem program_eq (pos : Pos) : program text pos =
    ((starting .more rest (reached pos text rest)).or
      (starting .alone rest (reached pos text rest))).or (following .alone text pos) := by
  rw [← list_eq h, ← list_eq h]
  unfold program following Tail.form Form.chosen
  rw [Form.first_either]
  cases hmore : Tail.more.list.first text pos with
  | some x => simp [hmore]
  | none =>
    cases halone : Tail.alone.list.first text pos with
    | some x => simp [hmore, halone]
    | none => simp [hmore, halone]

/-- A text of separators has no statements. -/
theorem program_of_end (hend : afterGap rest = []) (pos : Pos) : program text pos = some [] := by
  rw [program_eq h, starting_eq_none (.inr hend), starting_eq_none (.inr hend),
    following_alone_of_end h hend]
  rfl

theorem program_of_settles (hrest : afterGap rest ≠ []) (pos : Pos) : program text pos =
    (starting .more rest (reached pos text rest)).or
      (starting .alone rest (reached pos text rest)) := by
  rw [program_eq h, following_alone_eq_none h hrest, Option.or_none]

theorem following_more_of_lexes {m : List Char} (hm : Lexes .separator text m) (pos : Pos) :
    following .more text pos = starting .any rest (reached pos text rest) := by
  rw [following_more]
  refine chosen_settled h .any rfl (fun _ hx => ⟨?_, content_several hx⟩)
    (.pair (.lexeme hm) (h.step hm).leads)
  cases (Form.reads_follows hx).1 with
  | pair hfirst hmore => exact .again hfirst hmore

end Settled

theorem following_more_of_stop (hstop : ∀ m, ¬Lexes .separator text m) (pos : Pos) :
    following .more text pos = none := by
  have hreads : (Form.several .separator).reads text pos = [] := by
    refine List.eq_nil_iff_forall_not_mem.mpr fun x hx => ?_
    cases (Form.reads_follows hx).1 with
    | pair hfirst _ => exact hstop _ hfirst.reads
  rw [following_more, Form.chosen, Form.first_pair, hreads]
  rfl

/-- At the end of a text nothing follows. -/
theorem following_of_end (h : Settles text rest) (hend : afterGap rest = []) (k : Tail)
    (pos : Pos) :
    following k text pos = if k = .more then none else some [] := by
  have halone := following_alone_of_end h hend pos
  have hmore : following .more text pos = none := by
    by_cases hfirst : ∃ m, Lexes .separator text m
    · obtain ⟨m, hm⟩ := hfirst
      rw [following_more_of_lexes h hm, starting_eq_none (.inr hend)]
    · exact following_more_of_stop (fun m hm => hfirst ⟨m, hm⟩) pos
  cases k with
  | alone => exact halone
  | more => exact hmore
  | any => rw [following_any, halone, hmore]; rfl

/-- Behind separators a statement follows. -/
theorem following_of_settles (h : Settles text rest) (hrest : afterGap rest ≠ []) {m : List Char}
    (hm : Lexes .separator text m) (k : Tail) (pos : Pos) : following k text pos =
      if k = .alone then none else starting .any rest (reached pos text rest) := by
  have halone := following_alone_eq_none h hrest pos
  have hmore := following_more_of_lexes h hm pos
  cases k with
  | alone => exact halone
  | more => exact hmore
  | any => rw [following_any, halone, hmore]; rfl

/-- Without a separator nothing follows. -/
theorem following_of_stop (hstop : ∀ m, ¬Lexes .separator text m) (htext : afterGap text ≠ [])
    (k : Tail) (pos : Pos) : following k text pos = none := by
  have halone := following_alone_eq_none ⟨.stop, hstop⟩ htext pos
  have hmore := following_more_of_stop hstop pos
  cases k with
  | alone => exact halone
  | more => exact hmore
  | any => rw [following_any, halone, hmore]; rfl

/-! ### One statement or several -/

/-- The form leads to the end of the text. -/
def Form.Covers (f : Form) (text : List Char) : Prop :=
  ∃ rest, Leads Lexes f text rest ∧ afterGap rest = []

theorem Form.isSome_chosen_iff (hf : f.isProper) (pos : Pos) :
    (f.chosen text pos).isSome ↔ f.Covers text := by
  unfold Form.chosen
  rw [Option.isSome_map, Form.first, List.find?_isSome]
  constructor
  · rintro ⟨x, hx, hend⟩
    exact ⟨_, (Form.reads_follows hx).1, by simpa using hend⟩
  · rintro ⟨rest, hleads, hend⟩
    obtain ⟨x, hx, rfl⟩ := hleads.exists_reading hf pos
    exact ⟨x, hx, by simp [hend]⟩

/-- The text can be read as one statement, and also as several. -/
def Ambiguous (text : List Char) : Prop := Tail.alone.list.Covers text ∧ Tail.more.list.Covers text

instance (text : List Char) : Decidable (Ambiguous text) :=
  decidable_of_iff ((Tail.alone.list.chosen text ⟨1, 1⟩).isSome ∧
    (Tail.more.list.chosen text ⟨1, 1⟩).isSome)
    (and_congr (Form.isSome_chosen_iff rfl _) (Form.isSome_chosen_iff rfl _))

theorem ambiguous_iff (h : Settles text rest) (pos : Pos) : Ambiguous text ↔
    (starting .alone rest pos).isSome ∧ (starting .more rest pos).isSome := by
  have hlist (k : Tail) (hk : k.list.isProper)
      (hform : (Form.pair (.rule .statement) k.form).isProper) :
      k.list.Covers text ↔ (starting k rest pos).isSome := by
    rw [← Form.isSome_chosen_iff hk pos, list_eq h k, starting, Form.isSome_chosen_iff hform,
      Form.isSome_chosen_iff hform]
  rw [Ambiguous, hlist .alone rfl rfl, hlist .more rfl rfl]

/-- Where a text is not ambiguous, it does not matter that several statements are preferred. -/
theorem starting_any (h : Settles text rest) (hone : ¬Ambiguous text) (pos : Pos) :
    starting .any rest pos = (starting .more rest pos).or (starting .alone rest pos) := by
  have hnone {k : Tail} (hk : starting k rest pos = none) {x : Reading}
      (hx : x ∈ (Form.rule .statement).reads rest pos) :
      following k (rest.drop x.length) (advance pos (rest.take x.length)) = none := by
    rw [starting_eq] at hk
    simpa using List.findSome?_eq_none_iff.mp hk x hx
  cases halone : starting .alone rest pos with
  | none =>
    rw [Option.or_none, starting_eq, starting_eq]
    refine findSome?_congr fun x hx => ?_
    rw [following_any, hnone halone hx, Option.none_or]
  | some trees =>
    cases hmore : starting .more rest pos with
    | none =>
      rw [Option.none_or, ← halone, starting_eq, starting_eq]
      refine findSome?_congr fun x hx => ?_
      rw [following_any, hnone hmore hx, Option.or_none]
    | some others => exact absurd ((ambiguous_iff h pos).mpr (by simp [halone, hmore])) hone

/-! ### A text and the lines behind it -/

/-- At the end of the text all parentheses are closed, and it is neither a line feed nor a
conditional without its last part. -/
structure Closed (u : List Char) : Prop where
  last : u.getLast? ≠ some '\n'
  nesting : nesting u = 0
  complete : ¬EndsOpen u

section Append
variable {u u' v w : List Char} {b : List Tree}

theorem Closed.of_leads (h : Closed u) (hf : f.depth = some 0) (hw : Leads Lexes f u w) : Closed w where
  last := getLast?_suffix h.last hw.suffix
  nesting := by
    have := hw.nesting_eq hf
    rw [h.nesting] at this
    omega
  complete := fun hopen => h.complete (hopen.of_reaches (hw.reaches hf))

theorem Lexes.of_append {kind : Kind} (hk : kind.isPlain) (hl : u.getLast? ≠ some '\n')
    (hv : LineEnds v) (ha : afterGap u ≠ []) (h : Lexes kind (u ++ v) w) : ∃ m, Lexes kind u m := by
  obtain ⟨n, hn, -⟩ := h
  rw [afterGap_append hv, Kind.lexeme_append hk ha (getLast?_drop hl _) hv] at hn
  exact ⟨_, n, hn, rfl⟩

theorem Leads.settles_append (hl : u.getLast? ≠ some '\n') (hv : LineEnds v)
    (h : Leads Lexes (.many .separator) u u') (hs : Settles (u' ++ v) w) : Settles (u ++ v) w := by
  generalize hform : Form.many .separator = form at h
  induction h with
  | stop => exact hs
  | again hfirst hmore _ ih =>
    cases hform
    have hlexes : Lexes .separator _ _ := hfirst.reads
    exact (ih (getLast?_suffix hl hfirst.suffix) hs rfl).of_lexes ((lexes_append_iff rfl hl hv).mpr hlexes)
  | _ => cases hform

/-- Separators of a line lead to the same place with the lines behind it. -/
theorem Settles.append (h : Settles u u') (hl : u.getLast? ≠ some '\n') (hv : LineEnds v)
    (ha : afterGap u' ≠ []) : Settles (u ++ v) (u' ++ v) := by
  refine h.leads.settles_append hl hv ⟨.stop, fun m hm => ?_⟩
  obtain ⟨m, hm⟩ := hm.of_append rfl (getLast?_suffix hl h.leads.suffix) hv ha
  exact h.stops m hm

theorem afterGap_newline (v : List Char) : afterGap ('\n' :: v) = '\n' :: v := rfl

theorem afterGap_append_newline (u v : List Char) : afterGap (u ++ '\n' :: v) ≠ [] := by
  rw [afterGap_append (lineEnds_newline v)]
  simp

theorem lexes_newline (v : List Char) : Lexes .separator ('\n' :: v) (v.dropWhile (· == '\n')) := by
  have hsplit := List.takeWhile_append_dropWhile (p := (· == '\n')) (l := '\n' :: v)
  have hdrop : ('\n' :: v).dropWhile (· == '\n') = v.dropWhile (· == '\n') := rfl
  refine ⟨(('\n' :: v).takeWhile (· == '\n')).length, ?_, ?_⟩
  · change separatorLexeme ('\n' :: v) = _
    rw [separatorLexeme_of_ne (by decide), if_neg (by simp)]
  · rw [afterGap_newline, ← hdrop]
    nth_rewrite 3 [← hsplit]
    rw [List.drop_left]

theorem Settles.length_lt (hw : Settles ('\n' :: v) w) : w.length < ('\n' :: v).length := by
  have hm := lexes_newline v
  exact (hw.step hm).leads.suffix.length_le.trans_lt (hm.length_lt rfl)

/-- Separators at the end of a line go on with those behind it. -/
theorem Leads.append_end (h : Leads Lexes (.many .separator) u u') (hl : u.getLast? ≠ some '\n')
    (hend : afterGap u' = []) (hw : Settles ('\n' :: v) w) : Settles (u ++ '\n' :: v) w := by
  refine h.settles_append hl (lineEnds_newline v) ?_
  obtain ⟨n, hn, hm⟩ := lexes_newline v
  have hgap : afterGap (u' ++ '\n' :: v) = '\n' :: v := by
    rw [afterGap_append (lineEnds_newline v), hend, List.nil_append]
  have hfirst : Lexes .separator (u' ++ '\n' :: v) (v.dropWhile (· == '\n')) :=
    ⟨n, by rw [hgap]; exact hn, by rw [hgap]; exact hm⟩
  exact (hw.step ⟨n, hn, hm⟩).of_lexes hfirst

theorem reached_reached (h : rest <:+ text) (front : List Char) (pos : Pos) :
    reached pos (front ++ text) rest = reached (advance pos front) text rest := by
  obtain ⟨xs, rfl⟩ := h
  rw [← List.append_assoc, reached_append, reached_append, advance_append]

theorem reached_append_append (h : u' <:+ u) (v : List Char) (pos : Pos) :
    reached pos (u ++ v) (u' ++ v) = reached pos u u' := by
  obtain ⟨front, rfl⟩ := h
  rw [List.append_assoc, reached_append, reached_append]

theorem advance_reached (h : u' <:+ u) (pos : Pos) :
    advance (reached pos u u') u' = advance pos u := by
  obtain ⟨front, rfl⟩ := h
  rw [reached_append, advance_append]

/-- Texts that can be cut from the lines behind them: wherever they are read to, no statement goes
on in those lines. -/
structure Seam (v : List Char) (P : List Char → Prop) : Prop where
  last : ∀ {u}, P u → u.getLast? ≠ some '\n'
  leads : ∀ {f : Form} {u w}, P u → f.depth = some 0 → Leads Lexes f u w → P w
  stays : ∀ {u m}, P u → Leads Lexes (.rule .statement) (u ++ '\n' :: v) m → v.length < m.length

theorem closed_seam (hv : nesting ('\n' :: v) = 0) : Seam v Closed where
  last := Closed.last
  leads := Closed.of_leads
  stays hu h := h.statement_in_line hu.last hu.nesting hv hu.complete

section Seam
variable {P : List Char → Prop} (hP : Seam v P)
include hP

theorem starting_seam (hu : P u) (k : Tail) (pos : Pos) : starting k (u ++ '\n' :: v) pos =
    ((Form.rule .statement).reads u pos).findSome? fun x =>
      (following k (u.drop x.length ++ '\n' :: v) (advance pos (u.take x.length))).map
        (x.kids ++ ·) := by
  rw [starting_eq, reads_statement_append (hP.last hu) (hP.stays hu)]
  refine findSome?_congr fun x hx => ?_
  have hle := Form.reads_le hx
  rw [List.drop_append_of_le_length hle, List.take_append_of_le_length hle]

theorem Seam.drop (hu : P u) {x : Reading} (hx : x ∈ (Form.rule .statement).reads u pos) :
    P (u.drop x.length) :=
  hP.leads (f := .rule .statement) hu rfl (Form.reads_follows hx).1

/-- The first statement is chosen alike with the lines behind the text, if all that can follow it
is. -/
theorem starting_append {k l : Tail} (hu : P u) (hfollowing : ∀ (w : List Char) (p : Pos),
      w.length < u.length → P w → advance p w = advance pos u →
      following k (w ++ '\n' :: v) p = (following l w p).map (· ++ b)) :
    starting k (u ++ '\n' :: v) pos = (starting l u pos).map (· ++ b) := by
  rw [starting_seam hP hu, starting_eq, List.map_findSome?]
  refine findSome?_congr fun x hx => ?_
  have hpos := (Form.reads_follows hx).pos rfl
  have hle := Form.reads_le hx
  have hwhole : advance (advance pos (u.take x.length)) (u.drop x.length) = advance pos u := by
    rw [← advance_append, List.take_append_drop]
  have hrest := hfollowing (u.drop x.length) (advance pos (u.take x.length))
    (by rw [List.length_drop]; omega) (hP.drop hu hx) hwhole
  have happend : ((x.kids ++ ·) ∘ (· ++ b) : List Tree → List Tree) = (· ++ b) ∘ (x.kids ++ ·) :=
    funext fun trees => (List.append_assoc x.kids trees b).symm
  rw [Function.comp_apply, hrest, Option.map_map, Option.map_map, happend]

/-- Where nothing but separators is left of the text, the lines behind it follow. -/
theorem following_append_end (hu : P u) (hs : Settles u u') (hend : afterGap u' = []) (k : Tail)
    (pos : Pos) : following k (u ++ '\n' :: v) pos = following k ('\n' :: v) (advance pos u) := by
  obtain ⟨w, hw⟩ := exists_settles ('\n' :: v)
  have hjoined := hs.leads.append_end (hP.last hu) hend hw
  by_cases hwend : afterGap w = []
  · rw [following_of_end hjoined hwend, following_of_end hw hwend]
  · obtain ⟨m, hm⟩ := hjoined.exists_lexes fun heq => by
      have hlength := congrArg List.length heq
      have hlt := hw.length_lt
      rw [List.length_append] at hlength
      omega
    rw [following_of_settles hjoined hwend hm, following_of_settles hw hwend (lexes_newline v),
      reached_reached hw.leads.suffix]

theorem following_append_settled (hu : P u) (hs : Settles u u') (hrest : afterGap u' ≠ [])
    (hany : starting .any (u' ++ '\n' :: v) (reached pos u u') =
      (starting .any u' (reached pos u u')).map (· ++ b)) (k : Tail) :
    following k (u ++ '\n' :: v) pos = (following k u pos).map (· ++ b) := by
  have hline := lineEnds_newline v
  have hjoined := hs.append (hP.last hu) hline hrest
  have hjoinedend := afterGap_append_newline u' v
  by_cases hfirst : ∃ m, Lexes .separator u m
  · obtain ⟨m, hm⟩ := hfirst
    rw [following_of_settles hs hrest hm, following_of_settles hjoined hjoinedend
      ((lexes_append_iff rfl (hP.last hu) hline).mpr hm), reached_append_append hs.leads.suffix,
      hany]
    split_ifs <;> rfl
  · have hstop (m : List Char) (hm : Lexes .separator u m) : False := hfirst ⟨m, hm⟩
    have hsame : u = u' := by
      by_contra hne
      exact hfirst (hs.exists_lexes hne)
    subst hsame
    rw [following_of_stop hstop hrest, following_of_stop hjoined.stops hjoinedend, Option.map_none]

/-- The lines behind the text add their statements. -/
theorem following_any_append (hu : P u) (hb : following .any ('\n' :: v) (advance pos u) = some b) :
    following .any (u ++ '\n' :: v) pos = (following .any u pos).map (· ++ b) := by
  induction hlength : u.length using Nat.strong_induction_on generalizing u pos with
  | _ length ih =>
    subst hlength
    obtain ⟨u', hs⟩ := exists_settles u
    by_cases hend : afterGap u' = []
    · rw [following_append_end hP hu hs hend, hb, following_of_end hs hend]
      rfl
    · have hsuffix := hs.leads.suffix
      have hu' := hP.leads (f := .many .separator) hu rfl hs.leads
      refine following_append_settled hP hu hs hend (starting_append hP hu' ?_) .any
      intro w p hlt hw hp
      rw [advance_reached hsuffix] at hp
      exact ih w.length (hlt.trans_le hsuffix.length_le) hw (by rw [hp, hb]) rfl

theorem starting_any_append (hu : P u) (hb : following .any ('\n' :: v) (advance pos u) = some b) :
    starting .any (u ++ '\n' :: v) pos = (starting .any u pos).map (· ++ b) :=
  starting_append hP hu fun _ _ _ hw hp => following_any_append hP hw (by rw [hp, hb])

theorem following_append (hu : P u) (hb : following .any ('\n' :: v) (advance pos u) = some b)
    (hs : Settles u u') (hrest : afterGap u' ≠ []) (k : Tail) :
    following k (u ++ '\n' :: v) pos = (following k u pos).map (· ++ b) := by
  refine following_append_settled hP hu hs hrest ?_ k
  exact starting_any_append hP (hP.leads (f := .many .separator) hu rfl hs.leads)
    (by rw [advance_reached hs.leads.suffix, hb])

theorem starting_append_separators (hu : P u) {w : List Char} (hw : Settles ('\n' :: v) w)
    (hwend : afterGap w = []) (k : Tail) (pos : Pos) :
    starting k (u ++ '\n' :: v) pos = starting k u pos := by
  have hstarting : starting k (u ++ '\n' :: v) pos = (starting k u pos).map (· ++ []) := by
    refine starting_append hP hu fun x p _ hx _ => ?_
    obtain ⟨x', hs⟩ := exists_settles x
    by_cases hend : afterGap x' = []
    · rw [following_append_end hP hx hs hend, following_of_end hw hwend, following_of_end hs hend]
      split_ifs <;> rfl
    · exact following_append hP hx (following_of_end hw hwend .any _) hs hend k
  simpa using hstarting

/-- Separators behind the text add nothing. -/
theorem program_append_separators (hu : P u) {w : List Char} (hw : Settles ('\n' :: v) w)
    (hwend : afterGap w = []) (pos : Pos) : program (u ++ '\n' :: v) pos = program u pos := by
  obtain ⟨u', hs⟩ := exists_settles u
  by_cases hend : afterGap u' = []
  · rw [program_of_end hs hend, program_of_end (hs.leads.append_end (hP.last hu) hend hw) hwend]
  · have hu' := hP.leads (f := .many .separator) hu rfl hs.leads
    rw [program_of_settles hs hend,
      program_of_settles (hs.append (hP.last hu) (lineEnds_newline v) hend)
        (afterGap_append_newline u' v), reached_append_append hs.leads.suffix,
      starting_append_separators hP hu' hw hwend, starting_append_separators hP hu' hw hwend]

/-- A statement of the text is not the last one if there is one in the lines behind it. -/
theorem following_alone_append (hu : P u) {w : List Char} (hw : Settles ('\n' :: v) w)
    (hwend : afterGap w ≠ []) (pos : Pos) : following .alone (u ++ '\n' :: v) pos = none := by
  obtain ⟨u', hs⟩ := exists_settles u
  by_cases hend : afterGap u' = []
  · exact following_alone_eq_none (hs.leads.append_end (hP.last hu) hend hw) hwend pos
  · exact following_alone_eq_none (hs.append (hP.last hu) (lineEnds_newline v) hend)
      (afterGap_append_newline u' v) pos

theorem following_more_append (hu : P u)
    (hb : ∀ k : Tail, k ≠ .alone → following k ('\n' :: v) (advance pos u) = some b) :
    following .more (u ++ '\n' :: v) pos = (following .any u pos).map (· ++ b) := by
  obtain ⟨u', hs⟩ := exists_settles u
  by_cases hend : afterGap u' = []
  · rw [following_append_end hP hu hs hend, hb .more (by decide), following_of_end hs hend]
    rfl
  · rw [following_append hP hu (hb .any (by decide)) hs hend, following_any,
      following_alone_eq_none hs hend, Option.none_or]

/-- The text and the lines behind it have the statements of both. -/
theorem program_append (hu : P u) (hone : ¬Ambiguous u) (hlines : ¬Ambiguous ('\n' :: v))
    (hb : program ('\n' :: v) (advance pos u) = some b) (hne : b ≠ []) :
    program (u ++ '\n' :: v) pos = (program u pos).map (· ++ b) := by
  obtain ⟨w, hw⟩ := exists_settles ('\n' :: v)
  have hwend : afterGap w ≠ [] := by
    intro hwend
    rw [program_of_end hw hwend] at hb
    cases hb
    exact hne rfl
  obtain ⟨u', hs⟩ := exists_settles u
  by_cases hend : afterGap u' = []
  · have hjoined := hs.leads.append_end (hP.last hu) hend hw
    rw [program_of_end hs hend, Option.map_some, List.nil_append, ← hb,
      program_of_settles hjoined hwend, program_of_settles hw hwend,
      reached_reached hw.leads.suffix]
  have hu' := hP.leads (f := .many .separator) hu rfl hs.leads
  have hmore : starting .more (u' ++ '\n' :: v) (reached pos u u') =
      (starting .any u' (reached pos u u')).map (· ++ b) := by
    refine starting_append hP hu' fun x p _ hx hp => following_more_append hP hx fun k hk => ?_
    rw [advance_reached hs.leads.suffix] at hp
    rw [following_of_settles hw hwend (lexes_newline v), if_neg hk, starting_any hw hlines,
      ← program_of_settles hw hwend, hp, hb]
  have halone : starting .alone (u' ++ '\n' :: v) (reached pos u u') = none := by
    rw [starting_seam hP hu', List.findSome?_eq_none_iff]
    intro x hx
    rw [following_alone_append hP (hP.drop hu' hx) hw hwend, Option.map_none]
  rw [program_of_settles (hs.append (hP.last hu) (lineEnds_newline v) hend)
    (afterGap_append_newline u' v), reached_append_append hs.leads.suffix, hmore, halone,
    Option.or_none, starting_any hs hone, program_of_settles hs hend]

end Seam

theorem Settles.dropWhile (h : Settles text w) : Settles (text.dropWhile (· == '\n')) w := by
  cases text with
  | nil => exact h
  | cons c rest =>
    by_cases hc : c = '\n'
    · subst hc
      exact h.step (lexes_newline rest)
    · rw [List.dropWhile_cons_of_neg (by simpa using hc)]
      exact h

theorem Settles.newlines (h : Settles text w) (n : Nat) :
    Settles (List.replicate n '\n' ++ text) w := by
  cases n with
  | zero => exact h
  | succ n =>
    refine Settles.of_lexes (lexes_newline (List.replicate n '\n' ++ text)) ?_
    rw [List.dropWhile_append_of_pos (by simp)]
    exact h.dropWhile

theorem ambiguous_newlines (n : Nat) (text : List Char) :
    Ambiguous (List.replicate n '\n' ++ text) ↔ Ambiguous text := by
  obtain ⟨w, hw⟩ := exists_settles text
  rw [ambiguous_iff (hw.newlines n) ⟨1, 1⟩, ambiguous_iff hw ⟨1, 1⟩]

/-- Line feeds before a text do not matter. -/
theorem program_newlines (n : Nat) (text : List Char) (pos : Pos) :
    program (List.replicate n '\n' ++ text) pos = program text (advance pos (List.replicate n '\n')) := by
  obtain ⟨w, hw⟩ := exists_settles text
  have hjoined := hw.newlines n
  by_cases hend : afterGap w = []
  · rw [program_of_end hjoined hend, program_of_end hw hend]
  · rw [program_of_settles hjoined hend, program_of_settles hw hend, reached_reached hw.leads.suffix]

end Append

theorem relocate_isSeparator {σ : Pos → Pos} (tree : Tree) :
    (tree.relocate σ).isSeparator = tree.isSeparator := by
  cases tree with
  | token terminal => cases terminal <;> rfl
  | _ => rfl

/-- Where a text starts shows in the places of its statements alone. -/
theorem program_relocate {σ : Pos → Pos} (hσ : Moves σ) (text : List Char) (pos : Pos) :
    program text (σ pos) = (program text pos).map (List.map (Tree.relocate σ)) := by
  have hcontent : Reading.content ∘ Reading.relocate σ = List.map (Tree.relocate σ) ∘ Reading.content := by
    funext x
    unfold Reading.content Reading.relocate
    rw [Function.comp_apply, Function.comp_apply, List.filter_map]
    congr 1
    refine List.filter_congr fun tree _ => ?_
    rw [Function.comp_apply, relocate_isSeparator]
  unfold program Form.chosen Form.first
  rw [Form.reads_relocate hσ _ (by decide), List.find?_map, Option.map_map, Option.map_map, hcontent]
  rfl

/-! ### The tree of a text -/

theorem isItem_statements {tree : Tree} (h : IsItem tree) : tree.statements = [tree] := by
  cases hs : tree.isSeparator with
  | true =>
    obtain ⟨text, pos, rfl⟩ := Tree.eq_of_isSeparator hs
    rfl
  | false => exact shape_statements (h hs)

/-- What is gathered in one tree has the same statements. -/
theorem content_gathered {x : Reading} (h : Every IsItem x.kids) :
    ∃ tree, (x.gathered .statementList).kids = [tree] ∧ tree.content = x.content := by
  obtain ⟨kids, start, length⟩ := x
  rcases kids with _ | ⟨kid, _ | ⟨next, kids⟩⟩
  · exact ⟨_, rfl, rfl⟩
  · refine ⟨kid, rfl, ?_⟩
    unfold Tree.content
    rw [isItem_statements (h kid (by simp))]
    rfl
  · exact ⟨_, rfl, rfl⟩

/-- The tree of a text is that of the chosen reading. -/
theorem parse_eq_ok_iff {text : String} {tree : Tree} : parse text = .ok tree ↔
    ∃ x, (Form.rule .statements).first text.toList ⟨1, 1⟩ = some x ∧ x.kids = [tree] := by
  have hwhole : ∀ x ∈ (Form.rule .statements).reads text.toList ⟨1, 1⟩,
      (x.length + gapLength false (text.toList.drop x.length) == text.toList.length) =
        (afterGap (text.toList.drop x.length)).isEmpty := by
    intro x hx
    have hle := Form.reads_le hx
    have hgap := gapLength_le false (text.toList.drop x.length)
    have hafter := afterGap_length (text.toList.drop x.length)
    rw [List.length_drop] at hgap hafter
    rw [Bool.eq_iff_iff, beq_iff_eq, List.isEmpty_iff_length_eq_zero, hafter]
    omega
  have hreads : (Parser.rule Row.statements (rows text.toList ⟨1, 1⟩)).readings =
      (Form.rule .statements).reads text.toList ⟨1, 1⟩ := rfl
  have hkids : ∀ x ∈ (Form.rule .statements).reads text.toList ⟨1, 1⟩, One IsProgram x.kids :=
    leaves_statements _ (rows_sound _ _)
  unfold parse Form.first
  dsimp only
  rw [hreads, List.filter_congr hwhole, ← List.head?_filter]
  generalize hfilter : List.filter _ _ = found
  cases found with
  | nil => simp
  | cons x found =>
    have hx : x ∈ (Form.rule .statements).reads text.toList ⟨1, 1⟩ := by
      refine List.mem_of_mem_filter (p := fun x => (afterGap (text.toList.drop x.length)).isEmpty) ?_
      rw [hfilter]
      exact List.mem_cons_self ..
    obtain ⟨kid, hkid, -⟩ := hkids x hx
    rw [List.flatMap_cons, hkid]
    simp [hkid]

theorem first_statements (text : List Char) (pos : Pos) : (Form.rule .statements).first text pos =
    ((Form.either [Tail.more.list, Tail.alone.list, .many .separator]).first text pos).map
      (Reading.gathered .statementList) := by
  rw [Form.first_rule]
  unfold Form.first
  change (List.map _ _).find? _ = _
  rw [List.find?_map]
  rfl

/-- A text has the statements of its tree. -/
theorem program_eq_some_iff {text : String} {trees : List Tree} :
    program text.toList ⟨1, 1⟩ = some trees ↔ ∃ tree, parse text = .ok tree ∧ tree.content = trees := by
  have hitems {x : Reading} (hx : (Form.either [Tail.more.list, Tail.alone.list,
      .many .separator]).first text.toList ⟨1, 1⟩ = some x) : Every IsItem x.kids :=
    leaves_items _ (rows_sound _ _) x (List.mem_of_find?_eq_some hx)
  unfold program Form.chosen
  simp only [parse_eq_ok_iff, first_statements, Option.map_eq_some_iff]
  constructor
  · rintro ⟨x, hx, rfl⟩
    obtain ⟨tree, hkids, hcontent⟩ := content_gathered (hitems hx)
    exact ⟨tree, ⟨_, ⟨x, hx, rfl⟩, hkids⟩, hcontent⟩
  · rintro ⟨tree, ⟨_, ⟨x, hx, rfl⟩, htree⟩, rfl⟩
    obtain ⟨other, hkids, hcontent⟩ := content_gathered (hitems hx)
    rw [hkids] at htree
    cases htree
    exact ⟨x, hx, hcontent.symm⟩

/-- All parentheses of a program are closed. -/
theorem nesting_of_parse {text : String} {tree : Tree} (h : parse text = .ok tree) :
    nesting text.toList = 0 := by
  obtain ⟨x, hx, -⟩ := parse_eq_ok_iff.mp h
  have hend : afterGap (text.toList.drop x.length) = [] := by
    simpa using List.find?_some hx
  have hleads := (Form.reads_follows (List.mem_of_find?_eq_some hx)).1
  rw [hleads.nesting_eq rfl, ← nesting_gap, hend]
  rfl

end DecimalScript.Grammar
