import DecimalScript.Proofs.Form
import DecimalScript.Proofs.Shape
import Mathlib

/-! The readings of a form at a place, and the ways that it leads from there. A rule has the
readings of its form, although a place is filled rule by rule; every reading is a way,
and every way has a reading of its length. -/

namespace DecimalScript.Grammar

open Grammar.Parser

variable {f g : Form} {text rest : List Char} {rs later : List Row} {x : Reading}

/-! ### Forms that may read nothing -/

namespace Form

mutual

/-- Whether the form may read nothing. -/
def nullable : Form → Bool
  | .lexeme _ kind => !kind.isProper
  | .rule r => r == .statements
  | .pair f g => nullable f && nullable g
  | .either forms => anyNullable forms
  | .many _ => true
  | .node _ f | .grouped _ f => nullable f

def anyNullable : List Form → Bool
  | [] => false
  | f :: rest => nullable f || anyNullable rest

end

mutual

/-- The rules that are asked for at the place where the form begins. -/
def leading : Form → List Rule
  | .lexeme _ _ => []
  | .rule r => [r]
  | .pair f g => leading f ++ if nullable f then leading g else []
  | .either forms => allLeading forms
  | .many f | .node _ f | .grouped _ f => leading f

def allLeading : List Form → List Rule
  | [] => []
  | f :: rest => leading f ++ allLeading rest

end

mutual

/-- Nothing is repeated that may read nothing. -/
def isProper : Form → Bool
  | .lexeme _ _ | .rule _ => true
  | .pair f g => isProper f && isProper g
  | .either forms => allProper forms
  | .many f => !nullable f && isProper f
  | .node _ f | .grouped _ f => isProper f

def allProper : List Form → Bool
  | [] => true
  | f :: rest => isProper f && allProper rest

end

theorem anyNullable_eq_false {forms : List Form} (h : anyNullable forms = false) :
    ∀ f ∈ forms, f.nullable = false := by
  induction forms with
  | nil => simp
  | cons f rest ih =>
    rw [anyNullable, Bool.or_eq_false_iff] at h
    exact List.forall_mem_cons.mpr ⟨h.1, ih h.2⟩

theorem mem_allLeading {forms : List Form} {r : Rule} (hf : f ∈ forms) (h : r ∈ f.leading) :
    r ∈ allLeading forms := by
  induction forms with
  | nil => cases hf
  | cons g rest ih =>
    rw [allLeading, List.mem_append]
    rcases List.mem_cons.mp hf with rfl | hf
    · exact .inl h
    · exact .inr (ih hf)

theorem isProper_of_mem {forms : List Form} (h : allProper forms) (hf : f ∈ forms) : f.isProper := by
  induction forms with
  | nil => cases hf
  | cons g rest ih =>
    rw [allProper, Bool.and_eq_true] at h
    rcases List.mem_cons.mp hf with rfl | hf
    · exact h.1
    · exact ih h.2 hf

end Form

theorem Rule.nullable_form (r : Rule) : r.form.nullable = (r == .statements) := by
  cases r <;> decide

theorem Rule.isProper_form (r : Rule) : r.form.isProper := by
  cases r <;> decide

/-! ### Ways through a text -/

/-- A way leads to a rest of the text. -/
theorem Leads.suffix (h : Leads Lexes f text rest) : rest <:+ text := by
  induction h with
  | lexeme h =>
    obtain ⟨n, _, rfl⟩ := h
    exact (List.drop_suffix _ _).trans (List.drop_suffix _ _)
  | stop => exact List.suffix_refl _
  | pair _ _ ihf ihg => exact ihg.trans ihf
  | again _ _ ihf ihg => exact ihg.trans ihf
  | rule _ ih | either _ _ ih | node _ ih | grouped _ ih => exact ih

theorem afterGap_length (text : List Char) :
    (afterGap text).length = text.length - gapLength false text := List.length_drop

/-- What cannot read nothing takes a character. -/
theorem Leads.length_lt (h : Leads Lexes f text rest) (hf : f.nullable = false) :
    rest.length < text.length := by
  induction h with
  | lexeme h =>
    obtain ⟨n, hn, rfl⟩ := h
    have hpos := Kind.lexeme_pos (by simpa [Form.nullable] using hf) hn
    have hle := Kind.lexeme_le hn
    rw [afterGap_length] at hle
    rw [List.length_drop, afterGap_length]
    omega
  | stop | again => cases hf
  | pair h₁ h₂ ihf ihg =>
    have hle₁ := h₁.suffix.length_le
    have hle₂ := h₂.suffix.length_le
    rw [Form.nullable, Bool.and_eq_false_iff] at hf
    rcases hf with hf | hf
    · have := ihf hf
      omega
    · have := ihg hf
      omega
  | rule _ ih =>
    refine ih ?_
    rw [Rule.nullable_form]
    exact hf
  | either hm _ ih => exact ih (Form.anyNullable_eq_false hf _ hm)
  | node _ ih | grouped _ ih => exact ih hf

/-! ### Readings are ways -/

/-- The rows belong to the places of the text, one after the other. -/
def Spaced (rs : List Row) (text : List Char) : Prop :=
  ∀ k row, rs[k]? = some row → row.rest = text.drop k

theorem Spaced.drop (h : Spaced rs text) (n : Nat) : Spaced (rs.drop n) (text.drop n) := by
  intro k row hk
  rw [List.getElem?_drop] at hk
  rw [h _ row hk, List.drop_drop]

/-- The reading is a way of the form. -/
def Reading.Follows (x : Reading) (f : Form) (text : List Char) : Prop :=
  Leads Lexes f text (text.drop x.length) ∧ x.length ≤ text.length

theorem Reading.Follows.pos (h : x.Follows f text) (hf : f.nullable = false) : 0 < x.length := by
  have hlt := h.1.length_lt hf
  rw [List.length_drop] at hlt
  omega

/-- All readings of rules in the row are ways of them. -/
def Row.Honest (row : Row) : Prop :=
  ∀ (r : Rule) (x : Reading), x ∈ (r.field row).get.readings → x.Follows (.rule r) row.rest

theorem Reading.Follows.append {y : Reading} (hx : x.Follows f text)
    (hy : y.Follows g (text.drop x.length)) : (x.append y).Follows (.pair f g) text := by
  have hle := hy.2
  rw [List.length_drop] at hle
  refine ⟨.pair hx.1 ?_, ?_⟩
  · change Leads Lexes g _ (text.drop (x.length + y.length))
    rw [← List.drop_drop]
    exact hy.1
  · have := hx.2
    change x.length + y.length ≤ _
    omega

theorem follows_lexed {terminal : Option Terminal} {kind : Kind} (hs : Spaced rs text)
    (hx : x ∈ (lexed kind.lexeme (leaves terminal) rs).readings) :
    x.Follows (.lexeme terminal kind) text := by
  cases rs with
  | nil => cases hx
  | cons row later =>
    have hrow : row.rest = text := hs 0 row rfl
    unfold lexed at hx
    dsimp only at hx
    rw [hrow] at hx
    split at hx
    · cases hx
    · rename_i here others hdrop
      have hhere : here.rest = afterGap text := by
        refine hs (gapLength false text) here ?_
        have hget : (List.drop (gapLength false text) (row :: later))[0]? = some here := by
          rw [hdrop]
          rfl
        rwa [List.getElem?_drop] at hget
      rw [hhere] at hx
      split at hx
      · cases hx
      · rename_i n hn
        obtain rfl := List.mem_singleton.mp hx
        have hle := Kind.lexeme_le hn
        have hgap := gapLength_le false text
        rw [afterGap_length] at hle
        refine ⟨.lexeme ⟨n, hn, ?_⟩, ?_⟩
        · dsimp only
          rw [← List.drop_drop]
          rfl
        · dsimp only
          omega

theorem follows_atMost {p : Parser}
    (hp : ∀ {rs : List Row} {text : List Char} {x : Reading}, Spaced rs text →
      (∀ row ∈ rs, row.Honest) → x ∈ (p rs).readings → x.Follows f text) (limit : Nat)
    (hs : Spaced rs text) (hh : ∀ row ∈ rs, row.Honest) (hx : x ∈ (atMost p limit rs).readings) :
    x.Follows (.many f) text := by
  induction limit generalizing rs text x with
  | zero =>
    obtain rfl := List.mem_singleton.mp hx
    exact ⟨.stop, Nat.zero_le _⟩
  | succ limit ih =>
    obtain ⟨q, hq, hx⟩ := mem_choice hx
    simp only [List.mem_cons, List.not_mem_nil, or_false] at hq
    rcases hq with rfl | rfl
    · obtain rfl := List.mem_singleton.mp hx
      exact ⟨.stop, Nat.zero_le _⟩
    · obtain ⟨a, ha, b, hb, rfl⟩ := mem_followedBy hx
      have hfirst := hp hs hh ha
      have hrest := ih (hs.drop a.length) (fun row hr => hh row (List.mem_of_mem_drop hr)) hb
      obtain ⟨hway, hle⟩ := hfirst.append hrest
      cases hway with
      | pair h₁ h₂ => exact ⟨.again h₁ h₂, hle⟩

/-- Every reading of a form is a way of it. -/
theorem parser_follows (f : Form) (hs : Spaced rs text) (hh : ∀ row ∈ rs, row.Honest)
    (hx : x ∈ (f.parser rs).readings) : x.Follows f text := by
  induction f using Form.parts_induction generalizing rs text x with
  | lexeme terminal kind => exact follows_lexed hs hx
  | rule r =>
    cases rs with
    | nil => cases hx
    | cons row later =>
      have hrow := hh row (List.mem_cons_self ..) r x hx
      rwa [hs 0 row rfl] at hrow
  | pair f g ihf ihg =>
    obtain ⟨a, ha, b, hb, rfl⟩ := mem_followedBy hx
    exact (ihf hs hh ha).append
      (ihg (hs.drop a.length) (fun row hr => hh row (List.mem_of_mem_drop hr)) hb)
  | either forms ih =>
    obtain ⟨p, hp, hx⟩ := mem_choice hx
    rw [Form.parsers_eq] at hp
    obtain ⟨f, hf, rfl⟩ := List.mem_map.mp hp
    have := ih f hf hs hh hx
    exact ⟨.either hf this.1, this.2⟩
  | many f ih => exact follows_atMost ih _ hs hh hx
  | node label f ih =>
    obtain ⟨y, hy, rfl⟩ := List.mem_map.mp hx
    have := ih hs hh hy
    exact ⟨.node this.1, this.2⟩
  | grouped label f ih =>
    obtain ⟨y, hy, rfl⟩ := List.mem_map.mp hx
    have := ih hs hh hy
    exact ⟨.grouped this.1, this.2⟩

/-! ### How a place is filled -/

/-- The number of rules that a place has before the rule. -/
def Rule.rank : Rule → Nat
  | .atom => 0
  | .unary => 1
  | .power => 2
  | .product => 3
  | .sum => 4
  | .comparison => 5
  | .negation => 6
  | .conjunction => 7
  | .disjunction => 8
  | .conditional => 9
  | .expr => 10
  | .statement => 11
  | .statements => 12

theorem Rule.leading_rank (r : Rule) : ∀ l ∈ r.form.leading, l.rank < r.rank := by
  cases r <;> decide

/-- The rule with so many others before it. -/
def Rule.ofRank : Nat → Rule
  | 0 => .atom
  | 1 => .unary
  | 2 => .power
  | 3 => .product
  | 4 => .sum
  | 5 => .comparison
  | 6 => .negation
  | 7 => .conjunction
  | 8 => .disjunction
  | 9 => .conditional
  | 10 => .expr
  | 11 => .statement
  | _ => .statements

/-- The row with the parse of one more rule. -/
def Row.enter (later : List Row) (row : Row) : Rule → Row
  | .atom => { row with atom := ⟨fun _ => Grammar.atom (row :: later)⟩ }
  | .unary => { row with unary := ⟨fun _ => Grammar.unary (row :: later)⟩ }
  | .power => { row with power := ⟨fun _ => Grammar.power (row :: later)⟩ }
  | .product => { row with product := ⟨fun _ => Grammar.product (row :: later)⟩ }
  | .sum => { row with sum := ⟨fun _ => Grammar.sum (row :: later)⟩ }
  | .comparison => { row with comparison := ⟨fun _ => Grammar.comparison (row :: later)⟩ }
  | .negation => { row with negation := ⟨fun _ => Grammar.negation (row :: later)⟩ }
  | .conjunction => { row with conjunction := ⟨fun _ => Grammar.conjunction (row :: later)⟩ }
  | .disjunction => { row with disjunction := ⟨fun _ => Grammar.disjunction (row :: later)⟩ }
  | .conditional => { row with conditional := ⟨fun _ => Grammar.conditional (row :: later)⟩ }
  | .expr => { row with expr := ⟨fun _ => Grammar.expr (row :: later)⟩ }
  | .statement => { row with statement := ⟨fun _ => Grammar.statement (row :: later)⟩ }
  | .statements => { row with statements := ⟨fun _ => Grammar.statements (row :: later)⟩ }

theorem Row.enter_field (later : List Row) (row : Row) (l r : Rule) :
    (l.field (row.enter later r)).get =
      if l = r then r.form.parser (row :: later) else (l.field row).get := by
  rw [Rule.parser_form]
  cases l <;> cases r <;> rfl

/-- The row of a place with its first rules. -/
def stage (rest : List Char) (pos : Pos) (later : List Row) : Nat → Row
  | 0 => { rest, pos }
  | n + 1 => (stage rest pos later n).enter later (Rule.ofRank n)

section Stage
variable (rest : List Char) (pos : Pos) (later : List Row)

theorem stage_rest (n : Nat) : (stage rest pos later n).rest = rest := by
  induction n with
  | zero => rfl
  | succ n ih =>
    rw [stage]
    cases Rule.ofRank n <;> exact ih

theorem stage_pos (n : Nat) : (stage rest pos later n).pos = pos := by
  induction n with
  | zero => rfl
  | succ n ih =>
    rw [stage]
    cases Rule.ofRank n <;> exact ih

theorem rank_ofRank {n : Nat} (h : n < 13) : (Rule.ofRank n).rank = n := by
  interval_cases n <;> rfl

theorem ofRank_rank (r : Rule) : Rule.ofRank r.rank = r := by
  cases r <;> rfl

theorem rank_lt (r : Rule) : r.rank < 13 := by
  cases r <;> decide

/-- Each rule was read in the row with the rules before it, and later rules have no parse yet. -/
theorem stage_field {n : Nat} (hn : n ≤ 13) (l : Rule) :
    (l.field (stage rest pos later n)).get = if l.rank < n then
      l.form.parser (stage rest pos later l.rank :: later) else .nothing := by
  induction n with
  | zero =>
    rw [if_neg (Nat.not_lt_zero _)]
    cases l <;> rfl
  | succ n ih =>
    rw [stage, Row.enter_field, ih (by omega)]
    by_cases hl : l = Rule.ofRank n
    · have hrank : l.rank = n := hl ▸ rank_ofRank (by omega)
      rw [if_pos hl, if_pos (by omega), hrank, ← hl]
    · have hrank : l.rank ≠ n := by
        rintro rfl
        exact hl (ofRank_rank l).symm
      rw [if_neg hl]
      by_cases hlt : l.rank < n
      · rw [if_pos hlt, if_pos (by omega)]
      · rw [if_neg hlt, if_neg (by omega)]

theorem rowAt_eq_stage : rowAt rest pos later = stage rest pos later 13 := by
  unfold rowAt
  extract_lets r₀ r₁ r₂ r₃ r₄ r₅ r₆ r₇ r₈ r₉ r₁₀ r₁₁ r₁₂
  have h₁ : r₁ = stage rest pos later 1 := rfl
  have h₂ : r₂ = stage rest pos later 2 := congrArg (Row.enter later · .unary) h₁
  have h₃ : r₃ = stage rest pos later 3 := congrArg (Row.enter later · .power) h₂
  have h₄ : r₄ = stage rest pos later 4 := congrArg (Row.enter later · .product) h₃
  have h₅ : r₅ = stage rest pos later 5 := congrArg (Row.enter later · .sum) h₄
  have h₆ : r₆ = stage rest pos later 6 := congrArg (Row.enter later · .comparison) h₅
  have h₇ : r₇ = stage rest pos later 7 := congrArg (Row.enter later · .negation) h₆
  have h₈ : r₈ = stage rest pos later 8 := congrArg (Row.enter later · .conjunction) h₇
  have h₉ : r₉ = stage rest pos later 9 := congrArg (Row.enter later · .disjunction) h₈
  have h₁₀ : r₁₀ = stage rest pos later 10 := congrArg (Row.enter later · .conditional) h₉
  have h₁₁ : r₁₁ = stage rest pos later 11 := congrArg (Row.enter later · .expr) h₁₀
  have h₁₂ : r₁₂ = stage rest pos later 12 := congrArg (Row.enter later · .statement) h₁₁
  exact congrArg (Row.enter later · .statements) h₁₂

/-- A rule is read in the row with the rules before it. -/
theorem rowAt_field (r : Rule) : (r.field (rowAt rest pos later)).get =
    r.form.parser (stage rest pos later r.rank :: later) := by
  rw [rowAt_eq_stage, stage_field rest pos later le_rfl, if_pos (rank_lt r)]

/-- The rules before it have their parses there already. -/
theorem stage_early {l r : Rule} (h : l.rank < r.rank) :
    (l.field (stage rest pos later r.rank)).get = (l.field (rowAt rest pos later)).get := by
  rw [rowAt_field, stage_field rest pos later (rank_lt r).le, if_pos h]

end Stage

theorem spaced_rows (text : List Char) (pos : Pos) : Spaced (rows text pos) text := by
  induction text generalizing pos with
  | nil =>
    intro k row hk
    cases k with
    | zero => cases hk; rfl
    | succ k => cases hk
  | cons c rest ih =>
    intro k row hk
    cases k with
    | zero => cases hk; rfl
    | succ k => exact ih (pos.after c) k row hk

/-- A place is honest if all later ones are: its rules are read one after the other. -/
theorem rowAt_honest {pos : Pos} (hs : Spaced (rowAt text pos later :: later) text)
    (hl : ∀ row ∈ later, row.Honest) : (rowAt text pos later).Honest := by
  suffices h : ∀ n, ∀ r : Rule, r.rank < n → ∀ x ∈ (r.field (rowAt text pos later)).get.readings,
      x.Follows (.rule r) text by
    exact fun r x hx => h _ r (Nat.lt_succ_self _) x hx
  intro n
  induction n with
  | zero => exact fun r hr => absurd hr (Nat.not_lt_zero _)
  | succ n ih =>
    intro r hr x hx
    rw [rowAt_field] at hx
    have hrow := stage_rest text pos later r.rank
    have hhonest : (stage text pos later r.rank).Honest := by
      intro l y hy
      rw [hrow]
      by_cases hlr : l.rank < r.rank
      · rw [stage_early text pos later hlr] at hy
        exact ih l (by omega) y hy
      · rw [stage_field text pos later (rank_lt r).le, if_neg hlr] at hy
        cases hy
    have hspaced : Spaced (stage text pos later r.rank :: later) text := by
      intro k other hk
      cases k with
      | zero => cases hk; exact hrow
      | succ k => exact hs (k + 1) other hk
    have hfollows := parser_follows r.form hspaced (List.forall_mem_cons.mpr ⟨hhonest, hl⟩) hx
    exact ⟨.rule hfollows.1, hfollows.2⟩

theorem rows_honest (text : List Char) (pos : Pos) : ∀ row ∈ rows text pos, row.Honest := by
  induction text generalizing pos with
  | nil =>
    have hhonest := rowAt_honest (spaced_rows [] pos) (by simp)
    exact List.forall_mem_cons.mpr ⟨hhonest, by simp⟩
  | cons c rest ih =>
    have hhonest := rowAt_honest (spaced_rows (c :: rest) pos) (ih (pos.after c))
    exact List.forall_mem_cons.mpr ⟨hhonest, ih (pos.after c)⟩

/-! ### The readings at a place -/

/-- The readings of a form at a place of a text. -/
def Form.reads (f : Form) (text : List Char) (pos : Pos) : List Reading :=
  (f.parser (rows text pos)).readings

theorem Form.reads_follows {pos : Pos} (h : x ∈ f.reads text pos) : x.Follows f text :=
  parser_follows f (spaced_rows text pos) (rows_honest text pos) h

theorem Form.reads_le {pos : Pos} (h : x ∈ f.reads text pos) : x.length ≤ text.length :=
  (Form.reads_follows h).2

/-- A form reads the same in two rows if the rules that it asks for first have the same parses. -/
theorem parser_congr (f : Form) {row row' : Row} (hs : Spaced (row :: later) text)
    (hh : ∀ other ∈ row :: later, other.Honest) (hrest : row.rest = row'.rest)
    (hpos : row.pos = row'.pos)
    (h : ∀ r ∈ f.leading, (r.field row).get = (r.field row').get) :
    (f.parser (row :: later)).readings = (f.parser (row' :: later)).readings := by
  -- the second form stands at the same place only if the first one may read nothing
  have next {f : Form} (p : Parser)
      (hp : f.nullable → (p (row :: later)).readings = (p (row' :: later)).readings) :
      ∀ x ∈ (f.parser (row :: later)).readings,
        (p ((row :: later).drop x.length)).readings = (p ((row' :: later).drop x.length)).readings := by
    intro x hx
    cases hn : f.nullable with
    | false =>
      obtain ⟨n, hn⟩ := Nat.exists_eq_succ_of_ne_zero ((parser_follows f hs hh hx).pos hn).ne'
      rw [hn]
      rfl
    | true =>
      cases hx : x.length with
      | zero => exact hp hn
      | succ n => rfl
  induction f using Form.parts_induction with
  | lexeme terminal kind =>
    change (lexed _ _ _).readings = (lexed _ _ _).readings
    unfold lexed
    dsimp only
    rw [hrest]
    cases gapLength false row'.rest with
    | zero =>
      rw [List.drop_zero, List.drop_zero]
      dsimp only
      rw [hrest, hpos]
    | succ n => rfl
  | rule r => exact congrArg Parse.readings (h r (by simp [Form.leading]))
  | pair f g ihf ihg =>
    have hf := ihf fun r hr => h r (by simp [Form.leading, hr])
    change (followedBy _ _ _).readings = (followedBy _ _ _).readings
    rw [readings_followedBy, readings_followedBy, ← hf]
    refine List.flatMap_congr fun x hx => ?_
    rw [next (f := f) g.parser (fun hn => ihg fun r hr => h r ?_) x hx]
    simp [Form.leading, hn, hr]
  | either forms ih =>
    change (choice _ _).readings = (choice _ _).readings
    rw [readings_choice, readings_choice, Form.parsers_eq, List.flatMap_map, List.flatMap_map]
    congr 1
    refine List.flatMap_congr fun f hf => ?_
    exact ih f hf fun r hr => h r (by rw [Form.leading]; exact Form.mem_allLeading hf hr)
  | many f ih =>
    have hf := ih h
    change (atMost f.parser (later.length + 1) _).readings =
      (atMost f.parser (later.length + 1) _).readings
    generalize later.length + 1 = limit
    induction limit with
    | zero => rfl
    | succ limit ihl =>
      rw [atMost, readings_choice, readings_choice]
      simp only [List.flatMap_cons, List.flatMap_nil, List.append_nil]
      rw [readings_followedBy, readings_followedBy, ← hf]
      congr 2
      refine List.flatMap_congr fun x hx => ?_
      rw [next (f := f) (atMost f.parser limit) (fun _ => ihl) x hx]
  | node label f ih =>
    change ((f.parser _).readings.map _) = ((f.parser _).readings.map _)
    rw [ih h]
  | grouped label f ih =>
    change ((f.parser _).readings.map _) = ((f.parser _).readings.map _)
    rw [ih h]

theorem exists_rows (text : List Char) (pos : Pos) :
    ∃ later, rows text pos = rowAt text pos later :: later := by
  cases text with
  | nil => exact ⟨[], rfl⟩
  | cons c rest => exact ⟨rows rest (pos.after c), rfl⟩

/-- A rule has the readings of its form. -/
theorem Form.reads_rule (r : Rule) (text : List Char) (pos : Pos) :
    (Form.rule r).reads text pos = r.form.reads text pos := by
  have hs := spaced_rows text pos
  have hh := rows_honest text pos
  unfold Form.reads
  obtain ⟨later, hrows⟩ := exists_rows text pos
  rw [hrows] at hs hh ⊢
  change (r.field (rowAt text pos later)).get.readings = _
  rw [rowAt_field]
  symm
  refine parser_congr r.form hs hh ?_ ?_ fun l hl => ?_
  · rw [stage_rest]
    exact hs 0 _ rfl
  · rw [stage_pos, rowAt_eq_stage, stage_pos]
  · rw [stage_early text pos later (r.leading_rank l hl)]

theorem rows_drop_le {n : Nat} (hn : n ≤ text.length) (pos : Pos) :
    (rows text pos).drop n = rows (text.drop n) (advance pos (text.take n)) := by
  have hdrop := rows_drop (text.take n) (text.drop n) pos
  rwa [List.take_append_drop, List.length_take_of_le hn] at hdrop

theorem Form.reads_pair (f g : Form) (text : List Char) (pos : Pos) :
    (Form.pair f g).reads text pos = (f.reads text pos).flatMap fun x =>
      (g.reads (text.drop x.length) (advance pos (text.take x.length))).map x.append := by
  unfold Form.reads
  change (followedBy _ _ _).readings = _
  rw [readings_followedBy]
  refine List.flatMap_congr fun x hx => ?_
  rw [rows_drop_le (Form.reads_le hx)]

theorem Form.reads_either (forms : List Form) (text : List Char) (pos : Pos) :
    (Form.either forms).reads text pos = distinct (forms.flatMap fun f => f.reads text pos) := by
  unfold Form.reads
  change (choice _ _).readings = _
  rw [readings_choice, Form.parsers_eq, List.flatMap_map]

theorem Form.reads_node (label : Label) (f : Form) (text : List Char) (pos : Pos) :
    (Form.node label f).reads text pos = (f.reads text pos).map (Reading.enclosed label) := rfl

/-- The reading as a node of its own, unless it is one tree. -/
def Reading.gathered (label : Label) (r : Reading) : Reading :=
  { r with kids := match r.kids with
    | [kid] => [kid]
    | kids => [.node label r.start kids] }

theorem Form.reads_grouped (label : Label) (f : Form) (text : List Char) (pos : Pos) :
    (Form.grouped label f).reads text pos = (f.reads text pos).map (Reading.gathered label) := rfl

/-- Nothing is read at the end of a text by what has to take a character. -/
theorem fails_at_end (hf : f.nullable = false) (pos : Pos) : Fails f.parser (rows [] pos) := by
  refine List.eq_nil_iff_forall_not_mem.mpr fun x hx => ?_
  have hpos := (Form.reads_follows hx).pos hf
  have hle : x.length ≤ 0 := Form.reads_le hx
  omega

theorem atMost_at_end (hf : f.nullable = false) (n : Nat) (pos : Pos) :
    (atMost f.parser n (rows [] pos)).readings = [.empty] := by
  cases n with
  | zero => rfl
  | succ n => exact readings_choice_first_single rfl [_] ((fails_at_end hf pos).followedBy _)

/-- How often a form may be repeated does not matter above the number of characters. -/
theorem atMost_stable (hf : f.nullable = false) {m n : Nat} (hm : text.length ≤ m)
    (hn : text.length ≤ n) (pos : Pos) :
    (atMost f.parser m (rows text pos)).readings = (atMost f.parser n (rows text pos)).readings := by
  induction m generalizing n text pos with
  | zero =>
    obtain rfl := List.length_eq_zero_iff.mp (Nat.le_zero.mp hm)
    rw [atMost_at_end hf, atMost_at_end hf]
  | succ m ih =>
    cases n with
    | zero =>
      obtain rfl := List.length_eq_zero_iff.mp (Nat.le_zero.mp hn)
      rw [atMost_at_end hf, atMost_at_end hf]
    | succ n =>
      rw [atMost, atMost, readings_choice, readings_choice]
      simp only [List.flatMap_cons, List.flatMap_nil, List.append_nil]
      rw [readings_followedBy, readings_followedBy]
      congr 2
      refine List.flatMap_congr fun x hx => ?_
      -- one repetition takes a character
      have hx : x ∈ f.reads text pos := hx
      have hpos := (Form.reads_follows hx).pos hf
      have hlength : (text.drop x.length).length = text.length - x.length := List.length_drop
      rw [rows_drop_le (Form.reads_le hx), ih (n := n) (by omega) (by omega)]

theorem Form.reads_many (hf : f.nullable = false) (text : List Char) (pos : Pos) :
    (Form.many f).reads text pos =
      distinct (.empty :: (Form.pair f (.many f)).reads text pos) := by
  have hmany (text : List Char) (pos : Pos) : (Form.many f).reads text pos =
      (atMost f.parser (text.length + 1) (rows text pos)).readings := by
    have hlength : (rows text pos).length = text.length + 1 := by
      induction text generalizing pos with
      | nil => rfl
      | cons c rest ih => exact congrArg (· + 1) (ih _)
    change (atMost f.parser (rows text pos).length (rows text pos)).readings = _
    rw [hlength]
  rw [hmany, atMost, readings_choice, Form.reads_pair]
  simp only [List.flatMap_cons, List.flatMap_nil, List.append_nil]
  rw [readings_followedBy]
  change distinct (.empty :: List.flatMap _ (f.reads text pos)) = _
  congr 2
  refine List.flatMap_congr fun x hx => ?_
  have hle : (text.drop x.length).length ≤ text.length := by simp
  rw [rows_drop_le (Form.reads_le hx), hmany, atMost_stable hf hle (Nat.le_succ _)]

theorem exists_mem_distinct {l : List Reading} (h : x ∈ l) :
    ∃ y ∈ distinct l, y.length = x.length := by
  induction l with
  | nil => cases h
  | cons r rest ih =>
    rw [distinct]
    by_cases hr : x.length = r.length
    · exact ⟨r, List.mem_cons_self .., hr.symm⟩
    · rcases List.mem_cons.mp h with rfl | h
      · exact absurd rfl hr
      · obtain ⟨y, hy, hlength⟩ := ih h
        refine ⟨y, List.mem_cons_of_mem _ (List.mem_filter.mpr ⟨hy, ?_⟩), hlength⟩
        simpa [hlength] using hr

/-- Every way of a form has a reading of its length. -/
theorem Leads.exists_reading (h : Leads Lexes f text rest) (hf : f.isProper) (pos : Pos) :
    ∃ x ∈ f.reads text pos, text.drop x.length = rest := by
  induction h generalizing pos with
  | @lexeme terminal kind s t h =>
    obtain ⟨n, hn, rfl⟩ := h
    refine ⟨⟨leaves terminal (String.ofList ((afterGap s).take n))
      (advance pos (s.take (gapLength false s))), some (advance pos (s.take (gapLength false s))),
      gapLength false s + n⟩, ?_, ?_⟩
    · unfold Form.reads
      change _ ∈ (lexed _ _ _).readings
      rw [(stands_rows s pos).lexed_eq, hn]
      exact List.mem_singleton_self _
    · rw [← List.drop_drop]
      rfl
  | @rule r s t _ ih =>
    rw [Form.reads_rule]
    exact ih r.isProper_form pos
  | @pair f g s m t _ _ ihf ihg =>
    rw [Form.isProper, Bool.and_eq_true] at hf
    obtain ⟨x, hx, rfl⟩ := ihf hf.1 pos
    obtain ⟨y, hy, rfl⟩ := ihg hf.2 (advance pos (s.take x.length))
    refine ⟨x.append y, ?_, (List.drop_drop ..).symm⟩
    rw [Form.reads_pair]
    exact List.mem_flatMap.mpr ⟨x, hx, List.mem_map.mpr ⟨y, hy, rfl⟩⟩
  | @either forms f s t hm _ ih =>
    obtain ⟨x, hx, rfl⟩ := ih (Form.isProper_of_mem hf hm) pos
    rw [Form.reads_either]
    have hmem : x ∈ forms.flatMap fun f => f.reads s pos := List.mem_flatMap.mpr ⟨f, hm, hx⟩
    obtain ⟨y, hy, hlength⟩ := exists_mem_distinct hmem
    exact ⟨y, hy, by rw [hlength]⟩
  | @stop f s =>
    rw [Form.isProper, Bool.and_eq_true, Bool.not_eq_true'] at hf
    rw [Form.reads_many hf.1]
    exact ⟨.empty, List.mem_cons_self .., rfl⟩
  | @again f s m t _ _ ihf ihg =>
    have hmany := hf
    rw [Form.isProper, Bool.and_eq_true, Bool.not_eq_true'] at hf
    obtain ⟨x, hx, rfl⟩ := ihf hf.2 pos
    obtain ⟨y, hy, rfl⟩ := ihg hmany (advance pos (s.take x.length))
    have hmem : x.append y ∈ (Form.pair f (.many f)).reads s pos := by
      rw [Form.reads_pair]
      exact List.mem_flatMap.mpr ⟨x, hx, List.mem_map.mpr ⟨y, hy, rfl⟩⟩
    obtain ⟨z, hz, hlength⟩ := exists_mem_distinct (List.mem_cons_of_mem .empty hmem)
    refine ⟨z, ?_, ?_⟩
    · rw [Form.reads_many hf.1]
      exact hz
    · rw [hlength]
      exact (List.drop_drop ..).symm
  | node _ ih =>
    obtain ⟨x, hx, rfl⟩ := ih hf pos
    exact ⟨_, List.mem_map.mpr ⟨x, hx, rfl⟩, rfl⟩
  | grouped _ ih =>
    obtain ⟨x, hx, rfl⟩ := ih hf pos
    exact ⟨_, List.mem_map.mpr ⟨x, hx, rfl⟩, rfl⟩

/-! ### The chosen reading -/

/-- The reading that is chosen among those that leave the rest. -/
def Form.pick (f : Form) (text rest : List Char) (pos : Pos) : Option Reading :=
  (f.reads text pos).find? fun x => x.length + rest.length == text.length

section Pick
variable {mid : List Char} {pos : Pos}

theorem drop_of_suffix (hs : rest <:+ text) {n : Nat} (hn : n + rest.length = text.length) :
    text.drop n = rest := by
  rw [List.suffix_iff_eq_drop.mp hs]
  congr 1
  omega

theorem Form.length_of_pick (h : f.pick text rest pos = some x) :
    x.length + rest.length = text.length := by
  simpa using List.find?_some h

theorem Form.leads_of_pick (hs : rest <:+ text) (h : f.pick text rest pos = some x) :
    Leads Lexes f text rest := by
  have hfollows := Form.reads_follows (List.mem_of_find?_eq_some h)
  rw [← drop_of_suffix hs (Form.length_of_pick h)]
  exact hfollows.1

theorem Form.pick_eq_none (hs : rest <:+ text) (h : ¬Leads Lexes f text rest) :
    f.pick text rest pos = none :=
  Option.eq_none_iff_forall_ne_some.mpr fun _ hp => h (Form.leads_of_pick hs hp)

/-- A search by length does not see which readings were dropped. -/
theorem find?_distinct (l : List Reading) (m n : Nat) :
    (distinct l).find? (fun x => x.length + m == n) = l.find? fun x => x.length + m == n := by
  induction l with
  | nil => rfl
  | cons r rest ih =>
    rw [distinct, List.find?_cons, List.find?_cons]
    cases hr : r.length + m == n with
    | true => rfl
    | false =>
      rw [List.find?_filter, ← ih]
      refine congrArg (fun q => (distinct rest).find? q) (funext fun y => ?_)
      -- what has the length of `r` is not looked for
      by_cases hy : y.length = r.length
      · rw [hy, hr]
        simp
      · rw [Bool.eq_iff_iff]
        simp [hy]

theorem Form.pick_rule (r : Rule) : (Form.rule r).pick text rest pos = r.form.pick text rest pos := by
  unfold Form.pick
  rw [Form.reads_rule]

theorem Form.pick_either (forms : List Form) :
    (Form.either forms).pick text rest pos = forms.findSome? fun f => f.pick text rest pos := by
  unfold Form.pick
  rw [Form.reads_either, find?_distinct]
  induction forms with
  | nil => rfl
  | cons f forms ih =>
    rw [List.flatMap_cons, List.find?_append, List.findSome?_cons, ih]
    cases (f.reads text pos).find? _ <;> rfl

theorem Form.pick_node (label : Label) :
    (Form.node label f).pick text rest pos = (f.pick text rest pos).map (Reading.enclosed label) := by
  unfold Form.pick
  rw [Form.reads_node, List.find?_map]
  rfl

theorem Form.pick_many_self (hf : f.nullable = false) :
    (Form.many f).pick text text pos = some .empty := by
  unfold Form.pick
  rw [Form.reads_many hf, find?_distinct]
  exact List.find?_cons_of_pos (by simp [Reading.empty])

theorem Form.pick_many (hf : f.nullable = false) (hlt : rest.length < text.length) :
    (Form.many f).pick text rest pos = (Form.pair f (.many f)).pick text rest pos := by
  unfold Form.pick
  rw [Form.reads_many hf, find?_distinct, List.find?_cons_of_neg]
  simpa [Reading.empty] using hlt.ne

/-- Where the first part of a pair can only end in one place, its chosen reading up to there is
taken. -/
theorem Form.pick_pair {y : Reading} (hm : mid <:+ text) (hr : rest <:+ mid)
    (hx : f.pick text mid pos = some x)
    (hy : g.pick mid rest (advance pos (text.take x.length)) = some y)
    (hunique : ∀ m, Leads Lexes f text m → Leads Lexes g m rest → m = mid) :
    (Form.pair f g).pick text rest pos = some (x.append y) := by
  obtain ⟨-, before, after, hreads, hbefore⟩ := List.find?_eq_some_iff_append.mp hx
  have hlength := Form.length_of_pick hx
  have hdrop := drop_of_suffix hm hlength
  unfold Form.pick
  rw [Form.reads_pair, List.find?_flatMap, hreads, List.findSome?_append]
  have hfirst : before.findSome? (fun z => ((g.reads (text.drop z.length)
      (advance pos (text.take z.length))).map z.append).find?
        fun x => x.length + rest.length == text.length) = none := by
    rw [List.findSome?_eq_none_iff]
    intro z hz
    have hmem : z ∈ f.reads text pos := by
      rw [hreads]
      exact List.mem_append_left _ hz
    rw [List.find?_map, Option.map_eq_none_iff, List.find?_eq_none]
    intro w hw hwn
    have hwn : z.length + w.length + rest.length = text.length := by
      simpa [Reading.append] using hwn
    obtain ⟨hleads, hle⟩ := Form.reads_follows hmem
    have hrest := (Form.reads_follows hw).1
    rw [List.drop_drop, drop_of_suffix (hr.trans hm) hwn] at hrest
    have hmid := congrArg List.length (hunique _ hleads hrest)
    rw [List.length_drop] at hmid
    have hne : z.length + mid.length ≠ text.length := by simpa using hbefore z hz
    omega
  rw [hfirst, Option.none_or, List.findSome?_cons, List.find?_map]
  have hhere : (g.reads (text.drop x.length) (advance pos (text.take x.length))).find?
      ((fun x => x.length + rest.length == text.length) ∘ x.append) = some y := by
    rw [hdrop, ← hy]
    unfold Form.pick
    congr 1
    funext w
    rw [Bool.eq_iff_iff]
    simp only [Function.comp_apply, Reading.append, beq_iff_eq]
    omega
  rw [hhere]
  rfl

theorem Form.pick_lexeme {terminal : Option Terminal} {kind : Kind} {n : Nat}
    (h : kind.lexeme (afterGap text) = some n) :
    ∃ p, (Form.lexeme terminal kind).pick text ((afterGap text).drop n) pos = some
      ⟨leaves terminal (String.ofList ((afterGap text).take n)) p, some p,
        gapLength false text + n⟩ := by
  refine ⟨advance pos (text.take (gapLength false text)), ?_⟩
  unfold Form.pick Form.reads
  change ((lexed _ _ _).readings).find? _ = _
  rw [(stands_rows text pos).lexed_eq, h]
  refine List.find?_cons_of_pos ?_
  have hgap := gapLength_le false text
  have hle := Kind.lexeme_le h
  have hlength := afterGap_length text
  rw [beq_iff_eq, List.length_drop]
  dsimp only
  omega

end Pick

end DecimalScript.Grammar
