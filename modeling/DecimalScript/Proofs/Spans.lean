import DecimalScript.Proofs.Expression
import Mathlib

/-! How far the rules can read in a text of words. A rule ends outside of the parentheses that it
opened and inside of those around it, and between them it passes no operator that binds
looser than it does. -/

namespace DecimalScript.Grammar

/-- The rule that a word outside parentheses belongs to. -/
def Word.rule (q : Spot) : Word → Rule
  | .op o => if q = .done then o.rule else .unary
  | .not => .negation
  | _ => .atom

/-- The word does not bind looser than the rule. -/
def strictly (r : Rule) (q : Spot) (w : Word) : Bool := (w.rule q).rank ≤ r.rank

/-- The same, but every rule may read `not`, which is a name too. -/
def loosely (r : Rule) (q : Spot) : Word → Bool
  | .not => true
  | w => strictly r q w

variable {r l : Rule} {q q' : Spot} {g : Bool} {w : Word} {ws vs us : List Word}
  {m rest text : List Char}

theorem loosely_iff : loosely r q w ↔ w = .not ∨ (w.rule q).rank ≤ r.rank := by
  cases w <;> simp [loosely, strictly]

theorem loosely_mono (h : l.rank ≤ r.rank) (q : Spot) (w : Word) (hw : loosely l q w) :
    loosely r q w :=
  loosely_iff.mpr ((loosely_iff.mp hw).imp_right fun hw => hw.trans h)

theorem strictly_loosely (q : Spot) (w : Word) (hw : strictly r q w) : loosely r q w :=
  loosely_iff.mpr (.inr (of_decide_eq_true hw))

/-- Behind `not` the walk goes on as where an operand is expected. -/
theorem next_negated {allowed : Spot → Word → Bool} (h : allowed .negated w = allowed .operand w)
    (d : Nat) : next allowed (.negated, d) w = next allowed (.operand, d) w := by
  unfold next
  dsimp only
  rw [h]
  cases w with
  | op o => cases o <;> rfl
  | _ => rfl

/-! ### Passing words -/

/-- The words up to the second list lead from one spot to another, with no parenthesis left open. -/
def Passes (r : Rule) (q q' : Spot) (ws vs : List Word) : Prop :=
  ∃ us, ws = us ++ vs ∧ walk (loosely r) (q, 0) us = some (q', 0)

theorem Passes.trans {q'' : Spot} (h : Passes r q q' ws vs) (h' : Passes r q' q'' vs us) :
    Passes r q q'' ws us := by
  obtain ⟨xs, rfl, hxs⟩ := h
  obtain ⟨ys, rfl, hys⟩ := h'
  refine ⟨xs ++ ys, (List.append_assoc ..).symm, ?_⟩
  rw [walk_append, hxs]
  exact hys

theorem Passes.mono (h : Passes l q q' ws vs) (hr : l.rank ≤ r.rank) : Passes r q q' ws vs := by
  obtain ⟨us, rfl, hus⟩ := h
  exact ⟨us, rfl, walk_mono (loosely_mono hr) hus⟩

theorem passes_word (h : next (loosely r) (q, 0) w = some (q', 0)) (vs : List Word) :
    Passes r q q' (w :: vs) vs := by
  refine ⟨[w], rfl, ?_⟩
  rw [walk, h]
  rfl

/-- Behind `not` words are passed as where an operand is expected. -/
theorem Passes.negated (h : Passes r .operand q ws vs) (hq : q ≠ .operand) :
    Passes r .negated q ws vs := by
  obtain ⟨us, rfl, hus⟩ := h
  cases us with
  | nil =>
    cases hus
    exact absurd rfl hq
  | cons w us =>
    refine ⟨w :: us, rfl, ?_⟩
    rw [← hus, walk, walk, next_negated]
    cases w <;> rfl

/-- The words can go on to the end of an expression, inside enough parentheses. -/
def Valid (q : Spot) (ws : List Word) : Prop := ∃ d n, walk freely (q, d) ws = some (.done, n)

theorem Valid.passes (h : Valid q ws) (hp : Passes r q q' ws vs) : Valid q' vs := by
  obtain ⟨us, rfl, hus⟩ := hp
  obtain ⟨d, n, hd⟩ := h
  refine ⟨d, n, ?_⟩
  have hraise := walk_raise (n := d) (.inr fun _ _ _ => rfl) (walk_freely hus)
  rw [Nat.zero_add] at hraise
  rw [walk_append, hraise] at hd
  exact hd

theorem Valid.next (h : Valid q (w :: ws)) :
    ∃ q' d d', q.next d w = some (q', d') ∧ Valid q' ws := by
  obtain ⟨d, n, hd⟩ := h
  obtain ⟨⟨q', d'⟩, hnext, hrest⟩ := Option.bind_eq_some_iff.mp hd
  exact ⟨q', d, d', next_eq hnext, d', n, hrest⟩

theorem Valid.of_negated (h : Valid .negated ws) : Valid .operand ws := by
  obtain ⟨d, n, hd⟩ := h
  refine ⟨d, n, ?_⟩
  cases ws with
  | nil => cases hd
  | cons w ws =>
    rw [← hd, walk, walk, next_negated rfl]

/-- An operator that does not bind looser than the rule, or a sign, is passed. -/
theorem Valid.operator {o : Operator} (h : Valid q (.op o :: vs)) (hq : q ≠ .operand)
    (ho : o.rule.rank ≤ r.rank) (hr : Rule.unary.rank ≤ r.rank) :
    Passes r q .operand (.op o :: vs) vs ∧ Valid .operand vs := by
  obtain ⟨q', d, d', hnext, hrest⟩ := h.next
  cases q with
  | operand => exact absurd rfl hq
  | done =>
    cases hnext
    refine ⟨passes_word ?_ vs, hrest⟩
    have hallowed : loosely r .done (.op o) := loosely_iff.mpr (.inr ho)
    simp [Grammar.next, hallowed, Spot.next]
  | negated =>
    have hallowed : loosely r .negated (.op o) := loosely_iff.mpr (.inr hr)
    cases o <;> cases hnext <;> refine ⟨passes_word ?_ vs, hrest⟩ <;>
      simp [Grammar.next, hallowed, Spot.next]

/-- A rule in parentheses. -/
theorem Passes.group (h : Passes l .operand q' vs (.closing :: us)) (hv : Valid q' (.closing :: us))
    (hq : q ≠ .done) : Passes r q .done (.opening :: vs) us := by
  obtain ⟨q₁, d, d', hnext, -⟩ := hv.next
  obtain ⟨xs, rfl, hxs⟩ := h
  obtain rfl : q' = .done := by
    cases q' with
    | done => rfl
    | _ => cases hnext
  refine ⟨.opening :: (xs ++ [.closing]), by simp, ?_⟩
  have hopening : Grammar.next (loosely r) (q, 0) .opening = some (.operand, 1) := by
    have hallowed : loosely r q .opening := loosely_iff.mpr (.inr (Nat.zero_le _))
    cases q with
    | done => exact absurd rfl hq
    | _ => simp [Grammar.next, hallowed, Spot.next]
  have hinside : walk (loosely r) (.operand, 0 + 1) xs = some (.done, 0 + 1) :=
    walk_raise (.inl one_ne_zero) hxs
  rw [walk, hopening]
  change walk (loosely r) (.operand, 0 + 1) (xs ++ [.closing]) = _
  rw [walk_append, hinside]
  rfl

/-! ### What a rule spans -/

/-- Whether the word may be the first one of an operand. The others are left of a word that is
not read whole. -/
def Word.begins : Word → Bool
  | .op .star | .op .assign => false
  | _ => true

/-- The words up to the rest are passed by the rule. -/
def Arrives (r : Rule) (q : Spot) (ws : List Word) (rest : List Char) : Prop :=
  ∃ vs q', rest = spell false vs ∧ q' ≠ .operand ∧ Passes r q q' ws vs

def Spans (r : Rule) (text rest : List Char) : Prop :=
  ∀ g ws, text = spell g ws → (∃ w vs, ws = w :: vs ∧ w.begins) ∧ (Valid .operand ws → Arrives r .operand ws rest)

/-- The places that rules lead to are spanned by them, or nothing is read by `statements`. -/
def Spanning (rules : Rule → List Char → List Char → Prop) : Prop :=
  ∀ r text rest, rules r text rest → Spans r text rest ∨ r = .statements ∧ rest = text

section Spans
variable {rules : Rule → List Char → List Char → Prop}

theorem Spanning.spans (h : Spanning rules) (hr : r ≠ .statements) (hl : rules r text rest) :
    Spans r text rest :=
  (h r text rest hl).resolve_right fun hs => hr hs.1

theorem Spans.mono (h : Spans l text rest) (hr : l.rank ≤ r.rank) : Spans r text rest := by
  intro g ws htext
  obtain ⟨hbegins, hends⟩ := h g ws htext
  refine ⟨hbegins, fun hv => ?_⟩
  obtain ⟨vs, q, hrest, hq, hp⟩ := hends hv
  exact ⟨vs, q, hrest, hq, hp.mono hr⟩

def Rule.operator : Rule → Form
  | .product => .either [.token .star "*", .token .slash "/", .token .mod "mod"]
  | .sum => .sign
  | .comparison => .lexeme (some .compOp) .comparison
  | .conjunction => .token .and "and"
  | _ => .token .or "or"

theorem Rule.form_chain (h : r.operand = some l) : r.form = .chain r.label l r.operator := by
  cases r <;> cases h <;> rfl

theorem reads_sign (h : Form.sign.Reads Lexes rules (spell g ws) m) :
    ∃ o vs, o.rule = .sum ∧ ws = .op o :: vs ∧ m = spell false vs := by
  rcases h with h | h | h
  · obtain ⟨vs, rfl, rfl⟩ := lexes_lone (w := .op .plus) rfl rfl (by decide) h
    exact ⟨_, vs, rfl, rfl, rfl⟩
  · obtain ⟨vs, rfl, rfl⟩ := lexes_lone (w := .op .minus) rfl rfl (by decide) h
    exact ⟨_, vs, rfl, rfl, rfl⟩
  · cases h

/-- An operator is a word of its chain, or a star where `**` stands. -/
theorem reads_operator (hr : r.operand = some l) (h : r.operator.Reads Lexes rules (spell g ws) m) :
    (∃ o vs, o.rule = r ∧ ws = .op o :: vs ∧ m = spell false vs) ∨
      ∃ vs, ws = .op .pow :: vs ∧ m = spell true (.op .star :: vs) := by
  cases r with
  | product =>
    rcases h with h | h | h | h
    · obtain ⟨vs, ⟨rfl, rfl⟩ | h⟩ := lexes_star h
      · exact .inl ⟨_, vs, rfl, rfl, rfl⟩
      · exact .inr ⟨vs, h⟩
    · obtain ⟨vs, rfl, rfl⟩ := lexes_lone (w := .op .slash) rfl rfl (by decide) h
      exact .inl ⟨_, vs, rfl, rfl, rfl⟩
    · obtain ⟨vs, rfl, rfl⟩ := lexes_lone (w := .op .mod) rfl rfl (by decide) h
      exact .inl ⟨_, vs, rfl, rfl, rfl⟩
    · cases h
  | sum => exact .inl (reads_sign h)
  | comparison => exact .inl (lexes_comparison h)
  | conjunction =>
    obtain ⟨vs, rfl, rfl⟩ := lexes_lone (w := .op .and) rfl rfl (by decide) h
    exact .inl ⟨_, vs, rfl, rfl, rfl⟩
  | disjunction =>
    obtain ⟨vs, rfl, rfl⟩ := lexes_lone (w := .op .or) rfl rfl (by decide) h
    exact .inl ⟨_, vs, rfl, rfl, rfl⟩
  | _ => cases hr

theorem Rule.rank_operand (hr : r.operand = some l) : Rule.unary.rank ≤ r.rank ∧ l.rank < r.rank := by
  cases r <;> cases hr <;> decide

theorem Rule.operand_ne (hr : r.operand = some l) : l ≠ .statements := by
  cases r <;> cases hr <;> decide

theorem spans_link (hs : Spanning rules) (hr : r.operand = some l) (hq : q ≠ .operand)
    (hv : Valid q ws)
    (h : (Form.pair r.operator (.rule l)).Reads Lexes rules (spell false ws) rest) :
    Arrives r q ws rest := by
  obtain ⟨m, hop, hl⟩ := h
  have hl := hs.spans (Rule.operand_ne hr) hl
  obtain ⟨hsign, hrank⟩ := Rule.rank_operand hr
  rcases reads_operator hr hop with ⟨o, vs, rfl, rfl, rfl⟩ | ⟨vs, -, rfl⟩
  · obtain ⟨hp, hv⟩ := hv.operator hq le_rfl hsign
    obtain ⟨us, q', hrest, hq', hus⟩ := (hl _ _ rfl).2 hv
    exact ⟨us, q', hrest, hq', hp.trans (hus.mono hrank.le)⟩
  · obtain ⟨⟨w, us, hw, hbegins⟩, -⟩ := hl _ _ rfl
    cases hw
    cases hbegins

theorem spans_links (hs : Spanning rules) (hr : r.operand = some l) (hq : q ≠ .operand)
    (hv : Valid q ws)
    (h : (Form.many (.pair r.operator (.rule l))).Reads Lexes rules (spell false ws) rest) :
    Arrives r q ws rest := by
  change Relation.ReflTransGen ((Form.pair r.operator (.rule l)).Reads Lexes rules)
    (spell false ws) rest at h
  generalize htext : spell false ws = text at h
  induction h using Relation.ReflTransGen.head_induction_on generalizing q ws with
  | refl => exact ⟨ws, q, htext.symm, hq, [], rfl, rfl⟩
  | head hlink _ ih =>
    obtain ⟨vs, q₁, rfl, hq₁, hp⟩ := spans_link hs hr hq hv (htext ▸ hlink)
    obtain ⟨us, q₂, hrest, hq₂, hp'⟩ := ih hq₁ (hv.passes hp) rfl
    exact ⟨us, q₂, hrest, hq₂, hp.trans hp'⟩

theorem spans_chain (hs : Spanning rules) (hr : r.operand = some l)
    (h : r.form.Reads Lexes rules text rest) : Spans r text rest := by
  obtain ⟨hsign, hrank⟩ := Rule.rank_operand hr
  rw [Rule.form_chain hr] at h
  rcases h with ⟨m, hfirst, m', hsecond, hmore⟩ | h | h
  · rintro g ws rfl
    obtain ⟨hbegins, hends⟩ := hs.spans (Rule.operand_ne hr) hfirst g ws rfl
    refine ⟨hbegins, fun hv => ?_⟩
    obtain ⟨vs, q, rfl, hq, hp⟩ := hends hv
    have hp := hp.mono hrank.le
    have hv := hv.passes hp
    obtain ⟨us, q', rfl, hq', hp'⟩ := spans_link hs hr hq hv hsecond
    obtain ⟨xs, q'', hrest, hq'', hp''⟩ := spans_links hs hr hq' (hv.passes hp') hmore
    exact ⟨xs, q'', hrest, hq'', hp.trans (hp'.trans hp'')⟩
  · exact (hs.spans (Rule.operand_ne hr) h).mono hrank.le
  · cases h

/-! ### The other rules -/

/-- One word that is the whole of an operand. -/
theorem arrives_word (h : next (loosely r) (q, 0) w = some (q', 0)) (hq : q' ≠ .operand)
    (vs : List Word) : Arrives r q (w :: vs) (spell false vs) :=
  ⟨vs, q', rfl, hq, passes_word h vs⟩

/-- Where a name is read and an operand is expected, a name or `not` stands. -/
theorem spans_name (h : Lexes .name (spell g ws) m) :
    ∃ w vs, ws = w :: vs ∧ w.begins ∧ m = spell false vs ∧ (Valid .operand ws →
      ∃ q, q ≠ .operand ∧ (q = .done ∨ q = .negated) ∧ ∀ r, Passes r .operand q ws vs) := by
  obtain ⟨w, vs, rfl, rfl, ⟨x, rfl⟩ | rfl | ⟨o, ho, rfl⟩⟩ := lexes_name h
  · refine ⟨_, vs, rfl, rfl, rfl, fun _ => ⟨.done, by decide, .inl rfl, fun r => passes_word ?_ vs⟩⟩
    simp [Grammar.next, loosely, strictly, Word.rule, Rule.rank, Spot.next]
  · refine ⟨_, vs, rfl, rfl, rfl, fun _ => ⟨.negated, by decide, .inr rfl, fun r => passes_word ?_ vs⟩⟩
    simp [Grammar.next, loosely, Spot.next]
  · refine ⟨_, vs, rfl, ?_, rfl, fun hv => ?_⟩
    · fin_cases ho <;> rfl
    · obtain ⟨q, d, d', hnext, -⟩ := hv.next
      fin_cases ho <;> cases hnext

theorem lexes_opening (h : Lexes (.spelled "(") (spell g ws) m) :
    ∃ vs, ws = .opening :: vs ∧ m = spell false vs := lexes_lone rfl rfl (by decide) h

theorem lexes_closing (h : Lexes (.spelled ")") (spell g ws) m) :
    ∃ vs, ws = .closing :: vs ∧ m = spell false vs := lexes_lone rfl rfl (by decide) h

/-- What is read between parentheses ends before the closing one. -/
theorem arrives_group {m' : List Char} (hq : q ≠ .done) (hv : Valid q (.opening :: ws))
    (hinner : Valid .operand ws → Arrives l .operand ws m') (hclose : Lexes (.spelled ")") m' rest) :
    Arrives r q (.opening :: ws) rest := by
  have hv' : Valid .operand ws := by
    obtain ⟨q', d, d', hnext, hv'⟩ := hv.next
    cases q with
    | done => exact absurd rfl hq
    | _ =>
      cases hnext
      exact hv'
  obtain ⟨vs, q', rfl, hq', hp⟩ := hinner hv'
  obtain ⟨us, rfl, rfl⟩ := lexes_closing hclose
  exact ⟨us, .done, rfl, by decide, hp.group (hv'.passes hp) hq⟩

theorem not_valid_closing : ¬Valid .operand (.closing :: ws) := by
  intro h
  obtain ⟨q', d, d', hnext, -⟩ := h.next
  cases hnext

theorem spans_call (hs : Spanning rules)
    (h : (Form.either [Form.enclosed .name (.node .argList (.listOf (.rule .expr))),
      .row .name [.word "(", .word ")"]]).Reads Lexes rules text rest) : Spans .atom text rest := by
  rintro g ws rfl
  rcases h with ⟨m, hname, m₁, hopen, m₂, ⟨m₃, hfirst, hmore⟩, hclose⟩ | ⟨m, hname, m₁, hopen, hclose⟩ | h
  · obtain ⟨w, vs, rfl, hbegins, rfl, hpass⟩ := spans_name hname
    obtain ⟨us, rfl, rfl⟩ := lexes_opening hopen
    refine ⟨⟨w, _, rfl, hbegins⟩, fun hv => ?_⟩
    obtain ⟨q, -, hq, hp⟩ := hpass hv
    have hv := hv.passes (hp .atom)
    have hq : q ≠ .done := by
      rintro rfl
      obtain ⟨q', d, d', hnext, -⟩ := hv.next
      cases hnext
    have hinner : Valid .operand us → Arrives .expr .operand us m₂ := by
      intro hv
      obtain ⟨xs, q', rfl, hq', hp'⟩ := (hs.spans (by decide) hfirst _ _ rfl).2 hv
      -- no comma follows
      rcases Relation.ReflTransGen.cases_head hmore with rfl | ⟨_, ⟨_, hcomma, -⟩, -⟩
      · exact ⟨xs, q', rfl, hq', hp'⟩
      · exact (lexes_absent (by decide) hcomma).elim
    obtain ⟨xs, q', hrest, hq', hp'⟩ := arrives_group (r := .atom) hq hv hinner hclose
    exact ⟨xs, q', hrest, hq', (hp .atom).trans hp'⟩
  · obtain ⟨w, vs, rfl, hbegins, rfl, hpass⟩ := spans_name hname
    obtain ⟨us, rfl, rfl⟩ := lexes_opening hopen
    obtain ⟨xs, rfl, rfl⟩ := lexes_closing hclose
    refine ⟨⟨w, _, rfl, hbegins⟩, fun hv => ?_⟩
    obtain ⟨q, -, hq, hp⟩ := hpass hv
    obtain ⟨q', d, d', hnext, hv⟩ := (hv.passes (hp .atom)).next
    rcases hq with rfl | rfl
    · cases hnext
    · cases hnext
      exact absurd hv not_valid_closing
  · cases h

theorem spans_atom (hs : Spanning rules) (h : Rule.atom.form.Reads Lexes rules text rest) :
    Spans .atom text rest := by
  rcases h with hnumber | hcall | hname | ⟨m, hopen, m', hinner, hclose⟩ | h
  · rintro g ws rfl
    obtain ⟨n, vs, rfl, rfl⟩ := lexes_number hnumber
    have hnext : next (loosely .atom) (.operand, 0) (.number n) = some (.done, 0) := rfl
    exact ⟨⟨_, vs, rfl, rfl⟩, fun _ => arrives_word hnext (by decide) vs⟩
  · exact spans_call hs hcall
  · rintro g ws rfl
    obtain ⟨w, vs, rfl, hbegins, rfl, hpass⟩ := spans_name hname
    refine ⟨⟨w, vs, rfl, hbegins⟩, fun hv => ?_⟩
    obtain ⟨q, hq, -, hp⟩ := hpass hv
    exact ⟨vs, q, rfl, hq, hp .atom⟩
  · rintro g ws rfl
    obtain ⟨vs, rfl, rfl⟩ := lexes_opening hopen
    exact ⟨⟨_, vs, rfl, rfl⟩, fun hv => arrives_group (by decide) hv
      (hs.spans (by decide) hinner _ _ rfl).2 hclose⟩
  · cases h

theorem spans_unary (hs : Spanning rules) (h : Rule.unary.form.Reads Lexes rules text rest) :
    Spans .unary text rest := by
  rcases h with ⟨m, hsign, hinner⟩ | h | h
  · rintro g ws rfl
    obtain ⟨o, vs, ho, rfl, rfl⟩ := reads_sign hsign
    have hsign : ∀ o : Operator, o.rule = .sum → (Word.op o).begins ∧
        next (loosely .unary) (.operand, 0) (.op o) = some (.operand, 0) := by
      intro o ho
      cases o <;> cases ho <;> exact ⟨rfl, rfl⟩
    obtain ⟨hbegins, hnext⟩ := hsign o ho
    refine ⟨⟨_, vs, rfl, hbegins⟩, fun hv => ?_⟩
    have hp := passes_word hnext vs
    obtain ⟨us, q, hrest, hq, hp'⟩ := (hs.spans (by decide) hinner _ _ rfl).2 (hv.passes hp)
    exact ⟨us, q, hrest, hq, hp.trans hp'⟩
  · exact (hs.spans (by decide) h).mono (by decide)
  · cases h

/-- What is read before an operator, and the operator. -/
theorem arrives_operator {m' : List Char} {o : Operator} (ho : (Word.op o).isLone)
    (hmem : o.text ∈ spellings) (hrank : o.rule.rank ≤ r.rank) (hl : l.rank ≤ r.rank)
    (hr : Rule.unary.rank ≤ r.rank) (hv : Valid .operand ws) (h : Arrives l .operand ws m)
    (hop : Lexes (.spelled o.text) m m') :
    ∃ us, m' = spell false us ∧ Passes r .operand .operand ws us ∧ Valid .operand us := by
  obtain ⟨vs, q, rfl, hq, hp⟩ := h
  have hp := hp.mono hl
  obtain ⟨us, rfl, rfl⟩ := lexes_lone ho rfl hmem hop
  obtain ⟨hp', hv'⟩ := (hv.passes hp).operator hq hrank hr
  exact ⟨us, rfl, hp.trans hp', hv'⟩

theorem spans_power (hs : Spanning rules) (h : Rule.power.form.Reads Lexes rules text rest) :
    Spans .power text rest := by
  rcases h with ⟨m, hbase, m', hpow, hexponent⟩ | h | h
  · rintro g ws rfl
    obtain ⟨hbegins, hends⟩ := hs.spans (by decide) hbase g ws rfl
    refine ⟨hbegins, fun hv => ?_⟩
    obtain ⟨us, rfl, hp, hv'⟩ := arrives_operator (o := .pow) (r := .power) rfl (by decide)
      (by decide) (by decide) (by decide) hv (hends hv) hpow
    obtain ⟨xs, q', hrest, hq', hp'⟩ := (hs.spans (by decide) hexponent _ _ rfl).2 hv'
    exact ⟨xs, q', hrest, hq', hp.trans hp'⟩
  · exact (hs.spans (by decide) h).mono (by decide)
  · cases h

theorem spans_negation (hs : Spanning rules) (h : Rule.negation.form.Reads Lexes rules text rest) :
    Spans .negation text rest := by
  rcases h with ⟨m, hnot, hinner⟩ | h | h
  · rintro g ws rfl
    obtain ⟨vs, rfl, rfl⟩ := lexes_lone (w := .not) rfl rfl (by decide) hnot
    refine ⟨⟨_, vs, rfl, rfl⟩, fun hv => ?_⟩
    have hp : Passes .negation .operand .negated (.not :: vs) vs := passes_word rfl vs
    obtain ⟨us, q, hrest, hq, hp'⟩ :=
      (hs.spans (by decide) hinner _ _ rfl).2 (hv.passes hp).of_negated
    exact ⟨us, q, hrest, hq, hp.trans (hp'.negated hq)⟩
  · exact (hs.spans (by decide) h).mono (by decide)
  · cases h

/-- The value and the condition of a conditional expression, up to the second value. -/
theorem spans_condition {m₁ m₂ m₃ m₄ : List Char} (hs : Spanning rules)
    (hvalue : rules .disjunction (spell g ws) m₁) (hif : Lexes (.spelled "if") m₁ m₂)
    (hcondition : rules .disjunction m₂ m₃) (helse : Lexes (.spelled "else") m₃ m₄)
    (hv : Valid .operand ws) :
    ∃ vs, m₄ = spell false vs ∧ Passes .conditional .operand .operand ws vs ∧ Valid .operand vs := by
  obtain ⟨us, rfl, hp, hv⟩ := arrives_operator (o := .cond) (r := .conditional) rfl (by decide)
    (by decide) (by decide) (by decide) hv ((hs.spans (by decide) hvalue g ws rfl).2 hv) hif
  obtain ⟨vs, rfl, hp', hv⟩ := arrives_operator (o := .otherwise) (r := .conditional) rfl (by decide)
    (by decide) (by decide) (by decide) hv ((hs.spans (by decide) hcondition _ us rfl).2 hv) helse
  exact ⟨vs, rfl, hp.trans hp', hv⟩

theorem spans_conditional (hs : Spanning rules)
    (h : Rule.conditional.form.Reads Lexes rules text rest) : Spans .conditional text rest := by
  rcases h with h | ⟨m₁, hvalue, m₂, hif, m₃, hcondition, m₄, helse, _, ⟨_, hsep, -⟩, -⟩ |
    ⟨m₁, hvalue, m₂, hif, m₃, hcondition, m₄, helse, hother⟩ | h
  · exact (hs.spans (by decide) h).mono (by decide)
  · rintro g ws rfl
    refine ⟨(hs.spans (by decide) hvalue g ws rfl).1, fun hv => ?_⟩
    obtain ⟨vs, rfl, -, -⟩ := spans_condition hs hvalue hif hcondition helse hv
    exact absurd hsep lexes_separator
  · rintro g ws rfl
    refine ⟨(hs.spans (by decide) hvalue g ws rfl).1, fun hv => ?_⟩
    obtain ⟨vs, rfl, hp, hv⟩ := spans_condition hs hvalue hif hcondition helse hv
    obtain ⟨us, q, hrest, hq, hp'⟩ := (hs.spans (by decide) hother _ _ rfl).2 hv
    exact ⟨us, q, hrest, hq, hp.trans hp'⟩
  · cases h

theorem spans_block (hs : Spanning rules) (h : Form.block.Reads Lexes rules text rest) :
    Spans .expr text rest := by
  obtain ⟨m, hopen, m', hinner, hclose⟩ := h
  rintro g ws rfl
  obtain ⟨vs, rfl, rfl⟩ := lexes_opening hopen
  refine ⟨⟨_, vs, rfl, rfl⟩, fun hv =>
    arrives_group (l := .statements) (by decide) hv (fun hv => ?_) hclose⟩
  rcases hs _ _ _ hinner with hspans | ⟨-, rfl⟩
  · exact (hspans _ _ rfl).2 hv
  · obtain ⟨us, rfl, -⟩ := lexes_closing hclose
    exact absurd hv not_valid_closing

theorem spans_absent {word : String}
    (hword : word ∈ ["for", "print", "break", "next", ",", "+=", "-=", "/=", "mod="])
    (h : Lexes (.spelled word) text m) : Spans r text rest := by
  rintro g ws rfl
  exact (lexes_absent hword h).elim

theorem spans_expr (hs : Spanning rules) (h : Rule.expr.form.Reads Lexes rules text rest) :
    Spans .expr text rest := by
  rcases h with (⟨_, hfor, -⟩ | ⟨_, hfor, -⟩ | h) | h | (⟨_, hprint, -⟩ | ⟨_, hprint, -⟩ | h) | h | h
  · exact spans_absent (by decide) hfor
  · exact spans_absent (by decide) hfor
  · cases h
  · exact spans_block hs h
  · exact spans_absent (by decide) hprint
  · exact spans_absent (by decide) hprint
  · cases h
  · exact (hs.spans (by decide) h).mono (by decide)
  · cases h

theorem spans_assignment {m' : List Char} (hs : Spanning rules) (hname : Lexes .name text m)
    (hassign : Lexes (.spelled "=") m m') (hvalue : rules .expr m' rest) :
    Spans .statement text rest := by
  rintro g ws rfl
  obtain ⟨w, vs, rfl, hbegins, rfl, hpass⟩ := spans_name hname
  have hvalue := hs.spans (by decide) hvalue
  refine ⟨⟨w, vs, rfl, hbegins⟩, fun hv => ?_⟩
  obtain ⟨q, hq, -, hp⟩ := hpass hv
  obtain ⟨us, ⟨rfl, rfl⟩ | ⟨rfl, rfl⟩⟩ := lexes_assign hassign
  · obtain ⟨hp', hv⟩ := (hv.passes (hp .statement)).operator (r := .statement) hq (by decide) (by decide)
    obtain ⟨xs, q', hrest, hq', hp''⟩ := (hvalue _ _ rfl).2 hv
    exact ⟨xs, q', hrest, hq', (hp .statement).trans (hp'.trans (hp''.mono (by decide)))⟩
  · obtain ⟨⟨w, us, hw, hbegins⟩, -⟩ := hvalue _ _ rfl
    cases hw
    cases hbegins

theorem spans_statement (hs : Spanning rules) (h : Rule.statement.form.Reads Lexes rules text rest) :
    Spans .statement text rest := by
  rcases h with ⟨m, hname, m', hassign | hplus | hminus | hdiv | hmod | h, hvalue⟩ |
    (⟨_, hbreak, -⟩ | ⟨_, hbreak, -⟩ | ⟨_, hbreak, -⟩ | ⟨_, hbreak, -⟩ | h) |
    (⟨_, hnext, -⟩ | ⟨_, hnext, -⟩ | ⟨_, hnext, -⟩ | hnext | h) | h | h
  · exact spans_assignment hs hname hassign hvalue
  · rintro g ws rfl
    obtain ⟨w, vs, -, -, rfl, -⟩ := spans_name hname
    exact (lexes_absent (by decide) hplus).elim
  · rintro g ws rfl
    obtain ⟨w, vs, -, -, rfl, -⟩ := spans_name hname
    exact (lexes_absent (by decide) hminus).elim
  · rintro g ws rfl
    obtain ⟨w, vs, -, -, rfl, -⟩ := spans_name hname
    exact (lexes_absent (by decide) hdiv).elim
  · rintro g ws rfl
    obtain ⟨w, vs, -, -, rfl, -⟩ := spans_name hname
    exact (lexes_absent (by decide) hmod).elim
  · cases h
  · exact spans_absent (by decide) hbreak
  · exact spans_absent (by decide) hbreak
  · exact spans_absent (by decide) hbreak
  · exact spans_absent (by decide) hbreak
  · cases h
  · exact spans_absent (by decide) hnext
  · exact spans_absent (by decide) hnext
  · exact spans_absent (by decide) hnext
  · exact spans_absent (by decide) hnext
  · cases h
  · exact (hs.spans (by decide) h).mono (by decide)
  · cases h

/-- No separator stands between words. -/
theorem reads_separators (h : (Form.many .separator).Reads Lexes rules (spell g ws) m) :
    m = spell g ws := by
  rcases Relation.ReflTransGen.cases_head h with h | ⟨_, hsep, -⟩
  · exact h.symm
  · exact absurd hsep lexes_separator

theorem spans_statements (hs : Spanning rules) (h : Rule.statements.form.Reads Lexes rules text rest) :
    Spans .statements text rest ∨ rest = text := by
  have hone {m m' : List Char} (hbefore : (Form.many .separator).Reads Lexes rules text m)
      (hstatement : rules .statement m m') (hrest : ∀ vs, m' = spell false vs → rest = m') :
      Spans .statements text rest := by
    rintro g ws rfl
    obtain rfl := reads_separators hbefore
    obtain ⟨hbegins, hends⟩ := hs.spans (by decide) hstatement g ws rfl
    refine ⟨hbegins, fun hv => ?_⟩
    obtain ⟨vs, q, hm, hq, hp⟩ := hends hv
    exact ⟨vs, q, (hrest vs hm).trans hm, hq, hp.mono (by decide)⟩
  rcases h with ⟨m, hbefore, m', hstatement, m'', hmore, -⟩ |
    ⟨m, hbefore, m', hstatement, hbehind⟩ | h | h
  · refine .inl (hone hbefore hstatement ?_)
    rintro vs rfl
    obtain ⟨_, ⟨_, ⟨_, hsep, -⟩, -⟩, -⟩ := hmore
    exact absurd hsep lexes_separator
  · refine .inl (hone hbefore hstatement ?_)
    rintro vs rfl
    exact reads_separators hbehind
  · by_cases hspelled : ∃ g ws, text = spell g ws
    · obtain ⟨g, ws, rfl⟩ := hspelled
      exact .inr (reads_separators h)
    · exact .inl fun g ws htext => absurd ⟨g, ws, htext⟩ hspelled
  · cases h

/-- Every rule spans what it reads. -/
theorem Leads.spanning : Spanning fun r => Leads Lexes (.rule r) := by
  intro r text rest h
  refine Leads.rule_induction (B := fun r text rest =>
    Spans r text rest ∨ r = .statements ∧ rest = text) (fun r text rest h => ?_) h
  have hs : Spanning fun r text rest => Leads Lexes (.rule r) text rest ∧
      (Spans r text rest ∨ r = .statements ∧ rest = text) := fun _ _ _ h => h.2
  cases r with
  | atom => exact .inl (spans_atom hs h)
  | unary => exact .inl (spans_unary hs h)
  | power => exact .inl (spans_power hs h)
  | product | sum | comparison | conjunction | disjunction => exact .inl (spans_chain hs rfl h)
  | negation => exact .inl (spans_negation hs h)
  | conditional => exact .inl (spans_conditional hs h)
  | expr => exact .inl (spans_expr hs h)
  | statement => exact .inl (spans_statement hs h)
  | statements => exact (spans_statements hs h).imp_right fun hrest => ⟨rfl, hrest⟩

end Spans

end DecimalScript.Grammar
