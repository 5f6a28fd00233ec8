import DecimalScript.Proofs.Spans
import Mathlib

/-! Expressions are read back from their words. Between two operands only one operator can end the
first one, because the rule for operands passes none that binds looser; so the chosen reading
of the text is the tree that the expression has. -/

namespace DecimalScript.Grammar

variable {r l : Rule} {q q' : Spot} {g : Bool} {w : Word} {ws vs us : List Word}
  {m mid rest text : List Char} {f h : Form} {xs ys : List Tree}

/-! ### The walk over an expression -/

theorem strictly_mono (hr : l.rank ≤ r.rank) (q : Spot) (w : Word) (hw : strictly l q w) :
    strictly r q w :=
  decide_eq_true ((of_decide_eq_true hw).trans hr)

theorem walk_negated (h : walk (strictly r) (.operand, 0) ws = some (.done, 0)) :
    walk (strictly r) (.negated, 0) ws = some (.done, 0) := by
  cases ws with
  | nil => cases h
  | cons w ws =>
    rw [← h, walk, walk, next_negated]
    cases w <;> rfl

theorem next_op {o : Operator} (ho : o.rule.rank ≤ r.rank) :
    next (strictly r) (.done, 0) (.op o) = some (.operand, 0) := by
  have hallowed : strictly r .done (.op o) := decide_eq_true ho
  simp [next, hallowed, Spot.next]

theorem next_sign {o : Operator} (ho : o.rule = .sum) :
    next (strictly .unary) (.operand, 0) (.op o) = some (.operand, 0) := by
  cases o <;> cases ho <;> rfl

theorem walk_then {allowed : Spot → Word → Bool} {state state' : Spot × Nat}
    (h : walk allowed state us = some state') (vs : List Word) :
    walk allowed state (us ++ vs) = walk allowed state' vs := by
  rw [walk_append, h, Option.bind_some]

theorem walk_next {allowed : Spot → Word → Bool} {state state' : Spot × Nat}
    (h : next allowed state w = some state') (ws : List Word) :
    walk allowed state (w :: ws) = walk allowed state' ws := by
  rw [walk, h, Option.bind_some]

def Part.rule : Part → Rule
  | .whole r | .links r => r

def Part.spot : Part → Spot
  | .whole _ => .operand
  | .links _ => .done

theorem Rule.rank_inner (h : r.inner = some l) : l.rank ≤ r.rank := by
  cases r <;> cases h <;> decide

/-- The words of an expression are those that its rule may pass. -/
theorem Expression.walk_words {p : Part} (e : Expression p) :
    walk (strictly p.rule) (p.spot, 0) e.words = some (.done, 0) := by
  induction e with
  | number n => rfl
  | name x => rfl
  | group e ih =>
    have hinside : walk (strictly .atom) (.operand, 0 + 1) e.words = some (.done, 0 + 1) :=
      walk_raise (.inl one_ne_zero) ih
    exact walk_then hinside [.closing]
  | sign o ho e ih => exact (walk_next (next_sign ho) _).trans ih
  | power base exponent ihb ihe =>
    have hbase := walk_mono (strictly_mono (by decide : Rule.unary.rank ≤ Rule.power.rank)) ihb
    exact (walk_then hbase _).trans ihe
  | @chain r l hr first o ho second more ihf ihs ihm =>
    have hmono := strictly_mono (Rule.rank_operand hr).2.le
    calc walk (strictly r) (.operand, 0) (first.words ++ .op o :: (second.words ++ more.words))
      _ = walk (strictly r) (.done, 0) (.op o :: (second.words ++ more.words)) :=
        walk_then (walk_mono hmono ihf) _
      _ = walk (strictly r) (.operand, 0) (second.words ++ more.words) :=
        walk_next (next_op (Nat.le_of_eq (congrArg _ ho))) _
      _ = walk (strictly r) (.done, 0) more.words := walk_then (walk_mono hmono ihs) _
      _ = some (.done, 0) := ihm
  | done => rfl
  | @link r l hr o ho e more ihe ihm =>
    calc walk (strictly r) (.done, 0) (.op o :: (e.words ++ more.words))
      _ = walk (strictly r) (.operand, 0) (e.words ++ more.words) :=
        walk_next (next_op (Nat.le_of_eq (congrArg _ ho))) _
      _ = walk (strictly r) (.done, 0) more.words :=
        walk_then (walk_mono (strictly_mono (Rule.rank_operand hr).2.le) ihe) _
      _ = some (.done, 0) := ihm
  | not e ih => exact walk_negated ih
  | lift hr e ih => exact walk_mono (strictly_mono (Rule.rank_inner hr)) ih
  | plain e ih =>
    exact walk_mono (strictly_mono (by decide : Rule.disjunction.rank ≤ Rule.conditional.rank)) ih
  | choose value condition other ihv ihc iho =>
    have hmono := strictly_mono (by decide : Rule.disjunction.rank ≤ Rule.conditional.rank)
    exact (walk_then (walk_mono hmono ihv) _).trans ((walk_then (walk_mono hmono ihc) _).trans iho)

/-! ### Where an operand ends -/

/-- A word that the rule does not pass. -/
def Stops (l : Rule) (w : Word) : Prop := w = .closing ∨ ∃ o, w = .op o ∧ l.rank < o.rule.rank

theorem Stops.next_done (h : Stops l w) : next (loosely l) (.done, 0) w = none := by
  rcases h with rfl | ⟨o, rfl, ho⟩
  · simp [next, Spot.next]
  · have hallowed : loosely l .done (.op o) = false := by
      rw [Bool.eq_false_iff]
      intro hw
      rcases loosely_iff.mp hw with hw | hw
      · cases hw
      · exact absurd hw (Nat.not_le.mpr ho)
    simp [next, hallowed]

/-- Rules that bind tighter than `not` do not come to stand behind it. -/
theorem walk_not_negated (hl : l.rank < Rule.negation.rank) {state : Spot × Nat}
    (hs : state ≠ (.negated, 0)) : walk (strictly l) state ws ≠ some (.negated, 0) := by
  induction ws generalizing state with
  | nil => simpa [walk] using hs
  | cons w ws ih =>
    intro hw
    obtain ⟨state', hnext, hrest⟩ := Option.bind_eq_some_iff.mp hw
    refine ih ?_ hrest
    rintro rfl
    obtain ⟨q, d⟩ := state
    -- only `not` leads there, and it is not allowed
    have hnot : w = .not ∧ d = 0 := by
      have hd := next_eq hnext
      cases q with
      | done =>
        cases w with
        | closing => cases d <;> cases hd
        | _ => cases hd
      | _ =>
        cases w with
        | op o => cases o <;> cases hd
        | not =>
          cases hd
          exact ⟨rfl, rfl⟩
        | _ => cases hd
    obtain ⟨rfl, rfl⟩ := hnot
    have hallowed : strictly l q .not = false := decide_eq_false (Nat.not_le.mpr hl)
    simp [next, hallowed] at hnext

theorem Stops.next_strictly (h : Stops l w) (hq : q ≠ .operand)
    (hw : walk (strictly l) (.operand, 0) us = some (q, 0)) : next (strictly l) (q, 0) w = none := by
  cases q with
  | operand => exact absurd rfl hq
  | done =>
    by_contra hsome
    obtain ⟨state, hstate⟩ := Option.ne_none_iff_exists'.mp hsome
    cases (next_mono strictly_loosely hstate).symm.trans h.next_done
  | negated =>
    rcases h with rfl | ⟨o, rfl, ho⟩
    · simp [next, Spot.next]
    · by_cases hsign : o.rule = .sum
      · rw [hsign] at ho
        exact absurd hw (walk_not_negated (ho.trans (by decide)) (by decide))
      · unfold next
        split_ifs
        · rfl
        · cases o <;> first | rfl | exact absurd rfl hsign

/-- A walk that binds no looser than a rule ends where its expression does, if a word follows there
that the rule does not pass. -/
theorem cut {us' vs' rest : List Word} (hk : walk (strictly l) (.operand, 0) us = some (.done, 0))
    (hp : walk (loosely l) (.operand, 0) us' = some (q, 0)) (hq : q ≠ .operand)
    (heq : us ++ vs = us' ++ vs') (hs : rest <:+ vs) (hs' : rest <:+ vs')
    (hend : vs = rest ∨ ∃ w t, vs = w :: t ∧ Stops l w)
    (hend' : vs' = rest ∨ ∃ w t, vs' = w :: t ∧ Stops l w) : vs' = vs := by
  rcases List.append_eq_append_iff.mp heq with ⟨as, rfl, rfl⟩ | ⟨bs, rfl, rfl⟩
  · cases as with
    | nil => rfl
    | cons w as =>
      rcases hend with rfl | ⟨w', t, ht, hstop⟩
      · have := hs'.length_le
        simp at this
      · cases ht
        rw [walk_append, walk_mono strictly_loosely hk] at hp
        change (next (loosely l) (.done, 0) w).bind _ = _ at hp
        rw [hstop.next_done] at hp
        cases hp
  · cases bs with
    | nil => rfl
    | cons w bs =>
      rcases hend' with rfl | ⟨w', t, ht, hstop⟩
      · have := hs.length_le
        simp at this
      · cases ht
        rw [walk_append] at hk
        obtain ⟨state, hstate, hrest⟩ := Option.bind_eq_some_iff.mp hk
        obtain rfl := walk_agree hstate hp
        change (next (strictly l) (q, 0) w).bind _ = _ at hrest
        rw [hstop.next_strictly hq hstate] at hrest
        cases hrest

/-! ### Places between words -/

theorem spell_append (us vs : List Word) :
    spell false (us ++ vs) = spell false us ++ spell false vs := by
  induction us with
  | nil => rfl
  | cons w us ih =>
    rw [List.cons_append, spell, ih, spell, List.append_assoc, List.append_assoc]

theorem spell_suffix (hg : g = false ∨ us ≠ []) (vs : List Word) :
    spell false vs <:+ spell g (us ++ vs) := by
  cases us with
  | nil =>
    obtain rfl := hg.resolve_right (by simp)
    exact List.suffix_refl _
  | cons w us =>
    rw [List.cons_append, spell, spell_append]
    exact ((List.suffix_append _ _).trans (List.suffix_append _ _)).trans (List.suffix_append _ _)

theorem spell_suffix_word (g : Bool) (w : Word) (ws : List Word) :
    spell false ws <:+ spell g (w :: ws) :=
  spell_suffix (.inr (List.cons_ne_nil w [])) ws

theorem spell_length_pos (w : Word) (ws : List Word) : 0 < (spell false (w :: ws)).length := by
  simp [spell]

theorem spell_lt (g : Bool) (w : Word) (us vs : List Word) :
    (spell false vs).length < (spell g (w :: (us ++ vs))).length := by
  have hsuffix : spell false vs <:+ spell false (us ++ vs) := spell_suffix (.inl rfl) vs
  have hle := hsuffix.length_le
  obtain ⟨c, rest, hw, -⟩ := w.cons
  rw [spell, hw]
  simp only [List.length_append, List.length_cons]
  omega

/-- A place between words that is not before another one comes behind it. -/
theorem suffix_of_spell (hv : vs <:+ ws) (hu : us <:+ ws)
    (h : (spell false us).length ≤ (spell false vs).length) : us <:+ vs := by
  rcases List.suffix_or_suffix_of_suffix hu hv with hs | ⟨t, rfl⟩
  · exact hs
  · cases t with
    | nil => exact List.suffix_refl _
    | cons w t =>
      have hpos := spell_length_pos w t
      rw [spell_append, List.length_append] at h
      omega

theorem eq_of_spell_eq (hv : vs <:+ ws) (hu : us <:+ ws) (h : spell false us = spell false vs) :
    us = vs :=
  (suffix_of_spell hv hu (Nat.le_of_eq (congrArg _ h))).eq_of_length_le
    (suffix_of_spell hu hv (Nat.le_of_eq (congrArg _ h.symm))).length_le

theorem valid_append (h : walk (strictly r) (q, 0) us = some (.done, 0)) (hv : Valid .done vs) :
    Valid q (us ++ vs) := by
  obtain ⟨d, n, hd⟩ := hv
  refine ⟨d, n, ?_⟩
  have hraise := walk_raise (n := d) (.inr fun _ _ _ => rfl) (walk_freely h)
  rw [Nat.zero_add] at hraise
  exact (walk_then hraise vs).trans hd

/-- What the rule reads ends where the expression does, if what comes next does not stand inside of it. -/
theorem Leads.operand_end {vs rest : List Word} (hk : walk (strictly l) (.operand, 0) us = some (.done, 0))
    (hv : Valid .done vs) (hs : rest <:+ vs) (hend : vs = rest ∨ ∃ w t, vs = w :: t ∧ Stops l w)
    (hl : l ≠ .statements) (h : Leads Lexes (.rule l) (spell g (us ++ vs)) m)
    (hm : spell false rest <:+ m)
    (hnext : ∀ vs', m = spell false vs' → m = spell false rest ∨ ∃ w t, vs' = w :: t ∧ Stops l w) :
    m = spell false vs := by
  obtain ⟨vs', q, rfl, hq, us', heq, hp⟩ :=
    (Leads.spanning.spans hl h g (us ++ vs) rfl).2 (valid_append hk hv)
  have hv' : vs' <:+ us ++ vs := ⟨us', heq.symm⟩
  have hr : rest <:+ us ++ vs := hs.trans (List.suffix_append us vs)
  have hend' : vs' = rest ∨ ∃ w t, vs' = w :: t ∧ Stops l w :=
    (hnext vs' rfl).imp_left fun h => eq_of_spell_eq hr hv' h
  rw [cut hk hp hq heq hs (suffix_of_spell hv' hr hm.length_le) hend hend']

/-! ### The tree that is chosen -/

/-- There is a chosen reading up to the rest, and it leaves such trees. -/
def Chooses (f : Form) (text rest : List Char) (P : List Tree → Prop) : Prop :=
  ∀ pos, ∃ x, f.pick text rest pos = some x ∧ P x.kids

section Chooses
variable {P Q R : List Tree → Prop}

theorem Chooses.mono (h : Chooses f text rest P) (hP : ∀ kids, P kids → Q kids) :
    Chooses f text rest Q := by
  intro pos
  obtain ⟨x, hx, hxs⟩ := h pos
  exact ⟨x, hx, hP _ hxs⟩

theorem Chooses.rule (h : Chooses r.form text rest P) : Chooses (.rule r) text rest P := by
  intro pos
  rw [Form.pick_rule]
  exact h pos

theorem Chooses.node (h : Chooses f text rest P) (label : Label) :
    Chooses (.node label f) text rest fun kids => ∃ pos xs, P xs ∧ kids = [.node label pos xs] := by
  intro pos
  obtain ⟨x, hx, hxs⟩ := h pos
  refine ⟨x.enclosed label, ?_, x.start, x.kids, hxs, rfl⟩
  rw [Form.pick_node, hx]
  rfl

theorem Chooses.first (h : Chooses f text rest P) (fs : List Form) :
    Chooses (.either (f :: fs)) text rest P := by
  intro pos
  obtain ⟨x, hx, hxs⟩ := h pos
  refine ⟨x, ?_, hxs⟩
  rw [Form.pick_either, List.findSome?_cons, hx]

theorem Chooses.next {fs : List Form} (h : Chooses (.either fs) text rest P) (hs : rest <:+ text)
    (hf : ¬Leads Lexes f text rest) : Chooses (.either (f :: fs)) text rest P := by
  intro pos
  obtain ⟨x, hx, hxs⟩ := h pos
  refine ⟨x, ?_, hxs⟩
  rw [Form.pick_either, List.findSome?_cons, Form.pick_eq_none hs hf, ← Form.pick_either]
  exact hx

theorem Chooses.pair (hf : Chooses f text mid P) (hh : Chooses h mid rest Q) (hm : mid <:+ text)
    (hr : rest <:+ mid) (hunique : ∀ m, Leads Lexes f text m → Leads Lexes h m rest → m = mid) :
    Chooses (.pair f h) text rest fun kids => ∃ xs ys, P xs ∧ Q ys ∧ kids = xs ++ ys := by
  intro pos
  obtain ⟨x, hx, hxs⟩ := hf pos
  obtain ⟨y, hy, hys⟩ := hh (advance pos (text.take x.length))
  exact ⟨x.append y, Form.pick_pair hm hr hx hy hunique, x.kids, y.kids, hxs, hys, rfl⟩

theorem chooses_lexeme (terminal : Option Terminal) {kind : Kind} {n : Nat}
    (hn : kind.lexeme (afterGap text) = some n) :
    Chooses (.lexeme terminal kind) text ((afterGap text).drop n) fun kids =>
      ∃ pos, kids = leaves terminal (String.ofList ((afterGap text).take n)) pos := by
  intro pos
  obtain ⟨p, hp⟩ := Form.pick_lexeme hn
  exact ⟨_, hp, p, rfl⟩

end Chooses

/-- The chosen reading up to the rest has these trees. -/
def Picks (f : Form) (text rest : List Char) (xs : List Tree) : Prop :=
  Chooses f text rest fun kids => Tree.bareAll kids = xs

theorem Picks.rule (h : Picks r.form text rest xs) : Picks (.rule r) text rest xs := Chooses.rule h

theorem Picks.node (h : Picks f text rest xs) (label : Label) :
    Picks (.node label f) text rest [.node label none xs] := by
  refine (Chooses.node h label).mono ?_
  rintro kids ⟨pos, xs, rfl, rfl⟩
  rfl

theorem Picks.first (h : Picks f text rest xs) (fs : List Form) :
    Picks (.either (f :: fs)) text rest xs := Chooses.first h fs

theorem Picks.next {fs : List Form} (h : Picks (.either fs) text rest xs) (hs : rest <:+ text)
    (hf : ¬Leads Lexes f text rest) : Picks (.either (f :: fs)) text rest xs := Chooses.next h hs hf

theorem Picks.pair (hf : Picks f text mid xs) (hh : Picks h mid rest ys) (hm : mid <:+ text)
    (hr : rest <:+ mid) (hunique : ∀ m, Leads Lexes f text m → Leads Lexes h m rest → m = mid) :
    Picks (.pair f h) text rest (xs ++ ys) := by
  refine (Chooses.pair hf hh hm hr hunique).mono ?_
  rintro kids ⟨xs, ys, rfl, rfl, rfl⟩
  exact Tree.bareAll_append _ _

theorem Picks.stop (hf : f.nullable = false) (text : List Char) : Picks (.many f) text text [] :=
  fun _ => ⟨.empty, Form.pick_many_self hf, rfl⟩

theorem Picks.again (h : Picks (.pair f (.many f)) text rest xs) (hf : f.nullable = false)
    (hlt : rest.length < text.length) : Picks (.many f) text rest xs := by
  intro pos
  rw [Form.pick_many hf hlt]
  exact h pos

theorem Leads.lexeme_unique {terminal : Option Terminal} {kind : Kind} {m' : List Char}
    (h : Leads Lexes (.lexeme terminal kind) text m)
    (h' : Leads Lexes (.lexeme terminal kind) text m') : m = m' := by
  cases h with
  | lexeme h =>
    cases h' with
    | lexeme h' =>
      obtain ⟨n, hn, rfl⟩ := h
      obtain ⟨n', hn', rfl⟩ := h'
      cases hn.symm.trans hn'
      rfl

theorem lexeme_spell {kind : Kind} (hk : kind.isTight) (g : Bool) (w : Word) (ws : List Word) :
    kind.lexeme (afterGap (spell g (w :: ws))) = kind.lexeme w.text := by
  obtain ⟨c, letters, hletters, -⟩ := w.cons
  rw [afterGap_spell, Kind.lexeme_ends hk (by simp [hletters]) (ends_spell ws)]

/-- A word that a lexeme takes whole. -/
theorem picks_word {terminal : Option Terminal} {kind : Kind} (hk : kind.isTight)
    (hw : kind.lexeme w.text = some w.text.length) (g : Bool) (ws : List Word) :
    Picks (.lexeme terminal kind) (spell g (w :: ws)) (spell false ws)
      (leaves terminal (String.ofList w.text) default) := by
  have hword := chooses_lexeme terminal ((lexeme_spell hk g w ws).trans hw)
  rw [afterGap_spell, List.drop_left, List.take_left] at hword
  refine hword.mono ?_
  rintro kids ⟨pos, rfl⟩
  cases terminal <;> rfl

theorem Picks.behind (h : Picks f (spell false ws) rest xs) (hr : rest <:+ spell false ws)
    {terminal : Option Terminal} {kind : Kind} (hk : kind.isTight)
    (hw : kind.lexeme w.text = some w.text.length) (g : Bool) :
    Picks (.pair (.lexeme terminal kind) f) (spell g (w :: ws)) rest
      (leaves terminal (String.ofList w.text) default ++ xs) := by
  refine (picks_word hk hw g ws).pair h (spell_suffix_word g w ws) hr ?_
  intro m hm _
  refine hm.lexeme_unique (.lexeme ⟨_, (lexeme_spell hk g w ws).trans hw, ?_⟩)
  rw [afterGap_spell, List.drop_left]

theorem picks_operator {o : Operator} (hr : r.operand = some l) (ho : o.rule = r) (g : Bool)
    (ws : List Word) :
    Picks r.operator (spell g (.op o :: ws)) (spell false ws) (Expression.operator o) := by
  have hs : spell false ws <:+ spell g (.op o :: ws) := spell_suffix_word g _ ws
  have hstar (ho : o ≠ .star) (ho' : o ≠ .pow) :
      ¬Leads Lexes (.token .star "*") (spell g (.op o :: ws)) (spell false ws) := by
    intro h
    obtain ⟨vs, ⟨hvs, -⟩ | ⟨hvs, -⟩⟩ := lexes_star h.reads
    · cases hvs
      exact ho rfl
    · cases hvs
      exact ho' rfl
  cases o with
  | star =>
    subst ho
    exact (picks_word rfl rfl g ws).first _
  | slash =>
    subst ho
    exact ((picks_word rfl rfl g ws).first _).next hs (hstar (by decide) (by decide))
  | mod =>
    subst ho
    refine (((picks_word rfl rfl g ws).first _).next hs ?_).next hs (hstar (by decide) (by decide))
    intro h
    obtain ⟨vs, hvs, -⟩ := lexes_lone (w := .op .slash) rfl rfl (by decide) h.reads
    cases hvs
  | plus =>
    subst ho
    exact (picks_word rfl rfl g ws).first _
  | minus =>
    subst ho
    refine ((picks_word rfl rfl g ws).first _).next hs ?_
    intro h
    obtain ⟨vs, hvs, -⟩ := lexes_lone (w := .op .plus) rfl rfl (by decide) h.reads
    cases hvs
  | equal | unequal | atMost | below | atLeast | above | and | or =>
    subst ho
    exact picks_word rfl rfl g ws
  | pow | cond | otherwise | assign =>
    subst ho
    cases hr

/-! ### Chains -/

theorem Leads.pair_inv (h' : Leads Lexes (.pair f h) text rest) :
    ∃ m, Leads Lexes f text m ∧ Leads Lexes h m rest := by
  cases h' with
  | pair hf hh => exact ⟨_, hf, hh⟩

/-- A link begins with an operator of its chain. -/
theorem Leads.link_inv (hr : r.operand = some l)
    (h : Leads Lexes (.pair r.operator (.rule l)) (spell g vs) m) :
    ∃ o t, o.rule = r ∧ vs = .op o :: t ∧ Leads Lexes (.rule l) (spell false t) m := by
  obtain ⟨m', hop, hl⟩ := h.pair_inv
  rcases reads_operator hr hop.reads with ⟨o, t, ho, rfl, rfl⟩ | ⟨t, -, rfl⟩
  · exact ⟨o, t, ho, rfl, hl⟩
  · obtain ⟨⟨w, us, hw, hbegins⟩, -⟩ := Leads.spanning.spans (Rule.operand_ne hr) hl _ _ rfl
    cases hw
    cases hbegins

theorem stops_operator {o : Operator} (hr : r.operand = some l) (ho : o.rule = r) :
    Stops l (.op o) :=
  .inr ⟨o, rfl, ho ▸ (Rule.rank_operand hr).2⟩

theorem Leads.links_stop (hr : r.operand = some l)
    (h : Leads Lexes (.many (.pair r.operator (.rule l))) (spell g vs) rest) :
    spell g vs = rest ∨ ∃ w t, vs = w :: t ∧ Stops l w := by
  generalize htext : spell g vs = text at h
  cases h with
  | stop => exact .inl rfl
  | again hlink _ =>
    subst htext
    obtain ⟨o, t, ho, rfl, -⟩ := hlink.link_inv hr
    exact .inr ⟨_, t, rfl, stops_operator hr ho⟩

theorem Rule.operator_nullable (r : Rule) : r.operator.nullable = false := by
  cases r <;> rfl

/-- What comes behind an operand in a chain. -/
theorem Expression.links_words (hr : r.operand = some l) (e : Expression (.links r))
    (rest : List Word) : e.words ++ rest = rest ∨ ∃ w t, e.words ++ rest = w :: t ∧ Stops l w := by
  cases e with
  | done => exact .inl rfl
  | link hr' o ho e more => exact .inr ⟨.op o, _, rfl, stops_operator hr ho⟩

theorem picks_link {o : Operator} (hr : r.operand = some l) (ho : o.rule = r)
    (h : Picks (.rule l) (spell false (us ++ vs)) (spell false vs) xs) (g : Bool) :
    Picks (.pair r.operator (.rule l)) (spell g (.op o :: (us ++ vs))) (spell false vs)
      (Expression.operator o ++ xs) := by
  refine (picks_operator hr ho g _).pair h (spell_suffix_word g _ _)
    (spell_suffix (.inl rfl) vs) fun m hm _ => ?_
  rcases reads_operator hr hm.reads with ⟨o', t, -, ht, rfl⟩ | ⟨t, ht, -⟩
  · cases ht
    rfl
  · cases ht
    subst ho
    cases hr

/-- A link ends where its operand does. -/
theorem Leads.link_end {o : Operator} {rest : List Word} (hr : r.operand = some l)
    (hk : walk (strictly l) (.operand, 0) us = some (.done, 0)) (hv : Valid .done vs)
    (hs : rest <:+ vs) (hend : vs = rest ∨ ∃ w t, vs = w :: t ∧ Stops l w)
    (h : Leads Lexes (.pair r.operator (.rule l)) (spell g (.op o :: (us ++ vs))) m)
    (hmore : Leads Lexes (.many (.pair r.operator (.rule l))) m (spell false rest)) :
    m = spell false vs := by
  obtain ⟨o', t, -, ht, hl⟩ := h.link_inv hr
  cases ht
  refine hl.operand_end hk hv hs hend (Rule.operand_ne hr) hmore.suffix ?_
  rintro vs' rfl
  exact hmore.links_stop hr

/-- The links behind an operand of a chain. -/
theorem Picks.link {o : Operator} {rest : List Word} (hr : r.operand = some l) (ho : o.rule = r)
    (hk : walk (strictly l) (.operand, 0) us = some (.done, 0)) (hv : Valid .done vs)
    (hs : rest <:+ vs) (hend : vs = rest ∨ ∃ w t, vs = w :: t ∧ Stops l w)
    (h : Picks (.rule l) (spell false (us ++ vs)) (spell false vs) xs)
    (hmore : Picks (.many (.pair r.operator (.rule l))) (spell false vs) (spell false rest) ys)
    (g : Bool) :
    Picks (.pair (.pair r.operator (.rule l)) (.many (.pair r.operator (.rule l))))
      (spell g (.op o :: (us ++ vs))) (spell false rest) ((Expression.operator o ++ xs) ++ ys) := by
  obtain ⟨front, rfl⟩ := hs
  refine (picks_link hr ho h g).pair hmore (spell_suffix (.inr (List.cons_ne_nil _ us)) _)
    (spell_suffix (.inl rfl) rest) fun m hm hrest => ?_
  exact hm.link_end hr hk hv ⟨front, rfl⟩ hend hrest

/-! ### Expressions -/

def Part.form : Part → Form
  | .whole r => .rule r
  | .links r => .many (.pair r.operator (.rule (r.operand.getD r)))

theorem Expression.words_ne_nil (e : Expression (.whole r)) : e.words ≠ [] := by
  intro h
  have hwalk := e.walk_words
  rw [h] at hwalk
  cases hwalk

theorem valid_closing (h : Valid .done vs) : Valid .done (.closing :: vs) := by
  obtain ⟨d, n, hd⟩ := h
  exact ⟨d + 1, n, hd⟩

theorem valid_operator (o : Operator) (h : Valid .operand vs) : Valid .done (.op o :: vs) := by
  obtain ⟨d, n, hd⟩ := h
  refine ⟨d, n, ?_⟩
  rw [walk, ← hd]
  simp [next, Spot.next]

theorem Expression.valid (e : Expression (.whole r)) (h : Valid .done vs) :
    Valid .operand (e.words ++ vs) :=
  valid_append e.walk_words h

/-- A number, a name or an expression in parentheses. -/
theorem picks_number (n : Numerical) (g : Bool) (vs : List Word) :
    Picks (.rule .atom) (spell g (.number n :: vs)) (spell false vs) (Expression.number n).trees := by
  have hlexeme : Kind.number.lexeme (Word.number n).text = some (Word.number n).text.length :=
    n.isNumber
  exact Picks.rule (((picks_word rfl hlexeme g vs).node .number).first _)

theorem not_leads_number (hw : ∀ n, w ≠ .number n) :
    ¬Leads Lexes (.node .number (.lexeme (some .number) .number)) (spell g (w :: vs)) rest := by
  intro h
  obtain ⟨n, us, hn, -⟩ := lexes_number h.reads
  cases hn
  exact hw n rfl

theorem picks_name (x : PlainName) (hv : Valid .done vs) (g : Bool) :
    Picks (.rule .atom) (spell g (.name x :: vs)) (spell false vs) (Expression.name x).trees := by
  have hs : spell false vs <:+ spell g (.name x :: vs) := spell_suffix_word g _ vs
  have hlexeme : Kind.name.lexeme (Word.name x).text = some (Word.name x).text.length := x.isName
  refine Picks.rule (r := .atom) (((((picks_word rfl hlexeme g vs).node .var).first _).next hs ?_).next
    hs (not_leads_number (by simp)))
  intro h
  rcases h.reads with ⟨m, hname, _, hopen, -⟩ | ⟨m, hname, _, hopen, -⟩ | h
  · obtain ⟨w, us, hw, rfl, -⟩ := lexes_name hname
    cases hw
    obtain ⟨us, rfl, -⟩ := lexes_opening hopen
    obtain ⟨q, d, d', hnext, -⟩ := hv.next
    cases hnext
  · obtain ⟨w, us, hw, rfl, -⟩ := lexes_name hname
    cases hw
    obtain ⟨us, rfl, -⟩ := lexes_opening hopen
    obtain ⟨q, d, d', hnext, -⟩ := hv.next
    cases hnext
  · cases h

theorem not_lexes_name : ¬Lexes .name (spell g (.opening :: vs)) m := by
  intro h
  obtain ⟨w, us, hw, -, hname⟩ := lexes_name h
  cases hw
  simp at hname

theorem picks_group (e : Expression (.whole .conditional)) (hv : Valid .done vs)
    (h : Picks (.rule .conditional) (spell false (e.words ++ .closing :: vs))
      (spell false (.closing :: vs)) e.trees) (g : Bool) :
    Picks (.rule .atom) (spell g (.opening :: (e.words ++ .closing :: vs))) (spell false vs) e.trees := by
  have hs : spell false vs <:+ spell false (e.words ++ .closing :: vs) :=
    (spell_suffix_word false _ vs).trans (spell_suffix (.inl rfl) _)
  have hinner : Picks (.pair (.rule .conditional) (.word ")"))
      (spell false (e.words ++ .closing :: vs)) (spell false vs) (e.trees ++ []) := by
    refine h.pair (picks_word rfl rfl false vs) (spell_suffix (.inl rfl) _)
      (spell_suffix_word false _ vs) fun m hm hclose => ?_
    refine hm.operand_end e.walk_words (valid_closing hv) (List.suffix_cons _ _)
      (.inr ⟨_, _, rfl, .inl rfl⟩) (by decide) hclose.suffix ?_
    rintro vs' rfl
    obtain ⟨us, rfl, -⟩ := lexes_closing hclose.reads
    exact .inr ⟨_, us, rfl, .inl rfl⟩
  rw [List.append_nil] at hinner
  have hgroup : Picks (.row (.word "(") [.rule .conditional, .word ")"])
      (spell g (.opening :: (e.words ++ .closing :: vs))) (spell false vs) e.trees :=
    hinner.behind hs rfl rfl g
  have hs' := hs.trans (spell_suffix_word g .opening _)
  refine Picks.rule (r := .atom)
    ((((hgroup.first []).next hs' ?_).next hs' ?_).next hs' (not_leads_number (by simp)))
  · exact fun h => not_lexes_name h.reads
  · intro h
    rcases h.reads with ⟨m, hname, -⟩ | ⟨m, hname, -⟩ | h
    · exact not_lexes_name hname
    · exact not_lexes_name hname
    · cases h

/-- Where an expression of a tighter rule stands, the first alternative of a chain or a power does not
end with it. -/
theorem Leads.operand_alone {vs : List Word} (e : Expression (.whole l)) (hv : Valid .done vs)
    (hl : l ≠ .statements) (hh : h.nullable = false)
    (hnext : ∀ vs', Leads Lexes h (spell false vs') (spell false vs) → ∃ w t, vs' = w :: t ∧ Stops l w)
    (hf : Leads Lexes (.pair (.rule l) h) (spell g (e.words ++ vs)) (spell false vs)) : False := by
  obtain ⟨m, hfirst, hsecond⟩ := hf.pair_inv
  obtain rfl : m = spell false vs := by
    refine hfirst.operand_end e.walk_words hv (List.suffix_refl _) (.inl rfl) hl hsecond.suffix ?_
    rintro vs' rfl
    exact .inr (hnext vs' hsecond)
  exact lt_irrefl _ (hsecond.length_lt hh)

theorem picks_lift (hr : r.inner = some l) (e : Expression (.whole l)) (hv : Valid .done vs)
    (h : Picks (.rule l) (spell g (e.words ++ vs)) (spell false vs) e.trees) :
    Picks (.rule r) (spell g (e.words ++ vs)) (spell false vs) e.trees := by
  have hs : spell false vs <:+ spell g (e.words ++ vs) := spell_suffix (.inr e.words_ne_nil) vs
  have hwalk := e.walk_words
  obtain ⟨w, ws, hw⟩ := List.exists_cons_of_ne_nil e.words_ne_nil
  have hchain (hr : r.operand = some l) :
      Picks (.rule r) (spell g (e.words ++ vs)) (spell false vs) e.trees := by
    refine Picks.rule ?_
    rw [Rule.form_chain hr]
    refine (h.first []).next hs fun hf => ?_
    cases hf with
    | node hf =>
      refine hf.operand_alone e hv (Rule.operand_ne hr) (by simp [Form.row, Form.nullable,
        Rule.operator_nullable]) fun vs' hlink => ?_
      obtain ⟨m, hlink, -⟩ := hlink.pair_inv
      obtain ⟨o, t, ho, rfl, -⟩ := hlink.link_inv hr
      exact ⟨_, t, rfl, stops_operator hr ho⟩
  cases r with
  | product | sum | comparison | conjunction | disjunction => exact hchain hr
  | unary =>
    cases hr
    refine Picks.rule (r := .unary) ((h.first []).next hs fun hf => ?_)
    obtain ⟨m, hsign, -⟩ := hf.reads
    obtain ⟨o, us, ho, hus, -⟩ := reads_sign hsign
    rw [hw] at hus hwalk
    cases hus
    cases hwalk
  | power =>
    cases hr
    refine Picks.rule (r := .power) ((h.first []).next hs fun hf => ?_)
    cases hf with
    | node hf =>
      refine hf.operand_alone e hv (by decide) rfl fun vs' hpow => ?_
      obtain ⟨m, hpow, -⟩ := hpow.reads
      obtain ⟨us, rfl, -⟩ := lexes_lone (w := .op .pow) rfl rfl (by decide) hpow
      exact ⟨_, us, rfl, .inr ⟨_, rfl, by decide⟩⟩
  | negation =>
    cases hr
    refine Picks.rule (r := .negation) ((h.first []).next hs fun hf => ?_)
    obtain ⟨m, hnot, -⟩ := hf.reads
    obtain ⟨us, hus, -⟩ := lexes_lone (w := .not) rfl rfl (by decide) hnot
    rw [hw] at hus hwalk
    cases hus
    cases hwalk
  | _ => cases hr

/-- An operand, an operator that the rule for it does not pass, and what comes behind. -/
theorem Picks.operator {o : Operator} {terminal : Option Terminal} {rest : List Word}
    (e : Expression (.whole l)) (hl : l ≠ .statements) (ho : (Word.op o).isLone)
    (hmem : o.text ∈ spellings) (hrank : l.rank < o.rule.rank) (hv : Valid .operand vs)
    (hr : rest <:+ vs)
    (h : Picks (.rule l) (spell g (e.words ++ .op o :: vs)) (spell false (.op o :: vs)) xs)
    (hf : Picks f (spell false vs) (spell false rest) ys) :
    Picks (.pair (.rule l) (.pair (.lexeme terminal (.spelled o.text)) f))
      (spell g (e.words ++ .op o :: vs)) (spell false rest)
      (xs ++ (leaves terminal o.text default ++ ys)) := by
  have hlexeme : (Kind.spelled o.text).lexeme (Word.op o).text = some (Word.op o).text.length := by
    change spelled o.text o.text.toList = some o.text.toList.length
    simp [spelled, String.length_toList]
  have htight : ∀ word ∈ spellings, (Kind.spelled word).isTight := by decide +kernel
  obtain ⟨front, rfl⟩ := hr
  have hs : spell false rest <:+ spell false (front ++ rest) := spell_suffix (.inl rfl) rest
  have hbehind : Picks (.pair (.lexeme terminal (.spelled o.text)) f)
      (spell false (.op o :: (front ++ rest))) (spell false rest)
      (leaves terminal o.text default ++ ys) := by
    have hbehind : Picks (.pair (.lexeme terminal _) f) _ _ _ :=
      hf.behind hs (htight _ hmem) hlexeme false
    rwa [Word.text, String.ofList_toList] at hbehind
  refine h.pair hbehind (spell_suffix (.inr e.words_ne_nil) _)
    (hs.trans (spell_suffix_word false _ _)) fun m hm hrest => ?_
  refine hm.operand_end e.walk_words (valid_operator o hv)
    ((List.suffix_append front rest).trans (List.suffix_cons _ _))
    (.inr ⟨_, _, rfl, .inr ⟨o, rfl, hrank⟩⟩) hl hrest.suffix ?_
  rintro vs' rfl
  obtain ⟨m, hop, -⟩ := hrest.reads
  obtain ⟨us, rfl, -⟩ := lexes_lone ho rfl hmem hop
  exact .inr ⟨_, us, rfl, .inr ⟨o, rfl, hrank⟩⟩

theorem picks_chain {o : Operator} {rest : List Word} (hr : r.operand = some l) (ho : o.rule = r)
    (first second : Expression (.whole l)) (hv : Valid .done vs) (hs : rest <:+ vs)
    (hend : vs = rest ∨ ∃ w t, vs = w :: t ∧ Stops l w)
    (hf : Picks (.rule l) (spell g (first.words ++ .op o :: (second.words ++ vs)))
      (spell false (.op o :: (second.words ++ vs))) first.trees)
    (hs' : Picks (.rule l) (spell false (second.words ++ vs)) (spell false vs) second.trees)
    (hmore : Picks (.many (.pair r.operator (.rule l))) (spell false vs) (spell false rest) ys) :
    Picks (.rule r) (spell g (first.words ++ .op o :: (second.words ++ vs))) (spell false rest)
      [.node r.label none (first.trees ++ ((Expression.operator o ++ second.trees) ++ ys))] := by
  have hlinks := Picks.link hr ho second.walk_words hv hs hend hs' hmore false
  refine Picks.rule ?_
  rw [Rule.form_chain hr]
  refine Picks.first (Picks.node ?_ _) _
  have hsuffix : rest <:+ .op o :: (second.words ++ vs) :=
    (hs.trans (List.suffix_append _ _)).trans (List.suffix_cons _ _)
  obtain ⟨front, hfront⟩ := hsuffix
  refine hf.pair hlinks (spell_suffix (.inr first.words_ne_nil) _) ?_ fun m hm hrest => ?_
  · rw [← hfront]
    exact spell_suffix (.inl rfl) rest
  · refine hm.operand_end first.walk_words (valid_operator o (second.valid hv)) ⟨front, hfront⟩
      (.inr ⟨_, _, rfl, stops_operator hr ho⟩) (Rule.operand_ne hr) hrest.suffix ?_
    rintro vs' rfl
    obtain ⟨m, hlink, -⟩ := hrest.pair_inv
    obtain ⟨o', t, ho', rfl, -⟩ := hlink.link_inv hr
    exact .inr ⟨_, t, rfl, stops_operator hr ho'⟩

/-- A condition, `else` and the second value. -/
theorem Picks.otherwise {vs : List Word} (condition : Expression (.whole .disjunction))
    (other : Expression (.whole .conditional)) (hv : Valid .done vs)
    (hcondition : Picks (.rule .disjunction)
      (spell g (condition.words ++ .op .otherwise :: (other.words ++ vs)))
      (spell false (.op .otherwise :: (other.words ++ vs))) condition.trees)
    (hother : Picks (.rule .conditional) (spell false (other.words ++ vs)) (spell false vs) other.trees) :
    Picks (.pair (.rule .disjunction) (.pair (.word "else") (.rule .conditional)))
      (spell g (condition.words ++ .op .otherwise :: (other.words ++ vs))) (spell false vs)
      (condition.trees ++ other.trees) :=
  Picks.operator (o := .otherwise) condition (by decide) rfl (by decide) (by decide) (other.valid hv)
    (List.suffix_append _ _) hcondition hother

theorem picks_choose {vs : List Word} (value condition : Expression (.whole .disjunction))
    (other : Expression (.whole .conditional)) (hv : Valid .done vs)
    (hvalue : Picks (.rule .disjunction)
      (spell g (value.words ++ .op .cond :: (condition.words ++ .op .otherwise :: (other.words ++ vs))))
      (spell false (.op .cond :: (condition.words ++ .op .otherwise :: (other.words ++ vs)))) value.trees)
    (hcondition : Picks (.rule .disjunction)
      (spell false (condition.words ++ .op .otherwise :: (other.words ++ vs)))
      (spell false (.op .otherwise :: (other.words ++ vs))) condition.trees)
    (hother : Picks (.rule .conditional) (spell false (other.words ++ vs)) (spell false vs) other.trees) :
    Picks (.rule .conditional)
      (spell g (value.words ++ .op .cond :: (condition.words ++ .op .otherwise :: (other.words ++ vs))))
      (spell false vs) (Expression.choose value condition other).trees := by
  have hbehind := Picks.otherwise condition other hv hcondition hother
  have hv' := condition.valid (valid_operator .otherwise (other.valid hv))
  have hs : vs <:+ condition.words ++ .op .otherwise :: (other.words ++ vs) :=
    ((List.suffix_append _ vs).trans (List.suffix_cons _ _)).trans (List.suffix_append _ _)
  generalize condition.words ++ .op .otherwise :: (other.words ++ vs) = us at *
  have hpick : Picks (.pair (.rule .disjunction) (.pair (.word "if")
      (.pair (.rule .disjunction) (.pair (.word "else") (.rule .conditional)))))
      (spell g (value.words ++ .op .cond :: us)) (spell false vs)
      (value.trees ++ (condition.trees ++ other.trees)) :=
    Picks.operator (o := .cond) value (by decide) rfl (by decide) (by decide) hv' hs hvalue hbehind
  obtain ⟨front, rfl⟩ := hs
  have hspell : spell false vs <:+ spell g (value.words ++ .op .cond :: (front ++ vs)) := by
    have hsuffix := spell_suffix (g := g) (.inr (List.append_ne_nil_of_left_ne_nil value.words_ne_nil
      (.op .cond :: front))) vs
    rwa [List.append_assoc] at hsuffix
  refine Picks.rule (r := .conditional)
    ((((hpick.first []).next hspell fun h => ?_).next hspell fun h => ?_).node _)
  · -- no separator follows `else`
    obtain ⟨m₁, hvalue, m₂, hif, m₃, hcondition, m₄, helse, _, ⟨_, hsep, -⟩, -⟩ := h.reads
    obtain ⟨us, rfl, -⟩ := spans_condition Leads.spanning hvalue hif hcondition helse
      (value.valid (valid_operator .cond hv'))
    exact lexes_separator hsep
  · -- the value alone ends at `if`
    have hend := h.operand_end value.walk_words (valid_operator .cond hv')
      (List.suffix_append (.op .cond :: front) vs) (.inr ⟨_, _, rfl, .inr ⟨_, rfl, by decide⟩⟩)
      (by decide) (List.suffix_refl _) fun _ _ => .inl rfl
    have hlt := spell_lt false (.op .cond) front vs
    rw [hend] at hlt
    exact lt_irrefl _ hlt

/-- The chosen reading of the words of an expression is its tree. -/
theorem Expression.picks {p : Part} (e : Expression p) (hg : g = false ∨ e.words ≠ [])
    (hv : Valid .done vs) : Picks p.form (spell g (e.words ++ vs)) (spell false vs) e.trees := by
  induction e generalizing g vs with
  | number n => exact picks_number n g vs
  | name x => exact picks_name x hv g
  | group e ih =>
    have hinner := ih (g := false) (.inl rfl) (valid_closing hv)
    have hwords : (group e).words ++ vs = .opening :: (e.words ++ .closing :: vs) := by simp [words]
    rw [hwords]
    exact picks_group e hv hinner g
  | sign o ho e ih =>
    have hinner := ih (g := false) (.inl rfl) hv
    refine Picks.rule (r := .unary) (Picks.first (Picks.node ?_ .unary) _)
    refine (picks_operator rfl ho g _).pair hinner (spell_suffix_word g _ _)
      (spell_suffix (.inl rfl) vs) fun m hm _ => ?_
    obtain ⟨o', us, -, hus, rfl⟩ := reads_sign hm.reads
    cases hus
    rfl
  | power base exponent ihb ihe =>
    have hv' := exponent.valid hv
    have hbase := ihb (g := g) (.inr base.words_ne_nil) (valid_operator .pow hv')
    have hexponent := ihe (g := false) (.inl rfl) hv
    have hwords : (power base exponent).words ++ vs =
        base.words ++ .op .pow :: (exponent.words ++ vs) := by simp [words]
    rw [hwords]
    exact Picks.rule (r := .power) (((Picks.operator base (by decide) rfl (by decide) (by decide) hv'
      (List.suffix_append _ _) hbase hexponent).node .power).first _)
  | @chain r l hr first o ho second more ihf ihs ihm =>
    have hmore := valid_append more.walk_words hv
    have hsecond := second.valid hmore
    have hwords : (chain hr first o ho second more).words ++ vs =
        first.words ++ .op o :: (second.words ++ (more.words ++ vs)) := by simp [words]
    have hlinks := ihm (g := false) (.inl rfl) hv
    rw [Part.form, hr] at hlinks
    rw [hwords]
    exact picks_chain hr ho first second hmore (List.suffix_append _ _) (more.links_words hr vs)
      (ihf (.inr first.words_ne_nil) (valid_operator o hsecond)) (ihs (.inl rfl) hmore) hlinks
  | @done r =>
    obtain rfl := hg.resolve_right (by simp [words])
    exact Picks.stop (by simp [Form.nullable, Rule.operator_nullable]) _
  | @link r l hr o ho e more ihe ihm =>
    have hmore := valid_append more.walk_words hv
    have hwords : (link hr o ho e more).words ++ vs = .op o :: (e.words ++ (more.words ++ vs)) := by
      simp [words]
    have hlinks := ihm (g := false) (.inl rfl) hv
    rw [Part.form, hr] at hlinks
    rw [hwords, Part.form, hr]
    have hlink := Picks.link hr ho e.walk_words hmore (List.suffix_append _ _)
      (more.links_words hr vs) (ihe (.inl rfl) hmore) hlinks g
    refine hlink.again (by simp [Form.nullable, Rule.operator_nullable]) ?_
    rw [← List.append_assoc]
    exact spell_lt g _ _ vs
  | not e ih =>
    have hinner := ih (g := false) (.inl rfl) hv
    exact Picks.rule (r := .negation)
      (((hinner.behind (spell_suffix (.inl rfl) vs) rfl rfl g).node .notExpr).first _)
  | lift hr e ih => exact picks_lift hr e hv (ih hg hv)
  | plain e ih => exact Picks.rule (r := .conditional) (Picks.node (Picks.first (ih hg hv) _) _)
  | choose value condition other ihv ihc iho =>
    have hother := other.valid hv
    have hcondition := condition.valid (valid_operator .otherwise hother)
    have hwords : (choose value condition other).words ++ vs = value.words ++
        .op .cond :: (condition.words ++ .op .otherwise :: (other.words ++ vs)) := by simp [words]
    rw [hwords]
    exact picks_choose value condition other hv
      (ihv (.inr value.words_ne_nil) (valid_operator .cond hcondition))
      (ihc (.inl rfl) (valid_operator .otherwise hother)) (iho (.inl rfl) hv)

end DecimalScript.Grammar
