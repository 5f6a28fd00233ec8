import DecimalScript.Proofs.TwoRunRelations
import DecimalScript.Proofs.Containment
import Mathlib

/-! The footprint of a program: the names in its tree say all that a run can read, set or
adjust. Variables that are no target of an assignment and no variable of a loop keep
their values, and variables that the program does not name play no part at all. -/

namespace DecimalScript

/-! ### The names in a tree -/

namespace Tree

def nameOf : Tree → Option String
  | .token .name text _ => some text
  | _ => none

def targetOf : Tree → Option String
  | .node .assignment _ (.token _ name _ :: _) => some name
  | _ => none

def functionOf : Tree → Option String
  | .node .funcCall _ (.token _ name _ :: _) => some name
  | _ => none

def names (tree : Tree) : List String := tree.subtrees.filterMap nameOf

def targets (tree : Tree) : List String := tree.subtrees.filterMap targetOf

def loopVariables (tree : Tree) : List String := tree.subtrees.filterMap loopName

def functions (tree : Tree) : List String := tree.subtrees.filterMap functionOf

theorem mem_subtrees_trans {tree w x : Tree} (hw : w ∈ tree.subtrees) (hx : x ∈ w.subtrees) :
    x ∈ tree.subtrees := by
  induction tree using children_induction with
  | node label pos kids ih =>
    rw [subtrees, subtreesOf_eq] at hw
    rcases List.mem_cons.mp hw with rfl | hw
    · exact hx
    · obtain ⟨kid, hk, hw⟩ := List.mem_flatMap.mp hw
      exact mem_subtrees_of_child hk (ih kid hk hw)
  | token terminal text pos =>
    rw [List.mem_singleton.mp hw] at hx
    exact hx
  | value v =>
    rw [List.mem_singleton.mp hw] at hx
    exact hx

def titled : List Label := [.forExpr, .assignment, .var, .funcCall]

/-- In the tree and all trees in it, what begins with a name begins with the token of one. -/
def Titled (tree : Tree) : Prop :=
  ∀ label pos kids, .node label pos kids ∈ tree.subtrees → label ∈ titled →
    ∃ name place rest, kids = .token .name name place :: rest

/-- The nodes between a statement or expression and its parts. -/
def clauses : List Label :=
  [.argList, .printArgs, .printArg, .assignOp, .fromClause, .whenClause, .loopVar]

/-- What stands in a program: statements and expressions, tokens and nodes between them, and the
lists of statements. -/
inductive Belongs : Tree → Prop
  | shape {tree : Tree} (h : Shape tree) : Belongs tree
  | token {terminal : Terminal} {text : String} {pos : Pos} : Belongs (.token terminal text pos)
  | clause {label : Label} {pos : Option Pos} {kids : List Tree} (h : label ∈ clauses) :
      Belongs (.node label pos kids)
  | list {pos : Option Pos} {kids : List Tree} (h : IsProgram (.node .statementList pos kids)) :
      Belongs (.node .statementList pos kids)

/-- The tree has nothing in it that does not belong to a program. -/
def Orderly (tree : Tree) : Prop := ∀ sub ∈ tree.subtrees, sub.Belongs

theorem orderly_token (terminal : Terminal) (text : String) (place : Pos) :
    (Tree.token terminal text place).Orderly := by
  intro sub hs
  rw [List.mem_singleton.mp hs]
  exact .token

theorem orderly_leaf (leaf : Leaf) : leaf.tree.Orderly := orderly_token _ _ _

theorem orderly_node {label : Label} {pos : Option Pos} {kids : List Tree}
    (h : (Tree.node label pos kids).Belongs) (hk : ∀ kid ∈ kids, kid.Orderly) :
    (Tree.node label pos kids).Orderly := by
  intro sub hs
  rw [subtrees, subtreesOf_eq] at hs
  rcases List.mem_cons.mp hs with rfl | hs
  · exact h
  · obtain ⟨kid, hm, hs⟩ := List.mem_flatMap.mp hs
    exact hk kid hm sub hs

theorem orderly_clause {label : Label} {pos : Option Pos} {kids : List Tree} (h : label ∈ clauses)
    (hk : ∀ kid ∈ kids, kid.Orderly) : (Tree.node label pos kids).Orderly :=
  orderly_node (.clause h) hk

theorem orderly_pairUp {first : Tree} {pairs : List (Leaf × Tree)} (hf : first.Orderly)
    (hp : ∀ pair ∈ pairs, pair.2.Orderly) : ∀ kid ∈ first :: pairUp pairs, kid.Orderly := by
  refine List.forall_mem_cons.mpr ⟨hf, fun kid hk => ?_⟩
  obtain ⟨pair, hm, hk⟩ := List.mem_flatMap.mp hk
  simp only [List.mem_cons, List.not_mem_nil, or_false] at hk
  rcases hk with rfl | rfl
  · exact orderly_leaf _
  · exact hp pair hm

theorem orderly_separator {tree : Tree} (h : tree.isSeparator) : tree.Orderly := by
  obtain ⟨text, pos, rfl⟩ := eq_of_isSeparator h
  exact orderly_token _ _ _

/-- A list of statements is in order if all statements in it are. -/
theorem orderly_statements {tree : Tree} (hp : tree.IsProgram)
    (h : ∀ item ∈ tree.statements, item.isSeparator = false → item.Orderly) : tree.Orderly := by
  have item {item : Tree} (hi : item ∈ tree.statements) : item.Orderly := by
    cases hs : item.isSeparator with
    | true => exact orderly_separator hs
    | false => exact h item hi hs
  rcases tree.statements_cases with ⟨pos, kids, rfl⟩ | hone
  · exact orderly_node (.list hp) fun kid hk => item hk
  · exact item (by simp [hone])

/-- The clauses of a statement. -/
theorem orderly_clauses {label : Label} (clause : Option (Pos × Leaf)) {guard : Option (Pos × Tree)}
    (hl : label ∈ clauses) (hg : ∀ clause ∈ guard, clause.2.Orderly) :
    ∀ kid ∈ (clause.map fun (place, name) => Tree.node label (some place) [name.tree]).toList ++
      (guard.map fun (place, when) => Tree.node .whenClause (some place) [when]).toList,
      kid.Orderly := by
  intro kid hk
  simp only [List.mem_append, Option.mem_toList, Option.map_eq_some_iff] at hk
  rcases hk with ⟨⟨place, name⟩, _, rfl⟩ | ⟨⟨place, when⟩, hm, rfl⟩
  · exact orderly_clause hl (List.forall_mem_singleton.mpr (orderly_leaf name))
  · exact orderly_clause (by decide) (List.forall_mem_singleton.mpr (hg _ hm))

/-- In a statement or expression that was read everything belongs to a program. -/
theorem Shape.orderly {tree : Tree} (h : Shape tree) : tree.Orderly := by
  induction h with
  | number h => exact orderly_node (.shape (.number h)) (by simp [orderly_token])
  | var => exact orderly_node (.shape .var) (by simp [orderly_token])
  | call => exact orderly_node (.shape .call) (by simp [orderly_token])
  | callWith h ih =>
    refine orderly_node (.shape (.callWith h)) ?_
    simpa [orderly_token] using orderly_clause (by decide) ih
  | unary h ih => exact orderly_node (.shape (.unary h)) (by simp [orderly_leaf, ih])
  | negation h ih => exact orderly_node (.shape (.negation h)) (by simp [orderly_leaf, ih])
  | power hb he ihb ihe =>
    exact orderly_node (.shape (.power hb he)) (by simp [orderly_leaf, ihb, ihe])
  | chain hl hf hp ihf ihp => exact orderly_node (.shape (.chain hl hf hp)) (orderly_pairUp ihf ihp)
  | comparison hf ho hp ihf ihp =>
    exact orderly_node (.shape (.comparison hf ho hp)) (orderly_pairUp ihf ihp)
  | plain h ih => exact orderly_node (.shape (.plain h)) (by simp [ih])
  | conditional hh hc hs ho ihh ihc iho =>
    refine orderly_node (.shape (.conditional hh hc hs ho)) fun kid hk => ?_
    simp only [List.mem_cons, List.mem_append, List.not_mem_nil, or_false] at hk
    rcases hk with rfl | rfl | hk | rfl
    · exact ihh
    · exact ihc
    · exact orderly_separator (hs kid hk)
    · exact iho
  | block h ih =>
    exact orderly_node (.shape (.block h)) (List.forall_mem_singleton.mpr (orderly_statements h ih))
  | loop hs ht hb ihs iht ihb =>
    exact orderly_node (.shape (.loop hs ht hb)) (by simp [orderly_token, ihs, iht, ihb])
  | loopBy hs ht hw hb ihs iht ihw ihb =>
    exact orderly_node (.shape (.loopBy hs ht hw hb)) (by simp [orderly_token, ihs, iht, ihw, ihb])
  | print => exact orderly_node (.shape .print) (by simp)
  | printWith h ih =>
    refine orderly_node (.shape (.printWith h)) (List.forall_mem_singleton.mpr ?_)
    refine orderly_clause (by decide) fun kid hk => ?_
    obtain ⟨argument, ha, rfl⟩ := List.mem_map.mp hk
    refine orderly_clause (by decide) (List.forall_mem_singleton.mpr ?_)
    by_cases hs : ∃ text place, argument.2 = .token .string text place
    · obtain ⟨text, place, heq⟩ := hs
      rw [heq]
      exact orderly_token _ _ _
    · exact ih argument ha fun text place heq => hs ⟨text, place, heq⟩
  | @assignment pos place inner name operator value ho hv ihv =>
    have hop : (Tree.node .assignOp inner [operator.tree]).Orderly :=
      orderly_clause (by decide) (List.forall_mem_singleton.mpr (orderly_leaf operator))
    exact orderly_node (.shape (.assignment ho hv)) (by simp [orderly_token, ihv, hop])
  | @leave pos exit guard result hg hr ihg ihr =>
    refine orderly_node (.shape (.leave hg hr)) ?_
    exact List.forall_mem_append.mpr ⟨orderly_clauses exit (by decide) ihg, by simpa using ihr⟩
  | @skip pos next guard hg ihg =>
    exact orderly_node (.shape (.skip hg)) (orderly_clauses next (by decide) ihg)

theorem IsProgram.orderly {tree : Tree} (h : tree.IsProgram) : tree.Orderly :=
  orderly_statements h fun item hi hs => (h item hi hs).orderly

/-- In a program that was read every name stands where it belongs. -/
theorem IsProgram.titled {tree : Tree} (h : tree.IsProgram) : tree.Titled := by
  intro label pos kids hw hl
  generalize hsub : Tree.node label pos kids = sub at hw
  cases h.orderly sub hw with
  | shape hshape =>
    cases hshape with
    | chain hchain =>
      cases hsub
      simp only [List.mem_cons, List.not_mem_nil, or_false] at hchain
      rcases hchain with rfl | rfl | rfl | rfl <;> simp [Tree.titled] at hl
    | var | call | callWith | loop | loopBy | assignment =>
      cases hsub
      exact ⟨_, _, _, rfl⟩
    | _ =>
      cases hsub
      simp [Tree.titled] at hl
  | token => cases hsub
  | clause hclause =>
    cases hsub
    simp only [clauses, List.mem_cons, List.not_mem_nil, or_false] at hclause
    rcases hclause with rfl | rfl | rfl | rfl | rfl | rfl | rfl <;> simp [Tree.titled] at hl
  | list =>
    cases hsub
    simp [Tree.titled] at hl

end Tree

/-! ### What a term names, its tree names -/

section Source
variable {tree w : Tree} {t : Term}

theorem mem_names {name : String} {place : Pos}
    (h : Tree.token .name name place ∈ tree.subtrees) : name ∈ tree.names :=
  List.mem_filterMap.mpr ⟨_, h, rfl⟩

/-- A name in the term of a program occurs in the program; the target of an assignment, the
variable of a loop or the function of a call is one in the program too. -/
theorem title_source (ht : tree.Titled) {name : String} (hb : Term.Below t (Term.ofTree tree))
    (hn : t.title? = some name) :
    name ∈ tree.names ∧
      (t.anchor? = some .assignment → name ∈ tree.targets) ∧
      (t.anchor? = some .forExpr → name ∈ tree.loopVariables) ∧
      (t.anchor? = some .funcCall → name ∈ tree.functions) := by
  have hkind : ∃ kind ∈ Tree.titled, t.anchor? = some kind := by
    cases t with
    | loop | var | assign | call => exact ⟨_, by decide, rfl⟩
    | _ => cases hn
  obtain ⟨kind, hl, hk⟩ := hkind
  have hanchored : t.isAnchored := by simp [Term.isAnchored, hk]
  obtain ⟨w, hw, hwa, heq⟩ := (draft_from tree).term t hb hanchored
  rcases anchor_source hwa heq hk with ⟨other, pos, place, rfl, rfl⟩ | ⟨pos, kids, rfl, htitle⟩
  · cases hn
    exact ⟨mem_names hw, nofun, nofun, nofun⟩
  · obtain ⟨other, place, rest, rfl⟩ := ht kind pos kids hw hl
    obtain ⟨terminal, spot, others, hkids⟩ := htitle name hn
    cases hkids
    have htoken : Tree.token .name name place ∈
        (Tree.node kind pos (.token .name name place :: rest)).subtrees :=
      Tree.mem_subtrees_of_child (List.mem_cons_self ..) (Tree.self_mem_subtrees _)
    refine ⟨mem_names (Tree.mem_subtrees_trans hw htoken), fun h => ?_, fun h => ?_, fun h => ?_⟩
    all_goals
      obtain rfl := Option.some.inj (hk.symm.trans h)
      exact List.mem_filterMap.mpr ⟨_, hw, rfl⟩

end Source

/-! ### The accord -/

/-- What two runs have in common that began in two states which agree in the names of a
program: they still agree there, each has the other variables as they were, and
neither has set the precision. -/
structure Footprint (tree : Tree) (s₀ t₀ s t : State) : Prop where
  digits : s.digits = t.digits
  places : s.places = t.places
  tracing : s.tracing = t.tracing
  source : s.source = t.source
  output : s.output = t.output
  agree : ∀ name ∈ tree.names, s.env.get? name = t.env.get? name
  kept : ∀ name, name ∉ tree.targets → name ∉ tree.loopVariables →
    s.env.get? name = s₀.env.get? name ∧ t.env.get? name = t₀.env.get? name
  precision : "set_precision" ∉ tree.functions → s.places = s₀.places ∧ s.digits = s₀.digits

/-- One variable that the program sets may change, in both states alike. -/
theorem Footprint.change {tree : Tree} {s₀ t₀ s t : State} {name : String} {v : Option Value}
    {e e' : Env} (h : Footprint tree s₀ t₀ s t)
    (hn : name ∈ tree.targets ∨ name ∈ tree.loopVariables)
    (he : ∀ other, e.get? other = if other = name then v else s.env.get? other)
    (he' : ∀ other, e'.get? other = if other = name then v else t.env.get? other) :
    Footprint tree s₀ t₀ { s with env := e } { t with env := e' } where
  __ := h
  agree other ho := by
    simp only [he, he', h.agree other ho]
  kept other ht hl := by
    have hne : other ≠ name := by
      rintro rfl
      exact hn.elim ht hl
    simp only [he, he', hne, ↓reduceIte]
    exact h.kept other ht hl

/-- The accord of two runs by what the program names. -/
def footprintAccord (tree : Tree) (s₀ t₀ : State) : Accord where
  rel := Footprint tree s₀ t₀
  lost _ := False
  sees name := name ∈ tree.names
  sets name := name ∈ tree.targets ∨ name ∈ tree.loopVariables
  adjusts := "set_precision" ∈ tree.functions
  measures h := ⟨h.digits, h.places⟩
  get h hn := h.agree _ hn
  set h hn value := h.change hn (v := some value) (by simp) (by simp)
  erase h hn := h.change hn (v := none) (by simp) (by simp)
  print h text := { h with output := congrArg (List.cons _) h.output }
  places h ha places := { h with places := rfl, precision := fun hn => absurd ha hn }
  digits h ha digits := { h with digits := rfl, precision := fun hn => absurd ha hn }
  loops h loops := { h with }

theorem footprint_traces (tree : Tree) (s₀ t₀ : State) : (footprintAccord tree s₀ t₀).Traces where
  tracing h := h.tracing
  source h := h.source
  write h _ := { h with output := congrArg (List.cons _) h.output }

theorem footprint_allows {tree : Tree} (ht : tree.Titled) (s₀ t₀ : State) {u : Term}
    (hb : Term.Below u (Term.ofTree tree)) : (footprintAccord tree s₀ t₀).Allows u := by
  cases u with
  | var name pos => exact (title_source ht hb rfl).1
  | assign name namePos op value pos =>
    obtain ⟨hname, htarget, _⟩ := title_source ht hb rfl
    exact ⟨hname, .inl (htarget rfl)⟩
  | loop name start stop step showsStep body pos =>
    obtain ⟨hname, _, hloop, _⟩ := title_source ht hb rfl
    exact ⟨hname, .inr (hloop rfl)⟩
  | call name pos items =>
    rintro rfl
    exact (title_source ht hb rfl).2.2.2 rfl
  | _ => trivial

/-- The states differ at most in variables other than the given ones. -/
def State.AgreesOn (names : List String) (s t : State) : Prop :=
  { t with env := s.env } = s ∧ ∀ name ∈ names, s.env.get? name = t.env.get? name

theorem State.AgreesOn.refl (names : List String) (s : State) : s.AgreesOn names s :=
  ⟨rfl, fun _ _ => rfl⟩

theorem Footprint.agreesOn {tree : Tree} {s₀ t₀ s t : State} (h : Footprint tree s₀ t₀ s t)
    (hl : s.loops = t.loops) : s.AgreesOn tree.names t := by
  refine ⟨?_, h.agree⟩
  cases s
  cases t
  simp only [State.mk.injEq, true_and]
  exact ⟨h.places.symm, h.digits.symm, h.tracing.symm, h.source.symm, hl.symm, h.output.symm⟩

theorem eval_footprint {tree : Tree} {s t : State} (limit : Nat) (hp : tree.IsProgram)
    (h : s.AgreesOn tree.names t) :
    (Run.eval limit (Term.ofTree tree) s).1 = (Run.eval limit (Term.ofTree tree) t).1 ∧
      Footprint tree s t (Run.eval limit (Term.ofTree tree) s).2
        (Run.eval limit (Term.ofTree tree) t).2 ∧
      (Run.eval limit (Term.ofTree tree) s).2.loops =
        (Run.eval limit (Term.ofTree tree) t).2.loops := by
  obtain ⟨heq, hagree⟩ := h
  have hstart : Footprint tree s t s t := by
    refine ⟨?_, ?_, ?_, ?_, ?_, hagree, fun _ _ _ => ⟨rfl, rfl⟩, fun _ => ⟨rfl, rfl⟩⟩ <;>
      rw [← heq]
  refine (footprint_traces tree s t).eval (fun _ h => h) (program_whole hp) ?_ limit hstart ?_
  · exact fun v hv => footprint_allows hp.titled s t hv
  · rw [← heq]

/-- What a run changes and what it depends on, whatever its end. A variable that is neither
assigned to nor the variable of a loop stays as it was; without a call of
`set_precision` so do places and digits; and two states that differ only in variables
which the program does not name give the same end and differ only there afterwards. -/
theorem runs_stay_in_footprint (limit : Nat) (s : State) {text : String} {tree : Tree}
    (h : Grammar.parse text = .ok tree) :
    (∀ name, name ∉ tree.targets → name ∉ tree.loopVariables →
      (s.executeWithin limit text).2.env.get? name = s.env.get? name) ∧
    ("set_precision" ∉ tree.functions →
      (s.executeWithin limit text).2.places = s.places ∧
        (s.executeWithin limit text).2.digits = s.digits) ∧
    ∀ t, s.AgreesOn tree.names t →
      (s.executeWithin limit text).1 = (t.executeWithin limit text).1 ∧
        (s.executeWithin limit text).2.AgreesOn tree.names (t.executeWithin limit text).2 := by
  have hp := Grammar.parse_isProgram h
  rw [State.executeWithin_ok h]
  have hself := eval_footprint limit hp (State.AgreesOn.refl tree.names
    { s with source := Text.lines text, output := [] })
  refine ⟨fun name ht hl => (hself.2.1.kept name ht hl).1, fun hn => hself.2.1.precision hn, ?_⟩
  intro t hagree
  have hstart : State.AgreesOn tree.names { s with source := Text.lines text, output := [] }
      { t with source := Text.lines text, output := [] } := by
    refine ⟨?_, hagree.2⟩
    rw [← hagree.1]
  obtain ⟨hend, hfoot, hloops⟩ := eval_footprint limit hp hstart
  rw [State.executeWithin_ok h]
  exact ⟨congrArg (Except.mapError Failure.exit) hend, hfoot.agreesOn hloops⟩

/-- A loop that assigns to one variable, run with another variable and without it. -/
theorem runs_stay_in_footprint_loop :
    ∃ tree, Grammar.parse "for i in 1..2 (x = i)" = .ok tree ∧
      tree.targets = ["x"] ∧ tree.loopVariables = ["i"] ∧ tree.functions = [] ∧
      (State.executeWithin 3 "for i in 1..2 (x = i)" { env := ⟨[("z", .text "a")]⟩ }).2.env.get? "z" =
        some (.text "a") ∧
      (State.executeWithin 3 "for i in 1..2 (x = i)" { env := ⟨[("z", .text "a")]⟩ }).2.digits = 28 ∧
      (State.executeWithin 3 "for i in 1..2 (x = i)" { env := ⟨[("z", .text "a")]⟩ }).1 =
        (State.executeWithin 3 "for i in 1..2 (x = i)" {}).1 := by
  have hnames : ((Grammar.parse "for i in 1..2 (x = i)").map fun tree =>
      (tree.names, tree.targets, tree.loopVariables, tree.functions)) =
        .ok (["i", "x", "i"], ["x"], ["i"], []) := by decide +kernel
  cases hp : Grammar.parse "for i in 1..2 (x = i)" with
  | error mistake =>
    rw [hp] at hnames
    cases hnames
  | ok tree =>
    rw [hp] at hnames
    obtain ⟨hall, htargets, hloops, hfunctions⟩ : tree.names = _ ∧ tree.targets = _ ∧
        tree.loopVariables = _ ∧ tree.functions = _ := by
      simpa [Except.map] using hnames
    obtain ⟨hkept, hprecision, hagree⟩ :=
      runs_stay_in_footprint 3 { env := ⟨[("z", .text "a")]⟩ } hp
    refine ⟨tree, rfl, htargets, hloops, hfunctions, ?_, ?_, ?_⟩
    · exact hkept "z" (by simp [htargets]) (by simp [hloops])
    · exact (hprecision (by simp [hfunctions])).2
    · refine (hagree {} ⟨rfl, ?_⟩).1
      rw [hall]
      decide

end DecimalScript
