import DecimalScript.Proofs.Footprint
import Mathlib

/-! Which variables a run defines. A loop takes its variable away again when it comes to
its end, but not when a jump to a loop further out leaves it half done. So a run
that ends with a value defines the targets of its assignments, and the variables
of loops that a jump can leave in this way. -/

namespace DecimalScript

/-! ### Jumps to loops further out -/

namespace Tree

def clauseOf : Tree → Option String
  | .node .fromClause _ (.token _ name _ :: _) | .node .loopVar _ (.token _ name _ :: _) => some name
  | _ => none

def body : Tree → List Tree
  | .node .forExpr _ kids => kids.drop (kids.length - 1)
  | _ => []

/-- A clause somewhere in the tree names the loop. -/
def Aims (tree : Tree) (name : String) : Prop :=
  ∃ clause ∈ tree.subtrees, clause.clauseOf = some name

instance (tree : Tree) (name : String) : Decidable (tree.Aims name) :=
  inferInstanceAs (Decidable (∃ clause ∈ tree.subtrees, clause.clauseOf = some name))

/-- The tree is a loop over the variable and names the other loop in its body. -/
def JumpsTo (tree : Tree) (name outer : String) : Prop :=
  tree.loopName = some name ∧ ∃ part ∈ tree.body, part.Aims outer

instance (tree : Tree) (name outer : String) : Decidable (tree.JumpsTo name outer) :=
  inferInstanceAs (Decidable (tree.loopName = some name ∧ ∃ part ∈ tree.body, part.Aims outer))

/-- Somewhere in the tree a loop over the variable stands in the body of a loop over another
one, and has a jump to that loop in its own body. -/
def Abandons (tree : Tree) (name : String) : Prop :=
  ∃ loop ∈ tree.subtrees, ∃ outer ∈ loop.loopName, outer ≠ name ∧
    ∃ part ∈ loop.body, ∃ inner ∈ part.subtrees, inner.JumpsTo name outer

instance (tree : Tree) (name : String) : Decidable (tree.Abandons name) :=
  inferInstanceAs (Decidable (∃ loop ∈ tree.subtrees, ∃ outer ∈ loop.loopName, outer ≠ name ∧
    ∃ part ∈ loop.body, ∃ inner ∈ part.subtrees, inner.JumpsTo name outer))

theorem Aims.child {label : Label} {pos : Option Pos} {kids : List Tree} {kid : Tree} {name : String}
    (h : kid.Aims name) (hk : kid ∈ kids) : (Tree.node label pos kids).Aims name := by
  obtain ⟨clause, hc, hname⟩ := h
  exact ⟨clause, mem_subtrees_of_child hk hc, hname⟩

end Tree

namespace Term

theorem Below.trans {t u w : Term} (h : Below t u) (hu : Below u w) : Below t w := by
  induction hu with
  | here => exact h
  | child hm _ ih => exact .child hm (ih h)

def aim? : Term → Option String
  | .leave (.ok name) _ _ _ | .skip (.ok name) _ _ => name
  | _ => none

/-- A jump somewhere in the term names the loop. -/
def Aims (t : Term) (name : String) : Prop := ∃ jump, Below jump t ∧ jump.aim? = some name

theorem Aims.child {t u : Term} {name : String} (h : Aims u name) (hu : u ∈ t.children) :
    Aims t name := by
  obtain ⟨jump, hb, ha⟩ := h
  exact ⟨jump, .child hu hb, ha⟩

/-- The term stands in the body of a loop over the variable in the program. -/
def InBody (program : Term) (name : String) (t : Term) : Prop :=
  ∃ start stop step showsStep body pos,
    Below (.loop name start stop step showsStep body pos) program ∧ Below t body

theorem InBody.child {program t u : Term} {name : String} (h : InBody program name t)
    (hu : u ∈ t.children) : InBody program name u := by
  obtain ⟨start, stop, step, showsStep, body, pos, hloop, hb⟩ := h
  exact ⟨start, stop, step, showsStep, body, pos, hloop, Below.trans (.child hu .here) hb⟩

/-- A loop over the variable, in the body of a loop over another one, has a jump to that loop
in its own body. -/
def Abandons (program : Term) (name : String) : Prop :=
  ∃ outer start stop step showsStep body pos, outer ≠ name ∧
    InBody program outer (.loop name start stop step showsStep body pos) ∧ body.Aims outer

theorem isAnchored_of_aim {t : Term} {name : String} (h : t.aim? = some name) : t.isAnchored := by
  cases t with
  | leave | skip => rfl
  | _ => cases h

end Term

/-! ### Back to trees -/

theorem clauseName_clauseOf {label : Label} {pos : Option Pos} {kids : List Tree} {name : String}
    (hl : label = .fromClause ∨ label = .loopVar)
    (h : Term.clauseName (kids.map Part.of) = .ok name) :
    (Tree.node label pos kids).clauseOf = some name := by
  cases kids with
  | nil => cases h
  | cons kid rest =>
    cases kid with
    | token terminal text place =>
      cases h
      rcases hl with rfl | rfl <;> rfl
    | node | value => cases h

/-- A clause with the deepest name below a node is a clause in it. -/
theorem deepest_aims (label : Label) (pos : Option Pos) {kids : List Tree}
    {find : Draft → Found (Except Defect String)}
    (h : ∀ kid ∈ kids, (find (Draft.ofTree kid)).All fun found => ∀ name, found = .ok name →
      kid.Aims name) :
    (deepest find (kids.map Part.of)).All fun found => ∀ name, found = .ok name →
      (Tree.node label pos kids).Aims name := by
  refine Found.deepest_all (List.forall_mem_map.mpr fun kid hk depth found hf name hn => ?_)
  exact (h kid hk depth found hf name hn).child hk

/-- The clauses found in a tree are clauses in it. -/
theorem draft_aims (tree : Tree) :
    ((Draft.ofTree tree).exit.All fun found => ∀ name, found = .ok name → tree.Aims name) ∧
      (Draft.ofTree tree).next.All fun found => ∀ name, found = .ok name → tree.Aims name := by
  induction tree using Tree.children_induction with
  | token | value => exact ⟨Found.all_none, Found.all_none⟩
  | node label pos kids ih =>
    have here (hl : label = .fromClause ∨ label = .loopVar) (name : String)
        (hn : Term.clauseName (kids.map Part.of) = .ok name) :
        (Tree.node label pos kids).Aims name :=
      ⟨_, Tree.self_mem_subtrees _, clauseName_clauseOf hl hn⟩
    have hexit := deepest_aims label pos fun kid hk => (ih kid hk).1
    have hnext := deepest_aims label pos fun kid hk => (ih kid hk).2
    rw [Draft.ofTree_node]
    refine ⟨hexit.orHere fun hl => here (.inl (by simpa using hl)), ?_⟩
    exact hnext.orHere fun hl => here (.inr (by simpa using hl))

theorem found_of_target {found : Found (Except Defect String)} {name : String}
    (h : Term.target found = .ok (some name)) : ∃ depth, found = some (depth, .ok name) := by
  cases found with
  | none => cases h
  | some pair =>
    obtain ⟨depth, value⟩ := pair
    cases value with
    | error defect => cases h
    | ok other =>
      cases h
      exact ⟨depth, rfl⟩

/-- A jump that names a loop comes from a place with a clause that names it. -/
theorem aim_source {w : Tree} {name : String} (hw : w.isAnchored)
    (h : (Term.ofTree w).aim? = some name) : w.Aims name := by
  have haims {label : Label} {pos : Option Pos} {kids : List Tree}
      {find : Draft → Found (Except Defect String)}
      (hf : ∀ kid ∈ kids, (find (Draft.ofTree kid)).All fun found => ∀ name, found = .ok name →
        kid.Aims name)
      (ht : Term.target (deepest find (kids.map Part.of)) = .ok (some name)) :
      (Tree.node label pos kids).Aims name := by
    obtain ⟨depth, hfound⟩ := found_of_target ht
    exact deepest_aims _ _ hf depth _ hfound name rfl
  cases hterm : Term.ofTree w with
  | leave target guard result place =>
    obtain ⟨pos, kids, rfl⟩ := anchor_node .breakStmt hw hterm rfl (by simp)
    rw [hterm] at h
    rw [Term.ofTree_node] at hterm
    cases target with
    | error defect => cases h
    | ok aim =>
      cases h
      exact haims (fun kid _ => (draft_aims kid).1) (Term.leave.inj hterm).1
  | skip target guard place =>
    obtain ⟨pos, kids, rfl⟩ := anchor_node .nextStmt hw hterm rfl (by simp)
    rw [hterm] at h
    rw [Term.ofTree_node] at hterm
    cases target with
    | error defect => cases h
    | ok aim =>
      cases h
      exact haims (fun kid _ => (draft_aims kid).2) (Term.skip.inj hterm).1
  | _ => rw [hterm] at h; cases h

/-- What stands in the body of a loop comes from the body of the loop in the tree. -/
theorem body_source {w : Tree} {name : String} {start stop step body u : Term} {showsStep : Bool}
    {pos : Option Pos} (hw : w.isAnchored)
    (h : Term.ofTree w = .loop name start stop step showsStep body pos) (hb : Term.Below u body)
    (hu : u.isAnchored) :
    w.loopName = some name ∧
      ∃ part ∈ w.body, ∃ x ∈ part.subtrees, x.isAnchored ∧ Term.ofTree x = u := by
  rcases anchor_source hw h rfl with ⟨_, _, _, _, hvar⟩ | ⟨place, kids, rfl, htitle⟩
  · cases hvar
  · obtain ⟨terminal, spot, rest, rfl⟩ := htitle name rfl
    rw [Term.ofTree_node] at h
    obtain ⟨-, -, -, -, -, rfl, -⟩ := Term.loop.inj h
    refine ⟨rfl, ?_⟩
    rw [List.length_map] at hb
    dsimp only at hb
    rcases ofFirst_drop (.token terminal name spot :: rest)
      ((Tree.token terminal name spot :: rest).length - 1) with ⟨part, hp, heq⟩ | heq
    · rw [heq] at hb
      obtain ⟨x, hx, hxa, hterm⟩ := (draft_from part).term u hb hu
      refine ⟨part, List.mem_of_getElem? (i := 0) ?_, x, hx, hxa, hterm⟩
      rw [Tree.body, List.getElem?_drop]
      exact hp
    · rw [heq] at hb
      rw [below_leaf hb rfl] at hu
      cases hu

theorem abandons_source {tree : Tree} {name : String} (h : (Term.ofTree tree).Abandons name) :
    tree.Abandons name := by
  obtain ⟨outer, start, stop, step, showsStep, body, pos, hne, hin, jump, hjump, haim⟩ := h
  obtain ⟨start', stop', step', showsStep', around, pos', houter, hinner⟩ := hin
  obtain ⟨w, hw, hwa, heq⟩ := (draft_from tree).term _ houter rfl
  obtain ⟨hname, part, hp, x, hx, hxa, hterm⟩ := body_source hwa heq hinner rfl
  have hanchored := Term.isAnchored_of_aim haim
  obtain ⟨hname', part', hp', y, hy, hya, rfl⟩ := body_source hxa hterm hjump hanchored
  obtain ⟨clause, hc, hclause⟩ := aim_source hya haim
  refine ⟨w, hw, outer, hname, hne, part, hp, x, hx, hname', part', hp', clause, ?_, hclause⟩
  exact Tree.mem_subtrees_trans hy hc

/-! ### Two equal runs, and what they define -/

/-- All variables that the state defines are among the given ones. -/
def State.Within (defined : String → Prop) (s : State) : Prop :=
  ∀ name, s.Defines name → defined name

theorem State.Within.set {defined more : String → Prop} {s : State} {name : String}
    (h : s.Within defined) (hm : ∀ other, defined other → more other) (hn : more name)
    (value : Value) : State.Within more { s with env := s.env.set name value } := by
  intro other ho
  by_cases hne : other = name
  · rw [hne]
    exact hn
  · refine hm other (h other ?_)
    simpa [State.Defines, hne] using ho

theorem State.Within.erase {defined : String → Prop} {s : State} {name : String}
    (h : s.Within fun other => defined other ∨ other = name) :
    State.Within defined { s with env := s.env.erase name } := by
  intro other ho
  have hne : other ≠ name := by
    rintro rfl
    simp [State.Defines] at ho
  refine (h other ?_).resolve_right hne
  simpa [State.Defines, hne] using ho

/-- A run keeps to the given variables while the given loops run, also when it ends with a
signal that one of the waiting loops takes. Such a signal is for the innermost loop, or
for one that a jump names. -/
def visibility (defined aims : String → Prop) (stack waiting : List String) : Coupling where
  rel s t := s = t ∧ s.loops = stack ∧ s.Within defined
  exit e s t := s = t ∧ s.loops = stack ∧ ∀ signal, e = .signal signal → signal.target ∈ waiting →
    s.Within defined ∧ (stack.head? = some signal.target ∨ aims signal.target)
  lost _ := False
  stack := stack
  sees _ := True
  sets := defined
  aims := aims
  adjusts := True
  measures := by
    rintro s _ ⟨rfl, _⟩
    exact ⟨rfl, rfl⟩
  loops := by
    rintro s _ ⟨rfl, hl, _⟩
    exact ⟨hl, hl⟩
  exit_loops := by
    rintro e s _ ⟨rfl, hl, _⟩
    exact ⟨hl, hl⟩
  get := by
    rintro s _ name ⟨rfl, _⟩ _
    rfl
  set := by
    rintro s _ name ⟨rfl, hl, hd⟩ hn value
    exact ⟨rfl, hl, hd.set (fun _ h => h) hn value⟩
  print := by
    rintro s _ ⟨rfl, hl, hd⟩ text
    exact ⟨rfl, hl, hd⟩
  places := by
    rintro s _ ⟨rfl, hl, hd⟩ _ places
    exact ⟨rfl, hl, hd⟩
  digits := by
    rintro s _ ⟨rfl, hl, hd⟩ _ digits
    exact ⟨rfl, hl, hd⟩
  stop := by
    rintro e s _ ⟨rfl, hl, hd⟩ he
    exact ⟨rfl, hl, fun signal h => absurd h (he signal)⟩
  jump := by
    rintro signal s _ ⟨rfl, hl, hd⟩ ha
    refine ⟨rfl, hl, ?_⟩
    rintro _ ⟨⟩ _
    exact ⟨hd, ha⟩

section Visibility
variable {defined aims inner : String → Prop} {stack waiting : List String} {name : String}

theorem visibility_traces : (visibility defined aims stack waiting).Traces where
  tracing h := congrArg State.tracing h.1
  source h := congrArg State.source h.1
  write := by
    rintro s _ ⟨rfl, hl, hd⟩ text
    exact ⟨rfl, hl, hd⟩

variable (inner) in
/-- In the body of a loop its variable is defined too. A jump of the body to a waiting loop
keeps it defined. -/
theorem visibility_enters (hw : ∀ other ∈ waiting, other ∈ stack) (hn : name ∉ stack)
    (hj : ∀ other ∈ waiting, inner other → defined name ∧ aims other) :
    (visibility defined aims stack waiting).Enters name
      (visibility defined aims (name :: stack) waiting)
      (visibility (fun other => defined other ∨ other = name) inner (name :: stack)
        (name :: waiting)) where
  head_stack := rfl
  body_stack := rfl
  head_lost h := h
  body_lost h := h
  head_sees := trivial
  body_sees := trivial
  body_sets := .inr rfl
  enter := by
    rintro s _ ⟨rfl, hl, hd⟩
    exact ⟨rfl, congrArg _ hl, hd⟩
  first := by
    rintro s _ ⟨rfl, hl, hd⟩ value
    exact ⟨rfl, hl, hd.set (fun _ h => .inl h) (.inr rfl) value⟩
  erase := by
    rintro s _ u _ _ _ ⟨rfl, hl, hd⟩
    exact ⟨rfl, hl, hd.erase⟩
  restore := by
    rintro s _ u _ ⟨rfl, _, hs⟩ hdef ⟨rfl, hl, hd⟩ value
    have hname := hs name hdef
    refine ⟨rfl, hl, hd.set ?_ hname value⟩
    rintro other (h | rfl)
    · exact h
    · exact hname
  back := by
    rintro s _ ⟨rfl, _, hd⟩
    exact ⟨rfl, rfl, hd⟩
  head_exit := by
    rintro e s _ ⟨rfl, _, he⟩
    refine ⟨rfl, rfl, fun signal hs ht => ?_⟩
    obtain ⟨hd, haim⟩ := he signal hs ht
    refine ⟨hd, .inr (haim.resolve_left fun hhead => hn ?_)⟩
    rw [Option.some.inj hhead]
    exact hw _ ht
  body_exit := by
    rintro e s _ ⟨rfl, _, he⟩ hne
    refine ⟨rfl, rfl, fun signal hs ht => ?_⟩
    obtain ⟨hd, haim⟩ := he signal hs (List.mem_cons_of_mem _ ht)
    have haim := haim.resolve_left fun hhead => hne signal hs (Option.some.inj hhead).symm
    obtain ⟨hname, hout⟩ := hj _ ht haim
    refine ⟨fun other ho => (hd other ho).elim id ?_, .inr hout⟩
    rintro rfl
    exact hname
  caught := by
    rintro signal s _ ⟨rfl, hl, he⟩ rfl
    exact ⟨rfl, hl, (he signal rfl (List.mem_cons_self ..)).1⟩

end Visibility

/-- A run of a part of a program keeps to the targets of assignments and to the variables of
loops that a jump can abandon. -/
theorem visibility_covers {program t : Term} {defined aims : String → Prop}
    {stack waiting : List String} (ht : Term.Below t program)
    (hassign : ∀ name namePos op value pos,
      Term.Below (.assign name namePos op value pos) program → defined name)
    (habandon : ∀ name, program.Abandons name → defined name)
    (haims : ∀ name, t.Aims name → aims name) (hw : ∀ name ∈ waiting, name ∈ stack)
    (hbody : ∀ name ∈ waiting, program.InBody name t) :
    (visibility defined aims stack waiting).Covers t := by
  induction t using Term.children_induction generalizing defined aims stack waiting with
  | step t ih =>
    have hchild {u : Term} (hu : u ∈ t.children) : Term.Below u program :=
      Term.Below.trans (.child hu .here) ht
    have hinside {u : Term} (hu : u ∈ t.children) {stack : List String}
        (hw : ∀ name ∈ waiting, name ∈ stack) : (visibility defined aims stack waiting).Covers u :=
      ih u hu (hchild hu) hassign habandon (fun name hn => haims name (hn.child hu)) hw
        fun name hn => (hbody name hn).child hu
    by_cases hp : t.isPlain
    · refine .plain hp ?_ fun u hu => hinside hu hw
      cases t with
      | assign name namePos op value pos => exact ⟨trivial, hassign _ _ _ _ _ ht⟩
      | leave target guard result pos | skip target guard pos =>
        rintro name rfl
        exact haims name ⟨_, .here, rfl⟩
      | call => exact fun _ => trivial
      | _ => trivial
    · cases t with
      | traced note pos item =>
        exact .traced visibility_traces (fun _ _ => trivial) (hinside (by simp [Term.children]) hw)
      | loop name start stop step showsStep body pos =>
        have hmem : body ∈ (Term.loop name start stop step showsStep body pos).children := by
          simp [Term.children]
        refine .loop (fun hn => visibility_enters body.Aims hw hn ?_) visibility_traces
          trivial ?_ ?_
        · intro outer ho haim
          have hne : outer ≠ name := fun heq => hn (heq ▸ hw outer ho)
          refine ⟨habandon name ?_, haims outer (haim.child hmem)⟩
          exact ⟨outer, start, stop, step, showsStep, body, pos, hne, hbody outer ho, haim⟩
        · exact fun u hu => hinside (Term.header_children hu) fun other ho =>
            List.mem_cons_of_mem _ (hw other ho)
        · refine ih body hmem (hchild hmem) (fun _ _ _ _ _ h => .inl (hassign _ _ _ _ _ h))
            (fun other h => .inl (habandon other h)) (fun _ h => h) ?_ ?_
          · intro other ho
            exact (List.mem_cons.mp ho).elim (fun h => h ▸ List.mem_cons_self ..)
              fun h => List.mem_cons_of_mem _ (hw other h)
          · intro other ho
            rcases List.mem_cons.mp ho with rfl | ho
            · exact ⟨start, stop, step, showsStep, body, pos, ht, .here⟩
            · exact (hbody other ho).child hmem
      | _ => exact absurd rfl hp

/-- After a run that ends with a value, and that began outside of all loops, a variable is
defined only if it was before, if the program assigns to it, or if it is the variable
of a loop that a jump can leave for a loop further out. -/
theorem defined_variables_are_assigned_or_abandoned {limit : Nat} {s : State} {text : String}
    {tree : Tree} {value : Value} (h : Grammar.parse text = .ok tree) (hs : s.loops = [])
    (hv : (s.executeWithin limit text).1 = .ok value) :
    ∀ name, (s.executeWithin limit text).2.Defines name →
      s.Defines name ∨ name ∈ tree.targets ∨ tree.Abandons name := by
  have htitled := (Grammar.parse_isProgram h).titled
  have hcovers : (visibility (fun name => s.Defines name ∨ name ∈ tree.targets ∨ tree.Abandons name)
      (Term.ofTree tree).Aims [] []).Covers (Term.ofTree tree) := by
    refine visibility_covers .here ?_ ?_ (fun _ h => h) nofun nofun
    · exact fun name _ _ _ _ hb => .inr (.inl ((title_source htitled hb rfl).2.1 rfl))
    · exact fun name ha => .inr (.inr (abandons_source ha))
  have hkeeps := hcovers.eval limit
    (s := { s with source := Text.lines text, output := [] }) ⟨rfl, hs, fun name hn => .inl hn⟩
  rw [State.executeWithin_ok h] at hv ⊢
  cases hkeeps with
  | value hx _ hr =>
    rw [hx]
    exact hr.2.2
  | exit hx | lost hx =>
    rw [hx] at hv
    cases hv

/-- A loop that is left by a jump to itself takes its variable away. -/
theorem defined_variables_are_assigned_or_abandoned_inner :
    ∃ tree value, Grammar.parse "for i in 1..2 (for j in 1..3 (break from j with 1))" = .ok tree ∧
      tree.loopVariables = ["i", "j"] ∧
      (State.executeWithin 4 "for i in 1..2 (for j in 1..3 (break from j with 1))" {}).1 = .ok value ∧
      ¬(State.executeWithin 4 "for i in 1..2 (for j in 1..3 (break from j with 1))" {}).2.Defines "j" := by
  have hparts : ((Grammar.parse "for i in 1..2 (for j in 1..3 (break from j with 1))").map fun tree =>
      (tree.targets, tree.loopVariables, decide (tree.Abandons "j"))) =
        .ok ([], ["i", "j"], false) := by decide +kernel
  have hvalue : (State.executeWithin 4 "for i in 1..2 (for j in 1..3 (break from j with 1))" {}).1 =
      .ok (.decimal (.finite false 10000000000 (-10))) := by decide +kernel
  cases hp : Grammar.parse "for i in 1..2 (for j in 1..3 (break from j with 1))" with
  | error mistake =>
    rw [hp] at hparts
    cases hparts
  | ok tree =>
    rw [hp] at hparts
    obtain ⟨htargets, hloops, habandons⟩ :
        tree.targets = [] ∧ tree.loopVariables = ["i", "j"] ∧ ¬tree.Abandons "j" := by
      simpa [Except.map] using hparts
    refine ⟨tree, _, rfl, hloops, hvalue, fun hd => ?_⟩
    rcases defined_variables_are_assigned_or_abandoned hp rfl hvalue "j" hd with h | h | h
    · simp [State.Defines, Env.get?] at h
    · simp [htargets] at h
    · exact habandons h

/-- A loop that is left by a jump to the loop around it leaves its variable defined, which was
not defined before and is assigned to nowhere. -/
theorem loop_variable_stays_after_outer_break :
    (Grammar.parse "for i in 1..2 (for j in 1..3 (break from i with 1))").map Tree.targets = .ok [] ∧
    (State.executeWithin 4 "for i in 1..2 (for j in 1..3 (break from i with 1))" {}).1 =
      .ok (.decimal (.finite false 10000000000 (-10))) ∧
    ¬State.Defines {} "j" ∧
    (State.executeWithin 4 "for i in 1..2 (for j in 1..3 (break from i with 1))" {}).2.Defines "j" := by
  unfold State.Defines
  decide +kernel

end DecimalScript
