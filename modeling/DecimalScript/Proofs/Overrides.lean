import DecimalScript.CommandLine.Run
import DecimalScript.Proofs.Footprint
import Mathlib

/-! The variables that are given on the command line. The last text for a name counts, and no order
of the names: a run looks variables up by their names only. The first text that gives no
variable is the one that is reported. -/

namespace DecimalScript

namespace CommandLine

/-! ### The texts of variables -/

def IsOverride (item : String) : Prop := ∃ entry, readOverride item = .ok entry

def itemName (item : String) : Option String := (readOverride item).toOption.map (·.1)

/-- The last text for each name. -/
def lastItems : List String → List String
  | [] => []
  | item :: rest =>
    if rest.any (itemName · == itemName item) then lastItems rest else item :: lastItems rest

/-- Enters the variables of several texts. -/
def enterAll (entered : List (String × Decimal)) (items : List String) :
    Except BadOverride (List (String × Decimal)) :=
  items.foldlM (fun overrides item => do
    let (name, x) ← readOverride item
    return enter name x overrides) entered

section Reading
variable {entered : List (String × Decimal)} {item name : String} {rest items : List String}
  {x : Decimal} {bad : BadOverride}

theorem enterAll_of_ok (h : readOverride item = .ok (name, x)) :
    enterAll entered (item :: rest) = enterAll (enter name x entered) rest := by
  rw [enterAll, List.foldlM_cons, h]
  rfl

theorem enterAll_of_error (h : readOverride item = .error bad) :
    enterAll entered (item :: rest) = .error bad := by
  rw [enterAll, List.foldlM_cons, h]
  rfl

/-- Texts are refused for the first of them that gives no variable. -/
theorem enterAll_error_iff : enterAll entered items = .error bad ↔
    ∃ before item after, items = before ++ item :: after ∧ (∀ other ∈ before, IsOverride other) ∧
      readOverride item = .error bad := by
  induction items generalizing entered with
  | nil => simp [enterAll, pure, Except.pure]
  | cons first rest ih =>
    cases hfirst : readOverride first with
    | error other =>
      rw [enterAll_of_error hfirst]
      constructor
      · rintro ⟨rfl⟩
        exact ⟨[], first, rest, rfl, by simp, hfirst⟩
      · rintro ⟨before, item, after, heq, hbefore, hitem⟩
        cases before with
        | nil =>
          cases heq
          cases hfirst.symm.trans hitem
          rfl
        | cons head tail =>
          cases heq
          obtain ⟨entry, hentry⟩ := hbefore first (List.mem_cons_self ..)
          cases hfirst.symm.trans hentry
    | ok entry =>
      rw [enterAll_of_ok hfirst, ih]
      constructor
      · rintro ⟨before, item, after, rfl, hbefore, hitem⟩
        exact ⟨first :: before, item, after, rfl,
          List.forall_mem_cons.mpr ⟨⟨entry, hfirst⟩, hbefore⟩, hitem⟩
      · rintro ⟨before, item, after, heq, hbefore, hitem⟩
        cases before with
        | nil =>
          cases heq
          cases hfirst.symm.trans hitem
        | cons head tail =>
          cases heq
          exact ⟨tail, item, after, rfl, fun other ho => hbefore other (List.mem_cons_of_mem _ ho), hitem⟩

theorem isOverride_of_enterAll {overrides : List (String × Decimal)}
    (h : enterAll entered items = .ok overrides) : ∀ item ∈ items, IsOverride item := by
  induction items generalizing entered with
  | nil => simp
  | cons first rest ih =>
    cases hfirst : readOverride first with
    | error bad =>
      rw [enterAll_of_error hfirst] at h
      cases h
    | ok entry =>
      rw [enterAll_of_ok hfirst] at h
      exact List.forall_mem_cons.mpr ⟨⟨entry, hfirst⟩, ih h⟩

end Reading

/-! ### The variables that are given -/

def given (entered : List (String × Decimal)) : Env :=
  ⟨entered.map fun entry => (entry.1, .decimal entry.2)⟩

section Given
variable {entered : List (String × Decimal)} {items : List String}

theorem given_enter (name : String) (x : Decimal) (entered : List (String × Decimal)) :
    given (enter name x entered) = (given entered).set name (.decimal x) := by
  induction entered with
  | nil => rfl
  | cons entry rest ih =>
    simp only [given, Env.set, Env.mk.injEq] at ih
    simp only [given, enter, Env.set, List.map_cons, Env.setIn, ← ih]
    split <;> rfl

theorem mem_names_enter {name other : String} {x : Decimal}
    (h : other ∈ (enter name x entered).map Prod.fst) : other = name ∨ other ∈ entered.map Prod.fst := by
  induction entered with
  | nil => exact .inl (List.mem_singleton.mp h)
  | cons entry rest ih =>
    rw [enter] at h
    split at h
    · exact (List.mem_cons.mp h).imp_right (List.mem_cons_of_mem _)
    · rcases List.mem_cons.mp h with rfl | h
      · exact .inr (List.mem_cons_self ..)
      · exact (ih h).imp_right (List.mem_cons_of_mem _)

/-- Each name is entered once. -/
theorem nodup_enter (name : String) (x : Decimal) (h : (entered.map Prod.fst).Nodup) :
    ((enter name x entered).map Prod.fst).Nodup := by
  induction entered with
  | nil => exact List.nodup_singleton name
  | cons entry rest ih =>
    obtain ⟨hentry, hrest⟩ := List.nodup_cons.mp h
    rw [enter]
    split
    · rename_i heq
      exact List.nodup_cons.mpr ⟨heq ▸ hentry, hrest⟩
    · rename_i hne
      exact List.nodup_cons.mpr ⟨fun hmem => (mem_names_enter hmem).elim hne hentry, ih hrest⟩

/-- The last of the texts for a name gives this value. -/
def Gives (items : List String) (name : String) (v : Value) : Prop :=
  ∃ item ∈ lastItems items, ∃ x, readOverride item = .ok (name, x) ∧ v = .decimal x

/-- A text counts if there is no other one for its name behind it. -/
theorem gives_cons {item first name : String} {y : Decimal} {rest : List String} {v : Value}
    (h : readOverride item = .ok (first, y)) :
    Gives (item :: rest) name v ↔ Gives rest name v ∨
      (first = name ∧ v = .decimal y ∧ ∀ other ∈ rest, itemName other ≠ some name) := by
  have hname : itemName item = some first := by simp [itemName, h, Except.toOption]
  have hany : rest.any (itemName · == itemName item) = true ↔
      ∃ other ∈ rest, itemName other = some first := by simp [hname]
  unfold Gives
  rw [lastItems]
  split_ifs with hlater
  · obtain ⟨other, hother, heq⟩ := hany.mp hlater
    refine ⟨.inl, fun hg => hg.elim id ?_⟩
    rintro ⟨rfl, -, hnone⟩
    exact absurd heq (hnone other hother)
  · have hlast : ∀ other ∈ rest, itemName other ≠ some first :=
      fun other ho heq => hlater (hany.mpr ⟨other, ho, heq⟩)
    rw [List.exists_mem_cons_iff, or_comm]
    refine or_congr_right ⟨?_, ?_⟩
    · rintro ⟨x, hx, rfl⟩
      cases h.symm.trans hx
      exact ⟨rfl, rfl, hlast⟩
    · rintro ⟨rfl, rfl, -⟩
      exact ⟨y, h, rfl⟩

/-- What texts give for a name: the number of the last one for this name, or else what was entered
before them. -/
theorem enterAll_ok (h : ∀ item ∈ items, IsOverride item) (hn : (entered.map Prod.fst).Nodup) :
    ∃ overrides, enterAll entered items = .ok overrides ∧ (overrides.map Prod.fst).Nodup ∧
      ∀ name v, (given overrides).get? name = some v ↔ Gives items name v ∨
        ((given entered).get? name = some v ∧ ∀ item ∈ items, itemName item ≠ some name) := by
  induction items generalizing entered with
  | nil => exact ⟨entered, rfl, hn, by simp [Gives, lastItems]⟩
  | cons item rest ih =>
    obtain ⟨⟨first, y⟩, hitem⟩ := h item (List.mem_cons_self ..)
    obtain ⟨overrides, hread, hnodup, hget⟩ := ih (fun other ho => h other (List.mem_cons_of_mem _ ho))
      (nodup_enter first y hn)
    have hname : itemName item = some first := by simp [itemName, hitem, Except.toOption]
    refine ⟨overrides, (enterAll_of_ok hitem).trans hread, hnodup, fun name v => ?_⟩
    rw [hget, given_enter, Env.get?_set, gives_cons hitem, List.forall_mem_cons, hname]
    by_cases hf : name = first
    · subst hf
      simp [eq_comm, and_comm]
    · simp [hf, Ne.symm hf]

/-- The variables of texts that give some are those of the last text for each name. -/
theorem readOverrides_ok (h : ∀ item ∈ items, IsOverride item) :
    ∃ overrides, readOverrides items = .ok overrides ∧ (overrides.map Prod.fst).Nodup ∧
      ∀ name v, (given overrides).get? name = some v ↔ Gives items name v := by
  have hnil : (([] : List (String × Decimal)).map Prod.fst).Nodup := List.nodup_nil
  obtain ⟨overrides, hread, hnodup, hget⟩ := enterAll_ok h hnil
  refine ⟨overrides, hread, hnodup, fun name v => (hget name v).trans ?_⟩
  simp [given, Env.get?]

theorem mem_of_mem_lastItems {item : String} (h : item ∈ lastItems items) : item ∈ items := by
  induction items with
  | nil => exact h
  | cons first rest ih =>
    rw [lastItems] at h
    split at h
    · exact List.mem_cons_of_mem _ (ih h)
    · exact List.mem_cons.mpr ((List.mem_cons.mp h).imp_right ih)

/-- The last texts are for different names. -/
theorem lastItems_pairwise (items : List String) :
    (lastItems items).Pairwise fun a b => itemName a ≠ itemName b := by
  induction items with
  | nil => exact .nil
  | cons item rest ih =>
    rw [lastItems]
    split
    · exact ih
    · rename_i hlast
      refine List.pairwise_cons.mpr ⟨fun other ho heq => hlast ?_, ih⟩
      exact List.any_eq_true.mpr ⟨other, mem_of_mem_lastItems ho, by simp [heq]⟩

theorem lastItems_eq_self (h : items.Pairwise fun a b => itemName a ≠ itemName b) :
    lastItems items = items := by
  induction items with
  | nil => rfl
  | cons item rest ih =>
    obtain ⟨hitem, hrest⟩ := List.pairwise_cons.mp h
    have hlast : ¬ rest.any (itemName · == itemName item) = true := by
      simpa using fun other ho => Ne.symm (hitem other ho)
    rw [lastItems, if_neg hlast, ih hrest]

/-- In no order the last texts give anything else. -/
theorem gives_perm {others : List String} (h : others.Perm (lastItems items)) {name : String}
    {v : Value} : Gives others name v ↔ Gives items name v := by
  have hothers : lastItems others = others :=
    lastItems_eq_self ((h.pairwise_iff fun hne => hne.symm).mpr (lastItems_pairwise items))
  unfold Gives
  rw [hothers]
  simp only [h.mem_iff]

end Given

/-! ### Runs with them -/

theorem foldl_set {entries : List (String × Value)} (h : (entries.map Prod.fst).Nodup) (env : Env)
    (name : String) :
    (entries.foldl (fun env entry => env.set entry.1 entry.2) env).get? name =
      ((⟨entries⟩ : Env).get? name).or (env.get? name) := by
  induction entries generalizing env with
  | nil => rfl
  | cons entry rest ih =>
    obtain ⟨hentry, hrest⟩ := List.nodup_cons.mp h
    rw [List.foldl_cons, ih hrest, Env.get?_set]
    change _ = (List.lookup name (entry :: rest)).or _
    rw [Env.lookup_cons_eq]
    split
    · rename_i heq
      have hnone : rest.lookup name = none := by
        refine List.lookup_eq_none_iff.mpr fun other ho => ?_
        have hne : entry.1 ≠ other.1 := fun hsame => hentry (hsame ▸ List.mem_map_of_mem ho)
        simpa [heq] using hne
      change Option.or (rest.lookup name) _ = _
      rw [hnone]
      rfl
    · rfl

end CommandLine

/-- Two states that differ at most in the order of their variables give a program the same end. -/
theorem State.executeWithin_agree {s t : State} (h : ∀ names, s.AgreesOn names t) (limit : Nat)
    (text : String) :
    (s.executeWithin limit text).1 = (t.executeWithin limit text).1 ∧
      (s.executeWithin limit text).2.AgreesOn [] (t.executeWithin limit text).2 := by
  obtain ⟨henv, -⟩ := h []
  cases hp : Grammar.parse text with
  | error mistake =>
    unfold executeWithin
    rw [hp]
    refine ⟨rfl, ?_, by simp⟩
    rw [← henv]
  | ok tree =>
    have hstart : State.AgreesOn tree.names { s with source := Text.lines text, output := [] }
        { t with source := Text.lines text, output := [] } := by
      refine ⟨?_, (h tree.names).2⟩
      rw [← henv]
    obtain ⟨hend, hfoot, hloops⟩ := eval_footprint limit (Grammar.parse_isProgram hp) hstart
    rw [executeWithin_ok hp, executeWithin_ok hp]
    exact ⟨congrArg (Except.mapError Failure.exit) hend, (hfoot.agreesOn hloops).1, by simp⟩

/-- Variables play no part in the text of a value. -/
theorem State.format_agree {s t : State} (h : s.AgreesOn [] t) (value : Value) :
    s.format value = t.format value := by
  obtain ⟨henv, -⟩ := h
  have hformat := (Run.format_steady value).alike (s := { s with output := [] })
    (t := { t with output := [] }) (by rw [← henv]) (by rw [← henv])
  change (Run.format value { s with output := [] }).1.mapError Failure.exit =
    (Run.format value { t with output := [] }).1.mapError Failure.exit
  rcases hformat with ⟨text, hs, ht⟩ | ⟨fault, hs, ht⟩ <;> rw [hs, ht]

namespace CommandLine

/-- Numbers that are the same for each name are the same to a program. -/
theorem runProgram_congr {limit : Nat} {program : String}
    {overrides others : List (String × Decimal)} {tracing : Bool}
    (h : (overrides.map Prod.fst).Nodup) (h' : (others.map Prod.fst).Nodup)
    (hget : ∀ name, (given overrides).get? name = (given others).get? name) :
    runProgram limit program overrides tracing = runProgram limit program others tracing := by
  have hnames (entered : List (String × Decimal)) :
      ((given entered).entries.map Prod.fst) = entered.map Prod.fst := by simp [given]
  have hagree (names : List String) : State.AgreesOn names
      (State.new 28 (given overrides).entries tracing) (State.new 28 (given others).entries tracing) := by
    refine ⟨rfl, fun name _ => ?_⟩
    refine (foldl_set ((hnames overrides).symm ▸ h) _ name).trans ?_
    refine Eq.trans ?_ (foldl_set ((hnames others).symm ▸ h') _ name).symm
    exact congrArg (Option.or · _) (hget name)
  have hruns := State.executeWithin_agree hagree limit program
  cases hs : (State.new 28 (given overrides).entries tracing).executeWithin limit program with
  | mk r u =>
    cases ht : (State.new 28 (given others).entries tracing).executeWithin limit program with
    | mk r' v =>
      rw [hs, ht] at hruns
      obtain ⟨rfl, hstate⟩ : r = r' ∧ u.AgreesOn [] v := hruns
      have hout : u.outputText = v.outputText := by
        unfold State.outputText
        rw [← hstate.1]
      unfold runProgram
      extract_lets first second
      have hfirst : (State.new 28 first tracing).executeWithin limit program = (r, u) := hs
      have hsecond : (State.new 28 second tracing).executeWithin limit program = (r, v) := ht
      rw [hfirst, hsecond]
      simp only [hout, State.format_agree hstate]

/-- A script does the same with the last texts for each name, in any order, as with all texts. -/
theorem runScript_lastItems {limit : Nat} {folder : Folder} {script : String}
    {items others : List String} {tracing : Bool} (h : ∀ item ∈ items, IsOverride item)
    (hp : others.Perm (lastItems items)) :
    runScript limit folder script items tracing = runScript limit folder script others tracing := by
  have h' : ∀ item ∈ others, IsOverride item :=
    fun item hi => h item (mem_of_mem_lastItems (hp.mem_iff.mp hi))
  obtain ⟨overrides, hread, hnodup, hget⟩ := readOverrides_ok h
  obtain ⟨overrides', hread', hnodup', hget'⟩ := readOverrides_ok h'
  have hsame (name : String) : (given overrides).get? name = (given overrides').get? name :=
    Option.ext fun v => by rw [hget, hget', gives_perm hp]
  unfold runScript
  rw [hread, hread']
  simp only [runProgram_congr hnodup hnodup' hsame]

/-! ### The arguments -/

/-- An argument that asks for tracing. -/
def AsksTracing (argument : String) : Prop := classify argument = .ok (.option .trace false none)

/-- The arguments ask for a run of the script with these texts of variables. -/
def Asks (arguments : List String) (script : String) (items : List String) (tracing : Bool) : Prop :=
  readArguments arguments = .ok (.run script items tracing)

theorem isName_dash (rest : List Char) : isName (Text.trimmed ('-' :: rest)) = false := by
  have hprefix : Text.trimmed ('-' :: rest) <+: '-' :: rest := List.rdropWhile_prefix ..
  cases htrimmed : Text.trimmed ('-' :: rest) with
  | nil => rfl
  | cons c other =>
    rw [htrimmed] at hprefix
    obtain ⟨rfl, -⟩ := List.cons_prefix_cons.mp hprefix
    rfl

/-- A text that gives a variable is no option. -/
theorem IsOverride.classify {item : String} (h : IsOverride item) : classify item = .ok .positional := by
  obtain ⟨entry, hread⟩ := h
  have hstart : item.startsWith "-" = false := by
    rw [← Bool.not_eq_true, String.startsWith_string_iff]
    rintro ⟨rest, hrest⟩
    have hitem : item.toList = '-' :: rest := hrest.symm
    unfold readOverride at hread
    rw [hitem] at hread
    dsimp only at hread
    split at hread
    · cases hread
    · simp [isName_dash] at hread
  simp [CommandLine.classify, hstart]

theorem not_classified_divider {kind : Kind} : classify "--" ≠ .ok kind := by
  have h : classify "--" = .error (.ambiguous "--" ["--help", "--trace"]) := by decide +kernel
  rw [h]
  simp

section Rows
variable {items : List String} {kind : Kind}

theorem classifyAll_append (h : ∀ item ∈ items, classify item = .ok kind) {rest : List String}
    {kinds : List (String × Kind)} (hr : classifyAll rest = .ok kinds) :
    classifyAll (items ++ rest) = .ok (items.map (·, kind) ++ kinds) := by
  induction items with
  | nil => exact hr
  | cons item others ih =>
    obtain ⟨hitem, hothers⟩ := List.forall_mem_cons.mp h
    have hne : item ≠ "--" := by
      rintro rfl
      exact not_classified_divider hitem
    rw [List.cons_append, classifyAll, if_neg hne, hitem, ih hothers]
    rfl

theorem read_positional (reader : Reader) (row rest : List (String × Kind)) :
    reader.read row (items.map (·, .positional) ++ rest) =
      reader.read (row ++ items.map (·, .positional)) rest := by
  induction items generalizing row with
  | nil => simp
  | cons item others ih =>
    rw [List.map_cons, List.cons_append, Reader.read]
    refine (ih _).trans ?_
    simp

/-- Options before or behind the row of the script set the tracing and nothing else. -/
theorem read_tracing (reader : Reader) (options : List String) (rest : List (String × Kind)) :
    reader.read [] (options.map (·, .option .trace false none) ++ rest) =
      Reader.read { reader with tracing := reader.tracing || !options.isEmpty } [] rest := by
  induction options generalizing reader with
  | nil => simp
  | cons option others ih =>
    rw [List.map_cons, List.cons_append, Reader.read]
    refine (ih { reader with tracing := true }).trans ?_
    simp

theorem splitRow_positional (script : String) (h : "--" ∉ items) :
    splitRow ((script, .positional) :: items.map (·, .positional)) = some (script, items) := by
  have hitems : ((items.map (·, Kind.positional)).map (·.1)).erase "--" = items := by
    rw [List.map_map]
    exact (List.erase_of_not_mem (by simpa using h)).trans (List.map_id items)
  cases items with
  | nil => rfl
  | cons item others => exact congrArg (fun row => some (script, row)) hitems

/-- A script and texts of variables, with options for tracing before and behind them, are read as
what they are. -/
theorem asks_plain {script : String} {before after : List String}
    (hs : classify script = .ok .positional) (hi : ∀ item ∈ items, IsOverride item)
    (ho : ∀ option ∈ before ++ after, AsksTracing option) :
    Asks (before ++ script :: items ++ after) script items (!(before ++ after).isEmpty) := by
  obtain ⟨hbefore, hafter⟩ := List.forall_mem_append.mp ho
  have hrow : ∀ item ∈ script :: items, classify item = .ok .positional :=
    List.forall_mem_cons.mpr ⟨hs, fun item h => (hi item h).classify⟩
  have hdivider : "--" ∉ items := fun h => not_classified_divider (hi _ h).classify
  have hkinds : classifyAll (before ++ ((script :: items) ++ (after ++ []))) = .ok _ :=
    classifyAll_append hbefore (classifyAll_append hrow (classifyAll_append hafter rfl))
  have harguments : before ++ script :: items ++ after = before ++ ((script :: items) ++ (after ++ [])) := by
    simp
  unfold Asks readArguments
  rw [harguments, hkinds]
  change Reader.read {} [] _ = _
  rw [read_tracing, read_positional, List.nil_append, List.map_cons]
  have htake (reader : Reader) (h : reader.found = none) :
      reader.takeRow ((script, .positional) :: items.map (·, .positional)) =
        { reader with found := some (script, items) } := by
    unfold Reader.takeRow
    rw [h, splitRow_positional script hdivider]
  cases after with
  | nil =>
    rw [List.map_nil, List.append_nil, List.append_nil, Reader.read, if_neg (by simp), htake _ rfl]
    simp [Reader.finish]
  | cons option others =>
    rw [List.map_cons, List.cons_append, Reader.read, if_neg (by simp), htake _ rfl]
    refine (read_tracing _ others []).trans ?_
    simp [Reader.read, Reader.finish]

end Rows

/-- Only the last text for each name counts, and its place among the others does not. Two command lines
that ask for a run of one script, with texts that give variables and with the last of
them for each name in any order, have the same exit code, output and error output; and a
line of the script and such texts, with or without tracing, asks for that run. Texts
are refused exactly if one of them gives no variable, for the first that does not. -/
theorem last_overrides_count :
    (∀ limit folder script items others tracing arguments arguments',
      (∀ item ∈ items, IsOverride item) → others.Perm (lastItems items) →
      Asks arguments script items tracing → Asks arguments' script others tracing →
      run limit folder arguments = run limit folder arguments') ∧
    (∀ script items before after, classify script = .ok .positional →
      (∀ item ∈ items, IsOverride item) → (∀ option ∈ before ++ after, AsksTracing option) →
      Asks (before ++ script :: items ++ after) script items (!(before ++ after).isEmpty)) ∧
    ∀ items, ((∃ bad, readOverrides items = .error bad) ↔ ∃ item ∈ items, ¬IsOverride item) ∧
      ∀ bad, readOverrides items = .error bad ↔
        ∃ before item after, items = before ++ item :: after ∧ (∀ other ∈ before, IsOverride other) ∧
          readOverride item = .error bad := by
  refine ⟨?_, ?_, fun items => ⟨⟨?_, ?_⟩, fun bad => enterAll_error_iff⟩⟩
  · intro limit folder script items others tracing arguments arguments' hi hp h h'
    unfold run
    rw [h, h']
    exact runScript_lastItems hi hp
  · intro script items before after hs hi ho
    exact asks_plain hs hi ho
  · rintro ⟨bad, hbad⟩
    obtain ⟨before, item, after, rfl, -, hitem⟩ := enterAll_error_iff.mp hbad
    refine ⟨item, by simp, ?_⟩
    rintro ⟨entry, hentry⟩
    cases hitem.symm.trans hentry
  · rintro ⟨item, hmem, hitem⟩
    cases hread : readOverrides items with
    | error bad => exact ⟨bad, rfl⟩
    | ok overrides => exact absurd (isOverride_of_enterAll hread item hmem) hitem

/-- One variable is given twice, and the other one between. -/
theorem last_overrides_count_three :
    let items := ["x=1", "y=2", " x = 0.5"]
    let others := [" x = 0.5", "y=2"]
    let folder : Folder := [("a.clc", "print(x, y, pi); x / y")]
    (∀ item ∈ items, IsOverride item) ∧ others.Perm (lastItems items) ∧
    Asks ("a.clc" :: items ++ ["--trace"]) "a.clc" items true ∧
    run 1 folder ("a.clc" :: items ++ ["--trace"]) = run 1 folder ("--tr" :: "a.clc" :: others) ∧
    (∃ item ∈ ["x=1", "2y=2", "z"], ¬IsOverride item) ∧
    readOverrides ["x=1", "2y=2", "z"] = .error (.badName "2y") := by
  intro items others folder
  have hx : readOverride "x=1" = .ok ("x", .finite false 1 0) := by decide +kernel
  have hy : readOverride "y=2" = .ok ("y", .finite false 2 0) := by decide +kernel
  have hagain : readOverride " x = 0.5" = .ok ("x", .finite false 5 (-1)) := by decide +kernel
  have hbad : readOverride "2y=2" = .error (.badName "2y") := by decide +kernel
  have hitems : ∀ item ∈ items, IsOverride item := by
    simpa [items] using ⟨⟨_, hx⟩, ⟨_, hy⟩, ⟨_, hagain⟩⟩
  have hlast : lastItems items = ["y=2", " x = 0.5"] := by
    simp [items, lastItems, itemName, hx, hy, hagain, Except.toOption]
  have hperm : others.Perm (lastItems items) := hlast ▸ .swap ..
  have hothers : ∀ item ∈ others, IsOverride item := by simpa [others] using ⟨⟨_, hagain⟩, ⟨_, hy⟩⟩
  have hscript : classify "a.clc" = .ok .positional := by decide +kernel
  obtain ⟨hruns, hasks, hrefused⟩ := last_overrides_count
  have hfirst : Asks ("a.clc" :: items ++ ["--trace"]) "a.clc" items true :=
    hasks "a.clc" items [] ["--trace"] hscript hitems
      (List.forall_mem_singleton.mpr (by unfold AsksTracing; decide +kernel))
  have hsecond : Asks ("--tr" :: "a.clc" :: others) "a.clc" others true :=
    hasks "a.clc" others ["--tr"] [] hscript hothers
      (List.forall_mem_singleton.mpr (by unfold AsksTracing; decide +kernel))
  have hread : readOverrides ["x=1", "2y=2", "z"] = .error (.badName "2y") :=
    ((hrefused ["x=1", "2y=2", "z"]).2 _).mpr ⟨["x=1"], "2y=2", ["z"], rfl,
      List.forall_mem_singleton.mpr ⟨_, hx⟩, hbad⟩
  exact ⟨hitems, hperm, hfirst, hruns 1 folder _ _ _ _ _ _ hitems hperm hfirst hsecond,
    (hrefused _).1.mp ⟨_, hread⟩, hread⟩

end CommandLine

end DecimalScript
