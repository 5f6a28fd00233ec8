import DecimalScript.Proofs.Origin
import DecimalScript.Proofs.Succession
import Mathlib

/-! What stands in a text at the places of its tree. A token is found where it says that it is,
and so is the keyword of a statement or a loop, though the tree does not keep it. -/

namespace DecimalScript

/-! ### Places of a text -/

/-- The place behind some characters of a text, by the line feeds among them and the characters
since the last. -/
def Pos.behind (text : List Char) : Pos :=
  ⟨text.count '\n' + 1, (text.reverse.takeWhile (· != '\n')).length + 1⟩

def HasAt (text : String) (p : Pos) (word : String) : Prop :=
  ∃ before after, text.toList = before ++ word.toList ++ after ∧ p = Pos.behind before

def Label.keyword? : Label → Option String
  | .breakStmt => some "break"
  | .nextStmt => some "next"
  | .forExpr => some "for"
  | _ => none

/-- The word that a tree shows, and its place. -/
def Tree.landmark? : Tree → Option (Pos × String)
  | .token _ text pos => some (pos, text)
  | .node label (some pos) _ => label.keyword?.map fun word => (pos, word)
  | _ => none

namespace Grammar

theorem advance_eq_behind (text : List Char) : advance ⟨1, 1⟩ text = Pos.behind text := by
  induction text using List.reverseRecOn with
  | nil => rfl
  | append_singleton text c ih =>
    unfold advance at ih ⊢
    rw [List.foldl_append, ih, List.foldl_cons, List.foldl_nil]
    unfold Pos.after Pos.behind
    rw [List.reverse_append, List.reverse_singleton, List.singleton_append, List.takeWhile_cons,
      List.count_append]
    by_cases hc : c = '\n'
    · subst hc
      simp
    · simp [hc]

/-- The word stands at the place in a text that starts at the position. -/
def Shows (text : List Char) (pos : Pos) (p : Pos) (word : String) : Prop :=
  ∃ n ≤ text.length, p = advance pos (text.take n) ∧ word.toList <+: text.drop n

theorem Shows.of_drop {text : List Char} {pos p : Pos} {word : String} {n : Nat}
    (hn : n ≤ text.length) (h : Shows (text.drop n) (advance pos (text.take n)) p word) :
    Shows text pos p word := by
  obtain ⟨m, hm, rfl, hword⟩ := h
  rw [List.length_drop] at hm
  refine ⟨n + m, by omega, ?_, ?_⟩
  · unfold advance
    rw [← List.foldl_append, List.take_add]
  · rwa [List.drop_drop] at hword

theorem Shows.hasAt {text : String} {p : Pos} {word : String}
    (h : Shows text.toList ⟨1, 1⟩ p word) : HasAt text p word := by
  obtain ⟨n, -, rfl, after, hword⟩ := h
  refine ⟨text.toList.take n, after, ?_, advance_eq_behind _⟩
  rw [List.append_assoc, hword, List.take_append_drop]

def Landmarked (text : List Char) (pos : Pos) (trees : List Tree) : Prop :=
  ∀ tree ∈ trees, ∀ sub ∈ tree.subtrees, ∀ p word, sub.landmark? = some (p, word) →
    Shows text pos p word

section Landmarked
variable {text : List Char} {pos : Pos} {trees others : List Tree}

theorem landmarked_nil : Landmarked text pos [] := by simp [Landmarked]

theorem Landmarked.append (h : Landmarked text pos trees) (ho : Landmarked text pos others) :
    Landmarked text pos (trees ++ others) := by
  intro tree ht
  rcases List.mem_append.mp ht with ht | ht
  · exact h tree ht
  · exact ho tree ht

theorem Landmarked.of_drop {n : Nat} (hn : n ≤ text.length)
    (h : Landmarked (text.drop n) (advance pos (text.take n)) trees) : Landmarked text pos trees :=
  fun tree ht sub hs p word hl => (h tree ht sub hs p word hl).of_drop hn

/-- A node adds the landmark that it is itself. -/
theorem Landmarked.node {label : Label} {start : Option Pos} (h : Landmarked text pos trees)
    (hk : ∀ p word, start = some p → label.keyword? = some word → Shows text pos p word) :
    Landmarked text pos [.node label start trees] := by
  intro tree ht sub hs p word hl
  obtain rfl := List.mem_singleton.mp ht
  rw [Tree.subtrees, Tree.subtreesOf_eq] at hs
  rcases List.mem_cons.mp hs with rfl | hs
  · cases start with
    | none => cases hl
    | some place =>
      obtain ⟨_, hkeyword, heq⟩ := Option.map_eq_some_iff.mp hl
      cases heq
      exact hk p word rfl hkeyword
  · obtain ⟨kid, hkid, hs⟩ := List.mem_flatMap.mp hs
    exact h kid hkid sub hs p word hl

end Landmarked

/-! ### Keywords -/

namespace Form

mutual

/-- What the form reads begins with the word. -/
def opens (word : String) : Form → Bool
  | .lexeme _ (.spelled spelling) => spelling == word
  | .pair f _ => opens word f
  | .either forms => allOpen word forms
  | .node _ f | .grouped _ f => opens word f
  | _ => false

def allOpen (word : String) : List Form → Bool
  | [] => true
  | f :: rest => opens word f && allOpen word rest

end

mutual

/-- Each node with a keyword begins with it. -/
def isAnnounced : Form → Bool
  | .lexeme .. | .rule _ => true
  | .pair f g => isAnnounced f && isAnnounced g
  | .either forms => areAnnounced forms
  | .many f => isAnnounced f
  | .node label f => isAnnounced f && label.keyword?.all fun word => opens word f
  | .grouped label f => isAnnounced f && label.keyword?.isNone

def areAnnounced : List Form → Bool
  | [] => true
  | f :: rest => isAnnounced f && areAnnounced rest

end

theorem opens_of_mem {word : String} {forms : List Form} {f : Form} (h : allOpen word forms)
    (hf : f ∈ forms) : f.opens word := by
  induction forms with
  | nil => cases hf
  | cons first rest ih =>
    rw [allOpen, Bool.and_eq_true] at h
    rcases List.mem_cons.mp hf with rfl | hf
    · exact h.1
    · exact ih h.2 hf

theorem isAnnounced_of_mem {forms : List Form} {f : Form} (h : areAnnounced forms)
    (hf : f ∈ forms) : f.isAnnounced := by
  induction forms with
  | nil => cases hf
  | cons first rest ih =>
    rw [areAnnounced, Bool.and_eq_true] at h
    rcases List.mem_cons.mp hf with rfl | hf
    · exact h.1
    · exact ih h.2 hf

end Form

theorem Rule.isAnnounced_form (r : Rule) : r.form.isAnnounced := by cases r <;> decide

variable {f : Form} {text : List Char} {pos : Pos} {x : Reading}

/-- A reading that begins with a word starts at the place of the word. -/
theorem Form.start_shows {word : String} (hf : f.opens word) (hx : x ∈ f.reads text pos) :
    ∃ p, x.start = some p ∧ Shows text pos p word := by
  induction f using Form.parts_induction generalizing x with
  | lexeme terminal kind =>
    obtain ⟨n, hn, rfl⟩ := Form.mem_reads_lexeme hx
    refine ⟨_, rfl, gapLength false text, gapLength_le _ _, rfl, ?_⟩
    cases kind with
    | spelled spelling =>
      obtain rfl : spelling = word := beq_iff_eq.mp hf
      change spelled spelling (afterGap text) = some n at hn
      unfold spelled at hn
      split_ifs at hn with hp
      exact List.isPrefixOf_iff_prefix.mp hp
    | _ => cases hf
  | rule r => cases hf
  | pair f g ihf ihg =>
    rw [Form.reads_pair] at hx
    obtain ⟨y, hy, hx⟩ := List.mem_flatMap.mp hx
    obtain ⟨z, hz, rfl⟩ := List.mem_map.mp hx
    obtain ⟨p, hp, hshows⟩ := ihf hf hy
    refine ⟨p, ?_, hshows⟩
    change (y.start <|> z.start) = some p
    rw [hp]
    rfl
  | either forms ih =>
    rw [Form.reads_either] at hx
    obtain ⟨f, hm, hx⟩ := List.mem_flatMap.mp (mem_distinct hx)
    exact ih f hm (Form.opens_of_mem hf hm) hx
  | many f ih => cases hf
  | node label f ih =>
    rw [Form.reads_node] at hx
    obtain ⟨y, hy, rfl⟩ := List.mem_map.mp hx
    exact ih (x := y) hf hy
  | grouped label f ih =>
    rw [Form.reads_grouped] at hx
    obtain ⟨y, hy, rfl⟩ := List.mem_map.mp hx
    exact ih (x := y) hf hy

/-! ### Trees -/

theorem Form.landmarked_pair {g : Form} (hf : ∀ x ∈ f.reads text pos, Landmarked text pos x.kids)
    (hg : ∀ x ∈ f.reads text pos, ∀ y ∈ g.reads (text.drop x.length) (advance pos (text.take x.length)),
      Landmarked (text.drop x.length) (advance pos (text.take x.length)) y.kids)
    (hx : x ∈ (Form.pair f g).reads text pos) : Landmarked text pos x.kids := by
  rw [Form.reads_pair] at hx
  obtain ⟨y, hy, hx⟩ := List.mem_flatMap.mp hx
  obtain ⟨z, hz, rfl⟩ := List.mem_map.mp hx
  exact (hf y hy).append ((hg y hy z hz).of_drop (Form.reads_le hy))

/-- The trees that a form reads show words that stand in the text. -/
theorem Form.reads_landmarked (f : Form) (hf : f.isProper) (ha : f.isAnnounced) (text : List Char)
    (pos : Pos) (x : Reading) (hx : x ∈ f.reads text pos) : Landmarked text pos x.kids := by
  refine Form.places_induction (C := fun f text => f.isAnnounced → ∀ pos, ∀ x ∈ f.reads text pos,
    Landmarked text pos x.kids) ?lexeme ?rule ?pair ?either ?many ?node ?grouped
    f hf text ha pos x hx
  case lexeme =>
    intro terminal kind text _ pos x hx
    obtain ⟨n, -, rfl⟩ := Form.mem_reads_lexeme hx
    cases terminal with
    | none => exact landmarked_nil
    | some terminal =>
      intro tree ht sub hs p word hl
      obtain rfl := List.mem_singleton.mp ht
      obtain rfl := List.mem_singleton.mp hs
      cases hl
      refine ⟨gapLength false text, gapLength_le _ _, rfl, ?_⟩
      rw [String.toList_ofList]
      exact List.take_prefix _ _
  case rule =>
    intro r text ih _ pos x hx
    rw [Form.reads_rule] at hx
    exact ih r.isAnnounced_form pos x hx
  case pair =>
    intro f g text ihf ihg ha pos x hx
    rw [Form.isAnnounced, Bool.and_eq_true] at ha
    refine Form.landmarked_pair (ihf ha.1 pos) (fun y hy => ?_) hx
    exact ihg y.length (Form.reads_le hy) (Form.nullable_of_reads hy) ha.2 _
  case either =>
    intro forms text ih ha pos x hx
    rw [Form.reads_either] at hx
    obtain ⟨f, hm, hx⟩ := List.mem_flatMap.mp (mem_distinct hx)
    exact ih f hm (Form.isAnnounced_of_mem ha hm) pos x hx
  case many =>
    intro f text hnull ih ha pos x hx
    rw [Form.reads_many hnull] at hx
    rcases List.mem_cons.mp (mem_distinct hx) with rfl | hx
    · exact landmarked_nil
    · refine ih ?_ pos x hx
      rw [Form.isAnnounced, Bool.and_eq_true]
      exact ⟨ha, ha⟩
  case node =>
    intro label f text ih ha pos x hx
    rw [Form.isAnnounced, Bool.and_eq_true] at ha
    rw [Form.reads_node] at hx
    obtain ⟨y, hy, rfl⟩ := List.mem_map.mp hx
    refine (ih ha.1 pos y hy).node fun p word hp hk => ?_
    have hopens : f.opens word := by
      rw [hk] at ha
      exact ha.2
    obtain ⟨q, hq, hshows⟩ := Form.start_shows hopens hy
    rw [hp] at hq
    cases hq
    exact hshows
  case grouped =>
    intro label f text ih ha pos x hx
    rw [Form.isAnnounced, Bool.and_eq_true] at ha
    rw [Form.reads_grouped] at hx
    obtain ⟨y, hy, rfl⟩ := List.mem_map.mp hx
    have hkids := ih ha.1 pos y hy
    have hnode : Landmarked text pos [.node label y.start y.kids] := by
      refine hkids.node fun p word _ hk => ?_
      rw [hk] at ha
      cases ha.2
    unfold Reading.gathered
    dsimp only
    split
    · rename_i kid heq
      rwa [heq] at hkids
    · exact hnode

/-- Each landmark in the tree of a program stands in its text. -/
theorem parse_landmark {text : String} {tree sub : Tree} {p : Pos} {word : String}
    (h : parse text = .ok tree) (hs : sub ∈ tree.subtrees) (hl : sub.landmark? = some (p, word)) :
    HasAt text p word := by
  obtain ⟨x, hx, hkids⟩ := parse_eq_ok_iff.mp h
  have hmem := List.mem_of_find?_eq_some hx
  have hmarked := Form.reads_landmarked (.rule .statements) rfl rfl text.toList ⟨1, 1⟩ x hmem
  rw [hkids] at hmarked
  exact (hmarked tree (List.mem_singleton.mpr rfl) sub hs p word hl).hasAt

end Grammar

end DecimalScript
