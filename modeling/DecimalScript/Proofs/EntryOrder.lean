import DecimalScript.Proofs.Separation
import Mathlib

/-! The order of dictionaries does not show in fingerprints. Entries are encoded in the order of the
fingerprints of their keys, which tell different keys apart; where values are too deep to be told
apart, so are the entries. How deep that is, and what is left of a long list, does not matter. -/

namespace DecimalScript.Benchmark

variable {c : Conventions}

/-- Nothing, truth values, numbers, texts, lists and dictionaries with texts for keys. -/
inductive Keyed : Datum → Prop
  | none : Keyed .none
  | bool (b : Bool) : Keyed (.bool b)
  | integer (i : Int) : Keyed (.integer i)
  | double (x : Binary64) : Keyed (.double x)
  | text (s : String) : Keyed (.text s)
  | list {items : List Datum} (hitems : ∀ d ∈ items, Keyed d) : Keyed (.list items)
  | dict {names : List String} {values : List Datum} (hlength : names.length = values.length)
      (hnames : names.Nodup) (hvalues : ∀ d ∈ values, Keyed d) :
      Keyed (.dict (names.map .text) values)

/-- A value and the values inside its lists and dictionaries. -/
inductive Within : Datum → Datum → Prop
  | self (d : Datum) : Within d d
  | item {d part : Datum} {items : List Datum} (hpart : part ∈ items) (h : Within d part) :
      Within d (.list items)
  | value {d part : Datum} {keys values : List Datum} (hpart : part ∈ values)
      (h : Within d part) : Within d (.dict keys values)

/-- The hash takes no two of the texts for one. -/
def HashesApart (names : List String) : Prop :=
  ∀ s ∈ names, ∀ t ∈ names, Sha256.hex (utf8 ("s" ++ s)) = Sha256.hex (utf8 ("s" ++ t)) → s = t

/-- The hash takes no two keys of one dictionary inside a value for one. -/
def KeysApart (d : Datum) : Prop :=
  ∀ names values, Within (.dict (names.map .text) values) d → HashesApart names

theorem KeysApart.of_within {d part : Datum} (h : KeysApart d)
    (hpart : ∀ inner, Within inner part → Within inner d) : KeysApart part :=
  fun names values hdict => h names values (hpart _ hdict)

theorem keysApart_scalar {d : Datum} (h : d.typeName ∉ ["list", "dict"]) : KeysApart d := by
  intro names values hdict
  cases hdict <;> simp [Datum.typeName] at h

theorem keysApart_list {items : List Datum} (h : ∀ d ∈ items, KeysApart d) :
    KeysApart (.list items) := by
  intro names values hdict
  cases hdict with
  | item hpart hdict => exact h _ hpart names values hdict

theorem keysApart_dict {names : List String} {values : List Datum} (hnames : HashesApart names)
    (h : ∀ d ∈ values, KeysApart d) : KeysApart (.dict (names.map .text) values) := by
  intro names' values' hdict
  generalize hkeys : names.map Datum.text = keys at hdict
  generalize hkeys' : names'.map Datum.text = keys' at hdict
  cases hdict with
  | self =>
    rw [← hkeys'] at hkeys
    rwa [← List.map_injective_iff.mpr (fun _ _ => Datum.text.inj) hkeys]
  | value hpart hdict =>
    rw [← hkeys'] at hdict
    exact h _ hpart names' values' hdict

/-! ### Entries in any order -/

/-- Entries are sorted to one row, whatever order they come in, if the hashes of their keys tell
them apart. -/
theorem byKey_perm {entries entries' : List (Bytes × Bytes)} (horder : entries.Perm entries')
    (hkeys : ∀ x ∈ entries, ∀ y ∈ entries, Sha256.hex x.1 = Sha256.hex y.1 → x = y) :
    byKey entries = byKey entries' := by
  let mark (entry : Bytes × Bytes) := (Sha256.hex entry.1, entry)
  let le (x y : String × Bytes × Bytes) : Bool := x.1 ≤ y.1
  have htrans (x y z) (hxy : le x y) (hyz : le y z) : le x z := by
    simp only [le, decide_eq_true_eq] at hxy hyz ⊢
    exact le_trans hxy hyz
  have htotal (x y) : le x y || le y x := by
    simpa [le] using le_total x.1 y.1
  have hperm : ((entries.map mark).mergeSort le).Perm ((entries'.map mark).mergeSort le) :=
    (List.mergeSort_perm _ _).trans ((horder.map mark).trans (List.mergeSort_perm _ _).symm)
  -- two marked entries that are each not above the other have one hash, so they are one entry
  have hanti : ∀ x y, x ∈ (entries.map mark).mergeSort le → y ∈ (entries'.map mark).mergeSort le →
      le x y → le y x → x = y := by
    intro x y hx hy hxy hyx
    rw [List.mem_mergeSort, List.mem_map] at hx hy
    obtain ⟨entry, hentry, rfl⟩ := hx
    obtain ⟨entry', hentry', rfl⟩ := hy
    simp only [le, mark, decide_eq_true_eq] at hxy hyx
    rw [hkeys entry hentry entry' (horder.mem_iff.mpr hentry') (le_antisymm hxy hyx)]
  have hsorted : (entries.map mark).mergeSort le = (entries'.map mark).mergeSort le :=
    hperm.eq_of_pairwise hanti (List.pairwise_mergeSort htrans htotal _)
      (List.pairwise_mergeSort htrans htotal _)
  exact congrArg (List.map (·.2)) hsorted

theorem dictBytes_perm {entries entries' : List (Bytes × Bytes)} (horder : entries.Perm entries')
    (hkeys : ∀ x ∈ entries, ∀ y ∈ entries, Sha256.hex x.1 = Sha256.hex y.1 → x = y) :
    dictBytes entries = dictBytes entries' := by
  rw [dictBytes, dictBytes, byKey_perm horder hkeys, horder.length_eq]

/-! ### Values -/

/-- Of two entries of one dictionary with one key, each is the other. -/
theorem entry_eq_of_key {names : List String} {values : List Datum}
    (hlength : names.length = values.length) (hnames : names.Nodup) {x y : Datum × Datum}
    (hx : x ∈ (names.map Datum.text).zip values) (hy : y ∈ (names.map Datum.text).zip values)
    (h : x.1 = y.1) : x = y := by
  have hnodup : (((names.map Datum.text).zip values).map (·.1)).Nodup := by
    rw [List.map_fst_zip (by simp [hlength])]
    exact hnames.map fun s t hst => Datum.text.inj hst
  exact List.inj_on_of_nodup_map hnodup hx hy h

/-- The encoded entries of a dictionary are told apart by the hashes of their keys. Beyond the
deepest level all of them are equal. -/
theorem entries_apart {names : List String} {values : List Datum}
    (hlength : names.length = values.length) (hnames : names.Nodup) (hapart : HashesApart names)
    (levels : Nat) :
    ∀ x ∈ ((names.map Datum.text).zip values).map (Prod.map (encode c levels) (encode c levels)),
    ∀ y ∈ ((names.map Datum.text).zip values).map (Prod.map (encode c levels) (encode c levels)),
      Sha256.hex x.1 = Sha256.hex y.1 → x = y := by
  simp only [List.forall_mem_map]
  intro x hx y hy hhash
  cases levels with
  | zero => rfl
  | succ levels =>
    obtain ⟨s, hs, hxs⟩ := List.mem_map.mp (List.of_mem_zip hx).1
    obtain ⟨t, ht, hyt⟩ := List.mem_map.mp (List.of_mem_zip hy).1
    have hname : s = t := by
      refine hapart s hs t ht ?_
      simpa only [Prod.map_fst, ← hxs, ← hyt, encode] using hhash
    have hkey : x.1 = y.1 := by rw [← hxs, ← hyt, hname]
    rw [entry_eq_of_key hlength hnames hx hy hkey]

theorem map_encode_eq {levels : Nat} {xs ys : List Datum} (h : List.Forall₂ Same xs ys)
    (hencode : ∀ x ∈ xs, ∀ y, Same x y → encode c levels x = encode c levels y) :
    xs.map (encode c levels) = ys.map (encode c levels) := by
  rw [← List.forall₂_eq_eq_eq, List.forall₂_map_left_iff, List.forall₂_map_right_iff]
  rw [List.forall₂_iff_zip] at h ⊢
  exact ⟨h.1, fun {x y} hpair => hencode x (List.of_mem_zip hpair).1 y (h.2 hpair)⟩

/-- Values that are the same but for the order of dictionaries have one encoding. -/
theorem encode_eq_of_same {a b : Datum} (levels : Nat) (ha : Keyed a) (hapart : KeysApart a)
    (h : Same a b) : encode c levels a = encode c levels b := by
  induction levels generalizing a b with
  | zero => rfl
  | succ levels ih =>
    cases h with
    | refl => rfl
    | @list items items' hitems =>
      cases ha with
      | list hkeyed =>
      rw [encode, encode, map_encode_eq hitems fun x hx y hxy =>
        ih (hkeyed x hx) (hapart.of_within fun _ => .item hx) hxy]
    | @dict keys values keys' values' arranged horder hvalues =>
      cases ha with
      | @dict names _ hlength hnames hkeyed =>
      have hencoded := map_encode_eq hvalues fun x hx y hxy =>
        ih (hkeyed x hx) (hapart.of_within fun _ => .value hx) hxy
      have hentries : (((names.map Datum.text).map (encode c levels)).zip
          (values.map (encode c levels))).Perm
          ((keys'.map (encode c levels)).zip (values'.map (encode c levels))) := by
        rw [hencoded, List.zip_map, List.zip_map]
        exact horder.map _
      rw [encode, encode]
      refine dictBytes_perm hentries ?_
      rw [List.zip_map]
      exact entries_apart hlength hnames (hapart names values (.self _)) levels

end DecimalScript.Benchmark
