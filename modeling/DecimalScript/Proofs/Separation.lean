import DecimalScript.Benchmark.Fingerprint
import DecimalScript.Proofs.Pointed
import Mathlib

/-! What the encoding of values tells apart. The kind of a value and the values of scalars can be
read off it, but the parts of a list or a dictionary stand side by side with nothing between them,
so values that are cut differently can have one encoding. Two values whose parts line up have
the same encoding only if they are the same; a value that is changed at one place lines up with
what it was. -/

namespace DecimalScript.Benchmark

variable {c : Conventions}

/-- Nothing, truth values, whole numbers, texts, lists that are encoded whole and dictionaries with
texts for keys, at most so many of them inside each other. -/
inductive Plain : Nat → Datum → Prop
  | none {n : Nat} : Plain n .none
  | bool {n : Nat} (b : Bool) : Plain n (.bool b)
  | integer {n : Nat} (i : Int) : Plain n (.integer i)
  | text {n : Nat} (s : String) : Plain n (.text s)
  | list {n : Nat} {items : List Datum} (hlength : items.length ≤ itemLimit)
      (hitems : ∀ d ∈ items, Plain n d) : Plain (n + 1) (.list items)
  | dict {n : Nat} {names : List String} {values : List Datum}
      (hlength : names.length = values.length) (hnames : names.Nodup)
      (hvalues : ∀ d ∈ values, Plain n d) : Plain (n + 1) (.dict (names.map .text) values)

/-- Two values that are equal but for the order of the entries of dictionaries. -/
inductive Same : Datum → Datum → Prop
  | refl (d : Datum) : Same d d
  | list {items items' : List Datum} (h : List.Forall₂ Same items items') :
      Same (.list items) (.list items')
  | dict {keys values keys' values' arranged : List Datum}
      (horder : (keys.zip arranged).Perm (keys'.zip values'))
      (h : List.Forall₂ Same values arranged) : Same (.dict keys values) (.dict keys' values')

/-! ### Texts -/

theorem toList_loop (bytes : ByteArray) (i : Nat) (done : Bytes) :
    ByteArray.toList.loop bytes i done = done.reverse ++ bytes.data.toList.drop i := by
  fun_induction ByteArray.toList.loop bytes i done with
  | case1 i done hi ih =>
    have hlt : i < bytes.data.toList.length := by simpa using hi
    rw [ih, List.drop_eq_getElem_cons hlt]
    simp [ByteArray.get!, getElem!_pos, hi]
  | case2 i done hi =>
    have hle : bytes.data.toList.length ≤ i := by simpa using hi
    simp [List.drop_eq_nil_of_le hle]

theorem utf8_eq (text : String) : utf8 text = text.toByteArray.data.toList := by
  simp [utf8, ByteArray.toList, toList_loop, String.toUTF8]

theorem utf8_append (s t : String) : utf8 (s ++ t) = utf8 s ++ utf8 t := by
  simp [utf8_eq]

theorem utf8_inj {s t : String} : utf8 s = utf8 t ↔ s = t := by
  rw [utf8_eq, utf8_eq, Array.toList_inj, ← ByteArray.ext_iff, String.toByteArray_inj]

theorem utf8_ofList (cs : List Char) :
    utf8 (String.ofList cs) = cs.flatMap String.utf8EncodeChar := by
  rw [utf8_eq, String.toByteArray_ofList, List.utf8Encode, List.data_toByteArray]

/-- A character below the letters is its own byte. -/
theorem utf8_ofList_cons {c : Char} (hc : c.toNat < 58) (cs : List Char) :
    ∃ b rest, utf8 (String.ofList (c :: cs)) = b :: rest ∧ b.toNat < 58 := by
  have hone : String.utf8EncodeChar c = [c.val.toUInt8] :=
    String.utf8EncodeChar_eq_singleton (Char.utf8Size_eq_one_iff.mpr (by
      rw [UInt32.le_iff_toNat_le]
      exact (Nat.lt_succ_iff.mp hc).trans (by decide)))
  refine ⟨_, _, by rw [utf8_ofList, List.flatMap_cons, hone, List.singleton_append], ?_⟩
  rw [UInt32.toNat_toUInt8]
  exact (Nat.mod_le _ _).trans_lt hc

theorem utf8_repr (n : Nat) : ∃ b rest, utf8 n.repr = b :: rest ∧ b.toNat < 58 := by
  obtain ⟨c, tail, hdigits, hdigit⟩ := digits_cons n
  rw [Nat.repr, hdigits]
  exact utf8_ofList_cons (Nat.lt_succ_of_le (Char.isDigit_iff_toNat.mp hdigit).2) tail

/-- A whole number starts with a digit or a minus sign. -/
theorem utf8_toString (i : Int) : ∃ b rest, utf8 (toString i) = b :: rest ∧ b.toNat < 58 := by
  cases i with
  | ofNat n => exact utf8_repr n
  | negSucc n =>
    have hminus : ("-" : String) = String.ofList ['-'] := rfl
    obtain ⟨b, rest, hb, hlt⟩ := utf8_ofList_cons (c := '-') (by decide) []
    refine ⟨b, rest ++ utf8 (n + 1).repr, ?_, hlt⟩
    change utf8 ("-" ++ (n + 1).repr) = _
    rw [utf8_append, hminus, hb, List.cons_append]

/-! ### Kinds -/

/-- The type of the values whose encodings start with a byte. -/
def typeOfInitial (b : UInt8) : String :=
  if b.toNat < 58 then "int"
  else if b = 68 then "dict"
  else if b = 76 then "list"
  else if b = 78 then "NoneType"
  else if b = 115 then "str"
  else "bool"

theorem typeOfInitial_encode {n : Nat} {d : Datum} (h : Plain n d) :
    (encode c (n + 1) d).head?.map typeOfInitial = some d.typeName := by
  cases h with
  | none =>
    rw [encode]
    decide +kernel
  | bool b =>
    rw [encode]
    cases b <;> decide +kernel
  | integer i =>
    obtain ⟨b, rest, hb, hlt⟩ := utf8_toString i
    rw [encode, hb]
    simp [typeOfInitial, hlt, Datum.typeName]
  | text s =>
    have hletter : utf8 "s" = [115] := by decide +kernel
    simp [encode, utf8_append, hletter, typeOfInitial, Datum.typeName]
  | list =>
    have hletter : utf8 "L" = [76] := by decide +kernel
    simp [encode, listBytes, header, utf8_append, hletter, typeOfInitial, Datum.typeName]
  | dict =>
    have hletter : utf8 "D" = [68] := by decide +kernel
    simp [encode, dictBytes, header, utf8_append, hletter, typeOfInitial, Datum.typeName]

/-- Values of different types have different encodings. -/
theorem typeName_eq_of_encode {n : Nat} {a b : Datum} (ha : Plain n a) (hb : Plain n b)
    (h : encode c (n + 1) a = encode c (n + 1) b) : a.typeName = b.typeName := by
  have htype := typeOfInitial_encode (c := c) ha
  rw [h, typeOfInitial_encode hb] at htype
  exact (Option.some.inj htype).symm

/-! ### Parts -/

/-- The entries of a dictionary in the order in which they are encoded. -/
def entries (c : Conventions) (levels : Nat) (keys values : List Datum) : List (Datum × Datum) :=
  (keys.zip values).mergeSort fun a b =>
    Sha256.hex (encode c levels a.1) ≤ Sha256.hex (encode c levels b.1)

/-- The parts of a value in the order in which they are encoded. -/
def parts (c : Conventions) (levels : Nat) : Datum → List Datum
  | .list items => items
  | .dict keys values => (entries c levels keys values).flatMap fun entry => [entry.1, entry.2]
  | _ => []

def size : Datum → Nat
  | .list items => items.length
  | .dict keys _ => keys.length
  | _ => 0

theorem byKey_encode (levels : Nat) (keys values : List Datum) :
    byKey ((keys.map (encode c levels)).zip (values.map (encode c levels))) =
      (entries c levels keys values).map (Prod.map (encode c levels) (encode c levels)) := by
  simp only [byKey, entries]
  rw [List.zip_map, List.map_map, ← List.map_mergeSort
    (r := fun a b => Sha256.hex (encode c levels a.1) ≤ Sha256.hex (encode c levels b.1))]
  · rw [List.map_map]
    rfl
  · intro a _ b _
    rfl

theorem encode_list {items : List Datum} (h : items.length ≤ itemLimit) (levels : Nat) :
    encode c (levels + 1) (.list items) = header "L" (size (.list items)) ++
      (parts c levels (.list items)).flatMap (encode c levels) := by
  rw [encode, listBytes, List.length_map, if_pos h, ← List.flatMap_def]
  rfl

theorem encode_dict {keys values : List Datum} (h : keys.length = values.length) (levels : Nat) :
    encode c (levels + 1) (.dict keys values) = header "D" (size (.dict keys values)) ++
      (parts c levels (.dict keys values)).flatMap (encode c levels) := by
  simp [encode, dictBytes, byKey_encode, parts, size, h, List.flatMap_map, List.flatMap_assoc]

theorem Plain.of_mem_parts {n levels : Nat} {d part : Datum} (h : Plain (n + 1) d)
    (hpart : part ∈ parts c levels d) : Plain n part := by
  cases h with
  | none | bool | integer | text => simp [parts] at hpart
  | list hlength hitems => exact hitems part hpart
  | dict hlength hnames hvalues =>
    simp only [parts, entries, List.mem_flatMap, List.mem_mergeSort, List.mem_cons,
      List.not_mem_nil, or_false] at hpart
    obtain ⟨⟨key, value⟩, hentry, rfl | rfl⟩ := hpart
    · obtain ⟨s, -, rfl⟩ := List.mem_map.mp (List.of_mem_zip hentry).1
      exact .text s
    · exact hvalues _ (List.of_mem_zip hentry).2

/-! ### Parts that line up -/

/-- Two values that can be laid side by side: if they are of one type, their sizes are written
with as many bytes, and if their sizes are equal, at most one part is encoded with more or fewer
bytes than its counterpart, and all of them line up in turn. -/
def LinedUp (c : Conventions) : (levels : Nat) → Datum → Datum → Prop
  | 0, _, _ => True
  | levels + 1, a, b =>
    a.typeName = b.typeName →
      (utf8 (toString (size a))).length = (utf8 (toString (size b))).length ∧
      (size a = size b →
        (∃ i, ((parts c levels a).map fun d => (encode c levels d).length).eraseIdx i =
          ((parts c levels b).map fun d => (encode c levels d).length).eraseIdx i) ∧
        List.Forall₂ (LinedUp c levels) (parts c levels a) (parts c levels b))

/-- Pieces that are as wide as their counterparts, all but one, are found again in what they
make up together. -/
theorem pieces_eq_of_flatten {xs ys : List Bytes} (hcount : xs.length = ys.length) {i : Nat}
    (hwidth : (xs.map List.length).eraseIdx i = (ys.map List.length).eraseIdx i)
    (h : xs.flatten = ys.flatten) : xs = ys := by
  induction xs generalizing ys i with
  | nil => exact (List.length_eq_zero_iff.mp hcount.symm).symm
  | cons x xs ih =>
    obtain _ | ⟨y, ys⟩ := ys
    · simp at hcount
    have hrest : xs.length = ys.length := by simpa using hcount
    rw [List.flatten_cons, List.flatten_cons] at h
    cases i with
    | zero =>
      -- The odd piece is the first one, so that what follows it is as wide as its counterpart.
      have htail : xs.map List.length = ys.map List.length := by simpa using hwidth
      have hlength : xs.flatten.length = ys.flatten.length := by
        rw [List.length_flatten, List.length_flatten, htail]
      obtain ⟨rfl, hflat⟩ := List.append_inj' h hlength
      rw [List.eq_iff_flatten_eq.mpr ⟨hflat, htail⟩]
    | succ i =>
      simp only [List.map_cons, List.eraseIdx_cons_succ, List.cons.injEq] at hwidth
      obtain ⟨rfl, hflat⟩ := List.append_inj h hwidth.1
      rw [ih hrest hwidth.2 hflat]

theorem parts_encode_eq {levels : Nat} {a b : Datum} {kind : String}
    (ha : encode c (levels + 1) a =
      header kind (size a) ++ (parts c levels a).flatMap (encode c levels))
    (hb : encode c (levels + 1) b =
      header kind (size b) ++ (parts c levels b).flatMap (encode c levels))
    (htype : a.typeName = b.typeName) (hup : LinedUp c (levels + 1) a b)
    (h : encode c (levels + 1) a = encode c (levels + 1) b) :
    List.Forall₂ (fun x y => LinedUp c levels x y ∧ encode c levels x = encode c levels y)
      (parts c levels a) (parts c levels b) := by
  obtain ⟨hdigits, hparts⟩ := hup htype
  rw [ha, hb, header, header, utf8_append, utf8_append, List.append_assoc, List.append_assoc] at h
  obtain ⟨hsize, hflat⟩ := List.append_inj (List.append_cancel_left h) hdigits
  obtain ⟨⟨i, hwidth⟩, hall⟩ := hparts (Nat.repr_injective (utf8_inj.mp hsize))
  have hpieces : (parts c levels a).map (encode c levels) =
      (parts c levels b).map (encode c levels) :=
    pieces_eq_of_flatten (by simpa using hall.length_eq)
      (by rw [List.map_map, List.map_map]; exact hwidth)
      (by simpa only [List.flatMap_def] using hflat)
  rw [← List.forall₂_eq_eq_eq, List.forall₂_map_left_iff, List.forall₂_map_right_iff,
    List.forall₂_iff_zip] at hpieces
  rw [List.forall₂_iff_zip] at hall ⊢
  exact ⟨hall.1, fun hpair => ⟨hall.2 hpair, hpieces.2 hpair⟩⟩

theorem Same.eq_of_scalar {a b : Datum} (h : Same a b)
    (hscalar : a.typeName ∉ ["list", "dict"]) : a = b := by
  cases h with
  | refl => rfl
  | list | dict => simp [Datum.typeName] at hscalar

theorem Same.of_list {items items' : List Datum} (h : Same (.list items) (.list items')) :
    List.Forall₂ Same items items' := by
  cases h with
  | refl => exact List.forall₂_same.mpr fun d _ => .refl d
  | list h => exact h

theorem Same.mem_keys {keys values keys' values' : List Datum}
    (h : Same (.dict keys values) (.dict keys' values')) (hlength : keys.length = values.length)
    (key : Datum) (hkey : key ∈ keys) : key ∈ keys' := by
  cases h with
  | refl => exact hkey
  | @dict _ _ _ _ arranged horder hvalues =>
    rw [← List.map_fst_zip (hlength.trans hvalues.length_eq).le] at hkey
    obtain ⟨entry, hentry, rfl⟩ := List.mem_map.mp hkey
    exact (List.of_mem_zip (horder.mem_iff.mp hentry)).1

theorem forall₂_entries {R : Datum → Datum → Prop} {xs ys : List (Datum × Datum)}
    (h : List.Forall₂ R (xs.flatMap fun entry => [entry.1, entry.2])
      (ys.flatMap fun entry => [entry.1, entry.2])) :
    List.Forall₂ (fun x y => R x.1 y.1 ∧ R x.2 y.2) xs ys := by
  induction xs generalizing ys with
  | nil => cases ys <;> simp_all
  | cons x xs ih =>
    cases ys with
    | nil => simp at h
    | cons y ys =>
      simp only [List.flatMap_cons, List.cons_append, List.nil_append, List.forall₂_cons] at h
      exact .cons ⟨h.1, h.2.1⟩ (ih h.2.2)

/-- Dictionaries are the same if their parts are, in the order in which they are encoded. -/
theorem same_dict {levels : Nat} {names : List String} {values keys' values' : List Datum}
    (hlength : names.length = values.length)
    (h : List.Forall₂ Same (parts c levels (.dict (names.map .text) values))
      (parts c levels (.dict keys' values'))) :
    Same (.dict (names.map .text) values) (.dict keys' values') := by
  have hentries := forall₂_entries h
  -- The entries of the second dictionary are arranged as those of the first one came.
  obtain ⟨arranged, hsame, horder⟩ :=
    List.perm_comp_forall₂ (List.mergeSort_perm _ _).symm hentries
  have hzip : ((names.map Datum.text).zip values).map (·.1) = names.map Datum.text ∧
      ((names.map Datum.text).zip values).map (·.2) = values :=
    ⟨List.map_fst_zip (by simp [hlength]), List.map_snd_zip (by simp [hlength])⟩
  have hkeys : names.map Datum.text = arranged.map (·.1) := by
    rw [← hzip.1, ← List.forall₂_eq_eq_eq, List.forall₂_map_left_iff, List.forall₂_map_right_iff]
    rw [List.forall₂_iff_zip] at hsame ⊢
    refine ⟨hsame.1, fun {x y} hpair => ?_⟩
    obtain ⟨s, -, hs⟩ := List.mem_map.mp (List.of_mem_zip (List.of_mem_zip hpair).1).1
    have htext := (hsame.2 hpair).1
    rw [← hs] at htext ⊢
    exact htext.eq_of_scalar (by simp [Datum.typeName])
  have hvalues : List.Forall₂ Same values (arranged.map (·.2)) := by
    rw [← hzip.2, List.forall₂_map_left_iff, List.forall₂_map_right_iff]
    exact hsame.imp fun _ _ hboth => hboth.2
  have harranged : arranged = (arranged.map (·.1)).zip (arranged.map (·.2)) :=
    List.zip_of_prod rfl rfl
  refine .dict ?_ hvalues
  rw [hkeys, ← harranged]
  exact horder.trans (List.mergeSort_perm _ _)

theorem eq_of_encode_scalar {n : Nat} {a b : Datum} (ha : Plain n a) (hb : Plain n b)
    (hscalar : a.typeName ∉ ["list", "dict"]) (h : encode c (n + 1) a = encode c (n + 1) b) :
    a = b := by
  have htype := typeName_eq_of_encode ha hb h
  cases ha with
  | none => cases hb <;> first | rfl | simp [Datum.typeName] at htype
  | bool b =>
    cases hb with
    | bool b' =>
      rw [encode, encode, utf8_inj] at h
      cases b <;> cases b' <;> simp at h ⊢
    | _ => simp [Datum.typeName] at htype
  | integer i =>
    cases hb with
    | integer j =>
      rw [encode, encode, utf8_inj] at h
      rw [Int.repr_injective h]
    | _ => simp [Datum.typeName] at htype
  | text s =>
    cases hb with
    | text t =>
      rw [encode, encode, utf8_append, utf8_append] at h
      rw [utf8_inj.mp (List.append_cancel_left h)]
    | _ => simp [Datum.typeName] at htype
  | list | dict => simp [Datum.typeName] at hscalar

/-- Two values that line up have the same encoding only if they are the same. -/
theorem same_of_encode_eq {n : Nat} {a b : Datum} (ha : Plain n a) (hb : Plain n b)
    (hup : LinedUp c (n + 1) a b) (h : encode c (n + 1) a = encode c (n + 1) b) : Same a b := by
  have htype := typeName_eq_of_encode ha hb h
  induction n generalizing a b with
  | zero =>
    have hscalar : a.typeName ∉ ["list", "dict"] := by cases ha <;> simp [Datum.typeName]
    exact eq_of_encode_scalar ha hb hscalar h ▸ .refl a
  | succ n ih =>
    have hparts (hpieces : List.Forall₂
        (fun x y => LinedUp c (n + 1) x y ∧ encode c (n + 1) x = encode c (n + 1) y)
        (parts c (n + 1) a) (parts c (n + 1) b)) :
        List.Forall₂ Same (parts c (n + 1) a) (parts c (n + 1) b) := by
      rw [List.forall₂_iff_zip] at hpieces ⊢
      refine ⟨hpieces.1, fun {x y} hpair => ?_⟩
      have hx := ha.of_mem_parts (List.of_mem_zip hpair).1
      have hy := hb.of_mem_parts (List.of_mem_zip hpair).2
      obtain ⟨hup, hxy⟩ := hpieces.2 hpair
      exact ih hx hy hup hxy (typeName_eq_of_encode hx hy hxy)
    by_cases hscalar : a.typeName ∉ ["list", "dict"]
    · exact eq_of_encode_scalar ha hb hscalar h ▸ .refl a
    cases ha with
    | none | bool | integer | text => simp [Datum.typeName] at hscalar
    | list hlength hitems =>
      cases hb with
      | list hlength' hitems' =>
        exact .list (hparts (parts_encode_eq (encode_list hlength _) (encode_list hlength' _)
          htype hup h))
      | _ => simp [Datum.typeName] at htype
    | dict hlength hnames hvalues =>
      cases hb with
      | dict hlength' hnames' hvalues' =>
        exact same_dict hlength (hparts (parts_encode_eq (encode_dict (by simpa using hlength) _)
          (encode_dict (by simpa using hlength') _) htype hup h))
      | _ => simp [Datum.typeName] at htype

/-! ### One changed place -/

/-- Two values that differ at one place, inside lists and under keys of dictionaries. What stands
there is not a list, or not a dictionary, both times: in these the place is sought further. -/
inductive ChangedOnce : Datum → Datum → Prop
  | here {a b : Datum} (h : a.typeName = b.typeName → a.typeName ∉ ["list", "dict"]) :
      ChangedOnce a b
  | item {before after : List Datum} {a b : Datum} (h : ChangedOnce a b) :
      ChangedOnce (.list (before ++ a :: after)) (.list (before ++ b :: after))
  | entry {keys before after : List Datum} {a b : Datum} (h : ChangedOnce a b) :
      ChangedOnce (.dict keys (before ++ a :: after)) (.dict keys (before ++ b :: after))

theorem LinedUp.refl (levels : Nat) (d : Datum) : LinedUp c levels d d := by
  induction levels generalizing d with
  | zero => trivial
  | succ levels ih =>
    exact fun _ => ⟨rfl, fun _ => ⟨⟨0, rfl⟩, List.forall₂_same.mpr fun part _ => ih part⟩⟩

/-- Parts that line up at one place and are the same elsewhere. -/
theorem linedUp_of_parts {levels : Nat} {a b x y : Datum} {before after : List Datum}
    (hsize : size a = size b) (ha : parts c levels a = before ++ x :: after)
    (hb : parts c levels b = before ++ y :: after) (h : LinedUp c levels x y) :
    LinedUp c (levels + 1) a b := by
  refine fun _ => ⟨by rw [hsize], fun _ => ⟨⟨before.length, ?_⟩, ?_⟩⟩
  · simp [ha, hb, List.eraseIdx_append_of_length_le]
  · rw [ha, hb]
    exact List.rel_append (List.forall₂_same.mpr fun part _ => .refl levels part)
      (.cons h (List.forall₂_same.mpr fun part _ => .refl levels part))

/-- Entries that are sorted by their keys stay where they are when one value changes. -/
theorem mergeSort_entry (le : Datum → Datum → Bool) (before after : List (Datum × Datum))
    (key : Datum) : ∃ front back, ∀ value,
      (before ++ (key, value) :: after).mergeSort (fun x y => le x.1 y.1) =
        front ++ (key, value) :: back := by
  -- Sorted with a gap in its place, the entry can be given any value afterwards.
  let gapped : List (Datum × Option Datum) :=
    before.map (Prod.map id some) ++ (key, none) :: after.map (Prod.map id some)
  let fill (value : Datum) (entry : Datum × Option Datum) := (entry.1, entry.2.getD value)
  have hsort (value : Datum) :
      (before ++ (key, value) :: after).mergeSort (fun x y => le x.1 y.1) =
        (gapped.mergeSort fun x y => le x.1 y.1).map (fill value) := by
    have hfill : before ++ (key, value) :: after = gapped.map (fill value) := by
      simp [gapped, fill, Function.comp_def]
    rw [hfill, List.map_mergeSort]
    exact fun _ _ _ _ => rfl
  obtain ⟨front, back, hgap⟩ : ∃ front back,
      (gapped.mergeSort fun x y => le x.1 y.1) = front ++ (key, none) :: back :=
    List.append_of_mem (List.mem_mergeSort.mpr (by simp [gapped]))
  have hkept : (front ++ back).Perm
      (before.map (Prod.map id some) ++ after.map (Prod.map id some)) := by
    have hperm := List.mergeSort_perm gapped fun x y => le x.1 y.1
    rw [hgap] at hperm
    exact (List.perm_middle.symm.trans (hperm.trans List.perm_middle)).cons_inv
  have hsame (value : Datum) : ∀ entry ∈ front ++ back, fill value entry = fill key entry := by
    intro entry hentry
    have hsome := hkept.mem_iff.mp hentry
    rw [← List.map_append, List.mem_map] at hsome
    obtain ⟨kept, -, rfl⟩ := hsome
    rfl
  refine ⟨front.map (fill key), back.map (fill key), fun value => ?_⟩
  rw [hsort, hgap, List.map_append, List.map_cons,
    List.map_congr_left fun entry h => hsame value entry (List.mem_append_left _ h),
    List.map_congr_left fun entry h => hsame value entry (List.mem_append_right _ h)]
  rfl

/-- All parts of a dictionary stay where they are when one value changes. -/
theorem parts_dict_value (levels : Nat) {keys before after : List Datum}
    (hlength : keys.length = before.length + (after.length + 1)) :
    ∃ front back, ∀ value,
      parts c levels (.dict keys (before ++ value :: after)) = front ++ value :: back := by
  obtain ⟨first, key, last, rfl, hfirst⟩ : ∃ first key last,
      keys = first ++ key :: last ∧ first.length = before.length := by
    have hlt : before.length < keys.length := by omega
    exact ⟨keys.take before.length, keys[before.length], keys.drop (before.length + 1),
      by simp, by simp [hlt.le]⟩
  obtain ⟨front, back, hsort⟩ := mergeSort_entry
    (fun x y => Sha256.hex (encode c levels x) ≤ Sha256.hex (encode c levels y))
    (first.zip before) (last.zip after) key
  refine ⟨front.flatMap (fun entry => [entry.1, entry.2]) ++ [key],
    back.flatMap fun entry => [entry.1, entry.2], fun value => ?_⟩
  rw [parts, entries, List.zip_append hfirst, List.zip_cons_cons, hsort]
  simp

theorem Plain.scalar_parts {n : Nat} {d : Datum} (h : Plain n d)
    (hscalar : d.typeName ∉ ["list", "dict"]) (levels : Nat) :
    size d = 0 ∧ parts c levels d = [] := by
  cases h with
  | none | bool | integer | text => exact ⟨rfl, rfl⟩
  | list | dict => simp [Datum.typeName] at hscalar

theorem Plain.of_dict {n : Nat} {keys values : List Datum} (h : Plain n (.dict keys values)) :
    keys.length = values.length ∧ ∃ m, n = m + 1 ∧ ∀ d ∈ values, Plain m d := by
  cases h with
  | dict hlength _ hvalues => exact ⟨by simpa using hlength, _, rfl, hvalues⟩

theorem ChangedOnce.linedUp {a b : Datum} (h : ChangedOnce a b) {n : Nat} (ha : Plain n a)
    (hb : Plain n b) : LinedUp c (n + 1) a b := by
  induction h generalizing n with
  | here h =>
    intro htype
    obtain ⟨hsize, hparts⟩ := ha.scalar_parts (h htype) n
    obtain ⟨hsize', hparts'⟩ := hb.scalar_parts (htype ▸ h htype) n
    rw [hsize, hsize', hparts, hparts']
    exact ⟨rfl, fun _ => ⟨⟨0, rfl⟩, .nil⟩⟩
  | item h ih =>
    cases ha with
    | list _ hitems =>
      cases hb with
      | list _ hitems' =>
        exact linedUp_of_parts (by simp [size]) rfl rfl
          (ih (hitems _ (by simp)) (hitems' _ (by simp)))
  | @entry keys before after a b h ih =>
    obtain ⟨hlength, m, rfl, hvalues⟩ := ha.of_dict
    obtain ⟨-, m', hm, hvalues'⟩ := hb.of_dict
    obtain rfl := Nat.succ.inj hm
    obtain ⟨front, back, hparts⟩ := parts_dict_value (m + 1) (by simpa using hlength)
    exact linedUp_of_parts rfl (hparts a) (hparts b)
      (ih (hvalues a (by simp)) (hvalues' b (by simp)))

/-! ### Fingerprints -/

/-- How deep lists and dictionaries may lie in values that are compared. -/
def depthLimit : Nat := 8

theorem Plain.mono {m n : Nat} {d : Datum} (h : Plain m d) (hle : m ≤ n) : Plain n d := by
  induction h generalizing n with
  | none => exact .none
  | bool b => exact .bool b
  | integer i => exact .integer i
  | text s => exact .text s
  | list hlength _ ih =>
    obtain ⟨k, rfl⟩ := Nat.exists_eq_succ_of_ne_zero (by omega : n ≠ 0)
    exact .list hlength fun d hd => ih d hd (Nat.le_of_succ_le_succ hle)
  | dict hlength hnames _ ih =>
    obtain ⟨k, rfl⟩ := Nat.exists_eq_succ_of_ne_zero (by omega : n ≠ 0)
    exact .dict hlength hnames fun d hd => ih d hd (Nat.le_of_succ_le_succ hle)

/-- Two values whose parts line up, or that differ at one place, have the same encoding only if
they are the same, and the same fingerprint too, unless the hash takes two encodings for one. -/
theorem fingerprints_separate_lined_up (c : Conventions) (hlevels : depthLimit < c.levels)
    (a b : Datum) (ha : Plain depthLimit a) (hb : Plain depthLimit b)
    (hup : LinedUp c c.levels a b ∨ ChangedOnce a b) :
    (encode c c.levels a = encode c c.levels b → Same a b) ∧
      ((Sha256.hex (encode c c.levels a) = Sha256.hex (encode c c.levels b) →
          encode c c.levels a = encode c c.levels b) →
        fingerprint c a = fingerprint c b → Same a b) := by
  obtain ⟨n, hn⟩ := Nat.exists_eq_add_of_lt hlevels
  unfold fingerprint
  rw [hn] at hup ⊢
  have ha := ha.mono (Nat.le_add_right depthLimit n)
  have hb := hb.mono (Nat.le_add_right depthLimit n)
  have hsame := same_of_encode_eq ha hb (hup.elim id fun hone => hone.linedUp ha hb)
  exact ⟨hsame, fun hhash hprint => hsame (hhash hprint)⟩

/-- Three parts change at once, one of them to a longer one. -/
theorem fingerprints_separate_lined_up_text :
    let c : Conventions := ⟨9, [], fun _ => [], fun _ data => data, fun _ _ => []⟩
    depthLimit < c.levels ∧
    encode c c.levels
        (.list [.integer 12, .dict (["x"].map .text) [.text "ab"], .bool true]) ≠
      encode c c.levels
        (.list [.integer 13, .dict (["x"].map .text) [.text "abc"], .none]) := by
  intro c
  refine ⟨by decide, fun h => ?_⟩
  have hdict (s : String) : Plain 7 (.dict (["x"].map .text) [.text s]) :=
    .dict rfl (by decide) (by simpa using .text s)
  have hplain (i : Int) (s : String) {last : Datum} (hlast : Plain 7 last) :
      Plain depthLimit (.list [.integer i, .dict (["x"].map .text) [.text s], last]) :=
    .list (by simp [itemLimit]) (by
      simp only [List.forall_mem_cons]
      exact ⟨.integer i, hdict s, hlast, by simp⟩)
  have hvalue : ChangedOnce (.dict (["x"].map .text) ([] ++ .text "ab" :: []))
      (.dict (["x"].map .text) ([] ++ .text "abc" :: [])) :=
    .entry (.here (by decide))
  have hparts : List.Forall₂ (LinedUp c depthLimit)
      [.integer 12, .dict (["x"].map .text) [.text "ab"], .bool true]
      [.integer 13, .dict (["x"].map .text) [.text "abc"], .none] :=
    .cons ((ChangedOnce.here (by decide)).linedUp (.integer 12) (.integer 13))
      (.cons (hvalue.linedUp (hdict "ab") (hdict "abc"))
        (.cons ((ChangedOnce.here (by decide)).linedUp (.bool true) .none) .nil))
  have hsame := (fingerprints_separate_lined_up c (by decide) _ _ (hplain 12 "ab" (.bool true))
    (hplain 13 "abc" .none)
    (.inl fun _ => ⟨rfl, fun _ => ⟨⟨1, by decide +kernel⟩, hparts⟩⟩)).1 h
  have hfirst := (List.forall₂_cons.mp hsame.of_list).1
  simpa using hfirst.eq_of_scalar (by decide)

theorem byKey_pair (a b : Bytes × Bytes) :
    byKey [a, b] = if Sha256.hex a.1 ≤ Sha256.hex b.1 then [a, b] else [b, a] := by
  by_cases h : Sha256.hex a.1 ≤ Sha256.hex b.1 <;>
    simp [byKey, List.mergeSort, List.MergeSort.Internal.splitInTwo, h]

/-- Two values that are not the same and have one fingerprint. -/
def RunTogether (a b : Datum) : Prop :=
  Plain depthLimit a ∧ Plain depthLimit b ∧ ¬ Same a b ∧
    ∀ c : Conventions, depthLimit < c.levels →
      encode c c.levels a = encode c c.levels b ∧ fingerprint c a = fingerprint c b

theorem runTogether_of_encode {a b : Datum} (ha : Plain depthLimit a) (hb : Plain depthLimit b)
    (hne : ¬ Same a b) (h : ∀ c n, encode c (n + 2) a = encode c (n + 2) b) : RunTogether a b := by
  refine ⟨ha, hb, hne, fun c hlevels => ?_⟩
  obtain ⟨n, hn⟩ := Nat.exists_eq_add_of_lt hlevels
  have hencode : encode c c.levels a = encode c c.levels b := by
    rw [hn, show depthLimit + n + 1 = n + 7 + 2 by unfold depthLimit; omega]
    exact h c (n + 7)
  exact ⟨hencode, congrArg Sha256.hex hencode⟩

/-- Numbers run into the numbers behind them, keys into their values, and the entry of a key that
is renamed into its neighbour. -/
theorem neighbours_run_together :
    RunTogether (.list [.integer 1, .integer 23]) (.list [.integer 12, .integer 3]) ∧
    RunTogether (.dict (["a"].map .text) [.integer 11]) (.dict (["a1"].map .text) [.integer 1]) ∧
    RunTogether (.dict (["b1sa", "b"].map .text) [.integer 1, .integer 1])
      (.dict (["a1sb", "b"].map .text) [.integer 1, .integer 1]) := by
  have hintegers (n : Nat) (is : List Int) : ∀ d ∈ is.map Datum.integer, Plain n d := by
    intro d hd
    obtain ⟨i, -, rfl⟩ := List.mem_map.mp hd
    exact .integer i
  have hnumbers : ¬ Same (.list [.integer 1, .integer 23]) (.list [.integer 12, .integer 3]) :=
    fun h => by
      have hfirst := (List.forall₂_cons.mp h.of_list).1
      simpa using hfirst.eq_of_scalar (by decide)
  have hname : ¬ Same (.dict (["a"].map .text) [.integer 11])
      (.dict (["a1"].map .text) [.integer 1]) :=
    fun h => by simpa using h.mem_keys rfl (.text "a")
  have hnames : ¬ Same (.dict (["b1sa", "b"].map .text) [.integer 1, .integer 1])
      (.dict (["a1sb", "b"].map .text) [.integer 1, .integer 1]) :=
    fun h => by simpa using h.mem_keys rfl (.text "b1sa")
  refine ⟨runTogether_of_encode (.list (by decide) (hintegers _ [1, 23]))
      (.list (by decide) (hintegers _ [12, 3])) hnumbers fun c n => ?_,
    runTogether_of_encode (.dict rfl (by decide) (hintegers _ [11]))
      (.dict rfl (by decide) (hintegers _ [1])) hname fun c n => ?_,
    runTogether_of_encode (.dict rfl (by decide) (hintegers _ [1, 1]))
      (.dict rfl (by decide) (hintegers _ [1, 1])) hnames fun c n => ?_⟩
  · change header "L" 2 ++ [utf8 "1", utf8 "23"].flatten =
      header "L" 2 ++ [utf8 "12", utf8 "3"].flatten
    decide +kernel
  · change dictBytes [(utf8 "sa", utf8 "11")] = dictBytes [(utf8 "sa1", utf8 "1")]
    decide +kernel
  · have hfirst : Sha256.hex (utf8 "sb1sa") ≤ Sha256.hex (utf8 "sb") := by decide +kernel
    have hlast : ¬ Sha256.hex (utf8 "sa1sb") ≤ Sha256.hex (utf8 "sb") := by decide +kernel
    change dictBytes [(utf8 "sb1sa", utf8 "1"), (utf8 "sb", utf8 "1")] =
      dictBytes [(utf8 "sa1sb", utf8 "1"), (utf8 "sb", utf8 "1")]
    rw [dictBytes, dictBytes, byKey_pair, byKey_pair, if_pos hfirst, if_neg hlast]
    decide +kernel

end DecimalScript.Benchmark
