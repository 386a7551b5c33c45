import AugraDosbox.Dos.FatDirectory

/-!
# Names of eight and three characters

* `Name83` — a valid name; `text` is how a path has it, `entryname` how an entry has it;
* `WellNamed` — the names that entries of a directory have, with those of the directory itself
  and of its parent;
* `HasName` — the entry has this name, in capital or small letters;
* `findName_entryname`, `searchPattern_text` — the strings that a search compares;
* **`matches_iff`** — a search without wildcards finds the name and no other one;
* `convToDirFile_text` — the form in which a name is written.
-/

namespace AugraDosbox.Fat

/-! ## Names -/

/-- A character that a name may have. -/
def IsNameChar (c : UInt8) : Prop := c ∉ [0, space, dot, star, questionMark, backslash]

instance (c : UInt8) : Decidable (IsNameChar c) := inferInstanceAs (Decidable (_ ∉ _))

structure Name83 where
  name : CString
  ext : CString
  name_ne : name ≠ []
  name_length : name.length ≤ 8
  ext_length : ext.length ≤ 3
  name_char : ∀ c ∈ name, IsNameChar c
  ext_char : ∀ c ∈ ext, IsNameChar c
deriving DecidableEq

/-- The name and the extension of an entry, filled up with spaces. -/
def fields (name ext : CString) : Vector UInt8 11 := DTA.field 8 name ++ DTA.field 3 ext

namespace Name83

/-- The name in a path. -/
def text (n : Name83) : CString := if n.ext = [] then n.name else n.name ++ dot :: n.ext

/-- The name in an entry. -/
def entryname (n : Name83) : Vector UInt8 11 := fields n.name n.ext

end Name83

/-- The names of the entries that lead to the directory itself and to its parent. -/
def dotName : Vector UInt8 11 := fields [dot] []
def dotDotName : Vector UInt8 11 := fields [dot, dot] []

/-- A name that an entry of a directory has. -/
inductive WellNamed : Vector UInt8 11 → Prop
  | name (n : Name83) : WellNamed n.entryname
  | dotName : WellNamed dotName
  | dotDotName : WellNamed dotDotName

/-- The entry has the name, whether in capital or in small letters. -/
def HasName (n : Name83) (entryname : Vector UInt8 11) : Prop :=
  entryname.toList.map toupper = n.entryname.toList.map toupper

instance (n : Name83) (entryname : Vector UInt8 11) : Decidable (HasName n entryname) :=
  inferInstanceAs (Decidable (_ = _))

/-! ## Fields -/

variable {k : ℕ} {s name ext : CString}

theorem field_toList (h : s.length ≤ k) :
    (DTA.field k s).toList = s ++ List.replicate (k - s.length) space := by
  apply List.ext_getElem
  · simp [h]
  · intro i h₁ h₂
    by_cases hi : i < s.length
    · simp [DTA.field, List.getElem_append_left hi, hi]
    · have hi' : s.length ≤ i := Nat.le_of_not_lt hi
      simp [DTA.field, List.getElem_append_right hi', hi']

theorem fields_toList :
    (fields name ext).toList = (DTA.field 8 name).toList ++ (DTA.field 3 ext).toList :=
  Vector.toList_append

theorem field_take : DTA.field k (s.take k) = DTA.field k s := by
  ext i hi
  simp [DTA.field]

/-- A string over spaces is a field with the zero behind it. -/
theorem overSpaces_eq (h : s.length ≤ k) :
    overSpaces k s = (DTA.field k s).toList ++ [0] := by
  have hle : s.length ≤ k + 1 := Nat.le_succ_of_le h
  rw [overSpaces, field_toList h, List.take_of_length_le hle, Nat.min_eq_left hle,
    List.drop_append_of_le_length (by simpa using h), List.drop_replicate, List.append_assoc]

theorem IsNameChar.ne {c : UInt8} (h : IsNameChar c) :
    c ≠ 0 ∧ c ≠ space ∧ c ≠ dot ∧ c ≠ star ∧ c ≠ questionMark ∧ c ≠ backslash := by
  simpa [IsNameChar] using h

namespace Name83

variable (n : Name83)

theorem zero_not_mem : (0 : UInt8) ∉ n.name ∧ (0 : UInt8) ∉ n.ext :=
  ⟨fun h => (n.name_char _ h).ne.1 rfl, fun h => (n.ext_char _ h).ne.1 rfl⟩

theorem dot_not_mem : dot ∉ n.name ∧ dot ∉ n.ext :=
  ⟨fun h => (n.name_char _ h).ne.2.2.1 rfl, fun h => (n.ext_char _ h).ne.2.2.1 rfl⟩

theorem backslash_not_mem_text : backslash ∉ n.text := by
  have hname : backslash ∉ n.name := fun h => (n.name_char _ h).ne.2.2.2.2.2 rfl
  have hext : backslash ∉ n.ext := fun h => (n.ext_char _ h).ne.2.2.2.2.2 rfl
  rw [text]
  by_cases h : n.ext = []
  · rwa [if_pos h]
  · rw [if_neg h, List.mem_append, List.mem_cons]
    rintro (hmem | hmem | hmem)
    · exact hname hmem
    · exact absurd hmem (by decide)
    · exact hext hmem

theorem text_ne_nil : n.text ≠ [] := by
  rw [text]
  by_cases h : n.ext = []
  · rw [if_pos h]
    exact n.name_ne
  · rw [if_neg h]
    simp

/-- The name begins with one of its characters. -/
theorem exists_head : ∃ c rest, n.name = c :: rest ∧ IsNameChar c := by
  obtain ⟨c, rest, hname⟩ := List.exists_cons_of_ne_nil n.name_ne
  exact ⟨c, rest, hname, n.name_char c (hname ▸ List.mem_cons_self)⟩

end Name83

/-! ## The strings that are compared -/

theorem cstr_of_not_mem (h : (0 : UInt8) ∉ s) : cstr s = s := by
  rw [cstr, List.takeWhile_eq_self_iff]
  intro c hc
  exact decide_eq_true (ne_of_mem_of_not_mem hc h)

theorem zero_not_mem_field (hs : s.length ≤ k) (h : (0 : UInt8) ∉ s) :
    (0 : UInt8) ∉ (DTA.field k s).toList := by
  rw [field_toList hs, List.mem_append, List.mem_replicate]
  rintro (hmem | ⟨-, hmem⟩)
  · exact h hmem
  · exact absurd hmem (by decide)

/-- The spaces behind a name are taken off. -/
theorem trimString_field (hs : s.length ≤ k) (hchar : space ∉ s) :
    trimString (DTA.field k s).toList = s := by
  have hfront : (s ++ List.replicate (k - s.length) space).dropWhile (· = space) =
      if s = [] then [] else s ++ List.replicate (k - s.length) space := by
    cases s with
    | nil => simp
    | cons c s =>
      have hc : c ≠ space := fun h => hchar (h ▸ List.mem_cons_self)
      simp [hc]
  have hback : s.reverse.dropWhile (· = space) = s.reverse := by
    rw [List.dropWhile_eq_self_iff]
    intro hlen
    have hmem : s.reverse[0] ∈ s := List.mem_reverse.1 (List.getElem_mem hlen)
    simpa using ne_of_mem_of_not_mem hmem hchar
  rw [trimString, field_toList hs, hfront]
  by_cases hnil : s = []
  · rw [if_pos hnil, hnil]
    rfl
  · rw [if_neg hnil, List.rdropWhile, List.reverse_append, List.reverse_replicate,
      List.dropWhile_append_of_pos (by simp), hback, List.reverse_reverse]

/-- The string of an entry with a valid name is the name. -/
theorem findName_entryname (n : Name83) : findName n.entryname = n.text := by
  have hname : space ∉ n.name := fun h => (n.name_char _ h).ne.2.1 rfl
  have hext : space ∉ n.ext := fun h => (n.ext_char _ h).ne.2.1 rfl
  have hlen : (DTA.field 8 n.name).toList.length = 8 := Vector.length_toList
  have htake : (n.entryname.toList).take 8 = (DTA.field 8 n.name).toList := by
    rw [Name83.entryname, fields_toList, List.take_append_of_le_length hlen.ge,
      List.take_of_length_le hlen.le]
  have hdrop : (n.entryname.toList).drop 8 = (DTA.field 3 n.ext).toList := by
    rw [Name83.entryname, fields_toList, List.drop_append_of_le_length hlen.ge,
      List.drop_of_length_le hlen.le, List.nil_append]
  rw [findName, htake, hdrop, cstr_of_not_mem (zero_not_mem_field n.name_length n.zero_not_mem.1),
    cstr_of_not_mem (zero_not_mem_field n.ext_length n.zero_not_mem.2),
    trimString_field n.name_length hname, trimString_field n.ext_length hext, Name83.text]
  by_cases h : n.ext = []
  · rw [if_pos h]
    simp [h]
  · rw [if_neg h]
    simp [h]

/-- The pattern that a search for a name has. -/
def searchPattern (name : CString) : CString := (imgDTA.SetupSearch 0 name).GetSearchParams.2

theorem getSearchParams_setupSearch (dta : DTA) (attrs : UInt8) (name : CString) (id : ℕ) :
    ((dta.SetupSearch attrs name).SetDirID id).GetSearchParams = (attrs, searchPattern name) := by
  unfold searchPattern DTA.SetupSearch
  cases strchr dot name with
  | none => rfl
  | some x => rfl

/-- The pattern of a name has its two fields, with a dot between them. -/
theorem searchPattern_text (n : Name83) :
    searchPattern n.text = (DTA.field 8 n.name).toList ++ dot :: (DTA.field 3 n.ext).toList := by
  have hzero : (0 : UInt8) ∉ (DTA.field 8 n.name).toList ++ dot :: (DTA.field 3 n.ext).toList := by
    rw [List.mem_append, List.mem_cons]
    rintro (h | h | h)
    · exact zero_not_mem_field n.name_length n.zero_not_mem.1 h
    · exact absurd h (by decide)
    · exact zero_not_mem_field n.ext_length n.zero_not_mem.2 h
  have hparams : (imgDTA.SetupSearch 0 n.text).GetSearchParams.2
      = cstr ((DTA.field 8 n.name).toList ++ dot :: (DTA.field 3 n.ext).toList) := by
    rw [Name83.text, DTA.SetupSearch]
    by_cases h : n.ext = []
    · rw [if_pos h, strchr_eq_none n.dot_not_mem.1, h]
      rfl
    · rw [if_neg h, strchr_of_not_mem n.dot_not_mem.1]
      rfl
  rw [searchPattern, hparams, cstr_of_not_mem hzero]

theorem splitExt_text (n : Name83) : splitExt n.text = (n.name, n.ext) := by
  rw [splitExt, Name83.text]
  by_cases h : n.ext = []
  · rw [if_pos h, strrchr_eq_none n.dot_not_mem.1, h]
    rfl
  · rw [if_neg h, strrchr_of_not_mem n.dot_not_mem.2]
    rfl

theorem splitExt_pattern (n : Name83) : splitExt (searchPattern n.text) =
    ((DTA.field 8 n.name).toList, (DTA.field 3 n.ext).toList) := by
  have hdot : dot ∉ (DTA.field 3 n.ext).toList := by
    rw [field_toList n.ext_length, List.mem_append, List.mem_replicate]
    rintro (h | ⟨-, h⟩)
    · exact n.dot_not_mem.2 h
    · exact absurd h (by decide)
  rw [splitExt, searchPattern_text, strrchr_of_not_mem hdot]
  rfl

/-! ## Comparisons -/

/-- A character that stands for itself in a pattern. -/
def IsPlain (c : UInt8) : Prop := c ≠ star ∧ c ≠ questionMark

theorem partMatches_iff {wild file : List UInt8} (hplain : ∀ c ∈ wild, IsPlain c)
    (hlen : wild.length = file.length) :
    partMatches (wild ++ [0]) file = true ↔ file = wild := by
  induction wild generalizing file with
  | nil =>
    obtain rfl : file = [] := List.length_eq_zero_iff.1 hlen.symm
    simp [partMatches]
  | cons w wild ih =>
    cases file with
    | nil => simp at hlen
    | cons f file =>
      have hw := hplain w List.mem_cons_self
      have hrest := ih (fun c hc => hplain c (List.mem_cons_of_mem _ hc))
        (by simpa using hlen : wild.length = file.length)
      rw [List.cons_append, partMatches, if_neg hw.1]
      by_cases heq : w = f
      · rw [if_neg (by simp [heq]), hrest, heq]
        simp
      · rw [if_pos ⟨hw.2, heq⟩]
        simp [Ne.symm heq]

theorem toupper_ne {c x : UInt8} (h : c ≠ x) (hx : x.toNat < 0x41) : toupper c ≠ x := by
  rw [toupper]
  by_cases hc : 0x61 ≤ c ∧ c ≤ 0x7a
  · rw [if_pos hc]
    have hlow : 0x61 ≤ c.toNat := hc.1
    have hsub : (c - 0x20).toNat = c.toNat - 0x20 :=
      UInt8.toNat_sub_of_le c 0x20 (UInt8.le_iff_toNat_le.2 (le_trans (by decide) hlow))
    intro heq
    rw [heq] at hsub
    omega
  · rwa [if_neg hc]

theorem toupper_plain {c : UInt8} (h : IsPlain c) : IsPlain (toupper c) :=
  ⟨toupper_ne h.1 (by decide), toupper_ne h.2 (by decide)⟩

theorem isPlain_of_mem_field (hs : s.length ≤ k) (hchar : ∀ c ∈ s, IsNameChar c) :
    ∀ c ∈ (DTA.field k s).toList, IsPlain c := by
  intro c hc
  rw [field_toList hs, List.mem_append, List.mem_replicate] at hc
  rcases hc with hc | ⟨-, rfl⟩
  · exact ⟨(hchar c hc).ne.2.2.2.1, (hchar c hc).ne.2.2.2.2.1⟩
  · exact ⟨by decide, by decide⟩

/-- One part of a name against the same part of a pattern. -/
theorem partMatches_fields {k : ℕ} {file wild : CString} (hwild : wild.length ≤ k)
    (hchar : ∀ c ∈ wild, IsNameChar c) :
    partMatches ((overSpaces k (DTA.field k wild).toList).map toupper)
        (((overSpaces k (file.take k)).map toupper).take k) = true ↔
      (DTA.field k file).toList.map toupper = (DTA.field k wild).toList.map toupper := by
  have hfull : (DTA.field k wild).toList.length = k := Vector.length_toList
  have hself : DTA.field k (DTA.field k wild).toList = DTA.field k wild := by
    ext i hi
    simp [DTA.field]
  have hover : (overSpaces k (DTA.field k wild).toList).map toupper =
      (DTA.field k wild).toList.map toupper ++ [0] := by
    rw [overSpaces_eq hfull.le, hself, List.map_append]
    rfl
  have htake : ((overSpaces k (file.take k)).map toupper).take k =
      (DTA.field k file).toList.map toupper := by
    rw [overSpaces_eq (List.length_take_le _ _), field_take, List.map_append,
      List.take_append_of_le_length (by simp), List.take_of_length_le (by simp)]
  have hplain : ∀ c ∈ (DTA.field k wild).toList.map toupper, IsPlain c := by
    intro c hc
    obtain ⟨x, hx, rfl⟩ := List.mem_map.1 hc
    exact toupper_plain (isPlain_of_mem_field hwild hchar x hx)
  rw [hover, htake, partMatches_iff hplain (by simp)]

theorem fields_map_iff {name' ext' : CString} :
    (fields name ext).toList.map toupper = (fields name' ext').toList.map toupper ↔
      (DTA.field 8 name).toList.map toupper = (DTA.field 8 name').toList.map toupper ∧
        (DTA.field 3 ext).toList.map toupper = (DTA.field 3 ext').toList.map toupper := by
  rw [fields_toList, fields_toList, List.map_append, List.map_append]
  exact List.append_eq_append_iff_of_size_eq_left (by simp)

/-- **A pattern without wildcards** compares the two fields of a name. -/
theorem wild_file_cmp_text (n : Name83) (file : CString) :
    wild_file_cmp file (searchPattern n.text) = true ↔
      HasName n (fields (splitExt file).1 (splitExt file).2) := by
  have hlen : (searchPattern n.text).length = 12 := by
    rw [searchPattern_text, List.length_append, List.length_cons, Vector.length_toList,
      Vector.length_toList]
  have hne : searchPattern n.text ≠ [] := List.ne_nil_of_length_pos (by omega)
  have hplain : ∀ c ∈ searchPattern n.text, IsPlain c := by
    intro c hc
    rw [searchPattern_text, List.mem_append, List.mem_cons] at hc
    rcases hc with hc | rfl | hc
    · exact isPlain_of_mem_field n.name_length n.name_char c hc
    · exact ⟨by decide, by decide⟩
    · exact isPlain_of_mem_field n.ext_length n.ext_char c hc
  have hhidden : wildcard_matches_hidden_file file (searchPattern n.text) = false := by
    have hany : ((searchPattern n.text).any fun c => c = questionMark ∨ c = star) = false := by
      rw [List.any_eq_false]
      intro c hc
      simpa using And.intro (hplain c hc).2 (hplain c hc).1
    rw [wildcard_matches_hidden_file, hany]
    rfl
  have hname := @partMatches_fields 8 (splitExt file).1 n.name n.name_length n.name_char
  have hext := @partMatches_fields 3 (splitExt file).2 n.ext n.ext_length n.ext_char
  rw [HasName, Name83.entryname, fields_map_iff, ← hname, ← hext, ← Bool.and_eq_true]
  rw [wild_file_cmp, if_neg (by simp [hne, hlen, LFN_NAMELENGTH]), hhidden, splitExt_pattern]
  rfl

/-- No valid name begins with a space or a dot. -/
theorem not_hasName_of_head {n : Name83} {entryname : Vector UInt8 11}
    (h : entryname[0]? = some space ∨ entryname[0]? = some dot) : ¬ HasName n entryname := by
  intro hname
  obtain ⟨c, rest, hcons, hc⟩ := n.exists_head
  have hhead : n.entryname[0] = c := by
    rw [Name83.entryname, fields, hcons]
    rfl
  have heq : toupper entryname[0] = toupper c := by
    have hget := congrArg (fun l : List UInt8 => l[0]?) hname
    simpa [hhead] using hget
  rw [Vector.getElem?_eq_getElem (by decide), Option.some_inj, Option.some_inj] at h
  rcases h with h | h
  · rw [h] at heq
    exact toupper_ne hc.ne.2.1 (by decide) heq.symm
  · rw [h] at heq
    exact toupper_ne hc.ne.2.2.1 (by decide) heq.symm

/-- **Searches for a name**: without wildcards they find the entries with this name only. -/
theorem matches_iff {n : Name83} {entryname : Vector UInt8 11} (h : WellNamed entryname) :
    wild_file_cmp (findName entryname) (searchPattern n.text) = true ↔ HasName n entryname := by
  rw [wild_file_cmp_text]
  cases h with
  | name m => rw [findName_entryname, splitExt_text, Name83.entryname]
  | dotName =>
    have hleft : ¬ HasName n (fields (splitExt (findName dotName)).1
        (splitExt (findName dotName)).2) := not_hasName_of_head (by decide)
    exact iff_of_false hleft (not_hasName_of_head (by decide))
  | dotDotName =>
    have hleft : ¬ HasName n (fields (splitExt (findName dotDotName)).1
        (splitExt (findName dotDotName)).2) := not_hasName_of_head (by decide)
    exact iff_of_false hleft (not_hasName_of_head (by decide))

/-! ## New entries -/

/-- A part of a name at the positions from `k` on. -/
def placed (s : CString) (k : ℕ) (filearray : Vector UInt8 11) : Vector UInt8 11 :=
  .ofFn fun i => if k ≤ i ∧ i < k + s.length then s.getD (i - k) space else filearray[i]

theorem getElem_placed {i : ℕ} {filearray : Vector UInt8 11} (hi : i < 11) :
    (placed s k filearray)[i] =
      if k ≤ i ∧ i < k + s.length then s.getD (i - k) space else filearray[i] :=
  Vector.getElem_ofFn hi

theorem placed_nil (k : ℕ) (filearray : Vector UInt8 11) : placed [] k filearray = filearray :=
  Vector.ext fun i hi => by rw [getElem_placed hi, if_neg (by simp)]

theorem convLoop_append {s rest : CString} {k : ℕ} {filearray : Vector UInt8 11} (hs : dot ∉ s)
    (hk : k + s.length ≤ 11) :
    convLoop (s ++ rest) k filearray = convLoop rest (k + s.length) (placed s k filearray) := by
  induction s generalizing k filearray with
  | nil =>
    rw [placed_nil]
    rfl
  | cons c s ih =>
    have hc : c ≠ dot := fun h => hs (h ▸ List.mem_cons_self)
    have hlen : k + (s.length + 1) ≤ 11 := hk
    have hplaced : placed s (k + 1) (filearray.set! k c) = placed (c :: s) k filearray := by
      refine Vector.ext fun i hi => ?_
      rw [getElem_placed hi, getElem_placed hi, List.length_cons]
      rcases Nat.lt_trichotomy i k with hlt | rfl | hgt
      · rw [if_neg (by omega), if_neg (by omega)]
        simp [Nat.ne_of_gt hlt]
      · rw [if_neg (by omega), if_pos (by omega), Nat.sub_self]
        simp
      · obtain ⟨j, rfl⟩ := Nat.exists_eq_add_of_lt hgt
        rw [show k + j + 1 - (k + 1) = j by omega, show k + j + 1 - k = j + 1 by omega,
          List.getD_cons_succ]
        by_cases hin : j < s.length
        · rw [if_pos (by omega), if_pos (by omega)]
        · rw [if_neg (by omega), if_neg (by omega)]
          simp [show k ≠ k + j + 1 by omega]
    rw [List.cons_append, convLoop, if_neg (by omega), if_pos hc,
      ih (fun h => hs (List.mem_cons_of_mem _ h)) (by omega), hplaced, List.length_cons,
      show k + 1 + s.length = k + (s.length + 1) by omega]

theorem getElem_fields {i : ℕ} (hi : i < 11) :
    (fields name ext)[i] = if i < 8 then name.getD i space else ext.getD (i - 8) space := by
  show (DTA.field 8 name ++ DTA.field 3 ext)[i] = _
  rw [Vector.getElem_append]
  split_ifs <;> simp [DTA.field]

theorem Name83.text_length_le (n : Name83) : n.text.length ≤ DOS_NAMELENGTH_ASCII - 1 := by
  have hname := n.name_length
  have hext := n.ext_length
  rw [Name83.text]
  split_ifs
  · exact hname.trans (by decide)
  · rw [List.length_append, List.length_cons]
    show n.name.length + (n.ext.length + 1) ≤ 12
    omega

/-- **The name of an entry** in the form in which it is written. -/
theorem convToDirFile_text (n : Name83) : convToDirFile n.text = n.entryname := by
  have hname := n.name_length
  have hext := n.ext_length
  have htake : n.text.take DOS_NAMELENGTH_ASCII = n.text :=
    List.take_of_length_le (n.text_length_le.trans (by decide))
  have hplaced : convLoop n.text 0 (Vector.replicate 11 space) =
      placed n.ext 8 (placed n.name 0 (Vector.replicate 11 space)) := by
    rw [Name83.text]
    by_cases h : n.ext = []
    · have hloop := @convLoop_append n.name [] 0 (Vector.replicate 11 space) n.dot_not_mem.1
        (by omega)
      rw [List.append_nil] at hloop
      rw [if_pos h, hloop, convLoop, h, placed_nil]
    · have hloop := @convLoop_append n.ext [] 8 (placed n.name 0 (Vector.replicate 11 space))
        n.dot_not_mem.2 (by omega)
      rw [List.append_nil] at hloop
      rw [if_neg h, convLoop_append n.dot_not_mem.1 (by omega), convLoop, if_neg (by omega),
        if_neg (by simp), hloop, convLoop]
  rw [convToDirFile, htake, hplaced]
  refine Vector.ext fun i hi => ?_
  rw [getElem_placed hi, getElem_placed hi, Name83.entryname, getElem_fields hi, Nat.sub_zero]
  -- in front of the extension, in it, and behind both
  by_cases h8 : i < 8
  · rw [if_neg (by omega), if_pos h8]
    by_cases hin : i < n.name.length
    · rw [if_pos (by omega)]
    · rw [if_neg (by omega), List.getD_eq_default _ _ (by omega)]
      simp
  · rw [if_neg h8]
    by_cases hin : i < 8 + n.ext.length
    · rw [if_pos (by omega)]
    · rw [if_neg (by omega), if_neg (by omega), List.getD_eq_default _ _ (by omega)]
      simp

end AugraDosbox.Fat
