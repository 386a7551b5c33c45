import Mathlib.Data.Nat.Digits.Lemmas
import Mathlib.Data.Nat.Log
import Mathlib.Data.List.TakeWhile
import AugraDosbox.Dos.FatNames

/-!
# Short names of host files

`sfn_clean_basis` and `generate_8x3` of `src/dos/drives.cpp`, and the name with a number that
`CreateShortName` of `src/dos/drive_cache.cpp` builds.

* `Plain` — the characters that short names are made of;
* `clean_of_legal` — a name that fits is taken as it is, in upper case;
* `fits_of_not_8x3` — and no other name is called one that fits;
* **`sfn_clean_basis_exact`** — the form of the names, when the host name is one already, and that
  both generators build the same name.
-/

namespace AugraDosbox.ShortName

open Fat

def underscore : UInt8 := 0x5f
def tilde : UInt8 := 0x7e

/-- `"+=,;:<>[]|?*/\` and the quotation mark. -/
def special_characters : CString :=
  [0x22, 0x2b, 0x3d, 0x2c, 0x3b, 0x3a, 0x3c, 0x3e, 0x5b, 0x5d, 0x7c, 0x3f, 0x2a, 0x2f, 0x5c]

def is_special_character (c : UInt8) : Bool := c ∈ special_characters

def is_sfn_illegal (c : UInt8) : Bool := c < 0x20 || c = 0x7f || is_special_character c

structure SfnBasis where
  name : CString
  ext : CString
  lossy : Bool
  not_8x3 : Bool
  deriving DecidableEq, Repr

/-- The spaces and dots that are taken off at both ends. -/
def isPadding (c : UInt8) : Bool := c = space || c = dot

def sfnChar (c : UInt8) : UInt8 := if is_sfn_illegal c then underscore else toupper c

/-- The copying loops of `sfn_clean_basis`, with room for `n` characters. -/
def copyLoop : ℕ → CString → CString
  | 0, _ => []
  | _ + 1, [] => []
  | n + 1, c :: s => if c = space then copyLoop (n + 1) s else sfnChar c :: copyLoop n s

/-- The part of `sfn_clean_basis` behind the ends: `body` is what is left. -/
def cleanBody (not_8x3 : Bool) (body : CString) : SfnBasis :=
  let first_dot := strchr dot body
  let last_dot := strrchr dot body
  let prim := match first_dot with
    | none => body
    | some (pre, _) => pre
  let ext := match last_dot with
    | none => []
    | some (_, post) => post
  let not_8x3 := not_8x3 ||
    first_dot.map (fun d => d.1.length) ≠ last_dot.map (fun d => d.1.length)
  let not_8x3 := not_8x3 || prim.any (fun c => c = space || is_sfn_illegal c) ||
    ext.any (fun c => c = space || is_sfn_illegal c)
  let lossy := prim.any is_sfn_illegal || ext.any is_sfn_illegal
  let not_8x3 := not_8x3 || 8 < (prim.filter (· ≠ space)).length ||
    3 < (ext.filter (· ≠ space)).length
  let name := copyLoop 8 prim
  if name = [] then ⟨[underscore], copyLoop 3 ext, true, true⟩
  else ⟨name, copyLoop 3 ext, lossy, not_8x3⟩

def sfn_clean_basis (input : CString) : SfnBasis :=
  if input = [] then ⟨[underscore], [], true, true⟩
  else if input = [dot] ∨ input = [dot, dot] then ⟨input, [], false, false⟩
  else
    let p := input.dropWhile isPadding
    let body := p.rdropWhile isPadding
    if body = [] then ⟨[underscore], [], true, true⟩
    else cleanBody (p.length ≠ input.length || body.length ≠ p.length) body

/-! ## Names with a number -/

/-- The decimal digits of a number. -/
def decimal (n : ℕ) : CString :=
  if n = 0 then [0x30] else (Nat.digits 10 n).reverse.map fun d => 0x30 + UInt8.ofNat d

/-- An extension with its dot. -/
def dotted (ext : CString) : CString := if ext = [] then [] else dot :: ext

def generate_8x3 (lfn : CString) (num : ℕ) : CString :=
  if num = 0 ∨ 1000000 ≤ num then []
  else
    let basis := sfn_clean_basis lfn
    let tilde_pos := 6 - Nat.log 10 num
    basis.name.take tilde_pos ++ tilde :: decimal num ++ dotted basis.ext

def DOS_NAMELENGTH : ℕ := 12

/-- The name of `CreateShortName` for a basis and a number, in front of `RemoveTrailingDot`. -/
def numberedName (basis : SfnBasis) (shortNr : ℕ) : CString :=
  let short_nr := decimal shortNr
  let len := basis.name.length
  let tocopy := if 8 < len + short_nr.length + 1 then 8 - short_nr.length - 1 else len
  let shortname := basis.name.take tocopy ++ tilde :: short_nr
  if basis.ext ≠ [] then (shortname ++ dot :: basis.ext).take DOS_NAMELENGTH else shortname

/-- `RemoveTrailingDot`: a dot at the end is taken off, except from `.` and `..`. -/
def RemoveTrailingDot (shortname : CString) : CString :=
  if shortname.getLast? = some dot ∧ shortname.length ≠ 1 ∧
      ¬ (shortname.length = 2 ∧ shortname.head? = some dot) then shortname.dropLast
  else shortname

/-! ## Characters -/

/-- A character that short names may have. -/
structure Plain (c : UInt8) : Prop where
  not_lower : ¬ (0x61 ≤ c ∧ c ≤ 0x7a)
  not_space : c ≠ space
  not_dot : c ≠ dot
  not_control : ¬ (c < 0x20 ∨ c = 0x7f)
  not_special : is_special_character c = false

/-- A character that a short name can be made of without replacing it. -/
structure Legal (c : UInt8) : Prop where
  not_space : c ≠ space
  not_dot : c ≠ dot
  not_illegal : is_sfn_illegal c = false

variable {c : UInt8} {n : ℕ} {s : CString}

theorem is_sfn_illegal_eq_false_iff :
    is_sfn_illegal c = false ↔ ¬ (c < 0x20 ∨ c = 0x7f) ∧ is_special_character c = false := by
  simp [is_sfn_illegal]

theorem special_of_lower :
    ∀ c : UInt8, 0x61 ≤ c ∧ c ≤ 0x7a → is_special_character (c - 0x20) = false := by
  have hnone : ∀ d ∈ special_characters, ¬ (0x61 ≤ d + 0x20 ∧ d + 0x20 ≤ 0x7a) := by
    decide +kernel
  intro c hc
  refine decide_eq_false fun hmem => hnone _ hmem ?_
  rwa [UInt8.sub_add_cancel]

theorem not_lower_of_special :
    ∀ c : UInt8, is_special_character c = true → ¬ (0x61 ≤ c ∧ c ≤ 0x7a) := by
  have hnone : ∀ d ∈ special_characters, ¬ (0x61 ≤ d ∧ d ≤ 0x7a) := by decide +kernel
  exact fun c hc => hnone c (of_decide_eq_true hc)

theorem Legal.plain_toupper (h : Legal c) : Plain (toupper c) := by
  obtain ⟨hspace, hdot, hillegal⟩ := h
  obtain ⟨hcontrol, hspecial⟩ := is_sfn_illegal_eq_false_iff.1 hillegal
  rw [toupper]
  split_ifs with hlower
  · refine ⟨?_, ?_, ?_, ?_, special_of_lower c hlower⟩
    · grind
    · rw [space]
      grind
    · rw [dot]
      grind
    · grind
  · exact ⟨hlower, hspace, hdot, hcontrol, hspecial⟩

theorem plain_underscore : Plain underscore := by
  refine ⟨by decide, by decide, by decide, by decide, by decide⟩

theorem plain_sfnChar (hspace : c ≠ space) (hdot : c ≠ dot) : Plain (sfnChar c) := by
  rw [sfnChar]
  split_ifs with hillegal
  · exact plain_underscore
  · exact Legal.plain_toupper ⟨hspace, hdot, Bool.eq_false_iff.2 hillegal⟩

theorem Plain.toupper_eq (h : Plain c) : toupper c = c := if_neg h.not_lower

/-- Only what is legal becomes plain in upper case. -/
theorem legal_of_plain_toupper (h : Plain (toupper c)) : Legal c := by
  by_cases hlower : 0x61 ≤ c ∧ c ≤ 0x7a
  · refine ⟨?_, ?_, is_sfn_illegal_eq_false_iff.2 ⟨?_, ?_⟩⟩
    · rw [space]
      grind
    · rw [dot]
      grind
    · grind
    · exact Bool.eq_false_iff.2 fun hspecial => not_lower_of_special c hspecial hlower
  · rw [toupper, if_neg hlower] at h
    exact ⟨h.not_space, h.not_dot,
      is_sfn_illegal_eq_false_iff.2 ⟨h.not_control, h.not_special⟩⟩

theorem Plain.legal (h : Plain c) : Legal c :=
  ⟨h.not_space, h.not_dot, is_sfn_illegal_eq_false_iff.2 ⟨h.not_control, h.not_special⟩⟩

theorem Legal.not_padding (h : Legal c) : isPadding c = false := by
  simp [isPadding, h.not_space, h.not_dot]

theorem Legal.sfnChar_eq (h : Legal c) : sfnChar c = toupper c := by
  rw [sfnChar, h.not_illegal]
  rfl

/-! ## The loops -/

theorem copyLoop_eq (n : ℕ) (s : CString) :
    copyLoop n s = ((s.filter (· ≠ space)).take n).map sfnChar := by
  induction s generalizing n with
  | nil => cases n with
    | zero => rfl
    | succ n => rfl
  | cons c s ih =>
    cases n with
    | zero => rfl
    | succ n =>
      rw [copyLoop]
      by_cases hc : c = space
      · rw [if_pos hc, ih, hc]
        rfl
      · rw [if_neg hc, ih, List.filter_cons_of_pos (by simpa using hc), List.take_succ_cons,
          List.map_cons]

theorem length_copyLoop_le (n : ℕ) (s : CString) : (copyLoop n s).length ≤ n := by
  rw [copyLoop_eq, List.length_map]
  exact List.length_take_le _ _

theorem plain_of_mem_copyLoop (hs : dot ∉ s) (hc : c ∈ copyLoop n s) : Plain c := by
  rw [copyLoop_eq] at hc
  obtain ⟨x, hx, rfl⟩ := List.mem_map.1 hc
  obtain ⟨hmem, hspace⟩ := List.mem_filter.1 (List.mem_of_mem_take hx)
  exact plain_sfnChar (by simpa using hspace) fun heq => hs (heq ▸ hmem)

/-- Legal characters are copied in upper case. -/
theorem copyLoop_of_legal (hs : ∀ c ∈ s, Legal c) (hn : s.length ≤ n) :
    copyLoop n s = s.map toupper := by
  rw [copyLoop_eq, List.filter_eq_self.2 fun c hc => by simpa using (hs c hc).not_space,
    List.take_of_length_le hn]
  exact List.map_congr_left fun c hc => (hs c hc).sfnChar_eq

theorem not_any_of_legal (hs : ∀ c ∈ s, Legal c) :
    s.any (fun c => c = space || is_sfn_illegal c) = false := by
  rw [List.any_eq_false]
  intro c hc
  simp [(hs c hc).not_space, (hs c hc).not_illegal]

theorem not_any_illegal (hs : ∀ c ∈ s, Legal c) : s.any is_sfn_illegal = false := by
  rw [List.any_eq_false]
  intro c hc
  simp [(hs c hc).not_illegal]

theorem dot_not_mem_of_legal (hs : ∀ c ∈ s, Legal c) : dot ∉ s :=
  fun hmem => (hs dot hmem).not_dot rfl

theorem filter_of_legal (hs : ∀ c ∈ s, Legal c) : s.filter (· ≠ space) = s :=
  List.filter_eq_self.2 fun c hc => by simpa using (hs c hc).not_space

/-! ## Names that fit -/

/-- A name and an extension that fit in a short name. -/
structure Fits (name ext : CString) : Prop where
  name_ne_nil : name ≠ []
  name_length : name.length ≤ 8
  ext_length : ext.length ≤ 3
  name_legal : ∀ c ∈ name, Legal c
  ext_legal : ∀ c ∈ ext, Legal c

variable {name ext input : CString}

theorem Fits.cleanBody_eq (h : Fits name ext) : cleanBody false (name ++ dotted ext) =
    ⟨name.map toupper, ext.map toupper, false, false⟩ := by
  have hname := dot_not_mem_of_legal h.name_legal
  have hext := dot_not_mem_of_legal h.ext_legal
  have hne : copyLoop 8 name ≠ [] := by
    rw [copyLoop_of_legal h.name_legal h.name_length]
    simpa using h.name_ne_nil
  have hlong : ¬ 8 < name.length := Nat.not_lt_of_le h.name_length
  have hlong' : ¬ 3 < ext.length := Nat.not_lt_of_le h.ext_length
  by_cases hnil : ext = []
  · rw [dotted, if_pos hnil, List.append_nil, cleanBody, strchr_eq_none hname,
      strrchr_eq_none hname]
    dsimp only
    rw [if_neg hne, not_any_of_legal h.name_legal, not_any_illegal h.name_legal,
      copyLoop_of_legal h.name_legal h.name_length, filter_of_legal h.name_legal, hnil]
    simp [hlong, copyLoop]
  · rw [dotted, if_neg hnil, cleanBody, strchr_of_not_mem hname, strrchr_of_not_mem hext]
    dsimp only
    rw [if_neg hne, not_any_of_legal h.name_legal, not_any_illegal h.name_legal,
      copyLoop_of_legal h.name_legal h.name_length, filter_of_legal h.name_legal,
      not_any_of_legal h.ext_legal, not_any_illegal h.ext_legal,
      copyLoop_of_legal h.ext_legal h.ext_length, filter_of_legal h.ext_legal]
    simp [hlong, hlong']

/-- **A name that fits is taken in upper case.** -/
theorem clean_of_legal (h : Fits name ext) : sfn_clean_basis (name ++ dotted ext) =
    ⟨name.map toupper, ext.map toupper, false, false⟩ := by
  obtain ⟨c, rest, hrest⟩ := List.exists_cons_of_ne_nil h.name_ne_nil
  have hc : Legal c := h.name_legal c (hrest ▸ List.mem_cons_self)
  have hcons : name ++ dotted ext = c :: (rest ++ dotted ext) := by rw [hrest, List.cons_append]
  have hne : name ++ dotted ext ≠ [] := by simp [hcons]
  have hdots : ¬ (name ++ dotted ext = [dot] ∨ name ++ dotted ext = [dot, dot]) := by
    rw [hcons]
    rintro (heq | heq)
    · exact hc.not_dot (List.cons.inj heq).1
    · exact hc.not_dot (List.cons.inj heq).1
  have hfront : (name ++ dotted ext).dropWhile isPadding = name ++ dotted ext := by
    rw [hcons, List.dropWhile_cons_of_neg (by simp [hc.not_padding])]
  have hback : (name ++ dotted ext).rdropWhile isPadding = name ++ dotted ext := by
    rw [List.rdropWhile_eq_self_iff]
    intro hl
    by_cases hnil : ext = []
    · have hlast : Legal ((name ++ dotted ext).getLast hl) := by
        refine h.name_legal _ ?_
        simp [dotted, hnil]
      simp [hlast.not_padding]
    · have hlast : Legal ((name ++ dotted ext).getLast hl) := by
        refine h.ext_legal _ ?_
        simp [dotted, hnil]
      simp [hlast.not_padding]
  rw [sfn_clean_basis, if_neg hne, if_neg hdots]
  dsimp only
  rw [hfront, hback, if_neg hne]
  simpa using h.cleanBody_eq

/-! ## What is not called too long -/

theorem legal_of_not_any (hdot : dot ∉ s)
    (h : s.any (fun c => c = space || is_sfn_illegal c) = false) : ∀ c ∈ s, Legal c := by
  intro c hc
  rw [List.any_eq_false] at h
  have hnot := h c hc
  simp only [Bool.or_eq_true, decide_eq_true_eq, not_or, Bool.not_eq_true] at hnot
  exact ⟨hnot.1, fun heq => hdot (heq ▸ hc), hnot.2⟩

/-- What is left between the ends that `cleanBody` calls a name that fits. -/
theorem fits_of_cleanBody {body : CString} (hne : body ≠ [])
    (hlast : body.getLast? ≠ some dot)
    (h : (cleanBody false body).not_8x3 = false) :
    ∃ name ext, body = name ++ dotted ext ∧ Fits name ext := by
  rw [cleanBody] at h
  cases hfirst : strchr dot body with
  | none =>
    have hdot := strchr_none hfirst
    rw [hfirst, strrchr_eq_none hdot] at h
    dsimp only at h
    split_ifs at h with hempty
    simp only [Bool.or_eq_false_iff, decide_eq_false_iff_not] at h
    obtain ⟨⟨⟨⟨-, hany⟩, -⟩, hlong⟩, -⟩ := h
    have hlegal := legal_of_not_any hdot hany
    rw [filter_of_legal hlegal] at hlong
    refine ⟨body, [], by simp [dotted], hne, by omega, by simp, hlegal, by simp⟩
  | some found =>
    obtain ⟨pre, post⟩ := found
    obtain ⟨rfl, hpre⟩ := strchr_some hfirst
    cases hlast' : strrchr dot (pre ++ dot :: post) with
    | none => exact absurd (List.mem_append_right _ List.mem_cons_self) (strrchr_none hlast')
    | some found =>
      obtain ⟨pre', post'⟩ := found
      obtain ⟨hsplit, hpost'⟩ := strrchr_some hlast'
      rw [hfirst, hlast'] at h
      dsimp only at h
      split_ifs at h with hempty
      simp only [Bool.or_eq_false_iff, decide_eq_false_iff_not, not_not, Option.map_some,
        Option.some.injEq] at h
      obtain ⟨⟨⟨⟨⟨-, hlen⟩, hany⟩, hany'⟩, hlong⟩, hlong'⟩ := h
      -- the first dot is the last one
      obtain ⟨rfl, hrest⟩ := List.append_inj hsplit hlen
      cases hrest
      have hlegal := legal_of_not_any hpre hany
      have hlegal' := legal_of_not_any hpost' hany'
      rw [filter_of_legal hlegal] at hlong
      rw [filter_of_legal hlegal'] at hlong'
      have hext : post ≠ [] := by
        rintro rfl
        exact hlast (by simp)
      have hname : pre ≠ [] := by
        rintro rfl
        exact hempty rfl
      exact ⟨pre, post, by rw [dotted, if_neg hext], hname, by omega, by omega, hlegal, hlegal'⟩

/-- **A host name that is called one that fits is a name with an extension that fit.** -/
theorem fits_of_not_8x3 (hdots : ¬ (input = [dot] ∨ input = [dot, dot]))
    (h : (sfn_clean_basis input).not_8x3 = false) :
    ∃ name ext, input = name ++ dotted ext ∧ Fits name ext := by
  rw [sfn_clean_basis, if_neg hdots] at h
  dsimp only at h
  split_ifs at h with hnil hbody
  have htrim : ((input.dropWhile isPadding).length ≠ input.length ||
      ((input.dropWhile isPadding).rdropWhile isPadding).length ≠
        (input.dropWhile isPadding).length) = false := by
    rw [cleanBody] at h
    split_ifs at h
    simp only [Bool.or_eq_false_iff] at h ⊢
    exact h.1.1.1.1.1
  rw [htrim] at h
  simp only [Bool.or_eq_false_iff, decide_eq_false_iff_not, not_not] at htrim
  have hfront : input.dropWhile isPadding = input :=
    (List.dropWhile_suffix _).sublist.eq_of_length htrim.1
  rw [hfront] at htrim h hbody
  have hback : input.rdropWhile isPadding = input :=
    (List.rdropWhile_prefix _ input).sublist.eq_of_length htrim.2
  rw [hback] at h hbody
  refine fits_of_cleanBody hbody (fun hlast => ?_) h
  have hnot := List.rdropWhile_eq_self_iff.1 hback hbody
  rw [List.getLast?_eq_some_getLast hbody] at hlast
  rw [Option.some.inj hlast] at hnot
  exact hnot (by decide)

/-! ## The form of the names -/

/-- The result in the parts that the reader of a directory sees. -/
structure Form (basis : SfnBasis) : Prop where
  name_ne_nil : basis.name ≠ []
  name_length : basis.name.length ≤ 8
  ext_length : basis.ext.length ≤ 3
  name_plain : ∀ c ∈ basis.name, Plain c
  ext_plain : ∀ c ∈ basis.ext, Plain c

theorem form_underscore (lossy not_8x3 : Bool) : Form ⟨[underscore], [], lossy, not_8x3⟩ := by
  refine ⟨by simp, by simp, by simp, fun c hc => ?_, fun c hc => absurd hc List.not_mem_nil⟩
  rw [List.mem_singleton.1 hc]
  exact plain_underscore

theorem cleanBody_form (not_8x3 : Bool) (body : CString) : Form (cleanBody not_8x3 body) := by
  have hprim : dot ∉ (match strchr dot body with
      | none => body
      | some (pre, _) => pre) := by
    cases hs : strchr dot body with
    | none => exact strchr_none hs
    | some found => exact (strchr_some hs).2
  have hext : dot ∉ (match strrchr dot body with
      | none => ([] : CString)
      | some (_, post) => post) := by
    cases hs : strrchr dot body with
    | none => exact List.not_mem_nil
    | some found => exact (strrchr_some hs).2
  rw [cleanBody]
  generalize (match strchr dot body with
      | none => body
      | some (pre, _) => pre) = prim at hprim ⊢
  generalize (match strrchr dot body with
      | none => ([] : CString)
      | some (_, post) => post) = ext at hext ⊢
  split
  · refine ⟨by simp, by simp, length_copyLoop_le _ _, fun c hc => ?_,
      fun c hc => plain_of_mem_copyLoop hext hc⟩
    rw [List.mem_singleton.1 hc]
    exact plain_underscore
  · rename_i hne
    exact ⟨hne, length_copyLoop_le _ _, length_copyLoop_le _ _,
      fun c hc => plain_of_mem_copyLoop hprim hc, fun c hc => plain_of_mem_copyLoop hext hc⟩

/-- **Short names are made of plain characters**, up to eight and three of them. -/
theorem sfn_clean_basis_form (hdots : ¬ (input = [dot] ∨ input = [dot, dot])) :
    Form (sfn_clean_basis input) := by
  rw [sfn_clean_basis, if_neg hdots]
  dsimp only
  split
  · exact form_underscore true true
  · split
    · exact form_underscore true true
    · exact cleanBody_form _ _

theorem Form.fits {basis : SfnBasis} (h : Form basis) : Fits basis.name basis.ext :=
  ⟨h.name_ne_nil, h.name_length, h.ext_length, fun c hc => (h.name_plain c hc).legal,
    fun c hc => (h.ext_plain c hc).legal⟩

theorem map_toupper_of_plain (h : ∀ c ∈ s, Plain c) : s.map toupper = s :=
  (List.map_congr_left fun c hc => (h c hc).toupper_eq).trans (List.map_id s)

/-! ## Numbers -/

theorem length_decimal (hn : n ≠ 0) : (decimal n).length = Nat.log 10 n + 1 := by
  rw [decimal, if_neg hn, List.length_map, List.length_reverse,
    Nat.length_digits 10 n (by decide) hn]

theorem not_dot_of_mem_decimal (hc : c ∈ decimal n) : c ≠ dot := by
  rw [decimal] at hc
  split_ifs at hc with hn
  · rw [List.mem_singleton.1 hc]
    decide
  · obtain ⟨d, hd, rfl⟩ := List.mem_map.1 hc
    have hlt : d < 10 := Nat.digits_lt_base (by decide) (List.mem_reverse.1 hd)
    have hall : ∀ d < 10, 0x30 + UInt8.ofNat d ≠ dot := by decide
    exact hall d hlt

theorem log_lt_six (hn : n ≠ 0) (hlt : n < 1000000) : Nat.log 10 n < 6 :=
  Nat.log_lt_of_lt_pow hn (by simpa using hlt)

/-- Both generators cut the name to the same length. -/
theorem take_tocopy {basis : SfnBasis} (hn : n ≠ 0) (hlt : n < 1000000) :
    basis.name.take (if 8 < basis.name.length + (decimal n).length + 1
      then 8 - (decimal n).length - 1 else basis.name.length) =
      basis.name.take (6 - Nat.log 10 n) := by
  have hlog := log_lt_six hn hlt
  rw [length_decimal hn]
  split_ifs with hlong
  · congr 1
    omega
  · rw [List.take_length, List.take_of_length_le (by omega)]

theorem removeTrailingDot_of_ne (h : s.getLast? ≠ some dot) :
    RemoveTrailingDot s = s :=
  if_neg fun hc => h hc.1

theorem getLast?_numbered {front digits : CString} (hdigits : ∀ c ∈ digits, c ≠ dot)
    (hext : ∀ c ∈ ext, c ≠ dot) : (front ++ tilde :: digits ++ dotted ext).getLast? ≠ some dot := by
  intro hlast
  by_cases hnil : ext = []
  · rw [dotted, if_pos hnil, List.append_nil, List.getLast?_append_of_ne_nil _ (by simp),
      List.getLast?_cons] at hlast
    cases hd : digits.getLast? with
    | none =>
      rw [hd] at hlast
      exact absurd hlast (by decide)
    | some c =>
      rw [hd] at hlast
      exact hdigits c (List.mem_of_getLast? hd) (Option.some.inj hlast)
  · rw [dotted, if_neg hnil, List.getLast?_append_of_ne_nil _ (by simp),
      List.getLast?_cons] at hlast
    cases he : ext.getLast? with
    | none => exact hnil (List.getLast?_eq_none_iff.1 he)
    | some c =>
      rw [he] at hlast
      exact hext c (List.mem_of_getLast? he) (Option.some.inj hlast)

/-- **The two generators build the same name.** -/
theorem generate_eq_numberedName (hdots : ¬ (input = [dot] ∨ input = [dot, dot])) (hn : 0 < n)
    (hlt : n < 1000000) :
    generate_8x3 input n = RemoveTrailingDot (numberedName (sfn_clean_basis input) n) := by
  have hform := sfn_clean_basis_form hdots
  have hne : n ≠ 0 := Nat.ne_of_gt hn
  have hlog := log_lt_six hne hlt
  have hgenerate : generate_8x3 input n = (sfn_clean_basis input).name.take (6 - Nat.log 10 n) ++
      tilde :: decimal n ++ dotted (sfn_clean_basis input).ext :=
    if_neg (by omega)
  have hnumbered : numberedName (sfn_clean_basis input) n = generate_8x3 input n := by
    rw [numberedName, take_tocopy hne hlt, hgenerate]
    by_cases hnil : (sfn_clean_basis input).ext = []
    · rw [if_neg (not_not.2 hnil), dotted, if_pos hnil, List.append_nil]
    · rw [if_pos hnil, dotted, if_neg hnil, List.take_of_length_le]
      have hname := List.length_take_le (6 - Nat.log 10 n) (sfn_clean_basis input).name
      have hext := hform.ext_length
      have hdigits := length_decimal hne
      rw [DOS_NAMELENGTH]
      simp only [List.length_append, List.length_cons]
      omega
  rw [hnumbered, removeTrailingDot_of_ne]
  rw [hgenerate]
  exact getLast?_numbered (fun c hc => not_dot_of_mem_decimal hc)
    fun c hc => (hform.ext_plain c hc).not_dot

/-- The part in front of the dot has up to eight characters. -/
theorem length_generate_le (hdots : ¬ (input = [dot] ∨ input = [dot, dot])) (hn : 0 < n)
    (hlt : n < 1000000) :
    ((generate_8x3 input n).takeWhile (· ≠ dot)).length ≤ 8 := by
  have hform := sfn_clean_basis_form hdots
  have hne : n ≠ 0 := Nat.ne_of_gt hn
  have hlog := log_lt_six hne hlt
  have hgenerate : generate_8x3 input n = (sfn_clean_basis input).name.take (6 - Nat.log 10 n) ++
      tilde :: decimal n ++ dotted (sfn_clean_basis input).ext :=
    if_neg (by omega)
  have hfront : ∀ c ∈ (sfn_clean_basis input).name.take (6 - Nat.log 10 n) ++ tilde :: decimal n,
      decide (c ≠ dot) = true := by
    intro c hc
    rw [decide_eq_true_eq]
    rcases List.mem_append.1 hc with hname | hrest
    · exact (hform.name_plain c (List.mem_of_mem_take hname)).not_dot
    · rcases List.mem_cons.1 hrest with rfl | hdigit
      · decide
      · exact not_dot_of_mem_decimal hdigit
  have hback : (dotted (sfn_clean_basis input).ext).takeWhile (· ≠ dot) = [] := by
    rw [dotted]
    split_ifs
    · rfl
    · exact List.takeWhile_cons_of_neg (by simp)
  rw [hgenerate, List.takeWhile_append_of_pos hfront, hback, List.append_nil, List.length_append,
    List.length_cons, length_decimal hne]
  have hname := List.length_take_le (6 - Nat.log 10 n) (sfn_clean_basis input).name
  omega

/-! ## The main result -/

/-- The name with its extension. -/
def SfnBasis.shortname (basis : SfnBasis) : CString := basis.name ++ dotted basis.ext

/-- Equal up to the case of ASCII letters. -/
def SameLetters (s t : CString) : Prop := s.map toupper = t.map toupper

theorem toupper_eq_dot (h : toupper c = dot) : c = dot := by
  rw [toupper, dot] at *
  split_ifs at h with hlower
  · grind
  · exact h

theorem map_dotted (ext : CString) : (dotted ext).map toupper = dotted (ext.map toupper) := by
  cases ext with
  | nil => rfl
  | cons c ext => rfl

/-- A host name with the letters of a name that fits is one that fits. -/
theorem fits_of_sameLetters (hfits : Fits name ext) (hplain : ∀ c ∈ name ++ ext, Plain c)
    (h : s.map toupper = name ++ dotted ext) :
    ∃ name' ext', s = name' ++ dotted ext' ∧ Fits name' ext' := by
  obtain ⟨name', rest, rfl, hname, hrest⟩ := List.map_eq_append_iff.1 h
  have hlen : name'.length = name.length := by rw [← hname, List.length_map]
  have hlegal : ∀ c ∈ name', Legal c := fun c hc => legal_of_plain_toupper
    (hplain _ (List.mem_append_left _ (hname ▸ List.mem_map_of_mem hc)))
  have hne : name' ≠ [] := by
    rintro rfl
    exact hfits.name_ne_nil hname.symm
  by_cases hnil : ext = []
  · rw [dotted, if_pos hnil, List.map_eq_nil_iff] at hrest
    exact ⟨name', [], by rw [hrest]; rfl, hne, by rw [hlen]; exact hfits.name_length,
      Nat.zero_le _, hlegal, fun c hc => absurd hc List.not_mem_nil⟩
  · rw [dotted, if_neg hnil] at hrest
    obtain ⟨d, ext', rfl, hd, hext⟩ := List.map_eq_cons_iff.1 hrest
    have hlen' : ext'.length = ext.length := by rw [← hext, List.length_map]
    have hne' : ext' ≠ [] := by
      rintro rfl
      exact hnil hext.symm
    refine ⟨name', ext', by rw [dotted, if_neg hne', toupper_eq_dot hd], hne,
      by rw [hlen]; exact hfits.name_length, by rw [hlen']; exact hfits.ext_length, hlegal, ?_⟩
    exact fun c hc => legal_of_plain_toupper
      (hplain _ (List.mem_append_right _ (hext ▸ List.mem_map_of_mem hc)))

theorem not_8x3_iff (hdots : ¬ (input = [dot] ∨ input = [dot, dot])) :
    (sfn_clean_basis input).not_8x3 = false ↔
      SameLetters input (sfn_clean_basis input).shortname := by
  have hform := sfn_clean_basis_form hdots
  constructor
  · intro h
    obtain ⟨name, ext, rfl, hfits⟩ := fits_of_not_8x3 hdots h
    rw [clean_of_legal hfits] at hform ⊢
    rw [SameLetters, SfnBasis.shortname, List.map_append, List.map_append, map_dotted, map_dotted,
      map_toupper_of_plain hform.name_plain, map_toupper_of_plain hform.ext_plain]
  · intro h
    rw [SameLetters, SfnBasis.shortname, List.map_append, map_dotted,
      map_toupper_of_plain hform.name_plain, map_toupper_of_plain hform.ext_plain] at h
    have hplain : ∀ c ∈ (sfn_clean_basis input).name ++ (sfn_clean_basis input).ext, Plain c := by
      intro c hc
      rcases List.mem_append.1 hc with hname | hext
      · exact hform.name_plain c hname
      · exact hform.ext_plain c hext
    obtain ⟨name, ext, heq, hfits⟩ := fits_of_sameLetters hform.fits hplain h
    rw [heq, clean_of_legal hfits]

/-- A short name is its own basis. -/
theorem clean_shortname (hdots : ¬ (input = [dot] ∨ input = [dot, dot])) :
    sfn_clean_basis (sfn_clean_basis input).shortname =
      ⟨(sfn_clean_basis input).name, (sfn_clean_basis input).ext, false, false⟩ := by
  have hform := sfn_clean_basis_form hdots
  rw [SfnBasis.shortname, clean_of_legal hform.fits, map_toupper_of_plain hform.name_plain,
    map_toupper_of_plain hform.ext_plain]

/-- **`sfn_clean_basis` is exact and canonical**: the names have the form of short names, the host
name is reported to fit exactly when it has the letters of the result, the result is its own basis,
and the names with a number are the ones of `CreateShortName`. -/
theorem sfn_clean_basis_exact (hdots : ¬ (input = [dot] ∨ input = [dot, dot])) :
    Form (sfn_clean_basis input) ∧
    ((sfn_clean_basis input).not_8x3 = false ↔
      SameLetters input (sfn_clean_basis input).shortname) ∧
    (∃ lossy, sfn_clean_basis (sfn_clean_basis input).shortname =
      ⟨(sfn_clean_basis input).name, (sfn_clean_basis input).ext, lossy, false⟩) ∧
    ∀ n, 0 < n → n < 1000000 →
      generate_8x3 input n = RemoveTrailingDot (numberedName (sfn_clean_basis input) n) ∧
        ((generate_8x3 input n).takeWhile (· ≠ dot)).length ≤ 8 :=
  ⟨sfn_clean_basis_form hdots, not_8x3_iff hdots, ⟨false, clean_shortname hdots⟩,
    fun _ hn hlt => ⟨generate_eq_numberedName hdots hn hlt, length_generate_le hdots hn hlt⟩⟩

/-- `sfn_clean_basis` on "te[ l.text". -/
theorem sfn_clean_basis_exact_test :
    sfn_clean_basis [0x74, 0x65, 0x5b, 0x20, 0x6c, 0x2e, 0x74, 0x65, 0x78, 0x74] =
        ⟨[0x54, 0x45, 0x5f, 0x4c], [0x54, 0x45, 0x58], true, true⟩ ∧
      Form (sfn_clean_basis [0x74, 0x65, 0x5b, 0x20, 0x6c, 0x2e, 0x74, 0x65, 0x78, 0x74]) :=
  ⟨by decide, (sfn_clean_basis_exact (by decide)).1⟩

end AugraDosbox.ShortName
