import AugraDosbox.Dos.MakeName

/-!
# The paths that complete names are

What `DOS_MakeName` returns names nothing outside of the base directory of the drive, and most of
it comes back when it is given to the function again.

* `ValidComponent`, `Canonical` — eight and three bytes, no dots only, single separators;
* `Made` — the paths that calls return, the current directories being such paths too;
* `Plain`, `PlainPath` — the same components with the bytes that the function lets through;
* **`makeName_canonical`** — every call returns a canonical path, and a later call returns it again.
-/

namespace AugraDosbox.MakeName

open Fat

/-! ## Canonical paths -/

/-- A base of eight bytes at most, and an extension of three at most behind the only dot. -/
def Is83 (c : CString) : Prop :=
  (dot ∉ c ∧ c.length ≤ 8) ∨
    ∃ base extension, c = base ++ dot :: extension ∧ dot ∉ base ∧ dot ∉ extension ∧
      base.length ≤ 8 ∧ extension.length ≤ 3

/-- A component that host paths can be made of. -/
structure ValidComponent (c : CString) : Prop where
  no_slash : slash ∉ c
  no_backslash : backslash ∉ c
  no_colon : colon ∉ c
  no_space : space ∉ c
  is83 : Is83 c
  not_dots : ¬ c.all (· = dot)

/-- The root, or valid components with single separators between them. -/
def Canonical (path : CString) : Prop :=
  path = [] ∨ ∀ c ∈ path.splitOn backslash, ValidComponent c

/-- The paths that calls return when every current directory is such a path. -/
inductive Made : CString → Prop
  | root : Made []
  | call {d : Drives} {name path : CString} {drive : Option ℕ}
      (hcurdir : ∀ i curdir, d.curdir i = some curdir → Made curdir)
      (h : DOS_MakeName d name = .ok ⟨drive, .ok path⟩) : Made path

/-- A component as the function appends it. -/
structure Plain (c : CString) : Prop where
  legal : c.all isLegal
  is83 : Is83 c
  not_dots : ¬ c.all (· = dot)

def PlainPath (path : CString) : Prop := path = [] ∨ ∀ c ∈ path.splitOn backslash, Plain c

/-! ## The bytes that are let through -/

theorem ne_of_legal {c : UInt8} (h : isLegal c) :
    c ≠ slash ∧ c ≠ backslash ∧ c ≠ colon ∧ c ≠ space := by
  refine ⟨?_, ?_, ?_, ?_⟩ <;> rintro rfl <;> revert h <;> decide

theorem toupper_of_legal {c : UInt8} (h : isLegal c) : toupper c = c := by
  rw [toupper, if_neg]
  rintro ⟨hlo, hhi⟩
  have hlo : 0x61 ≤ c.toNat := hlo
  have hhi : c.toNat ≤ 0x7a := hhi
  have hnone : ∀ n < 0x1a, ¬ isLegal (UInt8.ofNat (0x61 + n)) := by decide
  have hc := hnone (c.toNat - 0x61) (by omega)
  rw [Nat.add_sub_of_le hlo, UInt8.ofNat_toNat] at hc
  exact hc h

variable {c path fullname name : CString} {stop : Bool} {cs : List CString} {d : Drives}

theorem Plain.not_mem (h : Plain c) {x : UInt8} (hx : ¬ isLegal x) : x ∉ c :=
  fun hmem => hx (List.all_eq_true.1 h.legal x hmem)

theorem Plain.backslash_not_mem (h : Plain c) : backslash ∉ c :=
  h.not_mem (by decide)

theorem Plain.ne_nil (h : Plain c) : c ≠ [] := by
  rintro rfl
  exact h.not_dots rfl

theorem Plain.valid (h : Plain c) : ValidComponent c where
  no_slash := h.not_mem (by decide)
  no_backslash := h.not_mem (by decide)
  no_colon := h.not_mem (by decide)
  no_space := h.not_mem (by decide)
  is83 := h.is83
  not_dots := h.not_dots

theorem PlainPath.canonical (h : PlainPath path) : Canonical path :=
  h.imp id fun hplain c hc => (hplain c hc).valid

/-! ## One component -/

/-- What is left of a component that is not made of dots has the form of a name. -/
theorem shorten_is83 {cut : CString} (hord : ¬ c.all (· = dot)) (h : shorten stop c = .ok cut) :
    Is83 cut ∧ ¬ cut.all (· = dot) := by
  rw [shorten] at h
  cases hc : strchr dot c with
  | none =>
    simp only [hc] at h
    cases h
    have hdot := strchr_none hc
    refine ⟨Or.inl ⟨fun hmem => hdot (List.mem_of_mem_take hmem), List.length_take_le _ _⟩, ?_⟩
    intro hall
    cases c with
    | nil => exact hord rfl
    | cons x c =>
      rw [List.take_succ_cons, List.all_cons, Bool.and_eq_true] at hall
      exact hdot (by simpa using Or.inl (of_decide_eq_true hall.1).symm)
  | some found =>
    obtain ⟨base, extension⟩ := found
    obtain ⟨rfl, hbase⟩ := strchr_some hc
    simp only [hc] at h
    split_ifs at h with hext
    cases h
    have htake : (dot :: extension).take 4 = dot :: extension.take 3 := List.take_succ_cons
    rw [htake]
    refine ⟨Or.inr ⟨base.take 8, extension.take 3, rfl,
      fun hmem => hbase (List.mem_of_mem_take hmem), fun hmem => hext (List.mem_of_mem_take hmem),
      List.length_take_le _ _, List.length_take_le _ _⟩, fun hall => hord ?_⟩
    rw [List.all_append, List.all_cons, Bool.and_eq_true, Bool.and_eq_true] at hall
    have hbnil : base = [] := by
      cases base with
      | nil => rfl
      | cons x base =>
        rw [List.take_succ_cons, List.all_cons, Bool.and_eq_true] at hall
        exact absurd (by simpa using Or.inl (of_decide_eq_true hall.1.1).symm) hbase
    have henil : extension = [] := by
      cases extension with
      | nil => rfl
      | cons x extension =>
        rw [List.take_succ_cons, List.all_cons, Bool.and_eq_true] at hall
        exact absurd (by simpa using Or.inl (of_decide_eq_true hall.2.2.1).symm) hext
    rw [hbnil, henil]
    simp

theorem shorten_of_is83 (h : Is83 c) : shorten stop c = .ok c := by
  rw [shorten]
  rcases h with ⟨hdot, hlen⟩ | ⟨base, extension, rfl, hbase, hext, hblen, helen⟩
  · have hnone : strchr dot c = none := by
      cases hc : strchr dot c with
      | none => rfl
      | some found =>
        obtain ⟨hc, -⟩ := strchr_some hc
        exact absurd (by rw [hc]; simp) hdot
    simp only [hnone]
    rw [List.take_of_length_le hlen]
  · simp only [strchr_of_not_mem hbase, hext, if_false]
    rw [List.take_of_length_le hblen, List.take_of_length_le (by rw [List.length_cons]; omega)]

/-! ## The components of a path -/

theorem splitOn_join (hne : fullname ≠ []) (hc : backslash ∉ c) :
    (join fullname c).splitOn backslash = fullname.splitOn backslash ++ [c] := by
  rw [join, if_neg hne, List.splitOn_append_cons_self, List.splitOn_eq_singleton hc]

theorem PlainPath.join (hf : PlainPath fullname) (hc : Plain c) :
    PlainPath (join fullname c) := by
  right
  by_cases hne : fullname = []
  · rw [MakeName.join, if_pos hne, List.splitOn_eq_singleton hc.backslash_not_mem]
    simpa using hc
  · rw [splitOn_join hne hc.backslash_not_mem]
    intro x hx
    rcases List.mem_append.1 hx with hx | hx
    · exact hf.resolve_left hne x hx
    · rw [List.mem_singleton.1 hx]
      exact hc

/-- What is in front of a separator of a path is a path. -/
theorem PlainPath.take {i : ℕ} (hf : PlainPath fullname)
    (hi : i = 0 ∨ fullname[i]? = some backslash) : PlainPath (fullname.take i) := by
  rcases hi with rfl | hi
  · exact Or.inl rfl
  · obtain ⟨hlt, hget⟩ := List.getElem?_eq_some_iff.1 hi
    have hsplit : fullname = fullname.take i ++ backslash :: fullname.drop (i + 1) := by
      rw [← hget, List.getElem_cons_drop, List.take_append_drop]
    have hne : fullname ≠ [] := List.ne_nil_of_length_pos (by omega)
    right
    intro x hx
    refine hf.resolve_left hne x ?_
    rw [hsplit, List.splitOn_append_cons_self]
    exact List.mem_append_left _ hx

/-- Climbing ends at a separator or at the beginning. -/
theorem climbLoop_separator {n cDots lastdir : ℕ}
    (h : lastdir = 0 ∨ fullname[lastdir]? = some backslash) :
    climbLoop fullname n cDots lastdir = 0 ∨
      fullname[climbLoop fullname n cDots lastdir]? = some backslash := by
  induction n generalizing cDots lastdir with
  | zero => exact h
  | succ iDown ih =>
    rw [climbLoop]
    split_ifs with hsep
    · exact hsep.symm
    · exact ih hsep.symm
    · exact ih h

/-- **A component leads from a path of plain components to another one.** -/
theorem enter_plain (hf : PlainPath fullname) (h : enter stop fullname c = .ok path) :
    PlainPath path := by
  by_cases hdots : c.all (· = dot)
  · rw [enter, if_pos hdots] at h
    split_ifs at h with hone
    · cases h
      exact hf
    · cases h
      exact hf.take (climbLoop_separator (Or.inl rfl))
  · rw [enter_of_ordinary hdots] at h
    cases hs : shorten stop c with
    | error e => simp [hs, Except.bind] at h
    | ok cut =>
      simp only [hs, Except.bind] at h
      split_ifs at h with hbad
      cases h
      obtain ⟨his83, hnot⟩ := shorten_is83 hdots hs
      exact hf.join ⟨by simpa using fun hlegal => hbad (Or.inl hlegal), his83, hnot⟩

theorem walk_plain (hf : PlainPath fullname) (hlen : fullname.length < DOS_PATHLENGTH)
    (h : walk fullname cs = .ok path) :
    PlainPath path ∧ path.length < DOS_PATHLENGTH := by
  induction cs generalizing fullname with
  | nil =>
    cases h
    exact ⟨hf, hlen⟩
  | cons c cs ih =>
    rw [walk] at h
    cases he : enter cs.isEmpty fullname c with
    | error e =>
      rw [he] at h
      cases h
    | ok next =>
      rw [he] at h
      exact ih (enter_plain hf he) (enter_length hlen he) h

/-! ## The paths of calls -/

/-- A call that returns a path has walked to it. -/
theorem walk_of_ok {drive : Option ℕ}
    (hcurdir : ∀ i curdir, d.curdir i = some curdir → curdir.length < DOS_PATHLENGTH)
    (h : DOS_MakeName d name = .ok ⟨drive, .ok path⟩) :
    ∃ start cs, parsed d name = some (start, cs) ∧ walk start cs = .ok path := by
  have hcall := DOS_MakeName_eq name hcurdir
  cases hp : parsed d name with
  | none =>
    rw [hp] at hcall
    obtain ⟨a, ha, e, he⟩ := hcall
    rw [h] at ha
    cases ha
    cases he
  | some parts =>
    obtain ⟨start, cs⟩ := parts
    rw [hp] at hcall
    obtain ⟨hin, hout⟩ := hcall
    by_cases hwithin : Within start cs
    · obtain ⟨drive', hok⟩ := hin hwithin
      rw [h] at hok
      simp only [Except.ok.injEq, Answer.mk.injEq] at hok
      exact ⟨start, cs, rfl, hok.2.symm⟩
    · rw [hout hwithin] at h
      cases h

/-- The walk starts in the root or in a current directory. -/
theorem parsed_start {start : CString} (h : parsed d name = some (start, cs)) :
    start = [] ∨ ∃ i, d.curdir i = some start := by
  rw [parsed] at h
  split at h
  · cases h
  · generalize driveAndName d name = parts at h
    obtain ⟨drive, name_int⟩ := parts
    dsimp only at h
    cases hdrive : (if drive < DOS_DRIVES then d.curdir drive else none) with
    | none =>
      rw [hdrive] at h
      cases h
    | some curdir =>
      have hcur : d.curdir drive = some curdir := by
        split_ifs at hdrive
        exact hdrive
      rw [hdrive] at h
      dsimp only at h
      split at h
      · cases h
      · simp only [Option.some.injEq, Prod.mk.injEq] at h
        rw [← h.1]
        split_ifs
        · exact Or.inr ⟨drive, hcur⟩
        · exact Or.inl rfl

/-- **Every path that is made consists of plain components and fits into its buffer.** -/
theorem Made.plain (h : Made path) :
    PlainPath path ∧ path.length < DOS_PATHLENGTH := by
  induction h with
  | root => exact ⟨Or.inl rfl, by decide⟩
  | call hcurdir hcall ih =>
    obtain ⟨start, cs, hp, hwalk⟩ := walk_of_ok (fun i curdir hi => (ih i curdir hi).2) hcall
    rcases parsed_start hp with rfl | ⟨i, hi⟩
    · exact walk_plain (Or.inl rfl) (by decide) hwalk
    · exact walk_plain (ih i start hi).1 (ih i start hi).2 hwalk

/-! ## The same path again -/

theorem Is83.length_le (h : Is83 c) : c.length ≤ 12 := by
  rcases h with ⟨-, hlen⟩ | ⟨base, extension, rfl, -, -, hbase, hext⟩
  · omega
  · rw [List.length_append, List.length_cons]
    omega

theorem length_join (fullname c : CString) :
    (join fullname c).length =
      if fullname = [] then c.length else fullname.length + 1 + c.length := by
  rw [join]
  split_ifs
  · rfl
  · rw [List.length_append, List.length_cons]
    omega

/-- A plain component is appended as it is. -/
theorem enter_of_plain (hc : Plain c) (hlen : (join fullname c).length < DOS_PATHLENGTH) :
    enter stop fullname c = .ok (join fullname c) := by
  have hgood : ¬ (¬ c.all isLegal ∨ DOS_PATHLENGTH ≤ (join fullname c).length) := by
    rintro (hlegal | hlong)
    · exact hlegal hc.legal
    · omega
  rw [enter_of_ordinary hc.not_dots, shorten_of_is83 hc.is83]
  simp only [Except.bind]
  rw [if_neg hgood]

theorem fits_of_plain (hc : Plain c) (hlen : (join fullname c).length < DOS_PATHLENGTH) :
    Fits fullname c := by
  refine Or.inr ⟨?_, fun base extension hdot => Or.inr ?_⟩
  · have hpos : 0 < c.length := List.length_pos_of_ne_nil hc.ne_nil
    rw [length_join] at hlen
    split_ifs at hlen with hnil
    · rw [hnil]
      decide
    · omega
  · have h12 := hc.is83.length_le
    rw [(strchr_some hdot).1, List.length_append, List.length_cons] at h12
    have h80 : DOS_PATHLENGTH = 80 := rfl
    omega

theorem length_le_foldl_join (fullname : CString) (cs : List CString) :
    fullname.length ≤ (cs.foldl join fullname).length := by
  induction cs generalizing fullname with
  | nil => exact le_rfl
  | cons c cs ih =>
    have hjoin : fullname.length ≤ (join fullname c).length := by
      rw [length_join]
      split_ifs with hnil
      · rw [hnil]
        exact Nat.zero_le _
      · omega
    exact hjoin.trans (ih _)

/-- Plain components are appended one after the other. -/
theorem walk_of_plain (hcs : ∀ c ∈ cs, Plain c)
    (hlen : (cs.foldl join fullname).length < DOS_PATHLENGTH) :
    Within fullname cs ∧ walk fullname cs = .ok (cs.foldl join fullname) := by
  induction cs generalizing fullname with
  | nil => exact ⟨trivial, rfl⟩
  | cons c cs ih =>
    have hc : Plain c := hcs c List.mem_cons_self
    have hjoin : (join fullname c).length < DOS_PATHLENGTH :=
      (length_le_foldl_join _ cs).trans_lt hlen
    obtain ⟨hwithin, hwalk⟩ : Within (join fullname c) cs ∧
        walk (join fullname c) cs = .ok (cs.foldl join (join fullname c)) :=
      ih (fun x hx => hcs x (List.mem_cons_of_mem c hx)) hlen
    have henter : enter cs.isEmpty fullname c = .ok (join fullname c) := enter_of_plain hc hjoin
    refine ⟨⟨fits_of_plain hc hjoin, fun path hpath => ?_⟩, ?_⟩
    · rw [henter] at hpath
      cases hpath
      exact hwithin
    · rw [walk, henter]
      exact hwalk

theorem foldl_join (hc : c ≠ []) (cs : List CString) :
    cs.foldl join c = [backslash].intercalate (c :: cs) := by
  induction cs generalizing c with
  | nil => simp
  | cons c' cs ih =>
    have hjoin : join c c' = c ++ backslash :: c' := if_neg hc
    rw [List.foldl_cons, hjoin, ih (by simp), List.intercalate_cons_cons]
    cases cs with
    | nil => simp
    | cons c'' cs => simp [List.intercalate_cons_cons]

/-- The components of a path make the path again. -/
theorem foldl_join_splitOn (h : PlainPath path) (hne : path ≠ []) :
    (path.splitOn backslash).foldl join [] = path := by
  have hplain := h.resolve_left hne
  cases hs : path.splitOn backslash with
  | nil => exact absurd hs (by simp)
  | cons c cs =>
    have hc : Plain c := hplain c (by rw [hs]; exact List.mem_cons_self)
    have hfirst : join [] c = c := if_pos rfl
    rw [List.foldl_cons, hfirst, foldl_join hc.ne_nil, ← hs, List.intercalate_splitOn]

theorem PlainPath.legal (h : PlainPath path) {c : UInt8} (hc : c ∈ path) :
    c = backslash ∨ isLegal c := by
  by_contra hbad
  obtain ⟨hsep, hlegal⟩ := not_or.1 hbad
  have hne : path ≠ [] := List.ne_nil_of_mem hc
  have hmem : c ∈ [backslash].intercalate (path.splitOn backslash) := by
    rw [List.intercalate_splitOn]
    exact hc
  have hplain := h.resolve_left hne
  generalize path.splitOn backslash = cs at hmem hplain
  induction cs with
  | nil => simp at hmem
  | cons x cs ih =>
    have hx : c ∉ x := (hplain x List.mem_cons_self).not_mem hlegal
    cases cs with
    | nil => exact hx (by simpa using hmem)
    | cons y cs =>
      rw [List.intercalate_cons_cons] at hmem
      simp only [List.mem_append, List.mem_singleton] at hmem
      rcases hmem with (hmem | hmem) | hmem
      · exact hx hmem
      · exact hsep hmem
      · exact ih hmem fun z hz => hplain z (List.mem_cons_of_mem x hz)

theorem dropSpaces_le (name : CString) (r : ℕ) : dropSpaces name r ≤ r := by
  induction r with
  | zero => exact le_rfl
  | succ r ih =>
    rw [dropSpaces]
    split_ifs
    · omega
    · exact le_rfl

/-- Legal bytes and separators are as they are in upper case. -/
theorem upperOf_eq_self (h : ∀ c ∈ name, c = backslash ∨ isLegal c) :
    upperOf name = name := by
  induction name with
  | nil => rfl
  | cons c name ih =>
    have hname : upperOf name = name := ih fun x hx => h x (List.mem_cons_of_mem c hx)
    rcases h c List.mem_cons_self with rfl | hlegal
    · rw [upperOf_cons (by decide), hname]
      rfl
    · obtain ⟨hslash, -, -, hspace⟩ := ne_of_legal hlegal
      rw [upperOf_cons hspace, if_neg hslash, toupper_of_legal hlegal, hname]

/-- A separator and a path of plain components are parsed into them. -/
theorem parsed_of_plain {curdir : CString} (hpath : PlainPath path)
    (hlen : path.length + 1 < DOS_PATHLENGTH) (hdrive : d.current_drive < DOS_DRIVES)
    (hcurdir : d.curdir d.current_drive = some curdir) :
    parsed d (backslash :: path) = some ([], [] :: path.splitOn backslash) := by
  have hbytes : ∀ c ∈ backslash :: path, c = backslash ∨ isLegal c := by
    intro c hc
    rcases List.mem_cons.1 hc with hc | hc
    · exact Or.inl hc
    · exact hpath.legal hc
  have hcolon : colon ∉ backslash :: path := fun h => absurd (hbytes colon h) (by decide)
  have hsecond : ¬ (backslash :: path)[1]? = some colon :=
    fun h => hcolon (List.mem_of_getElem? h)
  have hlen' : (backslash :: path).length < DOS_PATHLENGTH := by simpa using hlen
  have hshort : ¬ DOS_PATHLENGTH ≤ dropSpaces (backslash :: path)
      (min (backslash :: path).length DOS_PATHLENGTH) := by
    have hle := dropSpaces_le (backslash :: path) (min (backslash :: path).length DOS_PATHLENGTH)
    omega
  have hup : dropColon (upperOf ((backslash :: path).take DOS_PATHLENGTH)) = backslash :: path := by
    rw [List.take_of_length_le (by omega), upperOf_eq_self hbytes, dropColon, if_neg]
    rintro ⟨-, hlast⟩
    exact hcolon (List.mem_of_getLast? hlast)
  have hparts : driveAndName d (backslash :: path) = (d.current_drive, backslash :: path) :=
    if_neg hsecond
  have hsplit : (backslash :: path).splitOn backslash = [] :: path.splitOn backslash :=
    List.splitOn_append_cons_self_of_not_mem List.not_mem_nil path
  have hfirst : ¬ (backslash :: path = [] ∨ (backslash :: path).head? = some space) := by
    rintro (h | h)
    · cases h
    · exact absurd (Option.some.inj h) (by decide)
  rw [parsed, if_neg hfirst, hparts]
  dsimp only
  rw [if_pos hdrive, hcurdir]
  dsimp only
  rw [if_neg hshort, hup, hsplit]
  rfl

/-- **The call returns a path of plain components again** when a separator stands in front of
it. -/
theorem DOS_MakeName_of_plain (hpath : PlainPath path) (hlen : path.length + 1 < DOS_PATHLENGTH)
    (hdrive : d.current_drive < DOS_DRIVES) (hmounted : d.curdir d.current_drive ≠ none)
    (hcurdir : ∀ i curdir, d.curdir i = some curdir → curdir.length < DOS_PATHLENGTH) :
    ∃ drive, DOS_MakeName d (backslash :: path) = .ok ⟨drive, .ok path⟩ := by
  obtain ⟨curdir, hcur⟩ := Option.ne_none_iff_exists'.1 hmounted
  have hcall := DOS_MakeName_eq (backslash :: path) hcurdir
  rw [parsed_of_plain hpath hlen hdrive hcur] at hcall
  have hempty : ∀ stop, enter stop [] [] = .ok [] := fun _ => rfl
  have hwalk : Within [] (path.splitOn backslash) ∧
      walk [] (path.splitOn backslash) = .ok path := by
    by_cases hnil : path = []
    · rw [hnil]
      exact ⟨⟨Or.inl rfl, fun _ _ => trivial⟩, rfl⟩
    · have hfold := foldl_join_splitOn hpath hnil
      have hplain : Within [] (path.splitOn backslash) ∧ walk [] (path.splitOn backslash) =
          .ok ((path.splitOn backslash).foldl join []) :=
        walk_of_plain (hpath.resolve_left hnil) (by rw [hfold]; omega)
      rwa [hfold] at hplain
  have hwithin : Within [] ([] :: path.splitOn backslash) := by
    refine ⟨Or.inl rfl, fun next hnext => ?_⟩
    rw [hempty] at hnext
    cases hnext
    exact hwalk.1
  obtain ⟨drive, hok⟩ := hcall.1 hwithin
  rw [walk, hempty] at hok
  refine ⟨some drive, hok.trans ?_⟩
  change Except.ok (⟨some drive, walk [] (path.splitOn backslash)⟩ : Answer) = _
  rw [hwalk.2]

/-- **Every path that a call returns is canonical, and comes back** from a later call with a
separator in front of it, if the default drive is there and the path is shorter than the buffer by
the separator. -/
theorem makeName_canonical {d : Drives} {name path : CString} {drive : Option ℕ}
    (hcurdir : ∀ i curdir, d.curdir i = some curdir → Made curdir)
    (h : DOS_MakeName d name = .ok ⟨drive, .ok path⟩) :
    Canonical path ∧
      ∀ d' : Drives, (∀ i curdir, d'.curdir i = some curdir → Made curdir) →
        d'.current_drive < DOS_DRIVES → d'.curdir d'.current_drive ≠ none →
        path.length + 1 < DOS_PATHLENGTH →
        ∃ drive', DOS_MakeName d' (backslash :: path) = .ok ⟨drive', .ok path⟩ := by
  obtain ⟨hplain, -⟩ := (Made.call hcurdir h).plain
  refine ⟨hplain.canonical, fun d' hcurdir' hdrive hmounted hlen => ?_⟩
  exact DOS_MakeName_of_plain hplain hlen hdrive hmounted
    fun i curdir hi => (hcurdir' i curdir hi).plain.2

/-- One drive whose current directory is the root, and the number of the default drive. -/
def rootOfZ (current_drive : ℕ) : Drives :=
  ⟨current_drive, fun i => if i = 25 then some [] else none⟩

theorem rootOfZ_made (current_drive i : ℕ) (curdir : CString)
    (h : (rootOfZ current_drive).curdir i = some curdir) : Made curdir := by
  simp only [rootOfZ] at h
  split_ifs at h
  cases h
  exact Made.root

/-- `a/b .c` becomes `A\B.C`, and stays so. -/
theorem makeName_canonical_lower :
    Canonical [0x41, backslash, 0x42, dot, 0x43] ∧
      ∃ drive, DOS_MakeName (rootOfZ 25) [backslash, 0x41, backslash, 0x42, dot, 0x43] =
        .ok ⟨drive, .ok [0x41, backslash, 0x42, dot, 0x43]⟩ := by
  have h : DOS_MakeName (rootOfZ 25) [0x61, slash, 0x62, space, dot, 0x63] =
      .ok ⟨some 25, .ok [0x41, backslash, 0x42, dot, 0x43]⟩ := rfl
  obtain ⟨hcanonical, hagain⟩ := makeName_canonical (rootOfZ_made 25) h
  exact ⟨hcanonical, hagain (rootOfZ 25) (rootOfZ_made 25) (by decide) (by simp [rootOfZ])
    (by decide)⟩

/-- Eight components of eight bytes and one of seven. -/
def longPath : CString :=
  (List.replicate 8 (List.replicate 8 0x41 ++ [backslash])).flatten ++ List.replicate 7 0x41

set_option maxRecDepth 4000 in
/-- A path of 79 bytes has no room for a separator in front of it, and no path comes back when the
default drive is not there. -/
theorem path_not_again :
    (∀ i curdir, (rootOfZ 25).curdir i = some curdir → Made curdir) ∧
    DOS_MakeName (rootOfZ 25) longPath = .ok ⟨some 25, .ok longPath⟩ ∧
    DOS_MakeName (rootOfZ 25) (backslash :: longPath) = .ok ⟨some 25, .error .PATH_NOT_FOUND⟩ ∧
    (∀ i curdir, (rootOfZ 0).curdir i = some curdir → Made curdir) ∧
    DOS_MakeName (rootOfZ 0) [0x5a, colon] = .ok ⟨some 25, .ok []⟩ ∧
    DOS_MakeName (rootOfZ 0) [backslash] = .ok ⟨some 0, .error .PATH_NOT_FOUND⟩ :=
  ⟨rootOfZ_made 25, rfl, rfl, rootOfZ_made 0, rfl, rfl⟩

end AugraDosbox.MakeName
