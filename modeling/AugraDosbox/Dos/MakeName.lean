import AugraDosbox.Dos.FatNames
import AugraDosbox.Hardware.Pages

/-!
# Complete path names

`DOS_MakeName` of `src/dos/dos_files.cpp`.  A C string is the list of its bytes; a statement that
stores into one of the buffers `upname`, `tempdir` and `fullname`, of `DOS_PATHLENGTH` bytes each,
first checks the highest index that it writes.

* `fillUpname`, `climbLoop`, `addComponent`, `parseLoop` — the loops of the function;
* `enter`, `walk` — what a component and a list of them do to a path, without the buffers;
* `Within` — no store of the walk is outside of its buffer;
* **`makeName_inside_iff`** — every store is inside exactly when that is so for the name.
-/

namespace AugraDosbox.MakeName

open Fat

def slash : UInt8 := 0x2f
def colon : UInt8 := 0x3a

def DOS_DRIVES : ℕ := 26

/-- The errors that the function sets. -/
inductive MakeNameError where
  | FILE_NOT_FOUND
  | PATH_NOT_FOUND
  deriving DecidableEq, Repr

/-- The default drive, and the current directories of the drives that there are. -/
structure Drives where
  current_drive : ℕ
  curdir : ℕ → Option CString

/-- What a call leaves: `*drive`, if that is set, and the path or the error. -/
structure Answer where
  drive : Option ℕ
  fullname : Except MakeNameError CString

/-- Storing at an index of a buffer of `DOS_PATHLENGTH` bytes. -/
def put (i : ℕ) : Except Fault Unit := if i < DOS_PATHLENGTH then .ok () else .error .outOfBounds

/-! ## The name in upper case -/

/-- The loop that fills `upname`: how many bytes of the name it reads, and what it leaves. -/
def fillUpname : ℕ → CString → CString → Except Fault (ℕ × CString)
  | r, upname, [] => .ok (r, upname)
  | r, upname, c :: name =>
      if r < DOS_PATHLENGTH then
        if c = space then fillUpname (r + 1) upname name
        else do
          put upname.length
          fillUpname (r + 1) (upname ++ [if c = slash then backslash else toupper c]) name
      else .ok (r, upname)

/-- The number of bytes without the spaces at the end. -/
def dropSpaces (name : CString) : ℕ → ℕ
  | 0 => 0
  | r + 1 => if name[r]? = some space then dropSpaces name r else r + 1

/-- A colon at the end of a device name is dropped. -/
def dropColon (upname : CString) : CString :=
  if 1 < upname.length ∧ upname.getLast? = some colon then upname.dropLast else upname

/-! ## One component -/

/-- The last separator of a path that something follows, or `lastdir`. -/
def lastSeparator : ℕ → ℕ → CString → ℕ
  | _, lastdir, [] => lastdir
  | t, lastdir, c :: s => lastSeparator (t + 1) (if c = backslash ∧ s ≠ [] then t else lastdir) s

/-- The loop that climbs by several levels. -/
def climbLoop (fullname : CString) : ℕ → ℕ → ℕ → ℕ
  | 0, _, lastdir => lastdir
  | iDown + 1, cDots, lastdir =>
      if fullname[iDown]? = some backslash ∨ iDown = 0 then
        if cDots - 1 = 0 then iDown else climbLoop fullname iDown (cDots - 1) iDown
      else climbLoop fullname iDown cDots lastdir

/-- The bytes that a component may have. -/
def isLegal (c : UInt8) : Bool :=
  (0x41 ≤ c ∧ c ≤ 0x5a) ∨ (0x30 ≤ c ∧ c ≤ 0x39) ∨ 128 ≤ c ∨
    c ∈ ([0x24, 0x23, 0x40, 0x28, 0x29, 0x21, 0x25, 0x7b, 0x7d, 0x60, 0x7e, 0x5f, 0x2d, 0x2e, 0x2a,
      0x3f, 0x26, 0x27, 0x2b, 0x5e, 246, 255, 0xa0, 0xe5, 0xbd, 0x9d] : List UInt8)

/-- A separator follows every path that is not empty. -/
def addSeparator (fullname : CString) : Except Fault CString :=
  if fullname.length ≠ 0 then do
    put (fullname.length + 1)
    .ok (fullname ++ [backslash])
  else .ok fullname

/-- The component cut to eight bytes and an extension of three; there must be one dot at most. -/
def cutComponent (stop : Bool) (tempdir : CString) : Except Fault (Except MakeNameError CString) :=
  match strchr dot tempdir with
  | some (base, extension) =>
      if dot ∈ extension then
        .ok (.error (if stop then .FILE_NOT_FOUND else .PATH_NOT_FOUND))
      else do
        put (base.length + 4)
        let ext := (dot :: extension).take 4
        if 8 < base.length then do
          put 12
          .ok (.ok (base.take 8 ++ ext))
        else .ok (.ok (base ++ ext))
  | none => do
      put 8
      .ok (.ok (tempdir.take 8))

/-- The end of a component: the new `fullname` and `lastdir`. -/
def addComponent (stop : Bool) (tempdir fullname : CString) (lastdir : ℕ) :
    Except Fault (Except MakeNameError (CString × ℕ)) := do
  put tempdir.length
  if tempdir = [] ∨ tempdir = [dot] then .ok (.ok (fullname, lastdir))
  else if tempdir.all (· = dot) ∧ 1 < tempdir.length then do
    let lastdir := climbLoop fullname fullname.length (tempdir.length - 1) lastdir
    put lastdir
    .ok (.ok (fullname.take lastdir, lastSeparator 0 0 (fullname.take lastdir)))
  else do
    let lastdir := fullname.length
    let fullname ← addSeparator fullname
    match ← cutComponent stop tempdir with
    | .error e => .ok (.error e)
    | .ok tempdir =>
        if ¬ tempdir.all isLegal then .ok (.error .PATH_NOT_FOUND)
        else if DOS_PATHLENGTH ≤ fullname.length + tempdir.length then .ok (.error .PATH_NOT_FOUND)
        else do
          put (fullname.length + tempdir.length)
          .ok (.ok (fullname ++ tempdir, lastdir))

/-! ## The call -/

/-- The loop over `upname`. -/
def parseLoop : CString → CString → CString → ℕ → Except Fault (Except MakeNameError CString)
  | [], tempdir, fullname, lastdir => do
      let added ← addComponent true tempdir fullname lastdir
      .ok (added.map Prod.fst)
  | c :: upname, tempdir, fullname, lastdir =>
      if c = backslash then do
        match ← addComponent false tempdir fullname lastdir with
        | .error e => .ok (.error e)
        | .ok (fullname, lastdir) => parseLoop upname [] fullname lastdir
      else do
        put tempdir.length
        parseLoop upname (tempdir ++ [c]) fullname lastdir

/-- The drive that a name begins with, or the default drive, and the rest of the name. -/
def driveAndName (d : Drives) (name : CString) : ℕ × CString :=
  if name[1]? = some colon then
    (((name.headD 0 ||| 0x20) - 0x61 : UInt8).toNat, name.drop 2)
  else (d.current_drive, name)

/-- The part of the call after the comment that the name is parsed now. -/
def parseName (curdir upname : CString) : Except Fault (Except MakeNameError CString) := do
  put upname.length
  let fullname := if upname.head? ≠ some backslash then curdir else []
  put fullname.length
  parseLoop upname [] fullname (lastSeparator 0 0 fullname)

/-- `DOS_MakeName`.  A null pointer fails as the empty name does. -/
def DOS_MakeName (d : Drives) (name : CString) : Except Fault Answer :=
  if name = [] ∨ name.head? = some space then .ok ⟨none, .error .FILE_NOT_FOUND⟩
  else
    let (drive, name_int) := driveAndName d name
    match if drive < DOS_DRIVES then d.curdir drive else none with
    | none => .ok ⟨some drive, .error .PATH_NOT_FOUND⟩
    | some curdir => do
        let (r, upname) ← fillUpname 0 [] name_int
        if DOS_PATHLENGTH ≤ dropSpaces name_int r then .ok ⟨some drive, .error .PATH_NOT_FOUND⟩
        else do
          let fullname ← parseName curdir (dropColon upname)
          .ok ⟨some drive, fullname⟩

/-! ## The walk over the components -/

/-- The component without its bytes past eight and three. -/
def shorten (stop : Bool) (c : CString) : Except MakeNameError CString :=
  match strchr dot c with
  | some (base, extension) =>
      if dot ∈ extension then .error (if stop then .FILE_NOT_FOUND else .PATH_NOT_FOUND)
      else .ok (base.take 8 ++ (dot :: extension).take 4)
  | none => .ok (c.take 8)

/-- A component at the end of a path. -/
def join (fullname c : CString) : CString :=
  if fullname = [] then c else fullname ++ backslash :: c

/-- The path that a component leads to. -/
def enter (stop : Bool) (fullname c : CString) : Except MakeNameError CString :=
  if c = [] ∨ c = [dot] then .ok fullname
  else if c.all (· = dot) then
    .ok (fullname.take (climbLoop fullname fullname.length (c.length - 1) 0))
  else
    match shorten stop c with
    | .error e => .error e
    | .ok c =>
        if ¬ c.all isLegal ∨ DOS_PATHLENGTH ≤ (join fullname c).length then .error .PATH_NOT_FOUND
        else .ok (join fullname c)

def walk : CString → List CString → Except MakeNameError CString
  | fullname, [] => .ok fullname
  | fullname, c :: cs => do walk (← enter cs.isEmpty fullname c) cs

/-- There is room for a separator, and for the end of an extension after the only dot. -/
def Fits (fullname c : CString) : Prop :=
  c.all (· = dot) ∨
    fullname.length + 1 < DOS_PATHLENGTH ∧
      ∀ base extension, strchr dot c = some (base, extension) →
        dot ∈ extension ∨ base.length + 4 < DOS_PATHLENGTH

/-- Each component that the walk comes to fits. -/
def Within : CString → List CString → Prop
  | _, [] => True
  | fullname, c :: cs =>
      Fits fullname c ∧ ∀ path, enter cs.isEmpty fullname c = .ok path → Within path cs

/-- The name in upper case and with one kind of separator. -/
def upperOf (name : CString) : CString :=
  (name.filter (· ≠ space)).map fun c => if c = slash then backslash else toupper c

/-- Where the walk starts and what its components are, if the function gets that far. -/
def parsed (d : Drives) (name : CString) : Option (CString × List CString) :=
  if name = [] ∨ name.head? = some space then none
  else
    let (drive, name_int) := driveAndName d name
    match if drive < DOS_DRIVES then d.curdir drive else none with
    | none => none
    | some curdir =>
        if DOS_PATHLENGTH ≤ dropSpaces name_int (min name_int.length DOS_PATHLENGTH) then none
        else
          let upname := dropColon (upperOf (name_int.take DOS_PATHLENGTH))
          some (if upname.head? ≠ some backslash then curdir else [], upname.splitOn backslash)

/-! ## The buffers during the walk -/

theorem put_of_lt {i : ℕ} (h : i < DOS_PATHLENGTH) : put i = .ok () := if_pos h

theorem put_of_le {i : ℕ} (h : DOS_PATHLENGTH ≤ i) : put i = .error .outOfBounds :=
  if_neg (by omega)

theorem climbLoop_le (fullname : CString) (n cDots lastdir : ℕ) :
    climbLoop fullname n cDots lastdir ≤ max n lastdir := by
  induction n generalizing cDots lastdir with
  | zero => simp [climbLoop]
  | succ iDown ih =>
    rw [climbLoop]
    split_ifs
    · omega
    · have := ih (cDots - 1) iDown
      omega
    · have := ih cDots lastdir
      omega

/-- The old `lastdir` counts in an empty path only. -/
theorem climbLoop_lastdir (fullname : CString) (n cDots lastdir : ℕ) (hn : n ≠ 0) :
    climbLoop fullname n cDots lastdir = climbLoop fullname n cDots 0 := by
  induction n generalizing cDots with
  | zero => exact absurd rfl hn
  | succ iDown ih =>
    rw [climbLoop, climbLoop]
    split_ifs with hsep
    · rfl
    · rfl
    · exact ih cDots (by rintro rfl; exact hsep (Or.inr rfl))

variable {stop : Bool} {c fullname upname : CString} {lastdir : ℕ}

/-- Cutting a component stays inside unless its only dot is too far behind. -/
theorem cutComponent_eq
    (h : ∀ base extension, strchr dot c = some (base, extension) →
      dot ∈ extension ∨ base.length + 4 < DOS_PATHLENGTH)
    :
    cutComponent stop c = .ok (shorten stop c) := by
  rw [cutComponent, shorten]
  cases hc : strchr dot c with
  | none => rfl
  | some found =>
    obtain ⟨base, extension⟩ := found
    by_cases hdot : dot ∈ extension
    · simp only [hdot, if_true]
    · have hput : put (base.length + 4) = .ok () :=
        put_of_lt ((h base extension hc).resolve_left hdot)
      simp only [hdot, if_false, hput]
      split_ifs with hbase
      · rfl
      · rw [List.take_of_length_le (by omega : base.length ≤ 8)]
        rfl

/-- What the separator leaves makes the longer path with any component behind it. -/
theorem addSeparator_spec (h : fullname.length + 1 < DOS_PATHLENGTH) :
    ∃ joined, addSeparator fullname = .ok joined ∧ ∀ c, joined ++ c = join fullname c := by
  rw [addSeparator, put_of_lt h]
  by_cases hnil : fullname = []
  · exact ⟨[], by simp [hnil], fun c => by simp [join, hnil]⟩
  · have hlen : fullname.length ≠ 0 := by simpa using hnil
    rw [if_pos hlen]
    exact ⟨fullname ++ [backslash], rfl, fun c => by simp [join, hnil]⟩

/-- What a component that is not made of dots leads to. -/
theorem enter_of_ordinary (h : ¬ c.all (· = dot)) :
    enter stop fullname c = (shorten stop c).bind fun c =>
      if ¬ c.all isLegal ∨ DOS_PATHLENGTH ≤ (join fullname c).length then .error .PATH_NOT_FOUND
      else .ok (join fullname c) := by
  have hc : ¬ (c = [] ∨ c = [dot]) := by
    rintro (rfl | rfl)
    · exact h rfl
    · exact h (by simp)
  rw [enter, if_neg hc, if_neg h]
  cases shorten stop c <;> rfl

theorem enter_length {path : CString} (hf : fullname.length < DOS_PATHLENGTH)
    (h : enter stop fullname c = .ok path) :
    path.length < DOS_PATHLENGTH := by
  by_cases hdots : c.all (· = dot)
  · rw [enter, if_pos hdots] at h
    split_ifs at h with hone
    · cases h
      exact hf
    · cases h
      rw [List.length_take]
      omega
  · rw [enter_of_ordinary hdots] at h
    cases hs : shorten stop c with
    | error e => simp [hs, Except.bind] at h
    | ok c =>
      simp only [hs, Except.bind] at h
      split_ifs at h with hlong
      cases h
      exact Nat.lt_of_not_le fun hle => hlong (Or.inr hle)

/-- The end of a component, when it is made of dots. -/
theorem addComponent_dots (hc : c.length < DOS_PATHLENGTH) (hf : fullname.length < DOS_PATHLENGTH)
    (hlast : fullname = [] → lastdir = 0) (hdots : c.all (· = dot)) :
    ∃ l, addComponent stop c fullname lastdir = .ok ((enter stop fullname c).map (·, l)) ∧
      (enter stop fullname c = .ok [] → l = 0) := by
  rw [addComponent, enter, put_of_lt hc]
  by_cases hone : c = [] ∨ c = [dot]
  · rw [if_pos hone, if_pos hone]
    exact ⟨lastdir, rfl, fun h => hlast (by cases h; rfl)⟩
  · have hmany : 1 < c.length := by
      rcases c with _ | ⟨x, _ | ⟨y, c⟩⟩
      · exact absurd (Or.inl rfl) hone
      · have hx : x = dot := by simpa using hdots
        exact absurd (Or.inr (by rw [hx])) hone
      · simp
    have hclimb : climbLoop fullname fullname.length (c.length - 1) lastdir =
        climbLoop fullname fullname.length (c.length - 1) 0 := by
      by_cases hnil : fullname = []
      · rw [hlast hnil]
      · exact climbLoop_lastdir _ _ _ _ (by simpa using hnil)
    have hput : put (climbLoop fullname fullname.length (c.length - 1) 0) = .ok () := by
      have hle := climbLoop_le fullname fullname.length (c.length - 1) 0
      exact put_of_lt (by omega)
    rw [if_neg hone, if_neg hone, if_pos hdots, if_pos ⟨hdots, hmany⟩, hclimb]
    refine ⟨_, by simp only [hput]; rfl, fun h => ?_⟩
    have hnil : fullname.take (climbLoop fullname fullname.length (c.length - 1) 0) = [] := by
      simpa using h
    rw [hnil, lastSeparator]

/-- The end of a component that fits, when it is not made of dots. -/
theorem addComponent_ordinary (hc : c.length < DOS_PATHLENGTH)
    (hroom : fullname.length + 1 < DOS_PATHLENGTH)
    (hdot : ∀ base extension, strchr dot c = some (base, extension) →
      dot ∈ extension ∨ base.length + 4 < DOS_PATHLENGTH)
    (hord : ¬ c.all (· = dot)) :
    addComponent stop c fullname lastdir =
      .ok ((enter stop fullname c).map (·, fullname.length)) := by
  have hone : ¬ (c = [] ∨ c = [dot]) := by
    rintro (rfl | rfl)
    · exact hord rfl
    · exact hord (by simp)
  obtain ⟨joined, hseparator, hjoined⟩ := addSeparator_spec hroom
  rw [addComponent, put_of_lt hc, if_neg hone, if_neg (fun h => hord h.1), hseparator,
    cutComponent_eq hdot, enter_of_ordinary hord]
  cases shorten stop c with
  | error e => rfl
  | ok cut =>
    have hlen : joined.length + cut.length = (join fullname cut).length := by
      rw [← hjoined, List.length_append]
    change (if ¬ cut.all isLegal then Except.ok (Except.error MakeNameError.PATH_NOT_FOUND)
      else if DOS_PATHLENGTH ≤ joined.length + cut.length then
        Except.ok (Except.error MakeNameError.PATH_NOT_FOUND)
      else do
        put (joined.length + cut.length)
        Except.ok (Except.ok (joined ++ cut, fullname.length))) = _
    rw [hlen, hjoined]
    by_cases hlegal : cut.all isLegal
    · by_cases hlong : DOS_PATHLENGTH ≤ (join fullname cut).length
      · simp [hlegal, hlong, Except.bind, Except.map]
      · rw [put_of_lt (Nat.lt_of_not_le hlong)]
        simp [hlegal, hlong, Except.bind, Except.map]
        rfl
    · simp [hlegal, Except.bind, Except.map]

/-- The end of a component that does not fit. -/
theorem addComponent_unfit (hc : c.length < DOS_PATHLENGTH) (hfits : ¬ Fits fullname c) :
    addComponent stop c fullname lastdir = .error .outOfBounds := by
  have hord : ¬ c.all (· = dot) := fun h => hfits (Or.inl h)
  have hone : ¬ (c = [] ∨ c = [dot]) := by
    rintro (rfl | rfl)
    · exact hord rfl
    · exact hord (by simp)
  rw [addComponent, put_of_lt hc, if_neg hone, if_neg (fun h => hord h.1)]
  by_cases hroom : fullname.length + 1 < DOS_PATHLENGTH
  · obtain ⟨joined, hseparator, -⟩ := addSeparator_spec hroom
    have hcut : cutComponent stop c = .error .outOfBounds := by
      by_contra hne
      refine hfits (Or.inr ⟨hroom, fun base extension hc => ?_⟩)
      by_contra hbad
      obtain ⟨hdot, hbase⟩ := not_or.1 hbad
      refine hne ?_
      simp only [cutComponent, hc, hdot, if_false, put_of_le (Nat.le_of_not_lt hbase)]
      rfl
    rw [hseparator, hcut]
    rfl
  · have hlen : fullname.length ≠ 0 := by
      intro h
      exact hroom (by rw [h]; decide)
    rw [addSeparator, if_pos hlen, put_of_le (Nat.le_of_not_lt hroom)]
    rfl

/-- One component, whether it fits or not. -/
theorem addComponent_eq (stop : Bool) (hc : c.length < DOS_PATHLENGTH)
    (hf : fullname.length < DOS_PATHLENGTH) (hlast : fullname = [] → lastdir = 0)
    (hfits : Fits fullname c) :
    ∃ l, addComponent stop c fullname lastdir = .ok ((enter stop fullname c).map (·, l)) ∧
      (enter stop fullname c = .ok [] → l = 0) := by
  by_cases hdots : c.all (· = dot)
  · exact addComponent_dots hc hf hlast hdots
  · obtain ⟨hroom, hdot⟩ := hfits.resolve_left hdots
    refine ⟨_, addComponent_ordinary hc hroom hdot hdots, fun h => ?_⟩
    rw [enter_of_ordinary hdots] at h
    cases hs : shorten stop c with
    | error e => simp [hs, Except.bind] at h
    | ok cut =>
      simp only [hs, Except.bind] at h
      split_ifs at h with hlong
      by_contra hnil
      have hnil : fullname ≠ [] := fun h => hnil (by rw [h]; rfl)
      rw [join, if_neg hnil] at h
      simp at h

/-- **The loop over the name is the walk over its components**, as long as they fit. -/
theorem parseLoop_eq {tempdir : CString} (hlen : tempdir.length + upname.length < DOS_PATHLENGTH)
    (hsep : backslash ∉ tempdir) (hf : fullname.length < DOS_PATHLENGTH)
    (hlast : fullname = [] → lastdir = 0) :
    (Within fullname ((tempdir ++ upname).splitOn backslash) →
      parseLoop upname tempdir fullname lastdir =
        .ok (walk fullname ((tempdir ++ upname).splitOn backslash))) ∧
    (¬ Within fullname ((tempdir ++ upname).splitOn backslash) →
      parseLoop upname tempdir fullname lastdir = .error .outOfBounds) := by
  induction upname generalizing tempdir fullname lastdir with
  | nil =>
    rw [List.append_nil, List.splitOn_eq_singleton hsep, parseLoop]
    have hc : tempdir.length < DOS_PATHLENGTH := by simpa using hlen
    refine ⟨fun hwithin => ?_, fun hwithin => ?_⟩
    · obtain ⟨l, hadd, -⟩ := addComponent_eq true hc hf hlast hwithin.1
      rw [hadd]
      simp only [walk, List.isEmpty_nil]
      cases enter true fullname tempdir <;> rfl
    · have hfits : ¬ Fits fullname tempdir := fun h => hwithin ⟨h, fun _ _ => trivial⟩
      rw [addComponent_unfit hc hfits]
      rfl
  | cons c upname ih =>
    rw [List.length_cons] at hlen
    by_cases hc : c = backslash
    · have hstop : (upname.splitOn backslash).isEmpty = false := by simp
      have hlent : tempdir.length < DOS_PATHLENGTH := by omega
      rw [hc, List.splitOn_append_cons_self_of_not_mem hsep, parseLoop, if_pos rfl]
      by_cases hfits : Fits fullname tempdir
      · obtain ⟨l, hadd, hl⟩ := addComponent_eq false hlent hf hlast hfits
        rw [hadd]
        cases hent : enter false fullname tempdir with
        | error e =>
          refine ⟨fun _ => ?_, fun hwithin => ?_⟩
          · rw [walk, hstop, hent]
            rfl
          · refine absurd ⟨hfits, fun path h => ?_⟩ hwithin
            rw [hstop, hent] at h
            cases h
        | ok path =>
          have hpath : path.length < DOS_PATHLENGTH := enter_length hf hent
          obtain ⟨hin, hout⟩ := ih (by rw [List.length_nil]; omega) List.not_mem_nil hpath
            (fun h => hl (by rw [hent, h]))
          have hnext : Within fullname (tempdir :: upname.splitOn backslash) ↔
              Within path (upname.splitOn backslash) := by
            rw [Within, hstop, hent]
            exact ⟨fun h => h.2 path rfl, fun h => ⟨hfits, fun _ he => by cases he; exact h⟩⟩
          rw [hnext, walk, hstop, hent]
          exact ⟨hin, hout⟩
      · refine ⟨fun h => absurd h.1 hfits, fun _ => ?_⟩
        rw [addComponent_unfit hlent hfits]
        rfl
    · have hlent : tempdir.length < DOS_PATHLENGTH := by omega
      have happ : tempdir ++ c :: upname = (tempdir ++ [c]) ++ upname := by simp
      have hnew : backslash ∉ tempdir ++ [c] := by
        simp only [List.mem_append, List.mem_singleton, not_or]
        exact ⟨hsep, fun h => hc h.symm⟩
      rw [parseLoop, if_neg hc, put_of_lt hlent, happ]
      exact ih (by rw [List.length_append, List.length_singleton]; omega) hnew hf hlast

/-! ## The buffers during the call -/

@[simp] theorem upperOf_cons_space (name : CString) : upperOf (space :: name) = upperOf name := by
  simp [upperOf]

theorem upperOf_cons {c : UInt8} (h : c ≠ space) (name : CString) :
    upperOf (c :: name) = (if c = slash then backslash else toupper c) :: upperOf name := by
  simp [upperOf, h]

theorem length_upperOf_le (name : CString) : (upperOf name).length ≤ name.length := by
  rw [upperOf, List.length_map]
  exact List.length_filter_le _ _

/-- `upname` takes no more bytes than have been read. -/
theorem fillUpname_eq {r : ℕ} {name : CString} (hw : upname.length ≤ r) (hr : r ≤ DOS_PATHLENGTH) :
    fillUpname r upname name =
      .ok (min (r + name.length) DOS_PATHLENGTH,
        upname ++ upperOf (name.take (DOS_PATHLENGTH - r))) := by
  induction name generalizing r upname with
  | nil =>
    rw [fillUpname, List.length_nil, Nat.add_zero, Nat.min_eq_left hr]
    simp [upperOf]
  | cons c name ih =>
    rw [fillUpname]
    by_cases hlt : r < DOS_PATHLENGTH
    · obtain ⟨k, hk⟩ : ∃ k, DOS_PATHLENGTH - r = k + 1 := ⟨DOS_PATHLENGTH - r - 1, by omega⟩
      have hk' : DOS_PATHLENGTH - (r + 1) = k := by omega
      have hlen : r + 1 + name.length = r + (c :: name).length := by
        rw [List.length_cons]
        omega
      rw [if_pos hlt, hk, List.take_succ_cons]
      by_cases hspace : c = space
      · rw [if_pos hspace, ih (by omega) (by omega), hk', hspace, upperOf_cons_space, hlen, hspace]
      · rw [if_neg hspace, put_of_lt (by omega : upname.length < DOS_PATHLENGTH),
          upperOf_cons hspace]
        have hw' : (upname ++ [if c = slash then backslash else toupper c]).length ≤ r + 1 := by
          rw [List.length_append, List.length_singleton]
          omega
        have hnext := ih hw' (by omega)
        rw [hk', hlen, List.append_assoc, List.singleton_append] at hnext
        exact hnext
    · have hge : r = DOS_PATHLENGTH := by omega
      rw [if_neg hlt, hge, Nat.sub_self, List.take_zero, Nat.min_eq_right (by omega)]
      simp [upperOf]

theorem length_dropColon_le (upname : CString) : (dropColon upname).length ≤ upname.length := by
  rw [dropColon]
  split_ifs
  · rw [List.length_dropLast]
    omega
  · exact le_rfl

/-- The spaces at the end are not in `upname`. -/
theorem length_upperOf_take_le (name : CString) (r : ℕ) :
    (upperOf (name.take r)).length ≤ dropSpaces name r := by
  induction r with
  | zero => simp [upperOf, dropSpaces]
  | succ r ih =>
    rw [dropSpaces]
    split_ifs with hspace
    · obtain ⟨hlt, hget⟩ := List.getElem?_eq_some_iff.1 hspace
      rw [List.take_add_one, List.getElem?_eq_getElem hlt, hget]
      have happ : upperOf (name.take r ++ [space]) = upperOf (name.take r) := by
        simp [upperOf]
      simpa [happ] using ih
    · exact (length_upperOf_le _).trans (List.length_take_le _ _)

theorem parseName_eq {curdir : CString} (hcur : curdir.length < DOS_PATHLENGTH)
    (hup : upname.length < DOS_PATHLENGTH) :
    let start := if upname.head? ≠ some backslash then curdir else []
    (Within start (upname.splitOn backslash) →
      parseName curdir upname = .ok (walk start (upname.splitOn backslash))) ∧
    (¬ Within start (upname.splitOn backslash) →
      parseName curdir upname = .error .outOfBounds) := by
  intro start
  have hstart : start.length < DOS_PATHLENGTH := by
    simp only [start]
    split_ifs
    · exact hcur
    · decide
  have hcall : parseName curdir upname =
      parseLoop upname [] start (lastSeparator 0 0 start) := by
    rw [parseName, put_of_lt hup]
    change (do put start.length; parseLoop upname [] start (lastSeparator 0 0 start)) = _
    rw [put_of_lt hstart]
    rfl
  rw [hcall]
  exact parseLoop_eq (by rw [List.length_nil, Nat.zero_add]; exact hup) List.not_mem_nil
    hstart (fun h => by rw [h]; rfl)

/-- **The call is the walk over the components of the name**, as long as they fit. -/
theorem DOS_MakeName_eq {d : Drives} (name : CString)
    (hcurdir : ∀ i curdir, d.curdir i = some curdir → curdir.length < DOS_PATHLENGTH) :
    match parsed d name with
    | none => ∃ a, DOS_MakeName d name = .ok a ∧ ∃ e, a.fullname = .error e
    | some (start, cs) =>
        (Within start cs → ∃ drive, DOS_MakeName d name = .ok ⟨some drive, walk start cs⟩) ∧
          (¬ Within start cs → DOS_MakeName d name = .error .outOfBounds) := by
  rw [parsed, DOS_MakeName]
  by_cases hempty : name = [] ∨ name.head? = some space
  · rw [if_pos hempty, if_pos hempty]
    exact ⟨_, rfl, _, rfl⟩
  rw [if_neg hempty, if_neg hempty]
  obtain ⟨drive, name_int⟩ := driveAndName d name
  dsimp only
  cases hdrive : (if drive < DOS_DRIVES then d.curdir drive else none) with
  | none => exact ⟨_, rfl, _, rfl⟩
  | some curdir =>
    have hcur : curdir.length < DOS_PATHLENGTH := by
      split_ifs at hdrive
      exact hcurdir drive curdir hdrive
    have hfill : fillUpname 0 [] name_int = .ok (min name_int.length DOS_PATHLENGTH,
        upperOf (name_int.take DOS_PATHLENGTH)) := by
      rw [fillUpname_eq (Nat.zero_le 0) (Nat.zero_le _), Nat.zero_add, Nat.sub_zero,
        List.nil_append]
    dsimp only
    rw [hfill]
    by_cases hlong : DOS_PATHLENGTH ≤ dropSpaces name_int (min name_int.length DOS_PATHLENGTH)
    · rw [if_pos hlong]
      refine ⟨⟨some drive, .error .PATH_NOT_FOUND⟩, ?_, _, rfl⟩
      change (if _ then _ else _) = _
      rw [if_pos hlong]
    · have htake : name_int.take DOS_PATHLENGTH =
          name_int.take (min name_int.length DOS_PATHLENGTH) := by
        rw [← List.take_length (l := name_int), List.take_take, List.take_length]
        congr 1
        rw [Nat.min_comm]
      have hup : (dropColon (upperOf (name_int.take DOS_PATHLENGTH))).length < DOS_PATHLENGTH := by
        have h1 := length_dropColon_le (upperOf (name_int.take DOS_PATHLENGTH))
        have h2 := length_upperOf_take_le name_int (min name_int.length DOS_PATHLENGTH)
        rw [← htake] at h2
        omega
      obtain ⟨hin, hout⟩ := parseName_eq hcur hup
      rw [if_neg hlong]
      refine ⟨fun hwithin => ⟨drive, ?_⟩, fun hwithin => ?_⟩
      · change (if _ then _ else _) = _
        rw [if_neg hlong, hin hwithin]
        rfl
      · change (if _ then _ else _) = _
        rw [if_neg hlong, hout hwithin]
        rfl

/-! ## When every store is inside -/

/-- **`DOS_MakeName` stays inside its buffers exactly when every component that the walk comes to
fits.** -/
theorem makeName_inside_iff (d : Drives) (name : CString)
    (hcurdir : ∀ i curdir, d.curdir i = some curdir → curdir.length < DOS_PATHLENGTH) :
    (∃ a, DOS_MakeName d name = .ok a) ↔
      ∀ start cs, parsed d name = some (start, cs) → Within start cs := by
  have hcall := DOS_MakeName_eq name hcurdir
  cases hp : parsed d name with
  | none =>
    rw [hp] at hcall
    obtain ⟨a, ha, -⟩ := hcall
    exact iff_of_true ⟨a, ha⟩ fun start cs h => by cases h
  | some parts =>
    obtain ⟨start, cs⟩ := parts
    rw [hp] at hcall
    obtain ⟨hin, hout⟩ := hcall
    constructor
    · rintro ⟨a, ha⟩ start' cs' h
      cases h
      by_contra hwithin
      rw [hout hwithin] at ha
      cases ha
    · intro h
      obtain ⟨drive, hok⟩ := hin (h start cs rfl)
      exact ⟨_, hok⟩

/-- One drive, `Z:`, with a current directory. -/
def onlyZ (curdir : CString) : Drives := ⟨25, fun i => if i = 25 then some curdir else none⟩

theorem onlyZ_curdir {curdir : CString} (h : curdir.length < DOS_PATHLENGTH) (i : ℕ)
    (dir : CString) (hdir : (onlyZ curdir).curdir i = some dir) : dir.length < DOS_PATHLENGTH := by
  simp only [onlyZ] at hdir
  split_ifs at hdir
  cases hdir
  exact h

/-- No separator goes behind a current directory of 79 bytes. -/
theorem makeName_inside_iff_full :
    ¬ ∃ a, DOS_MakeName (onlyZ (List.replicate 79 0x41)) [0x42] = .ok a := by
  rw [makeName_inside_iff _ _ (onlyZ_curdir (by decide))]
  intro h
  have hwithin : Within (List.replicate 79 0x41) [[0x42]] := h _ _ (by decide)
  rcases hwithin.1 with hdots | ⟨hroom, -⟩
  · exact absurd hdots (by decide)
  · exact absurd hroom (by decide)

/-- 76 bytes and a dot: the end of the extension is stored behind `tempdir`. -/
theorem extension_behind_tempdir :
    DOS_MakeName (onlyZ []) (List.replicate 76 0x41 ++ [dot]) = .error .outOfBounds := by
  have hcall := DOS_MakeName_eq (d := onlyZ []) (List.replicate 76 0x41 ++ [dot])
    (onlyZ_curdir (by decide))
  have hparsed : parsed (onlyZ []) (List.replicate 76 0x41 ++ [dot]) =
      some ([], [List.replicate 76 0x41 ++ [dot]]) := by decide
  rw [hparsed] at hcall
  refine hcall.2 fun hwithin => ?_
  rcases hwithin.1 with hdots | ⟨-, hdot⟩
  · exact absurd hdots (by decide)
  · have hcut : strchr dot (List.replicate 76 0x41 ++ [dot]) =
        some (List.replicate 76 0x41, []) := by decide
    rcases hdot _ _ hcut with hmore | hroom
    · exact absurd hmore (by decide)
    · exact absurd hroom (by decide)

end AugraDosbox.MakeName
