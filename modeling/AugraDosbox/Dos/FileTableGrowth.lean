import AugraDosbox.Dos.FileHandles

/-!
# Growing the job file table

`SetNumFiles` between calls that open and close files.

* `newSize`, `reallocates` — the table that a call leaves, and `SetNumFiles_spec`;
* `Apart` — the table is apart from the memory that `DOS_GetMemory` has not handed out;
* `Kept` — no open file is lost and every new entry is free; `Copied` — no file is open where
  nothing is copied;
* **`growth_keeps_iff`** — these two are the same in every run.
-/

namespace AugraDosbox

namespace Psp

variable {p p' : Psp} {n : ℕ}

/-- The call allocates a new table. -/
def reallocates (p : Psp) (file_num : ℕ) : Prop := 20 < file_num ∧ p.max_files < file_num + 2

instance (p : Psp) (file_num : ℕ) : Decidable (p.reallocates file_num) := instDecidableAnd

/-- The entries that the call leaves. -/
def newSize (p : Psp) (file_num : ℕ) : ℕ :=
  if p.reallocates file_num then (file_num + 2) % 2 ^ 16 else max file_num 20

/-- The addresses are not in the memory that `DOS_GetMemory` has not handed out. -/
def ApartUpTo (p : Psp) (size : ℕ) : Prop :=
  ∀ k < size, p.file_table + k < p.dos_memseg * 16 ∨
    DOS_PRIVATE_SEGMENT_END * 16 ≤ p.file_table + k

/-- The table that `SetNumFiles` leaves, and where it is. -/
structure Grown (p : Psp) (file_num : ℕ) (p' : Psp) : Prop where
  max_files : p'.max_files = p.newSize file_num
  entries : ∀ i < p.newSize file_num, p'.GetFileHandle i =
    if p.reallocates file_num then (if i < 20 then p.GetFileHandle i else 0xff)
    else p.mem (p.file_table + i)
  place : if p.reallocates file_num then p'.ApartUpTo (p.newSize file_num)
    else p'.file_table = p.file_table ∧ p'.dos_memseg = p.dos_memseg

/-- The paragraphs that are allocated are enough. -/
theorem le_paragraphs (n : ℕ) : n ≤ (n / 16 + if 0 < n % 16 then 1 else 0) * 16 := by
  split_ifs
  · omega
  · omega

theorem SetNumFiles_spec (hapart : p.ApartUpTo p.max_files) (h : p.SetNumFiles n = .ok p') :
    Grown p n p' := by
  have hnum : (if n < 20 then 20 else n) = max n 20 := by
    split_ifs
    · omega
    · omega
  rw [SetNumFiles, hnum] at h
  by_cases hre : p.reallocates n
  · obtain ⟨h20, hgrow⟩ := hre
    have hmax : max n 20 = n := by omega
    rw [hmax, if_pos ⟨h20, hgrow⟩] at h
    obtain ⟨⟨seg, q⟩, hget, h⟩ := Fallible.bind_ok.1 h
    have hsize : p.newSize n = (n + 2) % 2 ^ 16 := if_pos ⟨h20, hgrow⟩
    have hpara := le_paragraphs ((n + 2) % 2 ^ 16)
    generalize (n + 2) % 2 ^ 16 = N at h hget hsize hpara
    rw [DOS_GetMemory] at hget
    generalize (N / 16 + if 0 < N % 16 then 1 else 0) = para at hget hpara
    split at hget
    · cases hget
    rename_i hroom
    cases hget
    cases h
    refine ⟨hsize.symm, fun i hi => ?_, ?_⟩
    · rw [hsize] at hi
      rw [GetFileHandle, if_neg (Nat.not_le_of_lt hi), if_pos ⟨h20, hgrow⟩]
      refine (growLoop_spec (Nat.zero_le i) (by omega) fun k hk => ?_).trans rfl
      rcases hapart k hk with hlow | hhigh
      · exact Or.inl hlow
      · right
        change p.dos_memseg * 16 + 0 + N ≤ p.file_table + k
        omega
    · rw [if_pos ⟨h20, hgrow⟩]
      intro k hk
      left
      rw [hsize] at hk
      change p.dos_memseg * 16 + k < (growLoop (p.dos_memseg * 16) N 0 _).dos_memseg * 16
      rw [growLoop_dos_memseg]
      change p.dos_memseg * 16 + k < (p.dos_memseg + para) * 16
      omega
  · have hre' : ¬ (20 < max n 20 ∧ p.max_files < max n 20 + 2) := by
      rintro ⟨h20, hgrow⟩
      exact hre ⟨by omega, by omega⟩
    rw [if_neg hre'] at h
    cases h
    have hsize : p.newSize n = max n 20 := if_neg hre
    refine ⟨hsize.symm, fun i hi => ?_, ?_⟩
    · rw [hsize] at hi
      rw [GetFileHandle, if_neg (Nat.not_le_of_lt hi), if_neg hre]
    · rw [if_neg hre]
      exact ⟨rfl, rfl⟩

end Psp

namespace Files

open Fallible

variable {W F : Type} {h : Host W F} {s s' : State W F} {n : ℕ}

/-! ## What a call keeps -/

/-- The files that are open at entries are open there still, and the entries that have been added
are free. -/
def Kept (s : State W F) (p : Psp) : Prop :=
  (∀ i < s.psp.max_files, ∀ found, openFile s i = some found →
    openFile { s with psp := p } i = some found) ∧
  ∀ i, s.psp.max_files ≤ i → i < p.max_files → p.GetFileHandle i = 0xff

/-- No file is open at an entry that the call drops: one behind the new end or, when a new table is
allocated, one behind the first twenty.  When the old table gets more entries they are free. -/
def Copied (s : State W F) (n : ℕ) : Prop :=
  (∀ i < s.psp.max_files, s.psp.newSize n ≤ i ∨ s.psp.reallocates n ∧ 20 ≤ i →
    openFile s i = none) ∧
  (¬ s.psp.reallocates n → ∀ i, s.psp.max_files ≤ i → i < s.psp.newSize n →
    s.psp.mem (s.psp.file_table + i) = 0xff)

/-- What is open at an entry depends on the handle there. -/
theorem openFile_of_handle {p : Psp} {i j : ℕ} (heq : p.GetFileHandle j = s.psp.GetFileHandle i) :
    openFile { s with psp := p } j = openFile s i := by
  rw [openFile, openFile, heq]

theorem openFile_of_free {i : ℕ} (hfree : s.psp.GetFileHandle i = 0xff) : openFile s i = none := by
  rw [openFile, hfree]
  exact if_pos (by decide)

/-- **A call keeps the files exactly when it copies them.** -/
theorem kept_iff_copied {p : Psp} (hapart : s.psp.ApartUpTo s.psp.max_files)
    (hset : s.psp.SetNumFiles n = .ok p) : Kept s p ↔ Copied s n := by
  obtain ⟨hmax, hentries, -⟩ := Psp.SetNumFiles_spec hapart hset
  constructor
  · rintro ⟨hfiles, hnew⟩
    refine ⟨fun i hi hdropped => ?_, fun hre i hle hlt => ?_⟩
    · -- the entry is free or gone afterwards
      have hfree : p.GetFileHandle i = 0xff := by
        by_cases hlt : i < s.psp.newSize n
        · obtain ⟨hre, h20⟩ := hdropped.resolve_left (Nat.not_le_of_lt hlt)
          rw [hentries i hlt, if_pos hre, if_neg (Nat.not_lt_of_le h20)]
        · rw [Psp.GetFileHandle, hmax, if_pos (Nat.le_of_not_lt hlt)]
      cases ho : openFile s i with
      | none => rfl
      | some found =>
        have hafter := hfiles i hi found ho
        rw [openFile_of_free (s := { s with psp := p }) hfree] at hafter
        cases hafter
    · have hfree := hnew i hle (by rw [hmax]; exact hlt)
      rwa [hentries i hlt, if_neg hre] at hfree
  · rintro ⟨hdropped, hfree⟩
    refine ⟨fun i hi found ho => ?_, fun i hle hlt => ?_⟩
    · have hcopied : ¬ (s.psp.newSize n ≤ i ∨ s.psp.reallocates n ∧ 20 ≤ i) := by
        intro hd
        rw [hdropped i hi hd] at ho
        cases ho
      obtain ⟨hlt, hre⟩ := not_or.1 hcopied
      have hsame : p.GetFileHandle i = s.psp.GetFileHandle i := by
        rw [hentries i (Nat.lt_of_not_le hlt)]
        split_ifs with hre' h20
        · rfl
        · exact absurd ⟨hre', Nat.le_of_not_lt h20⟩ hre
        · rw [Psp.GetFileHandle, if_neg (Nat.not_le_of_lt hi)]
      rw [openFile_of_handle hsame, ho]
    · rw [hmax] at hlt
      rw [hentries i hlt]
      split_ifs with hre h20
      · rw [Psp.GetFileHandle, if_pos hle]
      · rfl
      · exact hfree hre i hle hlt

/-! ## Sequences of calls -/

/-- One call more, with the count of the last `SetNumFiles`: the counts do not fall. -/
inductive GrowStep (h : Host W F) : ℕ × State W F → ℕ × State W F → Prop
  | call {count : ℕ} {s s' : State W F} (c : Call) (hserve : serve h s c = .ok s') :
      GrowStep h (count, s) (count, s')
  | setNumFiles {count n : ℕ} {s : State W F} {p : Psp} (hle : count ≤ n)
      (hset : s.psp.SetNumFiles n = .ok p) : GrowStep h (count, s) (n, { s with psp := p })

/-- The table, and also the entries that it has at least after a call with a small count. -/
structure Apart (c : ℕ × State W F) : Prop where
  table : c.2.psp.ApartUpTo c.2.psp.max_files
  twenty : c.1 ≤ 20 → c.2.psp.ApartUpTo 20

/-- The place and the size of the table, and where `DOS_GetMemory` goes on, are the same. -/
structure SamePlace (p p' : Psp) : Prop where
  file_table : p'.file_table = p.file_table
  max_files : p'.max_files = p.max_files
  dos_memseg : p'.dos_memseg = p.dos_memseg

theorem SamePlace.refl (p : Psp) : SamePlace p p := ⟨rfl, rfl, rfl⟩

theorem SamePlace.trans {p₁ p₂ p₃ : Psp} (h₁ : SamePlace p₁ p₂) (h₂ : SamePlace p₂ p₃) :
    SamePlace p₁ p₃ :=
  ⟨h₂.file_table.trans h₁.file_table, h₂.max_files.trans h₁.max_files,
    h₂.dos_memseg.trans h₁.dos_memseg⟩

theorem SamePlace.setHandle (p : Psp) (index : ℕ) (handle : UInt8) :
    SamePlace p (p.SetFileHandle index handle) := by
  refine ⟨?_, ?_, ?_⟩
  · simp
  · simp
  · simp

theorem Opens.samePlace {r : Option ℕ} (ho : Opens s r s') : SamePlace s.psp s'.psp := by
  cases r with
  | none =>
    rw [ho.2]
    exact SamePlace.refl s.psp
  | some entry =>
    obtain ⟨⟨handle, file, -, -, -, -, hpsp⟩, -⟩ := ho
    rw [hpsp]
    exact SamePlace.setHandle s.psp entry _

theorem DOS_CloseFile_samePlace (h : Host W F) (s : State W F) (entry : ℕ) :
    SamePlace s.psp (DOS_CloseFile h s entry).2.psp := by
  rw [DOS_CloseFile]
  cases openFile s entry with
  | none => exact SamePlace.refl s.psp
  | some found => exact SamePlace.setHandle s.psp entry _

/-- The calls on files leave the place and the size of the table alone. -/
theorem serve_samePlace (hh : h.RefusesInvalid) {c : Call} (hserve : serve h s c = .ok s') :
    SamePlace s.psp s'.psp := by
  cases c with
  | «open» name flags =>
    obtain ⟨⟨r, s₁⟩, ho, hserve⟩ := bind_ok.1 hserve
    cases hserve
    exact (DOS_OpenFile_opens hh ho).samePlace
  | create name attributes =>
    obtain ⟨⟨r, s₁⟩, ho, hserve⟩ := bind_ok.1 hserve
    cases hserve
    exact (DOS_CreateFile_opens hh ho).samePlace
  | duplicate entry =>
    cases hserve
    rw [DOS_DuplicateEntry]
    cases openFile s entry with
    | none => exact SamePlace.refl s.psp
    | some found =>
      dsimp only
      split
      · exact SamePlace.refl s.psp
      · exact SamePlace.setHandle s.psp _ _
  | forceDuplicate entry newentry =>
    obtain ⟨⟨r, s₁⟩, hforce, hserve⟩ := bind_ok.1 hserve
    cases hserve
    rw [DOS_ForceDuplicateEntry] at hforce
    split at hforce
    · cases hforce
      exact SamePlace.refl s.psp
    · split at hforce
      · cases hforce
        exact SamePlace.refl s.psp
      · rename_i orig file₀ _
        have hclosed : SamePlace s.psp (if (openFile s newentry).isSome
            then (DOS_CloseFile h s newentry).2 else s).psp := by
          split
          · exact DOS_CloseFile_samePlace h s newentry
          · exact SamePlace.refl s.psp
        dsimp only at hforce
        generalize (if (openFile s newentry).isSome then (DOS_CloseFile h s newentry).2 else s) = s₂
          at hforce hclosed
        split at hforce
        · cases hforce
        · cases hforce
          exact hclosed.trans (SamePlace.setHandle s₂.psp newentry _)
  | close entry =>
    cases hserve
    exact DOS_CloseFile_samePlace h s entry

theorem ApartUpTo.of_samePlace {p p' : Psp} {size : ℕ} (ha : p.ApartUpTo size)
    (hp : SamePlace p p') : p'.ApartUpTo size := by
  intro k hk
  rw [hp.file_table, hp.dos_memseg]
  exact ha k hk

/-- **The table stays apart from the memory that has not been handed out.** -/
theorem Apart.step (hh : h.RefusesInvalid) {c c' : ℕ × State W F} (ha : Apart c)
    (hs : GrowStep h c c') : Apart c' := by
  cases hs with
  | call call hserve =>
    have hplace := serve_samePlace hh hserve
    refine ⟨?_, fun hle => ApartUpTo.of_samePlace (ha.twenty hle) hplace⟩
    have htable := ApartUpTo.of_samePlace ha.table hplace
    rwa [← hplace.max_files] at htable
  | @setNumFiles count n s p hle hset =>
    obtain ⟨hmax, -, hplace⟩ := Psp.SetNumFiles_spec ha.table hset
    by_cases hre : s.psp.reallocates n
    · rw [if_pos hre] at hplace
      obtain ⟨h20, -⟩ := hre
      refine ⟨?_, fun hsmall => absurd h20 (Nat.not_lt_of_le hsmall)⟩
      change p.ApartUpTo p.max_files
      rwa [hmax]
    · rw [if_neg hre] at hplace
      have hsame : ∀ size, s.psp.ApartUpTo size → p.ApartUpTo size := by
        intro size hold k hk
        rw [hplace.1, hplace.2]
        exact hold k hk
      refine ⟨hsame _ fun k hk => ?_, fun hsmall => hsame 20 (ha.twenty (hle.trans hsmall))⟩
      change k < p.max_files at hk
      rw [hmax, Psp.newSize, if_neg hre] at hk
      by_cases h20 : n ≤ 20
      · exact ha.twenty (hle.trans h20) k (by omega)
      · refine ha.table k ?_
        rw [Psp.reallocates] at hre
        change k < s.psp.max_files
        omega

theorem Apart.run (hh : h.RefusesInvalid) {c c' : ℕ × State W F} (ha : Apart c)
    (hrun : Relation.ReflTransGen (GrowStep h) c c') : Apart c' := by
  induction hrun with
  | refl => exact ha
  | tail _ hs ih => exact ih.step hh hs

/-- **Growing the table keeps the open files exactly when it copies them**, after every sequence
of calls. -/
theorem growth_keeps_iff (hh : h.RefusesInvalid) {s₀ : State W F} {count : ℕ} {p : Psp}
    (h₀ : Apart (0, s₀)) (hrun : Relation.ReflTransGen (GrowStep h) (0, s₀) (count, s))
    (hset : s.psp.SetNumFiles n = .ok p) : Kept s p ↔ Copied s n :=
  kept_iff_copied (h₀.run hh hrun).table hset

/-- A process that has a file open at each of its twenty entries. -/
def twentyOpen : State Unit Unit where
  world := ()
  Files := fun handle =>
    if handle = 0 then some ⟨(), [0x41], OPEN_READ, 2, 20, []⟩ else none
  psp := ⟨fun _ => 0, 0, 20, 0xc800⟩
  errorcode := .NONE
  file_locking := false

theorem twentyOpen_apart : Apart (0, twentyOpen) := by
  have hlow : twentyOpen.psp.ApartUpTo 20 := by
    intro k hk
    left
    change 0 + k < 0xc800 * 16
    omega
  exact ⟨hlow, fun _ => hlow⟩

/-- The first growth keeps the twenty files. -/
theorem growth_keeps_iff_twentyOpen :
    ∃ p, twentyOpen.psp.SetNumFiles 40 = .ok p ∧ p.max_files = 42 ∧ Kept twentyOpen p := by
  obtain ⟨p, hset, hmax⟩ : ∃ p, twentyOpen.psp.SetNumFiles 40 = .ok p ∧ p.max_files = 42 :=
    ⟨_, rfl, rfl⟩
  refine ⟨p, hset, hmax, ?_⟩
  refine (growth_keeps_iff openHost_refusesInvalid twentyOpen_apart .refl hset).2
    ⟨fun i hi hdropped => ?_, fun hre => absurd (by decide) hre⟩
  have hsize : twentyOpen.psp.newSize 40 = 42 := rfl
  change i < 20 at hi
  rw [hsize] at hdropped
  omega

/-- The table grows to 42 entries, one more file is opened at the first new one, and the table
grows again: that file is lost. -/
theorem lost_by_second_growth : ∃ s p,
    Relation.ReflTransGen (GrowStep openHost) (0, twentyOpen) (40, s) ∧
      s.psp.SetNumFiles 60 = .ok p ∧ ¬ Kept s p := by
  refine ⟨_, _, (Relation.ReflTransGen.single (.setNumFiles (n := 40) (by decide) rfl)).tail
    (.call (.open [0x41] OPEN_READ) rfl), rfl, fun hkept => ?_⟩
  exact nomatch hkept.1 20 (by decide) _ rfl

end Files

end AugraDosbox
