import Mathlib.Data.List.Basic
import Mathlib.Tactic.Common
import AugraDosbox.Hardware.Pages

/-!
# The job file table of a process

`DOS_PSP::GetFileHandle`, `SetFileHandle`, `FindFreeFileEntry` and `SetNumFiles` of
`src/dos/dos_classes.cpp`.  The table is in guest memory, at the address and with the number of
entries that the PSP has; these two fields and the table do not overlap.

* `Psp.table` — the entries as a list, and what the functions do to it;
* `growLoop_spec` — what `SetNumFiles` copies into the new table.
-/

namespace AugraDosbox

/-- `DOS_FILES`: the slots of `Files`. -/
def DOS_FILES : ℕ := 255

def DOS_PRIVATE_SEGMENT_END : ℕ := 0xd000

/-- Guest memory with the PSP fields of the job file table, and where `DOS_GetMemory` goes on. -/
structure Psp where
  mem : ℕ → UInt8
  file_table : ℕ
  max_files : ℕ
  dos_memseg : ℕ

namespace Psp

def mem_writeb (p : Psp) (address : ℕ) (val : UInt8) : Psp :=
  { p with mem := Function.update p.mem address val }

@[simp] theorem mem_writeb_mem (p : Psp) (address : ℕ) (val : UInt8) :
    (p.mem_writeb address val).mem = Function.update p.mem address val := rfl

@[simp] theorem mem_writeb_file_table (p : Psp) (address : ℕ) (val : UInt8) :
    (p.mem_writeb address val).file_table = p.file_table := rfl

@[simp] theorem mem_writeb_max_files (p : Psp) (address : ℕ) (val : UInt8) :
    (p.mem_writeb address val).max_files = p.max_files := rfl

@[simp] theorem mem_writeb_dos_memseg (p : Psp) (address : ℕ) (val : UInt8) :
    (p.mem_writeb address val).dos_memseg = p.dos_memseg := rfl

def GetFileHandle (p : Psp) (index : ℕ) : UInt8 :=
  if p.max_files ≤ index then 0xff else p.mem (p.file_table + index)

def SetFileHandle (p : Psp) (index : ℕ) (handle : UInt8) : Psp :=
  if index < p.max_files then p.mem_writeb (p.file_table + index) handle else p

/-- The loop of `FindFreeFileEntry`, with `n` entries left to look at. -/
def findFreeLoop (mem : ℕ → UInt8) (files : ℕ) : ℕ → ℕ → ℕ
  | 0, _ => 0xff
  | n + 1, i => if mem (files + i) = 0xff then i else findFreeLoop mem files n (i + 1)

def FindFreeFileEntry (p : Psp) : ℕ := findFreeLoop p.mem p.file_table p.max_files 0

/-! ## More entries -/

def DOS_GetMemory (p : Psp) (pages : ℕ) : Except Fault (ℕ × Psp) :=
  if DOS_PRIVATE_SEGMENT_END ≤ pages + p.dos_memseg then .error .exit
  else .ok (p.dos_memseg, { p with dos_memseg := p.dos_memseg + pages })

/-- The loop of `SetNumFiles` that fills the new table, with `n` entries left. -/
def growLoop (data : ℕ) : ℕ → ℕ → Psp → Psp
  | 0, _, p => p
  | n + 1, i, p =>
      let handle := if i < 20 then p.GetFileHandle i else 0xff
      growLoop data n (i + 1) (p.mem_writeb (data + i) handle)

/-- `SetNumFiles`.  The numbers are 16-bit ones; the comparison is made with wider ones. -/
def SetNumFiles (p : Psp) (file_num : ℕ) : Except Fault Psp :=
  let file_num := if file_num < 20 then 20 else file_num
  if 20 < file_num ∧ p.max_files < file_num + 2 then do
    let file_num := (file_num + 2) % 2 ^ 16
    let para := file_num / 16 + (if 0 < file_num % 16 then 1 else 0)
    let (seg, p) ← p.DOS_GetMemory para
    let data := seg * 16
    .ok { growLoop data file_num 0 p with file_table := data, max_files := file_num }
  else .ok { p with max_files := file_num }

/-! ## The table as a list -/

/-- The entries of the job file table. -/
def table (p : Psp) : List UInt8 := (List.range p.max_files).map fun i => p.mem (p.file_table + i)

@[simp] theorem length_table (p : Psp) : p.table.length = p.max_files := by simp [table]

theorem getElem?_table (p : Psp) (i : ℕ) :
    p.table[i]? = if i < p.max_files then some (p.mem (p.file_table + i)) else none := by
  by_cases h : i < p.max_files
  · simp [table, h]
  · simp [table, h]

theorem GetFileHandle_eq (p : Psp) (index : ℕ) : p.GetFileHandle index = p.table[index]?.getD 0xff := by
  rw [GetFileHandle, getElem?_table]
  by_cases h : index < p.max_files
  · rw [if_neg (Nat.not_le_of_lt h), if_pos h]
    rfl
  · rw [if_pos (Nat.le_of_not_lt h), if_neg h]
    rfl

@[simp] theorem SetFileHandle_max_files (p : Psp) (index : ℕ) (handle : UInt8) :
    (p.SetFileHandle index handle).max_files = p.max_files := by
  rw [SetFileHandle]
  split_ifs <;> rfl

@[simp] theorem SetFileHandle_file_table (p : Psp) (index : ℕ) (handle : UInt8) :
    (p.SetFileHandle index handle).file_table = p.file_table := by
  rw [SetFileHandle]
  split_ifs <;> rfl

@[simp] theorem SetFileHandle_dos_memseg (p : Psp) (index : ℕ) (handle : UInt8) :
    (p.SetFileHandle index handle).dos_memseg = p.dos_memseg := by
  rw [SetFileHandle]
  split_ifs <;> rfl

/-- Setting an entry that is not there changes nothing. -/
theorem table_SetFileHandle (p : Psp) (index : ℕ) (handle : UInt8) :
    (p.SetFileHandle index handle).table = p.table.set index handle := by
  refine List.ext_getElem? fun i => ?_
  rw [List.getElem?_set, getElem?_table, getElem?_table, length_table, SetFileHandle_max_files,
    SetFileHandle_file_table, SetFileHandle]
  by_cases hi : index = i
  · rw [if_pos hi, ← hi]
    by_cases h : index < p.max_files
    · simp [h]
    · simp [h]
  · rw [if_neg hi]
    by_cases h : index < p.max_files
    · have hne : p.file_table + i ≠ p.file_table + index := by omega
      simp [h, Function.update_of_ne hne]
    · simp [h]

theorem findFreeLoop_spec (mem : ℕ → UInt8) (files n i : ℕ) :
    findFreeLoop mem files n i = 0xff ∨
      i ≤ findFreeLoop mem files n i ∧ findFreeLoop mem files n i < i + n ∧
        mem (files + findFreeLoop mem files n i) = 0xff := by
  induction n generalizing i with
  | zero => exact Or.inl rfl
  | succ n ih =>
    rw [findFreeLoop]
    split_ifs with hfree
    · exact Or.inr ⟨le_rfl, by omega, hfree⟩
    · rcases ih (i + 1) with h | ⟨hle, hlt, hfree⟩
      · exact Or.inl h
      · exact Or.inr ⟨by omega, by omega, hfree⟩

variable {p : Psp}

/-- **The entry that is found is one of the table and is free.** -/
theorem FindFreeFileEntry_spec (h : p.FindFreeFileEntry ≠ 0xff) :
    p.table[p.FindFreeFileEntry]? = some 0xff := by
  obtain ⟨-, hlt, hfree⟩ := (findFreeLoop_spec p.mem p.file_table p.max_files 0).resolve_left h
  rw [Nat.zero_add] at hlt
  rw [getElem?_table, FindFreeFileEntry, if_pos hlt]
  exact congrArg some hfree

/-- Taking a free entry and giving it back leaves the table as it was. -/
theorem SetFileHandle_back {index : ℕ} (handle : UInt8) (h : p.table[index]? = some 0xff) :
    (p.SetFileHandle index handle).SetFileHandle index 0xff = p := by
  rw [getElem?_table] at h
  split_ifs at h with hlt
  have hold : p.mem (p.file_table + index) = 0xff := Option.some.inj h
  have hmem : Function.update (Function.update p.mem (p.file_table + index) handle)
      (p.file_table + index) 0xff = p.mem := by
    rw [Function.update_idem, ← hold, Function.update_eq_self]
  rw [SetFileHandle, SetFileHandle_max_files, SetFileHandle_file_table, if_pos hlt, SetFileHandle,
    if_pos hlt, mem_writeb, mem_writeb_mem, hmem]
  rfl

/-! ## The new table -/

@[simp] theorem growLoop_dos_memseg (data n i : ℕ) (p : Psp) :
    (growLoop data n i p).dos_memseg = p.dos_memseg := by
  induction n generalizing i p with
  | zero => rfl
  | succ n ih => rw [growLoop, ih, mem_writeb_dos_memseg]

theorem growLoop_before {data n i a : ℕ} (h : a < data + i ∨ data + i + n ≤ a) :
    (growLoop data n i p).mem a = p.mem a := by
  induction n generalizing i p with
  | zero => rfl
  | succ n ih =>
    rw [growLoop, ih (by omega)]
    exact Function.update_of_ne (by omega) _ _

/-- A write apart from the table does not change its entries. -/
theorem GetFileHandle_mem_writeb {address index : ℕ} {val : UInt8}
    (h : ∀ k < p.max_files, p.file_table + k ≠ address) :
    (p.mem_writeb address val).GetFileHandle index = p.GetFileHandle index := by
  rw [GetFileHandle, GetFileHandle, mem_writeb_max_files]
  by_cases hmax : p.max_files ≤ index
  · rw [if_pos hmax, if_pos hmax]
  · rw [if_neg hmax, if_neg hmax]
    exact Function.update_of_ne (h index (by omega)) _ _

/-- **The new table has copies of the first twenty entries and nothing else**, when it does not
overlap the old one. -/
theorem growLoop_spec {data n i j : ℕ} (hi : i ≤ j) (hj : j < i + n)
    (hapart : ∀ k < p.max_files, p.file_table + k < data ∨ data + i + n ≤ p.file_table + k) :
    (growLoop data n i p).mem (data + j) = if j < 20 then p.GetFileHandle j else 0xff := by
  induction n generalizing i p with
  | zero => omega
  | succ n ih =>
    rw [growLoop]
    by_cases hij : i = j
    · rw [growLoop_before (by omega), hij]
      exact Function.update_self _ _ _
    · have hapart' : ∀ (val : UInt8), ∀ k < (p.mem_writeb (data + i) val).max_files,
          (p.mem_writeb (data + i) val).file_table + k < data ∨
            data + (i + 1) + n ≤ (p.mem_writeb (data + i) val).file_table + k := by
        intro val k hk
        exact (hapart k hk).imp id fun h => by
          rw [mem_writeb_file_table]
          omega
      have hkeep : ∀ val, (p.mem_writeb (data + i) val).GetFileHandle j = p.GetFileHandle j :=
        fun val => GetFileHandle_mem_writeb fun k hk => by
          have := hapart k hk
          omega
      rw [ih (by omega) (by omega) (hapart' _), hkeep]

end Psp

end AugraDosbox
