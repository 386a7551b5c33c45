import AugraDosbox.Dos.Fat

/-!
# The entries of the table

`getClusterValue` and `setClusterValue` against the table as it is on the disk.

* `tableByte`, `copyByte` — the bytes of the first copy of the table, and of the others;
* `InTable` — the entries that lie in the table;
* `Coherent` — the cached sectors are those on the disk, as far as they belong to the table;
* `readEntry_writeEntry` — FAT12 entries share bytes, but no bits;
* `getClusterValue_eq`, `setClusterValue_tableByte` — the cache is not seen, and the second
  sector is written whenever the entry reaches into it;
* **`set_then_get`** — after any calls, an entry that is set is read back, the others are as
  before, and the copies of the table stay alike.
-/

namespace AugraDosbox.Fat

open ByteMemory

namespace Volume

variable {v : Volume} {a b c x e i j k fc n : ℕ} {d : Drive} {m m' : Memory}

/-! ## The bits of an entry -/

/-- The width of an entry in bits. -/
def width (v : Volume) : ℕ :=
  match v.fattype with
  | .FAT12 => 12
  | .FAT16 => 16
  | .FAT32 => 32

/-- The bits between the byte at which an entry is read and the entry itself. -/
def lead (v : Volume) (c : ℕ) : ℕ :=
  match v.fattype with
  | .FAT12 => 4 * (c % 2)
  | _ => 0

/-- The number of bytes that are read for an entry. -/
def entryBytes (v : Volume) : ℕ :=
  match v.fattype with
  | .FAT12 | .FAT16 => 2
  | .FAT32 => 4

/-- The entry lies in the table. -/
def InTable (v : Volume) (c : ℕ) : Prop := v.width * (c + 1) ≤ 8 * (BytePerSector * v.sectorsperfat)

instance (v : Volume) (c : ℕ) : Decidable (v.InTable c) := by unfold InTable; infer_instance

theorem testBit_0xf000 (i : ℕ) : Nat.testBit 0xf000 i = (decide (12 ≤ i) && decide (i < 16)) := by
  rw [show 0xf000 = (2 ^ 4 - 1) <<< 12 from rfl, Nat.testBit_shiftLeft, Nat.testBit_two_pow_sub_one]
  by_cases h : 12 ≤ i <;> simp [h]
  omega

/-- **The bits of what is read.** -/
theorem testBit_readEntry : (v.readEntry c e m).testBit i
    = (decide (i < v.width) && bit m (8 * e + v.lead c + i)) := by
  unfold readEntry width lead
  cases v.fattype with
  | FAT12 =>
    have hparity : c &&& 0x1 = c % 2 := Nat.and_two_pow_sub_one_eq_mod c 1
    by_cases hodd : c % 2 = 1
    · simp only [hparity, hodd, ne_eq, one_ne_zero, not_false_eq_true, if_true,
        Nat.testBit_shiftRight, testBit_load]
      congr 1
      · exact decide_eq_decide.mpr (by omega)
      · congr 1
        omega
    · have heven : c % 2 = 0 := by omega
      have hmask : (0xfff : ℕ) = 2 ^ 12 - 1 := rfl
      simp only [hparity, heven, ne_eq, not_true_eq_false, if_false, hmask, Nat.testBit_and,
        testBit_load, Nat.testBit_two_pow_sub_one]
      by_cases hi : i < 12
      · simp [hi, show i < 16 by omega]
      · simp [hi]
  | FAT16 => simp only [testBit_load]; rfl
  | FAT32 => simp only [testBit_load]; rfl

/-- **The bits after an entry has been written.** -/
theorem bit_writeEntry : bit (v.writeEntry c e x m) k
    = if 8 * e + v.lead c ≤ k ∧ k < 8 * e + v.lead c + v.width
      then x.testBit (k - (8 * e + v.lead c)) else bit m k := by
  unfold writeEntry width lead
  cases v.fattype with
  | FAT12 =>
    have hparity : c &&& 0x1 = c % 2 := Nat.and_two_pow_sub_one_eq_mod c 1
    have hmask : (0xfff : ℕ) = 2 ^ 12 - 1 := rfl
    have hlow : (0xf : ℕ) = 2 ^ 4 - 1 := rfl
    by_cases hodd : c % 2 = 1
    · simp only [hparity, hodd, ne_eq, one_ne_zero, not_false_eq_true, if_true, bit_store]
      simp only [Nat.testBit_or, Nat.testBit_and, Nat.testBit_shiftLeft, hmask, hlow,
        Nat.testBit_two_pow_sub_one, testBit_load]
      by_cases hk : 8 * e ≤ k ∧ k < 8 * (e + 2)
      · rw [if_pos hk]
        by_cases hin : 8 * e + 4 * 1 ≤ k
        · rw [if_pos (by omega)]
          have h4 : ¬ k - 8 * e < 4 := by omega
          have h12 : k - 8 * e - 4 < 12 := by omega
          have hsub : k - 8 * e - 4 = k - (8 * e + 4 * 1) := by omega
          simp [h4, h12, ← hsub, show 4 ≤ k - 8 * e by omega]
        · rw [if_neg (by omega)]
          have h4 : ¬ 4 ≤ k - 8 * e := by omega
          simp [h4, show k - 8 * e < 4 by omega, show k - 8 * e < 16 by omega,
            show 8 * e + (k - 8 * e) = k by omega]
      · rw [if_neg hk, if_neg (by omega)]
    · have heven : c % 2 = 0 := by omega
      simp only [hparity, heven, ne_eq, not_true_eq_false, if_false, bit_store]
      simp only [Nat.testBit_or, Nat.testBit_and, hmask, testBit_0xf000,
        Nat.testBit_two_pow_sub_one, testBit_load]
      by_cases hk : 8 * e ≤ k ∧ k < 8 * (e + 2)
      · rw [if_pos hk]
        by_cases hin : k < 8 * e + 12
        · rw [if_pos (by omega)]
          simp [show ¬ 12 ≤ k - 8 * e by omega, show k - 8 * e < 12 by omega]
        · rw [if_neg (by omega)]
          simp [show 12 ≤ k - 8 * e by omega, show k - 8 * e < 16 by omega,
            show ¬ k - 8 * e < 12 by omega, show 8 * e + (k - 8 * e) = k by omega]
      · rw [if_neg hk, if_neg (by omega)]
  | FAT16 => rw [bit_store]; rfl
  | FAT32 => rw [bit_store]; rfl

theorem width_pos : 0 < v.width := by
  unfold width
  cases v.fattype <;> decide

/-- The entry of a cluster is at the bits that belong to its number. -/
theorem eight_mul_fatoffset (h : v.InTable c) : 8 * v.fatoffset c + v.lead c = v.width * c := by
  have hspf := v.sectorsperfat_lt
  unfold InTable BytePerSector width at h
  unfold fatoffset lead width
  cases hf : v.fattype with
  | FAT12 =>
    simp only [hf] at h
    have hwrap : u32 (c + c / 2) = c + c / 2 := u32_of_lt (by omega)
    show 8 * u32 (c + c / 2) + 4 * (c % 2) = 12 * c
    omega
  | FAT16 =>
    simp only [hf] at h
    have hwrap : u32 (c * 2) = c * 2 := u32_of_lt (by omega)
    show 8 * u32 (c * 2) + 0 = 16 * c
    omega
  | FAT32 =>
    simp only [hf] at h
    have hwrap : u32 (c * 4) = c * 4 := u32_of_lt (by omega)
    show 8 * u32 (c * 4) + 0 = 32 * c
    omega

/-- **The packed entries are independent**: an entry that is written is read back, and the
others are as before. -/
theorem readEntry_writeEntry (ha : v.InTable a) (hb : v.InTable b) :
    v.readEntry b (v.fatoffset b) (v.writeEntry a (v.fatoffset a) x m)
      = if b = a then x % 2 ^ v.width else v.readEntry b (v.fatoffset b) m := by
  have hba := eight_mul_fatoffset ha
  have hbb := eight_mul_fatoffset hb
  refine Nat.eq_of_testBit_eq fun i => ?_
  rw [testBit_readEntry, bit_writeEntry, hba, hbb]
  by_cases hab : b = a
  · subst hab
    rw [if_pos rfl, Nat.testBit_mod_two_pow]
    by_cases hi : i < v.width
    · rw [if_pos (by omega)]
      simp [hi]
    · simp [hi]
  · rw [if_neg hab, testBit_readEntry, hbb]
    by_cases hi : i < v.width
    · -- The bits of the two entries do not overlap.
      have hother : ¬ (v.width * a ≤ v.width * b + i ∧ v.width * b + i < v.width * a + v.width) := by
        rcases Nat.lt_or_gt_of_ne hab with hlt | hlt
        · have hmul : v.width * (b + 1) ≤ v.width * a := Nat.mul_le_mul_left _ hlt
          rw [Nat.mul_add, Nat.mul_one] at hmul
          omega
        · have hmul : v.width * (a + 1) ≤ v.width * b := Nat.mul_le_mul_left _ hlt
          rw [Nat.mul_add, Nat.mul_one] at hmul
          omega
      rw [if_neg hother]
    · simp [hi]

/-! ## The bytes of an entry -/

theorem readEntry_shift (s : ℕ) (h : ∀ k, e ≤ k → k < e + v.entryBytes → m k = m' (s + k)) :
    v.readEntry c e m = v.readEntry c (s + e) m' := by
  unfold entryBytes at h
  unfold readEntry
  cases hf : v.fattype with
  | FAT12 =>
    simp only [hf] at h ⊢
    rw [load_shift s h]
  | FAT16 =>
    simp only [hf] at h ⊢
    rw [load_shift s h]
  | FAT32 =>
    simp only [hf] at h ⊢
    rw [load_shift s h]

theorem readEntry_congr (h : ∀ k, e ≤ k → k < e + v.entryBytes → m k = m' k) :
    v.readEntry c e m = v.readEntry c e m' := by
  have hshift : v.readEntry c e m = v.readEntry c (0 + e) m' :=
    readEntry_shift 0 fun k hk hk' => by rw [h k hk hk', Nat.zero_add]
  rwa [Nat.zero_add] at hshift

theorem writeEntry_shift (s : ℕ) (h : ∀ k, e ≤ k → k < e + v.entryBytes → m k = m' (s + k))
    (hk : m k = m' (s + k)) : v.writeEntry c e x m k = v.writeEntry c (s + e) x m' (s + k) := by
  unfold entryBytes at h
  unfold writeEntry
  cases hf : v.fattype with
  | FAT12 =>
    simp only [hf] at h ⊢
    rw [load_shift s h]
    by_cases hodd : c &&& 0x1 ≠ 0
    · rw [if_pos hodd, if_pos hodd]
      exact store_shift s hk
    · rw [if_neg hodd, if_neg hodd]
      exact store_shift s hk
  | FAT16 => exact store_shift s hk
  | FAT32 => exact store_shift s hk

theorem writeEntry_of_not_mem (h : k < e ∨ e + v.entryBytes ≤ k) :
    v.writeEntry c e x m k = m k := by
  unfold entryBytes at h
  unfold writeEntry
  cases hf : v.fattype with
  | FAT12 =>
    simp only [hf] at h ⊢
    by_cases hodd : c &&& 0x1 ≠ 0
    · rw [if_pos hodd]
      exact store_of_not_mem h
    · rw [if_neg hodd]
      exact store_of_not_mem h
  | FAT16 =>
    simp only [hf] at h
    exact store_of_not_mem h
  | FAT32 =>
    simp only [hf] at h
    exact store_of_not_mem h

/-- The bytes of an entry in the table are in the table. -/
theorem InTable.bytes_le (h : v.InTable c) :
    v.fatoffset c + v.entryBytes ≤ BytePerSector * v.sectorsperfat := by
  have hoff := eight_mul_fatoffset h
  have htable : v.width * (c + 1) ≤ 8 * (BytePerSector * v.sectorsperfat) := h
  rw [Nat.mul_add, Nat.mul_one, ← hoff] at htable
  unfold width lead entryBytes at *
  cases hf : v.fattype with
  | FAT12 =>
    simp only [hf] at htable ⊢
    omega
  | FAT16 =>
    simp only [hf] at htable ⊢
    omega
  | FAT32 =>
    simp only [hf] at htable ⊢
    omega

/-! ## Where the table is -/

/-- The sector with the number `i` of the table; those of the further copies follow. -/
def fatSector (v : Volume) (i : ℕ) : ℕ := u32 (v.reservedsectors + i + v.partSectOff.toNat)

theorem fatSector_inj (hi : i < 2 ^ 32) (hj : j < 2 ^ 32) :
    v.fatSector i = v.fatSector j ↔ i = j := by
  unfold fatSector u32
  omega

theorem u32_fatSector_add : u32 (v.fatSector i + n) = v.fatSector (i + n) := by
  unfold fatSector u32
  omega

theorem fatsectnum_eq : v.fatsectnum c = v.fatSector (c / BytePerSector) := rfl

/-- The number of a sector of a copy of the table. -/
theorem copyIndex_lt (hfc : fc < 2 ^ 8) (hj : j < v.sectorsperfat) :
    fc * v.sectorsperfat + j < 2 ^ 24 := by
  have hspf := v.sectorsperfat_lt
  have hmul : fc * v.sectorsperfat + j < (fc + 1) * v.sectorsperfat := by
    rw [Nat.add_mul, Nat.one_mul]
    omega
  have hle : (fc + 1) * v.sectorsperfat ≤ 2 ^ 8 * 2 ^ 16 :=
    Nat.mul_le_mul (by omega) (by omega)
  omega

theorem copyIndex_inj {s fc' j' : ℕ} (hj : j < s) (hj' : j' < s) :
    fc * s + j = fc' * s + j' ↔ fc = fc' ∧ j = j' := by
  constructor
  · intro h
    have hdiv : (fc * s + j) / s = (fc' * s + j') / s := by rw [h]
    rw [Nat.mul_comm, Nat.mul_add_div (by omega), Nat.div_eq_of_lt hj, Nat.mul_comm fc',
      Nat.mul_add_div (by omega), Nat.div_eq_of_lt hj'] at hdiv
    have hfc : fc = fc' := by omega
    subst hfc
    exact ⟨rfl, by omega⟩
  · rintro ⟨rfl, rfl⟩
    rfl

/-- A byte of the copy `fc` of the table. -/
def copyByte (v : Volume) (fc : ℕ) (disk : Disk) : Memory := fun o =>
  disk (v.fatSector (fc * v.sectorsperfat + o / BytePerSector)) (o % BytePerSector)

/-- A byte of the first copy of the table, the one that is read. -/
def tableByte (v : Volume) (disk : Disk) : Memory := fun o =>
  disk (v.fatSector (o / BytePerSector)) (o % BytePerSector)

theorem copyByte_zero (disk : Disk) : v.copyByte 0 disk = v.tableByte disk := by
  unfold copyByte tableByte
  simp

/-- The value of an entry on the disk. -/
def fatValue (v : Volume) (disk : Disk) (c : ℕ) : ℕ :=
  v.readEntry c (v.fatoffset c) (v.tableByte disk)

/-- The bytes that the buffer holds. -/
def cached (v : Volume) : ℕ := if v.fattype = .FAT12 then 2 * BytePerSector else BytePerSector

/-- The buffer agrees with the disk, as far as it holds parts of the first `n` sectors from
the beginning of the table on. -/
def CoherentTo (v : Volume) (n : ℕ) (d : Drive) : Prop :=
  ∀ i < n, d.curFatSect = v.fatSector i → ∀ k < v.cached,
    BytePerSector * i + k < BytePerSector * n →
      d.fatSectBuffer k = v.tableByte d.disk (BytePerSector * i + k)

/-- The buffer agrees with the disk, as far as it holds parts of the table. -/
abbrev Coherent (v : Volume) (d : Drive) : Prop := v.CoherentTo v.sectorsperfat d

theorem entryBytes_le_cached : v.fatoffset c % BytePerSector + v.entryBytes ≤ v.cached := by
  unfold fatoffset entryBytes cached u32 BytePerSector
  cases hf : v.fattype with
  | FAT12 =>
    simp only [if_true]
    omega
  | FAT16 =>
    simp only [reduceCtorEq, if_false]
    omega
  | FAT32 =>
    simp only [reduceCtorEq, if_false]
    omega

/-! ## The cache -/

@[simp] theorem loadFatSect_disk : (v.loadFatSect n d).disk = d.disk := by
  unfold loadFatSect
  split_ifs <;> rfl

@[simp] theorem loadFatSect_curFatSect : (v.loadFatSect n d).curFatSect = n := by
  unfold loadFatSect
  by_cases h : d.curFatSect ≠ n
  · rw [if_pos h]
  · rw [if_neg h]
    exact not_not.mp h

/-- Two sectors that follow each other, as bytes of the table. -/
theorem pair_eq_tableByte {disk : Disk} {buffer : Memory} (hk : k < v.cached) :
    (if k < BytePerSector then disk (v.fatSector i) k
      else if v.fattype = .FAT12 then disk (v.fatSector (i + 1)) (k - BytePerSector)
      else buffer k) = v.tableByte disk (BytePerSector * i + k) := by
  unfold tableByte cached BytePerSector at *
  by_cases hfirst : k < 512
  · rw [if_pos hfirst, show (512 * i + k) / 512 = i by omega,
      show (512 * i + k) % 512 = k by omega]
  · by_cases hf : v.fattype = .FAT12
    · rw [if_pos hf] at hk
      rw [if_neg hfirst, if_pos hf, show (512 * i + k) / 512 = i + 1 by omega,
        show (512 * i + k) % 512 = k - 512 by omega]
    · rw [if_neg hf] at hk
      omega

/-- After the load the buffer holds a sector of the table and, for FAT12, the next one. -/
theorem loadFatSect_buffer (hd : v.CoherentTo n d) (hi : i < n) (hk : k < v.cached)
    (hin : BytePerSector * i + k < BytePerSector * n) :
    (v.loadFatSect (v.fatSector i) d).fatSectBuffer k
      = v.tableByte d.disk (BytePerSector * i + k) := by
  by_cases hcur : d.curFatSect ≠ v.fatSector i
  · simp only [loadFatSect, if_pos hcur, Drive.readSector, u32_fatSector_add]
    exact pair_eq_tableByte hk
  · simp only [loadFatSect, if_neg hcur]
    exact hd i hi (not_not.mp hcur) k hk hin

/-- A load never spoils the cache. -/
theorem loadFatSect_coherent (hd : v.CoherentTo n d) :
    v.CoherentTo n (v.loadFatSect x d) := by
  by_cases hcur : d.curFatSect ≠ x
  · intro j hj hx k hk hin
    rw [loadFatSect_curFatSect] at hx
    subst hx
    rw [loadFatSect_disk]
    simp only [loadFatSect, if_pos hcur, Drive.readSector, u32_fatSector_add]
    exact pair_eq_tableByte hk
  · simp only [loadFatSect, if_neg hcur]
    exact hd

theorem entryBytes_pos : 0 < v.entryBytes := by
  unfold entryBytes
  cases v.fattype <;> decide

@[simp] theorem getClusterValue_disk : (v.getClusterValue c d).2.disk = d.disk :=
  loadFatSect_disk

theorem getClusterValue_coherent (hd : v.CoherentTo n d) :
    v.CoherentTo n (v.getClusterValue c d).2 :=
  loadFatSect_coherent hd

/-- **Reading the table**: the value is the one on the disk, whatever is cached. -/
theorem getClusterValue_eq (hd : v.CoherentTo n d)
    (hc : v.fatoffset c + v.entryBytes ≤ BytePerSector * n) :
    (v.getClusterValue c d).1 = v.fatValue d.disk c := by
  have hcached := entryBytes_le_cached (v := v) (c := c)
  have hpos := entryBytes_pos (v := v)
  have hi : v.fatoffset c / BytePerSector < n := Nat.div_lt_of_lt_mul (by omega)
  show v.readEntry c (v.fatoffset c % BytePerSector)
      (v.loadFatSect (v.fatSector (v.fatoffset c / BytePerSector)) d).fatSectBuffer = _
  have hsplit := Nat.div_add_mod (v.fatoffset c) BytePerSector
  rw [fatValue, readEntry_shift (BytePerSector * (v.fatoffset c / BytePerSector))
    fun k hk hk' => loadFatSect_buffer hd hi (by omega) (by omega), hsplit]

theorem sectorsperfat_le : v.sectorsperfat ≤ 2 ^ 24 := by
  have h := v.sectorsperfat_lt
  omega

/-- An entry of the table is read as it is on the disk. -/
theorem getClusterValue_of_inTable (hd : v.Coherent d) (hc : v.InTable c) :
    (v.getClusterValue c d).1 = v.fatValue d.disk c :=
  getClusterValue_eq hd hc.bytes_le

/-! ## Writing the copies -/

/-- The entry at the offset `e` of a sector reaches into the next one. -/
def Straddles (v : Volume) (e : ℕ) : Prop := v.fattype = .FAT12 ∧ 511 ≤ e

instance (v : Volume) (e : ℕ) : Decidable (v.Straddles e) := by unfold Straddles; infer_instance

@[simp] theorem writeCopy_buffer :
    (v.writeCopy n e fc d).fatSectBuffer = d.fatSectBuffer := by
  simp only [writeCopy]
  split_ifs <;> rfl

@[simp] theorem writeCopies_buffer :
    (v.writeCopies n e fc d).fatSectBuffer = d.fatSectBuffer := by
  induction fc with
  | zero => rfl
  | succ fc ih => rw [writeCopies, writeCopy_buffer, ih]

@[simp] theorem writeCopy_curFatSect : (v.writeCopy n e fc d).curFatSect = d.curFatSect := by
  simp only [writeCopy]
  split_ifs <;> rfl

@[simp] theorem writeCopies_curFatSect : (v.writeCopies n e fc d).curFatSect = d.curFatSect := by
  induction fc with
  | zero => rfl
  | succ fc ih => rw [writeCopies, writeCopy_curFatSect, ih]

/-- What is written to the copy `fc`, sector by sector. -/
theorem writeCopy_disk : (v.writeCopy (v.fatSector i) e fc d).disk n
    = if v.Straddles e ∧ n = v.fatSector (fc * v.sectorsperfat + (i + 1)) then
        fun k => d.fatSectBuffer (BytePerSector + k)
      else if n = v.fatSector (fc * v.sectorsperfat + i) then d.fatSectBuffer
      else d.disk n := by
  have hfirst : u32 (v.fatSector i + fc * v.sectorsperfat)
      = v.fatSector (fc * v.sectorsperfat + i) := by
    rw [u32_fatSector_add, Nat.add_comm i]
  have hsecond : u32 (v.fatSector i + 1 + fc * v.sectorsperfat)
      = v.fatSector (fc * v.sectorsperfat + (i + 1)) := by
    rw [Nat.add_assoc, u32_fatSector_add]
    congr 1
    omega
  simp only [writeCopy, hfirst, hsecond]
  by_cases hs : v.Straddles e
  · rw [if_pos (show v.fattype = .FAT12 ∧ 511 ≤ e from hs)]
    simp [Drive.writeSector, hs, Function.update_apply]
  · rw [if_neg (show ¬ (v.fattype = .FAT12 ∧ 511 ≤ e) from hs)]
    simp [Drive.writeSector, hs, Function.update_apply]

/-- **The copies after the loop over the first `n` of them.**  Sectors of the table are
written to all of these copies alike. -/
theorem writeCopies_disk (hi : i < v.sectorsperfat)
    (hs : v.Straddles e → i + 1 < v.sectorsperfat) (hj : j < v.sectorsperfat)
    (hfc : fc < 2 ^ 8) (hn : n ≤ 2 ^ 8) :
    (v.writeCopies (v.fatSector i) e n d).disk (v.fatSector (fc * v.sectorsperfat + j))
      = if fc < n ∧ v.Straddles e ∧ j = i + 1 then
          fun k => d.fatSectBuffer (BytePerSector + k)
        else if fc < n ∧ j = i then d.fatSectBuffer
        else d.disk (v.fatSector (fc * v.sectorsperfat + j)) := by
  induction n with
  | zero => simp [writeCopies]
  | succ n ih =>
    have hindex (j' : ℕ) (hj' : j' < v.sectorsperfat) :
        v.fatSector (fc * v.sectorsperfat + j) = v.fatSector (n * v.sectorsperfat + j')
          ↔ fc = n ∧ j = j' := by
      have h₁ : fc * v.sectorsperfat + j < 2 ^ 24 := copyIndex_lt hfc hj
      have h₂ : n * v.sectorsperfat + j' < 2 ^ 24 := copyIndex_lt (by omega) hj'
      rw [fatSector_inj (by omega) (by omega), copyIndex_inj hj hj']
    have hsecond : v.Straddles e ∧
        v.fatSector (fc * v.sectorsperfat + j) = v.fatSector (n * v.sectorsperfat + (i + 1))
          ↔ fc = n ∧ v.Straddles e ∧ j = i + 1 := by
      constructor
      · rintro ⟨hstr, h⟩
        obtain ⟨hfcn, hji⟩ := (hindex _ (hs hstr)).mp h
        exact ⟨hfcn, hstr, hji⟩
      · rintro ⟨hfcn, hstr, hji⟩
        exact ⟨hstr, (hindex _ (hs hstr)).mpr ⟨hfcn, hji⟩⟩
    rw [writeCopies, writeCopy_disk, writeCopies_buffer, ih (by omega)]
    simp only [hsecond, hindex i hi]
    by_cases hfcn : fc = n
    · subst hfcn
      simp
    · have hlt : fc < n + 1 ↔ fc < n := by omega
      simp [hfcn, hlt]

theorem writeCopies_disk_of_ne
    (h : ∀ fc < n, v.fatSector (fc * v.sectorsperfat + i) ≠ x ∧
      (v.Straddles e → v.fatSector (fc * v.sectorsperfat + (i + 1)) ≠ x)) :
    (v.writeCopies (v.fatSector i) e n d).disk x = d.disk x := by
  induction n with
  | zero => rfl
  | succ n ih =>
    obtain ⟨hfirst, hsecond⟩ := h n (by omega)
    rw [writeCopies, writeCopy_disk, ih fun fc hfc => h fc (by omega), if_neg, if_neg]
    · exact fun h' => hfirst h'.symm
    · exact fun h' => hsecond h'.1 h'.2.symm

/-! ## Setting an entry -/

theorem InTable.sector_lt (hc : v.InTable c) :
    v.fatoffset c / BytePerSector < v.sectorsperfat := by
  have hbytes := hc.bytes_le
  have hpos := entryBytes_pos (v := v)
  exact Nat.div_lt_of_lt_mul (by omega)

/-- An entry of the table that reaches into the next sector reaches into one of the table. -/
theorem InTable.next_lt (hc : v.InTable c) (hs : v.Straddles (v.fatoffset c % BytePerSector)) :
    v.fatoffset c / BytePerSector + 1 < v.sectorsperfat := by
  have hbytes := hc.bytes_le
  obtain ⟨hf, hoff⟩ := hs
  simp only [entryBytes, hf] at hbytes
  unfold BytePerSector at *
  omega

/-- The buffer after the entry has been changed in it. -/
theorem patched_buffer (hd : v.Coherent d) (hc : v.InTable c) (hk : k < v.cached)
    (hin : BytePerSector * (v.fatoffset c / BytePerSector) + k
      < BytePerSector * v.sectorsperfat) :
    v.writeEntry c (v.fatoffset c % BytePerSector) x
        (v.loadFatSect (v.fatSector (v.fatoffset c / BytePerSector)) d).fatSectBuffer k
      = v.writeEntry c (v.fatoffset c) x (v.tableByte d.disk)
          (BytePerSector * (v.fatoffset c / BytePerSector) + k) := by
  have hbytes := hc.bytes_le
  have hcached := entryBytes_le_cached (v := v) (c := c)
  have hsplit := Nat.div_add_mod (v.fatoffset c) BytePerSector
  rw [writeEntry_shift (BytePerSector * (v.fatoffset c / BytePerSector))
    (fun k hk hk' => loadFatSect_buffer hd hc.sector_lt (by omega) (by omega))
    (loadFatSect_buffer hd hc.sector_lt hk hin), hsplit]

/-- The bytes of the copies after an entry has been set: the sectors it is in are those of the
first copy, with the entry changed. -/
theorem setClusterValue_copyByte (hd : v.Coherent d) (hc : v.InTable c) (hfc : fc < v.fatcopies)
    (hk : k < BytePerSector * v.sectorsperfat) :
    v.copyByte fc (v.setClusterValue c x d).disk k
      = if k / BytePerSector = v.fatoffset c / BytePerSector ∨
            v.Straddles (v.fatoffset c % BytePerSector) ∧
              k / BytePerSector = v.fatoffset c / BytePerSector + 1 then
          v.writeEntry c (v.fatoffset c) x (v.tableByte d.disk) k
        else v.copyByte fc d.disk k := by
  have hcopies := v.fatcopies_lt
  have hsplit := Nat.div_add_mod k BytePerSector
  have hmod : k % BytePerSector < BytePerSector := Nat.mod_lt _ (by decide)
  have hj : k / BytePerSector < v.sectorsperfat := Nat.div_lt_of_lt_mul hk
  have hcached : BytePerSector ≤ v.cached := by
    unfold cached BytePerSector
    split_ifs <;> omega
  unfold copyByte
  simp only [setClusterValue, fatsectnum_eq]
  rw [writeCopies_disk hc.sector_lt hc.next_lt hj (by omega) (by omega), loadFatSect_disk]
  by_cases hstr : v.Straddles (v.fatoffset c % BytePerSector)
  · have hcached' : v.cached = 2 * BytePerSector := if_pos hstr.1
    by_cases hsecond : k / BytePerSector = v.fatoffset c / BytePerSector + 1
    · have hsum : BytePerSector * (v.fatoffset c / BytePerSector)
          + (BytePerSector + k % BytePerSector) = k := by
        rw [← hsplit, hsecond, Nat.mul_add, Nat.mul_one]
        unfold BytePerSector
        omega
      rw [if_pos ⟨hfc, hstr, hsecond⟩, if_pos (.inr ⟨hstr, hsecond⟩)]
      show v.writeEntry c _ x _ (BytePerSector + k % BytePerSector) = _
      rw [patched_buffer hd hc (by omega) (by omega), hsum]
    · by_cases hfirst : k / BytePerSector = v.fatoffset c / BytePerSector
      · have hsum : BytePerSector * (v.fatoffset c / BytePerSector) + k % BytePerSector = k := by
          rw [← hfirst, hsplit]
        rw [if_neg fun h => hsecond h.2.2, if_pos ⟨hfc, hfirst⟩, if_pos (.inl hfirst)]
        show v.writeEntry c _ x _ (k % BytePerSector) = _
        rw [patched_buffer hd hc (by omega) (by omega), hsum]
      · rw [if_neg fun h => hsecond h.2.2, if_neg fun h => hfirst h.2,
          if_neg fun h => h.elim hfirst fun h => hsecond h.2]
  · by_cases hfirst : k / BytePerSector = v.fatoffset c / BytePerSector
    · have hsum : BytePerSector * (v.fatoffset c / BytePerSector) + k % BytePerSector = k := by
        rw [← hfirst, hsplit]
      rw [if_neg fun h => hstr h.2.1, if_pos ⟨hfc, hfirst⟩, if_pos (.inl hfirst)]
      show v.writeEntry c _ x _ (k % BytePerSector) = _
      rw [patched_buffer hd hc (by omega) (by omega), hsum]
    · rw [if_neg fun h => hstr h.2.1, if_neg fun h => hfirst h.2,
        if_neg fun h => h.elim hfirst fun h => hstr h.1]

/-- A byte outside the written sectors is not a byte of the entry. -/
theorem writeEntry_of_not_written
    (h : ¬ (k / BytePerSector = v.fatoffset c / BytePerSector ∨
      v.Straddles (v.fatoffset c % BytePerSector) ∧
        k / BytePerSector = v.fatoffset c / BytePerSector + 1)) :
    v.writeEntry c (v.fatoffset c) x m k = m k := by
  obtain ⟨hfirst, hsecond⟩ := not_or.mp h
  refine writeEntry_of_not_mem (Decidable.byContradiction fun hin => ?_)
  have hoff : v.fatoffset c % BytePerSector + v.entryBytes ≤ v.cached := entryBytes_le_cached
  unfold cached BytePerSector at *
  by_cases hf : v.fattype = .FAT12
  · have hbytes : v.entryBytes = 2 := by simp [entryBytes, hf]
    refine hsecond ⟨⟨hf, ?_⟩, ?_⟩ <;> omega
  · rw [if_neg hf] at hoff
    omega

/-- **Writing the table**: the first copy is the packed table with the entry changed. -/
theorem setClusterValue_tableByte (hd : v.Coherent d) (hc : v.InTable c)
    (hk : k < BytePerSector * v.sectorsperfat) :
    v.tableByte (v.setClusterValue c x d).disk k
      = v.writeEntry c (v.fatoffset c) x (v.tableByte d.disk) k := by
  rw [← copyByte_zero, setClusterValue_copyByte hd hc v.fatcopies_pos hk]
  by_cases h : k / BytePerSector = v.fatoffset c / BytePerSector ∨
      v.Straddles (v.fatoffset c % BytePerSector) ∧
        k / BytePerSector = v.fatoffset c / BytePerSector + 1
  · rw [if_pos h]
  · rw [if_neg h, copyByte_zero, writeEntry_of_not_written h]

theorem setClusterValue_coherent (hd : v.Coherent d) (hc : v.InTable c) :
    v.Coherent (v.setClusterValue c x d) := by
  have hspf := v.sectorsperfat_lt
  intro j hj hcur k hk hin
  rw [setClusterValue_tableByte hd hc hin]
  simp only [setClusterValue, fatsectnum_eq, writeCopies_curFatSect, loadFatSect_curFatSect]
    at hcur
  have hsector := hc.sector_lt
  rw [fatSector_inj (by omega) (by omega)] at hcur
  subst hcur
  simp only [setClusterValue, fatsectnum_eq, writeCopies_buffer]
  exact patched_buffer hd hc hk hin

/-- **Setting an entry of the table changes its value and no other.** -/
theorem fatValue_setClusterValue (hd : v.Coherent d) (ha : v.InTable a) (hb : v.InTable b) :
    v.fatValue (v.setClusterValue a x d).disk b
      = if b = a then x % 2 ^ v.width else v.fatValue d.disk b := by
  have hbytes := hb.bytes_le
  rw [fatValue, fatValue, ← readEntry_writeEntry ha hb]
  exact readEntry_congr fun k hk hk' => setClusterValue_tableByte hd ha (by omega)

/-- All copies of the table are the same. -/
def CopiesAgree (v : Volume) (disk : Disk) : Prop :=
  ∀ fc < v.fatcopies, ∀ k < BytePerSector * v.sectorsperfat,
    v.copyByte fc disk k = v.tableByte disk k

theorem setClusterValue_copiesAgree (hd : v.Coherent d) (hc : v.InTable c)
    (h : v.CopiesAgree d.disk) : v.CopiesAgree (v.setClusterValue c x d).disk := by
  intro fc hfc k hk
  rw [setClusterValue_copyByte hd hc hfc hk, setClusterValue_tableByte hd hc hk]
  by_cases hw : k / BytePerSector = v.fatoffset c / BytePerSector ∨
      v.Straddles (v.fatoffset c % BytePerSector) ∧
        k / BytePerSector = v.fatoffset c / BytePerSector + 1
  · rw [if_pos hw]
  · rw [if_neg hw, h fc hfc k hk, writeEntry_of_not_written hw]

/-! ## Runs -/

/-- A call that reads or sets an entry. -/
inductive TableCall where
  | getClusterValue (clustNum : ℕ)
  | setClusterValue (clustNum clustValue : ℕ)
deriving DecidableEq, Repr

def TableCall.clustNum : TableCall → ℕ
  | .getClusterValue c => c
  | .setClusterValue c _ => c

def call (v : Volume) (d : Drive) : TableCall → Drive
  | .getClusterValue c => (v.getClusterValue c d).2
  | .setClusterValue c x => v.setClusterValue c x d

theorem call_coherent {t : TableCall} (hd : v.Coherent d) (ht : v.InTable t.clustNum) :
    v.Coherent (v.call d t) := by
  cases t with
  | getClusterValue c => exact getClusterValue_coherent hd
  | setClusterValue c x => exact setClusterValue_coherent hd ht

theorem call_copiesAgree {t : TableCall} (hd : v.Coherent d) (ht : v.InTable t.clustNum)
    (h : v.CopiesAgree d.disk) : v.CopiesAgree (v.call d t).disk := by
  cases t with
  | getClusterValue c => rwa [call, getClusterValue_disk]
  | setClusterValue c x => exact setClusterValue_copiesAgree hd ht h

theorem calls_coherent {calls : List TableCall} (hd : v.Coherent d)
    (hcalls : ∀ t ∈ calls, v.InTable t.clustNum) : v.Coherent (calls.foldl v.call d) := by
  induction calls generalizing d with
  | nil => exact hd
  | cons t calls ih =>
    exact ih (call_coherent hd (hcalls t (by simp))) fun t' ht' => hcalls t' (by simp [ht'])

theorem calls_copiesAgree {calls : List TableCall} (hd : v.Coherent d)
    (hcalls : ∀ t ∈ calls, v.InTable t.clustNum) (h : v.CopiesAgree d.disk) :
    v.CopiesAgree (calls.foldl v.call d).disk := by
  induction calls generalizing d with
  | nil => exact h
  | cons t calls ih =>
    exact ih (call_coherent hd (hcalls t (by simp))) (fun t' ht' => hcalls t' (by simp [ht']))
      (call_copiesAgree hd (hcalls t (by simp)) h)

/-- A drive that has just been mounted caches no sector of the table, unless the table
reaches the last of all sector numbers. -/
theorem mounted_coherent (disk : Disk)
    (h : v.reservedsectors + v.sectorsperfat + v.partSectOff.toNat < 2 ^ 32) :
    v.Coherent (Drive.mounted disk) := by
  intro i hi hcur
  have hno : v.fatSector i ≠ 0xffffffff := by
    unfold fatSector u32
    omega
  exact absurd hcur.symm hno

/-- **The table behaves like an array of entries.**  Whatever is cached, and after any calls
for entries of the table: an entry that is set is read back, cut to its width, each other
entry is read as before; and copies of the table that were the same stay the same. -/
theorem set_then_get (v : Volume) (d : Drive) (calls : List TableCall) (hd : v.Coherent d)
    (hcalls : ∀ t ∈ calls, v.InTable t.clustNum) :
    (∀ a b x, v.InTable a → v.InTable b →
      (v.getClusterValue b (v.setClusterValue a x (calls.foldl v.call d))).1
        = if b = a then x % 2 ^ v.width
          else (v.getClusterValue b (calls.foldl v.call d)).1) ∧
    (v.CopiesAgree d.disk → v.CopiesAgree (calls.foldl v.call d).disk) := by
  have hrun := calls_coherent hd hcalls
  refine ⟨fun a b x ha hb => ?_, calls_copiesAgree hd hcalls⟩
  rw [getClusterValue_of_inTable (setClusterValue_coherent hrun ha) hb,
    fatValue_setClusterValue hrun ha hb, getClusterValue_of_inTable hrun hb]

/-- On a floppy of 1440 kB: entry 341 lies in two sectors and shares a byte with entry 340. -/
theorem set_then_get_floppy :
    (∀ a b x, floppy1440.InTable a → floppy1440.InTable b →
      (floppy1440.getClusterValue b (floppy1440.setClusterValue a x
          ([.setClusterValue 340 0xabc, .setClusterValue 341 0x123].foldl floppy1440.call
            (Drive.mounted fun _ _ => 0)))).1
        = if b = a then x % 2 ^ floppy1440.width
          else (floppy1440.getClusterValue b
            ([.setClusterValue 340 0xabc, .setClusterValue 341 0x123].foldl floppy1440.call
              (Drive.mounted fun _ _ => 0))).1) ∧
    (floppy1440.CopiesAgree (Drive.mounted fun _ _ => 0).disk →
      floppy1440.CopiesAgree
        ([TableCall.setClusterValue 340 0xabc, .setClusterValue 341 0x123].foldl floppy1440.call
          (Drive.mounted fun _ _ => 0)).disk) :=
  set_then_get floppy1440 (Drive.mounted fun _ _ => 0)
    [.setClusterValue 340 0xabc, .setClusterValue 341 0x123]
    (mounted_coherent _ (by decide)) (by decide)

end Volume

end AugraDosbox.Fat
