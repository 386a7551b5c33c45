import AugraDosbox.Dos.FatChains

/-!
# Allocation

* `Sound` — volumes whose table has an entry for each cluster and whose sectors can all be
  numbered;
* `TableSector` — the sectors of the table and its copies, which no cluster contains;
* `getFirstFreeClust_eq`, `zeroOutCluster_disk` — free clusters, and their sectors;
* `Changed` — a change of the table in some entries and of the disk in some sectors;
* **`appendCluster_eq`** — a chain gets another cluster, full of zeros, unless none is free.
-/

namespace AugraDosbox.Fat

open ByteMemory

namespace Volume

variable {v : Volume} {a b c k n s x : ℕ} {d d' : Drive} {disk disk' : Disk} {L : List ℕ}

/-! ## The layout of a volume -/

/-- The clusters of a volume. -/
def IsCluster (v : Volume) (c : ℕ) : Prop := 2 ≤ c ∧ c < v.CountOfClusters + 2

instance (v : Volume) (c : ℕ) : Decidable (v.IsCluster c) := by unfold IsCluster; infer_instance

/-- The table has an entry for each cluster, and each sector has a number. -/
structure Sound (v : Volume) : Prop where
  inTable : ∀ c, v.IsCluster c → v.InTable c
  fits : v.bootbuffer.tableEnd + v.bootbuffer.RootDirSectors
    + v.CountOfClusters * v.sectorspercluster + v.partSectOff.toNat < 2 ^ 32

/-- A sector of the table or of a copy of it. -/
def TableSector (v : Volume) (s : ℕ) : Prop := ∃ i < v.fatcopies * v.sectorsperfat, s = v.fatSector i

theorem tableEnd_eq : v.bootbuffer.tableEnd = v.reservedsectors + v.fatcopies * v.sectorsperfat :=
  rfl

theorem fatcopies_mul_pos : 0 < v.fatcopies * v.sectorsperfat :=
  Nat.mul_pos v.fatcopies_pos v.sectorsperfat_pos

namespace Sound

theorem firstDataSector_eq (h : v.Sound) : v.firstDataSector
    = v.bootbuffer.tableEnd + v.bootbuffer.RootDirSectors + v.partSectOff.toNat := by
  have hfits := h.fits
  rw [v.firstDataSector_eq, u32_of_lt (by omega)]

theorem firstRootDirSect_eq (h : v.Sound) :
    v.firstRootDirSect = v.bootbuffer.tableEnd + v.partSectOff.toNat := by
  have hfits := h.fits
  rw [v.firstRootDirSect_eq, u32_of_lt (by omega)]

/-- The table lies in front of the root directory and of the clusters. -/
theorem tableSector_lt (h : v.Sound) (hs : v.TableSector s) : s < v.firstRootDirSect := by
  obtain ⟨i, hi, rfl⟩ := hs
  have hfits := h.fits
  have hend := tableEnd_eq (v := v)
  rw [h.firstRootDirSect_eq, fatSector, u32_of_lt (by omega)]
  omega

theorem firstRootDirSect_le (h : v.Sound) : v.firstRootDirSect ≤ v.firstDataSector := by
  rw [h.firstRootDirSect_eq, h.firstDataSector_eq]
  omega

theorem firstRootDirSect_pos (h : v.Sound) : 0 < v.firstRootDirSect := by
  have hpos := fatcopies_mul_pos (v := v)
  have hend := tableEnd_eq (v := v)
  rw [h.firstRootDirSect_eq]
  omega

end Sound

/-- The sector with the number `r` of a cluster. -/
def clusterSector (v : Volume) (c r : ℕ) : ℕ :=
  v.firstDataSector + (c - 2) * v.sectorspercluster + r

variable {r : ℕ}

theorem clusterSector_lt (h : v.Sound) (hc : v.IsCluster c) (hr : r < v.sectorspercluster) :
    v.clusterSector c r < 2 ^ 32 := by
  have hfits := h.fits
  have hmul : (c - 2 + 1) * v.sectorspercluster ≤ v.CountOfClusters * v.sectorspercluster :=
    Nat.mul_le_mul_right _ (by have := hc.2; have := hc.1; omega)
  rw [Nat.add_mul, Nat.one_mul] at hmul
  rw [clusterSector, h.firstDataSector_eq]
  omega

/-- **The sectors of a cluster.** -/
theorem getClustFirstSect_add (h : v.Sound) (hc : v.IsCluster c) (hr : r < v.sectorspercluster) :
    u32 (v.getClustFirstSect c + r) = v.clusterSector c r := by
  have hlt := clusterSector_lt h hc hr
  have hsub : (c + 2 ^ 32 - 2) * v.sectorspercluster
      = (c - 2) * v.sectorspercluster + 2 ^ 32 * v.sectorspercluster := by
    have h2 := hc.1
    rw [← Nat.add_mul]
    congr 1
    omega
  have hfirst : v.getClustFirstSect c = v.clusterSector c 0 := by
    rw [getClustFirstSect, hsub, clusterSector]
    have hwrap : u32 ((c - 2) * v.sectorspercluster + 2 ^ 32 * v.sectorspercluster
        + v.firstDataSector) = u32 ((c - 2) * v.sectorspercluster + v.firstDataSector) := by
      unfold u32
      omega
    unfold clusterSector at hlt
    rw [hwrap, u32_of_lt (by omega)]
    omega
  rw [hfirst]
  exact u32_of_lt (by unfold clusterSector at hlt ⊢; omega)

theorem clusterSector_inj (ha : v.IsCluster a) (hb : v.IsCluster b) {r' : ℕ}
    (hr : r < v.sectorspercluster) (hr' : r' < v.sectorspercluster) :
    v.clusterSector a r = v.clusterSector b r' ↔ a = b ∧ r = r' := by
  have hrow : (a - 2) * v.sectorspercluster + r = (b - 2) * v.sectorspercluster + r'
      ↔ a - 2 = b - 2 ∧ r = r' := copyIndex_inj hr hr'
  have ha2 := ha.1
  have hb2 := hb.1
  unfold clusterSector
  constructor
  · intro h
    obtain ⟨hab, hrr⟩ := hrow.mp (by omega)
    exact ⟨by omega, hrr⟩
  · rintro ⟨rfl, rfl⟩
    rfl

/-- A sector of a cluster is not one of the table. -/
theorem not_tableSector (h : v.Sound) (hs : v.firstRootDirSect ≤ s) : ¬ v.TableSector s :=
  fun ht => absurd (h.tableSector_lt ht) (by omega)

theorem firstDataSector_le_clusterSector : v.firstDataSector ≤ v.clusterSector c r := by
  unfold clusterSector
  omega

/-! ## Changes -/

theorem tableByte_congr (h : ∀ s, v.TableSector s → disk' s = disk s)
    (hk : k < BytePerSector * v.sectorsperfat) : v.tableByte disk' k = v.tableByte disk k := by
  have hi : k / BytePerSector < v.sectorsperfat := Nat.div_lt_of_lt_mul hk
  have hle : v.sectorsperfat ≤ v.fatcopies * v.sectorsperfat :=
    Nat.le_mul_of_pos_left _ v.fatcopies_pos
  show disk' (v.fatSector (k / BytePerSector)) _ = disk (v.fatSector (k / BytePerSector)) _
  rw [h _ ⟨_, by omega, rfl⟩]

theorem fatValue_congr (h : ∀ s, v.TableSector s → disk' s = disk s) (hc : v.InTable c) :
    v.fatValue disk' c = v.fatValue disk c := by
  have hbytes := hc.bytes_le
  exact readEntry_congr fun k _ hk => tableByte_congr h (by omega)

/-- The cache stays right when no sector of the table is written. -/
theorem coherent_congr (h : ∀ s, v.TableSector s → d'.disk s = d.disk s)
    (hbuffer : d'.fatSectBuffer = d.fatSectBuffer) (hcur : d'.curFatSect = d.curFatSect)
    (hd : v.Coherent d) : v.Coherent d' := by
  intro i hi hsect k hk hin
  rw [hbuffer, tableByte_congr h hin]
  exact hd i hi (by rw [← hcur, hsect]) k hk hin

theorem setClusterValue_disk_of_ne (hc : v.InTable c) (hs : ¬ v.TableSector s) :
    (v.setClusterValue c x d).disk s = d.disk s := by
  have hsector := hc.sector_lt
  have hmul (fc : ℕ) (hfc : fc < v.fatcopies) (j : ℕ) (hj : j < v.sectorsperfat) :
      fc * v.sectorsperfat + j < v.fatcopies * v.sectorsperfat := by
    have hle : (fc + 1) * v.sectorsperfat ≤ v.fatcopies * v.sectorsperfat :=
      Nat.mul_le_mul_right _ hfc
    rw [Nat.add_mul, Nat.one_mul] at hle
    omega
  simp only [setClusterValue, fatsectnum_eq]
  rw [writeCopies_disk_of_ne, loadFatSect_disk]
  intro fc hfc
  refine ⟨fun h => hs ⟨_, hmul fc hfc _ hsector, h.symm⟩, fun hstr h => ?_⟩
  exact hs ⟨_, hmul fc hfc _ (hc.next_lt hstr), h.symm⟩

/-- A change of a drive: the entries of `E` have new values, and sectors outside the table are
written only where `S` says so. -/
structure Changed (v : Volume) (E : ℕ → Prop) (S : ℕ → Prop) (d d' : Drive) : Prop where
  coherent : v.Coherent d'
  entry : ∀ c, v.InTable c → ¬ E c → v.fatValue d'.disk c = v.fatValue d.disk c
  sector : ∀ s, ¬ v.TableSector s → ¬ S s → d'.disk s = d.disk s

namespace Changed

variable {E E' S S' : ℕ → Prop} {d'' : Drive}

theorem of_reads (h : Reads v d d') (hd : v.Coherent d) : v.Changed E S d d' where
  coherent := h.table hd
  entry c _ _ := by rw [h.disk]
  sector s _ _ := by rw [h.disk]

theorem trans (h : v.Changed E S d d') (h' : v.Changed E' S' d' d'') :
    v.Changed (fun c => E c ∨ E' c) (fun s => S s ∨ S' s) d d'' where
  coherent := h'.coherent
  entry c hc hE := by
    rw [not_or] at hE
    rw [h'.entry c hc hE.2, h.entry c hc hE.1]
  sector s hs hS := by
    rw [not_or] at hS
    rw [h'.sector s hs hS.2, h.sector s hs hS.1]

theorem mono (h : v.Changed E S d d') (hE : ∀ c, E c → E' c) (hS : ∀ s, S s → S' s) :
    v.Changed E' S' d d' where
  coherent := h.coherent
  entry c hc hc' := h.entry c hc fun hE' => hc' (hE c hE')
  sector s hs hs' := h.sector s hs fun hS' => hs' (hS s hS')

/-- An entry that does not change says the same about the next cluster. -/
theorem next_eq (h : v.Changed E S d d') (hc : v.InTable c) (hE : ¬ E c) :
    v.next d'.disk c = v.next d.disk c := by
  rw [next, next, h.entry c hc hE]

/-- A chain without changed entries is still a chain. -/
theorem chain (h : v.Changed E S d d') (hL : v.Chain d.disk L) (hE : ∀ c ∈ L, ¬ E c) :
    v.Chain d'.disk L where
  linked := hL.linked.congr fun c hc => h.next_eq (hL.inTable c hc) (hE c hc)
  inTable := hL.inTable

end Changed

theorem setClusterValue_changed (hd : v.Coherent d) (ha : v.InTable a) :
    v.Changed (· = a) (fun _ => False) d (v.setClusterValue a x d) where
  coherent := setClusterValue_coherent hd ha
  entry c hc hne := by rw [fatValue_setClusterValue hd ha hc, if_neg hne]
  sector _ hs _ := setClusterValue_disk_of_ne ha hs

theorem writeSector_changed {data : Memory} (hd : v.Coherent d) (hs : ¬ v.TableSector s) :
    v.Changed (fun _ => False) (· = s) d (d.writeSector s data) := by
  have htable : ∀ t, v.TableSector t → (d.writeSector s data).disk t = d.disk t := by
    rintro t ht
    refine Function.update_of_ne ?_ _ _
    rintro rfl
    exact hs ht
  exact
    { coherent := coherent_congr htable rfl rfl hd
      entry := fun c hc _ => fatValue_congr htable hc
      sector := fun t _ ht => Function.update_of_ne ht _ _ }

/-! ## Free clusters -/

theorem Sound.count_lt (h : v.Sound) : v.CountOfClusters + 2 < 2 ^ 32 := by
  have hfits := h.fits
  have hle : v.CountOfClusters ≤ v.CountOfClusters * v.sectorspercluster :=
    Nat.le_mul_of_pos_right _ v.sectorspercluster_pos
  have hpos := fatcopies_mul_pos (v := v)
  have hend := tableEnd_eq (v := v)
  have hroot : 1 ≤ v.bootbuffer.RootDirSectors := by
    have hne : v.bootbuffer.rootdirentries.toNat ≠ 0 := fun h0 =>
      v.sane.2.2.2.1 (UInt16.toNat_inj.mp h0)
    unfold Bootstrap.RootDirSectors BytePerSector
    omega
  omega

theorem firstFreeFrom_eq (hs : v.Sound) (hd : v.Coherent d) (hn : k + n = v.CountOfClusters) :
    ((v.firstFreeFrom n k d).1 = 0 ∧
        ∀ c, k + 2 ≤ c → v.IsCluster c → v.fatValue d.disk c ≠ 0) ∨
      (k + 2 ≤ (v.firstFreeFrom n k d).1 ∧ v.IsCluster (v.firstFreeFrom n k d).1 ∧
        v.fatValue d.disk (v.firstFreeFrom n k d).1 = 0) := by
  induction n generalizing k d with
  | zero =>
    refine .inl ⟨rfl, fun c hk hc => ?_⟩
    have hlt := hc.2
    omega
  | succ n ih =>
    have hcount := hs.count_lt
    have hnum : u32 (k + 2) = k + 2 := u32_of_lt (by omega)
    have hcluster : v.IsCluster (k + 2) := ⟨by omega, by omega⟩
    have hvalue := getClusterValue_of_inTable hd (hs.inTable _ hcluster)
    have hreads : Reads v d (v.getClusterValue (k + 2) d).2 := getClusterValue_reads
    simp only [firstFreeFrom, hnum, hvalue]
    by_cases hfree : v.fatValue d.disk (k + 2) = 0
    · rw [if_pos hfree]
      exact .inr ⟨le_rfl, hcluster, hfree⟩
    · rw [if_neg hfree]
      have hrest := ih (k := k + 1) (hreads.table hd) (by omega)
      rw [hreads.disk] at hrest
      rcases hrest with ⟨hzero, hall⟩ | ⟨hle, hcl, hval⟩
      · refine .inl ⟨hzero, fun c hk hc => ?_⟩
        rcases Nat.eq_or_lt_of_le hk with rfl | hlt
        · exact hfree
        · exact hall c (by omega) hc
      · exact .inr ⟨by omega, hcl, hval⟩

/-- **A free cluster**, or 0 when there is none. -/
theorem getFirstFreeClust_eq (hs : v.Sound) (hd : v.Coherent d) :
    ((v.getFirstFreeClust d).1 = 0 ∧ ∀ c, v.IsCluster c → v.fatValue d.disk c ≠ 0) ∨
      (v.IsCluster (v.getFirstFreeClust d).1 ∧
        v.fatValue d.disk (v.getFirstFreeClust d).1 = 0) := by
  rcases firstFreeFrom_eq hs hd (Nat.zero_add v.CountOfClusters) with ⟨hzero, hall⟩ | ⟨-, hcl, hval⟩
  · exact .inl ⟨hzero, fun c hc => hall c hc.1 hc⟩
  · exact .inr ⟨hcl, hval⟩

theorem getFirstFreeClust_reads : Reads v d (v.getFirstFreeClust d).2 := firstFreeFrom_reads

/-! ## The sectors of a cluster -/

theorem zeroOutSectors_succ (hs : v.Sound) (hc : v.IsCluster c) (hn : n < v.sectorspercluster) :
    v.zeroOutSectors c (n + 1) d
      = (v.zeroOutSectors c n d).writeSector (v.clusterSector c n) fun _ => 0 := by
  have hskip : n / v.sectorspercluster = 0 := Nat.div_eq_of_lt hn
  have hmod : n % v.sectorspercluster = n := Nat.mod_eq_of_lt hn
  rw [zeroOutSectors]
  simp only [getAbsoluteSectFromChain, hskip, hmod, skipClusters, getClustFirstSect_add hs hc hn]

theorem zeroOutSectors_changed (hs : v.Sound) (hd : v.Coherent d) (hc : v.IsCluster c)
    (hn : n ≤ v.sectorspercluster) :
    v.Changed (fun _ => False) (fun s => ∃ r < n, s = v.clusterSector c r) d
        (v.zeroOutSectors c n d) ∧
      ∀ r < n, (v.zeroOutSectors c n d).disk (v.clusterSector c r) = fun _ => 0 := by
  induction n with
  | zero => exact ⟨.of_reads (.refl d) hd, fun r hr => absurd hr (by omega)⟩
  | succ n ih =>
    obtain ⟨hchanged, hzero⟩ := ih (by omega)
    rw [zeroOutSectors_succ hs hc (by omega)]
    have hdata : ¬ v.TableSector (v.clusterSector c n) :=
      not_tableSector hs (hs.firstRootDirSect_le.trans firstDataSector_le_clusterSector)
    constructor
    · refine (hchanged.trans (writeSector_changed hchanged.coherent hdata)).mono (by simp) ?_
      rintro s (⟨r, hr, rfl⟩ | rfl)
      · exact ⟨r, by omega, rfl⟩
      · exact ⟨n, by omega, rfl⟩
    · intro r hr
      show Function.update _ (v.clusterSector c n) _ (v.clusterSector c r) = _
      by_cases hrn : r = n
      · rw [hrn, Function.update_self]
      · have hne : v.clusterSector c r ≠ v.clusterSector c n := fun h =>
          hrn ((clusterSector_inj hc hc (by omega) (by omega)).mp h).2
        rw [Function.update_of_ne hne]
        exact hzero r (by omega)

theorem zeroOutCluster_changed (hs : v.Sound) (hd : v.Coherent d) (hc : v.IsCluster c) :
    v.Changed (fun _ => False) (fun s => ∃ r < v.sectorspercluster, s = v.clusterSector c r) d
        (v.zeroOutCluster c d) ∧
      ∀ r < v.sectorspercluster,
        (v.zeroOutCluster c d).disk (v.clusterSector c r) = fun _ => 0 :=
  zeroOutSectors_changed hs hd hc le_rfl

/-! ## Allocation -/

theorem isEOF_endMark : v.isEOF v.endMark = true := by
  unfold isEOF endMark
  cases v.fattype <;> decide

theorem endMark_lt : v.endMark < 2 ^ v.width := by
  unfold endMark width
  cases v.fattype <;> decide

/-- Numbers of clusters are not end marks, and fit into an entry. -/
theorem IsCluster.isEOF (hs : v.Sound) (hc : v.IsCluster c) : v.isEOF c = false := by
  have hcount := v.fattype_eq
  have htable := hs.inTable c hc
  have hspf := v.sectorsperfat_lt
  obtain ⟨h2, hlt⟩ := hc
  unfold fatType at hcount
  unfold InTable width BytePerSector at htable
  unfold Volume.isEOF
  cases hf : v.fattype with
  | FAT12 =>
    rw [hf] at hcount
    by_cases h12 : v.CountOfClusters < 4085
    · exact decide_eq_false (by omega)
    · rw [if_neg h12] at hcount
      split_ifs at hcount
  | FAT16 =>
    rw [hf] at hcount
    by_cases h12 : v.CountOfClusters < 4085
    · exact decide_eq_false (by omega)
    · rw [if_neg h12] at hcount
      by_cases h16 : v.CountOfClusters < 65525
      · exact decide_eq_false (by omega)
      · rw [if_neg h16] at hcount
        exact absurd hcount (by decide)
  | FAT32 =>
    simp only [hf] at htable
    exact decide_eq_false (by omega)

theorem IsCluster.lt_two_pow (hs : v.Sound) (hc : v.IsCluster c) : c < 2 ^ v.width := by
  have heof := hc.isEOF hs
  unfold Volume.isEOF at heof
  unfold width
  cases hf : v.fattype with
  | FAT12 =>
    simp only [hf, decide_eq_false_iff_not] at heof
    show c < 2 ^ 12
    omega
  | FAT16 =>
    simp only [hf, decide_eq_false_iff_not] at heof
    show c < 2 ^ 16
    omega
  | FAT32 =>
    simp only [hf, decide_eq_false_iff_not] at heof
    show c < 2 ^ 32
    omega

theorem next_eq_none_iff : v.next disk c = none ↔ v.isEOF (v.fatValue disk c) = true := by
  unfold next
  split_ifs with h <;> simp [h]

theorem fatValue_ne_zero_of_isEOF (h : v.isEOF (v.fatValue disk c) = true) :
    v.fatValue disk c ≠ 0 := by
  intro hzero
  rw [hzero] at h
  revert h
  unfold isEOF
  cases v.fattype <;> decide

theorem Chain.fatValue_ne_zero (h : v.Chain disk L) (hclusters : ∀ y ∈ L, v.IsCluster y)
    (hx : x ∈ L) : v.fatValue disk x ≠ 0 := by
  obtain ⟨A, B, rfl⟩ := List.append_of_mem hx
  cases B with
  | nil => exact fatValue_ne_zero_of_isEOF (next_eq_none_iff.mp h.linked.last)
  | cons y B =>
    have hentry : v.next disk x = some y := h.linked.entry
    rw [next] at hentry
    split_ifs at hentry
    have hy := (hclusters y (by simp)).1
    have hvalue := Option.some.inj hentry
    omega

theorem lastCluster_eq {fuel : ℕ} (hd : v.Coherent d) (hL : v.Chain d.disk (L ++ [x]))
    (hc : (L ++ [x]).head? = some c) (hfuel : L.length < fuel) :
    ∃ d', Reads v d d' ∧ Loop.run v.lastClusterStep fuel (c, d) = some (x, d') := by
  induction L generalizing c d fuel with
  | nil =>
    obtain rfl : x = c := by simpa using hc
    obtain ⟨fuel, rfl⟩ : ∃ n, fuel = n + 1 := ⟨fuel - 1, by omega⟩
    have hvalue := getClusterValue_of_inTable hd (hL.inTable x (by simp))
    have hend : v.isEOF (v.fatValue d.disk x) = true := next_eq_none_iff.mp hL.linked
    refine ⟨(v.getClusterValue x d).2, getClusterValue_reads, Loop.run_of_inr ?_⟩
    simp only [lastClusterStep, hvalue]
    rw [if_pos hend]
  | cons y L ih =>
    obtain rfl : y = c := by simpa using hc
    obtain ⟨fuel, rfl⟩ : ∃ n, fuel = n + 1 := ⟨fuel - 1, by omega⟩
    obtain ⟨z, rest, hrest⟩ : ∃ z rest, L ++ [x] = z :: rest := by
      cases L with
      | nil => exact ⟨x, [], rfl⟩
      | cons z L => exact ⟨z, L ++ [x], rfl⟩
    have hL' : v.Chain d.disk (y :: z :: rest) := by rw [← hrest]; exact hL
    have hvalue := getClusterValue_of_inTable hd (hL.inTable y (by simp))
    have hnext : v.next d.disk y = some z := hL'.linked.1
    have hreads : Reads v d (v.getClusterValue y d).2 := getClusterValue_reads
    rw [next] at hnext
    by_cases heof : v.isEOF (v.fatValue d.disk y) = true
    · simp [heof] at hnext
    · rw [if_neg heof] at hnext
      have htail : v.Chain (v.getClusterValue y d).2.disk (L ++ [x]) := by
        rw [hreads.disk, hrest]
        exact hL'.tail
      obtain ⟨d', hreads', hrun⟩ := ih (c := z) (hreads.table hd) htail
        (by rw [hrest]; rfl) (by simp at hfuel; omega)
      refine ⟨d', hreads.trans hreads', ?_⟩
      have hstep : v.lastClusterStep (y, d) = .inl (z, (v.getClusterValue y d).2) := by
        simp only [lastClusterStep, hvalue]
        rw [if_neg heof, Option.some.inj hnext]
      rw [Loop.run_of_inl hstep, hrun]

/-- The table after a free cluster has been put behind the last cluster of a chain. -/
theorem allocateCluster_eq (hs : v.Sound) (hd : v.Coherent d) (hL : v.Chain d.disk (L ++ [x]))
    (hclusters : ∀ y ∈ L ++ [x], v.IsCluster y) (hn : v.IsCluster n)
    (hfree : v.fatValue d.disk n = 0) :
    ∃ d', v.allocateCluster n x d = (true, d') ∧ v.Chain d'.disk (L ++ [x, n]) ∧
      v.Changed (fun c => c = x ∨ c = n) (fun _ => False) d d' := by
  have hxc := hclusters x (by simp)
  have hx : v.InTable x := hs.inTable x hxc
  have hnt : v.InTable n := hs.inTable n hn
  have hlast : v.isEOF (v.fatValue d.disk x) = true := next_eq_none_iff.mp hL.linked.last
  have hxne : v.fatValue d.disk x ≠ 0 := fatValue_ne_zero_of_isEOF hlast
  have hxn : x ≠ n := by
    rintro rfl
    exact hxne hfree
  have hreads : Reads v d (v.getClusterValue x d).2 := getClusterValue_reads
  have hvalue := getClusterValue_of_inTable hd hx
  set d₁ := (v.getClusterValue x d).2 with hd₁
  have hc₁ : v.Coherent d₁ := hreads.table hd
  have hlink := setClusterValue_changed (x := n) hc₁ hx
  have hend := setClusterValue_changed (x := v.endMark) hlink.coherent hnt
  have hchanged : v.Changed (fun c => c = x ∨ c = n) (fun _ => False) d
      (v.setClusterValue n v.endMark (v.setClusterValue x n d₁)) :=
    ((Changed.of_reads (E := fun _ => False) (S := fun _ => False) hreads hd).trans
      (hlink.trans hend)).mono (by simp) (by simp)
  -- The two entries that change.
  have hvx : v.fatValue (v.setClusterValue n v.endMark (v.setClusterValue x n d₁)).disk x = n := by
    rw [fatValue_setClusterValue hlink.coherent hnt hx, if_neg hxn,
      fatValue_setClusterValue hc₁ hx hx, if_pos rfl, Nat.mod_eq_of_lt (hn.lt_two_pow hs)]
  have hvn : v.fatValue (v.setClusterValue n v.endMark (v.setClusterValue x n d₁)).disk n
      = v.endMark := by
    rw [fatValue_setClusterValue hlink.coherent hnt hnt, if_pos rfl, Nat.mod_eq_of_lt endMark_lt]
  have hnx : v.next (v.setClusterValue n v.endMark (v.setClusterValue x n d₁)).disk x = some n := by
    rw [next, hvx, if_neg (by simp [hn.isEOF hs])]
  have hnn : v.next (v.setClusterValue n v.endMark (v.setClusterValue x n d₁)).disk n = none := by
    rw [next, hvn, if_pos isEOF_endMark]
  have hnodup := hL.nodup
  have hnL : n ∉ L := fun hmem => hL.fatValue_ne_zero hclusters (by simp [hmem]) hfree
  refine ⟨_, ?_, ⟨?_, ?_⟩, hchanged⟩
  · have hn0 : n ≠ 0 := by have := hn.1; omega
    have hx0 : x ≠ 0 := by have := hxc.1; omega
    simp only [allocateCluster, if_neg hn0, hx0, ne_eq, not_false_eq_true, if_true, hvalue]
    rw [if_neg hxne]
  · refine hL.linked.splice (C := [n]) ⟨hnx, hnn⟩ fun y hy => ?_
    have hyx : y ≠ x := by
      rintro rfl
      exact (List.nodup_append.mp hnodup).2.2 y hy y (by simp) rfl
    have hyn : y ≠ n := by
      rintro rfl
      exact hnL hy
    exact hchanged.next_eq (hL.inTable y (by simp [hy])) (by simp [hyx, hyn])
  · intro y hy
    rcases List.mem_append.mp hy with hy | hy
    · exact hL.inTable y (by simp [hy])
    · rcases List.mem_cons.mp hy with rfl | hy
      · exact hx
      · rw [List.mem_singleton.mp hy]
        exact hnt

/-- **Extending a chain.**  Either no cluster is free and nothing changes, or the chain gets one
more cluster, whose sectors are zeros. -/
theorem appendCluster_eq {fuel : ℕ} (hs : v.Sound) (hd : v.Coherent d)
    (hL : v.Chain d.disk (L ++ [x])) (hclusters : ∀ y ∈ L ++ [x], v.IsCluster y)
    (hc : (L ++ [x]).head? = some c) (hfuel : L.length < fuel) :
    (∃ d', v.appendCluster fuel c d = some (0, d') ∧ Reads v d d' ∧
        ∀ y, v.IsCluster y → v.fatValue d.disk y ≠ 0) ∨
      ∃ n d', v.appendCluster fuel c d = some (n, d') ∧ v.IsCluster n ∧
        v.fatValue d.disk n = 0 ∧ v.Chain d'.disk (L ++ [x, n]) ∧
        v.Changed (fun y => y = x ∨ y = n)
          (fun s => ∃ r < v.sectorspercluster, s = v.clusterSector n r) d d' ∧
        ∀ r < v.sectorspercluster, d'.disk (v.clusterSector n r) = fun _ => 0 := by
  obtain ⟨d₁, hreads, hlast⟩ := lastCluster_eq hd hL hc hfuel
  have hreads' : Reads v d₁ (v.getFirstFreeClust d₁).2 := getFirstFreeClust_reads
  have hall := hreads.trans hreads'
  have hfree := getFirstFreeClust_eq hs (hreads.table hd)
  set n := (v.getFirstFreeClust d₁).1 with hn
  set d₂ := (v.getFirstFreeClust d₁).2 with hd₂
  have hpair : v.getFirstFreeClust d₁ = (n, d₂) := rfl
  rw [hreads.disk] at hfree
  rcases hfree with ⟨hzero, hnone⟩ | ⟨hcl, hval⟩
  · refine .inl ⟨d₂, ?_, hall, hnone⟩
    simp only [appendCluster, hlast, hpair, hzero, Option.bind_eq_bind, Option.bind_some,
      if_true]
    rfl
  · have hn0 : n ≠ 0 := by have := hcl.1; omega
    obtain ⟨d₃, halloc, hchain, hchanged⟩ := allocateCluster_eq hs (hall.table hd)
      (by rw [hall.disk]; exact hL) hclusters hcl (by rw [hall.disk]; exact hval)
    obtain ⟨hzeroed, hzeros⟩ := zeroOutCluster_changed hs hchanged.coherent hcl
    refine .inr ⟨n, v.zeroOutCluster n d₃, ?_, hcl, hval, ?_, ?_, hzeros⟩
    · simp only [appendCluster, hlast, hpair, halloc, Option.bind_eq_bind, Option.bind_some,
        if_neg hn0, Bool.not_true, Bool.false_eq_true, if_false]
      rfl
    · exact hzeroed.chain hchain (by simp)
    · exact ((Changed.of_reads (E := fun _ => False) (S := fun _ => False) hall hd).trans
        (hchanged.trans hzeroed)).mono (by simp) (by simp)

end Volume

end AugraDosbox.Fat
