import AugraDosbox.Dos.FatDirectory
import AugraDosbox.Dos.FatTable
import AugraDosbox.Lib.Chain

/-!
# Chains of clusters on the disk

* `Reads` — what a function that only reads does to a drive: it may load another part of the
  table, and that is all;
* `next`, `Chain` — a chain of clusters, as a list threaded through the table;
* `getAbsoluteSectFromChain_eq` — the sectors of a chain;
* `Directory` — the root directory, or one that lies in a chain.  `slot` is the entry at a
  position of it;
* `dirSector_eq` — where the entry at a position is.
-/

namespace AugraDosbox.Fat

open ByteMemory

/-- Nothing but the cached part of the table may be different afterwards. -/
structure Reads (v : Volume) (d d' : Drive) : Prop where
  disk : d'.disk = d.disk
  coherent : ∀ n ≤ 2 ^ 24, v.CoherentTo n d → v.CoherentTo n d'

namespace Reads

variable {v : Volume} {d d' d'' : Drive}

theorem refl (d : Drive) : Reads v d d := ⟨rfl, fun _ _ h => h⟩

theorem trans (h : Reads v d d') (h' : Reads v d' d'') : Reads v d d'' :=
  ⟨h'.disk.trans h.disk, fun n hn hd => h'.coherent n hn (h.coherent n hn hd)⟩

theorem table (h : Reads v d d') (hd : v.Coherent d) : v.Coherent d' :=
  h.coherent _ Volume.sectorsperfat_le hd

end Reads

namespace Volume

variable {v : Volume} {c k n s : ℕ} {d : Drive} {disk : Disk} {L : List ℕ}

/-! ## Reading -/

theorem getClusterValue_reads : Reads v d (v.getClusterValue c d).2 :=
  ⟨getClusterValue_disk, fun _ _ hd => getClusterValue_coherent hd⟩

theorem skipClusters_reads : Reads v d (v.skipClusters k c d).2 := by
  induction k generalizing c d with
  | zero => exact .refl d
  | succ k ih =>
    simp only [skipClusters]
    by_cases hend : v.isEOF (v.getClusterValue c d).1
    · rw [if_pos hend]
      exact getClusterValue_reads
    · rw [if_neg hend]
      exact getClusterValue_reads.trans ih

theorem getAbsoluteSectFromChain_none {d' : Drive}
    (hskip : v.skipClusters (s / v.sectorspercluster) c d = (none, d')) :
    v.getAbsoluteSectFromChain c s d = (0, d') := by
  unfold getAbsoluteSectFromChain
  rw [hskip]

theorem getAbsoluteSectFromChain_some {d' : Drive} {x : ℕ}
    (hskip : v.skipClusters (s / v.sectorspercluster) c d = (some x, d')) :
    v.getAbsoluteSectFromChain c s d
      = (u32 (v.getClustFirstSect x + s % v.sectorspercluster), d') := by
  unfold getAbsoluteSectFromChain
  rw [hskip]

theorem getAbsoluteSectFromChain_fst : (v.getAbsoluteSectFromChain c s d).1
    = (v.skipClusters (s / v.sectorspercluster) c d).1.elim 0
        fun x => u32 (v.getClustFirstSect x + s % v.sectorspercluster) := by
  cases hskip : v.skipClusters (s / v.sectorspercluster) c d with
  | mk clust d' =>
    cases clust with
    | none => rw [getAbsoluteSectFromChain_none hskip, Option.elim_none]
    | some x => rw [getAbsoluteSectFromChain_some hskip, Option.elim_some]

theorem getAbsoluteSectFromChain_reads : Reads v d (v.getAbsoluteSectFromChain c s d).2 := by
  have h := skipClusters_reads (v := v) (c := c) (k := s / v.sectorspercluster) (d := d)
  simp only [getAbsoluteSectFromChain]
  split
  · exact h
  · exact h

theorem dirSector_reads {dirPos : ℕ} : Reads v d (v.dirSector c dirPos d).2 := by
  simp only [dirSector]
  by_cases hroot : c = 0
  · rw [if_pos hroot]
    exact .refl d
  · rw [if_neg hroot]
    exact getAbsoluteSectFromChain_reads

theorem firstFreeFrom_reads {i : ℕ} : Reads v d (v.firstFreeFrom n i d).2 := by
  induction n generalizing i d with
  | zero => exact .refl d
  | succ n ih =>
    simp only [firstFreeFrom]
    by_cases hfree : (v.getClusterValue (u32 (i + 2)) d).1 = 0
    · rw [if_pos hfree]
      exact getClusterValue_reads
    · rw [if_neg hfree]
      exact getClusterValue_reads.trans ih

/-! ## Chains -/

/-- What the entry of a cluster says about the cluster after it: `none` for an end mark. -/
def next (v : Volume) (disk : Disk) (c : ℕ) : Option ℕ :=
  if v.isEOF (v.fatValue disk c) then none else some (v.fatValue disk c)

/-- A chain: its clusters have entries in the table, each of them names the next cluster, and
the last one has an end mark. -/
structure Chain (v : Volume) (disk : Disk) (L : List ℕ) : Prop where
  linked : Threaded.Linked some (· = none) (v.next disk) L
  inTable : ∀ x ∈ L, v.InTable x

theorem Chain.tail {x : ℕ} (h : v.Chain disk (c :: x :: L)) : v.Chain disk (x :: L) where
  linked := h.linked.2
  inTable y hy := h.inTable y (List.mem_cons_of_mem _ hy)

theorem Chain.nodup (h : v.Chain disk L) : L.Nodup :=
  h.linked.nodup (Option.some_injective ℕ) (by simp)

/-- **Going along a chain.** -/
theorem skipClusters_eq (hd : v.Coherent d) (hL : v.Chain d.disk (c :: L)) :
    (v.skipClusters k c d).1 = (c :: L)[k]? := by
  induction k generalizing c L d with
  | zero => rfl
  | succ k ih =>
    have hvalue := getClusterValue_of_inTable hd (hL.inTable c (by simp))
    have hreads : Reads v d (v.getClusterValue c d).2 := getClusterValue_reads
    simp only [skipClusters, hvalue]
    cases L with
    | nil =>
      have hend : v.next d.disk c = none := hL.linked
      rw [if_pos (by simpa [next] using hend)]
      rfl
    | cons x L =>
      have hnext : v.next d.disk c = some x := hL.linked.1
      rw [next] at hnext
      by_cases heof : v.isEOF (v.fatValue d.disk c) = true
      · simp [heof] at hnext
      · rw [if_neg heof] at hnext ⊢
        rw [Option.some.inj hnext,
          ih (hreads.table hd) (by rw [hreads.disk]; exact hL.tail)]
        rfl

/-- The sector with the number `s` of a chain. -/
def chainSector (v : Volume) (L : List ℕ) (s : ℕ) : ℕ :=
  u32 (v.getClustFirstSect (L.getD (s / v.sectorspercluster) 0) + s % v.sectorspercluster)

/-- **The sectors of a chain**; 0 behind its end. -/
theorem getAbsoluteSectFromChain_eq (hd : v.Coherent d) (hL : v.Chain d.disk (c :: L)) :
    (v.getAbsoluteSectFromChain c s d).1
      = if s < (c :: L).length * v.sectorspercluster then v.chainSector (c :: L) s else 0 := by
  rw [getAbsoluteSectFromChain_fst, skipClusters_eq hd hL]
  by_cases hs : s < (c :: L).length * v.sectorspercluster
  · have hlt : s / v.sectorspercluster < (c :: L).length :=
      Nat.div_lt_of_lt_mul (by rwa [Nat.mul_comm])
    rw [if_pos hs, List.getElem?_eq_getElem hlt, chainSector,
      List.getD_eq_getElem _ _ hlt, Option.elim_some]
  · have hge : (c :: L).length ≤ s / v.sectorspercluster :=
      (Nat.le_div_iff_mul_le v.sectorspercluster_pos).mpr (by omega)
    rw [if_neg hs, List.getElem?_eq_none hge, Option.elim_none]

/-! ## Directories -/

/-- A directory: the root directory, for which the chain does not count, or one in a chain
whose sectors can be told from the missing one. -/
structure Directory (v : Volume) (disk : Disk) (clust : ℕ) (L : List ℕ) : Prop where
  chain : clust ≠ 0 → L.head? = some clust ∧ v.Chain disk L
  sector_ne : clust ≠ 0 → ∀ s < L.length * v.sectorspercluster, v.chainSector L s ≠ 0

/-- The number of entries for which a directory has room. -/
def slots (v : Volume) (clust : ℕ) (L : List ℕ) : ℕ :=
  if clust = 0 then v.rootdirentries else L.length * v.sectorspercluster * 16

/-- The sector of an entry. -/
def slotSector (v : Volume) (clust : ℕ) (L : List ℕ) (dirPos : ℕ) : ℕ :=
  if clust = 0 then u32 (v.firstRootDirSect + dirPos / 16) else v.chainSector L (dirPos / 16)

/-- The entry at a position. -/
def slot (v : Volume) (disk : Disk) (clust : ℕ) (L : List ℕ) (dirPos : ℕ) : Direntry :=
  sectorEntry (disk (v.slotSector clust L dirPos)) dirPos

/-- **Where an entry is.** -/
theorem dirSector_eq (dirPos : ℕ) (hd : v.Coherent d) (hdir : v.Directory d.disk c L) :
    (v.dirSector c dirPos d).1
      = if dirPos < v.slots c L then some (v.slotSector c L dirPos) else none := by
  unfold slots slotSector
  by_cases hroot : c = 0
  · simp only [dirSector, if_pos hroot]
    by_cases hpos : dirPos < v.rootdirentries
    · rw [if_neg (by omega), if_pos hpos]
    · rw [if_pos (by omega), if_neg hpos]
  · obtain ⟨hhead, hL⟩ := hdir.chain hroot
    have hsector := hdir.sector_ne hroot
    cases L with
    | nil => exact absurd hhead (by simp)
    | cons x L =>
      obtain rfl : x = c := by simpa using hhead
      simp only [dirSector, if_neg hroot, getAbsoluteSectFromChain_eq hd hL]
      by_cases hpos : dirPos < (x :: L).length * v.sectorspercluster * 16
      · have hlt : dirPos / 16 < (x :: L).length * v.sectorspercluster :=
          Nat.div_lt_of_lt_mul (by omega)
        rw [if_pos hlt, if_pos hpos, if_neg (hsector _ hlt)]
      · have hge : ¬ dirPos / 16 < (x :: L).length * v.sectorspercluster := by omega
        rw [if_neg hge, if_neg hpos, if_pos rfl]

end Volume

end AugraDosbox.Fat
