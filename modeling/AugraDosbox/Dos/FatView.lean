import AugraDosbox.Dos.FatAlloc
import AugraDosbox.Dos.FatSearch
import AugraDosbox.Dos.FatShortNames
import AugraDosbox.Lib.FirstMatch

/-!
# What a directory holds

* `decode_encode`, `decode_encode_of_ne` — an entry that is written is read again, and the other
  entries of the sector stay;
* `Holds` — a directory with its chain and its entries;
* `lookup_eq` — a search for a name returns the first entry that it may return;
* `entrySector_eq`, `directoryBrowse_eq` — entries by their numbers;
* `Holds.changed` — a change elsewhere on the disk leaves the entries alone.
-/

namespace AugraDosbox.Fat

open ByteMemory FirstMatch

/-! ## Entries in a sector -/

namespace Direntry

variable {o : ℕ} {m : Memory}

theorem storeName_of_not_mem {name : Vector UInt8 11} {k : ℕ} (h : k < o ∨ o + 11 ≤ k) :
    storeName name o m k = m k := by
  rw [storeName, dif_neg (by omega)]

theorem encode_of_not_mem {e : Direntry} {k : ℕ} (h : k < o ∨ o + 32 ≤ k) :
    e.encode o m k = m k := by
  simp only [encode]
  repeat rw [store_of_not_mem (by omega)]
  exact storeName_of_not_mem (by omega)

theorem decode_congr {m' : Memory} (h : ∀ k, o ≤ k → k < o + 32 → m k = m' k) :
    decode m o = decode m' o := by
  have hload : ∀ i n, i + n ≤ 32 → load m (o + i) n = load m' (o + i) n :=
    fun i n hin => load_congr fun k hk hk' => h k (by omega) (by omega)
  have hbyte : ∀ i, i < 32 → m (o + i) = m' (o + i) := fun i hi => h _ (by omega) (by omega)
  simp only [decode, hbyte 11 (by decide), hbyte 12 (by decide), hbyte 13 (by decide),
    hload 14 2 (by decide), hload 16 2 (by decide), hload 18 2 (by decide),
    hload 20 2 (by decide), hload 22 2 (by decide), hload 24 2 (by decide),
    hload 26 2 (by decide), hload 28 4 (by decide)]
  congr 2
  funext i
  exact hbyte i (by omega)

theorem decode_encode_of_ne {e : Direntry} {i j : ℕ} (h : i ≠ j) :
    decode (e.encode (32 * j) m) (32 * i) = decode m (32 * i) :=
  decode_congr fun _ _ _ => encode_of_not_mem (by omega)

theorem store_byte {x : ℕ} : ByteMemory.store m o 1 x o = UInt8.ofNat x :=
  Function.update_self _ _ _

theorem ofNat_toNat_word (x : UInt16) : UInt16.ofNat (x.toNat % 2 ^ (8 * 2)) = x := by
  rw [Nat.mod_eq_of_lt x.toNat_lt, UInt16.ofNat_toNat]

/-- **An entry that is written is read again.** -/
theorem decode_encode (e : Direntry) (o : ℕ) (m : Memory) : decode (e.encode o m) o = e := by
  have hname : (Vector.ofFn fun i : Fin 11 => e.encode o m (o + i)) = e.entryname := by
    ext i hi
    rw [Vector.getElem_ofFn]
    simp only [encode]
    repeat rw [store_of_not_mem (by omega)]
    rw [storeName, dif_pos (by omega)]
    simp
  have hsize : UInt32.ofNat (e.entrysize.toNat % 2 ^ (8 * 4)) = e.entrysize := by
    rw [Nat.mod_eq_of_lt e.entrysize.toNat_lt, UInt32.ofNat_toNat]
  rw [decode, hname]
  simp (disch := omega) only [encode, load_store_of_disjoint, load_store, store_of_not_mem,
    store_byte, ofNat_toNat_word, hsize, UInt8.ofNat_toNat]

end Direntry

namespace Volume

variable {v : Volume} {c fuel i p s : ℕ} {d d' : Drive} {disk disk' : Disk} {L : List ℕ}
  {es : List Direntry} {attrs : UInt8} {name : CString}

/-! ## Directories and searches -/

/-- The directory `c` with the chain `L` holds the entries `es`. -/
structure Holds (v : Volume) (disk : Disk) (c : ℕ) (L : List ℕ) (es : List Direntry) : Prop where
  directory : v.Directory disk c L
  entries : v.entries disk c L = es
  short : es.length < 2 ^ 16

/-- The entry that a search returns, and its number. -/
def found (es : List Direntry) (attrs : UInt8) (name : CString) : Option (Direntry × ℕ) :=
  firstMatch (isFound attrs (searchPattern name)) es

/-- **A search from the beginning of a directory.** -/
theorem lookup_eq (hd : v.Coherent d) (h : v.Holds d.disk c L es) (attrs : UInt8)
    (name : CString) :
    ∃ dta d', Reads v d d' ∧
      (∀ e i, found es attrs name = some (e, i) →
        dta.dirID.toNat = i + 1 ∧ dta.attr = e.attrib) ∧
      ∃ N, ∀ fuel ≥ N, v.lookup fuel c attrs name d
        = some ((found es attrs name).map Prod.fst, dta, d') := by
  obtain ⟨hdir, rfl, hshort⟩ := h
  have hes : v.entries d.disk c L = [] ++ v.entries d.disk c L := rfl
  obtain ⟨res, dta, d', hreads, -, hsearched, hrun⟩ :=
    FindNextInternal_eq ((imgDTA.SetupSearch attrs name).SetDirID 0) hd hdir hshort hes rfl
  rw [getSearchParams_setupSearch] at hsearched
  have hrun' : ∃ N, ∀ fuel ≥ N, v.lookup fuel c attrs name d = some (res, dta, d') :=
    ⟨(v.entries d.disk c L).length + 1, fun fuel hfuel => hrun fuel hfuel⟩
  generalize v.entries d.disk c L = all at hsearched ⊢
  cases hsearched with
  | notFound hnone =>
    have hmiss : found all attrs name = none :=
      firstMatch_eq_none_iff.2 fun i e he => hnone e (List.mem_of_getElem? he)
    refine ⟨dta, d', hreads, fun e i he => ?_, ?_⟩
    · rw [hmiss] at he
      exact absurd he (by simp)
    · rwa [hmiss]
  | @found skipped rest e _ hskipped hfound hdirID hresult =>
    have hfirst : found (skipped ++ e :: rest) attrs name = some (e, skipped.length) := by
      refine firstMatch_eq_some_iff.2 ⟨by simp, hfound, fun j hj b hb => ?_⟩
      rw [List.getElem?_append_left hj] at hb
      exact hskipped b (List.mem_of_getElem? hb)
    refine ⟨dta, d', hreads, fun e' i he => ?_, ?_⟩
    · rw [hfirst] at he
      obtain ⟨rfl, rfl⟩ := Prod.mk.inj (Option.some.inj he)
      exact ⟨by simpa using hdirID, congrArg Result.attr hresult⟩
    · rwa [hfirst]

/-! ## Entries by their numbers -/

theorem dirSector_of_lt (hd : v.Coherent d) (h : v.Holds d.disk c L es) (hp : p < v.slots c L) :
    v.dirSector c p d = (some (v.slotSector c L p), (v.dirSector c p d).2) := by
  have hsector := dirSector_eq p hd h.directory
  rw [if_pos hp] at hsector
  exact Prod.ext hsector rfl

theorem dirSector_of_le (hd : v.Coherent d) (h : v.Holds d.disk c L es) (hp : v.slots c L ≤ p) :
    v.dirSector c p d = (none, (v.dirSector c p d).2) := by
  have hsector := dirSector_eq p hd h.directory
  rw [if_neg (by omega)] at hsector
  exact Prod.ext hsector rfl

theorem Holds.length_le (h : v.Holds disk c L es) : es.length ≤ v.slots c L := by
  rw [← h.entries]
  exact entries_length_le

theorem Holds.nodup (h : v.Holds disk c L es) (hc : c ≠ 0) : L.Nodup :=
  (h.directory.chain hc).2.nodup

theorem Holds.getElem? (h : v.Holds disk c L es) {e : Direntry} (he : es[p]? = some e) :
    v.slot disk c L p = e ∧ e.isEnd = false := by
  obtain ⟨hlt, rfl⟩ := List.getElem?_eq_some_iff.1 he
  have hlt' : p < (v.entries disk c L).length := by rwa [h.entries]
  have hget := entries_getElem hlt'
  have hend := entries_not_end hlt'
  simp only [h.entries] at hget
  exact ⟨hget.symm, hget ▸ hend⟩

/-- Behind the entries there is an end or no sector. -/
theorem entrySector_of_length (n : ℕ) (hd : v.Coherent d) (h : v.Holds d.disk c L es) :
    v.entrySector c n es.length d = (none, (v.dirSector c es.length d).2) := by
  have hreads : Reads v d (v.dirSector c es.length d).2 := dirSector_reads
  have hentries := h.entries
  by_cases hroom : es.length < v.slots c L
  · have hend : (v.slot d.disk c L es.length).isEnd = true := by
      rw [← hentries] at hroom ⊢
      exact end_of_entries hroom
    have hpair := dirSector_of_lt hd h hroom
    generalize (v.dirSector c es.length d).2 = d₁ at hreads hpair ⊢
    rw [slot, ← hreads.disk] at hend
    rw [entrySector.eq_def]
    dsimp only
    rw [hpair]
    dsimp only
    rw [Drive.readSector, hend, if_pos rfl]
  · rw [entrySector.eq_def]
    dsimp only
    rw [dirSector_of_le hd h (by omega)]

/-- **The entry that is `n` positions further on.** -/
theorem entrySector_eq {n : ℕ} (hd : v.Coherent d) (h : v.Holds d.disk c L es)
    (hp : p ≤ es.length) :
    ∃ d', Reads v d d' ∧ v.entrySector c n p d =
      (if p + n < es.length then some (v.slotSector c L (p + n), p + n) else none, d') := by
  induction n generalizing p d with
  | zero =>
    rcases Nat.lt_or_eq_of_le hp with hlt | rfl
    · have hreads : Reads v d (v.dirSector c p d).2 := dirSector_reads
      have hpair := dirSector_of_lt hd h (hlt.trans_le h.length_le)
      obtain ⟨hslot, hend⟩ := h.getElem? (List.getElem?_eq_getElem hlt)
      rw [← hslot, slot, ← hreads.disk] at hend
      refine ⟨(v.dirSector c p d).2, hreads, ?_⟩
      generalize (v.dirSector c p d).2 = d₁ at hreads hpair hend ⊢
      rw [entrySector, hpair]
      simp only [Drive.readSector, hend, Bool.false_eq_true, if_false, Nat.add_zero, if_pos hlt]
    · refine ⟨(v.dirSector c es.length d).2, dirSector_reads, ?_⟩
      rw [entrySector_of_length 0 hd h, if_neg (by omega)]
  | succ n ih =>
    rcases Nat.lt_or_eq_of_le hp with hlt | rfl
    · have hreads : Reads v d (v.dirSector c p d).2 := dirSector_reads
      have hpair := dirSector_of_lt hd h (hlt.trans_le h.length_le)
      obtain ⟨hslot, hend⟩ := h.getElem? (List.getElem?_eq_getElem hlt)
      have hnext : nextPos p = p + 1 := by
        have hshort := h.short
        exact Nat.mod_eq_of_lt (by omega)
      rw [← hslot, slot, ← hreads.disk] at hend
      generalize (v.dirSector c p d).2 = d₁ at hreads hpair hend
      obtain ⟨d', hreads', heq⟩ := ih (p := p + 1) (hreads.table hd)
        (by rw [hreads.disk]; exact h) hlt
      refine ⟨d', hreads.trans hreads', ?_⟩
      rw [entrySector, hpair]
      simp only [Drive.readSector, hend, Bool.false_eq_true, if_false, hnext, heq]
      rw [Nat.add_right_comm, Nat.add_assoc]
    · refine ⟨(v.dirSector c es.length d).2, dirSector_reads, ?_⟩
      rw [entrySector_of_length (n + 1) hd h, if_neg (by omega)]

/-- **Browsing** a directory returns its entries. -/
theorem directoryBrowse_eq (hd : v.Coherent d) (h : v.Holds d.disk c L es) (i : ℕ) :
    ∃ d', Reads v d d' ∧ v.directoryBrowse c i 0 d = (es[i]?, d') := by
  obtain ⟨d', hreads, heq⟩ := entrySector_eq (n := i) hd h (Nat.zero_le _)
  refine ⟨d', hreads, ?_⟩
  have hcast : ((i : ℤ) - 0).toNat = i := by omega
  rw [directoryBrowse, if_neg (by omega), if_neg (by omega), hcast, Int.toNat_zero, heq,
    Nat.zero_add]
  by_cases hi : i < es.length
  · rw [if_pos hi, List.getElem?_eq_getElem hi]
    obtain ⟨hslot, -⟩ := h.getElem? (List.getElem?_eq_getElem hi)
    rw [← hslot, slot, ← hreads.disk]
    rfl
  · rw [if_neg hi, List.getElem?_eq_none (by omega)]

/-! ## Sectors of directories -/

/-- The sectors in which the entries of a directory are. -/
def DirSector (v : Volume) (c : ℕ) (L : List ℕ) (s : ℕ) : Prop :=
  ∃ p < v.slots c L, s = v.slotSector c L p

/-- The clusters of a directory are clusters of the volume. -/
def Clusters (v : Volume) (c : ℕ) (L : List ℕ) : Prop := c ≠ 0 → ∀ y ∈ L, v.IsCluster y

theorem slotSector_root (hs : v.Sound) (hp : p < v.rootdirentries) :
    v.slotSector 0 L p = v.firstRootDirSect + p / 16 ∧
      v.firstRootDirSect + p / 16 < v.firstDataSector := by
  have hfits := hs.fits
  have hlt : p / 16 < v.bootbuffer.RootDirSectors := by
    have hroot : p < v.bootbuffer.rootdirentries.toNat := hp
    unfold Bootstrap.RootDirSectors BytePerSector
    omega
  rw [slotSector, if_pos rfl, hs.firstRootDirSect_eq, hs.firstDataSector_eq]
  exact ⟨u32_of_lt (by omega), by omega⟩

theorem slotSector_cluster (hs : v.Sound) (hc : c ≠ 0) (hL : v.Clusters c L)
    (hp : p < v.slots c L) :
    ∃ hlt : p / 16 / v.sectorspercluster < L.length, v.slotSector c L p
      = v.clusterSector (L.get ⟨p / 16 / v.sectorspercluster, hlt⟩)
          (p / 16 % v.sectorspercluster) := by
  rw [slots, if_neg hc] at hp
  have hlt : p / 16 / v.sectorspercluster < L.length := by
    rw [Nat.div_lt_iff_lt_mul v.sectorspercluster_pos, Nat.div_lt_iff_lt_mul (by decide)]
    exact hp
  refine ⟨hlt, ?_⟩
  rw [slotSector, if_neg hc, chainSector, List.getD_eq_getElem _ _ hlt,
    getClustFirstSect_add hs (hL hc _ (List.getElem_mem hlt))
      (Nat.mod_lt _ v.sectorspercluster_pos)]
  rfl

theorem DirSector.not_tableSector (hs : v.Sound) (hL : v.Clusters c L)
    (h : v.DirSector c L s) : ¬ v.TableSector s := by
  obtain ⟨p, hp, rfl⟩ := h
  by_cases hc : c = 0
  · subst hc
    rw [slots, if_pos rfl] at hp
    rw [(slotSector_root hs hp).1]
    exact Volume.not_tableSector hs (Nat.le_add_right _ _)
  · obtain ⟨hlt, heq⟩ := slotSector_cluster hs hc hL hp
    rw [heq]
    exact Volume.not_tableSector hs (hs.firstRootDirSect_le.trans firstDataSector_le_clusterSector)

/-- **Two directories have no sector in common** when they have no cluster in common. -/
theorem DirSector.disjoint {c' : ℕ} {L' : List ℕ} (hs : v.Sound) (hL : v.Clusters c L)
    (hL' : v.Clusters c' L') (hne : c ≠ c') (hdisjoint : c ≠ 0 → c' ≠ 0 → L.Disjoint L')
    (h : v.DirSector c L s) : ¬ v.DirSector c' L' s := by
  rintro ⟨q, hq, hsq⟩
  obtain ⟨p, hp, hsp⟩ := h
  have hinside : ∀ {x : ℕ} {M : List ℕ} {k : ℕ}, x ≠ 0 → v.Clusters x M → k < v.slots x M →
      v.firstDataSector ≤ v.slotSector x M k := by
    intro x M k hx hM hk
    obtain ⟨_, heq⟩ := slotSector_cluster hs hx hM hk
    rw [heq]
    exact firstDataSector_le_clusterSector
  by_cases hc : c = 0
  · subst hc
    have hle := hinside (Ne.symm hne) hL' hq
    rw [slots, if_pos rfl] at hp
    obtain ⟨heq, hlt⟩ := slotSector_root (L := L) hs hp
    omega
  · by_cases hc' : c' = 0
    · subst hc'
      have hle := hinside hc hL hp
      rw [slots, if_pos rfl] at hq
      obtain ⟨heq, hlt⟩ := slotSector_root (L := L') hs hq
      omega
    · obtain ⟨hlt, heq⟩ := slotSector_cluster hs hc hL hp
      obtain ⟨hlt', heq'⟩ := slotSector_cluster hs hc' hL' hq
      have hsame := (heq.symm.trans (hsp.symm.trans hsq)).trans heq'
      rw [clusterSector_inj (hL hc _ (List.get_mem _ _)) (hL' hc' _ (List.get_mem _ _))
        (Nat.mod_lt _ v.sectorspercluster_pos) (Nat.mod_lt _ v.sectorspercluster_pos)] at hsame
      exact hdisjoint hc hc' (List.get_mem L _) (hsame.1 ▸ List.get_mem L' _)

/-- The sectors of a cluster are those of a directory in it. -/
theorem dirSector_of_cluster {n r : ℕ} (hs : v.Sound) (hn : v.IsCluster n)
    (hr : r < v.sectorspercluster) : v.DirSector n [n] (v.clusterSector n r) := by
  have hne : n ≠ 0 := by have := hn.1; omega
  have hL : v.Clusters n [n] := fun _ y hy => List.mem_singleton.1 hy ▸ hn
  have hdiv : 16 * r / 16 / v.sectorspercluster = 0 := by
    rw [Nat.mul_div_cancel_left r (by decide), Nat.div_eq_of_lt hr]
  have hslot : 16 * r < v.slots n [n] := by
    rw [slots, if_neg hne, List.length_singleton]
    omega
  refine ⟨16 * r, hslot, ?_⟩
  obtain ⟨hlt, heq⟩ := slotSector_cluster hs hne hL hslot
  have hmod : 16 * r / 16 % v.sectorspercluster = r := by
    rw [Nat.mul_div_cancel_left r (by decide), Nat.mod_eq_of_lt hr]
  simp only [hdiv, hmod] at heq
  exact heq.symm

theorem slotSector_inj {q : ℕ} (hs : v.Sound) (hL : v.Clusters c L) (hnodup : c ≠ 0 → L.Nodup)
    (hp : p < v.slots c L) (hq : q < v.slots c L)
    (h : v.slotSector c L p = v.slotSector c L q) : p / 16 = q / 16 := by
  by_cases hc : c = 0
  · subst hc
    rw [slots, if_pos rfl] at hp hq
    rw [(slotSector_root hs hp).1, (slotSector_root hs hq).1] at h
    omega
  · obtain ⟨hlt, heq⟩ := slotSector_cluster hs hc hL hp
    obtain ⟨hlt', heq'⟩ := slotSector_cluster hs hc hL hq
    rw [heq, heq', clusterSector_inj (hL hc _ (List.get_mem _ _)) (hL hc _ (List.get_mem _ _))
      (Nat.mod_lt _ v.sectorspercluster_pos) (Nat.mod_lt _ v.sectorspercluster_pos)] at h
    have hrow := congrArg Fin.val (List.nodup_iff_injective_get.1 (hnodup hc) h.1)
    rw [← Nat.div_add_mod (p / 16) v.sectorspercluster, h.2]
    dsimp only at hrow
    rw [hrow, Nat.div_add_mod]

/-! ## Changes elsewhere -/

/-- **A change elsewhere** leaves the entries of a directory alone. -/
theorem Holds.changed {E S : ℕ → Prop} (h : v.Holds d.disk c L es) (hchanged : v.Changed E S d d')
    (hE : c ≠ 0 → ∀ y ∈ L, ¬ E y) (hS : ∀ s, v.DirSector c L s → ¬ v.TableSector s ∧ ¬ S s) :
    v.Holds d'.disk c L es := by
  have hslots : (List.range (v.slots c L)).map (v.slot d'.disk c L)
      = (List.range (v.slots c L)).map (v.slot d.disk c L) := by
    refine List.map_congr_left fun p hp => ?_
    obtain ⟨htable, hnot⟩ := hS _ ⟨p, List.mem_range.1 hp, rfl⟩
    rw [slot, slot, hchanged.sector _ htable hnot]
  refine ⟨⟨fun hc => ?_, h.directory.sector_ne⟩, ?_, h.short⟩
  · obtain ⟨hhead, hchain⟩ := h.directory.chain hc
    exact ⟨hhead, hchanged.chain hchain (hE hc)⟩
  · rw [Volume.entries, hslots]
    exact h.entries

end Volume

end AugraDosbox.Fat
