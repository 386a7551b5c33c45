import AugraDosbox.Dos.FatTermination
import AugraDosbox.Dos.FatView

/-!
# New entries in a directory

* `firstFree` — the position at which a new entry is written;
* `changeEntry_holds` — a directory in which one entry has been written;
* `addDirectoryEntry_of_room` — the entry is written in a sector that the directory has;
* `addDirectoryEntry_of_full` — no sector is left: the entry needs another cluster, and without
  one nothing changes;
* **`addDirectoryEntry_spec`** — a new entry, and what stays;
* `newCluster_spec` — a new directory.
-/

namespace AugraDosbox.Fat

open ByteMemory FirstMatch

/-- The first deleted entry, or the position behind the entries. -/
def firstFree (es : List Direntry) : ℕ := es.findIdx Direntry.isDeleted

theorem firstFree_le (es : List Direntry) : firstFree es ≤ es.length := List.findIdx_le_length

namespace Volume

variable {v : Volume} {c fuel i n p s : ℕ} {d d' : Drive} {disk disk' : Disk} {L : List ℕ}
  {es : List Direntry} {x : Direntry}

/-! ## Writing one entry -/

/-- The slots behind the entries of a directory are empty. -/
def Clean (v : Volume) (disk : Disk) (c : ℕ) (L : List ℕ) (es : List Direntry) : Prop :=
  ∀ p, es.length ≤ p → p < v.slots c L → (v.slot disk c L p).isEnd = true

/-- The entries of a directory are the slots in front of the first empty one. -/
theorem entries_eq_of (hlen : es.length ≤ v.slots c L)
    (hget : ∀ p e, es[p]? = some e → v.slot disk c L p = e ∧ e.isEnd = false)
    (hend : es.length < v.slots c L → (v.slot disk c L es.length).isEnd = true) :
    v.entries disk c L = es := by
  have hsplit : (List.range (v.slots c L)).map (v.slot disk c L) = es ++
      (List.range' es.length (v.slots c L - es.length)).map (v.slot disk c L) := by
    apply List.ext_getElem
    · simp [hlen]
    · intro i hi hi'
      by_cases hlt : i < es.length
      · rw [List.getElem_append_left hlt]
        simpa using (hget i _ (List.getElem?_eq_getElem hlt)).1
      · rw [List.getElem_append_right (by omega)]
        simp [Nat.add_sub_cancel' (Nat.le_of_not_lt hlt)]
  have hnone : ((List.range' es.length (v.slots c L - es.length)).map
      (v.slot disk c L)).takeWhile (fun e => !e.isEnd) = [] := by
    cases hrest : v.slots c L - es.length with
    | zero => rfl
    | succ k =>
      rw [List.range'_succ, List.map_cons, List.takeWhile_cons_of_neg]
      simpa using hend (by omega)
  rw [entries, hsplit, List.takeWhile_append_of_pos, hnone, List.append_nil]
  intro e he
  obtain ⟨p, hp⟩ := List.getElem?_of_mem he
  simpa using (hget p e hp).2

/-- The slots after one entry has been written. -/
theorem slot_changeEntry {q : ℕ} (hs : v.Sound) (hL : v.Clusters c L) (hnodup : c ≠ 0 → L.Nodup)
    (hp : p < v.slots c L) (hq : q < v.slots c L) :
    v.slot (changeEntry x (v.slotSector c L p) p d).disk c L q =
      if q = p then x else v.slot d.disk c L q := by
  have hdisk : (changeEntry x (v.slotSector c L p) p d).disk =
      Function.update d.disk (v.slotSector c L p)
        (x.encode (32 * (p % 16)) (d.disk (v.slotSector c L p))) := rfl
  rw [slot, slot, hdisk]
  by_cases hsame : v.slotSector c L q = v.slotSector c L p
  · have hrow := slotSector_inj hs hL hnodup hq hp hsame
    rw [hsame, Function.update_self, sectorEntry, sectorEntry]
    by_cases hpos : q = p
    · rw [if_pos hpos, hpos, Direntry.decode_encode]
    · rw [if_neg hpos, Direntry.decode_encode_of_ne (by omega)]
  · have hpos : q ≠ p := fun heq => hsame (congrArg _ heq)
    rw [Function.update_of_ne hsame, if_neg hpos]

/-- **A directory in which an entry has been written** in the place of another one or behind all of
them. -/
theorem changeEntry_holds (hs : v.Sound) (hL : v.Clusters c L)
    (hd : v.Coherent d) (h : v.Holds d.disk c L es) (hclean : v.Clean d.disk c L es)
    (hp : p ≤ es.length) (hroom : p < v.slots c L) (hshort : v.slots c L < 2 ^ 16)
    (hx : x.isEnd = false) :
    v.Changed (fun _ => False) (· = v.slotSector c L p) d
        (changeEntry x (v.slotSector c L p) p d) ∧
      v.Holds (changeEntry x (v.slotSector c L p) p d).disk c L (insertAt es p x) ∧
      v.Clean (changeEntry x (v.slotSector c L p) p d).disk c L (insertAt es p x) := by
  have htable : ¬ v.TableSector (v.slotSector c L p) :=
    DirSector.not_tableSector hs hL ⟨p, hroom, rfl⟩
  have hchanged : v.Changed (fun _ => False) (· = v.slotSector c L p) d
      (changeEntry x (v.slotSector c L p) p d) := writeSector_changed hd htable
  have hslot : ∀ q < v.slots c L, v.slot (changeEntry x (v.slotSector c L p) p d).disk c L q =
      if q = p then x else v.slot d.disk c L q :=
    fun q hq => slot_changeEntry hs hL h.nodup hroom hq
  have hlen : (insertAt es p x).length = max es.length (p + 1) := length_insertAt hp
  have hle := h.length_le
  have hclean' : v.Clean (changeEntry x (v.slotSector c L p) p d).disk c L (insertAt es p x) := by
    intro q hq hlt
    rw [hslot q hlt, if_neg (by omega)]
    exact hclean q (by omega) hlt
  refine ⟨hchanged, ⟨⟨fun hc => ?_, h.directory.sector_ne⟩, ?_, by omega⟩, hclean'⟩
  · obtain ⟨hhead, hchain⟩ := h.directory.chain hc
    exact ⟨hhead, hchanged.chain hchain fun _ _ => id⟩
  · refine entries_eq_of (by omega) (fun q e he => ?_) (hclean' _ le_rfl)
    have hq : q < v.slots c L := by
      have hlt := (List.getElem?_eq_some_iff.1 he).1
      omega
    rw [getElem?_insertAt hp] at he
    rw [hslot q hq]
    split_ifs at he ⊢ with hqp
    · obtain rfl := Option.some.inj he
      exact ⟨rfl, hx⟩
    · exact h.getElem? he

theorem Clean.changed {E S : ℕ → Prop} (h : v.Clean d.disk c L es)
    (hchanged : v.Changed E S d d')
    (hS : ∀ s, v.DirSector c L s → ¬ v.TableSector s ∧ ¬ S s) : v.Clean d'.disk c L es := by
  intro p hle hp
  obtain ⟨htable, hnot⟩ := hS _ ⟨p, hp, rfl⟩
  rw [slot, hchanged.sector _ htable hnot]
  exact h p hle hp

/-! ## Where the entry is written -/

/-- A round of `addDirectoryEntry` at a position that has a sector. -/
theorem addStep_of_slot (fuel : ℕ) (x : Direntry) (hd : v.Coherent d)
    (h : v.Holds d.disk c L es) (hp : p < v.slots c L) :
    v.addStep fuel c x (p, d) =
      if (v.slot d.disk c L p).isDeleted = true ∨ (v.slot d.disk c L p).isEnd = true then
        .inr (some (true, changeEntry x (v.slotSector c L p) p (v.dirSector c p d).2))
      else .inl (nextPos p, (v.dirSector c p d).2) := by
  have hreads : Reads v d (v.dirSector c p d).2 := dirSector_reads
  have hpair := dirSector_of_lt hd h hp
  generalize (v.dirSector c p d).2 = d₁ at hreads hpair ⊢
  have hroom : v.roomFor fuel c p d = some (some (v.slotSector c L p), d₁) := by
    rw [roomFor, hpair]
  rw [addStep, hroom]
  dsimp only
  rw [Drive.readSector, hreads.disk]
  rfl

theorem not_isDeleted_of_lt {e : Direntry} (hp : p < firstFree es) (he : es[p]? = some e) :
    e.isDeleted = false := by
  obtain ⟨hlt, rfl⟩ := List.getElem?_eq_some_iff.1 he
  simpa using List.not_of_lt_findIdx hp

theorem isDeleted_firstFree {e : Direntry} (he : es[firstFree es]? = some e) :
    e.isDeleted = true := by
  obtain ⟨hlt, rfl⟩ := List.getElem?_eq_some_iff.1 he
  exact List.findIdx_getElem (w := hlt)

/-- The rounds over the entries that are not deleted. -/
theorem run_addStep_firstFree (hd : v.Coherent d) (h : v.Holds d.disk c L es)
    (hp : p ≤ firstFree es) :
    ∃ d', Reads v d d' ∧ ∀ fuel n, Loop.run (v.addStep fuel c x) (p + n) (0, d)
      = Loop.run (v.addStep fuel c x) n (p, d') := by
  induction p with
  | zero => exact ⟨d, .refl d, fun fuel n => by rw [Nat.zero_add]⟩
  | succ p ih =>
    obtain ⟨d₁, hreads, hrun⟩ := ih (by omega)
    have hlen : p < es.length := lt_of_lt_of_le hp (firstFree_le es)
    have h₁ : v.Holds d₁.disk c L es := by rwa [hreads.disk]
    obtain ⟨hslot, hend⟩ := h₁.getElem? (List.getElem?_eq_getElem hlen)
    have hdeleted := not_isDeleted_of_lt hp (List.getElem?_eq_getElem hlen)
    have hnext : nextPos p = p + 1 := by
      have hshort := h.short
      exact Nat.mod_eq_of_lt (by omega)
    refine ⟨(v.dirSector c p d₁).2, hreads.trans dirSector_reads, fun fuel n => ?_⟩
    have hstep := addStep_of_slot fuel x (hreads.table hd) h₁
      (hlen.trans_le h.length_le)
    rw [if_neg (by rw [hslot, hdeleted, hend]; simp), hnext] at hstep
    rw [show p + 1 + n = p + (n + 1) by omega, hrun, Loop.run_of_inl hstep]

/-- The round that ends `addDirectoryEntry`. -/
theorem addDirectoryEntry_of_step {r : Bool × Drive} {m N : ℕ}
    (hrun : ∀ fuel n, Loop.run (v.addStep fuel c x) (m + n) (0, d)
      = Loop.run (v.addStep fuel c x) n (m, d'))
    (hstep : ∀ fuel ≥ N, v.addStep fuel c x (m, d') = .inr (some r)) :
    ∀ fuel ≥ N + m + 1, v.addDirectoryEntry fuel c x d = some r := by
  intro fuel hfuel
  have hrounds := hrun fuel (fuel - m - 1 + 1)
  rw [show m + (fuel - m - 1 + 1) = fuel by omega, Loop.run_of_inr (hstep fuel (by omega))]
    at hrounds
  rw [addDirectoryEntry, hrounds]
  rfl

/-- **A new entry in a sector that the directory has.** -/
theorem addDirectoryEntry_of_room (hs : v.Sound) (hL : v.Clusters c L) (hd : v.Coherent d)
    (h : v.Holds d.disk c L es) (hclean : v.Clean d.disk c L es)
    (hroom : firstFree es < v.slots c L) (hshort : v.slots c L < 2 ^ 16) (hx : x.isEnd = false) :
    ∃ d', (∃ N, ∀ fuel ≥ N, v.addDirectoryEntry fuel c x d = some (true, d')) ∧
      v.Changed (fun _ => False) (· = v.slotSector c L (firstFree es)) d d' ∧
      v.Holds d'.disk c L (insertAt es (firstFree es) x) ∧
      v.Clean d'.disk c L (insertAt es (firstFree es) x) := by
  obtain ⟨d₁, hreads, hrun⟩ := run_addStep_firstFree (x := x) hd h le_rfl
  have hreads₂ : Reads v d (v.dirSector c (firstFree es) d₁).2 := hreads.trans dirSector_reads
  have h₁ : v.Holds d₁.disk c L es := by rwa [hreads.disk]
  have hfree : (v.slot d₁.disk c L (firstFree es)).isDeleted = true ∨
      (v.slot d₁.disk c L (firstFree es)).isEnd = true := by
    by_cases hlt : firstFree es < es.length
    · have hget := List.getElem?_eq_getElem hlt
      rw [(h₁.getElem? hget).1]
      exact .inl (isDeleted_firstFree hget)
    · rw [hreads.disk]
      exact .inr (hclean _ (by omega) hroom)
  set d₂ := (v.dirSector c (firstFree es) d₁).2 with hd₂
  have h₂ : v.Holds d₂.disk c L es := by rwa [hreads₂.disk]
  obtain ⟨hchanged, hholds, hclean'⟩ := changeEntry_holds hs hL (hreads₂.table hd) h₂
    (by rw [hreads₂.disk]; exact hclean) (firstFree_le es) hroom hshort hx
  refine ⟨changeEntry x (v.slotSector c L (firstFree es)) (firstFree es) d₂,
    ⟨_, addDirectoryEntry_of_step (N := 0) hrun fun fuel _ => ?_⟩, ?_, hholds, hclean'⟩
  · have hstep := addStep_of_slot fuel x (hreads.table hd) h₁ hroom
    rwa [if_pos hfree, ← hd₂] at hstep
  · exact ((Changed.of_reads (E := fun _ => False) (S := fun _ => False) hreads₂ hd).trans
      hchanged).mono (by simp) (by simp)

/-! ## Directories without room -/

/-- The volume has a free cluster. -/
def Free (v : Volume) (disk : Disk) (n : ℕ) : Prop := v.IsCluster n ∧ v.fatValue disk n = 0

theorem slots_append (hc : c ≠ 0) :
    v.slots c (L ++ [n]) = v.slots c L + v.sectorspercluster * 16 := by
  rw [slots, slots, if_neg hc, if_neg hc, List.length_append, List.length_singleton, Nat.add_mul,
    Nat.add_mul, Nat.one_mul]

theorem slotSector_append (hc : c ≠ 0) (hp : p < v.slots c L) :
    v.slotSector c (L ++ [n]) p = v.slotSector c L p := by
  rw [slots, if_neg hc] at hp
  have hlt : p / 16 / v.sectorspercluster < L.length := by
    rw [Nat.div_lt_iff_lt_mul v.sectorspercluster_pos, Nat.div_lt_iff_lt_mul (by decide)]
    exact hp
  rw [slotSector, slotSector, if_neg hc, if_neg hc, chainSector, chainSector,
    List.getD_append _ _ _ _ hlt]

theorem clusters_append (hL : v.Clusters c L) (hn : v.IsCluster n) :
    v.Clusters c (L ++ [n]) := by
  intro hc y hy
  rcases List.mem_append.1 hy with hy | hy
  · exact hL hc y hy
  · rw [List.mem_singleton.1 hy]
    exact hn

/-- The new entries are in the new cluster. -/
theorem slotSector_append_of_le (hs : v.Sound) (hL : v.Clusters c L) (hn : v.IsCluster n)
    (hc : c ≠ 0) (hle : v.slots c L ≤ p) (hp : p < v.slots c (L ++ [n])) :
    v.slotSector c (L ++ [n]) p = v.clusterSector n (p / 16 % v.sectorspercluster) := by
  obtain ⟨hidx, heq⟩ := slotSector_cluster hs hc (clusters_append hL hn) hp
  have hrow : p / 16 / v.sectorspercluster = L.length := by
    have hge : L.length ≤ p / 16 / v.sectorspercluster := by
      rw [Nat.le_div_iff_mul_le v.sectorspercluster_pos, Nat.le_div_iff_mul_le (by decide)]
      rwa [slots, if_neg hc] at hle
    rw [List.length_append, List.length_singleton] at hidx
    omega
  have hget : (L ++ [n]).get ⟨p / 16 / v.sectorspercluster, hidx⟩ = n := by
    simp [hrow]
  rw [heq, hget]

/-- A directory that has got another cluster has no new entries. -/
theorem holds_append (hs : v.Sound) (hL : v.Clusters c L) (hn : v.IsCluster n) (hc : c ≠ 0)
    (h : v.Holds d.disk c L es) (hclean : v.Clean d.disk c L es)
    (hchain : v.Chain d'.disk (L ++ [n]))
    (hsame : ∀ s, v.DirSector c L s → d'.disk s = d.disk s)
    (hzero : ∀ r < v.sectorspercluster, d'.disk (v.clusterSector n r) = fun _ => 0) :
    v.Clusters c (L ++ [n]) ∧ v.Holds d'.disk c (L ++ [n]) es ∧
      v.Clean d'.disk c (L ++ [n]) es := by
  have hL' : v.Clusters c (L ++ [n]) := clusters_append hL hn
  have hhead : (L ++ [n]).head? = some c := by
    rw [List.head?_append, (h.directory.chain hc).1]
    rfl
  have hold : ∀ q < v.slots c L, v.slot d'.disk c (L ++ [n]) q = v.slot d.disk c L q := by
    intro q hq
    rw [slot, slot, slotSector_append hc hq, hsame _ ⟨q, hq, rfl⟩]
  have hclean' : v.Clean d'.disk c (L ++ [n]) es := by
    intro q hq hlt
    by_cases hin : q < v.slots c L
    · rw [hold q hin]
      exact hclean q hq hin
    · -- the slot is in the new cluster
      rw [slot, slotSector_append_of_le hs hL hn hc (Nat.le_of_not_lt hin) hlt,
        hzero _ (Nat.mod_lt _ v.sectorspercluster_pos)]
      exact isEnd_of_zeros q
  refine ⟨hL', ⟨directory_of_chain hs hhead hchain (hL' hc), ?_, h.short⟩, hclean'⟩
  have hle := h.length_le
  refine entries_eq_of ?_ (fun q e he => ?_) (hclean' _ le_rfl)
  · rw [slots_append hc]
    omega
  · have hq := (List.getElem?_eq_some_iff.1 he).1
    rw [hold q (by omega)]
    exact h.getElem? he

theorem appendCluster_mono {r : ℕ × Drive} {fuel' : ℕ}
    (h : v.appendCluster fuel c d = some r) (hle : fuel ≤ fuel') :
    v.appendCluster fuel' c d = some r := by
  cases hrun : Loop.run v.lastClusterStep fuel (c, d) with
  | none => simp [appendCluster, hrun] at h
  | some last =>
    rw [← h]
    simp only [appendCluster, hrun, Loop.run_mono hrun hle]

/-- A directory gets another cluster for an entry, or has no sector for it. -/
theorem roomFor_of_full (hs : v.Sound) (hL : v.Clusters c L) (hd : v.Coherent d)
    (h : v.Holds d.disk c L es) (hclean : v.Clean d.disk c L es) (hc : c ≠ 0)
    (hfull : v.slots c L = es.length) :
    ((∀ n, ¬ v.Free d.disk n) ∧ ∃ d', Reads v d d' ∧
        ∃ N, ∀ fuel ≥ N, v.roomFor fuel c es.length d = some (none, d')) ∨
      ∃ n d', v.Free d.disk n ∧ n ∉ L ∧
        (∃ N, ∀ fuel ≥ N, v.roomFor fuel c es.length d
          = some (some (v.slotSector c (L ++ [n]) es.length), d')) ∧
        v.Changed (fun y => y ∈ L ∨ y = n) (v.DirSector n [n]) d d' ∧
        v.Holds d'.disk c (L ++ [n]) es ∧ v.Clean d'.disk c (L ++ [n]) es := by
  have hpair := dirSector_of_le hd h hfull.le
  have hreads : Reads v d (v.dirSector c es.length d).2 := dirSector_reads
  obtain ⟨hhead, hchain⟩ := h.directory.chain hc
  generalize (v.dirSector c es.length d).2 = d₁ at hpair hreads
  obtain ⟨M, z, rfl⟩ : ∃ M z, L = M ++ [z] := by
    refine ⟨L.dropLast, L.getLast ?_, (List.dropLast_append_getLast _).symm⟩
    rintro rfl
    simp at hhead
  rcases appendCluster_eq hs (hreads.table hd) (by rw [hreads.disk]; exact hchain) (hL hc) hhead
      (Nat.lt_succ_self M.length)
    with ⟨d₂, happend, hreads₂, hnone⟩ | ⟨n, d₂, happend, hn, hfree, hchain₂, hchanged, hzeros⟩
  · rw [hreads.disk] at hnone
    refine .inl ⟨fun n hn => hnone n hn.1 hn.2, d₂, hreads.trans hreads₂, M.length + 1,
      fun fuel hfuel => ?_⟩
    simp only [roomFor, hpair, if_neg hc, appendCluster_mono happend hfuel, Option.bind_eq_bind,
      Option.bind_some, if_true]
    rfl
  · rw [hreads.disk] at hfree
    have hn0 : n ≠ 0 := by have := hn.1; omega
    rw [show M ++ [z, n] = M ++ [z] ++ [n] by simp] at hchain₂
    have hnL : n ∉ M ++ [z] := fun hmem =>
      (List.nodup_append.1 hchain₂.nodup).2.2 n hmem n (List.mem_singleton_self n) rfl
    have hcL : c ∈ M ++ [z] := List.mem_of_mem_head? hhead
    have hchanged' : v.Changed (fun y => y ∈ M ++ [z] ∨ y = n) (v.DirSector n [n]) d d₂ := by
      refine ((Changed.of_reads (E := fun _ => False) (S := fun _ => False) hreads hd).trans
        hchanged).mono ?_ ?_
      · rintro y (hy | rfl | rfl)
        · exact hy.elim
        · exact .inl (by simp)
        · exact .inr rfl
      · rintro s (hs' | ⟨r, hr, rfl⟩)
        · exact hs'.elim
        · exact dirSector_of_cluster hs hn hr
    have hone : v.Clusters n [n] := fun _ y hy => List.mem_singleton.1 hy ▸ hn
    have hsame : ∀ s, v.DirSector c (M ++ [z]) s → d₂.disk s = d.disk s := by
      intro s hin
      refine hchanged'.sector s (DirSector.not_tableSector hs hL hin)
        (DirSector.disjoint hs hL hone ?_ (fun _ _ => ?_) hin)
      · rintro rfl
        exact hnL hcL
      · rwa [List.disjoint_singleton]
    obtain ⟨hL', hholds, hclean'⟩ := holds_append hs hL hn hc h hclean hchain₂ hsame hzeros
    have hroom : es.length < v.slots c (M ++ [z] ++ [n]) := by
      have hpos := v.sectorspercluster_pos
      rw [slots_append hc]
      omega
    have hreads₃ : Reads v d₂ (v.dirSector c es.length d₂).2 := dirSector_reads
    have hpair₃ := dirSector_of_lt hchanged.coherent hholds hroom
    generalize (v.dirSector c es.length d₂).2 = d₃ at hpair₃ hreads₃
    refine .inr ⟨n, d₃, ⟨hn, hfree⟩, hnL, ⟨M.length + 1, fun fuel hfuel => ?_⟩, ?_, ?_, ?_⟩
    · simp only [roomFor, hpair, if_neg hc, appendCluster_mono happend hfuel, Option.bind_eq_bind,
        Option.bind_some, if_neg hn0, hpair₃]
      rfl
    · exact (hchanged'.trans (Changed.of_reads (E := fun _ => False) (S := fun _ => False)
        hreads₃ hchanged.coherent)).mono (by simp) (by simp)
    · rwa [hreads₃.disk]
    · rwa [hreads₃.disk]

/-- **A new entry for which the directory has no sector**: it gets another cluster, or nothing
changes. -/
theorem addDirectoryEntry_of_full (hs : v.Sound) (hL : v.Clusters c L) (hd : v.Coherent d)
    (h : v.Holds d.disk c L es) (hclean : v.Clean d.disk c L es)
    (hfull : v.slots c L ≤ firstFree es) (hshort : v.slots c L + v.sectorspercluster * 16 < 2 ^ 16)
    (hx : x.isEnd = false) :
    ((c = 0 ∨ ∀ n, ¬ v.Free d.disk n) ∧ ∃ d', Reads v d d' ∧
        ∃ N, ∀ fuel ≥ N, v.addDirectoryEntry fuel c x d = some (false, d')) ∨
      c ≠ 0 ∧ ∃ n d', v.Free d.disk n ∧
        (∃ N, ∀ fuel ≥ N, v.addDirectoryEntry fuel c x d = some (true, d')) ∧
        v.Changed (fun y => y ∈ L ∨ y = n) (v.DirSector n [n]) d d' ∧
        v.fatValue d'.disk n ≠ 0 ∧
        v.Holds d'.disk c (L ++ [n]) (insertAt es (firstFree es) x) ∧
        v.Clean d'.disk c (L ++ [n]) (insertAt es (firstFree es) x) := by
  have hle := firstFree_le es
  have hlen : firstFree es = es.length := by have := h.length_le; omega
  have hslots : v.slots c L = es.length := by have := h.length_le; omega
  rw [hlen]
  obtain ⟨d₁, hreads, hrun⟩ := run_addStep_firstFree (x := x) hd h hlen.ge
  have hd₁ := hreads.table hd
  have h₁ : v.Holds d₁.disk c L es := by rwa [hreads.disk]
  by_cases hc : c = 0
  · have hreads₂ : Reads v d₁ (v.dirSector c es.length d₁).2 := dirSector_reads
    have hpair := dirSector_of_le hd₁ h₁ hslots.le
    refine .inl ⟨.inl hc, (v.dirSector c es.length d₁).2, hreads.trans hreads₂, _,
      addDirectoryEntry_of_step (N := 0) hrun fun fuel _ => ?_⟩
    have hroom : v.roomFor fuel c es.length d₁ = some (none, (v.dirSector c es.length d₁).2) := by
      rw [roomFor, hpair]
      exact if_pos hc
    rw [addStep, hroom]
  · rcases roomFor_of_full hs hL hd₁ h₁ (by rw [hreads.disk]; exact hclean) hc hslots
      with ⟨hnone, d₂, hreads₂, N, hroom⟩ | ⟨n, d₂, hfree, hnL, ⟨N, hroom⟩, hchanged, h₂, hclean₂⟩
    · rw [hreads.disk] at hnone
      refine .inl ⟨.inr hnone, d₂, hreads.trans hreads₂, _,
        addDirectoryEntry_of_step (N := N) hrun fun fuel hfuel => ?_⟩
      rw [addStep, hroom fuel hfuel]
    · rw [hreads.disk] at hfree
      have hin : es.length < v.slots c (L ++ [n]) := by
        have hpos := v.sectorspercluster_pos
        rw [slots_append hc]
        omega
      have hL' : v.Clusters c (L ++ [n]) := clusters_append hL hfree.1
      obtain ⟨hchanged₃, h₃, hclean₃⟩ := changeEntry_holds hs hL' hchanged.coherent h₂ hclean₂
        le_rfl hin (by rw [slots_append hc]; exact hshort) hx
      refine .inr ⟨hc, n, changeEntry x (v.slotSector c (L ++ [n]) es.length) es.length d₂, hfree,
        ⟨_, addDirectoryEntry_of_step (N := N) hrun fun fuel hfuel => ?_⟩, ?_, ?_, h₃, hclean₃⟩
      · have hend : (sectorEntry (d₂.readSector (v.slotSector c (L ++ [n]) es.length))
            es.length).isEnd = true := hclean₂ _ le_rfl hin
        rw [addStep, hroom fuel hfuel]
        dsimp only
        rw [if_pos (.inr hend)]
      · refine ((Changed.of_reads (E := fun _ => False) (S := fun _ => False) hreads hd).trans
          (hchanged.trans hchanged₃)).mono (by simp) ?_
        rintro s (hs' | hs' | rfl)
        · exact hs'.elim
        · exact hs'
        · rw [slotSector_append_of_le hs hL hfree.1 hc hslots.le hin]
          exact dirSector_of_cluster hs hfree.1 (Nat.mod_lt _ v.sectorspercluster_pos)
      · obtain ⟨-, hchain⟩ := h₃.directory.chain hc
        exact fatValue_ne_zero_of_isEOF (next_eq_none_iff.1 hchain.linked.last)

/-! ## New entries -/

/-- Directories that have no cluster in common with the directory `c` are as before. -/
def Elsewhere (v : Volume) (c : ℕ) (L : List ℕ) (d d' : Drive) : Prop :=
  ∀ y M fs, y ≠ c → (y ≠ 0 → c ≠ 0 → M.Disjoint L) → v.Clusters y M → v.Holds d.disk y M fs →
    v.Clean d.disk y M fs → v.Holds d'.disk y M fs ∧ v.Clean d'.disk y M fs

theorem Elsewhere.of_reads (h : Reads v d d') : v.Elsewhere c L d d' := by
  intro y M fs _ _ _ hholds hclean
  rw [h.disk]
  exact ⟨hholds, hclean⟩

theorem Elsewhere.of_changed {E S : ℕ → Prop} (hs : v.Sound) (h : v.Changed E S d d')
    (hE : ∀ y M, y ≠ 0 → y ≠ c → (c ≠ 0 → M.Disjoint L) → v.Clusters y M → v.Chain d.disk M →
      ∀ x ∈ M, ¬ E x)
    (hS : ∀ y M, y ≠ c → (y ≠ 0 → c ≠ 0 → M.Disjoint L) → v.Clusters y M →
      (y ≠ 0 → M.head? = some y ∧ v.Chain d.disk M) → ∀ s, v.DirSector y M s → ¬ S s) :
    v.Elsewhere c L d d' := by
  intro y M fs hne hdisjoint hM hholds hclean
  have hkept : ∀ s, v.DirSector y M s → ¬ v.TableSector s ∧ ¬ S s := fun s hin =>
    ⟨hin.not_tableSector hs hM, hS y M hne hdisjoint hM hholds.directory.chain s hin⟩
  exact ⟨hholds.changed h (fun hy => hE y M hy hne (hdisjoint hy) hM
    (hholds.directory.chain hy).2) hkept, hclean.changed h hkept⟩

theorem Elsewhere.trans {d'' : Drive} (h : v.Elsewhere c L d d') (h' : v.Elsewhere c L d' d'') :
    v.Elsewhere c L d d'' := by
  intro y M fs hne hdisjoint hM hholds hclean
  obtain ⟨hholds', hclean'⟩ := h y M fs hne hdisjoint hM hholds hclean
  exact h' y M fs hne hdisjoint hM hholds' hclean'

/-- No directory has a cluster that is free. -/
theorem Free.not_mem {y : ℕ} {M : List ℕ} (h : v.Free disk n) (hy : y ≠ 0)
    (hM : v.Clusters y M) (hchain : v.Chain disk M) : n ∉ M :=
  fun hmem => hchain.fatValue_ne_zero (hM hy) hmem h.2

/-- A change in a cluster that was free, and in the chain of one directory. -/
theorem Elsewhere.of_free (hs : v.Sound) (hfree : v.Free d.disk n) (hc : c ≠ 0)
    (h : v.Changed (fun y => y ∈ L ∨ y = n) (v.DirSector n [n]) d d') : v.Elsewhere c L d d' := by
  have hone : v.Clusters n [n] := fun _ y hy => List.mem_singleton.1 hy ▸ hfree.1
  refine .of_changed hs h ?_ ?_
  · rintro y M hy - hdisjoint hM hchain x hxM (hxL | rfl)
    · exact hdisjoint hc hxM hxL
    · exact hfree.not_mem hy hM hchain hxM
  · intro y M hne hdisjoint hM hchain s hin
    have hyn : y ≠ n := by
      rintro rfl
      have hy : y ≠ 0 := by have := hfree.1.1; omega
      exact hfree.not_mem hy hM (hchain hy).2 (List.mem_of_mem_head? (hchain hy).1)
    refine hin.disjoint hs hM hone hyn fun hy _ => ?_
    rw [List.disjoint_singleton]
    exact hfree.not_mem hy hM (hchain hy).2

/-- What `addDirectoryEntry` does in a directory: nothing when there is no room, or the entry is
there afterwards. -/
inductive Added (v : Volume) (c : ℕ) (L : List ℕ) (es : List Direntry) (x : Direntry)
    (d d' : Drive) : Bool → Prop
  | full (hfull : v.slots c L ≤ firstFree es) (hnone : c = 0 ∨ ∀ n, ¬ v.Free d.disk n)
      (hreads : Reads v d d') : Added v c L es x d d' false
  | inside (hroom : firstFree es < v.slots c L)
      (htable : ∀ y, v.InTable y → v.fatValue d'.disk y = v.fatValue d.disk y)
      (hnew : v.Holds d'.disk c L (insertAt es (firstFree es) x))
      (hclean : v.Clean d'.disk c L (insertAt es (firstFree es) x)) : Added v c L es x d d' true
  | longer {n : ℕ} (hfull : v.slots c L ≤ firstFree es) (hc : c ≠ 0) (hfree : v.Free d.disk n)
      (hused : v.fatValue d'.disk n ≠ 0)
      (hnew : v.Holds d'.disk c (L ++ [n]) (insertAt es (firstFree es) x))
      (hclean : v.Clean d'.disk c (L ++ [n]) (insertAt es (firstFree es) x)) :
      Added v c L es x d d' true

/-- **A new entry** in a directory: it is written when there is room for it, other directories
stay as they are, and so does the whole disk without room. -/
theorem addDirectoryEntry_spec (hs : v.Sound) (hL : v.Clusters c L) (hd : v.Coherent d)
    (h : v.Holds d.disk c L es) (hclean : v.Clean d.disk c L es)
    (hshort : v.slots c L + v.sectorspercluster * 16 < 2 ^ 16) (hx : x.isEnd = false) :
    ∃ ok d', (∃ N, ∀ fuel ≥ N, v.addDirectoryEntry fuel c x d = some (ok, d')) ∧
      v.Added c L es x d d' ok ∧ v.Coherent d' ∧ v.Elsewhere c L d d' := by
  rcases Nat.lt_or_ge (firstFree es) (v.slots c L) with hroom | hfull
  · obtain ⟨d', hrun, hchanged, hnew, hclean'⟩ :=
      addDirectoryEntry_of_room hs hL hd h hclean hroom (by omega) hx
    refine ⟨true, d', hrun, .inside hroom (fun y hy => hchanged.entry y hy id) hnew hclean',
      hchanged.coherent, .of_changed hs hchanged (fun _ _ _ _ _ _ _ _ _ => id) ?_⟩
    rintro y M hne hdisjoint hM - s hin rfl
    exact hin.disjoint hs hM hL hne hdisjoint ⟨_, hroom, rfl⟩
  · rcases addDirectoryEntry_of_full hs hL hd h hclean hfull hshort hx
      with ⟨hnone, d', hreads, hrun⟩ | ⟨hc, n, d', hfree, hrun, hchanged, hused, hnew, hclean'⟩
    · exact ⟨false, d', hrun, .full hfull hnone hreads, hreads.table hd, .of_reads hreads⟩
    · exact ⟨true, d', hrun, .longer hfull hc hfree hused hnew hclean', hchanged.coherent,
        .of_free hs hfree hc hchanged⟩

/-! ## New directories -/

theorem endMark_ne_zero : v.endMark ≠ 0 := by
  unfold endMark
  cases v.fattype <;> decide

/-- **A new directory**: a cluster that was free becomes a directory without entries. -/
theorem newCluster_spec (hs : v.Sound) (hd : v.Coherent d) (hfree : v.Free d.disk n) :
    (v.allocateCluster n 0 d).1 = true ∧
      ∃ d', v.zeroOutCluster n (v.allocateCluster n 0 d).2 = d' ∧ v.Coherent d' ∧
        v.Elsewhere n [] d d' ∧ v.Holds d'.disk n [n] [] ∧ v.Clean d'.disk n [n] [] ∧
        ∀ y, v.InTable y →
          v.fatValue d'.disk y = if y = n then v.endMark else v.fatValue d.disk y := by
  have hn0 : n ≠ 0 := by have := hfree.1.1; omega
  have hin : v.InTable n := hs.inTable n hfree.1
  have hpair : v.allocateCluster n 0 d = (true, v.setClusterValue n v.endMark d) := by
    rw [allocateCluster, if_neg hn0, if_neg (by simp)]
  have hmark := setClusterValue_changed (x := v.endMark) hd hin
  obtain ⟨hzeroed, hzeros⟩ := zeroOutCluster_changed hs hmark.coherent hfree.1
  rw [hpair]
  refine ⟨rfl, v.zeroOutCluster n (v.setClusterValue n v.endMark d), rfl, hzeroed.coherent, ?_⟩
  generalize v.zeroOutCluster n (v.setClusterValue n v.endMark d) = d' at hzeroed hzeros ⊢
  have hvalue : ∀ y, v.InTable y →
      v.fatValue d'.disk y = if y = n then v.endMark else v.fatValue d.disk y := by
    intro y hy
    rw [hzeroed.entry y hy id, fatValue_setClusterValue hd hin hy, Nat.mod_eq_of_lt endMark_lt]
  have hchain : v.Chain d'.disk [n] := by
    refine ⟨?_, fun y hy => List.mem_singleton.1 hy ▸ hin⟩
    rw [Threaded.linked_singleton, next_eq_none_iff, hvalue n hin, if_pos rfl]
    exact isEOF_endMark
  have hclusters : v.Clusters n [n] := fun _ y hy => List.mem_singleton.1 hy ▸ hfree.1
  have hclean : v.Clean d'.disk n [n] [] := by
    intro p _ hp
    have hsector := slotSector_append_of_le (L := []) hs (fun _ y hy => absurd hy List.not_mem_nil) hfree.1 hn0
      (by simp [slots, hn0]) hp
    rw [List.nil_append] at hsector
    rw [slot, hsector, hzeros _ (Nat.mod_lt _ v.sectorspercluster_pos)]
    exact isEnd_of_zeros p
  refine ⟨.of_free hs hfree hn0 ((hmark.trans hzeroed).mono ?_ ?_),
    ⟨directory_of_chain hs rfl hchain (hclusters hn0), ?_, by decide⟩, hclean, hvalue⟩
  · rintro y (rfl | hy)
    · exact .inr rfl
    · exact hy.elim
  · rintro s (hs' | ⟨r, hr, rfl⟩)
    · exact hs'.elim
    · exact dirSector_of_cluster hs hfree.1 hr
  · exact entries_eq_of (by simp) (by simp) fun hp => hclean 0 le_rfl hp

end Volume

end AugraDosbox.Fat
