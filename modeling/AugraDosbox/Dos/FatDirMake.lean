import AugraDosbox.Dos.FatDirFiles

/-!
# New and removed directories

* `makeEntries_of_leads`, **`MakeDir_spec`** — a new directory is found afterwards, and a call
  that fails has changed nothing, except where `MakeTraces` says so;
* **`RemoveDir_spec`** — a call that fails has changed nothing;
* `DirCall` — the calls that change directories; `Honest` — what they should do;
* **`dirCalls_honest_iff`** — which calls do so.
-/

namespace AugraDosbox.Fat

open ByteMemory FirstMatch

namespace Tree

variable {v : Volume} {disk : Disk} {t : Tree v disk} {c c' i fuel : ℕ} {n : Name83}
  {names rest : List Name83} {e x : Direntry} {d d' : Drive} {attrs : UInt8} {L : List ℕ}
  {es : List Direntry}

/-! ## New directories -/

/-- The search for a directory finds it. -/
def Tests (v : Volume) (dir : List Name83) (d : Drive) : Prop :=
  ∃ N d', ∀ fuel ≥ N, v.TestDir fuel (pathText dir) d = some (true, d')

/-- A new directory that is not found: its name marks deleted entries, a file with the same name
is in front of it, or there is no room for its entry. -/
def Missed (t : Tree v disk) (c : ℕ) (n : Name83) : Prop :=
  n.MarksDeleted ∨
    (∃ e i, Named (t.entries c) n e i ∧ e.has FatAttributeFlags.Directory = false ∧
      e.has FatAttributeFlags.Hidden = false ∧ e.has FatAttributeFlags.System = false ∧
      i < firstFree (t.entries c)) ∨
    (v.slots c (t.chain c) ≤ firstFree (t.entries c) ∧
      (c = 0 ∨ ∀ a b, v.Free disk a → v.Free disk b → a = b))

/-- `MakeDir` that fails and leaves a trace, or succeeds without a new directory. -/
def MakeTraces (t : Tree v disk) (dir : List Name83) : Prop :=
  (∃ m, v.Free disk m) ∧ (∀ c, ¬ t.Leads 0 dir c) ∧ ∃ names n, dir = names ++ [n] ∧
    ((∀ c, ¬ t.Leads 0 names c) ∨ ∃ c, t.Leads 0 names c ∧ t.Missed c n)

/-- The entries of the new directory for itself and for its parent. -/
theorem addDots {m : ℕ} (hs : v.Sound) (hm : v.IsCluster m) (hd : v.Coherent d)
    (hholds : v.Holds d.disk m [m] []) (hclean : v.Clean d.disk m [m] []) (c : ℕ) :
    ∃ ok₁ d₁ ok₂ d₂, (∃ N, ∀ fuel ≥ N,
        v.addDirectoryEntry fuel m (dirEntry dotName m) d = some (ok₁, d₁) ∧
        v.addDirectoryEntry fuel m (dirEntry dotDotName c) d₁ = some (ok₂, d₂)) ∧
      v.Coherent d₂ ∧ v.Elsewhere m [m] d d₂ := by
  have hm0 : m ≠ 0 := by have := hm.1; omega
  have hclusters : v.Clusters m [m] := fun _ y hy => List.mem_singleton.1 hy ▸ hm
  have hslots : v.slots m [m] = v.sectorspercluster * 16 := by simp [Volume.slots, hm0]
  have hpos := v.sectorspercluster_pos
  have hshort : v.slots m [m] + v.sectorspercluster * 16 < 2 ^ 16 := by
    have hlt := v.sectorspercluster_lt
    omega
  obtain ⟨ok₁, d₁, ⟨N₁, hrun₁⟩, hadded, hd₁, helse₁⟩ := Volume.addDirectoryEntry_spec
    (x := dirEntry dotName m) hs hclusters hd hholds hclean hshort rfl
  obtain ⟨hholds₁, hclean₁⟩ : v.Holds d₁.disk m [m] [dirEntry dotName m] ∧
      v.Clean d₁.disk m [m] [dirEntry dotName m] := by
    cases hadded with
    | full hfull _ _ => exact absurd (show firstFree [] = 0 from rfl) (by omega)
    | inside _ _ hnew hclean' => exact ⟨hnew, hclean'⟩
    | longer hfull _ _ _ _ _ => exact absurd (show firstFree [] = 0 from rfl) (by omega)
  obtain ⟨ok₂, d₂, ⟨N₂, hrun₂⟩, -, hd₂, helse₂⟩ := Volume.addDirectoryEntry_spec
    (x := dirEntry dotDotName c) hs hclusters hd₁ hholds₁ hclean₁ hshort rfl
  exact ⟨ok₁, d₁, ok₂, d₂, ⟨max N₁ N₂, fun fuel hfuel => ⟨hrun₁ fuel (by omega),
    hrun₂ fuel (by omega)⟩⟩, hd₂, helse₁.trans helse₂⟩

/-- **A directory that is searched for after its entry has been written.** -/
theorem found_new_directory_iff (hc : t.isDir c) (hno : ∀ c', ¬ t.Leads c [n] c')
    (hname : x.entryname = n.entryname) (hattrib : x.attrib = FatAttributeFlags.Directory) :
    (∃ e i, Volume.found (insertAt (t.entries c) (firstFree (t.entries c)) x)
        FatAttributeFlags.Directory n.text = some (e, i) ∧
      e.has FatAttributeFlags.Directory = true) ↔
    ¬ (n.MarksDeleted ∨ ∃ e i, Named (t.entries c) n e i ∧
      e.has FatAttributeFlags.Directory = false ∧ e.has FatAttributeFlags.Hidden = false ∧
      e.has FatAttributeFlags.System = false ∧ i < firstFree (t.entries c)) := by
  -- a directory that is not hidden would be found without the new entry
  have hnot : ∀ e i, Named (t.entries c) n e i → ¬ e.IsPlainDir :=
    fun e i hnamed hplain => hno _ (.step hnamed hplain .here)
  have hpass : Volume.passes FatAttributeFlags.Directory x = true := by
    rw [passes_directory, Direntry.has, Direntry.has, Direntry.has, hattrib]
    decide
  rcases found_new hc hname no_label_of_directory with
    ⟨⟨hlive, -, hfirst⟩, hfound⟩ | ⟨hwhy, hfound⟩
  · refine iff_of_true ⟨x, _, hfound, by rw [Direntry.has, hattrib]; decide⟩ ?_
    rintro (hdeleted | ⟨e, i, hnamed, -, hhidden, hsystem, hlt⟩)
    · exact hlive hdeleted
    · have hle := hfirst e i hnamed (passes_directory.2 ⟨hnamed.no_label, hhidden, hsystem⟩)
      omega
  · rw [hfound]
    refine iff_of_false ?_ (not_not.2 ?_)
    · rintro ⟨e, i, he, hflag⟩
      obtain ⟨hnamed, hpasses⟩ := (found_iff hc no_label_of_directory).1 he
      exact hnot e i hnamed ⟨hflag, (passes_directory.1 hpasses).2⟩
    · rcases hwhy with hdeleted | hpass' | ⟨e, i, hnamed, hpasses, hlt⟩
      · exact .inl hdeleted
      · rw [hpass] at hpass'
        cases hpass'
      · obtain ⟨-, hhidden, hsystem⟩ := passes_directory.1 hpasses
        refine .inr ⟨e, i, hnamed, ?_, hhidden, hsystem, hlt⟩
        rw [Bool.eq_false_iff]
        exact fun hflag => hnot e i hnamed ⟨hflag, hhidden, hsystem⟩

/-- **The entries that `MakeDir` makes** when it finds the parent directory. -/
theorem makeEntries_of_leads {m : ℕ} (h : t.Tidy) (hsees : t.Sees d) (hm : v.Free disk m)
    (hvalue : ∀ y, v.InTable y →
      v.fatValue d.disk y = if y = m then v.endMark else v.fatValue disk y)
    (hholds : v.Holds d.disk m [m] []) (hclean : v.Clean d.disk m [m] [])
    (hleads : t.Leads 0 names c) (hno : ∀ c', ¬ t.Leads 0 (names ++ [n]) c')
    (hlen : (pathText (names ++ [n])).length < DOS_PATHLENGTH) :
    ∃ d', (∃ N, ∀ fuel ≥ N,
        v.makeEntries fuel (pathText (names ++ [n])) n.entryname m d = some (true, d')) ∧
      (Tests v (names ++ [n]) d' ↔ ¬ t.Missed c n) := by
  have hc : t.isDir c := (hleads.isDir t.root).1
  have hno' : ∀ c', ¬ t.Leads c [n] c' := fun c' h' => hno c' (hleads.append h')
  have hmclusters : v.Clusters m [m] := fun _ y hy => List.mem_singleton.1 hy ▸ hm.1
  obtain ⟨res, d₁, hreads, hres, N₁, hrun₁⟩ := getDirClustNum_parent hsees hlen
  obtain rfl : res = some c := (hres c).2 hleads
  have hsees₁ := hsees.reads hreads
  rw [← hreads.disk] at hholds hclean hvalue
  -- another free cluster
  have hfree₁ : ∀ k, v.Free d₁.disk k ↔ v.Free disk k ∧ k ≠ m := by
    intro k
    constructor
    · rintro ⟨hk, hzero⟩
      rw [hvalue k (h.sound.inTable k hk)] at hzero
      split_ifs at hzero with heq
      · exact absurd hzero Volume.endMark_ne_zero
      · exact ⟨⟨hk, hzero⟩, heq⟩
    · rintro ⟨⟨hk, hzero⟩, hne⟩
      refine ⟨hk, ?_⟩
      rw [hvalue k (h.sound.inTable k hk), if_neg hne, hzero]
  obtain ⟨ok₂, d₂, ⟨N₂, hrun₂⟩, hadded, hd₂, helse₂⟩ :=
    Volume.addDirectoryEntry_spec (x := dirEntry n.entryname m) h.sound (h.clusters c hc)
      hsees₁.coherent (hsees₁.shows c hc).1 (hsees₁.shows c hc).2 (h.roomy c hc)
      (isEnd_of_name rfl)
  obtain ⟨hcm, hmc⟩ := h.not_mem_of_free hm hc
  obtain ⟨hholds₂, hclean₂⟩ := helse₂ m [m] [] (Ne.symm hcm)
    (fun _ hc0 => List.singleton_disjoint.2 (hmc hc0)) hmclusters hholds hclean
  obtain ⟨ok₃, d₃, ok₄, d₄, ⟨N₄, hrun₄⟩, hd₄, helse₄⟩ :=
    addDots h.sound hm.1 hd₂ hholds₂ hclean₂ c
  refine ⟨d₄, ⟨max N₁ (max N₂ N₄), fun fuel hfuel => ?_⟩, ?_⟩
  · obtain ⟨hdot, hdotdot⟩ := hrun₄ fuel (by omega)
    simp [Volume.makeEntries, hrun₁ fuel (by omega), hrun₂ fuel (by omega), hdot, hdotdot]
  · -- the directories on the way to the parent
    have hsame : ∀ y, t.isDir y → t.depth y < t.depth c →
        v.Holds d₄.disk y (t.chain y) (t.entries y) := by
      intro y hy hlt
      have hyc : y ≠ c := by
        rintro rfl
        exact lt_irrefl _ hlt
      obtain ⟨hym, hmy⟩ := h.not_mem_of_free hm hy
      obtain ⟨hy₂, hyclean₂⟩ := helse₂ y _ _ hyc (h.disjoint y c hy hc hyc) (h.clusters y hy)
        (hsees₁.shows y hy).1 (hsees₁.shows y hy).2
      exact (helse₄ y _ _ hym (fun hy0 _ => List.disjoint_singleton.2 (hmy hy0))
        (h.clusters y hy) hy₂ hyclean₂).1
    -- what the search for the new directory says
    have htests : ∀ {L es}, v.Clusters c L → (c ≠ 0 → m ∉ L) → v.Holds d₂.disk c L es →
        v.Clean d₂.disk c L es → (Tests v (names ++ [n]) d₄ ↔
          ∃ e i, Volume.found es FatAttributeFlags.Directory n.text = some (e, i) ∧
            e.has FatAttributeFlags.Directory = true) := by
      intro L es hL hmL hL₂ hLclean₂
      have hL₄ := (helse₄ c L es hcm (fun hc0 _ => List.disjoint_singleton.2 (hmL hc0)) hL hL₂
        hLclean₂).1
      obtain ⟨ok, d₅, ⟨N₅, hrun₅⟩, hok⟩ := testDir_of_leads hleads hd₄ hsame hL₄ hlen
      rw [← hok]
      constructor
      · rintro ⟨N, d', htest⟩
        have heq := (hrun₅ (max N N₅) (le_max_right _ _)).symm.trans
          (htest (max N N₅) (le_max_left _ _))
        exact (Prod.mk.inj (Option.some.inj heq)).1
      · rintro rfl
        exact ⟨N₅, d₅, hrun₅⟩
    have hnew := found_new_directory_iff (x := dirEntry n.entryname m) hc hno' rfl rfl
    cases hadded with
    | full hfull hnone hreads₂ =>
      obtain ⟨hc₂, hcclean₂⟩ := (hsees₁.reads hreads₂).shows c hc
      rw [htests (h.clusters c hc) hmc hc₂ hcclean₂]
      refine iff_of_false ?_ (not_not.2 (.inr (.inr ⟨hfull, ?_⟩)))
      · rintro ⟨e, i, he, hflag⟩
        obtain ⟨hnamed, hpasses⟩ := (found_iff hc no_label_of_directory).1 he
        exact hno' _ (.step hnamed ⟨hflag, (passes_directory.1 hpasses).2⟩ .here)
      · refine hnone.imp_right fun hnone a b ha hb => ?_
        have hunique : ∀ k, v.Free disk k → k = m := fun k hk =>
          not_not.1 fun hne => hnone k ((hfree₁ k).2 ⟨hk, hne⟩)
        rw [hunique a ha, hunique b hb]
    | inside hroom _ hc₂ hcclean₂ =>
      rw [htests (h.clusters c hc) hmc hc₂ hcclean₂, hnew, Missed]
      refine not_congr ⟨fun hwhy => hwhy.imp_right .inl, ?_⟩
      rintro (hdeleted | hfile | ⟨hfull, -⟩)
      · exact .inl hdeleted
      · exact .inr hfile
      · omega
    | @longer k hfull hc0 hk _ hc₂ hcclean₂ =>
      obtain ⟨hk, hkm⟩ := (hfree₁ k).1 hk
      have hmL : c ≠ 0 → m ∉ t.chain c ++ [k] := by
        intro _ hmem
        rcases List.mem_append.1 hmem with hmem | hmem
        · exact hmc hc0 hmem
        · exact hkm (List.mem_singleton.1 hmem).symm
      rw [htests (Volume.clusters_append (h.clusters c hc) hk.1) hmL hc₂ hcclean₂, hnew, Missed]
      refine not_congr ⟨fun hwhy => hwhy.imp_right .inl, ?_⟩
      rintro (hdeleted | hfile | ⟨-, hzero | hunique⟩)
      · exact .inl hdeleted
      · exact .inr hfile
      · exact absurd hzero hc0
      · exact absurd (hunique k m hk hm) hkm

/-- **`MakeDir`** either succeeds with a directory that can be found, or leaves everything as it
was, except where `MakeTraces` says so. -/
theorem MakeDir_spec {dir : List Name83} (IsReadOnly : Bool) (h : t.Tidy) (hd : v.Coherent d)
    (hdisk : d.disk = disk) (hlen : (pathText dir).length < DOS_PATHLENGTH) :
    ∃ ok d', (∃ N, ∀ fuel ≥ N, v.MakeDir fuel IsReadOnly (pathText dir) d = some (ok, d')) ∧
      ((ok = false → t.Kept d'.disk) ∧ (ok = true → Tests v dir d') ↔
        ¬ (IsReadOnly = false ∧ t.MakeTraces dir)) := by
  -- the exits in front of the first write
  have hkept : ∀ {d'}, Reads v d d' →
      (false = false → t.Kept d'.disk) ∧ (false = true → Tests v dir d') :=
    fun hreads => ⟨fun _ => .of_reads hdisk hreads, by simp⟩
  cases IsReadOnly with
  | true =>
    exact ⟨false, d, ⟨0, fun fuel _ => rfl⟩, iff_of_true (hkept (.refl d)) (by simp)⟩
  | false =>
    obtain ⟨clust, d₁, hreads₁, hclust, N₁, hrun₁⟩ := getDirClustNum_spec (h.sees hd hdisk) hlen
    cases clust with
    | some c =>
      refine ⟨false, d₁, ⟨N₁, fun fuel hfuel => ?_⟩, iff_of_true (hkept hreads₁) ?_⟩
      · simp [Volume.MakeDir, hrun₁ fuel hfuel]
      · rintro ⟨-, -, hno, -⟩
        exact hno c ((hclust c).1 rfl)
    | none =>
      have hno : ∀ c, ¬ t.Leads 0 dir c := fun c hleads => nomatch (hclust c).2 hleads
      obtain ⟨names, n, rfl⟩ : ∃ names n, dir = names ++ [n] := by
        refine ⟨_, _, (List.dropLast_append_getLast ?_).symm⟩
        rintro rfl
        exact hno 0 .here
      have hfirst := Volume.getFirstFreeClust_eq h.sound (hreads₁.table hd)
      have hreads₂ : Reads v d₁ (v.getFirstFreeClust d₁).2 := Volume.getFirstFreeClust_reads
      rw [hreads₁.disk, hdisk] at hfirst
      cases hpair : v.getFirstFreeClust d₁ with
      | mk m d₂ =>
        rw [hpair] at hfirst hreads₂
        have hreads := hreads₁.trans hreads₂
        have hdisk₂ : d₂.disk = disk := hreads.disk.trans hdisk
        rcases hfirst with ⟨hzero, hnone⟩ | ⟨hcluster, hvalue⟩
        · refine ⟨false, d₂, ⟨N₁, fun fuel hfuel => ?_⟩, iff_of_true (hkept hreads) ?_⟩
          · obtain rfl : m = 0 := hzero
            simp [Volume.MakeDir, hrun₁ fuel hfuel, hpair]
          · rintro ⟨-, ⟨k, hk⟩, -⟩
            exact hnone k hk.1 hk.2
        · have hm : v.Free disk m := ⟨hcluster, hvalue⟩
          have hm0 : m ≠ 0 := by have := hcluster.1; omega
          have hm₂ : v.Free d₂.disk m := by rwa [hdisk₂]
          obtain ⟨hallocated, d₃, hnew, hd₃, helse, hholds, hclean, hvalue₃⟩ :=
            Volume.newCluster_spec h.sound (hreads.table hd) hm₂
          rw [hdisk₂] at hvalue₃
          have hsees₂ := h.sees (hreads.table hd) hdisk₂
          have hsees₃ : t.Sees d₃ := ⟨hd₃, fun c hc => helse c _ _ (h.not_mem_of_free hm hc).1
            (fun _ _ => List.disjoint_nil_right _) (h.clusters c hc) (hsees₂.shows c hc).1
            (hsees₂.shows c hc).2⟩
          have hname := convToDirFile_getEntryName hlen
          have hMakeDir : ∀ fuel ≥ N₁, v.MakeDir fuel false (pathText (names ++ [n])) d =
              v.makeEntries fuel (pathText (names ++ [n])) n.entryname m d₃ := by
            intro fuel hfuel
            simp [Volume.MakeDir, hrun₁ fuel hfuel, hpair, hm0, hallocated, hnew, hname]
          have htraces : t.MakeTraces (names ++ [n]) ↔ (∀ c, ¬ t.Leads 0 names c) ∨
              ∃ c, t.Leads 0 names c ∧ t.Missed c n := by
            constructor
            · rintro ⟨-, -, names', n', heq, hwhy⟩
              obtain ⟨rfl, hn⟩ := List.append_inj' heq rfl
              obtain rfl := (List.cons.inj hn).1
              exact hwhy
            · exact fun hwhy => ⟨⟨m, hm⟩, hno, names, n, rfl, hwhy⟩
          rw [and_iff_right rfl, htraces]
          obtain ⟨res, d₄, hreads₄, hres, N₄, hrun₄⟩ := getDirClustNum_parent hsees₃ hlen
          cases res with
          | none =>
            -- the cluster stays allocated
            refine ⟨false, d₄, ⟨max N₁ N₄, fun fuel hfuel => ?_⟩,
              iff_of_false ?_ (not_not.2 (.inl fun c hleads => nomatch (hres c).2 hleads))⟩
            · rw [hMakeDir fuel (by omega)]
              simp [Volume.makeEntries, hrun₄ fuel (by omega)]
            · rintro ⟨hkept', -⟩
              refine not_kept_of_used h.sound hm ?_ (hkept' rfl)
              rw [hreads₄.disk, hvalue₃ m (h.sound.inTable m hm.1), if_pos rfl]
              exact Volume.endMark_ne_zero
          | some c =>
            have hleads := (hres c).1 rfl
            obtain ⟨d₅, ⟨N₅, hrun₅⟩, htests⟩ :=
              makeEntries_of_leads h hsees₃ hm hvalue₃ hholds hclean hleads hno hlen
            refine ⟨true, d₅, ⟨max N₁ N₅, fun fuel hfuel => ?_⟩, ?_⟩
            · rw [hMakeDir fuel (by omega), hrun₅ fuel (by omega)]
            · have hmissed : ((∀ c', ¬ t.Leads 0 names c') ∨
                  ∃ c', t.Leads 0 names c' ∧ t.Missed c' n) ↔ t.Missed c n := by
                constructor
                · rintro (hnone | ⟨c', hleads', hmissed⟩)
                  · exact absurd hleads (hnone c)
                  · obtain rfl := Option.some.inj ((hres c').2 hleads')
                    exact hmissed
                · exact fun hmissed => .inr ⟨c, hleads, hmissed⟩
              rw [hmissed, ← htests]
              simp

/-! ## Removed directories -/

/-- The count of the files in a directory. -/
theorem run_countStep (hd : v.Coherent d) (h : v.Holds d.disk c L es) (k filecount : ℕ) :
    ∃ filecount' d', Reads v d d' ∧ ∀ rounds > es.length - k,
      Loop.run (v.countStep c) rounds (filecount, (k : ℤ), d) = some (filecount', d') := by
  induction hleft : es.length - k generalizing k filecount d with
  | zero =>
    obtain ⟨d', hreads, hbrowse⟩ := Volume.directoryBrowse_eq hd h k
    rw [List.getElem?_eq_none (by omega)] at hbrowse
    refine ⟨filecount, d', hreads, fun rounds hrounds => ?_⟩
    obtain ⟨rounds, rfl⟩ : ∃ r, rounds = r + 1 := ⟨rounds - 1, by omega⟩
    refine Loop.run_of_inr ?_
    simp only [Volume.countStep, hbrowse]
  | succ left ih =>
    obtain ⟨d₁, hreads, hbrowse⟩ := Volume.directoryBrowse_eq hd h k
    obtain ⟨e, he⟩ : ∃ e, es[k]? = some e := ⟨_, List.getElem?_eq_getElem (by omega)⟩
    rw [he] at hbrowse
    obtain ⟨filecount', d', hreads', hrun⟩ := ih (hreads.table hd) (by rw [hreads.disk]; exact h)
      (k + 1) (if e.isDeleted then filecount else u32 (filecount + 1)) (by omega)
    refine ⟨filecount', d', hreads.trans hreads', fun rounds hrounds => ?_⟩
    obtain ⟨rounds, rfl⟩ : ∃ r, rounds = r + 1 := ⟨rounds - 1, by omega⟩
    have hstep : v.countStep c (filecount, (k : ℤ), d) =
        .inl (if e.isDeleted then filecount else u32 (filecount + 1), ((k + 1 : ℕ) : ℤ), d₁) := by
      simp only [Volume.countStep, hbrowse]
      rfl
    rw [Loop.run_of_inl hstep]
    exact hrun rounds (by omega)

theorem directoryChange_changed (hs : v.Sound) (hL : v.Clusters c L) (hd : v.Coherent d)
    (h : v.Holds d.disk c L es) (x : Direntry) (k : ℕ) :
    v.Changed (fun _ => False) (fun _ => True) d (v.directoryChange c x (k : ℤ) d).2 := by
  obtain ⟨d₁, hreads, hsector⟩ := Volume.entrySector_eq (n := k) hd h (Nat.zero_le _)
  rw [Volume.directoryChange, if_neg (by omega), Int.toNat_natCast, hsector, Nat.zero_add]
  have hread : v.Changed (fun _ => False) (fun _ => True) d d₁ := .of_reads hreads hd
  by_cases hk : k < es.length
  · rw [if_pos hk]
    dsimp only
    by_cases hzero : v.slotSector c L k = 0
    · rw [if_neg (not_not.2 hzero)]
      exact hread
    · rw [if_pos hzero]
      have htable : ¬ v.TableSector (v.slotSector c L k) :=
        Volume.DirSector.not_tableSector hs hL ⟨k, hk.trans_le h.length_le, rfl⟩
      exact (hread.trans (Volume.writeSector_changed hread.coherent htable)).mono (by simp)
        (by simp)
  · rw [if_neg hk]
    exact hread

/-- The links of a chain lead to clusters of the chain. -/
theorem linksInTable_of_chain {disk' : Disk} (hchain : v.Chain disk' L) (hhead : L.head? = some c) :
    v.LinksInTable disk' c := by
  intro k hk
  suffices hmem : v.link disk' k c ∈ L from hchain.inTable _ hmem
  induction k with
  | zero => exact List.mem_of_mem_head? hhead
  | succ k ih =>
    have hin := ih fun j hj => hk j (by omega)
    obtain ⟨-, heof⟩ := hk k (by omega)
    rw [Volume.link_succ] at heof ⊢
    generalize v.link disk' k c = y at hin heof ⊢
    obtain ⟨A, B, rfl⟩ := List.append_of_mem hin
    cases B with
    | nil =>
      have hlast := Volume.next_eq_none_iff.1 hchain.linked.last
      rw [heof] at hlast
      cases hlast
    | cons z B =>
      have hnext : v.next disk' y = some z := hchain.linked.entry
      rw [Volume.next, if_neg (by simp [heof])] at hnext
      rw [Option.some.inj hnext]
      simp

/-- The deletion of a chain comes to an end. -/
theorem deleteClustChain_run (hd : v.Coherent d) (hchain : v.Chain d.disk L)
    (hhead : L.head? = some c) :
    ∃ N d', ∀ fuel ≥ N, v.deleteClustChain fuel c 0 d = some d' := by
  obtain ⟨N, hsome⟩ := Volume.deleteClustChain_finishes hd
    (linksInTable_of_chain hchain hhead)
  obtain ⟨d', hrun⟩ := Option.isSome_iff_exists.1 hsome
  exact ⟨N, d', fun fuel hfuel => Loop.run_mono hrun hfuel⟩

/-- The search for the entry of a directory, which is then deleted with its chain `M`. -/
theorem run_removeStep {m : ℕ} {M : List ℕ} (hs : v.Sound) (hL : v.Clusters c L)
    (hd : v.Coherent d) (h : v.Holds d.disk c L es) (hchain : v.Chain d.disk M)
    (hhead : M.head? = some m) (pathName : Vector UInt8 11) (k : ℕ) :
    ∃ ok d', (ok = false → Reads v d d') ∧ ∃ N, ∀ fuel ≥ N, ∀ rounds > es.length - k,
      Loop.run (v.removeStep fuel c m pathName) rounds ((k : ℤ), d) = some (some (ok, d')) := by
  induction hleft : es.length - k generalizing k d with
  | zero =>
    obtain ⟨d', hreads, hbrowse⟩ := Volume.directoryBrowse_eq hd h k
    rw [List.getElem?_eq_none (by omega)] at hbrowse
    refine ⟨false, d', fun _ => hreads, 0, fun fuel _ rounds hrounds => ?_⟩
    obtain ⟨rounds, rfl⟩ : ∃ r, rounds = r + 1 := ⟨rounds - 1, by omega⟩
    refine Loop.run_of_inr ?_
    simp only [Volume.removeStep, hbrowse]
  | succ left ih =>
    obtain ⟨d₁, hreads, hbrowse⟩ := Volume.directoryBrowse_eq hd h k
    obtain ⟨e, he⟩ : ∃ e, es[k]? = some e := ⟨_, List.getElem?_eq_getElem (by omega)⟩
    rw [he] at hbrowse
    have hd₁ := hreads.table hd
    have h₁ : v.Holds d₁.disk c L es := by rwa [hreads.disk]
    have hchain₁ : v.Chain d₁.disk M := by rwa [hreads.disk]
    by_cases hname : e.entryname = pathName
    · have hchanged := directoryChange_changed hs hL hd₁ h₁ e.markDeleted k
      obtain ⟨N, d', hdelete⟩ := deleteClustChain_run hchanged.coherent
        (hchanged.chain hchain₁ fun _ _ => id) hhead
      refine ⟨true, d', by simp, N, fun fuel hfuel rounds hrounds => ?_⟩
      obtain ⟨rounds, rfl⟩ : ∃ r, rounds = r + 1 := ⟨rounds - 1, by omega⟩
      refine Loop.run_of_inr ?_
      simp only [Volume.removeStep, hbrowse, if_pos hname, hdelete fuel hfuel, Option.map_some]
    · obtain ⟨ok, d', hok, N, hrun⟩ := ih hd₁ h₁ hchain₁ (k + 1) (by omega)
      refine ⟨ok, d', fun hfalse => hreads.trans (hok hfalse), N,
        fun fuel hfuel rounds hrounds => ?_⟩
      obtain ⟨rounds, rfl⟩ : ∃ r, rounds = r + 1 := ⟨rounds - 1, by omega⟩
      have hstep : v.removeStep fuel c m pathName ((k : ℤ), d) =
          .inl (((k + 1 : ℕ) : ℤ), d₁) := by
        simp only [Volume.removeStep, hbrowse, if_neg hname]
        rfl
      rw [Loop.run_of_inl hstep]
      exact hrun fuel hfuel rounds (by omega)

/-- **`RemoveDir`** either succeeds or leaves everything as it was. -/
theorem RemoveDir_spec {dir : List Name83} (IsReadOnly : Bool) (h : t.Tidy) (hd : v.Coherent d)
    (hdisk : d.disk = disk) (hlen : (pathText dir).length < DOS_PATHLENGTH) :
    ∃ ok d', (∃ N, ∀ fuel ≥ N, v.RemoveDir fuel IsReadOnly (pathText dir) d = some (ok, d')) ∧
      (ok = false → t.Kept d'.disk) := by
  cases IsReadOnly with
  | true => exact ⟨false, d, ⟨0, fun fuel _ => rfl⟩, fun _ => .of_reads hdisk (.refl d)⟩
  | false =>
    obtain ⟨clust, d₁, hreads₁, hclust, N₁, hrun₁⟩ := getDirClustNum_spec (h.sees hd hdisk) hlen
    cases clust with
    | none =>
      refine ⟨false, d₁, ⟨N₁, fun fuel hfuel => ?_⟩, fun _ => .of_reads hdisk hreads₁⟩
      simp [Volume.RemoveDir, hrun₁ fuel hfuel]
    | some m =>
      have hleads := (hclust m).1 rfl
      have hm : t.isDir m := (hleads.isDir t.root).1
      by_cases hm0 : m = 0
      · refine ⟨false, d₁, ⟨N₁, fun fuel hfuel => ?_⟩, fun _ => .of_reads hdisk hreads₁⟩
        simp [Volume.RemoveDir, hrun₁ fuel hfuel, hm0]
      · obtain ⟨names, n, rfl⟩ : ∃ names n, dir = names ++ [n] := by
          refine ⟨_, _, (List.dropLast_append_getLast ?_).symm⟩
          rintro rfl
          exact hm0 (leads_nil.1 hleads).symm
        have hsees₁ := (h.sees hd hdisk).reads hreads₁
        obtain ⟨dirClust, d₂, hreads₂, hdirClust, N₂, hrun₂⟩ := getDirClustNum_parent hsees₁ hlen
        have hreads₁₂ := hreads₁.trans hreads₂
        cases dirClust with
        | none =>
          refine ⟨false, d₂, ⟨max N₁ N₂, fun fuel hfuel => ?_⟩,
            fun _ => .of_reads hdisk hreads₁₂⟩
          simp [Volume.RemoveDir, hrun₁ fuel (by omega), hrun₂ fuel (by omega), hm0]
        | some c =>
          have hc : t.isDir c := (((hdirClust c).1 rfl).isDir t.root).1
          have hsees₂ := hsees₁.reads hreads₂
          obtain ⟨filecount, d₃, hreads₃, hcount⟩ :=
            run_countStep hsees₂.coherent (hsees₂.shows m hm).1 2 0
          have hreads := hreads₁₂.trans hreads₃
          have hsees₃ := hsees₂.reads hreads₃
          by_cases hempty : 0 < filecount
          · refine ⟨false, d₃, ⟨max (max N₁ N₂) ((t.entries m).length + 1), fun fuel hfuel => ?_⟩,
              fun _ => .of_reads hdisk hreads⟩
            have hfiles := hcount fuel (by omega)
            rw [Nat.cast_ofNat] at hfiles
            simp [Volume.RemoveDir, hrun₁ fuel (by omega), hrun₂ fuel (by omega), hm0, hfiles,
              hempty]
          · obtain ⟨hhead, hchain⟩ := (hsees₃.shows m hm).1.directory.chain hm0
            obtain ⟨ok, d₄, hok, N₄, hrun₄⟩ := run_removeStep h.sound (h.clusters c hc)
              hsees₃.coherent (hsees₃.shows c hc).1 hchain hhead n.entryname
              (if c = 0 then 0 else 2)
            refine ⟨ok, d₄, ⟨max (max N₁ N₂) (max N₄ ((t.entries m).length +
              (t.entries c).length + 1)), fun fuel hfuel => ?_⟩,
              fun hfalse => .of_reads hdisk (hreads.trans (hok hfalse))⟩
            have hfiles := hcount fuel (by omega)
            have hremove := hrun₄ fuel (by omega) fuel (by omega)
            have hstart : ((if c = 0 then 0 else 2 : ℕ) : ℤ) = if c = 0 then 0 else 2 := by
              split_ifs <;> rfl
            rw [Nat.cast_ofNat] at hfiles
            rw [hstart] at hremove
            simp [Volume.RemoveDir, hrun₁ fuel (by omega), hrun₂ fuel (by omega), hm0, hfiles,
              hempty, convToDirFile_getEntryName hlen, hremove]

end Tree

/-! ## All calls -/

/-- The calls that change directories. -/
inductive DirCall where
  | makeDir (dir : List Name83)
  | removeDir (dir : List Name83)
  | rename (oldname newname : List Name83)
  | fileCreate (name : List Name83) (attributes : UInt8) (modTime modDate : UInt16)

namespace DirCall

/-- Whether the call reports success, and the drive afterwards. -/
def run (v : Volume) (fuel : ℕ) (IsReadOnly : Bool) (d : Drive) : DirCall → Option (Bool × Drive)
  | makeDir dir => v.MakeDir fuel IsReadOnly (pathText dir) d
  | removeDir dir => v.RemoveDir fuel IsReadOnly (pathText dir) d
  | rename oldname newname => v.Rename fuel IsReadOnly (pathText oldname) (pathText newname) d
  | fileCreate name attributes modTime modDate =>
    (v.FileCreate fuel IsReadOnly (pathText name) attributes modTime modDate d).map
      fun (file, d) => (file.isSome, d)

variable {v : Volume} {disk : Disk}

/-- Paths that are not too long; files have names, and a file that is created is a new one.
`DOS_CreateFile` does not let directories be created. -/
def Admissible (t : Tree v disk) : DirCall → Prop
  | makeDir dir => (pathText dir).length < DOS_PATHLENGTH
  | removeDir dir => (pathText dir).length < DOS_PATHLENGTH
  | rename oldname newname => oldname ≠ [] ∧ newname ≠ [] ∧
    (pathText oldname).length < DOS_PATHLENGTH ∧ (pathText newname).length < DOS_PATHLENGTH
  | fileCreate name attributes _ _ => name ≠ [] ∧ (pathText name).length < DOS_PATHLENGTH ∧
    attributes &&& FatAttributeFlags.Directory = 0 ∧ ∀ r, ¬ t.Opens name r

/-- A call that fails changes nothing, and a directory that has been made is there. -/
def Honest (t : Tree v disk) (ok : Bool) (d' : Drive) (call : DirCall) : Prop :=
  (ok = false → t.Kept d'.disk) ∧
    ∀ dir, call = makeDir dir → ok = true → Tree.Tests v dir d'

/-- The calls that are not honest, by the directories as they are before. -/
def Deviates (t : Tree v disk) (IsReadOnly : Bool) : DirCall → Prop
  | makeDir dir => IsReadOnly = false ∧ t.MakeTraces dir
  | removeDir _ => False
  | rename oldname newname => IsReadOnly = false ∧ t.RenameTraces oldname newname
  | fileCreate name attributes modTime modDate =>
    IsReadOnly = false ∧ t.CreateTraces name attributes modTime modDate

end DirCall

/-- **Which calls are honest.**  A call that changes directories comes to an end.  If it fails,
the table and all entries are as before, and a directory that has been made is found, exactly
when the call is not one of those that deviate. -/
theorem dirCalls_honest_iff (v : Volume) (d : Drive) (t : Tree v d.disk) (call : DirCall)
    (IsReadOnly : Bool) (htidy : t.Tidy) (hd : v.Coherent d) (hcall : call.Admissible t) :
    ∃ ok d', (∃ N, ∀ fuel ≥ N, call.run v fuel IsReadOnly d = some (ok, d')) ∧
      (call.Honest t ok d' ↔ ¬ call.Deviates t IsReadOnly) := by
  cases call with
  | makeDir dir =>
    obtain ⟨ok, d', hrun, hhonest⟩ := Tree.MakeDir_spec IsReadOnly htidy hd rfl hcall
    refine ⟨ok, d', hrun, Iff.trans (and_congr_right fun _ => ?_) hhonest⟩
    constructor
    · exact fun htests => htests dir rfl
    · rintro htests _ heq
      obtain rfl := DirCall.makeDir.inj heq
      exact htests
  | removeDir dir =>
    obtain ⟨ok, d', hrun, hkept⟩ := Tree.RemoveDir_spec IsReadOnly htidy hd rfl hcall
    exact ⟨ok, d', hrun, iff_of_true ⟨hkept, nofun⟩ id⟩
  | rename oldname newname =>
    obtain ⟨hold, hnew, holdlen, hnewlen⟩ := hcall
    obtain ⟨ok, d', hrun, hkept⟩ :=
      Tree.Rename_spec IsReadOnly htidy hd rfl hold hnew holdlen hnewlen
    exact ⟨ok, d', hrun, Iff.trans (and_iff_left nofun) hkept⟩
  | fileCreate name attributes modTime modDate =>
    obtain ⟨hne, hlen, hattributes, hnew⟩ := hcall
    obtain ⟨file, d', ⟨N, hrun⟩, hkept⟩ := Tree.FileCreate_spec IsReadOnly attributes modTime
      modDate htidy hd rfl hne hlen hattributes hnew
    rw [← Option.isNone_iff_eq_none, ← Option.isSome_eq_false_iff] at hkept
    refine ⟨file.isSome, d', ⟨N, fun fuel hfuel => ?_⟩, Iff.trans (and_iff_left nofun) hkept⟩
    rw [DirCall.run, hrun fuel hfuel]
    rfl

/-! ## A small volume -/

theorem sample_tidy : sampleTree.Tidy where
  sound := Volume.floppy1440_sound
  clusters := by
    rintro c (rfl | rfl) hc y hy
    · exact absurd rfl hc
    · rw [List.mem_singleton.1 hy]
      decide
  disjoint := by
    rintro c c' (rfl | rfl) (rfl | rfl) hne hc hc'
    · exact absurd rfl hc
    · exact absurd rfl hc
    · exact absurd rfl hc'
    · exact absurd rfl hne
  clean := by
    rintro c (rfl | rfl) p hle hp
    · have hes : sampleTree.entries 0 = [fileA, dirD] := sample_root
      rw [hes] at hle
      have hp' : p < 224 := hp
      have hsector : floppy1440.slotSector 0 (sampleTree.chain 0) p = 19 + p / 16 :=
        u32_of_lt (show 19 + p / 16 < 2 ^ 32 by omega)
      rw [Volume.slot, hsector]
      by_cases hfirst : p < 16
      · have hend : ∀ p < 16, 2 ≤ p →
            (Volume.sectorEntry (sectorOf [fileA, dirD]) p).isEnd = true := by decide
        rw [Nat.div_eq_of_lt hfirst]
        exact hend p hfirst hle
      · have hzero : sampleDisk (19 + p / 16) = fun _ => 0 := by
          rw [sampleDisk, if_neg (by omega), if_neg (by omega), if_neg (by omega)]
        rw [hzero]
        exact Volume.isEnd_of_zeros p
    · have hes : sampleTree.entries 2 = [selfD, parentD, fileF] := sample_dir
      rw [hes] at hle
      have hsector : ∀ p < 16, floppy1440.slotSector 2 (sampleTree.chain 2) p = 33 := by decide
      have hend : ∀ p < 16, 3 ≤ p →
          (Volume.sectorEntry (sectorOf [selfD, parentD, fileF]) p).isEnd = true := by decide
      rw [Volume.slot, hsector p hp]
      exact hend p hp hle
  roomy := by
    rintro c (rfl | rfl)
    · decide
    · decide

theorem dirCalls_honest_iff_sample :
    ∃ ok d', (∃ N, ∀ fuel ≥ N, (DirCall.makeDir [nameD, nameA]).run floppy1440 fuel false
        (.mounted sampleDisk) = some (ok, d')) ∧
      ((DirCall.makeDir [nameD, nameA]).Honest sampleTree ok d' ↔
        ¬ (DirCall.makeDir [nameD, nameA]).Deviates sampleTree false) :=
  dirCalls_honest_iff floppy1440 (.mounted sampleDisk) sampleTree (.makeDir [nameD, nameA]) false
    sample_tidy (Volume.mounted_coherent _ (by decide))
    (show (pathText [nameD, nameA]).length < DOS_PATHLENGTH by decide)

/-- **A directory in a directory that is missing**: `F\A` is not made, and a cluster is no longer
free. -/
theorem cluster_lost_without_parent :
    sampleTree.Tidy ∧ (DirCall.makeDir [nameF, nameA]).Admissible sampleTree ∧
      ∃ ok d', (∃ N, ∀ fuel ≥ N, (DirCall.makeDir [nameF, nameA]).run floppy1440 fuel false
          (.mounted sampleDisk) = some (ok, d')) ∧
        ¬ (DirCall.makeDir [nameF, nameA]).Honest sampleTree ok d' := by
  refine ⟨sample_tidy, show (pathText [nameF, nameA]).length < DOS_PATHLENGTH by decide, ?_⟩
  have hmissing : ∀ c rest, ¬ sampleTree.Leads 0 (nameF :: rest) c := by
    intro c rest hleads
    have hes : sampleTree.entries 0 = [fileA, dirD] := sample_root
    cases hleads with
    | step hnamed hplain _ =>
      rw [hes] at hnamed
      rcases named_sample_root hnamed with rfl | rfl
      · exact absurd hplain.1 (by decide)
      · exact absurd hnamed.name (by decide)
  have htraces : sampleTree.MakeTraces [nameF, nameA] :=
    ⟨⟨3, by decide, by decide⟩, fun c => hmissing c [nameA], [nameF], nameA, rfl,
      .inl fun c => hmissing c []⟩
  obtain ⟨ok, d', hrun, hhonest⟩ := @Tree.MakeDir_spec _ _ sampleTree (.mounted sampleDisk)
    [nameF, nameA] false sample_tidy (Volume.mounted_coherent _ (by decide)) rfl
    (by decide)
  refine ⟨ok, d', hrun, fun hall => ?_⟩
  exact hhonest.1 ⟨hall.1, hall.2 _ rfl⟩ ⟨rfl, htraces⟩

end AugraDosbox.Fat
