import AugraDosbox.Dos.FatChains

/-!
# Searches in a directory

* `entries` — the entries of a directory, up to the first zero entry;
* `findStep_of_lt`, `findStep_of_eq` — one round of `FindNextInternal`, at an entry and behind
  the last one;
* `find_run` — a search goes over the entries in front of the next one that it returns;
* `lookup_reads`, `getDirClustNum_reads`, `getDirClustNum_mono` — searches only read, and
  further rounds do not change what they find;
* **`findAll_eq`** — `FindFirst` and `FindNext` return the entries that are searched for, in
  the order in which they are on the disk.
-/

namespace AugraDosbox.Fat

open ByteMemory

/-- What of an entry is returned to the guest. -/
structure Result where
  name : CString
  size : UInt32
  date : UInt16
  time : UInt16
  attr : UInt8
deriving DecidableEq, Repr

def Direntry.result (e : Direntry) : Result :=
  ⟨findName e.entryname, e.entrysize, e.modDate, e.modTime, e.attrib⟩

namespace DTA

def result (dta : DTA) : Result := ⟨dta.name, dta.size, dta.date, dta.time, dta.attr⟩

/-- The two areas belong to the same search. -/
structure SameSearch (dta dta' : DTA) : Prop where
  params : dta'.GetSearchParams = dta.GetSearchParams
  dirCluster : dta'.dirCluster = dta.dirCluster

theorem SameSearch.refl (dta : DTA) : SameSearch dta dta := ⟨rfl, rfl⟩

theorem SameSearch.trans {dta dta' dta'' : DTA} (h : SameSearch dta dta')
    (h' : SameSearch dta' dta'') : SameSearch dta dta'' :=
  ⟨h'.params.trans h.params, h'.dirCluster.trans h.dirCluster⟩

theorem sameSearch_setDirID (dta : DTA) (n : ℕ) : SameSearch dta (dta.SetDirID n) := ⟨rfl, rfl⟩

theorem sameSearch_setResult (dta : DTA) (name : CString) (e : Direntry) :
    SameSearch dta (dta.SetResult name e) := ⟨rfl, rfl⟩

@[simp] theorem dirID_setDirID (dta : DTA) (n : ℕ) : (dta.SetDirID n).dirID = .ofNat n := rfl

@[simp] theorem dirID_setResult (dta : DTA) (name : CString) (e : Direntry) :
    (dta.SetResult name e).dirID = dta.dirID := rfl

end DTA

namespace Volume

variable {v : Volume} {clust p fuel : ℕ} {d d' : Drive} {disk : Disk} {L : List ℕ} {dta : DTA}
  {attrs : UInt8} {pattern : CString}

/-! ## The entries of a directory -/

/-- The entries in front of the first zero entry. -/
def entries (v : Volume) (disk : Disk) (clust : ℕ) (L : List ℕ) : List Direntry :=
  ((List.range (v.slots clust L)).map (v.slot disk clust L)).takeWhile fun e => !e.isEnd

theorem entries_length_le : (v.entries disk clust L).length ≤ v.slots clust L := by
  have hprefix : v.entries disk clust L <+: (List.range (v.slots clust L)).map (v.slot disk clust L) :=
    List.takeWhile_prefix _
  simpa using hprefix.length_le

theorem entries_getElem (h : p < (v.entries disk clust L).length) :
    (v.entries disk clust L)[p] = v.slot disk clust L p := by
  have hprefix : v.entries disk clust L <+: (List.range (v.slots clust L)).map (v.slot disk clust L) :=
    List.takeWhile_prefix _
  have helem := hprefix.getElem h
  rw [List.getElem_map, List.getElem_range] at helem
  exact helem

theorem entries_not_end (h : p < (v.entries disk clust L).length) :
    (v.slot disk clust L p).isEnd = false := by
  have hmem := List.mem_takeWhile_imp (List.getElem_mem h)
  rw [entries_getElem h] at hmem
  simpa using hmem

/-- Behind the entries there is a zero entry or the end of the directory. -/
theorem end_of_entries (h : (v.entries disk clust L).length < v.slots clust L) :
    (v.slot disk clust L (v.entries disk clust L).length).isEnd = true := by
  set all := (List.range (v.slots clust L)).map (v.slot disk clust L) with hall
  set n := (v.entries disk clust L).length with hn
  have hsplit : v.entries disk clust L ++ all.dropWhile (fun e => !e.isEnd) = all :=
    List.takeWhile_append_dropWhile
  have hslot : (all.dropWhile fun e => !e.isEnd).head? = some (v.slot disk clust L n) := by
    have hget : all[n]? = some (v.slot disk clust L n) := by
      rw [hall, List.getElem?_map, List.getElem?_range h]
      rfl
    rwa [← hsplit, List.getElem?_append_right le_rfl, Nat.sub_self,
      ← List.head?_eq_getElem?] at hget
  have hhead := List.head?_dropWhile_not (fun e : Direntry => !e.isEnd) all
  rw [hslot] at hhead
  simpa using hhead

/-! ## One round -/

/-- **At an entry** a round either returns it or goes on behind it. -/
theorem findStep_of_lt (attrs : UInt8) (pattern : CString) (dta : DTA) (hd : v.Coherent d)
    (hdir : v.Directory d.disk clust L)
    (hshort : (v.entries d.disk clust L).length < 2 ^ 16)
    (hp : p < (v.entries d.disk clust L).length) :
    ∃ d', Reads v d d' ∧ v.findStep clust attrs pattern (p, dta, d)
      = if isFound attrs pattern (v.entries d.disk clust L)[p] then
          .inr (some (v.entries d.disk clust L)[p],
            (dta.SetDirID (p + 1)).SetResult
              (findName (v.entries d.disk clust L)[p].entryname) (v.entries d.disk clust L)[p], d')
        else .inl (p + 1, dta.SetDirID (p + 1), d') := by
  have hle : (v.entries d.disk clust L).length ≤ v.slots clust L := entries_length_le
  have hreads : Reads v d (v.dirSector clust p d).2 := dirSector_reads
  refine ⟨(v.dirSector clust p d).2, hreads, ?_⟩
  have hsector := dirSector_eq p hd hdir
  rw [if_pos (by omega)] at hsector
  have hpair : v.dirSector clust p d
      = (some (v.slotSector clust L p), (v.dirSector clust p d).2) := Prod.ext hsector rfl
  have hnext : nextPos p = p + 1 := Nat.mod_eq_of_lt (by omega)
  have hentry : sectorEntry ((v.dirSector clust p d).2.readSector (v.slotSector clust L p)) p
      = (v.entries d.disk clust L)[p] := by
    rw [entries_getElem hp, Drive.readSector, hreads.disk]
    rfl
  have hnotEnd : (v.entries d.disk clust L)[p].isEnd = false := by
    rw [entries_getElem hp]
    exact entries_not_end hp
  rw [findStep, hpair]
  simp only [hentry, hnext, hnotEnd, Bool.false_eq_true, if_false]

/-- **Behind the last entry** a round ends the search. -/
theorem findStep_of_eq (attrs : UInt8) (pattern : CString) (dta : DTA) (hd : v.Coherent d)
    (hdir : v.Directory d.disk clust L)
    (hp : p = (v.entries d.disk clust L).length) :
    ∃ d' dta', Reads v d d' ∧ dta.SameSearch dta' ∧
      v.findStep clust attrs pattern (p, dta, d) = .inr (none, dta', d') := by
  have hle : (v.entries d.disk clust L).length ≤ v.slots clust L := entries_length_le
  have hreads : Reads v d (v.dirSector clust p d).2 := dirSector_reads
  have hsector := dirSector_eq p hd hdir
  by_cases hroom : p < v.slots clust L
  · rw [if_pos hroom] at hsector
    have hpair : v.dirSector clust p d
        = (some (v.slotSector clust L p), (v.dirSector clust p d).2) := Prod.ext hsector rfl
    have hend : (sectorEntry
        ((v.dirSector clust p d).2.readSector (v.slotSector clust L p)) p).isEnd = true := by
      rw [Drive.readSector, hreads.disk, hp]
      exact end_of_entries (hp ▸ hroom)
    refine ⟨_, _, hreads, dta.sameSearch_setDirID (nextPos p), ?_⟩
    rw [findStep, hpair]
    simp only [hend, if_true]
  · rw [if_neg hroom] at hsector
    have hpair : v.dirSector clust p d = (none, (v.dirSector clust p d).2) := Prod.ext hsector rfl
    refine ⟨_, _, hreads, .refl dta, ?_⟩
    rw [findStep, hpair]

/-! ## A search -/

/-- What a search returns that goes over the entries `rest` from position `p` on. -/
inductive Searched (attrs : UInt8) (pattern : CString) (p : ℕ) :
    List Direntry → Option Direntry → DTA → Prop
  | notFound {rest : List Direntry} {dta : DTA}
      (hnone : ∀ e ∈ rest, isFound attrs pattern e = false) :
      Searched attrs pattern p rest none dta
  | found {skipped rest : List Direntry} {e : Direntry} {dta : DTA}
      (hskipped : ∀ x ∈ skipped, isFound attrs pattern x = false)
      (hfound : isFound attrs pattern e = true)
      (hdirID : dta.dirID.toNat = p + skipped.length + 1) (hresult : dta.result = e.result) :
      Searched attrs pattern p (skipped ++ e :: rest) (some e) dta

/-- An entry that is not searched for, in front of the others. -/
theorem Searched.cons {rest : List Direntry} {e : Direntry} {res : Option Direntry}
    (he : isFound attrs pattern e = false) (h : Searched attrs pattern (p + 1) rest res dta) :
    Searched attrs pattern p (e :: rest) res dta := by
  cases h with
  | notFound hnone => exact .notFound (List.forall_mem_cons.mpr ⟨he, hnone⟩)
  | @found skipped rest x _ hskipped hfound hdirID hresult =>
    have hid : dta.dirID.toNat = p + (e :: skipped).length + 1 := by
      rw [hdirID, List.length_cons]
      omega
    exact .found (List.forall_mem_cons.mpr ⟨he, hskipped⟩) hfound hid hresult

variable {pre rest : List Direntry} {parDir : Bool} {names : List CString} {res : Option ℕ}
  {dir : CString}

/-- **A search** from the entries `rest` on: it returns the first of them that is searched for,
and its position is then behind that entry. -/
theorem find_run (attrs : UInt8) (pattern : CString) (dta : DTA) (hd : v.Coherent d)
    (hdir : v.Directory d.disk clust L) (hshort : (v.entries d.disk clust L).length < 2 ^ 16)
    (hes : v.entries d.disk clust L = pre ++ rest) :
    ∃ res dta' d', Reads v d d' ∧ dta.SameSearch dta' ∧
      Searched attrs pattern pre.length rest res dta' ∧
      ∀ fuel, rest.length < fuel →
        Loop.run (v.findStep clust attrs pattern) fuel (pre.length, dta, d)
          = some (res, dta', d') := by
  have hle : (v.entries d.disk clust L).length ≤ v.slots clust L := entries_length_le
  induction rest generalizing pre dta d with
  | nil =>
    rw [List.append_nil] at hes
    obtain ⟨d', dta', hreads, hsame, hstep⟩ :=
      findStep_of_eq attrs pattern dta hd hdir (by rw [hes])
    refine ⟨none, dta', d', hreads, hsame, .notFound (by simp), fun fuel hfuel => ?_⟩
    obtain ⟨fuel, rfl⟩ : ∃ n, fuel = n + 1 := ⟨fuel - 1, by omega⟩
    exact Loop.run_of_inr hstep
  | cons e rest ih =>
    have hp : pre.length < (v.entries d.disk clust L).length := by rw [hes]; simp
    obtain ⟨d', hreads, hstep⟩ := findStep_of_lt attrs pattern dta hd hdir hshort hp
    have hget : (v.entries d.disk clust L)[pre.length] = e := by simp [hes]
    rw [hget] at hstep
    by_cases hfound : isFound attrs pattern e = true
    · rw [if_pos hfound] at hstep
      have hid : (UInt16.ofNat (pre.length + 1)).toNat = pre.length + 1 :=
        UInt16.toNat_ofNat_of_lt' (by show pre.length + 1 < 2 ^ 16; omega)
      have hsearched : Searched attrs pattern pre.length ([] ++ e :: rest) (some e)
          ((dta.SetDirID (pre.length + 1)).SetResult (findName e.entryname) e) :=
        .found (by simp) hfound hid rfl
      refine ⟨some e, (dta.SetDirID (pre.length + 1)).SetResult (findName e.entryname) e, d',
        hreads, (dta.sameSearch_setDirID _).trans (DTA.sameSearch_setResult _ _ e),
        hsearched, fun fuel hfuel => ?_⟩
      obtain ⟨fuel, rfl⟩ : ∃ n, fuel = n + 1 := ⟨fuel - 1, by omega⟩
      exact Loop.run_of_inr hstep
    · rw [if_neg hfound] at hstep
      have hes' : v.entries d'.disk clust L = (pre ++ [e]) ++ rest := by
        rw [hreads.disk, hes, List.append_assoc, List.singleton_append]
      have hlen : (pre ++ [e]).length = pre.length + 1 := by simp
      have hrest := ih (dta.SetDirID (pre.length + 1)) (hreads.table hd)
        (by rw [hreads.disk]; exact hdir) (by rw [hreads.disk]; exact hshort) hes'
        (by rw [hreads.disk]; exact hle)
      obtain ⟨res, dta'', d'', hreads', hsame, hsearched, hend⟩ := hrest
      rw [hlen] at hsearched hend
      refine ⟨res, dta'', d'', hreads.trans hreads', (dta.sameSearch_setDirID _).trans hsame,
        hsearched.cons (by simpa using hfound), fun fuel hfuel => ?_⟩
      obtain ⟨fuel, rfl⟩ : ∃ n, fuel = n + 1 := ⟨fuel - 1, by omega⟩
      rw [Loop.run_of_inl hstep]
      exact hend fuel (by simpa using hfuel)

/-- **A search in a directory** that stands behind the entries `pre`. -/
theorem FindNextInternal_eq (dta : DTA) (hd : v.Coherent d) (hdir : v.Directory d.disk clust L)
    (hshort : (v.entries d.disk clust L).length < 2 ^ 16)
    (hes : v.entries d.disk clust L = pre ++ rest) (hid : dta.dirID.toNat = pre.length) :
    ∃ res dta' d', Reads v d d' ∧ dta.SameSearch dta' ∧
      Searched dta.GetSearchParams.1 dta.GetSearchParams.2 pre.length rest res dta' ∧
      ∀ fuel, rest.length < fuel → v.FindNextInternal fuel clust dta d = some (res, dta', d') := by
  obtain ⟨res, dta', d', hreads, hsame, hsearched, hrun⟩ :=
    find_run dta.GetSearchParams.1 dta.GetSearchParams.2 dta hd hdir hshort hes
  refine ⟨res, dta', d', hreads, hsame, hsearched, fun fuel hfuel => ?_⟩
  show Loop.run _ fuel (dta.dirID.toNat, dta, d) = _
  rw [hid]
  exact hrun fuel hfuel

/-! ## Searches only read -/

theorem findStep_reads (clust : ℕ) (attrs : UInt8) (pattern : CString) (s : ℕ × DTA × Drive) :
    Sum.elim (fun s' => Reads v s.2.2 s'.2.2) (fun r => Reads v s.2.2 r.2.2)
      (v.findStep clust attrs pattern s) := by
  obtain ⟨p, dta, d⟩ := s
  have hreads : Reads v d (v.dirSector clust p d).2 := dirSector_reads
  simp only [findStep]
  cases hsector : v.dirSector clust p d with
  | mk sector d' =>
    rw [hsector] at hreads
    cases sector with
    | none => exact hreads
    | some tmpsector =>
      simp only
      split_ifs <;> exact hreads

theorem FindNextInternal_reads {res : Option Direntry} {dta' : DTA}
    (h : v.FindNextInternal fuel clust dta d = some (res, dta', d')) : Reads v d d' := by
  have hstep := findStep_reads (v := v) clust dta.GetSearchParams.1 dta.GetSearchParams.2
  refine Loop.run_post (Q := fun r : Option Direntry × DTA × Drive => Reads v d r.2.2)
    (fun s : ℕ × DTA × Drive => Reads v d s.2.2) ?_ ?_ (.refl d) h
  · intro s s' hs hgo
    have hnext := hstep s
    rw [show v.findStep clust dta.GetSearchParams.1 dta.GetSearchParams.2 s = .inl s' from hgo]
      at hnext
    exact hs.trans hnext
  · intro s r hs hleave
    have hnext := hstep s
    rw [show v.findStep clust dta.GetSearchParams.1 dta.GetSearchParams.2 s = .inr r from hleave]
      at hnext
    exact hs.trans hnext

theorem FindNextInternal_mono {r : Option Direntry × DTA × Drive} {fuel' : ℕ}
    (h : v.FindNextInternal fuel clust dta d = some r) (hle : fuel ≤ fuel') :
    v.FindNextInternal fuel' clust dta d = some r :=
  Loop.run_mono h hle

/-- What the loop over the names of a path does with the first of them. -/
theorem dirClustLoop_cons {name : CString}
    (h : v.dirClustLoop fuel parDir (name :: names) clust d = some (res, d')) :
    (parDir = true ∧ names = [] ∧ res = some clust ∧ d' = d) ∨
      ∃ e dta d₁,
        v.lookup fuel clust FatAttributeFlags.Directory name d = some (e, dta, d₁) ∧
        ((res = none ∧ d' = d₁) ∨
          ∃ e', e = some e' ∧ dta.isDirectory = true ∧
            v.dirClustLoop fuel parDir names e'.loFirstClust.toNat d₁ = some (res, d')) := by
  simp only [dirClustLoop] at h
  by_cases hpar : parDir ∧ names = []
  · rw [if_pos hpar] at h
    obtain ⟨rfl, rfl⟩ := Prod.mk.inj (Option.some.inj h)
    exact .inl ⟨hpar.1, hpar.2, rfl, rfl⟩
  · rw [if_neg hpar] at h
    right
    cases hfind : v.lookup fuel clust FatAttributeFlags.Directory name d with
    | none => simp [hfind] at h
    | some r =>
      obtain ⟨e, dta, d₁⟩ := r
      simp only [hfind, Option.bind_eq_bind, Option.bind_some] at h
      refine ⟨e, dta, d₁, rfl, ?_⟩
      cases e with
      | none =>
        obtain ⟨rfl, rfl⟩ := Prod.mk.inj (Option.some.inj h)
        exact .inl ⟨rfl, rfl⟩
      | some e =>
        by_cases hisdir : dta.isDirectory = true
        · simp only [hisdir, Bool.not_true, Bool.false_eq_true, if_false] at h
          exact .inr ⟨e, rfl, hisdir, h⟩
        · simp only [hisdir, Bool.not_false, if_true] at h
          obtain ⟨rfl, rfl⟩ := Prod.mk.inj (Option.some.inj h)
          exact .inl ⟨rfl, rfl⟩

theorem dirClustLoop_reads (h : v.dirClustLoop fuel parDir names clust d = some (res, d')) :
    Reads v d d' := by
  induction names generalizing clust d with
  | nil =>
    obtain ⟨-, rfl⟩ := Prod.mk.inj (Option.some.inj h)
    exact .refl d
  | cons name names ih =>
    rcases dirClustLoop_cons h with ⟨-, -, -, rfl⟩ | ⟨e, dta, d₁, hfind, hcase⟩
    · exact .refl _
    · have hreads : Reads v d d₁ := FindNextInternal_reads hfind
      rcases hcase with ⟨-, rfl⟩ | ⟨e', -, -, hrest⟩
      · exact hreads
      · exact hreads.trans (ih hrest)

theorem dirClustLoop_lt {res : ℕ}
    (h : v.dirClustLoop fuel parDir names clust d = some (some res, d')) (hc : clust < 2 ^ 16) :
    res < 2 ^ 16 := by
  induction names generalizing clust d with
  | nil =>
    obtain ⟨hres, -⟩ := Prod.mk.inj (Option.some.inj h)
    rwa [← Option.some.inj hres]
  | cons name names ih =>
    rcases dirClustLoop_cons h with ⟨-, -, hres, -⟩ | ⟨e, dta, d₁, hfind, hcase⟩
    · rwa [Option.some.inj hres]
    · rcases hcase with ⟨hres, -⟩ | ⟨e', -, -, hrest⟩
      · exact absurd hres (by simp)
      · exact ih hrest e'.loFirstClust.toNat_lt

theorem getDirClustNum_reads (h : v.getDirClustNum fuel dir parDir d = some (res, d')) :
    Reads v d d' := by
  rw [getDirClustNum] at h
  split_ifs at h with hroot
  · obtain ⟨-, rfl⟩ := Prod.mk.inj (Option.some.inj h)
    exact .refl d
  · exact dirClustLoop_reads h

/-- Cluster numbers of directories fit into the 16 bits of a disk transfer area. -/
theorem getDirClustNum_lt {res : ℕ} (h : v.getDirClustNum fuel dir parDir d = some (some res, d')) :
    res < 2 ^ 16 := by
  rw [getDirClustNum] at h
  split_ifs at h with hroot
  · obtain ⟨hres, -⟩ := Prod.mk.inj (Option.some.inj h)
    rw [← Option.some.inj hres]
    decide
  · exact dirClustLoop_lt h (by decide)

theorem dirClustLoop_mono {fuel' : ℕ}
    (h : v.dirClustLoop fuel parDir names clust d = some (res, d')) (hle : fuel ≤ fuel') :
    v.dirClustLoop fuel' parDir names clust d = some (res, d') := by
  induction names generalizing clust d with
  | nil => exact h
  | cons name names ih =>
    by_cases hpar : parDir ∧ names = []
    · rwa [dirClustLoop, if_pos hpar] at h ⊢
    · rw [dirClustLoop, if_neg hpar] at h ⊢
      cases hfind : v.lookup fuel clust FatAttributeFlags.Directory name d with
      | none => simp [hfind] at h
      | some r =>
        obtain ⟨e, dta, d₁⟩ := r
        have hfind' : v.lookup fuel' clust FatAttributeFlags.Directory name d = some (e, dta, d₁) :=
          FindNextInternal_mono hfind hle
        simp only [hfind, hfind', Option.bind_eq_bind, Option.bind_some] at h ⊢
        cases e with
        | none => exact h
        | some e =>
          by_cases hisdir : dta.isDirectory = true
          · simp only [hisdir, Bool.not_true, Bool.false_eq_true, if_false] at h ⊢
            exact ih h
          · simp only [hisdir, Bool.not_false, if_true] at h ⊢
            exact h

theorem getDirClustNum_mono {fuel' : ℕ} (h : v.getDirClustNum fuel dir parDir d = some (res, d'))
    (hle : fuel ≤ fuel') :
    v.getDirClustNum fuel' dir parDir d = some (res, d') := by
  rw [getDirClustNum] at h ⊢
  by_cases hroot : namesRoot dir = true
  · rwa [if_pos hroot] at h ⊢
  · rw [if_neg hroot] at h ⊢
    exact dirClustLoop_mono h hle

/-! ## All the entries that are searched for -/

/-- The results of `FindNext` until it fails, in at most `n` calls. -/
def findRest (v : Volume) (fuel : ℕ) : ℕ → DTA → Drive → Option (List Result)
  | 0, _, _ => none
  | n + 1, dta, d => do
    let (found, dta, d) ← v.FindNext fuel dta d
    if found then
      return dta.result :: (← findRest v fuel n dta d)
    else
      return []

/-- The results of `FindFirst`, and of `FindNext` until it fails. -/
def findAll (v : Volume) (fuel : ℕ) (dir : CString) (dta : DTA) (d : Drive) :
    Option (List Result) := do
  let (found, dta, d) ← v.FindFirst fuel dir dta d
  if found then
    return dta.result :: (← v.findRest fuel fuel dta d)
  else
    return []

/-- **Going on with a search** returns what is searched for among the entries that are left. -/
theorem findRest_eq (n : ℕ) (hd : v.Coherent d) (hdir : v.Directory d.disk clust L)
    (hshort : (v.entries d.disk clust L).length < 2 ^ 16)
    (hes : v.entries d.disk clust L = pre ++ rest) (hid : dta.dirID.toNat = pre.length)
    (hclust : dta.dirCluster.toNat = clust) (hfuel : rest.length < fuel) (hn : rest.length < n) :
    v.findRest fuel n dta d = some ((rest.filter
      (isFound dta.GetSearchParams.1 dta.GetSearchParams.2)).map Direntry.result) := by
  induction n generalizing pre rest dta d with
  | zero => omega
  | succ n ih =>
    obtain ⟨res, dta', d', hreads, hsame, hsearched, hrun⟩ :=
      FindNextInternal_eq dta hd hdir hshort hes hid
    simp only [findRest, FindNext, hclust, hrun fuel hfuel, Option.bind_eq_bind,
      Option.bind_some]
    cases hsearched with
    | notFound hnone =>
      have hfilter : rest.filter (isFound dta.GetSearchParams.1 dta.GetSearchParams.2) = [] :=
        List.filter_eq_nil_iff.mpr fun e he => by simp [hnone e he]
      simp [hfilter]
    | @found skipped rest e _ hskipped hfound hdirID hresult =>
      have hfilter : skipped.filter (isFound dta.GetSearchParams.1 dta.GetSearchParams.2) = [] :=
        List.filter_eq_nil_iff.mpr fun x hx => by simp [hskipped x hx]
      have hlen : (skipped ++ e :: rest).length = skipped.length + 1 + rest.length := by
        simp
        omega
      have hes' : v.entries d'.disk clust L = (pre ++ skipped ++ [e]) ++ rest := by
        rw [hreads.disk, hes]
        simp
      have hid' : dta'.dirID.toNat = (pre ++ skipped ++ [e]).length := by
        rw [hdirID]
        simp [Nat.add_assoc]
      have hrest := ih (hreads.table hd) (by rw [hreads.disk]; exact hdir)
        (by rw [hreads.disk]; exact hshort) hes' hid'
        (by rw [hsame.dirCluster, hclust]) (by omega) (by omega)
      rw [hsame.params] at hrest
      simp [hrest, hfilter, hfound, hresult]

/-- **The enumeration of a directory.**  `FindFirst` and then `FindNext` until it fails return,
each once and in the order on the disk, the entries in front of the first zero entry that are
not deleted, pass the attributes of the search and match its pattern. -/
theorem findAll_eq (v : Volume) (d d' : Drive) (dir : CString) (dta : DTA) (clust fuel₀ : ℕ)
    (L : List ℕ) (hd : v.Coherent d)
    (hpath : v.getDirClustNum fuel₀ dir false d = some (some clust, d'))
    (hdir : v.Directory d.disk clust L) (hslots : v.slots clust L < 2 ^ 16) :
    ∃ N, ∀ fuel ≥ N, v.findAll fuel dir dta d
      = some (((v.entries d.disk clust L).filter
          (isFound dta.GetSearchParams.1 dta.GetSearchParams.2)).map Direntry.result) := by
  have hreads := getDirClustNum_reads hpath
  have hlt := getDirClustNum_lt hpath
  set first : DTA := { dta.SetDirID 0 with dirCluster := .ofNat (clust % 2 ^ 16) } with hfirst
  have hclust : first.dirCluster.toNat = clust := by
    rw [hfirst]
    show (UInt16.ofNat (clust % 2 ^ 16)).toNat = clust
    rw [UInt16.toNat_ofNat']
    omega
  refine ⟨max fuel₀ ((v.entries d.disk clust L).length + 1), fun fuel hfuel => ?_⟩
  have hfind := getDirClustNum_mono hpath (le_trans (le_max_left _ _) hfuel)
  have henough : (v.entries d.disk clust L).length < fuel :=
    lt_of_lt_of_le (Nat.lt_succ_self _) (le_trans (le_max_right _ _) hfuel)
  -- The first call does what a call of `FindNext` does from position 0 on.
  have hnext : v.findAll fuel dir dta d = v.findRest fuel (fuel + 1) first d' := by
    simp only [findAll, FindFirst, hfind, findRest, FindNext, hclust, Option.bind_eq_bind,
      Option.bind_some, ← hfirst]
  have hes : v.entries d'.disk clust L = [] ++ v.entries d.disk clust L := by
    rw [hreads.disk, List.nil_append]
  rw [hnext, findRest_eq (fuel + 1) (hreads.table hd) (by rw [hreads.disk]; exact hdir)
    (by rw [hreads.disk]; exact lt_of_le_of_lt entries_length_le hslots) hes rfl hclust henough
    (by omega)]
  rfl

/-- A disk with the files `A` and `B` in its root directory, and a deleted file between them. -/
def twoFiles : Disk := fun sect k =>
  if sect = 19 ∧ k < 96 then
    if k % 32 = 0 then (if k / 32 = 0 then 0x41 else if k / 32 = 1 then 0xe5 else 0x42)
    else if k % 32 < 11 then space else 0
  else
    0

theorem findAll_eq_twoFiles :
    ∃ N, ∀ fuel ≥ N,
      floppy1440.findAll fuel [] (imgDTA.SetupSearch 0 [star, dot, star]) (.mounted twoFiles)
        = some [⟨[0x41], 0, 0, 0, 0⟩, ⟨[0x42], 0, 0, 0, 0⟩] := by
  have hresults : ((floppy1440.entries twoFiles 0 []).filter
      (isFound (imgDTA.SetupSearch 0 [star, dot, star]).GetSearchParams.1
        (imgDTA.SetupSearch 0 [star, dot, star]).GetSearchParams.2)).map Direntry.result
      = [⟨[0x41], 0, 0, 0, 0⟩, ⟨[0x42], 0, 0, 0, 0⟩] := by
    decide
  rw [← hresults]
  exact findAll_eq floppy1440 (.mounted twoFiles) (.mounted twoFiles) [] _ 0 1 []
    (mounted_coherent _ (by decide)) rfl
    ⟨fun h => absurd rfl h, fun h => absurd rfl h⟩ (by decide)

end Volume

end AugraDosbox.Fat
