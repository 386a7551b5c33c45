import AugraDosbox.Dos.CdImage
import AugraDosbox.Dos.CueLayout

/-!
# The table of tracks

What the table of an image promises, and for which images the loaders keep it.

* `TrackTable` — numbers and sectors go up, and what `GetTrack`, `ReadSector` and
  `PlayNextAudioTrack` make of it;
* `Track.Before`, `Consecutive` — the same, said of neighbours;
* `Follows`, `Orderly` — what it takes for the steps of `LoadCueSheet`;
* **`Image.load_trackTable_iff`** — an ISO image always has such a table, an MDS image never, and a
  cue sheet when each of its steps is orderly.
-/

namespace AugraDosbox.Cdrom

/-- Where a track ends, in exact numbers. -/
def Track.stop (track : Track) : ℕ := track.start + track.length

/-- What is relied on. -/
structure TrackTable (tracks : List Track) : Prop where
  two : 2 ≤ tracks.length
  number : ∀ i t, tracks[i]? = some t → t.number = i + 1
  ordered : ∀ i t u, tracks[i]? = some t → tracks[i + 1]? = some u → t.stop ≤ u.start
  resolves : ∀ first last, tracks.head? = some first → tracks.getLast? = some last →
    ∀ sector, first.start ≤ sector → sector < last.start → ∀ i t, tracks[i]? = some t →
    (∀ j prev, i = j + 1 → tracks[j]? = some prev → prev.stop ≤ sector) → sector < t.stop →
    GetTrack tracks sector = some i
  plays : ∀ i, nextTrackNumbered tracks i
  offsets : ∀ sector i t, GetTrack tracks sector = some i → tracks[i]? = some t → t.file ≠ none →
    ∀ raw, 0 ≤ t.sectorOffset raw sector

/-- A track and the next one. The sectors between them have to be in the file, too. -/
structure Track.Before (t u : Track) : Prop where
  number : t.number + 1 = u.number
  le : t.stop ≤ u.start
  gap : u.file ≠ none → (u.start - t.stop) * u.sector_size ≤ u.skip

/-- The table said of neighbours, and the last sector that is looked for. -/
structure Consecutive (tracks : List Track) : Prop where
  two : 2 ≤ tracks.length
  first : ∀ first ∈ tracks.head?, first.number = 1
  before : ∀ i t u, tracks[i]? = some t → tracks[i + 1]? = some u → t.Before u
  reach : ∀ first ∈ tracks.head?, ∀ last ∈ tracks.getLast?,
    last.start ≤ MAX_REDBOOK_SECTOR + 1 ∨ last.start ≤ first.start

/-! ## The walk -/

section

variable {tracks : List Track} {sector lower i : ℕ} {t : Track}

theorem findTrack_some (h : findTrack sector lower tracks = some i) :
    ∃ t, tracks[i]? = some t ∧ (i = 0 → lower ≤ sector) ∧
      (∀ j prev, i = j + 1 → tracks[j]? = some prev → u32 prev.stop ≤ sector) ∧
      sector < u32 t.stop := by
  induction tracks generalizing lower i with
  | nil => cases h
  | cons first tracks ih =>
    rw [findTrack] at h
    split at h
    · rename_i hin
      obtain rfl := Option.some.inj h
      exact ⟨first, rfl, fun _ => hin.1, fun j prev hj => by omega, hin.2⟩
    · obtain ⟨k, hk, rfl⟩ := Option.map_eq_some_iff.1 h
      obtain ⟨t, ht, hlower, hprev, hupper⟩ := ih hk
      refine ⟨t, ht, fun hzero => by omega, fun j prev hj hget => ?_, hupper⟩
      obtain rfl : k = j := by omega
      cases k with
      | zero =>
        obtain rfl := Option.some.inj hget
        exact hlower rfl
      | succ k => exact hprev k prev rfl hget

theorem findTrack_eq (ht : tracks[i]? = some t) (hlower : i = 0 → lower ≤ sector)
    (hprev : ∀ j prev, i = j + 1 → tracks[j]? = some prev → u32 prev.stop ≤ sector)
    (hupper : sector < u32 t.stop)
    (hothers : ∀ j u, j < i → tracks[j]? = some u → u32 u.stop ≤ sector) :
    findTrack sector lower tracks = some i := by
  induction tracks generalizing lower i with
  | nil => cases ht
  | cons first tracks ih =>
    rw [findTrack]
    cases i with
    | zero =>
      obtain rfl := Option.some.inj ht
      exact if_pos ⟨hlower rfl, hupper⟩
    | succ i =>
      have hfirst := hothers 0 first (by omega) rfl
      have hnot : ¬ (lower ≤ sector ∧ sector < u32 (first.start + first.length)) := by
        rintro ⟨-, hlt⟩
        exact absurd hlt (not_lt.2 hfirst)
      rw [if_neg hnot, ih ht]
      · rfl
      · intro hzero
        exact hprev 0 first (by omega) rfl
      · intro j prev hj hget
        exact hprev (j + 1) prev (by omega) hget
      · intro j u hj hget
        exact hothers (j + 1) u (by omega) hget

end

/-! ## Neighbours -/

/-- The lead-out is a place and has no sectors. -/
def LeadOut (tracks : List Track) : Prop :=
  ∀ last ∈ tracks.getLast?, last.length = 0 ∧ last.start < 2 ^ 32

section

variable {tracks : List Track} {i j : ℕ} {t u : Track}

theorem stop_le_start
    (h : ∀ i t u, tracks[i]? = some t → tracks[i + 1]? = some u → t.stop ≤ u.start)
    (ht : tracks[i]? = some t) (hu : tracks[j]? = some u) (hij : i < j) : t.stop ≤ u.start := by
  induction j generalizing u with
  | zero => omega
  | succ j ih =>
    obtain ⟨v, hv⟩ : ∃ v, tracks[j]? = some v := by
      have hlength := (List.getElem?_eq_some_iff.1 hu).1
      exact ⟨tracks[j], List.getElem?_eq_getElem (by omega)⟩
    have hnext := h j v u hv hu
    by_cases heq : i = j
    · subst heq
      rw [ht] at hv
      obtain rfl := Option.some.inj hv
      exact hnext
    · have hle := ih hv (by omega)
      have hstop : v.start ≤ v.stop := Nat.le_add_right _ _
      omega

theorem getElem?_last (h : tracks.getLast? = some t) : tracks[tracks.length - 1]? = some t := by
  rwa [List.getLast?_eq_getElem?] at h

theorem getElem?_first (h : tracks.head? = some t) : tracks[0]? = some t := by
  rwa [List.head?_eq_getElem?] at h

theorem u32_stop (h : ∀ i t u, tracks[i]? = some t → tracks[i + 1]? = some u → t.stop ≤ u.start)
    (hlead : LeadOut tracks) (ht : tracks[i]? = some t) : u32 t.stop = t.stop := by
  obtain ⟨hlength, -⟩ := List.getElem?_eq_some_iff.1 ht
  obtain ⟨last, hlast⟩ : ∃ last, tracks.getLast? = some last := by
    cases hlast : tracks.getLast? with
    | none =>
      rw [List.getLast?_eq_none_iff] at hlast
      rw [hlast] at hlength
      exact absurd hlength (Nat.not_lt_zero _)
    | some last => exact ⟨last, rfl⟩
  obtain ⟨hnone, hstart⟩ := hlead last hlast
  have hget := getElem?_last hlast
  refine u32_of_lt ?_
  by_cases heq : i = tracks.length - 1
  · rw [heq, hget] at ht
    obtain rfl := Option.some.inj ht
    rw [Track.stop, hnone]
    omega
  · have hle := stop_le_start h ht hget (by omega)
    omega

theorem GetTrack_some {sector : ℕ} (h : GetTrack tracks sector = some i) :
    ∃ first last, tracks.head? = some first ∧ tracks.getLast? = some last ∧
      sector ≤ MAX_REDBOOK_SECTOR ∧ sector < last.start ∧
      findTrack sector first.start tracks = some i := by
  rw [GetTrack] at h
  split at h
  · rename_i first last hfirst hlast
    split at h
    · cases h
    · rename_i hsector
      simp only [not_or, not_lt, not_le] at hsector
      exact ⟨first, last, hfirst, hlast, hsector.1, hsector.2.2, h⟩
  · cases h

theorem GetTrack_eq {sector : ℕ} {first last : Track} (hfirst : tracks.head? = some first)
    (hlast : tracks.getLast? = some last) (hmax : sector ≤ MAX_REDBOOK_SECTOR)
    (htwo : 2 ≤ tracks.length) (hlt : sector < last.start) :
    GetTrack tracks sector = findTrack sector first.start tracks := by
  rw [GetTrack, hfirst, hlast]
  refine if_neg ?_
  simp only [not_or, not_lt, not_le]
  exact ⟨hmax, htwo, hlt⟩

theorem number_of_before (hfirst : ∀ first ∈ tracks.head?, first.number = 1)
    (h : ∀ i t u, tracks[i]? = some t → tracks[i + 1]? = some u → t.Before u)
    (ht : tracks[i]? = some t) : t.number = i + 1 := by
  induction i generalizing t with
  | zero => exact hfirst t (by rwa [List.head?_eq_getElem?])
  | succ i ih =>
    obtain ⟨u, hu⟩ : ∃ u, tracks[i]? = some u := by
      have hlength := (List.getElem?_eq_some_iff.1 ht).1
      exact ⟨tracks[i], List.getElem?_eq_getElem (by omega)⟩
    have hnumber := (h i u t hu ht).number
    have hprev := ih hu
    omega

/-- **What neighbours promise.** -/
theorem Consecutive.trackTable (h : Consecutive tracks) (hlead : LeadOut tracks) :
    TrackTable tracks := by
  have hordered : ∀ i t u, tracks[i]? = some t → tracks[i + 1]? = some u → t.stop ≤ u.start :=
    fun i t u ht hu => (h.before i t u ht hu).le
  have hnumber : ∀ i t, tracks[i]? = some t → t.number = i + 1 :=
    fun i t ht => number_of_before h.first h.before ht
  refine ⟨h.two, hnumber, hordered, ?_, ?_, ?_⟩
  case refine_1 =>
    intro first last hfirst hlast sector hle hlt i t ht hprev hupper
    have hmax : sector ≤ MAX_REDBOOK_SECTOR := by
      rcases h.reach first hfirst last hlast with hreach | hempty
      · omega
      · omega
    rw [GetTrack_eq hfirst hlast hmax h.two hlt]
    refine findTrack_eq ht (fun _ => hle) ?_ ?_ ?_
    · intro j prev hj hget
      rw [u32_stop hordered hlead hget]
      exact hprev j prev hj hget
    · rwa [u32_stop hordered hlead ht]
    · intro j u hj hget
      rw [u32_stop hordered hlead hget]
      obtain ⟨k, rfl⟩ : ∃ k, i = k + 1 := ⟨i - 1, by omega⟩
      obtain ⟨prev, hprevGet⟩ : ∃ prev, tracks[k]? = some prev := by
        have hlength := (List.getElem?_eq_some_iff.1 ht).1
        exact ⟨tracks[k], List.getElem?_eq_getElem (by omega)⟩
      have hstop := hprev k prev rfl hprevGet
      by_cases heq : j = k
      · subst heq
        rw [hget] at hprevGet
        obtain rfl := Option.some.inj hprevGet
        exact hstop
      · have hle := stop_le_start hordered hget hprevGet (by omega)
        have hstart : prev.start ≤ prev.stop := Nat.le_add_right _ _
        omega
  case refine_2 =>
    intro i next hnext
    exact hnumber (i + 1) next hnext
  case refine_3 =>
    intro sector i t hget ht hfile raw
    obtain ⟨first, last, hfirst, hlast, -, -, hfind⟩ := GetTrack_some hget
    obtain ⟨u, hu, hlower, hprev, -⟩ := findTrack_some hfind
    rw [ht] at hu
    obtain rfl := Option.some.inj hu
    have hbytes : (0 : ℤ) ≤ t.headerBytes raw := Int.natCast_nonneg _
    -- before the start of the track there are only the sectors behind the track before it
    have hback : ((t.start : ℤ) - sector) * t.sector_size ≤ t.skip := by
      by_cases hin : t.start ≤ sector
      · have hneg : ((t.start : ℤ) - sector) * t.sector_size ≤ 0 :=
          Int.mul_nonpos_of_nonpos_of_nonneg (by omega) (by omega)
        omega
      · cases i with
        | zero =>
          have hzero := getElem?_first hfirst
          rw [ht] at hzero
          obtain rfl := Option.some.inj hzero
          exact absurd (hlower rfl) hin
        | succ j =>
          obtain ⟨prev, hprevGet⟩ : ∃ prev, tracks[j]? = some prev := by
            have hlength := (List.getElem?_eq_some_iff.1 ht).1
            exact ⟨tracks[j], List.getElem?_eq_getElem (by omega)⟩
          have hstop := hprev j prev rfl hprevGet
          rw [u32_stop hordered hlead hprevGet] at hstop
          have hbefore := h.before j prev t hprevGet ht
          have hgap := hbefore.gap hfile
          have hle := hbefore.le
          have hmono : ((t.start : ℤ) - sector) * t.sector_size ≤
              ((t.start - prev.stop : ℕ) : ℤ) * t.sector_size :=
            Int.mul_le_mul_of_nonneg_right (by omega) (by omega)
          have hcast : (((t.start - prev.stop) * t.sector_size : ℕ) : ℤ) ≤ t.skip := by omega
          rw [Nat.cast_mul] at hcast
          exact hmono.trans hcast
    rw [Track.sectorOffset]
    have hsign : ((sector : ℤ) - t.start) * t.sector_size =
        -(((t.start : ℤ) - sector) * t.sector_size) := by
      rw [← Int.neg_mul, Int.neg_sub]
    omega

theorem exists_ends (htwo : 2 ≤ tracks.length) :
    ∃ first last, tracks.head? = some first ∧ tracks.getLast? = some last := by
  cases tracks with
  | nil => exact absurd htwo (by decide)
  | cons first tracks =>
    obtain ⟨last, hlast⟩ := Option.isSome_iff_exists.1 (List.getLast?_isSome.2
      (List.cons_ne_nil first tracks))
    exact ⟨first, last, rfl, hlast⟩

theorem start_le_start
    (h : ∀ i t u, tracks[i]? = some t → tracks[i + 1]? = some u → t.stop ≤ u.start)
    (ht : tracks[i]? = some t) (hu : tracks[j]? = some u) (hij : i ≤ j) : t.start ≤ u.start := by
  rcases hij.eq_or_lt with rfl | hlt
  · rw [ht] at hu
    obtain rfl := Option.some.inj hu
    exact le_rfl
  · have hle := stop_le_start h ht hu hlt
    have hstop : t.start ≤ t.stop := Nat.le_add_right _ _
    omega

/-- **What neighbours have to promise.** -/
theorem TrackTable.consecutive (h : TrackTable tracks) : Consecutive tracks := by
  refine ⟨h.two, ?_, ?_, ?_⟩
  case refine_1 =>
    intro first hfirst
    exact h.number 0 first (getElem?_first hfirst)
  case refine_2 =>
    intro i t u ht hu
    refine ⟨?_, h.ordered i t u ht hu, fun hfile => ?_⟩
    · rw [h.number i t ht, h.number (i + 1) u hu]
    rcases (h.ordered i t u ht hu).eq_or_lt with heq | hlt
    · rw [heq, Nat.sub_self, Nat.zero_mul]
      exact Nat.zero_le _
    -- the first sector behind `t` is one of `u`
    obtain ⟨first, last, hfirst, hlast⟩ := exists_ends h.two
    have hlength := (List.getElem?_eq_some_iff.1 hu).1
    have hfrom := start_le_start h.ordered (getElem?_first hfirst) ht (Nat.zero_le _)
    have hto := start_le_start h.ordered hu (getElem?_last hlast) (by omega)
    have hstart : t.start ≤ t.stop := Nat.le_add_right _ _
    have hstop : u.start ≤ u.stop := Nat.le_add_right _ _
    have hget : GetTrack tracks t.stop = some (i + 1) := by
      refine h.resolves first last hfirst hlast t.stop (by omega) (by omega) (i + 1) u hu ?_ (by omega)
      intro j prev hj hprev
      obtain rfl : i = j := by omega
      rw [ht] at hprev
      obtain rfl := Option.some.inj hprev
      exact le_rfl
    have hoffset := h.offsets t.stop (i + 1) u hget hu hfile true
    have hraw : u.headerBytes true = 0 := by simp [Track.headerBytes]
    rw [Track.sectorOffset, hraw] at hoffset
    have hcast : (((u.start - t.stop : ℕ) : ℤ)) = u.start - t.stop := by omega
    have hmul : (((u.start - t.stop) * u.sector_size : ℕ) : ℤ) =
        -(((t.stop : ℤ) - u.start) * u.sector_size) := by
      rw [Nat.cast_mul, hcast, ← Int.neg_mul, Int.neg_sub]
    omega
  case refine_3 =>
    intro first hfirst last hlast
    by_contra hreach
    rw [not_or] at hreach
    -- the last sector of the disc belongs to a track, and is not looked for
    have hends : ∃ (i : ℕ) (t : Track), tracks[i]? = some t ∧ last.start - 1 < t.stop := by
      refine ⟨_, last, getElem?_last hlast, ?_⟩
      rw [Track.stop]
      omega
    classical
    obtain ⟨t, ht, hupper⟩ := Nat.find_spec hends
    have hget : GetTrack tracks (last.start - 1) = some (Nat.find hends) := by
      refine h.resolves first last hfirst hlast _ (by omega) (by omega) _ t ht ?_ hupper
      intro j prev hj hprev
      have hmin := Nat.find_min hends (m := j) (by omega)
      exact not_lt.1 fun hlt => hmin ⟨prev, hprev, hlt⟩
    obtain ⟨-, -, -, -, hmax, -⟩ := GetTrack_some hget
    omega

end

theorem trackTable_iff {tracks : List Track} (hlead : LeadOut tracks) :
    TrackTable tracks ↔ Consecutive tracks :=
  ⟨fun h => h.consecutive, fun h => h.trackTable hlead⟩

/-! ## The steps of a cue sheet -/

/-- A track that is put behind the others is where it can be. In the same file it does not begin
before the track before it, no sum wraps around, and the sectors before it (skipped ones and a
pregap) are in the file. In another file the track before it does not end too late, and the track
begins with the file and has no pregap. -/
def Follows (p : Placed) (curr : Track) (prestart : ℤ) (currPregap : ℕ) : Prop :=
  ∀ prev ∈ p.tracks.getLast?,
    let skip := framesSkipped curr prestart
    if prev.file = curr.file then
      let start := u32 (curr.start + p.shift + p.totalPregap)
      prev.start + skip ≤ start ∧ start + currPregap < 2 ^ 32 ∧
        (curr.file ≠ none → (skip + currPregap) * curr.sector_size ≤
          u32 (curr.skip + prev.skip + (start - skip - prev.start : ℕ) * prev.sector_size +
            skip * curr.sector_size))
    else
      ∀ file ∈ prev.file,
        prev.start + sectorsLeft file prev + curr.start + currPregap < 2 ^ 32 ∧
          (curr.file ≠ none → curr.start + currPregap ≤ skip)

/-- Where the lead-out begins. -/
def discEnd (p : Placed) (last : Track) : ℕ :=
  last.file.elim (u32 (p.shift + p.totalPregap)) fun file => u32 (last.start + sectorsLeft file last)

instance (p : Placed) (curr : Track) (prestart : ℤ) (currPregap : ℕ) :
    Decidable (Follows p curr prestart currPregap) := by
  unfold Follows
  infer_instance

/-- The steps that are left are orderly. -/
def Orderly (p : Placed) : List CueTrack → Prop
  | [] => ∀ last ∈ p.tracks.getLast?, Follows p last.leadOut (-1) 0 ∧
      ∀ first ∈ p.tracks.head?,
        discEnd p last ≤ MAX_REDBOOK_SECTOR + 1 ∨ discEnd p last ≤ first.start
  | t :: ts => (p.tracks = [] → t.number = 1) ∧ Follows p t.track t.prestart t.pregap ∧
      ∀ q ∈ t.add p, Orderly q ts

instance decidableOrderly : ∀ (p : Placed) (ts : List CueTrack), Decidable (Orderly p ts)
  | p, [] => inferInstanceAs (Decidable (∀ last ∈ p.tracks.getLast?,
      Follows p last.leadOut (-1) 0 ∧ ∀ first ∈ p.tracks.head?,
        discEnd p last ≤ MAX_REDBOOK_SECTOR + 1 ∨ discEnd p last ≤ first.start))
  | p, t :: ts =>
    have := fun q => decidableOrderly q ts
    inferInstanceAs (Decidable ((p.tracks = [] → t.number = 1) ∧
      Follows p t.track t.prestart t.pregap ∧ ∀ q ∈ t.add p, Orderly q ts))

/-- What is handed to `AddTrack` by the loader. -/
structure Given (curr : Track) (prestart : ℤ) (currPregap : ℕ) : Prop where
  start : curr.start ≤ 1166880
  prestart : prestart ≤ 1166880
  pregap : currPregap ≤ 1166880
  size : curr.file ≠ none → 0 < curr.sector_size ∧ curr.sector_size ≤ 2352

theorem CueTrack.Bounded.given {t : CueTrack} (h : t.Bounded) :
    Given t.track t.prestart t.pregap where
  start := h.start
  prestart := by
    have hprestart := h.prestart
    omega
  pregap := h.pregap
  size _ := by
    have hsize : t.track.sector_size = t.type.sector_size := rfl
    rcases t.type.sector_size_cases with hss | hss | hss <;> omega

theorem given_leadOut (last : Track) : Given last.leadOut (-1) 0 :=
  ⟨Nat.zero_le _, by decide, Nat.zero_le _, fun h => absurd rfl h⟩

theorem u32_cast_add (x y : ℤ) : u32 ((u32 x : ℤ) + y) = u32 (x + y) := by
  have hcast : (u32 x : ℤ) = x % 2 ^ 32 := Int.toNat_of_nonneg (Int.emod_nonneg _ (by decide))
  rw [hcast, u32, u32, Int.emod_add_emod]

/-- Two sums that may wrap around are in order when neither does. -/
theorem wrapped_le_iff {first start skip pregap : ℕ} (hstart : start < 2 ^ 32)
    (hfrom : first < 2 ^ 32) (hskip : skip ≤ 1166880) (hpregap : pregap ≤ 1166880) :
    first + u32 (start - first - skip) ≤ u32 (start + pregap) ↔
      first + skip ≤ start ∧ start + pregap < 2 ^ 32 := by
  rw [u32, u32]
  by_cases hfits : first + skip ≤ start
  · rw [Int.emod_eq_of_lt (by omega) (by omega)]
    omega
  · omega

theorem framesSkipped_le {curr : Track} {prestart : ℤ} {currPregap : ℕ}
    (h : Given curr prestart currPregap) (hbefore : ¬ (0 ≤ prestart ∧ i32 curr.start < prestart)) :
    framesSkipped curr prestart ≤ curr.start := by
  have hstart := h.start
  rw [i32_of_lt (by omega)] at hbefore
  rw [framesSkipped]
  split
  · rw [i32_of_lt (by omega), u32]
    omega
  · exact Nat.zero_le _

section

variable {p q : Placed} {before : List Track} {prev curr track : Track} {prestart : ℤ}
  {currPregap : ℕ}

theorem sameFile_before_iff (shift totalPregap : ℕ) {skip : ℕ} (h : Given curr prestart currPregap)
    (hskip : skip ≤ curr.start) (hlength : prev.length = 0) (hstart : prev.start < 2 ^ 32)
    (hnumber : prev.number + 1 = curr.number) :
    let r := sameFile prev curr shift totalPregap skip currPregap
    let start := u32 (curr.start + shift + totalPregap)
    (r.1.Before r.2 ↔ prev.start + skip ≤ start ∧ start + currPregap < 2 ^ 32 ∧
      (curr.file ≠ none → (skip + currPregap) * curr.sector_size ≤
        u32 (curr.skip + prev.skip + (start - skip - prev.start : ℕ) * prev.sector_size +
          skip * curr.sector_size))) := by
  have hfrom := h.start
  have hpregap := h.pregap
  intro r start
  have hlen : r.1.length = u32 (start - prev.start - skip) := by
    simp only [r, start, sameFile, if_pos hlength]
    rw [sub_sub, sub_sub, sub_eq_add_neg, sub_eq_add_neg, add_assoc, u32_cast_add, u32_cast_add,
      ← add_assoc]
  have hto : r.2.start = u32 (start + currPregap) := by
    simp only [r, start, sameFile]
    rw [u32_cast_add, add_comm, u32_cast_add, u32_cast_add, add_comm, add_assoc _ (totalPregap : ℤ)]
  have hlt : start < 2 ^ 32 := by
    simp only [start, u32]
    omega
  have hskips : r.2.skip = u32 (curr.skip + (prev.skip + r.1.length * prev.sector_size +
      skip * curr.sector_size)) := by
    simp only [r, sameFile, if_pos hlength]
  have hstop : r.1.stop = prev.start + u32 (start - prev.start - skip) := by
    rw [← hlen]
    simp only [r, sameFile, if_pos hlength, Track.stop]
  have hsame : r.1.number = prev.number ∧ r.2.number = curr.number ∧ r.2.file = curr.file ∧
      r.2.sector_size = curr.sector_size := by
    simp only [r, sameFile, if_pos hlength, and_self]
  obtain ⟨hprevNumber, hcurrNumber, hcurrFile, hsize⟩ := hsame
  generalize start = start at hstop hto hlt hlen ⊢
  have hle : r.1.stop ≤ r.2.start ↔ prev.start + skip ≤ start ∧ start + currPregap < 2 ^ 32 := by
    rw [hstop, hto]
    exact wrapped_le_iff hlt hstart (hskip.trans hfrom) hpregap
  -- the sectors between the tracks, and the offset of the second one
  have hbetween : prev.start + skip ≤ start → start + currPregap < 2 ^ 32 →
      r.2.start - r.1.stop = skip + currPregap ∧
        r.2.skip = u32 (curr.skip + prev.skip + (start - skip - prev.start : ℕ) * prev.sector_size +
          skip * curr.sector_size) := by
    intro hfits hwraps
    have hexact : r.1.length = start - skip - prev.start := by
      rw [hlen, u32]
      omega
    constructor
    · rw [hstop, ← hlen, hexact, hto, ← Nat.cast_add, u32_of_lt hwraps]
      omega
    · rw [hskips, hexact]
      congr 1
      omega
  constructor
  · intro hbefore
    obtain ⟨hfits, hwraps⟩ := hle.1 hbefore.le
    obtain ⟨hdistance, hoffset⟩ := hbetween hfits hwraps
    refine ⟨hfits, hwraps, fun hfile => ?_⟩
    rw [← hoffset, ← hdistance, ← hsize]
    exact hbefore.gap (hcurrFile ▸ hfile)
  · rintro ⟨hfits, hwraps, hgap⟩
    obtain ⟨hdistance, hoffset⟩ := hbetween hfits hwraps
    refine ⟨by rw [hprevNumber, hcurrNumber, hnumber], hle.2 ⟨hfits, hwraps⟩, fun hfile => ?_⟩
    rw [hoffset, hdistance, hsize]
    exact hgap (hcurrFile ▸ hfile)

theorem otherFile_before_iff (file : TrackFile) {skip : ℕ} (h : Given curr prestart currPregap)
    (hskip : skip ≤ curr.start) (hnumber : prev.number + 1 = curr.number) :
    let r := otherFile file prev curr skip currPregap
    (r.1.Before r.2 ↔ prev.start + sectorsLeft file prev + curr.start + currPregap < 2 ^ 32 ∧
      (curr.file ≠ none → curr.start + currPregap ≤ skip)) := by
  have hfrom := h.start
  have hpregap := h.pregap
  intro r
  have hstop : r.1.stop = prev.start + sectorsLeft file prev := rfl
  have hto : r.2.start = u32 (curr.start + (prev.start + sectorsLeft file prev + currPregap)) := rfl
  have hskips : r.2.skip = u32 (skip * curr.sector_size) := rfl
  have hle : r.1.stop ≤ r.2.start ↔
      prev.start + sectorsLeft file prev + curr.start + currPregap < 2 ^ 32 := by
    rw [hstop, hto, u32]
    omega
  have hbetween : prev.start + sectorsLeft file prev + curr.start + currPregap < 2 ^ 32 →
      curr.file ≠ none →
      ((r.2.start - r.1.stop) * r.2.sector_size ≤ r.2.skip ↔ curr.start + currPregap ≤ skip) := by
    intro hwraps hfile
    obtain ⟨hpos, hsize⟩ := h.size hfile
    have hdistance : r.2.start - r.1.stop = curr.start + currPregap := by
      rw [hstop, hto, u32]
      omega
    have hoffset : r.2.skip = skip * curr.sector_size := by
      have hsmall : skip * curr.sector_size ≤ 1166880 * 2352 := Nat.mul_le_mul (by omega) hsize
      rw [hskips, ← Nat.cast_mul]
      exact u32_of_lt (by omega)
    rw [hdistance, hoffset]
    exact Nat.mul_le_mul_right_iff hpos
  constructor
  · intro hbefore
    have hwraps := hle.1 hbefore.le
    exact ⟨hwraps, fun hfile => (hbetween hwraps hfile).1 (hbefore.gap hfile)⟩
  · rintro ⟨hwraps, hgap⟩
    exact ⟨hnumber, hle.2 hwraps, fun hfile => (hbetween hwraps hfile).2 (hgap hfile)⟩

/-- **One step** puts a track where it can be exactly when it follows the track before it. -/
theorem AddTrack_before_iff (h : Given curr prestart currPregap)
    (htracks : p.tracks = before ++ [prev]) (hlength : prev.length = 0)
    (hstart : prev.start < 2 ^ 32) (hadd : AddTrack p curr prestart currPregap = some (q, track)) :
    ∃ r : Track × Track, q.tracks = before ++ [r.1] ++ [r.2] ∧
      (∃ length, r.1 = { prev with length := length }) ∧ r.2.length = curr.length ∧
      r.2.start < 2 ^ 32 ∧ (r.1.Before r.2 ↔ Follows p curr prestart currPregap) := by
  have hlast : p.tracks.getLast? = some prev := by rw [htracks, List.getLast?_concat]
  obtain ⟨hnot, r, -, hq, hprev, hcases⟩ := AddTrack_snoc htracks hadd
  have hskip := framesSkipped_le h hnot
  have hnumber := (AddTrack_number hadd hlast).2
  have hu32 : ∀ x : ℤ, u32 x < 2 ^ 32 := by
    intro x
    rw [u32]
    omega
  refine ⟨r, hq, hprev, ?_⟩
  rcases hcases with ⟨hsame, -, -, rfl⟩ | ⟨hother, file, hfile, -, -, rfl⟩
  · have hiff := sameFile_before_iff p.shift p.totalPregap h hskip hlength hstart hnumber
    refine ⟨rfl, by dsimp only [sameFile]; exact hu32 _, hiff.trans ?_⟩
    rw [Follows, hlast]
    simp only [Option.mem_some_iff, forall_eq', if_pos hsame]
  · have hiff := otherFile_before_iff file h hskip hnumber
    refine ⟨rfl, by dsimp only [otherFile]; exact hu32 _, hiff.trans ?_⟩
    rw [Follows, hlast]
    simp only [Option.mem_some_iff, forall_eq', if_neg hother]
    rw [hfile]
    simp only [Option.mem_some_iff, forall_eq']

end

/-! ## The rest of a cue sheet -/

theorem Track.before_length {t u : Track} {length : ℕ} :
    t.Before { u with length := length } ↔ t.Before u :=
  ⟨fun h => ⟨h.number, h.le, h.gap⟩, fun h => ⟨h.number, h.le, h.gap⟩⟩

/-- The lead-out is where the disc ends. -/
theorem leadOut_start {p q : Placed} {before : List Track} {last track : Track}
    (htracks : p.tracks = before ++ [last])
    (hadd : AddTrack p last.leadOut (-1) 0 = some (q, track)) :
    track.start = discEnd p last := by
  obtain ⟨hlast, -⟩ := AddTrack_last hadd
  obtain ⟨-, r, -, hq, -, hcases⟩ := AddTrack_snoc htracks hadd
  have htrack : track = r.2 := by
    rw [hq, List.getLast?_concat] at hlast
    exact (Option.some.inj hlast).symm
  rw [htrack, discEnd]
  rcases hcases with ⟨hsame, -, -, rfl⟩ | ⟨-, file, hfile, -, -, rfl⟩
  · have hnone : last.file = none := hsame
    rw [hnone]
    simp only [sameFile, Track.leadOut, Option.elim_none, u32]
    omega
  · rw [hfile]
    simp only [otherFile, Track.leadOut, Option.elim_some, u32, sectorsLeft]
    omega

variable {table : List Track}

/-- **The rest of a cue sheet**, behind a track that is in the table. -/
theorem loadRest_consecutive_iff {us : List CueTrack} {p : Placed} {before : List Track}
    {prev : Track} {from₀ : ℕ} (hbounded : ∀ u ∈ us, u.Bounded)
    (htracks : p.tracks = before ++ [prev]) (hlength : prev.length = 0)
    (hstart : prev.start < 2 ^ 32) (hfirst : p.tracks.head?.map Track.start = some from₀)
    (h : loadRest us p = some table) :
    ∃ length u rest, table = before ++ { prev with length := length } :: u :: rest ∧
      LeadOut table ∧
      ((List.IsChain Track.Before ({ prev with length := length } :: u :: rest) ∧
        ∀ last ∈ table.getLast?, last.start ≤ MAX_REDBOOK_SECTOR + 1 ∨ last.start ≤ from₀) ↔
          Orderly p us) := by
  induction us generalizing p before prev with
  | nil =>
    obtain ⟨last, ⟨q, track⟩, hlast, hadd, rfl⟩ := loadRest_nil h
    obtain rfl : prev = last := by
      rw [htracks, List.getLast?_concat] at hlast
      exact Option.some.inj hlast
    obtain ⟨r, hq, ⟨length, hprev⟩, hnone, hlt, hiff⟩ :=
      AddTrack_before_iff (given_leadOut prev) htracks hlength hstart hadd
    have htable : q.tracks = before ++ { prev with length := length } :: r.2 :: [] := by
      rw [hq, hprev, List.append_assoc]
      rfl
    have hend : q.tracks.getLast? = some r.2 := by rw [hq, List.getLast?_concat]
    have htrack : track = r.2 := by
      have hadded := (AddTrack_last hadd).1
      rw [hend] at hadded
      exact (Option.some.inj hadded).symm
    have hfrom : r.2.start = discEnd p prev := by
      rw [← htrack]
      exact leadOut_start htracks hadd
    refine ⟨length, r.2, [], htable, ?_, ?_⟩
    · intro last hlast'
      rw [hend] at hlast'
      obtain rfl := Option.some.inj hlast'
      exact ⟨hnone, hlt⟩
    · have hreach : (∀ first ∈ p.tracks.head?,
          discEnd p prev ≤ MAX_REDBOOK_SECTOR + 1 ∨ discEnd p prev ≤ first.start) ↔
            (discEnd p prev ≤ MAX_REDBOOK_SECTOR + 1 ∨ discEnd p prev ≤ from₀) := by
        obtain ⟨first, hhead, rfl⟩ := Option.map_eq_some_iff.1 hfirst
        simp only [hhead, Option.mem_some_iff, forall_eq']
      have hpair : List.IsChain Track.Before [{ prev with length := length }, r.2] ↔
          Follows p prev.leadOut (-1) 0 := by
        rw [← hiff, hprev]
        simp
      rw [Orderly, hlast, hend, hpair]
      simp only [Option.mem_some_iff, forall_eq', hreach, hfrom]
  | cons u us ih =>
    obtain ⟨q, track, hadd, hrest⟩ := loadRest_cons h
    obtain ⟨r, hq, ⟨length, hprev⟩, hnone, hlt, hiff⟩ :=
      AddTrack_before_iff (hbounded u List.mem_cons_self).given htracks hlength hstart hadd
    have hhead : q.tracks.head?.map Track.start = some from₀ := by
      rw [hq, hprev]
      rw [htracks] at hfirst
      cases before with
      | nil => exact hfirst
      | cons first before => exact hfirst
    obtain ⟨count, v, rest, htable, hlead, hrestIff⟩ := ih
      (fun v hv => hbounded v (List.mem_cons_of_mem _ hv)) hq hnone hlt hhead hrest
    refine ⟨length, { r.2 with length := count }, v :: rest, ?_, hlead, ?_⟩
    · rw [htable, hprev, List.append_assoc]
      rfl
    · have hne : p.tracks ≠ [] := by simp [htracks]
      have hadded : u.add p = some q := by
        rw [CueTrack.add, hadd]
        rfl
      rw [Orderly, hadded]
      simp only [hne, false_implies, true_and, Option.mem_some_iff, forall_eq']
      rw [← hrestIff, List.isChain_cons_cons, Track.before_length, ← hprev, hiff, and_assoc]

theorem isChain_before_iff {tracks : List Track} : tracks.IsChain Track.Before ↔
    ∀ i t u, tracks[i]? = some t → tracks[i + 1]? = some u → t.Before u := by
  rw [List.isChain_iff_getElem]
  constructor
  · intro h i t u ht hu
    obtain ⟨hi, rfl⟩ := List.getElem?_eq_some_iff.1 ht
    obtain ⟨hnext, rfl⟩ := List.getElem?_eq_some_iff.1 hu
    exact h i hnext
  · intro h i hi
    exact h i _ _ (List.getElem?_eq_getElem (by omega)) (List.getElem?_eq_getElem hi)

/-- **A cue sheet** has a table to rely on exactly when each of its steps is orderly. -/
theorem LoadCueSheet_trackTable_iff {lines : List CueLine} (h : LoadCueSheet lines = some table) :
    TrackTable table ↔ Orderly ⟨[], 0, 0⟩ (sheetTracks lines) := by
  obtain ⟨p, hfold, hlead⟩ := LoadCueSheet_spec h
  have hrest : loadRest (sheetTracks lines) ⟨[], 0, 0⟩ = some table := by
    rw [loadRest, hfold]
    exact hlead
  have hbounded : ∀ t ∈ sheetTracks lines, t.Bounded := bounded_sheetTracks
  generalize sheetTracks lines = tracks at hrest hbounded ⊢
  cases tracks with
  | nil =>
    obtain ⟨last, r, hlast, -⟩ := loadRest_nil hrest
    cases hlast
  | cons t us =>
    obtain ⟨q, track, hadd, hrest⟩ := loadRest_cons hrest
    have hadded : t.add ⟨[], 0, 0⟩ = some q := by
      rw [CueTrack.add, hadd]
      rfl
    obtain ⟨hlast, htrack⟩ := AddTrack_last hadd
    have hplaced : q.tracks = [track] ∧ track.start < 2 ^ 32 := by
      rw [AddTrack] at hadd
      split at hadd
      · cases hadd
      · obtain ⟨rfl, rfl⟩ := Prod.ext_iff.1 (Option.some.inj hadd)
        refine ⟨rfl, ?_⟩
        dsimp only [u32]
        omega
    obtain ⟨htracks, hlt⟩ := hplaced
    have hlength : track.length = 0 := by
      rw [htrack]
      rfl
    have hnumber : track.number = t.number := by
      rw [htrack]
      rfl
    obtain ⟨length, u, rest, rfl, hleads, hiff⟩ := loadRest_consecutive_iff
      (fun u hu => hbounded u (List.mem_cons_of_mem _ hu))
      (show q.tracks = [] ++ [track] from htracks) hlength hlt
      (show q.tracks.head?.map Track.start = some track.start by rw [htracks]; rfl) hrest
    rw [trackTable_iff hleads, Orderly, hadded]
    simp only [true_implies, Option.mem_some_iff, forall_eq']
    rw [← hiff, ← hnumber]
    constructor
    · intro hgood
      refine ⟨hgood.first { track with length := length } rfl, ?_,
        isChain_before_iff.2 hgood.before, hgood.reach { track with length := length } rfl⟩
      intro prev hprev
      cases hprev
    · rintro ⟨hone, -, hchain, hreach⟩
      refine ⟨?_, ?_, isChain_before_iff.1 hchain, ?_⟩
      · simp
      · rintro first hfirst
        obtain rfl := Option.some.inj hfirst
        exact hone
      · rintro first hfirst
        obtain rfl := Option.some.inj hfirst
        exact hreach

/-! ## The loaders -/

/-- An ISO file is one track with the lead-out behind it. -/
theorem LoadIsoFile_trackTable {iso : Option IsoFile} (h : LoadIsoFile iso = some table) :
    TrackTable table := by
  cases iso with
  | none => cases h
  | some iso =>
    rw [LoadIsoFile] at h
    dsimp only [Option.bind_eq_bind, Option.bind_some] at h
    cases htype : isoType iso with
    | none =>
      rw [htype] at h
      cases h
    | some type =>
      rw [htype] at h
      obtain rfl := Option.some.inj h
      have hsize : type.1 = 2048 ∨ type.1 = 2352 ∨ type.1 = 2336 ∨ type.1 = 2352 := by
        have hmem := List.mem_of_find?_eq_some htype
        simp only [List.mem_cons, List.not_mem_nil, or_false] at hmem
        rcases hmem with rfl | rfl | rfl | rfl <;> simp
      have hlength := iso.file.length_lt
      have hsectors : iso.file.length / type.1 < 1048576 := by
        rcases hsize with hss | hss | hss | hss <;> rw [hss] <;> omega
      generalize iso.file.length / type.1 = sectors at hsectors ⊢
      refine (trackTable_iff ?_).2 ⟨by simp, ?_, isChain_before_iff.1 ?_, ?_⟩
      · intro last hlast
        obtain rfl := Option.some.inj hlast
        refine ⟨rfl, ?_⟩
        show sectors < 2 ^ 32
        omega
      · intro first hfirst
        obtain rfl := Option.some.inj hfirst
        rfl
      · refine List.isChain_cons_cons.2 ⟨⟨rfl, ?_, fun hfile => absurd rfl hfile⟩, by simp⟩
        simp [Track.stop]
      · intro first hfirst last hlast
        obtain rfl := Option.some.inj hlast
        refine .inl ?_
        show sectors ≤ 1826090 + 1
        omega

/-- The lead-out of an MDS file has number 0. -/
theorem LoadMdsFile_not_trackTable {host : Host} {tracks : List Track}
    {blocks : List (Option MdsTrackBlock)} (h : LoadMdsFile host tracks blocks = some table) :
    ¬ TrackTable table := by
  intro htable
  rw [LoadMdsFile] at h
  cases hblocks : blocks.foldlM (mdsBlock host) ⟨tracks, []⟩ with
  | none =>
    rw [hblocks] at h
    cases h
  | some s =>
    rw [hblocks] at h
    dsimp only [Option.bind_eq_bind, Option.bind_some] at h
    cases hlast : s.tracks.getLast? with
    | none =>
      rw [hlast] at h
      cases h
    | some last =>
      rw [hlast] at h
      obtain rfl := Option.some.inj h
      have hnumber := htable.number s.tracks.length { start := u32 (last.start + last.length) }
        (by simp)
      exact absurd hnumber (Nat.succ_ne_zero _).symm

/-- The images whose table can be relied on. -/
def Image.Orderly : Image → Prop
  | .iso _ => True
  | .mds _ _ _ => False
  | .cue lines => Cdrom.Orderly ⟨[], 0, 0⟩ (sheetTracks lines)

/-- **The table of an image** that has been accepted: an ISO file always has one to rely on, an MDS
file never, and a cue sheet exactly when its steps are orderly. -/
theorem Image.load_trackTable_iff {image : Image} {table : List Track}
    (h : image.load = some table) : TrackTable table ↔ image.Orderly := by
  cases image with
  | iso iso => exact iff_of_true (LoadIsoFile_trackTable h) trivial
  | mds host tracks blocks => exact iff_of_false (LoadMdsFile_not_trackTable h) not_false
  | cue lines => exact LoadCueSheet_trackTable_iff h

/-- Two tracks in one file, again. -/
theorem trackTable_twoTracks :
    ∃ table, (Image.cue twoTracks).load = some table ∧ TrackTable table := by
  have hload : ((Image.cue twoTracks).load).isSome = true := by decide +kernel
  have horderly : (Image.cue twoTracks).Orderly :=
    show Cdrom.Orderly ⟨[], 0, 0⟩ (sheetTracks twoTracks) by decide +kernel
  obtain ⟨table, htable⟩ := Option.isSome_iff_exists.1 hload
  exact ⟨table, htable, (Image.load_trackTable_iff htable).2 horderly⟩

/-- An MDS file of one audio track. -/
def oneTrackMds : Image :=
  .mds (fun _ => some ⟨23520, by decide⟩) [] [some {
    mode := 0xa9, subchannel := 0, point := 1, sector_size := 2352, start_sector := 0
    start_offset := 0, number_of_files := 1, footer_offset := 0x200, extra_offset := 0x180
    extra := some 10, footer := some 0x210, mdf_filename := "*.mdf" }]

theorem oneTrackMds_not_trackTable :
    ∃ table, oneTrackMds.load = some table ∧ ¬ TrackTable table := by
  have hload : oneTrackMds.load.isSome = true := by decide +kernel
  obtain ⟨table, htable⟩ := Option.isSome_iff_exists.1 hload
  exact ⟨table, htable, LoadMdsFile_not_trackTable htable⟩

end AugraDosbox.Cdrom
