import AugraDosbox.Dos.CueTracks
import Mathlib.Tactic.NormNum

/-!
# The layout of a cue sheet

Where the tracks of a cue sheet are to be on the disc and in their files, and when the table that
`LoadCueSheet` makes is that layout.

* `layout` — start, offset and length of the tracks, file behind file;
* `Laid` — what the sum `shift` and the ends of the files have to do with it;
* **`LoadCueSheet_layout_iff`** — the table is the layout exactly when the tracks of each file
  follow each other inside the file, and `shift` is right wherever it is used.
-/

namespace AugraDosbox.Cdrom

/-- Where a track is, in exact numbers. -/
structure Entry where
  start : ℤ
  skip : ℤ
  length : ℤ
deriving DecidableEq

def Track.entry (t : Track) : Entry := ⟨t.start, t.skip, t.length⟩

namespace CueTrack

variable (t : CueTrack)

/-- INDEX 00, or INDEX 01 if there is none. -/
def begins : ℤ := if 0 ≤ t.prestart then t.prestart else t.start

/-- The bytes of its file. -/
def fileLength : ℕ := t.file.elim 0 TrackFile.length

/-- The sectors of its file. -/
def fileSectors : ℕ := (t.fileLength + (t.type.sector_size - 1)) / t.type.sector_size

/-- The next track, if it is in the same file. -/
def next : List CueTrack → Option CueTrack
  | [] => none
  | u :: _ => if t.file = u.file then some u else none

/-- Where the track ends in its file. -/
def ends (us : List CueTrack) : ℤ := (t.next us).elim t.fileSectors begins

/-- The sectors that are before the tracks behind this one and in other files. -/
def closes (us : List CueTrack) (base : ℕ) : ℕ :=
  (t.next us).elim (base + t.fileSectors) fun _ => base

end CueTrack

/-- The tracks of a disc, behind `base` sectors of earlier files, and the lead-out. -/
def layout (base : ℕ) : List CueTrack → List Entry
  | [] => [⟨base, 0, 0⟩]
  | t :: us =>
    ⟨base + t.start, t.start * t.type.sector_size, t.ends us - t.start⟩ :: layout (t.closes us base) us

/-- The tracks follow each other inside their files. Behind `base` sectors the sum `shift` has got
`lost` too large, which matters for each track that is not the first one of its file. -/
def Laid (base lost : ℕ) : List CueTrack → Prop
  | [] => True
  | t :: us =>
    match t.next us with
    | some u => (t.start : ℤ) ≤ u.begins ∧ lost % 2 ^ 32 = 0 ∧ Laid base lost us
    | none => t.start * t.type.sector_size ≤ t.fileLength ∧
        Laid (base + t.fileSectors) (lost + base) us

/-- A sheet of files with tracks: the tracks of a file have one sector size, nothing is put between
the tracks, and the first track of each file begins with the file. -/
structure Plain (tracks : List CueTrack) : Prop where
  files : ∀ t ∈ tracks, t.file ≠ none
  sizes : ∀ t ∈ tracks, ∀ u ∈ tracks, t.file = u.file → t.type.sector_size = u.type.sector_size
  pregaps : ∀ t ∈ tracks, t.pregap = 0
  firsts : ∀ before t after, tracks = before ++ t :: after →
    (∀ u ∈ before.getLast?, u.file ≠ t.file) → t.begins = 0

/-! ## The numbers of a sheet -/

/-- The frames of a sheet have three bytes. -/
structure CueTrack.Bounded (t : CueTrack) : Prop where
  start : t.start ≤ 1166880
  prestart : t.prestart = -1 ∨ (0 ≤ t.prestart ∧ t.prestart ≤ 1166880)
  pregap : t.pregap ≤ 1166880
  number : t.number < 256

theorem msf_to_frames_le (msf : TMSF) : msf_to_frames msf ≤ 1166880 := by
  have hmin := msf.min.isLt
  have hsec := msf.sec.isLt
  have hfr := msf.fr.isLt
  rw [msf_to_frames]
  omega

theorem CueTrack.Bounded.withLine {t : CueTrack} (h : t.Bounded) (line : CueLine) :
    (t.withLine line).Bounded := by
  unfold CueTrack.withLine
  split
  · rename_i frame
    have hframe := msf_to_frames_le frame
    split
    · exact ⟨hframe, h.prestart, h.pregap, h.number⟩
    split
    · exact ⟨h.start, .inr ⟨Int.natCast_nonneg _, Int.ofNat_le.2 hframe⟩, h.pregap, h.number⟩
    · exact h
  · rename_i frame
    exact ⟨h.start, h.prestart, msf_to_frames_le frame, h.number⟩
  · exact h

theorem CueTrack.Bounded.new (file : Option TrackFile) (track_number : ℤ) (type : TrackType) :
    (CueTrack.new file track_number type).Bounded := by
  refine ⟨Nat.zero_le _, .inl rfl, Nat.zero_le _, ?_⟩
  have hmod : 0 ≤ track_number % 256 ∧ track_number % 256 < 256 :=
    ⟨Int.emod_nonneg _ (by decide), Int.emod_lt_of_pos _ (by decide)⟩
  rw [CueTrack.new]
  dsimp only
  omega

theorem bounded_cueTracks {lines : List CueLine} {opened : ℕ} {file : Option TrackFile}
    {pending : Option CueTrack} (h : ∀ t ∈ pending, t.Bounded) :
    ∀ t ∈ cueTracks opened file pending lines, t.Bounded := by
  fun_induction cueTracks opened file pending lines with
  | case1 opened file pending =>
    intro t ht
    exact h t (Option.mem_toList.1 ht)
  | case2 opened file pending track_number type lines ih =>
    intro t ht
    rcases List.mem_append.1 ht with ht | ht
    · exact h t (Option.mem_toList.1 ht)
    · refine ih ?_ t ht
      rintro u hu
      obtain rfl := Option.some.inj hu
      exact CueTrack.Bounded.new _ _ _
  | case3 opened file pending length lines ih =>
    intro t ht
    rcases List.mem_append.1 ht with ht | ht
    · exact h t (Option.mem_toList.1 ht)
    · exact ih (fun u hu => by cases hu) t ht
  | case4 opened file pending line lines _ _ ih =>
    refine ih ?_
    intro t ht
    obtain ⟨u, hu, rfl⟩ := Option.map_eq_some_iff.1 ht
    exact (h u hu).withLine line

theorem bounded_sheetTracks {lines : List CueLine} : ∀ t ∈ sheetTracks lines, t.Bounded :=
  bounded_cueTracks fun _ h => by cases h

theorem CueTrack.Bounded.begins_le {t : CueTrack} (h : t.Bounded) :
    0 ≤ t.begins ∧ t.begins ≤ 1166880 := by
  have hstart := h.start
  have hprestart := h.prestart
  rw [CueTrack.begins]
  split <;> omega

theorem TrackType.sector_size_cases (type : TrackType) :
    type.sector_size = 2048 ∨ type.sector_size = 2336 ∨ type.sector_size = 2352 := by
  cases type <;> decide

theorem u32_of_lt {x : ℕ} (h : x < 4294967296) : u32 x = x := by
  rw [u32]
  omega

theorem i32_of_lt {x : ℕ} (h : x < 2147483648) : i32 x = x := by
  have hhalf : (x : ℤ) < ((2 ^ 32 : ℕ) + 1) / 2 := by
    norm_num
    omega
  have hneg : -(((2 ^ 32 : ℕ) : ℤ) / 2) ≤ x := by norm_num
  exact Int.bmod_eq_of_le hneg hhalf

/-- The bytes in front of a frame of a sheet. -/
theorem u32_bytes {type : TrackType} {frames : ℕ} (h : frames ≤ 1166880) :
    u32 (frames * type.sector_size) = frames * type.sector_size := by
  have hsize : type.sector_size ≤ 2352 := by cases type <;> decide
  have hle : frames * type.sector_size ≤ 1166880 * 2352 := Nat.mul_le_mul h hsize
  rw [← Nat.cast_mul]
  exact u32_of_lt (hle.trans_lt (by decide))

/-- The frames that are skipped lead from the beginning of a track to its INDEX 01. -/
theorem framesSkipped_eq {t : CueTrack} (h : t.Bounded) (hbefore : t.prestart ≤ t.start) :
    (framesSkipped t.track t.prestart : ℤ) = t.start - t.begins := by
  have hstart := h.start
  have hprestart := h.prestart
  rw [framesSkipped, CueTrack.begins]
  split
  · have hconvert : i32 t.track.start = t.start := i32_of_lt (show t.start < 2147483648 by omega)
    rw [hconvert, u32]
    omega
  · omega

/-- **The rest of a file** from a track on, unless the track begins behind the file's end. -/
theorem sectorsLeft_eq_iff {t : CueTrack} {file : TrackFile} {prev : Track} (h : t.Bounded)
    (hfile : t.file = some file) (hsize : prev.sector_size = t.type.sector_size)
    (hskip : prev.skip = t.start * t.type.sector_size) :
    ((sectorsLeft file prev : ℤ) = t.fileSectors - t.start ↔
      t.start * t.type.sector_size ≤ t.fileLength) := by
  have hstart := h.start
  have hlength := file.length_lt
  have hbytes : t.fileLength = file.length := by rw [CueTrack.fileLength, hfile]; rfl
  rw [sectorsLeft, CueTrack.fileSectors, hsize, hskip, hbytes, u32]
  generalize t.start = start at hstart ⊢
  generalize file.length = length at hlength ⊢
  rcases t.type.sector_size_cases with hss | hss | hss <;> rw [hss] <;> push_cast <;> split <;> omega

theorem fileSectors_le (t : CueTrack) : t.fileSectors ≤ 1048576 := by
  have hlength : t.fileLength < 2 ^ 31 := by
    rw [CueTrack.fileLength]
    cases t.file with
    | none => decide
    | some file => exact file.length_lt
  rw [CueTrack.fileSectors]
  rcases t.type.sector_size_cases with hss | hss | hss <;> rw [hss] <;> omega

/-! ## One track after the other -/

/-- The rest of the loader: the tracks that are left, and the lead-out. -/
def loadRest (us : List CueTrack) (p : Placed) : Option (List Track) :=
  (us.foldlM CueTrack.add p).bind addLeadOut

variable {table : List Track}

theorem loadRest_cons {u : CueTrack} {us : List CueTrack} {p : Placed}
    (h : loadRest (u :: us) p = some table) :
    ∃ q track, AddTrack p u.track u.prestart u.pregap = some (q, track) ∧
      loadRest us q = some table := by
  rw [loadRest, List.foldlM_cons, CueTrack.add] at h
  cases hadd : AddTrack p u.track u.prestart u.pregap with
  | none =>
    rw [hadd] at h
    cases h
  | some r =>
    rw [hadd] at h
    exact ⟨r.1, r.2, rfl, h⟩

theorem loadRest_nil {p : Placed} (h : loadRest [] p = some table) :
    ∃ last r, p.tracks.getLast? = some last ∧ AddTrack p last.leadOut (-1) 0 = some r ∧
      table = r.1.tracks := by
  have hlead : addLeadOut p = some table := h
  rw [addLeadOut] at hlead
  cases hlast : p.tracks.getLast? with
  | none =>
    rw [hlast] at hlead
    cases hlead
  | some last =>
    rw [hlast] at hlead
    dsimp only [Option.bind_eq_bind, Option.bind_some] at hlead
    cases hadd : AddTrack p last.leadOut (-1) 0 with
    | none =>
      rw [hadd] at hlead
      cases hlead
    | some r =>
      rw [hadd] at hlead
      exact ⟨last, r, rfl, hadd, (Option.some.inj hlead).symm⟩

/-- A track behind another one: the table, and the two cases. -/
theorem AddTrack_snoc {p q : Placed} {before : List Track} {prev curr track : Track}
    {prestart : ℤ} {currPregap : ℕ} (htracks : p.tracks = before ++ [prev])
    (h : AddTrack p curr prestart currPregap = some (q, track)) :
    ¬ (0 ≤ prestart ∧ i32 curr.start < prestart) ∧
    ∃ r : Track × Track, consistent r.1 r.2 = true ∧ q.tracks = before ++ [r.1] ++ [r.2] ∧
      (∃ length, r.1 = { prev with length := length }) ∧
      ((prev.file = curr.file ∧ q.shift = p.shift ∧
          q.totalPregap = u32 (p.totalPregap + currPregap) ∧
          r = sameFile prev curr p.shift p.totalPregap (framesSkipped curr prestart) currPregap) ∨
        (prev.file ≠ curr.file ∧ ∃ file, prev.file = some file ∧ q.totalPregap = currPregap ∧
          q.shift = u32 (p.shift + (r.1.start + r.1.length)) ∧
          r = otherFile file prev curr (framesSkipped curr prestart) currPregap)) := by
  have hlast : p.tracks.getLast? = some prev := by simp [htracks]
  have hdrop : p.tracks.dropLast = before := by simp [htracks]
  rw [AddTrack] at h
  split at h
  · cases h
  rename_i hbefore
  refine ⟨hbefore, ?_⟩
  rw [hlast] at h
  dsimp only at h
  rw [hdrop] at h
  split at h
  · rename_i hsame
    split at h
    · rename_i hconsistent
      obtain ⟨rfl, -⟩ := Prod.ext_iff.1 (Option.some.inj h)
      refine ⟨_, hconsistent, by simp, ?_, .inl ⟨hsame, rfl, rfl, rfl⟩⟩
      rw [sameFile]
      dsimp only
      split
      · exact ⟨_, rfl⟩
      · exact ⟨prev.length, rfl⟩
    · cases h
  rename_i hother
  split at h
  · cases h
  rename_i file hfile
  split at h
  · cases h
  split at h
  · rename_i hconsistent
    obtain ⟨rfl, -⟩ := Prod.ext_iff.1 (Option.some.inj h)
    exact ⟨_, hconsistent, by simp, ⟨_, rfl⟩, .inr ⟨hother, file, hfile, rfl, rfl, rfl⟩⟩
  · cases h

/-- What is in the table stays there, but for the length of the last track. -/
theorem loadRest_keeps {us : List CueTrack} {p : Placed} {before : List Track} {prev : Track}
    (htracks : p.tracks = before ++ [prev]) (h : loadRest us p = some table) :
    ∃ length rest, table = before ++ { prev with length := length } :: rest := by
  induction us generalizing p before prev with
  | nil =>
    obtain ⟨last, ⟨q, track⟩, -, hadd, rfl⟩ := loadRest_nil h
    obtain ⟨-, r, -, hq, ⟨length, hprev⟩, -⟩ := AddTrack_snoc htracks hadd
    refine ⟨length, [r.2], ?_⟩
    rw [hq, hprev, List.append_assoc]
    rfl
  | cons u us ih =>
    obtain ⟨q, track, hadd, hrest⟩ := loadRest_cons h
    obtain ⟨-, r, -, hq, ⟨length, hprev⟩, -⟩ := AddTrack_snoc htracks hadd
    obtain ⟨length', rest, rfl⟩ := ih hq hrest
    refine ⟨length, { r.2 with length := length' } :: rest, ?_⟩
    rw [hprev, List.append_assoc]
    rfl

/-- A track that is where it is to be, at the end of the table. -/
structure PlacedAt (p : Placed) (before : List Track) (prev : Track) (t : CueTrack)
    (base lost : ℕ) : Prop where
  tracks : p.tracks = before ++ [prev]
  track : prev = { t.track with start := base + t.start, skip := t.start * t.type.sector_size }
  shift : p.shift = (base + lost) % 2 ^ 32
  totalPregap : p.totalPregap = 0
  base_le : base ≤ t.number * 1048576

/-- What is used of a plain sheet behind its first track. -/
structure PlainFrom (tracks : List CueTrack) : Prop where
  bounded : ∀ t ∈ tracks, t.Bounded
  files : ∀ t ∈ tracks, t.file ≠ none
  sizes : ∀ t ∈ tracks, ∀ u ∈ tracks, t.file = u.file → t.type.sector_size = u.type.sector_size
  pregaps : ∀ t ∈ tracks, t.pregap = 0
  firsts : ∀ before t u after, tracks = before ++ t :: u :: after → t.file ≠ u.file → u.begins = 0

theorem PlainFrom.tail {t : CueTrack} {us : List CueTrack} (h : PlainFrom (t :: us)) :
    PlainFrom us where
  bounded u hu := h.bounded u (List.mem_cons_of_mem _ hu)
  files u hu := h.files u (List.mem_cons_of_mem _ hu)
  sizes u hu v hv := h.sizes u (List.mem_cons_of_mem _ hu) v (List.mem_cons_of_mem _ hv)
  pregaps u hu := h.pregaps u (List.mem_cons_of_mem _ hu)
  firsts before u v after heq := h.firsts (t :: before) u v after (by rw [heq]; rfl)

theorem Plain.from {tracks : List CueTrack} (h : Plain tracks) (hbounded : ∀ t ∈ tracks, t.Bounded) :
    PlainFrom tracks where
  bounded := hbounded
  files := h.files
  sizes := h.sizes
  pregaps := h.pregaps
  firsts := by
    intro before t u after heq hother
    refine h.firsts (before ++ [t]) u after (by rw [heq, List.append_assoc]; rfl) ?_
    intro v hv
    rw [List.getLast?_concat] at hv
    obtain rfl := Option.some.inj hv
    exact hother

section

variable {t u : CueTrack} {us : List CueTrack} {p q : Placed} {before : List Track}
  {prev : Track} {base lost : ℕ}

/-- The first track of a file is at the end of the files before it. -/
theorem PlacedAt.end_eq {file : TrackFile} (hat : PlacedAt p before prev t base lost)
    (hbounded : t.Bounded) (hfile : t.file = some file)
    (hinside : t.start * t.type.sector_size ≤ t.fileLength) :
    prev.start + sectorsLeft file prev = base + t.fileSectors ∧
      (sectorsLeft file prev : ℤ) = t.fileSectors - t.start := by
  have hsize : prev.sector_size = t.type.sector_size := by rw [hat.track]; rfl
  have hskip : prev.skip = t.start * t.type.sector_size := by rw [hat.track]
  have hstart : prev.start = base + t.start := by rw [hat.track]
  have hleft := (sectorsLeft_eq_iff hbounded hfile hsize hskip).2 hinside
  omega

theorem sameFile_spec (hat : PlacedAt p before prev t base lost) (hplain : PlainFrom (t :: u :: us))
    (hsame : t.file = u.file) (hbefore : u.prestart ≤ u.start) :
    let r := sameFile prev u.track p.shift p.totalPregap (framesSkipped u.track u.prestart) u.pregap
    r.1.length = u32 (lost + u.begins - t.start) ∧ r.2.start = u32 (base + lost + u.start) ∧
      ((t.start : ℤ) ≤ u.begins → lost % 2 ^ 32 = 0 →
        r.2 = { u.track with
          start := base + u.start, skip := u.start * u.type.sector_size }) := by
  have ht : t ∈ t :: u :: us := List.mem_cons_self
  have hu : u ∈ t :: u :: us := List.mem_cons_of_mem _ List.mem_cons_self
  have hstart := (hplain.bounded u hu).start
  have hnumber := (hplain.bounded t ht).number
  have hskipped := framesSkipped_eq (hplain.bounded u hu) hbefore
  have hsize : t.type.sector_size = u.type.sector_size := hplain.sizes t ht u hu hsame
  have hbase := hat.base_le
  have hprev : prev.length = 0 ∧ prev.start = base + t.start ∧
      prev.skip = t.start * u.type.sector_size ∧ prev.sector_size = u.type.sector_size := by
    rw [hat.track, ← hsize]
    exact ⟨rfl, rfl, rfl, rfl⟩
  obtain ⟨hlength, hfrom, hskip, hprevSize⟩ := hprev
  generalize framesSkipped u.track u.prestart = skipped at hskipped
  intro r
  have hr₁ : r.1.length = u32 (lost + u.begins - t.start) := by
    simp only [r, sameFile, if_pos hlength, hat.shift, hat.totalPregap, hfrom, u32, CueTrack.track]
    omega
  have hr₂ : r.2.start = u32 (base + lost + u.start) := by
    simp only [r, sameFile, hat.shift, hat.totalPregap, hplain.pregaps u hu, u32, CueTrack.track]
    omega
  refine ⟨hr₁, hr₂, fun hfollows hlost => ?_⟩
  have hexact : r.1.length = u.begins - t.start := by
    rw [hr₁, u32]
    omega
  have hr₃ : r.2.skip = u.start * u.type.sector_size := by
    have hdef : r.2.skip = u32 (0 + (t.start * u.type.sector_size +
        r.1.length * u.type.sector_size + skipped * u.type.sector_size)) := by
      simp only [r, sameFile, if_pos hlength, hskip, hprevSize, CueTrack.track]
      push_cast
      rfl
    have hfrom : (t.start : ℤ) + r.1.length + skipped = u.start := by omega
    rw [hdef, zero_add, ← add_mul, ← add_mul, hfrom]
    exact u32_bytes hstart
  have hr₄ : r.2.start = base + u.start := by
    rw [hr₂, u32]
    omega
  have hfields : r.2 = { u.track with skip := r.2.skip, start := r.2.start } := rfl
  rw [hfields, hr₃, hr₄]

theorem otherFile_spec {file : TrackFile} (hat : PlacedAt p before prev t base lost)
    (hplain : PlainFrom (t :: u :: us)) (hfile : t.file = some file) (hother : t.file ≠ u.file)
    (hbefore : u.prestart ≤ u.start)
    (hinside : t.start * t.type.sector_size ≤ t.fileLength) :
    let r := otherFile file prev u.track (framesSkipped u.track u.prestart) u.pregap
    r.1.start + r.1.length = base + t.fileSectors ∧
      r.2 = { u.track with
        start := base + t.fileSectors + u.start, skip := u.start * u.type.sector_size } := by
  have ht : t ∈ t :: u :: us := List.mem_cons_self
  have hu : u ∈ t :: u :: us := List.mem_cons_of_mem _ List.mem_cons_self
  have hstart := (hplain.bounded u hu).start
  have hnumber := (hplain.bounded t ht).number
  have hbegin : u.begins = 0 := hplain.firsts [] t u us rfl hother
  have hskipped := framesSkipped_eq (hplain.bounded u hu) hbefore
  have hbase := hat.base_le
  have hsectors := fileSectors_le t
  have hend := (hat.end_eq (hplain.bounded t ht) hfile hinside).1
  have hall : framesSkipped u.track u.prestart = u.start := by omega
  intro r
  have hr₁ : r.1.start + r.1.length = base + t.fileSectors := hend
  have hr₂ : r.2.start = base + t.fileSectors + u.start := by
    have hdef : r.2.start = u32 (u.start + (r.1.start + r.1.length + u.pregap)) := rfl
    rw [hdef, hplain.pregaps u hu, u32]
    omega
  have hr₃ : r.2.skip = u.start * u.type.sector_size := by
    have hdef : r.2.skip = u32 (framesSkipped u.track u.prestart * u.type.sector_size) := rfl
    rw [hdef, hall]
    exact u32_bytes hstart
  have hfields : r.2 = { u.track with start := r.2.start, skip := r.2.skip } := rfl
  refine ⟨hr₁, ?_⟩
  rw [hfields, hr₂, hr₃]

end

theorem loadRest_nil_iff {t : CueTrack} {p : Placed} {before : List Track} {prev : Track}
    {base lost : ℕ} (hplain : PlainFrom [t]) (hat : PlacedAt p before prev t base lost)
    (h : loadRest [] p = some table) :
    ∃ tail, table = before ++ tail ∧
      (tail.map Track.entry = layout base [t] ↔ Laid base lost [t]) := by
  obtain ⟨last, ⟨q, track⟩, hlast, hadd, rfl⟩ := loadRest_nil h
  have hprev : last = prev := by
    rw [hat.tracks, List.getLast?_concat] at hlast
    exact (Option.some.inj hlast).symm
  obtain ⟨-, r, -, hq, -, hcases⟩ := AddTrack_snoc hat.tracks hadd
  have hfile : prev.file = t.file := by rw [hat.track]; rfl
  have hhas := hplain.files t List.mem_cons_self
  have hbounded := hplain.bounded t List.mem_cons_self
  -- the lead-out has no file
  obtain ⟨-, file, hsome, -, -, hr⟩ := hcases.resolve_left fun hsame =>
    hhas (hfile.symm.trans hsame.1)
  refine ⟨[r.1] ++ [r.2], by rw [hq, List.append_assoc], ?_⟩
  have hsize : prev.sector_size = t.type.sector_size := by rw [hat.track]; rfl
  have hskip : prev.skip = t.start * t.type.sector_size := by rw [hat.track]
  have hstart : prev.start = base + t.start := by rw [hat.track]
  have hleft := sectorsLeft_eq_iff hbounded (hfile.symm.trans hsome) hsize hskip
  have hentry : r.1.entry = ⟨base + t.start, t.start * t.type.sector_size, sectorsLeft file prev⟩ := by
    rw [hr, Track.entry, otherFile, hstart, hskip]
    push_cast
    rfl
  have hlead : r.2.entry = ⟨u32 (prev.start + sectorsLeft file prev), 0, 0⟩ := by
    rw [hr, Track.entry, otherFile, Track.leadOut, hprev]
    simp [u32, framesSkipped]
  have hlayout : layout base [t] = [⟨base + t.start, t.start * t.type.sector_size,
      t.fileSectors - t.start⟩, ⟨base + t.fileSectors, 0, 0⟩] := by
    simp [layout, CueTrack.ends, CueTrack.closes, CueTrack.next]
  have hlaid : Laid base lost [t] ↔ t.start * t.type.sector_size ≤ t.fileLength := by
    simp [Laid, CueTrack.next]
  rw [hlayout, hlaid, List.map_append, List.map_singleton, List.map_singleton, hentry, hlead]
  constructor
  · intro heq
    exact hleft.1 (congrArg Entry.length (List.cons.inj heq).1)
  · intro hinside
    obtain ⟨hend, hexact⟩ := hat.end_eq hbounded (hfile.symm.trans hsome) hinside
    have hsectors := fileSectors_le t
    have hbase := hat.base_le
    have hnumber := hbounded.number
    have htotal : (u32 (prev.start + sectorsLeft file prev) : ℤ) = base + t.fileSectors := by
      rw [u32]
      omega
    rw [htotal, hexact]
    rfl

/-- **One step of the layout.** -/
theorem loadRest_iff {us : List CueTrack} {t : CueTrack} {p : Placed} {before : List Track}
    {prev : Track} {base lost : ℕ} (hplain : PlainFrom (t :: us))
    (hat : PlacedAt p before prev t base lost) (h : loadRest us p = some table) :
    ∃ tail, table = before ++ tail ∧
      (tail.map Track.entry = layout base (t :: us) ↔ Laid base lost (t :: us)) := by
  induction us generalizing t p before prev base lost with
  | nil => exact loadRest_nil_iff hplain hat h
  | cons u us ih =>
    obtain ⟨q, track, hadd, hrest⟩ := loadRest_cons h
    obtain ⟨hbefore, r, hconsistent, hq, ⟨length, hprev⟩, hcases⟩ := AddTrack_snoc hat.tracks hadd
    obtain ⟨count, rest, hkeeps⟩ := loadRest_keeps hq hrest
    have hfile : prev.file = t.file := by rw [hat.track]; rfl
    have hbounded := hplain.bounded u (List.mem_cons_of_mem _ List.mem_cons_self)
    have hstart := hbounded.start
    have hle : u.prestart ≤ u.start := by
      have hconvert : i32 u.track.start = u.start :=
        i32_of_lt (show u.start < 2147483648 by omega)
      rw [hconvert] at hbefore
      omega
    -- the entry of `t` is final, and that of `u` but for its length
    have htable : table = before ++ (r.1 :: { r.2 with length := count } :: rest) := by
      rw [hkeeps, List.append_assoc]
      rfl
    have hbase := hat.base_le
    have hnumber := (hplain.bounded t List.mem_cons_self).number
    have hnumbers : u.number = t.number + 1 := by
      have hlast : p.tracks.getLast? = some prev := by rw [hat.tracks, List.getLast?_concat]
      have hnext := (AddTrack_number hadd hlast).2
      rw [hat.track] at hnext
      exact hnext.symm
    have hbaseNext : base ≤ u.number * 1048576 := by
      rw [hnumbers]
      exact hbase.trans (Nat.mul_le_mul_right _ (Nat.le_succ _))
    have hprevStart : prev.start = base + t.start := by rw [hat.track]
    have hprevSkip : prev.skip = t.start * t.type.sector_size := by rw [hat.track]
    have hentry : r.1.entry = ⟨base + t.start, t.start * t.type.sector_size, r.1.length⟩ := by
      have hfrom : r.1.start = prev.start ∧ r.1.skip = prev.skip := by
        rw [hprev]
        exact ⟨rfl, rfl⟩
      rw [Track.entry, hfrom.1, hfrom.2, hprevStart, hprevSkip]
      push_cast
      rfl
    rcases hcases with ⟨hsame, hshift, htotal, hr⟩ | ⟨hother, file, hsome, htotal, hshift, hr⟩
    · have hsame : t.file = u.file := hfile.symm.trans hsame
      obtain ⟨hlength, hfrom, hplace⟩ := sameFile_spec hat hplain hsame hle
      rw [← hr] at hlength hfrom hplace
      have hlayout : layout base (t :: u :: us) = ⟨base + t.start, t.start * t.type.sector_size,
          u.begins - t.start⟩ :: layout base (u :: us) := by
        rw [layout, CueTrack.ends, CueTrack.closes, CueTrack.next, if_pos hsame]
        rfl
      have hlaid : Laid base lost (t :: u :: us) ↔
          (t.start : ℤ) ≤ u.begins ∧ lost % 2 ^ 32 = 0 ∧ Laid base lost (u :: us) := by
        rw [Laid, CueTrack.next, if_pos hsame]
      have hbegins := hbounded.begins_le
      by_cases hgood : (t.start : ℤ) ≤ u.begins ∧ lost % 2 ^ 32 = 0
      · have hat' : PlacedAt q (before ++ [r.1]) r.2 u base lost :=
          { tracks := hq
            track := hplace hgood.1 hgood.2
            shift := hshift.trans hat.shift
            totalPregap := by
              rw [htotal, hat.totalPregap, hplain.pregaps u (List.mem_cons_of_mem _ List.mem_cons_self),
                u32]
              omega
            base_le := hbaseNext }
        obtain ⟨tail, htail, hiff⟩ := ih hplain.tail hat' hrest
        have hexact : (r.1.length : ℤ) = u.begins - t.start := by
          rw [hlength, u32]
          omega
        refine ⟨r.1 :: tail, by rw [htail, List.append_assoc]; rfl, ?_⟩
        rw [List.map_cons, hlayout, hlaid, hentry, hexact]
        constructor
        · intro heq
          exact ⟨hgood.1, hgood.2, hiff.1 (List.cons.inj heq).2⟩
        · rintro ⟨-, -, hlaidRest⟩
          rw [hiff.2 hlaidRest]
      · refine ⟨_, htable, iff_of_false ?_ fun h => hgood ⟨(hlaid.1 h).1, (hlaid.1 h).2.1⟩⟩
        intro heq
        rw [hlayout, layout, List.map_cons, List.map_cons, hentry] at heq
        have hfirst : (r.1.length : ℤ) = u.begins - t.start :=
          congrArg Entry.length (List.cons.inj heq).1
        have hsecond : (r.2.start : ℤ) = base + u.start :=
          congrArg Entry.start (List.cons.inj (List.cons.inj heq).2).1
        rw [hlength, u32] at hfirst
        rw [hfrom, u32] at hsecond
        exact hgood ⟨by omega, by omega⟩
    · have hother : t.file ≠ u.file := fun hsame => hother (hfile.trans hsame)
      have hsome : t.file = some file := hfile.symm.trans hsome
      have hlayout : layout base (t :: u :: us) = ⟨base + t.start, t.start * t.type.sector_size,
          t.fileSectors - t.start⟩ :: layout (base + t.fileSectors) (u :: us) := by
        rw [layout, CueTrack.ends, CueTrack.closes, CueTrack.next, if_neg hother]
        rfl
      have hlaid : Laid base lost (t :: u :: us) ↔ t.start * t.type.sector_size ≤ t.fileLength ∧
          Laid (base + t.fileSectors) (lost + base) (u :: us) := by
        rw [Laid, CueTrack.next, if_neg hother]
      have hlength : r.1.length = sectorsLeft file prev := by rw [hr]; rfl
      have hsectors := fileSectors_le t
      by_cases hgood : t.start * t.type.sector_size ≤ t.fileLength
      · obtain ⟨hend, hplace⟩ := otherFile_spec hat hplain hsome hother hle hgood
        rw [← hr] at hend hplace
        have hat' : PlacedAt q (before ++ [r.1]) r.2 u (base + t.fileSectors) (lost + base) :=
          { tracks := hq
            track := hplace
            shift := by
              rw [hshift, hat.shift, u32]
              omega
            totalPregap := by
              rw [htotal, hplain.pregaps u (List.mem_cons_of_mem _ List.mem_cons_self)]
            base_le := by omega }
        obtain ⟨tail, htail, hiff⟩ := ih hplain.tail hat' hrest
        have hexact := (hat.end_eq (hplain.bounded t List.mem_cons_self) hsome hgood).2
        refine ⟨r.1 :: tail, by rw [htail, List.append_assoc]; rfl, ?_⟩
        rw [List.map_cons, hlayout, hlaid, hentry, hlength, hexact]
        constructor
        · intro heq
          exact ⟨hgood, hiff.1 (List.cons.inj heq).2⟩
        · rintro ⟨-, hlaidRest⟩
          rw [hiff.2 hlaidRest]
      · refine ⟨_, htable, iff_of_false ?_ fun h => hgood (hlaid.1 h).1⟩
        intro heq
        rw [hlayout, List.map_cons, hentry] at heq
        have hfirst : (r.1.length : ℤ) = t.fileSectors - t.start :=
          congrArg Entry.length (List.cons.inj heq).1
        have hsize : prev.sector_size = t.type.sector_size := by rw [hat.track]; rfl
        rw [hlength] at hfirst
        exact hgood ((sectorsLeft_eq_iff (hplain.bounded t List.mem_cons_self) hsome hsize
          hprevSkip).1 hfirst)

theorem placedAt_first {t : CueTrack} {us : List CueTrack} {q : Placed} {track : Track}
    (hplain : PlainFrom (t :: us)) (hbegins : t.begins = 0)
    (h : AddTrack ⟨[], 0, 0⟩ t.track t.prestart t.pregap = some (q, track)) :
    PlacedAt q [] track t 0 0 := by
  have hbounded := hplain.bounded t List.mem_cons_self
  have hstart := hbounded.start
  have hpregap := hplain.pregaps t List.mem_cons_self
  rw [AddTrack] at h
  split at h
  · cases h
  rename_i hbefore
  have hle : t.prestart ≤ t.start := by
    have hconvert : i32 t.track.start = t.start :=
      i32_of_lt (show t.start < 2147483648 by omega)
    rw [hconvert] at hbefore
    omega
  have hskipped := framesSkipped_eq hbounded hle
  have hall : framesSkipped t.track t.prestart = t.start := by omega
  obtain ⟨rfl, rfl⟩ := Prod.ext_iff.1 (Option.some.inj h)
  have hfrom : u32 (t.track.start + t.pregap) = 0 + t.start := by
    have hdef : t.track.start = t.start := rfl
    rw [hpregap, hdef, u32]
    omega
  have hskip : u32 (framesSkipped t.track t.prestart * t.track.sector_size) =
      t.start * t.type.sector_size := by
    rw [hall]
    exact u32_bytes hstart
  refine ⟨rfl, ?_, rfl, hpregap, Nat.zero_le _⟩
  dsimp only
  rw [hfrom, hskip]

/-- **The table is the layout** exactly when the tracks follow each other inside their files and
`shift` is right wherever it is used. -/
theorem LoadCueSheet_layout_iff {lines : List CueLine} {table : List Track}
    (h : LoadCueSheet lines = some table) (hplain : Plain (sheetTracks lines)) :
    table.map Track.entry = layout 0 (sheetTracks lines) ↔ Laid 0 0 (sheetTracks lines) := by
  obtain ⟨p, hfold, hlead⟩ := LoadCueSheet_spec h
  have hrest : loadRest (sheetTracks lines) ⟨[], 0, 0⟩ = some table := by
    rw [loadRest, hfold]
    exact hlead
  have hfrom := hplain.from bounded_sheetTracks
  have hbegins := hplain.firsts
  generalize sheetTracks lines = tracks at hrest hfrom hbegins ⊢
  cases tracks with
  | nil =>
    obtain ⟨last, r, hlast, -⟩ := loadRest_nil hrest
    cases hlast
  | cons t us =>
    obtain ⟨q, track, hadd, hrest⟩ := loadRest_cons hrest
    obtain ⟨tail, rfl, hiff⟩ := loadRest_iff hfrom (placedAt_first hfrom
      (hbegins [] t us rfl fun u hu => by cases hu) hadd) hrest
    exact hiff

/-! ## Two sheets -/

theorem mem_zip_tail {t u : CueTrack} {before after : List CueTrack} :
    (t, u) ∈ (before ++ t :: u :: after).zip (before ++ t :: u :: after).tail := by
  induction before with
  | nil => exact List.mem_cons_self
  | cons first before ih =>
    cases before with
    | nil => exact List.mem_cons_of_mem _ List.mem_cons_self
    | cons second before => exact List.mem_cons_of_mem _ ih

/-- The first tracks of the files, by looking at neighbours. -/
theorem begins_of_neighbours {tracks : List CueTrack} (hhead : ∀ t ∈ tracks.head?, t.begins = 0)
    (hnext : ∀ pair ∈ tracks.zip tracks.tail, pair.1.file = pair.2.file ∨ pair.2.begins = 0) :
    ∀ before t after, tracks = before ++ t :: after →
      (∀ u ∈ before.getLast?, u.file ≠ t.file) → t.begins = 0 := by
  intro before t after heq hother
  rcases List.eq_nil_or_concat before with rfl | ⟨before, u, rfl⟩
  · exact hhead t (by rw [heq]; rfl)
  · rw [List.concat_eq_append] at hother
    rw [List.concat_append] at heq
    have hpair := hnext (u, t) (by rw [heq]; exact mem_zip_tail)
    rw [List.getLast?_concat] at hother
    exact hpair.resolve_left (hother u rfl)

/-- Two tracks in one file. -/
def twoTracks : List CueLine :=
  [.FILE (some 23520),
    .TRACK 1 (some TrackType.AUDIO), .INDEX 1 (some ⟨0, 0, 0⟩),
    .TRACK 2 (some TrackType.AUDIO), .INDEX 0 (some ⟨0, 0, 3⟩), .INDEX 1 (some ⟨0, 0, 5⟩)]

theorem layout_twoTracks : ∃ table, LoadCueSheet twoTracks = some table ∧
    table.map Track.entry = layout 0 (sheetTracks twoTracks) := by
  have hplain : Plain (sheetTracks twoTracks) :=
    { files := by decide
      sizes := by decide
      pregaps := by decide
      firsts := begins_of_neighbours (by decide) (by decide) }
  have hload : (LoadCueSheet twoTracks).isSome = true := by decide +kernel
  obtain ⟨table, htable⟩ := Option.isSome_iff_exists.1 hload
  have hlaid : Laid 0 0 (sheetTracks twoTracks) := by
    refine ⟨?_, ?_, ?_, trivial⟩ <;> decide
  exact ⟨table, htable, (LoadCueSheet_layout_iff htable hplain).2 hlaid⟩

/-- The second track of a third file. -/
def threeFiles : List CueLine :=
  [.FILE (some 2352), .TRACK 1 (some TrackType.AUDIO), .INDEX 1 (some ⟨0, 0, 0⟩),
    .FILE (some 2352), .TRACK 2 (some TrackType.AUDIO), .INDEX 1 (some ⟨0, 0, 0⟩),
    .FILE (some 4704), .TRACK 3 (some TrackType.AUDIO), .INDEX 1 (some ⟨0, 0, 0⟩),
    .TRACK 4 (some TrackType.AUDIO), .INDEX 1 (some ⟨0, 0, 1⟩)]

/-- It is at sector 4 of the disc and at the end of the file, and not at sector 3. -/
theorem threeFiles_not_layout : Plain (sheetTracks threeFiles) ∧
    ∃ table, LoadCueSheet threeFiles = some table ∧
      table.map Track.entry ≠ layout 0 (sheetTracks threeFiles) := by
  have hload : (LoadCueSheet threeFiles).isSome = true := by decide +kernel
  have hstarts : (LoadCueSheet threeFiles).map (·.map Track.start) = some [0, 1, 2, 4, 4] := by
    decide +kernel
  have hlayout : (layout 0 (sheetTracks threeFiles)).map Entry.start = [0, 1, 2, 3, 4] := by
    decide +kernel
  obtain ⟨table, htable⟩ := Option.isSome_iff_exists.1 hload
  refine ⟨?_, table, htable, fun heq => ?_⟩
  · exact
      { files := by decide
        sizes := by decide
        pregaps := by decide
        firsts := begins_of_neighbours (by decide) (by decide) }
  · rw [htable] at hstarts
    have hmap : table.map Track.start = [0, 1, 2, 4, 4] := Option.some.inj hstarts
    have hcast : (table.map Track.entry).map Entry.start = (table.map Track.start).map Nat.cast := by
      rw [List.map_map, List.map_map]
      rfl
    rw [heq, hlayout, hmap] at hcast
    exact absurd hcast (by decide)

end AugraDosbox.Cdrom
