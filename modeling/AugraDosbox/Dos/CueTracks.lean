import AugraDosbox.Dos.CueSheet

/-!
# The tracks of a cue sheet

What a cue sheet says of its tracks, and that `LoadCueSheet` puts these one behind the other.

* `CueTrack` — a track as it is written in the sheet;
* `cueTracks`, `sheetTracks` — the tracks that the lines make up;
* **`LoadCueSheet_spec`** — an accepted sheet has been made of its tracks by `AddTrack` alone.
-/

namespace AugraDosbox.Cdrom

/-- A track of a cue sheet. -/
structure CueTrack where
  file : Option TrackFile
  number : ℕ
  type : TrackType
  /-- INDEX 00, or -1. -/
  prestart : ℤ
  /-- INDEX 01. -/
  start : ℕ
  pregap : ℕ
deriving DecidableEq

namespace CueTrack

/-- The track of a TRACK line. -/
def new (file : Option TrackFile) (track_number : ℤ) (type : TrackType) : CueTrack where
  file := file
  number := (track_number % 256).toNat
  type := type
  prestart := -1
  start := 0
  pregap := 0

variable (t : CueTrack)

/-- A line of the track. -/
def withLine : CueLine → CueTrack
  | .INDEX index (some frame) =>
    if index = 1 then { t with start := msf_to_frames frame }
    else if index = 0 then { t with prestart := msf_to_frames frame }
    else t
  | .PREGAP (some frame) => { t with pregap := msf_to_frames frame }
  | _ => t

/-- What is handed to `AddTrack`. -/
def track : Track where
  file := t.file
  start := t.start
  sector_size := t.type.sector_size
  number := t.number
  attr := t.type.attr
  mode2 := t.type.mode2

/-- The track is put behind the others. -/
def add (p : Placed) (t : CueTrack) : Option Placed :=
  (AddTrack p t.track t.prestart t.pregap).map Prod.fst

end CueTrack

/-- The tracks of the lines, behind the one that is being read. -/
def cueTracks (opened : ℕ) (file : Option TrackFile) (pending : Option CueTrack) :
    List CueLine → List CueTrack
  | [] => pending.toList
  | .TRACK track_number (some type) :: lines =>
    pending.toList ++ cueTracks opened file (some (.new file track_number type)) lines
  | .FILE (some length) :: lines =>
    pending.toList ++ cueTracks (opened + 1) (some (.ofLength opened length)) none lines
  | line :: lines => cueTracks opened file (pending.map (·.withLine line)) lines

/-- The tracks of a sheet. -/
def sheetTracks (lines : List CueLine) : List CueTrack := cueTracks 0 none none lines

/-- The lead-out behind the last track. -/
def addLeadOut (p : Placed) : Option (List Track) := do
  let last ← p.tracks.getLast?
  let r ← AddTrack p last.leadOut (-1) 0
  some r.1.tracks

/-! ## One track -/

section

variable {p q : Placed} {curr curr' prev : Track} {prestart : ℤ} {currPregap : ℕ}

/-- The track is the last one then, and only its place has changed. -/
theorem AddTrack_last (h : AddTrack p curr prestart currPregap = some (q, curr')) :
    q.tracks.getLast? = some curr' ∧
      curr' = { curr with start := curr'.start, skip := curr'.skip } := by
  rw [AddTrack] at h
  split at h
  · cases h
  dsimp only at h
  split at h
  · obtain ⟨rfl, rfl⟩ := Prod.ext_iff.1 (Option.some.inj h)
    exact ⟨rfl, rfl⟩
  split at h
  · split at h
    · obtain ⟨rfl, rfl⟩ := Prod.ext_iff.1 (Option.some.inj h)
      exact ⟨by simp, rfl⟩
    · cases h
  split at h
  · cases h
  split at h
  · cases h
  split at h
  · obtain ⟨rfl, rfl⟩ := Prod.ext_iff.1 (Option.some.inj h)
    exact ⟨by simp, rfl⟩
  · cases h

theorem AddTrack_number (h : AddTrack p curr prestart currPregap = some (q, curr'))
    (hlast : p.tracks.getLast? = some prev) : 1 < curr.number ∧ prev.number + 1 = curr.number := by
  rw [AddTrack] at h
  split at h
  · cases h
  rw [hlast] at h
  dsimp only at h
  have hnumber : ∀ r : Track × Track, consistent r.1 r.2 = true → r.1.number = prev.number →
      r.2.number = curr.number → 1 < curr.number ∧ prev.number + 1 = curr.number := by
    intro r hr hprev hcurr
    rw [consistent, decide_eq_true_eq, hprev, hcurr] at hr
    exact ⟨not_le.1 hr.1, hr.2.1⟩
  split at h
  · split at h
    · rename_i hsame
      refine hnumber _ hsame ?_ rfl
      rw [sameFile]
      dsimp only
      split <;> rfl
    · cases h
  split at h
  · cases h
  split at h
  · cases h
  split at h
  · rename_i hother
    exact hnumber _ hother rfl rfl
  · cases h

end

/-! ## The loop -/

namespace LoadState

variable {s s' : LoadState} {pending : Option CueTrack} {table : List Track}

/-- What is left of a track that has been added is not accepted once more. -/
structure Stale (s : LoadState) : Prop where
  last : ∀ prev, s.placed.tracks.getLast? = some prev → prev.number = s.track.number
  empty : s.placed.tracks = [] → s.track.number = 0

/-- The variables of the loop hold the track that is being read. -/
structure Reads (s : LoadState) (pending : Option CueTrack) : Prop where
  canAddTrack : s.canAddTrack = pending.isSome
  current : ∀ t, pending = some t → s.track = t.track ∧ s.prestart = t.prestart ∧
    s.currPregap = t.pregap
  stale : pending = none → s.Stale
  plain : s.track.length = 0 ∧ s.track.subchannel_size = 0

theorem Stale.finish_eq_none (h : s.Stale) : s.finish = none := by
  rw [finish]
  cases hadd : AddTrack s.placed s.track s.prestart s.currPregap with
  | none => rw [addTrack, hadd]; rfl
  | some r =>
    obtain ⟨placed, track⟩ := r
    cases hlast : s.placed.tracks.getLast? with
    | some prev =>
      have hnumber := (AddTrack_number hadd hlast).2
      rw [h.last prev hlast] at hnumber
      omega
    | none =>
      -- the track has number 0, and the lead-out would have number 1
      have hzero := h.empty (List.getLast?_eq_none_iff.1 hlast)
      obtain ⟨hlast', htrack⟩ := AddTrack_last hadd
      have hnumber : track.number = 0 := by
        rw [htrack]
        exact hzero
      rw [addTrack, hadd]
      cases hlead : AddTrack placed track.leadOut (-1) 0 with
      | none => simp [hlead]
      | some r' =>
        have hone := (AddTrack_number hlead hlast').1
        rw [Track.leadOut, hnumber] at hone
        exact absurd hone (lt_irrefl 1)

/-- The pending track is put behind the others. -/
theorem Reads.addPending (h : s.Reads pending) (hs : s.addPending = some s') :
    pending.toList.foldlM CueTrack.add s.placed = some s'.placed ∧ s'.Stale ∧
      s'.track.file = s.track.file ∧ s'.opened = s.opened ∧ s'.track.length = 0 ∧
      s'.track.subchannel_size = 0 := by
  rw [LoadState.addPending, h.canAddTrack] at hs
  cases pending with
  | none =>
    obtain rfl := Option.some.inj hs
    exact ⟨rfl, h.stale rfl, rfl, rfl, h.plain⟩
  | some t =>
    obtain ⟨htrack, hprestart, hpregap⟩ := h.current t rfl
    obtain ⟨⟨placed, track⟩, hadd, rfl⟩ := Option.map_eq_some_iff.1 hs
    obtain ⟨hlast, hkeeps⟩ := AddTrack_last hadd
    have hplaced : t.add s.placed = some placed := by
      rw [CueTrack.add, ← htrack, ← hprestart, ← hpregap, hadd]
      rfl
    refine ⟨?_, ⟨?_, ?_⟩, ?_, rfl, ?_⟩
    · rw [Option.toList_some, List.foldlM_cons, hplaced]
      rfl
    · intro prev hprev
      rw [hlast] at hprev
      rw [Option.some.inj hprev]
    · intro hempty
      rw [hempty] at hlast
      cases hlast
    · rw [hkeeps]
    · rw [hkeeps]
      exact h.plain

theorem Reads.index {index : ℤ} {frame : Option TMSF} (h : s.Reads pending)
    (hs : s.line (.INDEX index frame) = some s') :
    s'.Reads (pending.map (·.withLine (.INDEX index frame))) ∧
      s' = { s with track := { s.track with start := s'.track.start }, prestart := s'.prestart } := by
  cases frame with
  | none => cases hs
  | some frame =>
    obtain rfl := Option.some.inj hs
    refine ⟨⟨?_, ?_, ?_, ?_⟩, ?_⟩
    case refine_1 =>
      rw [Option.isSome_map, ← h.canAddTrack]
      split
      · rfl
      split <;> rfl
    case refine_2 =>
      intro t ht
      obtain ⟨t, rfl, rfl⟩ := Option.map_eq_some_iff.1 ht
      obtain ⟨htrack, hprestart, hpregap⟩ := h.current t rfl
      rw [CueTrack.withLine]
      split
      · exact ⟨by rw [htrack]; rfl, hprestart, hpregap⟩
      split
      · exact ⟨htrack, rfl, hpregap⟩
      · exact ⟨htrack, hprestart, hpregap⟩
    case refine_3 =>
      intro hnone
      have hstale := h.stale (Option.map_eq_none_iff.1 hnone)
      split
      · exact ⟨hstale.last, hstale.empty⟩
      split
      · exact ⟨hstale.last, hstale.empty⟩
      · exact hstale
    case refine_4 =>
      split
      · exact h.plain
      split
      · exact h.plain
      · exact h.plain
    case refine_5 =>
      split
      · rfl
      split <;> rfl

theorem Reads.pregap {frame : Option TMSF} (h : s.Reads pending)
    (hs : s.line (.PREGAP frame) = some s') :
    s'.Reads (pending.map (·.withLine (.PREGAP frame))) ∧
      s' = { s with currPregap := s'.currPregap } := by
  cases frame with
  | none => cases hs
  | some frame =>
    obtain rfl := Option.some.inj hs
    refine ⟨⟨?_, ?_, ?_, h.plain⟩, rfl⟩
    · rw [Option.isSome_map, ← h.canAddTrack]
    · intro t ht
      obtain ⟨t, rfl, rfl⟩ := Option.map_eq_some_iff.1 ht
      obtain ⟨htrack, hprestart, -⟩ := h.current t rfl
      exact ⟨htrack, hprestart, rfl⟩
    · intro hnone
      have hstale := h.stale (Option.map_eq_none_iff.1 hnone)
      exact ⟨hstale.last, hstale.empty⟩

theorem Reads.new {track_number : ℤ} {type : TrackType}
    (hplain : s.track.length = 0 ∧ s.track.subchannel_size = 0)
    (hs : s' = { s with
      track := { s.track with
        start := 0, skip := 0, number := (track_number % 256).toNat
        sector_size := type.sector_size, attr := type.attr, mode2 := type.mode2 }
      currPregap := 0
      prestart := -1
      canAddTrack := true }) :
    s'.Reads (some (.new s.track.file track_number type)) := by
  obtain ⟨hlength, hsubchannel⟩ := hplain
  subst hs
  refine ⟨rfl, ?_, fun hnone => absurd hnone (Option.some_ne_none _), hlength, hsubchannel⟩
  intro t ht
  obtain rfl := Option.some.inj ht
  refine ⟨?_, rfl, rfl⟩
  dsimp only
  rw [hlength, hsubchannel]
  rfl

theorem Stale.file {length : Fin (2 ^ 31)} (hstale : s.Stale)
    (hplain : s.track.length = 0 ∧ s.track.subchannel_size = 0)
    (hs : s' = { s with
      track := { s.track with file := some (.ofLength s.opened length) }
      canAddTrack := false
      opened := s.opened + 1 }) : s'.Reads none := by
  subst hs
  exact ⟨rfl, fun t ht => absurd ht.symm (Option.some_ne_none _),
    fun _ => ⟨hstale.last, hstale.empty⟩, hplain⟩

/-- **The loop over the lines.** -/
theorem Reads.run {lines : List CueLine} (h : s.Reads pending)
    (hrun : (lines.foldlM line s).bind finish = some table) :
    ∃ p, (cueTracks s.opened s.track.file pending lines).foldlM CueTrack.add s.placed = some p ∧
      addLeadOut p = some table := by
  induction lines generalizing s pending with
  | nil =>
    have hfinish : s.finish = some table := hrun
    cases pending with
    | none =>
      rw [(h.stale rfl).finish_eq_none] at hfinish
      cases hfinish
    | some t =>
      obtain ⟨htrack, hprestart, hpregap⟩ := h.current t rfl
      rw [finish, addTrack] at hfinish
      cases hadd : AddTrack s.placed s.track s.prestart s.currPregap with
      | none =>
        rw [hadd] at hfinish
        cases hfinish
      | some r =>
        obtain ⟨placed, track⟩ := r
        rw [hadd] at hfinish
        have hplaced : t.add s.placed = some placed := by
          rw [CueTrack.add, ← htrack, ← hprestart, ← hpregap, hadd]
          rfl
        refine ⟨placed, ?_, ?_⟩
        · rw [cueTracks, Option.toList_some, List.foldlM_cons, hplaced]
          rfl
        · rw [addLeadOut, (AddTrack_last hadd).1]
          exact hfinish
  | cons first lines ih =>
    rw [List.foldlM_cons] at hrun
    cases hline : s.line first with
    | none =>
      rw [hline] at hrun
      cases hrun
    | some s' =>
      rw [hline] at hrun
      cases first with
      | TRACK track_number type =>
        cases hpending : s.addPending with
        | none =>
          rw [line, hpending] at hline
          cases hline
        | some s₁ =>
          obtain ⟨hadd, -, hfile, hopened, hplain⟩ := h.addPending hpending
          rw [line, hpending] at hline
          cases type with
          | none => cases hline
          | some type =>
            obtain rfl := Option.some.inj hline
            obtain ⟨p, hrest, hlead⟩ := ih (.new hplain rfl) hrun
            refine ⟨p, ?_, hlead⟩
            rw [cueTracks, List.foldlM_append, hadd, ← hfile, ← hopened]
            exact hrest
      | INDEX index frame =>
        obtain ⟨hreads, hkeeps⟩ := h.index hline
        have hrest := ih hreads hrun
        rwa [hkeeps] at hrest
      | FILE length =>
        cases hpending : s.addPending with
        | none =>
          rw [line, hpending] at hline
          cases hline
        | some s₁ =>
          obtain ⟨hadd, hstale, -, hopened, hplain⟩ := h.addPending hpending
          rw [line, hpending] at hline
          cases length with
          | none => cases hline
          | some length =>
            obtain rfl := Option.some.inj hline
            obtain ⟨p, hrest, hlead⟩ := ih (hstale.file hplain rfl) hrun
            refine ⟨p, ?_, hlead⟩
            rw [cueTracks, List.foldlM_append, hadd, ← hopened]
            exact hrest
      | PREGAP frame =>
        obtain ⟨hreads, hkeeps⟩ := h.pregap hline
        have hrest := ih hreads hrun
        rwa [hkeeps] at hrest
      | ignored =>
        obtain rfl := Option.some.inj hline
        have hsame : pending.map (·.withLine .ignored) = pending := by cases pending <;> rfl
        rw [cueTracks, hsame]
        · exact ih h hrun
        all_goals simp
      | failure => cases hline

end LoadState

/-- **An accepted sheet** has been made of its tracks by `AddTrack` alone. -/
theorem LoadCueSheet_spec {lines : List CueLine} {table : List Track}
    (h : LoadCueSheet lines = some table) :
    ∃ p, (sheetTracks lines).foldlM CueTrack.add ⟨[], 0, 0⟩ = some p ∧ addLeadOut p = some table := by
  have hstale : LoadState.start.Stale :=
    { last := fun prev hprev => by cases hprev
      empty := fun _ => rfl }
  have hreads : LoadState.start.Reads none :=
    { canAddTrack := rfl
      current := fun t ht => by cases ht
      stale := fun _ => hstale
      plain := ⟨rfl, rfl⟩ }
  exact hreads.run h

end AugraDosbox.Cdrom
