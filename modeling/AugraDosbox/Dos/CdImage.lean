import AugraDosbox.Dos.CueSheet

/-!
# Images of compact discs

The table of tracks of `src/dos/cdrom_image.cpp`, and the three loaders that fill it.

* `GetTrack`, `ReadSector`, `PlayNextAudioTrack` — what the table is used for;
* `LoadIsoFile`, `LoadMdsFile` — the loaders for one file of sectors, and for a table of blocks;
* `Image`, `Image.load` — any of the three, with `LoadCueSheet`.

Reading the records of an MDS file is left out; a record that cannot be read is `none`.
-/

namespace AugraDosbox.Cdrom

def MAX_REDBOOK_SECTOR : ℕ := 1826090
def MIN_REDBOOK_TRACKS : ℕ := 2

/-! ## The table -/

/-- The walk over the tracks. -/
def findTrack (sector lower_bound : ℕ) : List Track → Option ℕ
  | [] => none
  | track :: tracks =>
    let upper_bound := u32 (track.start + track.length)
    if lower_bound ≤ sector ∧ sector < upper_bound then some 0
    else (findTrack sector upper_bound tracks).map (· + 1)

/-- The place of a track in the table; `none` stands for `tracks.end()`. -/
def GetTrack (tracks : List Track) (sector : ℕ) : Option ℕ :=
  match tracks.head?, tracks.getLast? with
  | some first, some last =>
    if sector > MAX_REDBOOK_SECTOR ∨ tracks.length < MIN_REDBOOK_TRACKS ∨ last.start ≤ sector then none
    else findTrack sector first.start tracks
  | _, _ => none

/-- The bytes of a sector before its data, if these are to be read without them. -/
def Track.headerBytes (track : Track) (raw : Bool) : ℕ :=
  (if track.sector_size - track.subchannel_size = 2352 ∧ ¬ track.mode2 ∧ ¬ raw then 16 else 0) +
    if track.mode2 ∧ ¬ raw then 24 else 0

/-- The offset that `ReadSector` computes, in exact numbers. -/
def Track.sectorOffset (track : Track) (raw : Bool) (sector : ℕ) : ℤ :=
  track.skip + ((sector : ℤ) - track.start) * track.sector_size + track.headerBytes raw

/-- The file, the offset and the length that are read. -/
def ReadSector (tracks : List Track) (raw : Bool) (sector : ℕ) : Option (TrackFile × ℕ × ℕ) := do
  let index ← GetTrack tracks sector
  let track ← tracks[index]?
  let file ← track.file
  if track.sector_size - track.subchannel_size ≠ 2352 ∧ raw then none
  else some (file, u32 (track.sectorOffset raw sector), if raw then 2352 else 2048)

/-- The assertion of `PlayNextAudioTrack`. -/
def nextTrackNumbered (tracks : List Track) (currentTrackIndex : ℕ) : Prop :=
  ∀ next ∈ tracks[currentTrackIndex + 1]?, next.number = currentTrackIndex + 1 + 1

/-! ## ISO files -/

structure IsoFile where
  file : TrackFile
  byte : ℕ → BitVec 8

/-- What is in the buffer after a read; it is full of zeros before it. -/
def IsoFile.read (iso : IsoFile) (offset i : ℕ) : ℕ :=
  if offset + i < iso.file.length then (iso.byte (offset + i)).toNat else 0

def CanReadPVD (iso : IsoFile) (sector_size : ℕ) (mode2 : Bool) : Bool :=
  let seek := 16 * sector_size + (if sector_size = 2352 ∧ ¬ mode2 then 16 else 0) +
    if mode2 then 24 else 0
  let pvd := iso.read seek
  decide (pvd 0 = 1 ∧ (List.range 5).map (fun i => pvd (1 + i)) = [67, 68, 48, 48, 49] ∧ pvd 6 = 1) ||
    decide (pvd 8 = 1 ∧ (List.range 5).map (fun i => pvd (9 + i)) = [67, 68, 82, 79, 77] ∧ pvd 14 = 1)

/-- The sector sizes that are tried, and whether in mode 2. -/
def isoType (iso : IsoFile) : Option (ℕ × Bool) :=
  [(2048, false), (2352, false), (2336, true), (2352, true)].find? fun type =>
    CanReadPVD iso type.1 type.2

def LoadIsoFile (iso : Option IsoFile) : Option (List Track) := do
  let iso ← iso
  let type ← isoType iso
  let length := iso.file.length / type.1
  some [
    { file := some iso.file, number := 1, attr := 0x40, sector_size := type.1, mode2 := type.2,
      length := length },
    { number := 2, start := length }]

/-! ## MDS files -/

/-- `set_track_mode`; the modes that are not supported leave the track as it is. -/
def set_track_mode (track : Track) (mode : ℕ) : Track :=
  match mode % 16 % 8 with
  | 1 => { track with attr := 0, mode2 := false }
  | 2 => { track with attr := 0x40, mode2 := false }
  | 0 | 3 | 7 => { track with attr := 0x40, mode2 := true }
  | _ => track

/-- A track block with what it refers to. -/
structure MdsTrackBlock where
  mode : ℕ
  subchannel : ℕ
  point : ℕ
  sector_size : ℕ
  start_sector : ℕ
  start_offset : ℕ
  number_of_files : ℕ
  footer_offset : ℕ
  extra_offset : ℕ
  /-- The length in the extra block. -/
  extra : Option ℕ
  /-- The offset of the file name in the footer. -/
  footer : Option ℕ
  mdf_filename : String

/-- The files of the host: the lengths of those that can be opened. -/
def Host := String → Option (Fin (2 ^ 31))

/-- The file of a name, which is opened the first time. -/
def openMdf (host : Host) (track_map : List (String × TrackFile)) (name : String) :
    Option (TrackFile × List (String × TrackFile)) :=
  match track_map.lookup name with
  | some file => some (file, track_map)
  | none => (host name).map fun (length : Fin (2 ^ 31)) =>
    let file := TrackFile.ofLength track_map.length length
    (file, track_map ++ [(name, file)])

/-- The tracks so far, and the files that are open. -/
structure MdsState where
  tracks : List Track
  track_map : List (String × TrackFile)

/-- One track block. -/
def mdsBlock (host : Host) (s : MdsState) (block : Option MdsTrackBlock) : Option MdsState := do
  let block ← block
  if block.point < 1 ∨ 99 < block.point then some s
  else
    let subchannel_size := if block.subchannel = 8 then 96 else 0
    if block.sector_size ≤ subchannel_size then none
    else if block.number_of_files ≠ 1 then none
    else if block.footer_offset = 0 ∨ block.extra_offset = 0 then none
    else
      let length ← block.extra
      let filename_offset ← block.footer
      if filename_offset = 0 then none
      else
        let prev_track := (s.tracks.getLast?.map Track.number).getD 0
        let prev_sector := (s.tracks.getLast?.map fun prev => u32 (prev.start + prev.length)).getD 0
        if block.point ≠ prev_track + 1 ∨ block.start_sector < prev_sector then none
        else if block.mdf_filename = "" then none
        else
          let opened ← openMdf host s.track_map block.mdf_filename
          let track := set_track_mode { number := block.point } block.mode
          some {
            tracks := s.tracks ++ [{ track with
              file := some opened.1, subchannel_size := subchannel_size
              sector_size := block.sector_size, start := block.start_sector
              skip := u32 block.start_offset, length := length }]
            track_map := opened.2 }

/-- `LoadMdsFile`, with the tracks that are in the table before. -/
def LoadMdsFile (host : Host) (tracks : List Track) (blocks : List (Option MdsTrackBlock)) :
    Option (List Track) := do
  let s ← blocks.foldlM (mdsBlock host) ⟨tracks, []⟩
  let last ← s.tracks.getLast?
  some (s.tracks ++ [{ start := u32 (last.start + last.length) }])

/-! ## Any image -/

inductive Image where
  | iso (iso : Option IsoFile)
  | mds (host : Host) (tracks : List Track) (blocks : List (Option MdsTrackBlock))
  | cue (lines : List CueLine)

def Image.load : Image → Option (List Track)
  | .iso file => LoadIsoFile file
  | .mds host tracks blocks => LoadMdsFile host tracks blocks
  | .cue lines => LoadCueSheet lines

end AugraDosbox.Cdrom
