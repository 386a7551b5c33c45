import Mathlib.Algebra.GroupWithZero.Nat
import Mathlib.Data.BitVec
import Mathlib.Tactic.Common

/-!
# Cue sheets

`LoadCueSheet` and `AddTrack` of `src/dos/cdrom_image.cpp`: how the lines of a cue sheet become a
table of tracks.

* `TrackFile`, `Track` — a file of the image, and an entry of the table;
* `CueLine` — a line with its operands read; `none` where the reading has failed;
* `AddTrack` — a track is put behind the others; the sums that run along are `Placed`;
* `LoadState.line`, `LoadCueSheet` — the loop over the lines, the last track and the lead-out.

`none` stands for `false`, and for the null pointer and the division by zero of a track that has no
file or no type and that another one follows. The assertions of a debug build are left out.
-/

namespace AugraDosbox.Cdrom

/-- An object that has been made for a file. Two of them are the same when their `id` is. -/
structure TrackFile where
  id : ℕ
  /-- What `getLength` returns. -/
  length : ℕ
  length_lt : length < 2 ^ 31
deriving DecidableEq

/-- The object of a file of that length. -/
def TrackFile.ofLength (id : ℕ) (length : Fin (2 ^ 31)) : TrackFile := ⟨id, length, length.isLt⟩

structure Track where
  file : Option TrackFile := none
  start : ℕ := 0
  length : ℕ := 0
  skip : ℕ := 0
  sector_size : ℕ := 0
  subchannel_size : ℕ := 0
  number : ℕ := 0
  attr : ℕ := 0
  mode2 : Bool := false
deriving DecidableEq

/-- A conversion to `uint32_t`. -/
def u32 (x : ℤ) : ℕ := (x % 2 ^ 32).toNat

/-- A conversion to `int32_t`. -/
def i32 (x : ℕ) : ℤ := Int.bmod x (2 ^ 32)

/-! ## Tracks behind each other -/

/-- The table so far, with `shift` and `totalPregap`. -/
structure Placed where
  tracks : List Track
  shift : ℕ
  totalPregap : ℕ

/-- The frames between INDEX 00 and INDEX 01. -/
def framesSkipped (curr : Track) (prestart : ℤ) : ℕ :=
  if 0 ≤ prestart then u32 (i32 curr.start - prestart) else 0

/-- The track goes on in the file of the track before it. -/
def sameFile (prev curr : Track) (shift totalPregap skip currPregap : ℕ) : Track × Track :=
  let start := u32 (curr.start + shift)
  let prev :=
    if prev.length = 0 then { prev with length := u32 (start + totalPregap - prev.start - skip) }
    else prev
  (prev,
    { curr with
      skip := u32 (curr.skip + (prev.skip + prev.length * prev.sector_size +
        skip * curr.sector_size))
      start := u32 (start + u32 (totalPregap + currPregap)) })

/-- The sectors of a file from a track on, the last one being filled up. -/
def sectorsLeft (file : TrackFile) (prev : Track) : ℕ :=
  let tmp := u32 (file.length - prev.skip)
  if tmp % prev.sector_size = 0 then tmp / prev.sector_size else tmp / prev.sector_size + 1

/-- The track is the first one of its file. -/
def otherFile (file : TrackFile) (prev curr : Track) (skip currPregap : ℕ) : Track × Track :=
  let prev := { prev with length := sectorsLeft file prev }
  (prev,
    { curr with
      start := u32 (curr.start + (prev.start + prev.length + currPregap))
      skip := u32 (skip * curr.sector_size) })

/-- The checks that the numbers and the sectors go up. -/
def consistent (prev curr : Track) : Bool :=
  ¬ curr.number ≤ 1 ∧ prev.number + 1 = curr.number ∧ ¬ curr.start < u32 (prev.start + prev.length)

/-- `AddTrack`; the second result is what it leaves in `curr`. -/
def AddTrack (p : Placed) (curr : Track) (prestart : ℤ) (currPregap : ℕ) : Option (Placed × Track) :=
  if 0 ≤ prestart ∧ i32 curr.start < prestart then none
  else
    let skip := framesSkipped curr prestart
    match p.tracks.getLast? with
    | none =>
      let curr := { curr with
        skip := u32 (skip * curr.sector_size), start := u32 (curr.start + currPregap) }
      some ({ p with tracks := [curr], totalPregap := currPregap }, curr)
    | some prev =>
      if prev.file = curr.file then
        let r := sameFile prev curr p.shift p.totalPregap skip currPregap
        if consistent r.1 r.2 then
          some ({ p with
            tracks := p.tracks.dropLast ++ [r.1, r.2]
            totalPregap := u32 (p.totalPregap + currPregap) }, r.2)
        else none
      else
        match prev.file with
        | none => none
        | some file =>
          if prev.sector_size = 0 then none
          else
            let r := otherFile file prev curr skip currPregap
            if consistent r.1 r.2 then
              some ({
                tracks := p.tracks.dropLast ++ [r.1, r.2]
                shift := u32 (p.shift + (r.1.start + r.1.length))
                totalPregap := currPregap }, r.2)
            else none

/-- The last track is made into the lead-out. -/
def Track.leadOut (track : Track) : Track :=
  { track with number := (track.number + 1) % 256, attr := 0, start := 0, length := 0, file := none }

/-! ## The lines -/

inductive TrackType where
  | AUDIO | MODE1_2048 | MODE1_2352 | MODE2_2336 | MODE2_2352
deriving DecidableEq

namespace TrackType

def sector_size : TrackType → ℕ
  | AUDIO | MODE1_2352 | MODE2_2352 => 2352
  | MODE1_2048 => 2048
  | MODE2_2336 => 2336

def attr : TrackType → ℕ
  | AUDIO => 0
  | _ => 0x40

def mode2 : TrackType → Bool
  | MODE2_2336 | MODE2_2352 => true
  | _ => false

end TrackType

structure TMSF where
  min : BitVec 8
  sec : BitVec 8
  fr : BitVec 8
deriving DecidableEq

def msf_to_frames (msf : TMSF) : ℕ := msf.min.toNat * 60 * 75 + msf.sec.toNat * 75 + msf.fr.toNat

/-- A line of a cue sheet. -/
inductive CueLine where
  | TRACK (track_number : ℤ) (type : Option TrackType)
  | INDEX (index : ℤ) (frame : Option TMSF)
  /-- With the length of the file, if it can be opened. -/
  | FILE (length : Option (Fin (2 ^ 31)))
  | PREGAP (frame : Option TMSF)
  /-- CATALOG, the commands that are not used, and empty lines. -/
  | ignored
  /-- Any other command, and a line that is too long. -/
  | failure

/-- The variables of `LoadCueSheet`. -/
structure LoadState where
  placed : Placed
  track : Track
  currPregap : ℕ
  prestart : ℤ
  canAddTrack : Bool
  /-- How many files have been opened. -/
  opened : ℕ

namespace LoadState

def start : LoadState where
  placed := ⟨[], 0, 0⟩
  track := {}
  currPregap := 0
  prestart := -1
  canAddTrack := false
  opened := 0

variable (s : LoadState)

def addTrack : Option LoadState :=
  (AddTrack s.placed s.track s.prestart s.currPregap).map fun r =>
    { s with placed := r.1, track := r.2 }

/-- The track before a TRACK or FILE line is complete. -/
def addPending : Option LoadState := if s.canAddTrack then s.addTrack else some s

/-- One line. -/
def line : CueLine → Option LoadState
  | .TRACK track_number type => do
    let s ← s.addPending
    let type ← type
    some { s with
      track := { s.track with
        start := 0, skip := 0, number := (track_number % 256).toNat
        sector_size := type.sector_size, attr := type.attr, mode2 := type.mode2 }
      currPregap := 0
      prestart := -1
      canAddTrack := true }
  | .INDEX index frame => do
    let frame ← frame.map msf_to_frames
    some (if index = 1 then { s with track := { s.track with start := frame } }
      else if index = 0 then { s with prestart := frame }
      else s)
  | .FILE length => do
    let s ← s.addPending
    let length ← length
    some { s with
      track := { s.track with file := some (.ofLength s.opened length) }
      canAddTrack := false
      opened := s.opened + 1 }
  | .PREGAP frame => do
    let frame ← frame.map msf_to_frames
    some { s with currPregap := frame }
  | .ignored => some s
  | .failure => none

/-- The last track and the lead-out. -/
def finish : Option (List Track) := do
  let s ← s.addTrack
  let r ← AddTrack s.placed s.track.leadOut (-1) 0
  some r.1.tracks

end LoadState

def LoadCueSheet (lines : List CueLine) : Option (List Track) := do
  let s ← lines.foldlM LoadState.line LoadState.start
  s.finish

end AugraDosbox.Cdrom
