import Mathlib.Data.UInt
import AugraDosbox.Dos.CueSheet
import AugraDosbox.Lib.ByteMemory

/-!
# Reading from audio tracks

`AudioFile::read` of `src/dos/cdrom_image.cpp`, which decodes a part of a compressed track.

* `Codec` — the library of decoders; the host is little-endian;
* `decodeLoop`, `toStereo`, `AudioFile.read` — the decoding, and what becomes of mono samples;
* `toStereoAccesses` — the samples that the expansion reads and writes;
* `decodeLoop_frames_le` — the number of mono samples;
* **`toStereo_right_iff`** — when both samples of each frame are the mono sample.

The assertions of a debug build are left out.
-/

namespace AugraDosbox.Cdrom

open ByteMemory

/-! ## Decoding -/

/-- What the decoders do for a track in the state `S`.  `Sound_Decode_Direct` gives the number of
frames that it returns and the bytes that it stores. -/
structure Codec (S : Type) where
  rate : S → ℕ
  channels : S → ℕ
  Sound_Seek : S → ℕ → Bool × S
  Sound_Decode_Direct : S → ℕ → ℕ × List UInt8 × S
  error : S → Bool
  eof : S → Bool

structure AudioFile (S : Type) where
  sample : S
  audio_pos : ℕ
  /-- What `getLength` returns. -/
  length : ℤ

variable {S : Type} (codec : Codec S)

def ceil_udivide (x y : ℕ) : ℕ := if x ≠ 0 then 1 + (x - 1) / y else 0

namespace AudioFile

def adjustOverRead (f : AudioFile S) (offset requested_bytes : ℕ) : ℕ :=
  if f.length ≤ i32 offset then 0
  else if f.length < i32 (offset + requested_bytes) then u32 (f.length - offset)
  else requested_bytes

def seek (f : AudioFile S) (requested_pos : ℕ) : Bool × AudioFile S :=
  if f.length ≤ i32 requested_pos then (false, f)
  else if f.audio_pos = requested_pos then (true, f)
  else
    let pos_in_frames := ceil_udivide requested_pos 2352
    let pos_in_ms := ceil_udivide (u32 (pos_in_frames * 1000)) 75
    let (result, sample) := codec.Sound_Seek f.sample pos_in_ms
    (result, { f with sample := sample, audio_pos := if result then requested_pos else 2 ^ 32 - 1 })

end AudioFile

/-- The bytes of a list over those of a memory. -/
def overwrite (m : Memory) (o : ℕ) (bytes : List UInt8) : Memory := fun k =>
  if o ≤ k ∧ k < o + bytes.length then bytes.getD (k - o) 0 else m k

structure Decoded (S : Type) where
  sample : S
  buffer : Memory
  decoded_frames : ℕ

/-- The decoding, in at most `n` rounds: each of them decodes a frame or is the last one. -/
def decodeLoop (requested_frames bytes_per_frame : ℕ) : ℕ → Decoded S → Decoded S
  | 0, d => d
  | n + 1, d =>
    if d.decoded_frames < requested_frames then
      let (decoded, bytes, sample) :=
        codec.Sound_Decode_Direct d.sample (requested_frames - d.decoded_frames)
      let d := { d with
        sample := sample
        buffer := overwrite d.buffer (u32 (d.decoded_frames * bytes_per_frame)) bytes }
      if codec.error sample ∨ codec.eof sample ∨ decoded = 0 then d
      else decodeLoop requested_frames bytes_per_frame n
        { d with decoded_frames := u32 (d.decoded_frames + decoded) }
    else d

/-! ## Mono samples -/

/-- The sample `i` of a buffer, in 16 bits. -/
def sampleAt (buffer : Memory) (i : ℕ) : ℕ := load buffer (2 * i) 2

def setSample (buffer : Memory) (i sample : ℕ) : Memory :=
  ByteMemory.store buffer (2 * i) 2 sample

/-- A computed index of a sample. -/
def sampleIndex (n : ℕ) : ℕ := u32 n

/-- One round: first the right sample, then the left one. -/
def duplicate (i : ℕ) (buffer : Memory) : Memory :=
  let buffer := setSample buffer (sampleIndex (i * 2 + 1)) (sampleAt buffer i)
  setSample buffer (sampleIndex (i * 2 + 0)) (sampleAt buffer i)

/-- The rounds from `i` down to 1. -/
def expandLoop : ℕ → Memory → Memory
  | 0, buffer => buffer
  | i + 1, buffer => expandLoop i (duplicate (i + 1) buffer)

/-- The expansion of mono samples; it is left out when there are none. -/
def toStereo (mono_samples : ℕ) (buffer : Memory) : Memory :=
  if mono_samples ≠ 0 then expandLoop (mono_samples - 1) buffer else buffer

/-- The samples that the rounds from `i` down to 1 touch, in their order. -/
def expandAccesses : ℕ → List ℕ
  | 0 => []
  | i + 1 =>
    [i + 1, sampleIndex ((i + 1) * 2 + 1), i + 1, sampleIndex ((i + 1) * 2 + 0)] ++ expandAccesses i

def toStereoAccesses (mono_samples : ℕ) : List ℕ :=
  if mono_samples ≠ 0 then expandAccesses (mono_samples - 1) else []

/-! ## The whole call -/

/-- The call, with what it returns and how often extraction has been tried.  `none` is `E_Exit`. -/
def AudioFile.read (f : AudioFile S) (dae_attempts : ℕ) (buffer : Memory)
    (requested_pos requested_bytes : ℕ) : Option (Bool × AudioFile S × ℕ × Memory) :=
  if codec.rate f.sample ≠ 44100 then
    if 10 < dae_attempts then none
    else some (false, f, (dae_attempts + 1) % 2 ^ 8, buffer)
  else
    let (sought, f) := f.seek codec requested_pos
    let adjusted_bytes := f.adjustOverRead requested_pos requested_bytes
    if !sought then some (false, f, dae_attempts, buffer)
    else if adjusted_bytes = 0 then some (true, f, dae_attempts, buffer)
    else
      let channels := codec.channels f.sample
      let bytes_per_frame := channels * 2 % 2 ^ 8
      let requested_frames := ceil_udivide adjusted_bytes 4
      let d := decodeLoop codec requested_frames bytes_per_frame requested_frames
        ⟨f.sample, buffer, 0⟩
      let decoded_bytes := u32 (d.decoded_frames * bytes_per_frame)
      let buffer :=
        if d.decoded_frames < requested_frames then
          overwrite d.buffer decoded_bytes (List.replicate (u32 (adjusted_bytes - decoded_bytes)) 0)
        else d.buffer
      let mono := channels = 1 ∧ d.decoded_frames ≠ 0
      let buffer := if mono then toStereo d.decoded_frames buffer else buffer
      let decoded_bytes := if mono then u32 (decoded_bytes * 2) else decoded_bytes
      some (!codec.error d.sample,
        { f with sample := d.sample, audio_pos := u32 (f.audio_pos + decoded_bytes) }, dae_attempts,
        buffer)

variable {codec} {buffer : Memory} {i j n k : ℕ}

theorem u32_natCast (n : ℕ) : u32 n = n % 2 ^ 32 := by
  rw [u32]
  omega

/-- **The number of decoded frames**, with decoders that return no more than they are asked for. -/
theorem decodeLoop_frames_le {requested_frames bytes_per_frame : ℕ} {d : Decoded S}
    (hcodec : ∀ s n, (codec.Sound_Decode_Direct s n).1 ≤ n)
    (hd : d.decoded_frames ≤ requested_frames) :
    (decodeLoop codec requested_frames bytes_per_frame n d).decoded_frames ≤ requested_frames := by
  induction n generalizing d with
  | zero => exact hd
  | succ n ih =>
    have hmore := hcodec d.sample (requested_frames - d.decoded_frames)
    simp only [decodeLoop]
    split_ifs with hfew hlast
    · exact hd
    · have hle : d.decoded_frames + (codec.Sound_Decode_Direct d.sample
          (requested_frames - d.decoded_frames)).1 ≤ requested_frames := by omega
      refine ih (le_trans ?_ hle)
      exact (u32_natCast _).trans_le (Nat.mod_le _ _)
    · exact hd

/-! ## The expansion -/

theorem sampleAt_lt : sampleAt buffer i < 2 ^ 16 := by
  have hlow := (buffer (2 * i)).toNat_lt
  have hhigh := (buffer (2 * i + 1)).toNat_lt
  simp only [sampleAt, load]
  omega

theorem sampleAt_setSample (hk : k < 2 ^ 16) :
    sampleAt (setSample buffer i k) j = if j = i then k else sampleAt buffer j := by
  split_ifs with hij
  · subst hij
    rw [sampleAt, setSample, load_store]
    exact Nat.mod_eq_of_lt hk
  · exact load_store_of_disjoint (by omega)

/-- **One round**: both samples of a frame become the mono sample. -/
theorem sampleAt_duplicate (hi : i * 2 + 1 < 2 ^ 32) (hpos : 0 < i) :
    sampleAt (duplicate i buffer) j = if j / 2 = i then sampleAt buffer i else sampleAt buffer j := by
  have hright : sampleIndex (i * 2 + 1) = i * 2 + 1 := by
    rw [sampleIndex, u32_natCast, Nat.mod_eq_of_lt hi]
  have hleft : sampleIndex (i * 2 + 0) = i * 2 := by
    rw [sampleIndex, u32_natCast, Nat.mod_eq_of_lt (by omega)]
    rfl
  -- the store on the right leaves the mono sample
  have hmono : sampleAt (setSample buffer (i * 2 + 1) (sampleAt buffer i)) i = sampleAt buffer i := by
    rw [sampleAt_setSample sampleAt_lt, if_neg (by omega)]
  simp only [duplicate, hright, hleft]
  rw [hmono, sampleAt_setSample sampleAt_lt, sampleAt_setSample sampleAt_lt]
  split_ifs <;> first | rfl | omega

/-- **The loop**: the frames above the first one have been expanded, and nothing else has been
changed.  The samples that are still to be read lie in front of those that have been written. -/
theorem sampleAt_expandLoop (hi : i * 2 + 1 < 2 ^ 32) :
    sampleAt (expandLoop i buffer) j =
      if 1 ≤ j / 2 ∧ j / 2 ≤ i then sampleAt buffer (j / 2) else sampleAt buffer j := by
  induction i generalizing buffer with
  | zero => rw [if_neg (by omega)]; rfl
  | succ i ih =>
    rw [expandLoop, ih (by omega), sampleAt_duplicate hi (Nat.succ_pos i),
      sampleAt_duplicate hi (Nat.succ_pos i)]
    split_ifs <;> first | rfl | omega | (congr 1; omega)

theorem lt_of_mem_expandAccesses (h : k ∈ expandAccesses i) : k < 2 * (i + 1) := by
  induction i with
  | zero => simp [expandAccesses] at h
  | succ i ih =>
    have hle : ∀ m, sampleIndex m ≤ m := fun m => by
      rw [sampleIndex, u32_natCast]
      exact Nat.mod_le _ _
    have hright := hle ((i + 1) * 2 + 1)
    have hleft := hle ((i + 1) * 2 + 0)
    simp only [expandAccesses, List.cons_append, List.nil_append, List.mem_cons] at h
    rcases h with h | h | h | h | h
    · omega
    · omega
    · omega
    · omega
    · exact (ih h).trans (by omega)

/-- Only samples of the `n` frames are touched, and both samples of each frame are its mono sample
afterwards. -/
def Expanded (n : ℕ) (buffer : Memory) : Prop :=
  (∀ k ∈ toStereoAccesses n, k < 2 * n) ∧
    ∀ i < n, sampleAt (toStereo n buffer) (2 * i) = sampleAt buffer i ∧
      sampleAt (toStereo n buffer) (2 * i + 1) = sampleAt buffer i

theorem expanded_iff (hn : n ≤ 2 ^ 31) :
    Expanded n buffer ↔ n = 0 ∨ sampleAt buffer 1 = sampleAt buffer 0 := by
  rcases Nat.eq_zero_or_pos n with rfl | hpos
  · simp [Expanded, toStereoAccesses]
  · have hstereo : toStereo n buffer = expandLoop (n - 1) buffer := if_pos (by omega)
    have haccesses : toStereoAccesses n = expandAccesses (n - 1) := if_pos (by omega)
    have hsample : ∀ j, sampleAt (toStereo n buffer) j =
        if 1 ≤ j / 2 ∧ j / 2 ≤ n - 1 then sampleAt buffer (j / 2) else sampleAt buffer j :=
      fun j => by rw [hstereo, sampleAt_expandLoop (by omega)]
    constructor
    · rintro ⟨-, hframes⟩
      have hfirst := (hframes 0 hpos).2
      rw [hsample, if_neg (by omega)] at hfirst
      exact .inr hfirst
    · intro h
      have hfirst : sampleAt buffer 1 = sampleAt buffer 0 := h.resolve_left (by omega)
      refine ⟨fun k hk => ?_, fun i hi => ?_⟩
      · rw [haccesses] at hk
        exact (lt_of_mem_expandAccesses hk).trans_le (by omega)
      · have hleft : 2 * i / 2 = i := by omega
        have hright : (2 * i + 1) / 2 = i := by omega
        rw [hsample, hsample, hleft, hright]
        rcases Nat.eq_zero_or_pos i with rfl | hi0
        · rw [if_neg (by omega), if_neg (by omega)]
          exact ⟨rfl, hfirst⟩
        · rw [if_pos (by omega), if_pos (by omega)]
          exact ⟨rfl, rfl⟩

/-- **The expansion of mono samples** is right exactly if there are none, or if the sample behind
the first one is the same: the loop leaves the first frame as it is.  A call decodes at most as many
frames as it is asked for. -/
theorem toStereo_right_iff {adjusted_bytes : ℕ} (hbytes : adjusted_bytes < 2 ^ 32)
    (hn : n ≤ ceil_udivide adjusted_bytes 4) (buffer : Memory) :
    Expanded n buffer ↔ n = 0 ∨ sampleAt buffer 1 = sampleAt buffer 0 := by
  refine expanded_iff (hn.trans ?_)
  rw [ceil_udivide]
  split_ifs <;> omega

/-- Two samples that are the same, and two others. -/
theorem toStereo_right_iff_pairs :
    Expanded 2 (overwrite 0 0 [1, 0, 1, 0]) ∧ ¬ Expanded 2 (overwrite 0 0 [1, 0, 2, 0]) := by
  constructor
  · exact (toStereo_right_iff (by decide : 8 < 2 ^ 32) (by decide) _).2 (.inr (by decide))
  · exact fun h => absurd ((toStereo_right_iff (by decide : 8 < 2 ^ 32) (by decide) _).1 h) (by decide)

/-- The right sample of the first frame is the second mono sample. -/
theorem toStereo_not_expanded : ¬ Expanded 2 (overwrite 0 0 [1, 0, 2, 0]) := by
  rintro ⟨-, hframes⟩
  exact absurd (hframes 0 (by decide)).2 (by decide)

end AugraDosbox.Cdrom
