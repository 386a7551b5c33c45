import AugraDosbox.Lib.Decoding

/-!
# Unicode encodings

`misc/unicode_encodings.cpp`: UTF-8, UTF-16 and UCS-2 to strings of code points and back.  The
decoders read their string by index; a result of `none` is a read behind its end.
-/

namespace AugraDosbox

namespace Unicode

open Decoding

/-! ## Code points -/

def LastCodePoint : ℕ := 0x10ffff

/-- Stands for characters that there is no sane way to handle. -/
def UnknownCharacter : ℕ := 0x3f

namespace Utf8

def Start2Bytes : ℕ := 0b11000000

def Start3Bytes : ℕ := 0b11100000

def Start4Bytes : ℕ := 0b11110000

def Start5Bytes : ℕ := 0b11111000

def Start6Bytes : ℕ := 0b11111100

def NextByte : ℕ := 0b10000000

def EncodeThreshold2Bytes : ℕ := 0x000080

def EncodeThreshold3Bytes : ℕ := 0x000800

def EncodeThreshold4Bytes : ℕ := 0x010000

def ByteMask : ℕ := 0b00111111

end Utf8

namespace Utf16

def ByteOrderMark : UInt16 := 0xfeff

def ByteOrderReversed : UInt16 := 0xfffe

def LowSurrogateBase : ℕ := 0xd800

def HighSurrogateBase : ℕ := 0xdc00

def PostSurrogateBase : ℕ := 0xe000

def SurrogateRangeSize : ℕ := HighSurrogateBase - LowSurrogateBase

def EncodeThresholdSurrogate : ℕ := 0x10000

end Utf16

open Utf8 Utf16

def is_valid_codepoint (code_point : ℕ) : Bool :=
  if code_point > LastCodePoint then false
  else if code_point ≥ LowSurrogateBase ∧ code_point < PostSurrogateBase then false
  else true

/-! ## Decoders -/

/-- What has been decoded, and the position of the first problem: only that one is logged. -/
structure Decoded where
  str_out : List ℕ
  warned : Option ℕ
deriving DecidableEq, Repr

namespace Decoded

def empty : Decoded := ⟨[], none⟩

def push_back (d : Decoded) (code_point : ℕ) : Decoded :=
  { d with str_out := d.str_out ++ [code_point] }

/-- `maybe_warn_decode`. -/
def warn (d : Decoded) (position : ℕ) : Decoded :=
  if d.warned.isSome then d else { d with warned := some position }

end Decoded

/-! ## UTF-8 -/

def is_next_byte (byte : ℕ) : Bool := decide (byte ≥ NextByte ∧ byte < Start2Bytes)

def byteAt (str : List UInt8) (i : ℕ) : Option ℕ := str[i]?.map UInt8.toNat

/-- A byte of the look-ahead, zero when not so many remain. -/
def lookAhead (str : List UInt8) (i remaining k : ℕ) : Option ℕ :=
  if remaining ≥ k then byteAt str (i + k) else some 0

/-- A sequence that is being decoded; `i` is its last byte so far. -/
structure Sequence where
  i : ℕ
  code_point : ℕ
  fail_position : Option ℕ
deriving DecidableEq, Repr

/-- Decode the 2nd, 3rd or 4th byte. -/
def Sequence.next (s : Sequence) (byte : ℕ) : Sequence :=
  let code_point := s.code_point <<< 6
  if s.fail_position.isNone ∧ is_next_byte byte then
    ⟨s.i + 1, code_point + (byte - NextByte), s.fail_position⟩
  else if s.fail_position.isNone then ⟨s.i, code_point, some (s.i + 1)⟩
  else ⟨s.i, code_point, s.fail_position⟩

/-- Advance up to `counter` bytes, stop at the end of the sequence. -/
def advance (str : List UInt8) : ℕ → ℕ → Option ℕ
  | 0, i => some i
  | counter + 1, i =>
    (byteAt str (i + 1)).bind fun byte =>
      if is_next_byte byte then advance str counter (i + 1) else some i

/-- The sequence that starts at `i`. -/
def sequenceAt (str : List UInt8) (i : ℕ) : Option Sequence := do
  let remaining := str.length - i - 1
  let byte_1 ← byteAt str i
  let byte_2 ← lookAhead str i remaining 1
  let byte_3 ← lookAhead str i remaining 2
  let byte_4 ← lookAhead str i remaining 3
  if byte_1 ≥ Start6Bytes then
    (advance str (min remaining 5) i).map fun last => ⟨last, 0, some i⟩
  else if byte_1 ≥ Start5Bytes then
    (advance str (min remaining 4) i).map fun last => ⟨last, 0, some i⟩
  else if byte_1 ≥ Start4Bytes then
    some ((((⟨i, byte_1 - Start4Bytes, none⟩ : Sequence).next byte_2).next byte_3).next byte_4)
  else if byte_1 ≥ Start3Bytes then
    some (((⟨i, byte_1 - Start3Bytes, none⟩ : Sequence).next byte_2).next byte_3)
  else if byte_1 ≥ Start2Bytes then
    some ((⟨i, byte_1 - Start2Bytes, none⟩ : Sequence).next byte_2)
  else if byte_1 < NextByte then some ⟨i, byte_1, none⟩
  else some ⟨i, 0, some i⟩

/-- Check if decoding succeeded, and push the code point. -/
def Decoded.pushSequence (d : Decoded) (sequence_start_position : ℕ) (s : Sequence) : Decoded :=
  let fail_position :=
    if s.fail_position.isNone ∧ ¬ is_valid_codepoint s.code_point then
      some sequence_start_position
    else s.fail_position
  match fail_position with
  | some position => (d.warn position).push_back UnknownCharacter
  | none => d.push_back s.code_point

def utf8_to_wide (str : List UInt8) : Option Decoded :=
  scan str.length
    (fun i d => (sequenceAt str i).map fun s => (s.i, d.pushSequence i s))
    str.length 0 .empty

/-! ## UTF-16 -/

def bswap_u16 (x : UInt16) : UInt16 := UInt16.ofNat (x.toNat % 256 * 256 + x.toNat / 256)

/-- `previous` is set while a surrogate pair is decoded. -/
structure Utf16Decoder where
  decoded : Decoded
  swap_bytes : Bool
  previous : Option UInt16
  is_first_token : Bool
deriving DecidableEq, Repr

namespace Utf16Decoder

/-- A token that cannot be decoded. -/
def fail (s : Utf16Decoder) (position : ℕ) : Utf16Decoder :=
  { s with decoded := (s.decoded.warn position).push_back UnknownCharacter }

/-- A second surrogate was expected here if a first one has been read. -/
def expected (s : Utf16Decoder) (position : ℕ) : Utf16Decoder :=
  if s.previous.isSome then s.fail position else s

/-- The code point of a surrogate pair. -/
def pair (previous token : UInt16) : ℕ :=
  (previous.toNat - LowSurrogateBase) * SurrogateRangeSize + (token.toNat - HighSurrogateBase) +
    EncodeThresholdSurrogate

def handle (s : Utf16Decoder) (i : ℕ) (token : UInt16) : Utf16Decoder :=
  if token.toNat < LowSurrogateBase ∨ token.toNat ≥ PostSurrogateBase then
    { s.expected i with
      decoded := (s.expected i).decoded.push_back token.toNat
      previous := none }
  else if token.toNat < HighSurrogateBase then { s.expected i with previous := some token }
  else
    match s.previous with
    | none => s.fail i
    | some previous =>
      { s with previous := none, decoded := s.decoded.push_back (pair previous token) }

/-- The body of the loop: the first token may be a byte order mark. -/
def token (s : Utf16Decoder) (i : ℕ) (unit : UInt16) : Utf16Decoder :=
  let first := s.is_first_token
  let s := { s with is_first_token := false }
  if first ∧ unit = ByteOrderMark then s
  else if first ∧ unit = ByteOrderReversed then { s with swap_bytes := true }
  else s.handle i (if s.swap_bytes then bswap_u16 unit else unit)

end Utf16Decoder

def utf16_to_wide (str : List UInt16) : Option Decoded :=
  (scan str.length (fun i s => str[i]?.map fun unit => (i, Utf16Decoder.token s i unit)) str.length 0
      ⟨.empty, false, none, true⟩).map fun s => (s.expected (str.length - 1)).decoded

/-! ## UCS-2 -/

def ucs2_to_wide (str : List UInt16) : Option Decoded :=
  scan str.length
    (fun i d => str[i]?.map fun unit =>
      (i, if is_valid_codepoint unit.toNat then d.push_back unit.toNat
        else (d.warn i).push_back UnknownCharacter))
    str.length 0 .empty

/-! ## Encoders -/

/-- What has been encoded; `asserted` unless an assertion has failed. -/
structure Encoded (α : Type) where
  str_out : List α
  asserted : Bool
deriving DecidableEq, Repr

/-- The loop of an encoder: no decoding routine should produce invalid values. -/
def encode {α : Type} (unknown : α) (push : ℕ → List α) : List ℕ → Encoded α
  | [] => ⟨[], true⟩
  | code_point :: rest =>
    if is_valid_codepoint code_point then
      { encode unknown push rest with str_out := push code_point ++ (encode unknown push rest).str_out }
    else ⟨unknown :: (encode unknown push rest).str_out, false⟩

/-- The bytes of a valid code point. -/
def utf8Bytes (code_point : ℕ) : List UInt8 :=
  if code_point < EncodeThreshold2Bytes then [.ofNat code_point]
  else if code_point < EncodeThreshold3Bytes then
    [.ofNat (code_point >>> 6 ||| Start2Bytes), .ofNat (ByteMask &&& code_point ||| NextByte)]
  else if code_point < EncodeThreshold4Bytes then
    [.ofNat (code_point >>> 12 ||| Start3Bytes),
      .ofNat (ByteMask &&& code_point >>> 6 ||| NextByte),
      .ofNat (ByteMask &&& code_point ||| NextByte)]
  else
    [.ofNat (code_point >>> 18 ||| Start4Bytes),
      .ofNat (ByteMask &&& code_point >>> 12 ||| NextByte),
      .ofNat (ByteMask &&& code_point >>> 6 ||| NextByte),
      .ofNat (ByteMask &&& code_point ||| NextByte)]

def wide_to_utf8 (str : List ℕ) : Encoded UInt8 := encode (.ofNat UnknownCharacter) utf8Bytes str

/-- The units of a valid code point. -/
def utf16Units (code_point : ℕ) : List UInt16 :=
  if code_point < EncodeThresholdSurrogate then [.ofNat code_point]
  else
    let tmp := code_point - EncodeThresholdSurrogate
    [.ofNat (LowSurrogateBase + tmp / SurrogateRangeSize),
      .ofNat (HighSurrogateBase + tmp % SurrogateRangeSize)]

def wide_to_utf16 (str : List ℕ) : Encoded UInt16 :=
  encode (.ofNat UnknownCharacter) utf16Units str

/-- The unit of a valid code point. -/
def ucs2Units (code_point : ℕ) : List UInt16 :=
  if code_point > 0xffff then [.ofNat UnknownCharacter] else [.ofNat code_point]

def wide_to_ucs2 (str : List ℕ) : Encoded UInt16 :=
  encode (.ofNat UnknownCharacter) ucs2Units str

end Unicode

end AugraDosbox
