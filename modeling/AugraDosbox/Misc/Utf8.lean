import AugraDosbox.Misc.UnicodeEncodings
import Mathlib.Algebra.GroupWithZero.Nat

/-!
# UTF-8

* `first` — the sequence at the front of a list of bytes, counted from its first byte;
* `sequenceAt_drop` — the decoder finds it wherever it stands;
* `first_append` — what stands behind a sequence does not matter to it;
* **`item_utf8Bytes`** — the sequence of a code point.
-/

namespace AugraDosbox

namespace Unicode

open Decoding Utf8 Utf16

theorem is_valid_codepoint_iff {code_point : ℕ} :
    is_valid_codepoint code_point = true ↔
      code_point ≤ LastCodePoint ∧
        ¬ (LowSurrogateBase ≤ code_point ∧ code_point < PostSurrogateBase) := by
  unfold is_valid_codepoint
  split
  · rename_i hlast
    exact iff_of_false Bool.false_ne_true fun h => absurd h.1 (Nat.not_le.2 hlast)
  · rename_i hlast
    split
    · rename_i hsurrogate
      exact iff_of_false Bool.false_ne_true fun h => h.2 hsurrogate
    · rename_i hsurrogate
      exact iff_of_true rfl ⟨Nat.not_lt.1 hlast, hsurrogate⟩

theorem is_valid_UnknownCharacter : is_valid_codepoint UnknownCharacter = true := by decide

theorem is_next_byte_zero : is_next_byte 0 = false := by decide

/-! ## Sequences -/

namespace Sequence

variable {s : Sequence} {k byte : ℕ} {rest more : List UInt8}

/-- The same sequence `k` positions further on. -/
def shift (k : ℕ) (s : Sequence) : Sequence :=
  ⟨k + s.i, s.code_point, s.fail_position.map (k + ·)⟩

/-- The code point that is pushed for it. -/
def result (s : Sequence) : ℕ :=
  if s.fail_position.isNone ∧ is_valid_codepoint s.code_point then s.code_point
  else UnknownCharacter

theorem result_valid : is_valid_codepoint s.result = true := by
  unfold result
  split
  · rename_i hok
    exact hok.2
  · exact is_valid_UnknownCharacter

theorem isNone_shift : (s.shift k).fail_position.isNone = s.fail_position.isNone := by
  unfold shift
  cases s.fail_position <;> rfl

theorem next_shift : (s.shift k).next byte = (s.next byte).shift k := by
  obtain ⟨i, code_point, fail_position⟩ := s
  cases fail_position with
  | none =>
    cases hnext : is_next_byte byte <;> simp [next, shift, hnext, Nat.add_assoc]
  | some position => simp [next, shift]

theorem next_of_next (h : s.fail_position = none) (hnext : is_next_byte byte = true) :
    s.next byte = ⟨s.i + 1, s.code_point <<< 6 + (byte - NextByte), none⟩ := by
  unfold next
  dsimp only
  rw [h, if_pos ⟨rfl, hnext⟩]

theorem next_of_not (hnext : is_next_byte byte = false) : s.next byte = s.next 0 := by
  have hno : ∀ P : Prop, ¬ (P ∧ false = true) := fun P h => Bool.false_ne_true h.2
  unfold next
  simp only [hnext, is_next_byte_zero, if_neg (hno _)]

theorem next_of_failed (h : s.fail_position.isNone = false) : s.next byte = s.next 0 := by
  unfold next
  dsimp only
  rw [h]
  simp

theorem failed_next_zero : (s.next 0).fail_position.isNone = false := by
  unfold next
  dsimp only
  rw [is_next_byte_zero]
  cases h : s.fail_position <;> simp

theorem i_next_zero : (s.next 0).i = s.i := by
  unfold next
  dsimp only
  rw [is_next_byte_zero]
  cases s.fail_position <;> simp

theorem i_next_le : (s.next byte).i ≤ s.i + 1 := by
  unfold next
  dsimp only
  split
  · exact Nat.le_refl _
  · split <;> exact Nat.le_succ _

/-- The next `n` bytes; behind the end there are zeros. -/
def nexts : ℕ → Sequence → List UInt8 → Sequence
  | 0, s, _ => s
  | n + 1, s, [] => nexts n (s.next 0) []
  | n + 1, s, byte :: rest => nexts n (s.next byte.toNat) rest

theorem nexts_shift (n : ℕ) : nexts n (s.shift k) rest = (nexts n s rest).shift k := by
  induction n generalizing s rest with
  | zero => rfl
  | succ n ih => cases rest <;> rw [nexts, nexts, next_shift, ih]

theorem nexts_of_failed (n : ℕ) (h : s.fail_position.isNone = false) :
    nexts n s rest = nexts n s [] := by
  induction n generalizing s rest with
  | zero => rfl
  | succ n ih =>
    cases rest with
    | nil => rfl
    | cons byte rest => rw [nexts, nexts, next_of_failed h, ih failed_next_zero]

/-- A byte that is no next byte does the same as the end. -/
theorem nexts_append (n : ℕ) (hmore : ∀ byte ∈ more.head?, is_next_byte byte.toNat = false) :
    nexts n s (rest ++ more) = nexts n s rest := by
  induction n generalizing s rest with
  | zero => rfl
  | succ n ih =>
    cases rest with
    | cons byte rest => exact ih
    | nil =>
      cases more with
      | nil => rfl
      | cons byte more =>
        rw [List.nil_append, nexts, nexts, next_of_not (hmore byte rfl),
          nexts_of_failed n failed_next_zero]

theorem i_nexts_le (n : ℕ) : (nexts n s rest).i ≤ s.i + rest.length := by
  induction n generalizing s rest with
  | zero => exact Nat.le_add_right _ _
  | succ n ih =>
    cases rest with
    | nil =>
      rw [nexts, ← s.i_next_zero]
      exact ih
    | cons byte rest =>
      have hrest : (nexts n (s.next byte.toNat) rest).i ≤ _ := ih
      have hone : (s.next byte.toNat).i ≤ s.i + 1 := i_next_le
      rw [nexts, List.length_cons]
      omega

end Sequence

/-! ## The sequence at the front -/

/-- How many of the next bytes there are, at most `n`. -/
def nextBytes (n : ℕ) (rest : List UInt8) : ℕ :=
  ((rest.take n).takeWhile fun byte => is_next_byte byte.toNat).length

/-- The sequence that starts with `byte`, counted from there. -/
def first (byte : UInt8) (rest : List UInt8) : Sequence :=
  if byte.toNat ≥ Start6Bytes then ⟨nextBytes 5 rest, 0, some 0⟩
  else if byte.toNat ≥ Start5Bytes then ⟨nextBytes 4 rest, 0, some 0⟩
  else if byte.toNat ≥ Start4Bytes then .nexts 3 ⟨0, byte.toNat - Start4Bytes, none⟩ rest
  else if byte.toNat ≥ Start3Bytes then .nexts 2 ⟨0, byte.toNat - Start3Bytes, none⟩ rest
  else if byte.toNat ≥ Start2Bytes then .nexts 1 ⟨0, byte.toNat - Start2Bytes, none⟩ rest
  else if byte.toNat < NextByte then ⟨0, byte.toNat, none⟩
  else ⟨0, 0, some 0⟩

/-- The item that it is. -/
def item (byte : UInt8) (rest : List UInt8) : ℕ × ℕ :=
  ((first byte rest).result, (first byte rest).i)

variable {str rest more : List UInt8} {byte : UInt8} {i n : ℕ}

theorem nextBytes_append (hmore : ∀ byte ∈ more.head?, is_next_byte byte.toNat = false) :
    nextBytes n (rest ++ more) = nextBytes n rest := by
  unfold nextBytes
  induction rest generalizing n with
  | nil =>
    cases n with
    | zero => rfl
    | succ n =>
      cases more with
      | nil => rfl
      | cons byte more =>
        rw [List.nil_append, List.take_succ_cons, List.takeWhile_cons_of_neg (by
          rw [hmore byte rfl]
          exact Bool.false_ne_true)]
        rfl
  | cons byte rest ih =>
    cases n with
    | zero => rfl
    | succ n =>
      rw [List.cons_append, List.take_succ_cons, List.take_succ_cons, List.takeWhile_cons,
        List.takeWhile_cons]
      split
      · rw [List.length_cons, List.length_cons, ih]
      · rfl

theorem first_append (hmore : ∀ byte ∈ more.head?, is_next_byte byte.toNat = false) :
    first byte (rest ++ more) = first byte rest := by
  unfold first
  simp only [nextBytes_append hmore, Sequence.nexts_append _ hmore]

theorem nextBytes_le : nextBytes n rest ≤ rest.length :=
  Nat.le_trans (List.takeWhile_sublist _).length_le (List.length_take_le' n rest)

theorem first_i_le : (first byte rest).i ≤ rest.length := by
  have hnexts : ∀ n c, (Sequence.nexts n ⟨0, c, none⟩ rest).i ≤ rest.length := by
    intro n c
    exact Nat.le_trans (Sequence.i_nexts_le n) (Nat.le_of_eq (Nat.zero_add _))
  unfold first
  split_ifs
  · exact nextBytes_le
  · exact nextBytes_le
  · exact hnexts 3 _
  · exact hnexts 2 _
  · exact hnexts 1 _
  · exact Nat.zero_le _
  · exact Nat.zero_le _

theorem local_item :
    Local item fun byte : UInt8 => is_next_byte byte.toNat = false := by
  refine ⟨fun byte rest => first_i_le, fun byte rest more hmore => ?_⟩
  unfold item
  rw [first_append hmore]

/-! ## Where it stands -/

/-- The `k`-th byte behind the first, or zero behind the end. -/
def byteOrZero (rest : List UInt8) (k : ℕ) : ℕ := (rest[k]?.map UInt8.toNat).getD 0

theorem nexts_three (s : Sequence) : Sequence.nexts 3 s rest =
    ((s.next (byteOrZero rest 0)).next (byteOrZero rest 1)).next (byteOrZero rest 2) := by
  match rest with
  | [] => rfl
  | [_] => rfl
  | [_, _] => rfl
  | _ :: _ :: _ :: _ => rfl

theorem nexts_two (s : Sequence) : Sequence.nexts 2 s rest =
    (s.next (byteOrZero rest 0)).next (byteOrZero rest 1) := by
  match rest with
  | [] => rfl
  | [_] => rfl
  | _ :: _ :: _ => rfl

theorem nexts_one (s : Sequence) : Sequence.nexts 1 s rest = s.next (byteOrZero rest 0) := by
  match rest with
  | [] => rfl
  | _ :: _ => rfl

theorem byteAt_first (h : str.drop i = byte :: rest) : byteAt str i = some byte.toNat := by
  have hget : str[i]? = some byte := by
    rw [← Nat.add_zero i, ← List.getElem?_drop, h]
    rfl
  rw [byteAt, hget]
  rfl

theorem byteAt_rest (h : str.drop i = byte :: rest) (k : ℕ) :
    byteAt str (i + (k + 1)) = rest[k]?.map UInt8.toNat := by
  rw [byteAt, ← List.getElem?_drop, h, List.getElem?_cons_succ]

/-- No byte behind the end is read. -/
theorem lookAhead_eq (h : str.drop i = byte :: rest) (k : ℕ) :
    lookAhead str i rest.length (k + 1) = some (byteOrZero rest k) := by
  unfold lookAhead byteOrZero
  split
  · rename_i hk
    rw [byteAt_rest h, List.getElem?_eq_getElem hk]
    rfl
  · rename_i hk
    rw [List.getElem?_eq_none (by omega)]
    rfl

theorem nextBytes_min : nextBytes (min rest.length n) rest = nextBytes n rest := by
  rw [nextBytes, nextBytes, Nat.min_comm, ← List.take_eq_take_min]

theorem advance_eq (hn : i + n < str.length) :
    advance str n i = some (i + nextBytes n (str.drop (i + 1))) := by
  induction n generalizing i with
  | zero => rfl
  | succ n ih =>
    have hlt : i + 1 < str.length := by omega
    have hdrop := List.drop_eq_getElem_cons hlt
    rw [advance, byteAt_first hdrop, Option.bind_some, hdrop, nextBytes, List.take_succ_cons,
      List.takeWhile_cons]
    split
    · rw [ih (by omega), List.length_cons]
      congr 1
      change _ = i + (nextBytes n _ + 1)
      omega
    · rfl

theorem shift_zero (c k : ℕ) : Sequence.shift k ⟨0, c, none⟩ = ⟨k, c, none⟩ := rfl

/-- **The decoder finds the sequence wherever it stands.** -/
theorem sequenceAt_drop (h : str.drop i = byte :: rest) :
    sequenceAt str i = some ((first byte rest).shift i) := by
  have hlength : str.length - i = rest.length + 1 := by
    rw [← List.length_drop, h, List.length_cons]
  have hremaining : str.length - i - 1 = rest.length := by omega
  have hrest : str.drop (i + 1) = rest := by rw [← List.tail_drop, h, List.tail_cons]
  have hadvance : ∀ n, advance str (min rest.length n) i = some (i + nextBytes n rest) := by
    intro n
    rw [advance_eq (by omega), hrest, nextBytes_min]
  have hnexts : ∀ n c, Sequence.nexts n ⟨i, c, none⟩ rest =
      (Sequence.nexts n ⟨0, c, none⟩ rest).shift i := by
    intro n c
    rw [← Sequence.nexts_shift, shift_zero]
  unfold sequenceAt first
  simp only [hremaining, byteAt_first h, lookAhead_eq h 0, lookAhead_eq h 1,
    lookAhead_eq h 2, hadvance, Option.bind_eq_bind, Option.bind_some, Option.map_some]
  split_ifs
  · rfl
  · rfl
  · rw [← nexts_three, hnexts]
  · rw [← nexts_two, hnexts]
  · rw [← nexts_one, hnexts]
  · rfl
  · rfl

theorem pushSequence_str_out (d : Decoded) (s : Sequence) :
    (d.pushSequence i (s.shift i)).str_out = d.str_out ++ [s.result] := by
  unfold Decoded.pushSequence Sequence.result
  rw [Sequence.isNone_shift]
  obtain ⟨last, code_point, fail_position⟩ := s
  cases fail_position with
  | some position => simp [Sequence.shift, Decoded.push_back, Decoded.warn, apply_ite]
  | none =>
    cases hvalid : is_valid_codepoint code_point <;>
      simp [Sequence.shift, Decoded.push_back, Decoded.warn, apply_ite, hvalid]

/-- **The decoder is total**, and decodes one item after the other. -/
theorem utf8_to_wide_eq (str : List UInt8) :
    ∃ d, utf8_to_wide str = some d ∧ d.str_out = decode item str := by
  have hbody : ∀ (i : ℕ) (d : Decoded) (byte : UInt8) (rest : List UInt8),
      str.drop i = byte :: rest →
      ∃ (n : ℕ) (d' : Decoded),
        (sequenceAt str i).map (fun s => (s.i, d.pushSequence i s)) = some (i + n, d') ∧
          d'.str_out ++ decode item (rest.drop n) = d.str_out ++ decode item (byte :: rest) := by
    intro i d byte rest hdrop
    refine ⟨(first byte rest).i, d.pushSequence i ((first byte rest).shift i), ?_, ?_⟩
    · rw [sequenceAt_drop hdrop]
      rfl
    · rw [pushSequence_str_out, decode_cons, List.append_assoc]
      rfl
  obtain ⟨d, hscan, hvalue⟩ := scan_value
    (fun (d : Decoded) rest => d.str_out ++ decode item rest) hbody Decoded.empty
    (Nat.le_of_eq (Nat.zero_add _).symm)
  refine ⟨d, hscan, ?_⟩
  rw [decode_nil, List.append_nil] at hvalue
  exact hvalue

/-! ## The bytes of a code point -/

theorem toNat_tail (x : ℕ) :
    (UInt8.ofNat (ByteMask &&& x ||| NextByte)).toNat = NextByte + x % 64 := by
  have hmask : ByteMask &&& x = x % 64 := by
    rw [Nat.and_comm]
    exact Nat.and_two_pow_sub_one_eq_mod x 6
  have hor : x % 64 ||| NextByte = NextByte + x % 64 := by
    rw [Nat.or_comm]
    exact (Nat.two_pow_add_eq_or_of_lt (i := 6) (Nat.mod_lt x (by decide)) 2).symm
  rw [hmask, hor, UInt8.toNat_ofNat']
  unfold NextByte
  omega

/-- The first byte of `width` low bits below a mark. -/
theorem toNat_start (width top : ℕ) {x : ℕ} (hx : x < 2 ^ width)
    (hbyte : 2 ^ width * top + x < 256) :
    (UInt8.ofNat (x ||| 2 ^ width * top)).toNat = 2 ^ width * top + x := by
  rw [Nat.or_comm, ← Nat.two_pow_add_eq_or_of_lt hx top, UInt8.toNat_ofNat']
  exact Nat.mod_eq_of_lt hbyte

theorem next_tail {k c : ℕ} (x : ℕ) :
    Sequence.next ⟨k, c, none⟩ (NextByte + x % 64) = ⟨k + 1, c * 64 + x % 64, none⟩ := by
  have hx : x % 64 < 64 := Nat.mod_lt x (by decide)
  have hnext : is_next_byte (NextByte + x % 64) = true := by
    refine decide_eq_true ⟨Nat.le_add_right _ _, ?_⟩
    unfold NextByte Start2Bytes
    omega
  rw [Sequence.next_of_next rfl hnext, Nat.shiftLeft_eq, Nat.add_sub_cancel_left]

/-- **The decoder finds the code point** in its bytes, whatever comes behind them; the first of
them starts it. -/
theorem item_utf8Bytes {code_point : ℕ} (h : is_valid_codepoint code_point = true) :
    ∃ byte tail, utf8Bytes code_point = byte :: tail ∧ is_next_byte byte.toNat = false ∧
      ∀ rest, item byte (tail ++ rest) = (code_point, tail.length) := by
  have hlast : code_point ≤ 0x10ffff := (is_valid_codepoint_iff.1 h).1
  have hitem : ∀ {s : Sequence} {last : ℕ}, s = ⟨last, code_point, none⟩ →
      (s.result, s.i) = (code_point, last) := by
    intro s last hs
    rw [hs, Sequence.result]
    exact Prod.ext (if_pos ⟨rfl, h⟩) rfl
  have hstarts : ∀ {byte : UInt8} {n : ℕ}, byte.toNat = n → Start2Bytes ≤ n →
      is_next_byte byte.toNat = false := by
    intro byte n hbyte hn
    exact decide_eq_false fun hnext => Nat.not_le.2 hnext.2 (hbyte.symm ▸ hn)
  unfold utf8Bytes
  split_ifs with h2 h3 h4
  · have hbyte : (UInt8.ofNat code_point).toNat = code_point := by
      rw [UInt8.toNat_ofNat']
      unfold EncodeThreshold2Bytes at h2
      omega
    have hascii : is_next_byte (UInt8.ofNat code_point).toNat = false := by
      rw [hbyte]
      exact decide_eq_false fun hnext => Nat.not_le.2 h2 hnext.1
    refine ⟨_, _, rfl, hascii, fun rest => hitem ?_⟩
    unfold first Start6Bytes Start5Bytes Start4Bytes Start3Bytes Start2Bytes NextByte
    unfold EncodeThreshold2Bytes at h2
    rw [hbyte, if_neg (by omega), if_neg (by omega), if_neg (by omega), if_neg (by omega),
      if_neg (by omega), if_pos h2]
    rfl
  · unfold EncodeThreshold3Bytes at h3
    have hstart : (UInt8.ofNat (code_point >>> 6 ||| Start2Bytes)).toNat =
        Start2Bytes + code_point / 64 := by
      rw [Nat.shiftRight_eq_div_pow]
      exact toNat_start 6 3 (by omega) (by omega)
    refine ⟨_, _, rfl, hstarts hstart (Nat.le_add_right _ _), fun rest => hitem ?_⟩
    unfold first
    rw [hstart]
    unfold Start6Bytes Start5Bytes Start4Bytes Start3Bytes Start2Bytes
    rw [if_neg (by omega), if_neg (by omega), if_neg (by omega), if_neg (by omega),
      if_pos (by omega), Nat.add_sub_cancel_left, List.cons_append, Sequence.nexts, toNat_tail,
      next_tail, Sequence.nexts, Nat.div_add_mod']
    rfl
  · unfold EncodeThreshold4Bytes at h4
    have hstart : (UInt8.ofNat (code_point >>> 12 ||| Start3Bytes)).toNat =
        Start3Bytes + code_point / 4096 := by
      rw [Nat.shiftRight_eq_div_pow]
      exact toNat_start 5 7 (by omega) (by omega)
    have hcode : (code_point / 4096 * 64 + code_point / 2 ^ 6 % 64) * 64 + code_point % 64 =
        code_point := by omega
    refine ⟨_, _, rfl, hstarts hstart (by unfold Start3Bytes Start2Bytes; omega), fun rest =>
      hitem ?_⟩
    unfold first
    rw [hstart]
    unfold Start6Bytes Start5Bytes Start4Bytes Start3Bytes
    rw [if_neg (by omega), if_neg (by omega), if_neg (by omega), if_pos (by omega),
      Nat.add_sub_cancel_left, List.cons_append, Sequence.nexts, toNat_tail, next_tail,
      List.cons_append, Sequence.nexts, toNat_tail, next_tail, Sequence.nexts,
      Nat.shiftRight_eq_div_pow, hcode]
    rfl
  · have hstart : (UInt8.ofNat (code_point >>> 18 ||| Start4Bytes)).toNat =
        Start4Bytes + code_point / 262144 := by
      rw [Nat.shiftRight_eq_div_pow]
      exact toNat_start 4 15 (by omega) (by omega)
    have hcode : ((code_point / 262144 * 64 + code_point / 2 ^ 12 % 64) * 64 +
        code_point / 2 ^ 6 % 64) * 64 + code_point % 64 = code_point := by omega
    refine ⟨_, _, rfl, hstarts hstart (by unfold Start4Bytes Start2Bytes; omega), fun rest =>
      hitem ?_⟩
    unfold first
    rw [hstart]
    unfold Start6Bytes Start5Bytes Start4Bytes
    rw [if_neg (by omega), if_neg (by omega), if_pos (by omega), Nat.add_sub_cancel_left,
      List.cons_append, Sequence.nexts, toNat_tail, next_tail, List.cons_append, Sequence.nexts,
      toNat_tail, next_tail, List.cons_append, Sequence.nexts, toNat_tail, next_tail,
      Sequence.nexts, Nat.shiftRight_eq_div_pow, Nat.shiftRight_eq_div_pow, hcode]
    rfl

end Unicode

end AugraDosbox
