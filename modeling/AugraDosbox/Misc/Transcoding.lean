import AugraDosbox.Misc.Utf8

/-!
# Unicode transcoding

* `encode_eq` — the encoders, as long as their assertion holds;
* `tokens` — what UTF-16 means, with the first surrogate that waits for its second one;
* `utf16_to_wide_eq` — the decoder, for the order of bytes that its string begins with;
* **`tokens_append`**, **`tokens_utf16Units`** — what stands before does not matter, and the code
  points come back;
* **`transcoding`** — all three encodings.
-/

namespace AugraDosbox

namespace Unicode

open Decoding Utf8 Utf16

/-- What the decoders return, without the warning. -/
def text (decoded : Option Decoded) : Option (List ℕ) := decoded.map Decoded.str_out

/-- Code points without surrogates. -/
def Valid (str : List ℕ) : Prop := ∀ code_point ∈ str, is_valid_codepoint code_point = true

theorem valid_nil : Valid [] := fun _ h => absurd h List.not_mem_nil

variable {str : List ℕ} {previous : Option UInt16} {before : List UInt16}

theorem valid_cons {c : ℕ} :
    Valid (c :: str) ↔ is_valid_codepoint c = true ∧ Valid str := List.forall_mem_cons

theorem valid_append {more : List ℕ} : Valid (str ++ more) ↔ Valid str ∧ Valid more :=
  List.forall_mem_append

/-! ## Encoders -/

theorem encode_eq {α : Type} {unknown : α} {push : ℕ → List α} (h : Valid str) :
    encode unknown push str = ⟨str.flatMap push, true⟩ := by
  induction str with
  | nil => rfl
  | cons c str ih =>
    obtain ⟨hc, hstr⟩ := valid_cons.1 h
    rw [encode, if_pos hc, ih hstr, List.flatMap_cons]

/-! ## UTF-8 -/

/-- A byte that starts a sequence. -/
def startsUtf8 (byte : UInt8) : Prop := is_next_byte byte.toNat = false

theorem text_utf8_to_wide (str : List UInt8) : text (utf8_to_wide str) = some (decode item str) := by
  obtain ⟨d, hd, hout⟩ := utf8_to_wide_eq str
  rw [hd, text, Option.map_some, hout]

theorem decode_wide_to_utf8 (h : Valid str) :
    decode item (wide_to_utf8 str).str_out = str := by
  unfold wide_to_utf8
  rw [encode_eq h]
  refine decode_flatMap fun c hc => ?_
  obtain ⟨byte, tail, hbytes, -, hitem⟩ := item_utf8Bytes (h c hc)
  exact ⟨byte, tail, hbytes, hitem⟩

/-- What is encoded begins with the start of a sequence. -/
theorem starts_wide_to_utf8 {more : List UInt8} (h : Valid str)
    (hmore : ∀ byte ∈ more.head?, startsUtf8 byte) :
    ∀ byte ∈ ((wide_to_utf8 str).str_out ++ more).head?, startsUtf8 byte := by
  unfold wide_to_utf8
  rw [encode_eq h]
  cases str with
  | nil => exact hmore
  | cons c str =>
    obtain ⟨start, tail, hbytes, hstart, -⟩ := item_utf8Bytes (valid_cons.1 h).1
    intro byte hbyte
    dsimp only at hbyte
    rw [List.flatMap_cons, hbytes] at hbyte
    obtain rfl := Option.some.inj hbyte
    exact hstart

/-! ## UTF-16 -/

/-- A unit that is the second half of a surrogate pair. -/
def isSecondSurrogate (token : UInt16) : Prop :=
  HighSurrogateBase ≤ token.toNat ∧ token.toNat < PostSurrogateBase

/-- A first surrogate whose second one has not come. -/
def unpaired (previous : Option UInt16) : List ℕ :=
  if previous.isSome then [UnknownCharacter] else []

/-- The code point of a second surrogate. -/
def paired (previous : Option UInt16) (token : UInt16) : ℕ :=
  match previous with
  | none => UnknownCharacter
  | some first => Utf16Decoder.pair first token

/-- The code points of tokens, behind a first surrogate or not. -/
def tokens (previous : Option UInt16) : List UInt16 → List ℕ
  | [] => unpaired previous
  | token :: rest =>
    if token.toNat < LowSurrogateBase ∨ token.toNat ≥ PostSurrogateBase then
      unpaired previous ++ token.toNat :: tokens none rest
    else if token.toNat < HighSurrogateBase then
      unpaired previous ++ tokens (some token) rest
    else paired previous token :: tokens none rest

theorem tokens_cons (previous : Option UInt16) (token : UInt16) (rest : List UInt16) :
    tokens previous (token :: rest) =
      if token.toNat < LowSurrogateBase ∨ token.toNat ≥ PostSurrogateBase then
        unpaired previous ++ token.toNat :: tokens none rest
      else if token.toNat < HighSurrogateBase then
        unpaired previous ++ tokens (some token) rest
      else paired previous token :: tokens none rest := rfl

/-- **What stands before does not matter**, unless it is half of a pair. -/
theorem tokens_append {after : List UInt16} (h : ∀ token ∈ after.head?, ¬ isSecondSurrogate token) :
    tokens previous (before ++ after) = tokens previous before ++ tokens none after := by
  induction before generalizing previous with
  | nil =>
    cases after with
    | nil => exact (List.append_nil _).symm
    | cons token after =>
      have htoken := h token rfl
      unfold isSecondSurrogate at htoken
      change tokens previous (token :: after) = unpaired previous ++ tokens none (token :: after)
      rw [tokens_cons, tokens_cons]
      split_ifs with hplain hfirst
      · rfl
      · rfl
      · exact absurd ⟨by omega, by omega⟩ htoken
  | cons token before ih =>
    rw [List.cons_append, tokens_cons, tokens_cons, ih, ih]
    split_ifs
    · rw [List.append_assoc, List.cons_append]
    · rw [List.append_assoc]
    · rw [List.cons_append]

theorem valid_unpaired : Valid (unpaired previous) := by
  unfold unpaired
  split
  · exact valid_cons.2 ⟨is_valid_UnknownCharacter, valid_nil⟩
  · exact valid_nil

theorem valid_pair {previous token : UInt16}
    (hprevious : LowSurrogateBase ≤ previous.toNat ∧ previous.toNat < HighSurrogateBase)
    (htoken : isSecondSurrogate token) :
    is_valid_codepoint (Utf16Decoder.pair previous token) = true := by
  rw [is_valid_codepoint_iff]
  unfold isSecondSurrogate at htoken
  unfold Utf16Decoder.pair LastCodePoint SurrogateRangeSize EncodeThresholdSurrogate
  unfold HighSurrogateBase LowSurrogateBase PostSurrogateBase at *
  omega

theorem valid_tokens {str : List UInt16}
    (h : ∀ first ∈ previous, LowSurrogateBase ≤ first.toNat ∧ first.toNat < HighSurrogateBase) :
    Valid (tokens previous str) := by
  have hnone : ∀ first ∈ (none : Option UInt16),
      LowSurrogateBase ≤ first.toNat ∧ first.toNat < HighSurrogateBase := nofun
  induction str generalizing previous with
  | nil => exact valid_unpaired
  | cons token str ih =>
    rw [tokens_cons]
    split_ifs with hplain hfirst
    · refine valid_append.2 ⟨valid_unpaired, valid_cons.2 ⟨?_, ih hnone⟩⟩
      have hlt := token.toNat_lt
      rw [is_valid_codepoint_iff]
      unfold LastCodePoint
      omega
    · refine valid_append.2 ⟨valid_unpaired, ih ?_⟩
      rintro first ⟨⟩
      omega
    · refine valid_cons.2 ⟨?_, ih hnone⟩
      cases previous with
      | none => exact is_valid_UnknownCharacter
      | some first =>
        refine valid_pair (h first rfl) ?_
        unfold isSecondSurrogate
        omega

/-- **The code point comes back.** -/
theorem tokens_utf16Units {c : ℕ} {rest : List UInt16} (h : is_valid_codepoint c = true) :
    tokens none (utf16Units c ++ rest) = c :: tokens none rest := by
  obtain ⟨hlast, hsurrogate⟩ := is_valid_codepoint_iff.1 h
  unfold utf16Units
  split
  · rename_i hone
    have hc : (UInt16.ofNat c).toNat = c := by
      rw [UInt16.toNat_ofNat']
      exact Nat.mod_eq_of_lt hone
    have hplain : c < LowSurrogateBase ∨ c ≥ PostSurrogateBase := by omega
    rw [List.cons_append, tokens_cons, hc, if_pos hplain]
    rfl
  · rename_i htwo
    obtain ⟨tmp, rfl⟩ : ∃ tmp, c = EncodeThresholdSurrogate + tmp :=
      ⟨c - EncodeThresholdSurrogate, by omega⟩
    unfold LastCodePoint EncodeThresholdSurrogate at hlast
    dsimp only
    rw [Nat.add_sub_cancel_left]
    have hsize : SurrogateRangeSize = 1024 := rfl
    have hhigh : (UInt16.ofNat (LowSurrogateBase + tmp / SurrogateRangeSize)).toNat =
        LowSurrogateBase + tmp / SurrogateRangeSize := by
      rw [UInt16.toNat_ofNat', hsize]
      exact Nat.mod_eq_of_lt (by unfold LowSurrogateBase; omega)
    have hlow : (UInt16.ofNat (HighSurrogateBase + tmp % SurrogateRangeSize)).toNat =
        HighSurrogateBase + tmp % SurrogateRangeSize := by
      rw [UInt16.toNat_ofNat', hsize]
      exact Nat.mod_eq_of_lt (by unfold HighSurrogateBase; omega)
    rw [List.cons_append, tokens_cons, hhigh, List.cons_append,
      tokens_cons (some _) (UInt16.ofNat (HighSurrogateBase + tmp % SurrogateRangeSize)), hlow]
    have hpair : paired (some (UInt16.ofNat (LowSurrogateBase + tmp / SurrogateRangeSize)))
        (UInt16.ofNat (HighSurrogateBase + tmp % SurrogateRangeSize)) =
          EncodeThresholdSurrogate + tmp := by
      unfold paired Utf16Decoder.pair
      dsimp only
      rw [hhigh, hlow, Nat.add_sub_cancel_left, Nat.add_sub_cancel_left, Nat.div_add_mod',
        Nat.add_comm]
    have hranges : LowSurrogateBase = 0xd800 ∧ HighSurrogateBase = 0xdc00 ∧
        PostSurrogateBase = 0xe000 := ⟨rfl, rfl, rfl⟩
    have hquotient : tmp / SurrogateRangeSize < 1024 ∧ tmp % SurrogateRangeSize < 1024 := by
      rw [hsize]
      omega
    generalize tmp / SurrogateRangeSize = high at *
    generalize tmp % SurrogateRangeSize = low at *
    rw [if_neg (by omega), if_pos (by omega), if_neg (by omega), if_neg (by omega), hpair]
    rfl

theorem tokens_wide_to_utf16 (h : Valid str) :
    tokens none (wide_to_utf16 str).str_out = str := by
  unfold wide_to_utf16
  rw [encode_eq h]
  induction str with
  | nil => rfl
  | cons c str ih =>
    obtain ⟨hc, hstr⟩ := valid_cons.1 h
    have hrest : tokens none (str.flatMap utf16Units) = str := ih hstr
    dsimp only
    rw [List.flatMap_cons, tokens_utf16Units hc, hrest]

/-- What is encoded does not begin with half of a pair. -/
theorem starts_wide_to_utf16 {more : List UInt16} (h : Valid str)
    (hmore : ∀ token ∈ more.head?, ¬ isSecondSurrogate token) :
    ∀ token ∈ ((wide_to_utf16 str).str_out ++ more).head?, ¬ isSecondSurrogate token := by
  unfold wide_to_utf16
  rw [encode_eq h]
  cases str with
  | nil => exact hmore
  | cons c str =>
    obtain ⟨hlast, hsurrogate⟩ := is_valid_codepoint_iff.1 (valid_cons.1 h).1
    intro token htoken hsecond
    dsimp only at htoken
    rw [List.flatMap_cons, utf16Units] at htoken
    unfold isSecondSurrogate at hsecond
    split at htoken
    · rename_i hone
      obtain rfl := Option.some.inj htoken
      rw [UInt16.toNat_ofNat', Nat.mod_eq_of_lt (show c < 2 ^ 16 from hone)] at hsecond
      unfold HighSurrogateBase LowSurrogateBase at *
      omega
    · obtain rfl := Option.some.inj htoken
      unfold LastCodePoint at hlast
      rw [UInt16.toNat_ofNat', SurrogateRangeSize] at hsecond
      unfold EncodeThresholdSurrogate HighSurrogateBase LowSurrogateBase at *
      omega

/-! ### The decoder -/

theorem bswap_bswap (unit : UInt16) : bswap_u16 (bswap_u16 unit) = unit := by
  have hlt := unit.toNat_lt
  have hswapped : unit.toNat % 256 * 256 + unit.toNat / 256 < 2 ^ 16 := by omega
  have hlow : (unit.toNat % 256 * 256 + unit.toNat / 256) % 256 = unit.toNat / 256 := by omega
  have hhigh : (unit.toNat % 256 * 256 + unit.toNat / 256) / 256 = unit.toNat % 256 := by omega
  rw [← UInt16.toNat_inj]
  unfold bswap_u16
  rw [UInt16.toNat_ofNat', UInt16.toNat_ofNat', Nat.mod_eq_of_lt hswapped, hlow, hhigh,
    Nat.div_add_mod']
  exact Nat.mod_eq_of_lt hlt

namespace Utf16Decoder

variable {s : Utf16Decoder} {unit : UInt16} {i j : ℕ}

theorem fail_str_out : (s.fail i).decoded.str_out = s.decoded.str_out ++ [UnknownCharacter] := by
  unfold fail Decoded.warn Decoded.push_back
  cases s.decoded.warned <;> rfl

theorem expected_str_out :
    (s.expected i).decoded.str_out = s.decoded.str_out ++ unpaired s.previous := by
  unfold expected unpaired
  split
  · exact fail_str_out
  · exact (List.append_nil _).symm

/-- What has been decoded, and what comes. -/
theorem handle_tokens (rest : List UInt16) :
    (s.handle i unit).decoded.str_out ++ tokens (s.handle i unit).previous rest =
      s.decoded.str_out ++ tokens s.previous (unit :: rest) := by
  rw [tokens_cons]
  unfold handle
  split_ifs
  · change (s.expected i).decoded.str_out ++ [unit.toNat] ++ tokens none rest = _
    rw [expected_str_out, List.append_assoc, List.append_assoc]
    rfl
  · change (s.expected i).decoded.str_out ++ tokens (some unit) rest = _
    rw [expected_str_out, List.append_assoc]
  · cases hprevious : s.previous with
    | none =>
      change (s.fail i).decoded.str_out ++ tokens (s.fail i).previous rest = _
      rw [fail_str_out, show (s.fail i).previous = none from hprevious, List.append_assoc]
      rfl
    | some first =>
      change s.decoded.str_out ++ [pair first unit] ++ tokens none rest = _
      rw [List.append_assoc]
      rfl

theorem handle_is_first_token : (s.handle i unit).is_first_token = s.is_first_token := by
  unfold handle expected
  split_ifs <;> try rfl
  cases s.previous <;> rfl

theorem handle_swap_bytes : (s.handle i unit).swap_bytes = s.swap_bytes := by
  unfold handle expected
  split_ifs <;> try rfl
  cases s.previous <;> rfl

/-- The order of the bytes. -/
def order (swap_bytes : Bool) (unit : UInt16) : UInt16 :=
  if swap_bytes then bswap_u16 unit else unit

/-- What is still to come; the first unit may be a byte order mark. -/
def coming (s : Utf16Decoder) : List UInt16 → List ℕ
  | [] => unpaired s.previous
  | unit :: rest =>
    if s.is_first_token ∧ unit = ByteOrderMark then
      tokens s.previous (rest.map (order s.swap_bytes))
    else if s.is_first_token ∧ unit = ByteOrderReversed then
      tokens s.previous (rest.map (order true))
    else tokens s.previous ((unit :: rest).map (order s.swap_bytes))

theorem coming_of_not_first (h : s.is_first_token = false) (rest : List UInt16) :
    s.coming rest = tokens s.previous (rest.map (order s.swap_bytes)) := by
  cases rest with
  | nil => rfl
  | cons unit rest => simp [coming, h]

theorem token_coming (rest : List UInt16) :
    (s.token i unit).decoded.str_out ++ (s.token i unit).coming rest =
      s.decoded.str_out ++ s.coming (unit :: rest) := by
  rw [coming]
  unfold token
  dsimp only
  by_cases hmark : s.is_first_token = true ∧ unit = ByteOrderMark
  · rw [if_pos hmark, if_pos hmark, coming_of_not_first rfl]
  · rw [if_neg hmark, if_neg hmark]
    by_cases hreversed : s.is_first_token = true ∧ unit = ByteOrderReversed
    · rw [if_pos hreversed, if_pos hreversed, coming_of_not_first rfl]
    · rw [if_neg hreversed, if_neg hreversed, coming_of_not_first handle_is_first_token,
        handle_tokens, handle_swap_bytes]
      rfl

end Utf16Decoder

/-- **The decoder is total**: the first unit says in which order the bytes of the others are. -/
theorem text_utf16_to_wide (str : List UInt16) :
    text (utf16_to_wide str) = some (Utf16Decoder.coming ⟨.empty, false, none, true⟩ str) := by
  have hbody : ∀ (i : ℕ) (s : Utf16Decoder) (unit : UInt16) (rest : List UInt16),
      str.drop i = unit :: rest →
      ∃ (n : ℕ) (s' : Utf16Decoder),
        str[i]?.map (fun unit => (i, s.token i unit)) = some (i + n, s') ∧
          s'.decoded.str_out ++ s'.coming (rest.drop n) =
            s.decoded.str_out ++ s.coming (unit :: rest) := by
    intro i s unit rest hdrop
    refine ⟨0, s.token i unit, ?_, Utf16Decoder.token_coming rest⟩
    have hunit : str[i]? = some unit := by
      rw [← Nat.add_zero i, ← List.getElem?_drop, hdrop]
      rfl
    rw [hunit]
    rfl
  obtain ⟨s, hscan, hvalue⟩ := scan_value
    (fun (s : Utf16Decoder) rest => s.decoded.str_out ++ s.coming rest) hbody
    ⟨.empty, false, none, true⟩ (Nat.le_of_eq (Nat.zero_add _).symm)
  unfold utf16_to_wide text
  rw [hscan, Option.map_some, Option.map_some, Utf16Decoder.expected_str_out]
  exact congrArg some hvalue

/-! ## UCS-2 -/

/-- A unit on its own. -/
def ucs2Token (unit : UInt16) : ℕ :=
  if is_valid_codepoint unit.toNat then unit.toNat else UnknownCharacter

theorem text_ucs2_to_wide (str : List UInt16) :
    text (ucs2_to_wide str) = some (str.map ucs2Token) := by
  have hbody : ∀ (i : ℕ) (d : Decoded) (unit : UInt16) (rest : List UInt16),
      str.drop i = unit :: rest →
      ∃ (n : ℕ) (d' : Decoded),
        str[i]?.map (fun unit => (i, if is_valid_codepoint unit.toNat then d.push_back unit.toNat
          else (d.warn i).push_back UnknownCharacter)) = some (i + n, d') ∧
          d'.str_out ++ (rest.drop n).map ucs2Token =
            d.str_out ++ (unit :: rest).map ucs2Token := by
    intro i d unit rest hdrop
    have hunit : str[i]? = some unit := by
      rw [← Nat.add_zero i, ← List.getElem?_drop, hdrop]
      rfl
    rw [hunit]
    refine ⟨0, _, rfl, ?_⟩
    rw [List.drop_zero, List.map_cons, ucs2Token]
    split
    · exact List.append_assoc _ _ _
    · unfold Decoded.warn Decoded.push_back
      split <;> exact List.append_assoc _ _ _
  obtain ⟨d, hscan, hvalue⟩ := scan_value
    (fun (d : Decoded) rest => d.str_out ++ rest.map ucs2Token) hbody .empty
    (Nat.le_of_eq (Nat.zero_add _).symm)
  unfold ucs2_to_wide text
  rw [hscan, Option.map_some]
  exact congrArg some ((List.append_nil _).symm.trans hvalue)

theorem valid_ucs2 (str : List UInt16) : Valid (str.map ucs2Token) := by
  intro c hc
  obtain ⟨unit, -, rfl⟩ := List.mem_map.1 hc
  unfold ucs2Token
  split
  · assumption
  · exact is_valid_UnknownCharacter

theorem map_wide_to_ucs2 (h : Valid str) (hsmall : ∀ c ∈ str, c ≤ 0xffff) :
    (wide_to_ucs2 str).str_out.map ucs2Token = str := by
  unfold wide_to_ucs2
  rw [encode_eq h]
  dsimp only
  rw [List.map_flatMap]
  induction str with
  | nil => rfl
  | cons c str ih =>
    obtain ⟨hc, hstr⟩ := valid_cons.1 h
    obtain ⟨hle, hrest⟩ := List.forall_mem_cons.1 hsmall
    have hunit : (UInt16.ofNat c).toNat = c := by
      rw [UInt16.toNat_ofNat']
      omega
    rw [List.flatMap_cons, ih hstr hrest, ucs2Units, if_neg (Nat.not_lt.2 hle), List.map_singleton,
      ucs2Token, hunit, if_pos hc]
    rfl

/-! ## All encodings -/

theorem utf8_resumes (h : Valid str) (before after : List UInt8)
    (hafter : ∀ byte ∈ after.head?, startsUtf8 byte) :
    decode item (before ++ (wide_to_utf8 str).str_out ++ after) =
      decode item before ++ str ++ decode item after := by
  rw [List.append_assoc, local_item.decode_append (starts_wide_to_utf8 h hafter),
    local_item.decode_append hafter, decode_wide_to_utf8 h, List.append_assoc]

/-- The byte order of a text, as its first unit says. -/
def swapped (str : List UInt16) : Bool := decide (str.head? = some ByteOrderReversed)

/-- The text without the byte order mark. -/
def payload (str : List UInt16) : List UInt16 :=
  if str.head? = some ByteOrderMark ∨ swapped str then str.tail else str

/-- The decoder, from the front of a text. -/
def decodeUtf16 (str : List UInt16) : List ℕ :=
  tokens none ((payload str).map (Utf16Decoder.order (swapped str)))

theorem coming_eq (str : List UInt16) :
    Utf16Decoder.coming ⟨.empty, false, none, true⟩ str = decodeUtf16 str := by
  cases str with
  | nil => rfl
  | cons unit rest =>
    rw [Utf16Decoder.coming, decodeUtf16, payload, swapped]
    by_cases hmark : unit = ByteOrderMark
    · subst hmark
      rfl
    · by_cases hreversed : unit = ByteOrderReversed
      · subst hreversed
        rfl
      · simp [hmark, hreversed]

theorem swapped_append (hne : before ≠ []) (more : List UInt16) :
    swapped (before ++ more) = swapped before := by
  rw [swapped, swapped, List.head?_append_of_ne_nil _ hne]

theorem payload_append (hne : before ≠ []) (more : List UInt16) :
    payload (before ++ more) = payload before ++ more := by
  rw [payload, payload, swapped_append hne, List.head?_append_of_ne_nil _ hne,
    List.tail_append_of_ne_nil hne, apply_ite (· ++ more)]

theorem map_order_map_order {b : Bool} {str : List UInt16} :
    (str.map (Utf16Decoder.order b)).map (Utf16Decoder.order b) = str := by
  rw [List.map_map]
  refine List.map_id'' ?_ str
  intro unit
  cases b with
  | false => rfl
  | true => exact bswap_bswap unit

/-- The mark of a byte order. -/
def mark (swap_bytes : Bool) : UInt16 := if swap_bytes then ByteOrderReversed else ByteOrderMark

theorem decodeUtf16_mark (b : Bool) (str : List UInt16) :
    decodeUtf16 (mark b :: str) = tokens none (str.map (Utf16Decoder.order b)) := by
  cases b <;> rfl

/-- What follows something is read in its byte order. -/
theorem utf16_resumes (h : Valid str) (hne : before ≠ []) (after : List UInt16)
    (hafter : ∀ unit ∈ after.head?, ¬ isSecondSurrogate (Utf16Decoder.order (swapped before) unit))
    :
    decodeUtf16 (before ++ (wide_to_utf16 str).str_out.map (Utf16Decoder.order (swapped before)) ++
        after) =
      decodeUtf16 before ++ str ++ decodeUtf16 (mark (swapped before) :: after) := by
  have hmore : ∀ token ∈ (after.map (Utf16Decoder.order (swapped before))).head?,
      ¬ isSecondSurrogate token := by
    intro token htoken
    rw [List.head?_map] at htoken
    obtain ⟨unit, hunit, rfl⟩ := Option.map_eq_some_iff.1 htoken
    exact hafter unit hunit
  rw [List.append_assoc, decodeUtf16_mark, decodeUtf16, swapped_append hne, payload_append hne,
    List.map_append, List.map_append, map_order_map_order,
    tokens_append (starts_wide_to_utf16 h hmore), tokens_append hmore, tokens_wide_to_utf16 h,
    List.append_assoc]
  rfl

/-- Only a byte order mark is encoded as one. -/
theorem head_wide_to_utf16 {unit : UInt16} (h : Valid str) (hunit : PostSurrogateBase ≤ unit.toNat)
    (hhead : (wide_to_utf16 str).str_out.head? = some unit) : str.head? = some unit.toNat := by
  unfold wide_to_utf16 at hhead
  rw [encode_eq h] at hhead
  cases str with
  | nil => cases hhead
  | cons c str =>
    have hlast := (is_valid_codepoint_iff.1 (valid_cons.1 h).1).1
    dsimp only at hhead
    rw [List.flatMap_cons, utf16Units] at hhead
    split at hhead
    · rename_i hone
      obtain rfl := Option.some.inj hhead
      rw [UInt16.toNat_ofNat', Nat.mod_eq_of_lt (show c < 2 ^ 16 from hone)]
      rfl
    · obtain rfl := Option.some.inj hhead
      unfold LastCodePoint at hlast
      rw [UInt16.toNat_ofNat', SurrogateRangeSize] at hunit
      unfold EncodeThresholdSurrogate HighSurrogateBase LowSurrogateBase PostSurrogateBase at *
      omega

theorem decodeUtf16_wide_to_utf16 (h : Valid str) (hmark : str.head? ≠ some 0xfeff)
    (hreversed : str.head? ≠ some 0xfffe) :
    decodeUtf16 (wide_to_utf16 str).str_out = str := by
  have hplain : (wide_to_utf16 str).str_out.head? ≠ some ByteOrderMark := fun hhead =>
    hmark (head_wide_to_utf16 h (by decide) hhead)
  have horder : swapped (wide_to_utf16 str).str_out = false := decide_eq_false fun hhead =>
    hreversed (head_wide_to_utf16 h (by decide) hhead)
  rw [decodeUtf16, payload, horder, if_neg (not_or.2 ⟨hplain, Bool.false_ne_true⟩)]
  exact (congrArg (tokens none) (List.map_id _)).trans (tokens_wide_to_utf16 h)

theorem valid_decodeUtf16 (str : List UInt16) : Valid (decodeUtf16 str) := valid_tokens nofun

/-- **Transcoding**: what is encoded comes back; whatever is decoded is valid, so that it can be
encoded; and what stands before a well-formed text, or behind it, does not matter to it. -/
theorem transcoding :
    ((∀ str, Valid str → text (utf8_to_wide (wide_to_utf8 str).str_out) = some str) ∧
      (∀ bytes, ∃ str, text (utf8_to_wide bytes) = some str ∧ Valid str) ∧
      ∀ before str after, Valid str → (∀ byte ∈ after.head?, startsUtf8 byte) →
        ∃ l r, text (utf8_to_wide before) = some l ∧ text (utf8_to_wide after) = some r ∧
          text (utf8_to_wide (before ++ (wide_to_utf8 str).str_out ++ after)) =
            some (l ++ str ++ r)) ∧
    ((∀ str, Valid str → str.head? ≠ some 0xfeff → str.head? ≠ some 0xfffe →
        text (utf16_to_wide (wide_to_utf16 str).str_out) = some str) ∧
      (∀ str, Valid str → text (utf16_to_wide
        (ByteOrderReversed :: (wide_to_utf16 str).str_out.map bswap_u16)) = some str) ∧
      (∀ units, ∃ str, text (utf16_to_wide units) = some str ∧ Valid str) ∧
      ∀ before str after, before ≠ [] → Valid str →
        (∀ unit ∈ after.head?,
          ¬ isSecondSurrogate (Utf16Decoder.order (swapped before) unit)) →
        ∃ l r, text (utf16_to_wide before) = some l ∧
          text (utf16_to_wide (mark (swapped before) :: after)) = some r ∧
          text (utf16_to_wide (before ++
            (wide_to_utf16 str).str_out.map (Utf16Decoder.order (swapped before)) ++ after)) =
              some (l ++ str ++ r)) ∧
    ((∀ units, ∃ str, text (ucs2_to_wide units) = some str ∧ Valid str) ∧
      ∀ before str after, Valid str → (∀ c ∈ str, c ≤ 0xffff) →
        ∃ l r, text (ucs2_to_wide before) = some l ∧ text (ucs2_to_wide after) = some r ∧
          text (ucs2_to_wide (before ++ (wide_to_ucs2 str).str_out ++ after)) =
            some (l ++ str ++ r)) ∧
    ∀ str, Valid str →
      (wide_to_utf8 str).asserted ∧ (wide_to_utf16 str).asserted ∧ (wide_to_ucs2 str).asserted := by
  have hutf16 : ∀ str, text (utf16_to_wide str) = some (decodeUtf16 str) := fun str =>
    (text_utf16_to_wide str).trans (congrArg some (coming_eq str))
  refine ⟨⟨?_, ?_, ?_⟩, ⟨?_, ?_, ?_, ?_⟩, ⟨?_, ?_⟩, ?_⟩
  · intro str h
    rw [text_utf8_to_wide, decode_wide_to_utf8 h]
  · intro bytes
    exact ⟨_, text_utf8_to_wide bytes, forall_mem_decode fun _ _ => Sequence.result_valid⟩
  · intro before str after h hafter
    refine ⟨_, _, text_utf8_to_wide before, text_utf8_to_wide after, ?_⟩
    rw [text_utf8_to_wide, utf8_resumes h before after hafter]
  · intro str h hmark hreversed
    rw [hutf16, decodeUtf16_wide_to_utf16 h hmark hreversed]
  · intro str h
    have hswap : decodeUtf16 (mark true :: (wide_to_utf16 str).str_out.map
        (Utf16Decoder.order true)) = str := by
      rw [decodeUtf16_mark, map_order_map_order, tokens_wide_to_utf16 h]
    exact (hutf16 _).trans (congrArg some hswap)
  · intro units
    exact ⟨_, hutf16 units, valid_decodeUtf16 units⟩
  · intro before str after hne h hafter
    refine ⟨_, _, hutf16 before, hutf16 _, ?_⟩
    rw [hutf16, utf16_resumes h hne after hafter]
  · intro units
    exact ⟨_, text_ucs2_to_wide units, valid_ucs2 units⟩
  · intro before str after h hsmall
    refine ⟨_, _, text_ucs2_to_wide before, text_ucs2_to_wide after, ?_⟩
    rw [text_ucs2_to_wide, List.map_append, List.map_append, map_wide_to_ucs2 h hsmall]
  · intro str h
    unfold wide_to_utf8 wide_to_utf16 wide_to_ucs2
    rw [encode_eq h, encode_eq h, encode_eq h]
    exact ⟨rfl, rfl, rfl⟩

end Unicode

end AugraDosbox
