import Gostman.Binary.Item
/-!
# Texts through bytes

What `TextDecoder` gives back of the bytes `TextEncoder` gives: the text
without a byte order mark at its start.  Of fewer bytes it gives fewer
characters.
-/

namespace Gostman.Binary

open Gostman.Lib

def byteOrderMark : Char := '\uFEFF'

theorem encodeChar_byteOrderMark :
    String.utf8EncodeChar byteOrderMark = [0xEF, 0xBB, 0xBF] := by
  decide

/-- A character in front of bytes is the first character of their text. -/
theorem utf8Text_encodeChar (c : Char) (bytes : Bytes) :
    utf8Text (String.utf8EncodeChar c ++ bytes) = c :: utf8Text bytes := by
  cases hbytes : String.utf8EncodeChar c with
  | nil => exact absurd hbytes (encodeChar_ne_nil c)
  | cons b rest =>
    have hlength : c.utf8Size = rest.length + 1 := by
      rw [← String.length_utf8EncodeChar, hbytes, List.length_cons]
    have hdecode := decodeRune_encodeChar c bytes
    rw [hbytes, List.cons_append] at hdecode
    rw [List.cons_append, utf8Text, hdecode]
    simp only [hlength, Nat.add_sub_cancel, List.drop_left]

theorem utf8Text_encode (text : Text) : utf8Text (encode text) = text := by
  induction text with
  | nil => rw [encode_nil, utf8Text]
  | cons c text ih => rw [encode_cons, utf8Text_encodeChar, ih]

def unmarked (text : Text) : Text :=
  match text with
  | [] => []
  | c :: rest => if c = byteOrderMark then rest else c :: rest

/-- Where the bytes of a text begin with those of the mark, the rest are those
of the text without it. -/
theorem drop_mark_encode (text : Text) :
    (if ([0xEF, 0xBB, 0xBF] : Bytes) <+: encode text then (encode text).drop 3 else encode text) =
      encode (unmarked text) := by
  have hmark : ([0xEF, 0xBB, 0xBF] : Bytes) = encode [byteOrderMark] := by
    rw [encode_cons, encodeChar_byteOrderMark, encode_nil, List.append_nil]
  rw [hmark]
  cases text with
  | nil =>
    rw [if_neg (by rw [encode_isPrefix_iff]; simp)]
    rfl
  | cons c rest =>
    by_cases hc : c = byteOrderMark
    · subst hc
      have hstart : encode [byteOrderMark] <+: encode (byteOrderMark :: rest) :=
        encode_isPrefix_iff.2 ⟨rest, rfl⟩
      rw [if_pos hstart, encode_cons, encodeChar_byteOrderMark, unmarked, if_pos rfl]
      rfl
    · have hnot : ¬ [byteOrderMark] <+: c :: rest := by
        intro h
        exact hc (List.cons_prefix_cons.1 h).1.symm
      rw [if_neg (fun h => hnot (encode_isPrefix_iff.1 h)), unmarked, if_neg hc]

theorem decodeText_encode (text : Text) : decodeText (encode text) = unmarked text := by
  rw [decodeText, ← apply_ite utf8Text, drop_mark_encode, utf8Text_encode]

theorem unmarked_eq_self {text : Text} :
    unmarked text = text ↔ text.head? ≠ some byteOrderMark := by
  cases text with
  | nil => simp [unmarked]
  | cons c rest =>
    by_cases hc : c = byteOrderMark
    · simp [unmarked, hc]
    · simp [unmarked, hc]

/-! ## Fewer bytes -/

theorem length_utf8Text_le (bytes : Bytes) : (utf8Text bytes).length ≤ bytes.length := by
  fun_induction utf8Text bytes with
  | case1 => exact Nat.le_refl 0
  | case2 b rest c h ih =>
    rw [List.length_drop] at ih
    rw [List.length_cons, List.length_cons]
    omega
  | case3 b rest h ih =>
    rw [List.length_drop] at ih
    rw [List.length_cons, List.length_cons]
    omega

theorem length_decodeText_le (bytes : Bytes) :
    (decodeText bytes).length ≤ (utf8Text bytes).length := by
  unfold decodeText
  split
  case isTrue h =>
    obtain ⟨rest, rfl⟩ := h
    rw [← encodeChar_byteOrderMark, utf8Text_encodeChar, List.length_cons, encodeChar_byteOrderMark]
    exact Nat.le_succ _
  case isFalse => exact Nat.le_refl _

theorem length_encode_le (text : Text) : (encode text).length ≤ 4 * text.length := by
  induction text with
  | nil => exact Nat.le_refl 0
  | cons c text ih =>
    have hsize := c.utf8Size_le_four
    rw [encode_cons, List.length_append, String.length_utf8EncodeChar, List.length_cons]
    omega

/-- Without its last characters the bytes of a text do not give the text. -/
theorem length_utf8Text_take_lt (text : Text) {count : Nat}
    (h : count + 16 ≤ (encode text).length) :
    (utf8Text ((encode text).take count)).length < text.length := by
  induction text generalizing count with
  | nil =>
    rw [encode_nil, List.length_nil] at h
    omega
  | cons c text ih =>
    by_cases hcount : c.utf8Size ≤ count
    · rw [encode_cons, List.length_append, String.length_utf8EncodeChar] at h
      have hlength : (String.utf8EncodeChar c).length ≤ count := by
        rw [String.length_utf8EncodeChar]
        exact hcount
      rw [encode_cons, List.take_append, List.take_of_length_le hlength, utf8Text_encodeChar,
        String.length_utf8EncodeChar, List.length_cons, List.length_cons]
      exact Nat.succ_lt_succ (ih (by omega))
    · -- what is left of the first character is at most three bytes
      have hfew := length_utf8Text_le ((encode (c :: text)).take count)
      have hmany := length_encode_le (c :: text)
      have hsize := c.utf8Size_le_four
      rw [List.length_take] at hfew
      omega

theorem decodeText_take_ne {text : Text} {count : Nat} (h : count + 16 ≤ (encode text).length) :
    decodeText ((encode text).take count) ≠ text := by
  intro heq
  have hlt := length_utf8Text_take_lt text h
  have hle := length_decodeText_le ((encode text).take count)
  rw [heq] at hle
  omega

end Gostman.Binary
