import Mathlib.Data.List.Basic
/-!
# UTF-8 as lists of bytes

What byte-wise code over UTF-8 needs: a character below 128 is its own byte,
the bytes of every other character are 128 or more, and what stands in front
of a byte string that starts with an encoded character is that character.
-/

namespace Gostman.Lib

-- Named, so that a membership test means the same in every module.
instance lawfulChars : LawfulBEq (List Char) := inferInstance

instance lawfulBytes : LawfulBEq (List UInt8) := inferInstance

abbrev Bytes := List UInt8

def encode (text : List Char) : Bytes :=
  text.flatMap String.utf8EncodeChar

/-- The character a byte string starts with, if it starts with a well-formed
one. -/
def decodeRune (bytes : Bytes) : Option Char :=
  bytes.toByteArray.utf8DecodeChar? 0

@[simp] theorem encode_nil : encode [] = [] := rfl

@[simp] theorem encode_cons (c : Char) (text : List Char) :
    encode (c :: text) = String.utf8EncodeChar c ++ encode text := rfl

@[simp] theorem encode_append (text rest : List Char) :
    encode (text ++ rest) = encode text ++ encode rest :=
  List.flatMap_append

theorem toNat_ofNat_ascii {n : Nat} (h : n < 128) : (UInt8.ofNat n).toNat = n :=
  UInt8.toNat_ofNat_of_lt' (Nat.lt_trans h (by decide))

theorem encodeChar_of_ascii {c : Char} (h : c.toNat < 128) :
    String.utf8EncodeChar c = [UInt8.ofNat c.toNat] := by
  have hle : c.val.toNat ≤ 0x7f := Nat.le_of_lt_succ h
  unfold String.utf8EncodeChar
  rw [if_pos hle]
  rfl

/-- The bytes of a character beyond ASCII are beyond ASCII. -/
theorem le_of_mem_encodeChar {c : Char} (h : 128 ≤ c.toNat) {b : UInt8}
    (hb : b ∈ String.utf8EncodeChar c) : 128 ≤ b.toNat := by
  have hgt : ¬ c.val.toNat ≤ 0x7f := Nat.not_le_of_lt h
  have hbyte : ∀ low top : Nat, low < 64 → 128 ≤ top → low + top < 256 →
      128 ≤ (UInt8.ofNat (low + top)).toNat := by
    intro low top _ htop hlt
    rw [UInt8.toNat_ofNat_of_lt' hlt]
    omega
  simp only [String.utf8EncodeChar, if_neg hgt] at hb
  split at hb
  · simp only [List.mem_cons, List.not_mem_nil, or_false] at hb
    rcases hb with rfl | rfl <;> apply hbyte <;> omega
  split at hb
  · simp only [List.mem_cons, List.not_mem_nil, or_false] at hb
    rcases hb with rfl | rfl | rfl <;> apply hbyte <;> omega
  · simp only [List.mem_cons, List.not_mem_nil, or_false] at hb
    rcases hb with rfl | rfl | rfl | rfl <;> apply hbyte <;> omega

theorem encodeChar_ne_nil (c : Char) : String.utf8EncodeChar c ≠ [] := by
  have hpos := c.utf8Size_pos
  rw [← String.length_utf8EncodeChar] at hpos
  exact List.ne_nil_of_length_pos hpos

theorem decodeRune_encodeChar (c : Char) (rest : Bytes) :
    decodeRune (String.utf8EncodeChar c ++ rest) = some c := by
  unfold decodeRune
  rw [List.toByteArray_append]
  exact ByteArray.utf8DecodeChar?_utf8EncodeChar_append

/-- No encoded character is the start of another. -/
theorem encodeChar_append_inj {c d : Char} {rest rest' : Bytes}
    (h : String.utf8EncodeChar c ++ rest = String.utf8EncodeChar d ++ rest') :
    c = d ∧ rest = rest' := by
  have hdecode := congrArg decodeRune h
  rw [decodeRune_encodeChar, decodeRune_encodeChar] at hdecode
  obtain rfl := Option.some.inj hdecode
  exact ⟨rfl, List.append_cancel_left h⟩

theorem encode_eq_nil {text : List Char} (h : encode text = []) : text = [] := by
  cases text with
  | nil => rfl
  | cons c rest =>
    rw [encode_cons] at h
    exact absurd (List.append_eq_nil_iff.1 h).1 (encodeChar_ne_nil c)

theorem encode_injective : Function.Injective encode := by
  intro text other h
  induction text generalizing other with
  | nil => exact (encode_eq_nil h.symm).symm
  | cons c rest ih =>
    cases other with
    | nil => exact encode_eq_nil h
    | cons d rest' =>
      obtain ⟨rfl, hrest⟩ := encodeChar_append_inj h
      rw [ih hrest]

/-- What is encoded starts with an encoded text exactly when the text does. -/
theorem encode_isPrefix_iff {lead text : List Char} :
    encode lead <+: encode text ↔ lead <+: text := by
  constructor
  · intro h
    induction lead generalizing text with
    | nil => exact List.nil_prefix
    | cons c lead ih =>
      obtain ⟨rest, hrest⟩ := h
      rw [encode_cons, List.append_assoc] at hrest
      cases text with
      | nil => exact absurd (List.append_eq_nil_iff.1 hrest).1 (encodeChar_ne_nil c)
      | cons d text =>
        obtain ⟨rfl, htail⟩ := encodeChar_append_inj hrest
        exact List.cons_prefix_cons.2 ⟨rfl, ih ⟨rest, htail⟩⟩
  · rintro ⟨rest, rfl⟩
    exact ⟨encode rest, (encode_append lead rest).symm⟩

section Ascii

variable {a : Char}

theorem encode_ascii_cons (h : a.toNat < 128) (text : List Char) :
    encode (a :: text) = UInt8.ofNat a.toNat :: encode text := by
  rw [encode_cons, encodeChar_of_ascii h, List.singleton_append]

/-- An ASCII byte stands only for its own character. -/
theorem ofNat_mem_encodeChar (h : a.toNat < 128) {c : Char}
    (hmem : UInt8.ofNat a.toNat ∈ String.utf8EncodeChar c) : c = a := by
  by_cases hc : c.toNat < 128
  · rw [encodeChar_of_ascii hc, List.mem_singleton] at hmem
    have hnat := congrArg UInt8.toNat hmem
    rw [toNat_ofNat_ascii h, toNat_ofNat_ascii hc] at hnat
    exact (Char.toNat_inj.1 hnat).symm
  · have hge := le_of_mem_encodeChar (Nat.le_of_not_lt hc) hmem
    rw [toNat_ofNat_ascii h] at hge
    omega

theorem ofNat_mem_encode (h : a.toNat < 128) (text : List Char) :
    UInt8.ofNat a.toNat ∈ encode text ↔ a ∈ text := by
  unfold encode
  rw [List.mem_flatMap]
  constructor
  · rintro ⟨c, hc, hmem⟩
    rw [← ofNat_mem_encodeChar h hmem]
    exact hc
  · intro hmem
    refine ⟨a, hmem, ?_⟩
    rw [encodeChar_of_ascii h]
    exact List.mem_singleton_self _

/-- Reading bytes up to an ASCII byte is reading characters up to that
character. -/
theorem takeWhile_encode (h : a.toNat < 128) (text : List Char) :
    (encode text).takeWhile (· ≠ UInt8.ofNat a.toNat) = encode (text.takeWhile (· ≠ a)) := by
  induction text with
  | nil => rfl
  | cons c text ih =>
    by_cases hc : c = a
    · subst hc
      rw [encode_ascii_cons h]
      simp
    · have hbytes : ∀ b ∈ String.utf8EncodeChar c, decide (b ≠ UInt8.ofNat a.toNat) = true := by
        rintro b hb
        refine decide_eq_true ?_
        rintro rfl
        exact hc (ofNat_mem_encodeChar h hb)
      have hchar : (c :: text).takeWhile (· ≠ a) = c :: text.takeWhile (· ≠ a) :=
        List.takeWhile_cons_of_pos (decide_eq_true hc)
      rw [encode_cons, List.takeWhile_append_of_pos hbytes, ih, hchar, encode_cons]

theorem dropWhile_encode (h : a.toNat < 128) (text : List Char) :
    (encode text).dropWhile (· ≠ UInt8.ofNat a.toNat) = encode (text.dropWhile (· ≠ a)) := by
  have htext : encode text = encode (text.takeWhile (· ≠ a)) ++ encode (text.dropWhile (· ≠ a)) := by
    rw [← encode_append, List.takeWhile_append_dropWhile]
  have hbytes := List.takeWhile_append_dropWhile (p := (· ≠ UInt8.ofNat a.toNat)) (l := encode text)
  rw [takeWhile_encode h] at hbytes
  exact List.append_cancel_left (hbytes.trans htext)

end Ascii

end Gostman.Lib
