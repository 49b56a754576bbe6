import Gostman.Lib.Percent
import Gostman.Lib.Utf16
/-!
# URI components

`encodeURIComponent` and `decodeURIComponent` on the units of UTF-16, which
fail on a surrogate that stands alone and on octets that are not UTF-8.
-/

namespace Gostman.Lib.UriComponent

open Percent

/-- The bytes that are written as they are: letters, digits and `-_.!~*'()`. -/
def unreserved (b : UInt8) : Bool :=
  let n := b.toNat
  (0x30 ≤ n && n ≤ 0x39) || (0x41 ≤ n && n ≤ 0x5A) || (0x61 ≤ n && n ≤ 0x7A) ||
    n ∈ [0x2D, 0x5F, 0x2E, 0x21, 0x7E, 0x2A, 0x27, 0x28, 0x29]

def ofBytes (bytes : Bytes) : List UInt16 :=
  bytes.map UInt8.toUInt16

def percent : UInt16 := 0x25

def encodeURIComponent (text : List UInt16) : Option (List UInt16) :=
  if WellFormed text then some (ofBytes (escape unreserved (encode (scalars text)))) else none

def digit (u : UInt16) : Option Nat :=
  if u.toNat < 128 then digitValue u.toUInt8 else none

def octets : List UInt16 → Bytes
  | mark :: high :: low :: rest =>
      match digit high, digit low with
      | some h, some l => if mark = percent then UInt8.ofNat (h * 16 + l) :: octets rest else []
      | _, _ => []
  | _ => []

/-- The text behind so many units of a character that was read. -/
def decodeFrom : Nat → List UInt16 → Option (List UInt16)
  | _, [] => some []
  | skip + 1, _ :: rest => decodeFrom skip rest
  | 0, u :: rest =>
      if u = percent then
        match decodeRune (octets (u :: rest)) with
        | some c => (decodeFrom (3 * c.utf8Size - 1) rest).map (utf16Char c ++ ·)
        | none => none
      else (decodeFrom 0 rest).map (u :: ·)

def decodeURIComponent (text : List UInt16) : Option (List UInt16) :=
  decodeFrom 0 text

@[simp] theorem ofBytes_append (first second : Bytes) : ofBytes (first ++ second) = ofBytes first ++ ofBytes second :=
  List.map_append

theorem decodeFrom_eq (skip : Nat) (text : List UInt16) : decodeFrom skip text = decodeURIComponent (text.drop skip) := by
  induction text generalizing skip with
  | nil => rw [List.drop_nil]; cases skip <;> rfl
  | cons u rest ih =>
    cases skip with
    | zero => rfl
    | succ skip => rw [decodeFrom, ih, List.drop_succ_cons]

theorem decode_unit {u : UInt16} (h : u ≠ percent) (rest : List UInt16) :
    decodeURIComponent (u :: rest) = (decodeURIComponent rest).map (u :: ·) := by
  rw [decodeURIComponent, decodeFrom, if_neg h]
  rfl

/-! ## Written octets -/

def octet (b : UInt8) : List UInt16 :=
  [percent, (hexDigit (b.toNat / 16)).toUInt16, (hexDigit (b.toNat % 16)).toUInt16]

theorem digit_hexDigit {n : Nat} (h : n < 16) : digit (hexDigit n).toUInt16 = some n := by
  have hall : ∀ m : Fin 16, digit (hexDigit m.val).toUInt16 = some m.val := by decide
  exact hall ⟨n, h⟩

theorem octets_octet (b : UInt8) (rest : List UInt16) : octets (octet b ++ rest) = b :: octets rest := by
  have hbyte : b.toNat < 256 := b.toNat_lt
  have hsum : UInt8.ofNat (b.toNat / 16 * 16 + b.toNat % 16) = b := by
    rw [Nat.div_add_mod']
    exact UInt8.ofNat_toNat
  unfold octet
  simp only [List.cons_append, List.nil_append]
  rw [octets, digit_hexDigit (by omega), digit_hexDigit (by omega)]
  dsimp only
  rw [if_pos rfl, hsum]

theorem octets_flatMap_octet (bytes : Bytes) (rest : List UInt16) :
    octets (bytes.flatMap octet ++ rest) = bytes ++ octets rest := by
  induction bytes with
  | nil => rfl
  | cons b bytes ih => rw [List.flatMap_cons, List.append_assoc, octets_octet, ih, List.cons_append]

theorem length_flatMap_octet (bytes : Bytes) : (bytes.flatMap octet).length = 3 * bytes.length := by
  induction bytes with
  | nil => rfl
  | cons b bytes ih =>
    rw [List.flatMap_cons, List.length_append, ih, List.length_cons]
    change 3 + 3 * bytes.length = _
    omega

/-- The octets of a character are read as the character. -/
theorem decode_octets (c : Char) (rest : List UInt16) :
    decodeURIComponent ((String.utf8EncodeChar c).flatMap octet ++ rest) =
      (decodeURIComponent rest).map (utf16Char c ++ ·) := by
  have hlength := length_flatMap_octet (String.utf8EncodeChar c)
  rw [String.length_utf8EncodeChar] at hlength
  have hrune : decodeRune (octets ((String.utf8EncodeChar c).flatMap octet ++ rest)) = some c := by
    rw [octets_flatMap_octet, decodeRune_encodeChar]
  obtain ⟨first, others, hcode⟩ := List.exists_cons_of_ne_nil (encodeChar_ne_nil c)
  have hhead : (String.utf8EncodeChar c).flatMap octet = percent :: ((String.utf8EncodeChar c).flatMap octet).tail := by
    rw [hcode]
    rfl
  have htail : ((String.utf8EncodeChar c).flatMap octet).tail.length = 3 * c.utf8Size - 1 := by
    rw [List.length_tail, hlength]
  rw [hhead, List.cons_append] at hrune ⊢
  rw [decodeURIComponent, decodeFrom, if_pos rfl, hrune]
  dsimp only
  rw [decodeFrom_eq, ← htail, List.drop_left]

/-! ## Written texts -/

theorem ofBytes_escape {bytes : Bytes} (h : ∀ b ∈ bytes, unreserved b = false) :
    ofBytes (escape unreserved bytes) = bytes.flatMap octet := by
  induction bytes with
  | nil => rfl
  | cons b bytes ih =>
    have hb : escapeByte unreserved b = [mark, hexDigit (b.toNat / 16), hexDigit (b.toNat % 16)] := by
      unfold escapeByte
      rw [h b List.mem_cons_self]
      rfl
    unfold escape at ih ⊢
    rw [List.flatMap_cons, hb, ofBytes_append, ih fun other hmem => h other (List.mem_cons_of_mem _ hmem)]
    rfl

theorem lt_of_unreserved {b : UInt8} (h : unreserved b = true) : b.toNat < 128 := by
  unfold unreserved at h
  simp only [Bool.or_eq_true, Bool.and_eq_true, decide_eq_true_eq, List.mem_cons, List.not_mem_nil, or_false] at h
  omega

theorem decode_escape_char (c : Char) (rest : List UInt16) :
    decodeURIComponent (ofBytes (escape unreserved (String.utf8EncodeChar c)) ++ rest) =
      (decodeURIComponent rest).map (utf16Char c ++ ·) := by
  rcases Nat.lt_or_ge c.toNat 128 with hascii | hother
  · have hcode := encodeChar_of_ascii hascii
    cases hkeep : unreserved (UInt8.ofNat c.toNat) with
    | true =>
      have hescape : escape unreserved (String.utf8EncodeChar c) = [UInt8.ofNat c.toNat] := by
        rw [hcode, escape, List.flatMap_singleton, escapeByte, if_pos hkeep]
      have hbyte : (UInt8.ofNat c.toNat).toUInt16.toNat = c.toNat := by
        rw [UInt8.toNat_toUInt16, toNat_ofNat_ascii hascii]
      have hunit : utf16Char c = [(UInt8.ofNat c.toNat).toUInt16] := by
        unfold utf16Char
        rw [if_pos (by omega)]
        congr 1
        apply UInt16.toNat_inj.1
        rw [hbyte, toNat_ofNat_unit (by omega)]
      have hne : (UInt8.ofNat c.toNat).toUInt16 ≠ percent := by
        intro heq
        have hnat := congrArg UInt16.toNat heq
        rw [hbyte] at hnat
        rw [hnat] at hkeep
        exact absurd hkeep (by decide)
      rw [hescape, hunit]
      exact decode_unit hne rest
    | false =>
      rw [ofBytes_escape, decode_octets]
      intro b hb
      rw [hcode, List.mem_singleton] at hb
      rw [hb, hkeep]
  · rw [ofBytes_escape, decode_octets]
    intro b hb
    have hle := le_of_mem_encodeChar hother hb
    rw [Bool.eq_false_iff]
    intro hkeep
    have hlt := lt_of_unreserved hkeep
    omega

/-- What was written is read back, whatever follows. -/
theorem decode_escape (text : List Char) (rest : List UInt16) :
    decodeURIComponent (ofBytes (escape unreserved (encode text)) ++ rest) =
      (decodeURIComponent rest).map (utf16 text ++ ·) := by
  induction text with
  | nil =>
    change decodeURIComponent rest = _
    cases decodeURIComponent rest <;> rfl
  | cons c text ih =>
    have hescape : escape unreserved (encode (c :: text)) =
        escape unreserved (String.utf8EncodeChar c) ++ escape unreserved (encode text) := List.flatMap_append
    rw [hescape, ofBytes_append, List.append_assoc, decode_escape_char, ih, Option.map_map]
    congr 1
    funext units
    change utf16Char c ++ (utf16 text ++ units) = _
    rw [utf16, utf16, List.flatMap_cons, List.append_assoc]

theorem mem_written {bytes : Bytes} {u : UInt16} (h : u ∈ ofBytes (escape unreserved bytes)) :
    u = percent ∨ ∃ b, unreserved b = true ∧ u = b.toUInt16 := by
  obtain ⟨b, hmem, rfl⟩ := List.mem_map.1 h
  rcases mem_escape hmem with hkeep | rfl | ⟨n, hn, rfl⟩
  · exact .inr ⟨b, hkeep, rfl⟩
  · exact .inl rfl
  · have hall : ∀ m : Fin 16, unreserved (hexDigit m.val) = true := by decide
    exact .inr ⟨_, hall ⟨n, hn⟩, rfl⟩

/-! ## The length of what is read -/

theorem length_octets (text : List UInt16) : 3 * (octets text).length ≤ text.length := by
  fun_induction octets text with
  | case1 high low rest h l hh hl ih =>
    simp only [List.length_cons]
    omega
  | case2 => exact Nat.zero_le _
  | case3 => exact Nat.zero_le _
  | case4 => exact Nat.zero_le _

theorem length_utf16Char (c : Char) : (utf16Char c).length ≤ 2 := by
  unfold utf16Char
  split_ifs
  · exact Nat.le_succ 1
  · exact Nat.le_refl 2

/-- What is read is no longer than what was written. -/
theorem length_decode {text decoded : List UInt16} (h : decodeURIComponent text = some decoded) :
    decoded.length ≤ text.length := by
  induction hn : text.length using Nat.strongRecOn generalizing text decoded with
  | _ n ih =>
    cases text with
    | nil =>
      cases h
      exact Nat.zero_le _
    | cons u rest =>
      rw [List.length_cons] at hn
      by_cases hu : u = percent
      · rw [decodeURIComponent, decodeFrom, if_pos hu] at h
        cases hrune : decodeRune (octets (u :: rest)) with
        | none =>
          rw [hrune] at h
          cases h
        | some c =>
          rw [hrune] at h
          dsimp only at h
          rw [decodeFrom_eq] at h
          obtain ⟨more, hmore, hdecoded⟩ := Option.map_eq_some_iff.1 h
          have hne : octets (u :: rest) ≠ [] := by
            intro hnil
            have hempty : decodeRune [] = none := by decide
            rw [hnil, hempty] at hrune
            cases hrune
          have hoctets := length_octets (u :: rest)
          have hpos := List.length_pos_of_ne_nil hne
          have hunits := length_utf16Char c
          have hsize := c.utf8Size_pos
          have hrest := ih _ (by rw [List.length_drop]; omega) hmore rfl
          rw [List.length_drop] at hrest
          rw [List.length_cons] at hoctets
          rw [← hdecoded, List.length_append]
          omega
      · rw [decode_unit hu] at h
        obtain ⟨more, hmore, hdecoded⟩ := Option.map_eq_some_iff.1 h
        have hrest := ih rest.length (by omega) hmore rfl
        rw [← hdecoded, List.length_cons]
        omega

end Gostman.Lib.UriComponent
