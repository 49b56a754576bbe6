import Gostman.Binary.Cbor
import Gostman.Binary.Kept
/-!
# CBOR keeps values

The decoder of CBOR reads what the encoder writes.
-/

namespace Gostman.Binary.Cbor

open Gostman.Lib

variable {runtime : Runtime}

theorem toNat_initial {major info : Nat} (hmajor : major < 8) (hinfo : info < 32) :
    (UInt8.ofNat (major * 32 + info)).toNat / 32 = major ∧
      (UInt8.ofNat (major * 32 + info)).toNat % 32 = info := by
  rw [UInt8.toNat_ofNat_of_lt' (by change _ < 256; omega)]
  omega

/-- An initial byte other than of a simple value announces an argument. -/
theorem readWith_initial {major info : Nat} (hmajor : major < 7) (hinfo : info < 31)
    (nested : Reading Item) (rest : Bytes) :
    readWith runtime nested (UInt8.ofNat (major * 32 + info) :: rest) =
      (readArgument info rest).bind fun (argument, rest) =>
        readBody runtime nested major (some argument) rest := by
  obtain ⟨hdiv, hmod⟩ := toNat_initial (by omega : major < 8) (by omega : info < 32)
  unfold readWith
  simp only [hdiv, hmod]
  rw [if_neg (by omega), if_neg (by omega)]
  rfl

theorem readWith_simple {info : Nat} (hinfo : info < 32) (nested : Reading Item) (rest : Bytes) :
    readWith runtime nested (UInt8.ofNat (7 * 32 + info) :: rest) = readSimple info rest := by
  obtain ⟨hdiv, hmod⟩ := toNat_initial (by decide : 7 < 8) hinfo
  unfold readWith
  simp only [hdiv, hmod]
  rw [if_pos trivial]

/-- A head gives its major type and its argument. -/
theorem readWith_head {major value : Nat} (hmajor : major < 7) (hvalue : value < 2 ^ 64)
    (nested : Reading Item) (rest : Bytes) :
    readWith runtime nested (head major value ++ rest) =
      readBody runtime nested major (some value) rest := by
  have hwide : ∀ info width, info < 31 → (∀ bytes, readArgument info bytes = unsigned width bytes) →
      value < 256 ^ width →
      readWith runtime nested ((UInt8.ofNat (major * 32 + info) :: bigEndian width value) ++ rest) =
        readBody runtime nested major (some value) rest := by
    intro info width hinfo hread hfits
    rw [List.cons_append, readWith_initial hmajor hinfo, hread, unsigned_append hfits,
      Option.bind_some]
  unfold head
  simp only
  split
  · rw [List.singleton_append, readWith_initial hmajor (by omega), readArgument,
      if_pos (by assumption), Option.bind_some]
  split
  · exact hwide 24 1 (by decide) (fun _ => rfl) (by omega)
  split
  · exact hwide 25 2 (by decide) (fun _ => rfl) (by omega)
  split
  · exact hwide 26 4 (by decide) (fun _ => rfl) (by omega)
  · exact hwide 27 8 (by decide) (fun _ => rfl) (by omega)

theorem head_ne_nil (major value : Nat) : head major value ≠ [] := by
  unfold head
  simp only
  split_ifs <;> exact List.cons_ne_nil _ _

/-! ## Numbers -/

theorem argumentItem_zero {value : Int} (hpos : 0 ≤ value) (hsafe : value.natAbs ≤ maxSafeInteger) :
    argumentItem 0 value.toNat = integer value := by
  unfold argumentItem
  simp only
  rw [if_pos (by omega), if_pos trivial, Int.toNat_of_nonneg hpos]

theorem argumentItem_one {value : Int} (hneg : value < 0) (hsafe : value.natAbs ≤ maxSafeInteger) :
    argumentItem 1 (-1 - value).toNat = integer value := by
  have hvalue : -1 - ((-1 - value).toNat : Int) = value := by omega
  unfold argumentItem
  simp only
  rw [if_pos (by omega), if_neg Nat.one_ne_zero, hvalue]

theorem isSafeInteger_iff {multiple : Int} : isSafeInteger multiple = true ↔
    multiple / one * one = multiple ∧ (multiple / one).natAbs ≤ maxSafeInteger := by
  unfold isSafeInteger
  rw [Bool.and_eq_true, decide_eq_true_iff, decide_eq_true_iff]
  refine and_congr_left fun _ => ?_
  rw [← Int.dvd_iff_emod_eq_zero]
  exact ⟨Int.ediv_mul_cancel, fun h => Dvd.intro_left _ h⟩

theorem readWith_writeNumber (nested : Reading Item) (value : Double) (rest : Bytes) :
    readWith runtime nested (writeNumber value ++ rest) =
      some (.number (.finite value.multiple), rest) := by
  have hbound : maxSafeInteger < 2 ^ 64 := by decide
  unfold writeNumber
  split
  case isTrue hsafe =>
    obtain ⟨hwhole, hsmall⟩ := isSafeInteger_iff.1 hsafe
    have hitem : integer (value.multiple / one) = .number (.finite value.multiple) := by
      unfold integer
      rw [hwhole]
    simp only
    split
    case isTrue hpos =>
      rw [readWith_head (by decide) (by omega)]
      change some (argumentItem 0 _, rest) = _
      rw [argumentItem_zero hpos hsmall, hitem]
    case isFalse hneg =>
      rw [readWith_head (by decide) (by omega)]
      change some (argumentItem 1 _, rest) = _
      rw [argumentItem_one (Int.not_le.1 hneg) hsmall, hitem]
  case isFalse =>
    obtain ⟨hbits, hfloat⟩ := float64_float64Bits value.isDouble
    have hbyte : (0xFB : UInt8) = UInt8.ofNat (7 * 32 + 27) := by decide
    have hfits : float64Bits value.multiple < 256 ^ 8 := Nat.lt_of_lt_of_le hbits (by decide)
    have hdouble : readSimple 27 =
        through (unsigned 8) (fun bits => some (.number (float64 bits))) := rfl
    rw [List.cons_append, hbyte, readWith_simple (by decide), hdouble]
    refine through_eq_some.2 ⟨float64Bits value.multiple, unsigned_append hfits rest, ?_⟩
    rw [hfloat]

/-! ## The rest -/

theorem readWith_writeText {text : Text} (h : PlainText text) (nested : Reading Item)
    (rest : Bytes) :
    readWith runtime nested (writeText text ++ rest) = some (.text text, rest) := by
  unfold writeText
  rw [List.append_assoc, readWith_head (by decide) (Nat.lt_trans h.2 (by decide))]
  change through (takeBytes _) (fun front => some (Item.text (decodeText front))) _ = _
  refine through_eq_some.2 ⟨encode text, takeBytes_append rfl rest, ?_⟩
  rw [decodeText_encode, unmarked_eq_self.2 h.1]

theorem writeItems_eq (items : List Json) : writeItems items = items.flatMap writeItem := by
  induction items with
  | nil => rfl
  | cons value items ih => rw [writeItems, ih, List.flatMap_cons]

def format (runtime : Runtime) : Format where
  write := writeItem
  writeText := writeText
  read := readItem runtime

theorem writeFields_eq (fields : List (Text × Json)) :
    writeFields fields = fields.flatMap (format runtime).writeField := by
  induction fields with
  | nil => rfl
  | cons field fields ih =>
    rw [writeFields, ih, List.flatMap_cons]
    rfl

theorem faithful : (format runtime).Faithful runtime where
  write_ne_nil value := by
    cases value with
    | null => exact List.cons_ne_nil _ _
    | bool value => exact List.cons_ne_nil _ _
    | num value =>
      change writeNumber value ≠ []
      unfold writeNumber
      simp only
      split_ifs
      · exact head_ne_nil _ _
      · exact head_ne_nil _ _
      · exact List.cons_ne_nil _ _
    | text value => exact List.append_ne_nil_of_left_ne_nil (head_ne_nil _ _) _
    | arr items => exact List.append_ne_nil_of_left_ne_nil (head_ne_nil _ _) _
    | obj fields => exact List.append_ne_nil_of_left_ne_nil (head_ne_nil _ _) _
  write_text _ := rfl
  read_null _ _ := rfl
  read_bool _ value _ := by cases value <;> rfl
  read_num levels value rest := readWith_writeNumber (readItem runtime levels) value rest
  read_text levels text rest h := readWith_writeText h (readItem runtime levels) rest
  read_arr levels items rest h := by
    change readWith runtime (readItem runtime levels) (writeItem (.arr items) ++ rest) = _
    rw [writeItem, List.append_assoc, readWith_head (by decide) (Nat.lt_trans h (by decide)),
      writeItems_eq]
    rfl
  read_obj levels fields rest h := by
    change readWith runtime (readItem runtime levels) (writeItem (.obj fields) ++ rest) = _
    rw [writeItem, List.append_assoc, readWith_head (by decide) (Nat.lt_trans h (by decide)),
      @writeFields_eq runtime]
    rfl

/-- Values that are kept come back out of CBOR. -/
theorem decodeCbor_encodeCbor (document : Document) (hplain : document.value.Plain)
    (hnesting : document.value.nesting ≤ maxDepth) :
    decodeCbor runtime (encodeCbor document.value) = some document.value.item := by
  have hread := (@faithful runtime).read_write document.value hplain document.keysDistinct hnesting []
  have hmark : isMark document.value.item = false := by
    cases document.value <;> rfl
  rw [List.append_nil] at hread
  unfold decodeCbor encodeCbor
  rw [show readItem runtime (maxDepth + 1) (writeItem document.value) = _ from hread]
  simp [hmark]

end Gostman.Binary.Cbor
