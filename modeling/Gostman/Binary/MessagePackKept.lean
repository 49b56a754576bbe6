import Gostman.Binary.CborKept
import Gostman.Binary.MessagePack
/-!
# MessagePack keeps values

The decoder of MessagePack reads what the encoder writes, and what comes back
as it was is kept by both formats.
-/

namespace Gostman.Binary.MessagePack

open Gostman.Lib

variable {runtime : Runtime}

/-! ## Sizes -/

theorem sized_bigEndian (width value : Nat) (read : Nat → Reading Item) (rest : Bytes) :
    sized width read (bigEndian width value ++ rest) = read (value % 256 ^ width) rest := by
  unfold sized
  rw [unsigned_bigEndian]
  rfl

/-- What reads each of the heads `writeSized` chooses from reads its size, up
to the four bytes there are for it. -/
theorem readWith_writeSized {nested : Reading Item} {read : Nat → Reading Item}
    {fixBase fixLimit : Nat} {codes : UInt8 × UInt8 × UInt8} (hlimit : fixLimit < 65536)
    (hfixed : ∀ size ≤ fixLimit, ∀ rest,
      readWith runtime nested (UInt8.ofNat (fixBase + size) :: rest) = read size rest)
    (hone : codes.1 ≠ 0 → ∀ rest, readWith runtime nested (codes.1 :: rest) = sized 1 read rest)
    (htwo : ∀ rest, readWith runtime nested (codes.2.1 :: rest) = sized 2 read rest)
    (hfour : ∀ rest, readWith runtime nested (codes.2.2 :: rest) = sized 4 read rest)
    (count : Nat) (rest : Bytes) :
    readWith runtime nested (writeSized count fixBase fixLimit codes ++ rest) =
      read (count % 2 ^ 32) rest := by
  have hsmall : count < 65536 → count % 2 ^ 32 = count := by omega
  unfold writeSized
  split
  case isTrue hle => rw [List.singleton_append, hfixed count hle, hsmall (by omega)]
  split
  case isTrue hbyte =>
    rw [List.cons_append, hone hbyte.1, sized_bigEndian, hsmall (by omega),
      Nat.mod_eq_of_lt (by omega)]
  split
  case isTrue hshort =>
    rw [List.cons_append, htwo, sized_bigEndian, hsmall hshort, Nat.mod_eq_of_lt (by omega)]
  case isFalse =>
    have hwidth : 256 ^ 4 = 2 ^ 32 := by decide
    rw [List.cons_append, hfour, sized_bigEndian, hwidth]

theorem readWith_fixed {code : Nat} (hcode : code < 0xC0 ∨ 0xE0 ≤ code ∧ code < 256)
    (nested : Reading Item) (rest : Bytes) :
    readWith runtime nested (UInt8.ofNat code :: rest) = readFixed runtime nested code rest := by
  have hnat : (UInt8.ofNat code).toNat = code :=
    UInt8.toNat_ofNat_of_lt' (by change code < 256; omega)
  unfold readWith
  simp only [hnat]
  rw [if_pos (by omega)]

theorem readWith_textHead (nested : Reading Item) (count : Nat) (rest : Bytes) :
    readWith runtime nested (writeSized count 0xA0 31 (0xD9, 0xDA, 0xDB) ++ rest) =
      readText (count % 2 ^ 32) rest := by
  refine readWith_writeSized (by decide) ?_ (fun _ _ => rfl) (fun _ => rfl) (fun _ => rfl) count rest
  intro size hsize rest
  have hmod : (0xA0 + size) % 32 = size := by omega
  rw [readWith_fixed (by omega), readFixed, if_neg (by omega), if_neg (by omega), if_neg (by omega),
    if_neg (by omega), hmod]

theorem readWith_arrayHead (nested : Reading Item) (count : Nat) (rest : Bytes) :
    readWith runtime nested (writeSized count 0x90 15 (0, 0xDC, 0xDD) ++ rest) =
      readArray nested (count % 2 ^ 32) rest := by
  refine readWith_writeSized (by decide) ?_ (fun h => absurd rfl h) (fun _ => rfl) (fun _ => rfl)
    count rest
  intro size hsize rest
  have hmod : (0x90 + size) % 16 = size := by omega
  rw [readWith_fixed (by omega), readFixed, if_neg (by omega), if_neg (by omega), if_neg (by omega),
    if_pos (by omega), hmod]

theorem readWith_mapHead (nested : Reading Item) (count : Nat) (rest : Bytes) :
    readWith runtime nested (writeSized count 0x80 15 (0, 0xDE, 0xDF) ++ rest) =
      readMap runtime nested (count % 2 ^ 32) rest := by
  refine readWith_writeSized (by decide) ?_ (fun h => absurd rfl h) (fun _ => rfl) (fun _ => rfl)
    count rest
  intro size hsize rest
  have hmod : (0x80 + size) % 16 = size := by omega
  rw [readWith_fixed (by omega), readFixed, if_neg (by omega), if_neg (by omega), if_pos (by omega),
    hmod]

theorem writeSized_ne_nil (count fixBase fixLimit : Nat) (codes : UInt8 × UInt8 × UInt8) :
    writeSized count fixBase fixLimit codes ≠ [] := by
  unfold writeSized
  split_ifs <;> exact List.cons_ne_nil _ _

/-! ## Numbers -/

theorem readBits_bigEndian {width value : Nat} (h : value < 256 ^ width) (meaning : Nat → Item)
    (rest : Bytes) :
    readBits width meaning (bigEndian width value ++ rest) = some (meaning value, rest) := by
  unfold readBits
  rw [sized_bigEndian, Nat.mod_eq_of_lt h]

theorem fromBigInt_of_safe {value : Int} (h : value.natAbs ≤ maxSafeInteger) :
    fromBigInt value = integer value :=
  if_pos h

theorem readWith_writeInteger (nested : Reading Item) {value : Int}
    (hsafe : value.natAbs ≤ maxSafeInteger) (rest : Bytes) :
    readWith runtime nested (writeInteger value ++ rest) = some (integer value, rest) := by
  have hbound : maxSafeInteger = 9007199254740991 := by decide
  unfold writeInteger
  split
  case isTrue hsmall =>
    rw [List.singleton_append, readWith_fixed (by omega), readFixed, if_pos (by omega),
      Int.toNat_of_nonneg hsmall.1]
  split
  case isTrue hnegative =>
    have hvalue : ((value + 0x100).toNat : Int) - 0x100 = value := by omega
    rw [List.singleton_append, readWith_fixed (by omega), readFixed, if_neg (by omega),
      if_pos (by omega), hvalue]
  split
  case isTrue hshort =>
    have hvalue : (value.toNat : Int) = value := Int.toNat_of_nonneg hshort.1
    split
    · refine (readBits_bigEndian (by omega) (fun bits => integer bits) rest).trans ?_
      rw [hvalue]
    split
    · refine (readBits_bigEndian (by omega) (fun bits => integer bits) rest).trans ?_
      rw [hvalue]
    · refine (readBits_bigEndian (by omega) (fun bits => integer bits) rest).trans ?_
      rw [hvalue]
  split
  case isTrue hpos =>
    have hvalue : (value.toNat : Int) = value := Int.toNat_of_nonneg hpos
    refine (readBits_bigEndian (by omega) (fun bits => fromBigInt bits) rest).trans ?_
    rw [hvalue, fromBigInt_of_safe hsafe]
  case isFalse hneg =>
    have hbits : toTwosComplement 8 value < 256 ^ 8 := by
      unfold toTwosComplement
      omega
    refine (readBits_bigEndian hbits (fun bits => fromBigInt (ofTwosComplement 8 bits)) rest).trans ?_
    rw [ofTwosComplement_toTwosComplement (by omega) (by omega), fromBigInt_of_safe hsafe]

theorem readWith_writeNumber (nested : Reading Item) (value : Double) (rest : Bytes) :
    readWith runtime nested (writeNumber value ++ rest) =
      some (.number (.finite value.multiple), rest) := by
  unfold writeNumber
  split
  case isTrue hsafe =>
    obtain ⟨hwhole, hsmall⟩ := Cbor.isSafeInteger_iff.1 hsafe
    rw [readWith_writeInteger nested hsmall, integer, hwhole]
  case isFalse =>
    obtain ⟨hbits, hfloat⟩ := float64_float64Bits value.isDouble
    refine (readBits_bigEndian (Nat.lt_of_lt_of_le hbits (by decide))
      (fun bits => .number (float64 bits)) rest).trans ?_
    rw [hfloat]

/-! ## Reading back -/

theorem readWith_writeString (nested : Reading Item) (text : Text) (rest : Bytes) :
    readWith runtime nested (writeString text ++ rest) =
      readText ((encode text).length % 2 ^ 32) (encode text ++ rest) := by
  unfold writeString
  rw [List.append_assoc, readWith_textHead]

theorem readText_encode (text : Text) (rest : Bytes) :
    readText (encode text).length (encode text ++ rest) = some (.text (unmarked text), rest) := by
  refine through_eq_some.2 ⟨encode text, takeBytes_append rfl rest, ?_⟩
  rw [decodeText_encode]

/-- A text comes back as it was exactly when it is plain. -/
theorem readWith_writeString_iff {nested : Reading Item} {text : Text} {rest : Bytes} :
    (∃ rest', readWith runtime nested (writeString text ++ rest) = some (.text text, rest')) ↔
      PlainText text := by
  rw [readWith_writeString]
  by_cases hlength : (encode text).length < 2 ^ 32
  · rw [Nat.mod_eq_of_lt hlength, readText_encode]
    constructor
    · rintro ⟨rest', h⟩
      exact ⟨unmarked_eq_self.1 (Item.text.inj (Prod.mk.inj (Option.some.inj h)).1), hlength⟩
    · intro h
      rw [unmarked_eq_self.2 h.1]
      exact ⟨rest, rfl⟩
  · refine ⟨?_, fun h => absurd h.2 hlength⟩
    rintro ⟨rest', h⟩
    obtain ⟨front, htake, htext⟩ := through_eq_some.1 h
    unfold takeBytes at htake
    rw [if_neg (by rw [List.length_append]; omega),
      List.take_append_of_le_length (Nat.mod_le _ _)] at htake
    obtain ⟨rfl, -⟩ := Prod.mk.inj (Option.some.inj htake)
    exact absurd (Item.text.inj (Option.some.inj htext)) (decodeText_take_ne (by omega))

theorem readWith_writeString_of_plain {text : Text} (h : PlainText text) (nested : Reading Item)
    (rest : Bytes) : readWith runtime nested (writeString text ++ rest) = some (.text text, rest) := by
  rw [readWith_writeString, Nat.mod_eq_of_lt h.2, readText_encode, unmarked_eq_self.2 h.1]

def format (runtime : Runtime) : Format where
  write := writeValue
  writeText := writeString
  read := readValue runtime

theorem writeValues_eq (items : List Json) : writeValues items = items.flatMap writeValue := by
  induction items with
  | nil => rfl
  | cons value items ih => rw [writeValues, ih, List.flatMap_cons]

theorem writeFields_eq (fields : List (Text × Json)) :
    writeFields fields = fields.flatMap (format runtime).writeField := by
  induction fields with
  | nil => rfl
  | cons field fields ih =>
    rw [writeFields, ih, List.flatMap_cons]
    rfl

theorem readValue_arr (levels : Nat) (items : List Json) (rest : Bytes) :
    readValue runtime (levels + 1) (writeValue (.arr items) ++ rest) =
      readArray (readValue runtime levels) (items.length % 2 ^ 32)
        (items.flatMap writeValue ++ rest) := by
  rw [readValue, writeValue, List.append_assoc, readWith_arrayHead, writeValues_eq]

theorem readValue_obj (levels : Nat) (fields : List (Text × Json)) (rest : Bytes) :
    readValue runtime (levels + 1) (writeValue (.obj fields) ++ rest) =
      readMap runtime (readValue runtime levels) (fields.length % 2 ^ 32)
        (fields.flatMap (format runtime).writeField ++ rest) := by
  rw [readValue, writeValue, List.append_assoc, readWith_mapHead, @writeFields_eq runtime]

theorem writeNumber_ne_nil (value : Double) : writeNumber value ≠ [] := by
  unfold writeNumber writeInteger
  split_ifs <;> exact List.cons_ne_nil _ _

theorem faithful : (format runtime).Faithful runtime where
  write_ne_nil value := by
    cases value with
    | null => exact List.cons_ne_nil _ _
    | bool value => exact List.cons_ne_nil _ _
    | num value => exact writeNumber_ne_nil value
    | text value => exact List.append_ne_nil_of_left_ne_nil (writeSized_ne_nil _ _ _ _) _
    | arr items => exact List.append_ne_nil_of_left_ne_nil (writeSized_ne_nil _ _ _ _) _
    | obj fields => exact List.append_ne_nil_of_left_ne_nil (writeSized_ne_nil _ _ _ _) _
  write_text _ := rfl
  read_null _ _ := rfl
  read_bool _ value _ := by cases value <;> rfl
  read_num levels value rest := readWith_writeNumber (readValue runtime levels) value rest
  read_text levels text rest h := readWith_writeString_of_plain h (readValue runtime levels) rest
  read_arr levels items rest h := by
    refine (readValue_arr levels items rest).trans ?_
    rw [Nat.mod_eq_of_lt h]
    rfl
  read_obj levels fields rest h := by
    refine (readValue_obj levels fields rest).trans ?_
    rw [Nat.mod_eq_of_lt h]
    rfl

/-! ## What comes back is kept -/

theorem forall₂_of_keyed {fields : List (Text × Json)} {entries : List (Item × Item)}
    (h : keyed runtime entries = some (Json.entries fields)) :
    List.Forall₂ (fun field entry => keyOf runtime entry.1 = some field.1 ∧ entry.2 = field.2.item)
      fields entries := by
  induction entries generalizing fields with
  | nil =>
    cases fields with
    | nil => exact .nil
    | cons field fields => exact absurd (Option.some.inj h) (List.cons_ne_nil _ _).symm
  | cons entry entries ih =>
    rw [keyed] at h
    obtain ⟨name, hname, h⟩ := Option.bind_eq_some_iff.1 h
    obtain ⟨named, hnamed, h⟩ := Option.bind_eq_some_iff.1 h
    cases fields with
    | nil => exact absurd (Option.some.inj h) (List.cons_ne_nil _ _)
    | cons field fields =>
      obtain ⟨hentry, rfl⟩ := List.cons.inj (Option.some.inj h)
      obtain ⟨rfl, hvalue⟩ := Prod.mk.inj hentry
      exact .cons ⟨hname, hvalue⟩ (ih hnamed)

theorem length_of_keyed {entries : List (Item × Item)} {named : List (Text × Item)}
    (h : keyed runtime entries = some named) : named.length = entries.length := by
  induction entries generalizing named with
  | nil =>
    obtain rfl := Option.some.inj h
    rfl
  | cons entry entries ih =>
    rw [keyed] at h
    obtain ⟨name, -, h⟩ := Option.bind_eq_some_iff.1 h
    obtain ⟨rest, hrest, h⟩ := Option.bind_eq_some_iff.1 h
    obtain rfl := Option.some.inj h
    rw [List.length_cons, List.length_cons, ih hrest]

theorem eq_of_objectOf {fields : List (Text × Json)} {entries : List (Item × Item)}
    (hcount : entries.length ≤ fields.length)
    (h : objectOf runtime entries = some (.object (Json.entries fields) true)) :
    entries.length = fields.length ∧ keyed runtime entries = some (Json.entries fields) ∧
      ∀ field ∈ fields, field.1 ≠ protoKey := by
  obtain ⟨named, hnamed, hstored⟩ := Option.map_eq_some_iff.1 h
  have hfields : (stored named).1 = Json.entries fields := (Item.object.inj hstored).1
  have hlength : (stored named).1.length = fields.length := by
    rw [hfields, Json.entries_eq, List.length_map]
  have hle : (stored named).1.length ≤ 0 + named.length := length_foldl_store_le named ([], true)
  have hentries := length_of_keyed hnamed
  obtain ⟨heq, hkeys⟩ := @eq_of_length_foldl_store named ([], true) rfl
    (by change (stored named).1.length = 0 + named.length; omega)
  have hsame : named = Json.entries fields := heq.symm.trans hfields
  subst hsame
  refine ⟨by omega, hnamed, ?_⟩
  intro field hfield
  refine hkeys (field.1, field.2.item) ?_
  rw [Json.entries_eq]
  exact List.mem_map_of_mem hfield

/-- Nothing else is taken for a value that is kept. -/
theorem rest_of_read {value : Json} {levels : Nat} (hplain : value.Plain)
    (hdistinct : value.Every Json.KeysDistinct) (hlevels : value.nesting ≤ levels)
    {rest rest' : Bytes} {item : Item}
    (h : readValue runtime (levels + 1) (writeValue value ++ rest) = some (item, rest')) :
    rest' = rest := by
  have hback := (@faithful runtime).read_write value hplain hdistinct hlevels rest
  exact (Prod.mk.inj (Option.some.inj (h.symm.trans hback))).2

/-- The key of an entry that comes back is plain, and its value comes back
behind it. -/
theorem plainText_of_readEntry {levels : Nat} {field : Text × Json} {rest rest' : Bytes}
    {entry : Item × Item}
    (h : readEntry (readValue runtime (levels + 1)) ((format runtime).writeField field ++ rest) =
      some (entry, rest'))
    (hkey : keyOf runtime entry.1 = some field.1) :
    PlainText field.1 ∧
      readValue runtime (levels + 1) (writeValue field.2 ++ rest) = some (entry.2, rest') := by
  have hfield : (format runtime).writeField field = writeString field.1 ++ writeValue field.2 := rfl
  rw [hfield, List.append_assoc, readEntry] at h
  obtain ⟨bytes, hreadKey, hreadValue⟩ := inTurn_eq_some.1 h
  have htext : entry.1 = .text field.1 := by
    have hread := hreadKey
    rw [readValue, readWith_writeString] at hread
    obtain ⟨front, -, hfront⟩ := through_eq_some.1 hread
    rw [← Option.some.inj hfront] at hkey ⊢
    exact congrArg Item.text (Option.some.inj hkey)
  rw [htext] at hreadKey
  have hplain : PlainText field.1 := readWith_writeString_iff.1 ⟨bytes, hreadKey⟩
  have hback := @readWith_writeString_of_plain runtime field.1 hplain (readValue runtime levels)
    (writeValue field.2 ++ rest)
  obtain rfl := (Prod.mk.inj (Option.some.inj (hreadKey.symm.trans hback))).2
  exact ⟨hplain, hreadValue⟩

theorem plain_of_read (value : Json) {levels : Nat} (hdistinct : value.Every Json.KeysDistinct)
    (hlevels : value.nesting ≤ levels) {rest rest' : Bytes}
    (h : readValue runtime (levels + 1) (writeValue value ++ rest) = some (value.item, rest')) :
    value.Plain := by
  induction value using Json.induct generalizing levels rest rest' with
  | null => trivial
  | bool value => trivial
  | num value => trivial
  | text value => exact readWith_writeString_iff.1 ⟨rest', h⟩
  | arr items ih =>
    rw [readValue_arr] at h
    obtain ⟨results, hread, hitem⟩ := through_eq_some.1 h
    have hresults : results = items.map Json.item := by
      rw [← Json.items_eq]
      exact Item.array.inj (Option.some.inj hitem)
    have htimes := (Option.ite_none_right_eq_some.1 hread).2
    have hlength := length_of_times htimes
    rw [hresults, List.length_map] at hlength
    have hcount : items.length < 2 ^ 32 := by omega
    rw [← hlength] at htimes
    refine ⟨hcount, Json.everyItem_iff.2 ?_⟩
    refine @forall_of_times _ _ _ _ (fun value result => result = value.item) _ _ _ _ _ ?_ ?_ htimes
    · rintro value hvalue rest result rest' hread rfl
      have hdeeper := Nat.lt_of_lt_of_le (Json.nesting_lt_nestings hvalue) hlevels
      obtain ⟨lower, rfl⟩ := Nat.exists_eq_add_one.2 (Nat.zero_lt_of_lt hdeeper)
      have hdistinct := Json.everyItem_iff.1 hdistinct.2 value hvalue
      have hplain := ih value hvalue hdistinct (Nat.le_of_lt_succ hdeeper) hread
      exact ⟨hplain, rest_of_read hplain hdistinct (Nat.le_of_lt_succ hdeeper) hread⟩
    · rw [hresults, List.forall₂_map_right_iff]
      exact List.forall₂_same.2 fun _ _ => rfl
  | obj fields ih =>
    rw [readValue_obj] at h
    obtain ⟨entries, hread, hobject⟩ := through_eq_some.1 h
    have htimes := (Option.ite_none_right_eq_some.1 hread).2
    have hlength := length_of_times htimes
    obtain ⟨hall, hkeyed, hproto⟩ := eq_of_objectOf
      (Nat.le_trans (Nat.le_of_eq hlength) (Nat.mod_le _ _)) hobject
    have hcount : fields.length < 2 ^ 32 := by omega
    rw [← hlength, hall] at htimes
    have heach : ∀ field ∈ fields, PlainText field.1 ∧ field.2.Plain := by
      refine forall_of_times ?_ (forall₂_of_keyed hkeyed) htimes
      rintro field hfield rest ⟨key, value⟩ rest' hread ⟨hkey, hvalue⟩
      have hdeeper := Nat.lt_of_lt_of_le (Json.nesting_lt_fieldNestings hfield) hlevels
      obtain ⟨lower, rfl⟩ := Nat.exists_eq_add_one.2 (Nat.zero_lt_of_lt hdeeper)
      obtain ⟨hplainKey, hread⟩ := plainText_of_readEntry hread hkey
      rw [hvalue] at hread
      have hdistinct := Json.everyField_iff.1 hdistinct.2 field hfield
      have hplain := ih field hfield hdistinct (Nat.le_of_lt_succ hdeeper) hread
      exact ⟨⟨hplainKey, hplain⟩, rest_of_read hplain hdistinct (Nat.le_of_lt_succ hdeeper) hread⟩
    refine ⟨⟨hcount, fun field hfield => ⟨(heach field hfield).1, hproto field hfield⟩⟩, ?_⟩
    exact Json.everyField_iff.2 fun field hfield => (heach field hfield).2

/-- A value comes back out of MessagePack exactly when it is kept. -/
theorem decodeMessagePack_encodeMessagePack (document : Document)
    (hnesting : document.value.nesting ≤ maxDepth) :
    decodeMessagePack runtime (encodeMessagePack document.value) = some document.value.item ↔
      document.value.Plain := by
  unfold decodeMessagePack encodeMessagePack
  constructor
  · intro h
    obtain ⟨⟨value, rest⟩, hread, h⟩ := Option.bind_eq_some_iff.1 h
    obtain ⟨-, h⟩ := Option.ite_none_left_eq_some.1 h
    obtain rfl := Option.some.inj h
    rw [← List.append_nil (writeValue document.value)] at hread
    exact plain_of_read document.value document.keysDistinct hnesting hread
  · intro hplain
    have hread := (@faithful runtime).read_write document.value hplain document.keysDistinct
      hnesting []
    rw [List.append_nil] at hread
    rw [show readValue runtime (maxDepth + 1) (writeValue document.value) = _ from hread]
    rfl

end Gostman.Binary.MessagePack

namespace Gostman.Binary

def Survives (runtime : Runtime) (value : Json) : Prop :=
  Cbor.decodeCbor runtime (Cbor.encodeCbor value) = some value.item ∧
    MessagePack.decodeMessagePack runtime (MessagePack.encodeMessagePack value) = some value.item

/-- A JSON value survives both formats exactly when no text or key starts with
a byte order mark, no key is `__proto__`, and nothing is too long for a length
of four bytes. -/
theorem survives_iff (runtime : Runtime) (document : Document)
    (hnesting : document.value.nesting ≤ maxDepth) :
    Survives runtime document.value ↔ document.value.Plain := by
  constructor
  · intro h
    exact (MessagePack.decodeMessagePack_encodeMessagePack document hnesting).1 h.2
  · intro hplain
    exact ⟨Cbor.decodeCbor_encodeCbor document hplain hnesting,
      (MessagePack.decodeMessagePack_encodeMessagePack document hnesting).2 hplain⟩

def letters : Document where
  value := .arr [.text ['a'], .obj [(['k'], .null)]]
  keysDistinct := by
    simp [Json.Every, Json.EveryItem, Json.EveryField, Json.KeysDistinct]

theorem letters_survive : Survives throwing letters.value := by
  have htext : PlainText ['a'] := by decide
  have hcount : ∀ count, count < 10 → count < 2 ^ 32 := by omega
  refine (survives_iff throwing letters (by decide)).2 ⟨hcount 2 (by decide), htext, ?_, trivial⟩
  refine ⟨⟨hcount 1 (by decide), ?_⟩, trivial, trivial⟩
  intro field hfield
  obtain rfl := List.mem_singleton.1 hfield
  exact ⟨by decide, by decide⟩

def lost : Document where
  value := .obj [(protoKey, .text [byteOrderMark])]
  keysDistinct := by
    simp [Json.Every, Json.EveryField, Json.KeysDistinct]

/-- A key `__proto__` and a byte order mark do not survive. -/
theorem not_survives_lost :
    ¬ ∀ (runtime : Runtime) (document : Document), document.value.nesting ≤ maxDepth →
      Survives runtime document.value := by
  intro h
  have hback := (h throwing lost (by decide)).2
  have hplain := (MessagePack.decodeMessagePack_encodeMessagePack lost (by decide)).1 hback
  exact (hplain.1.2 _ List.mem_cons_self).2 rfl

end Gostman.Binary
