import Gostman.Lib.Decided
import Gostman.Binary.Texts
import Gostman.Lib.Framing
import Gostman.Lib.Utf16
/-!
# MQTT packets (`lib/realtime/mqtt.js`)

A packet is a byte with its type and flags, the length of its body in digits of
seven bits, and the body.  Packets arrive in frames that need not end where a
packet ends.  JavaScript texts are lists of UTF-16 code units.
-/

namespace Gostman.Realtime

open Gostman.Lib

open scoped Gostman.Lib.Decided

abbrev Units := List UInt16

structure Packet where
  type : Nat
  flags : Nat
  body : Bytes
  deriving DecidableEq

/-! ## Writing -/

def remainingLength (length : Nat) : Bytes :=
  let digit := length % 128
  let rest := length / 128
  if rest > 0 then UInt8.ofNat (digit ||| 0x80) :: remainingLength rest else [UInt8.ofNat digit]
termination_by length

def uint16 (value : Nat) : Bytes :=
  [UInt8.ofNat (value >>> 8), UInt8.ofNat (value &&& 0xff)]

/-- `encoder.encode`: a surrogate that stands alone is written as U+FFFD. -/
def encodeText (text : Units) : Bytes :=
  encode (scalars text)

def utf8Field (text : Units) : Bytes :=
  let bytes := encodeText text
  uint16 bytes.length ++ bytes

/-- The first byte: `(type << 4) | flags` in a byte array. -/
def firstByte (type flags : Nat) : UInt8 :=
  UInt8.ofNat ((type <<< 4) ||| flags)

def Packet.bytes (packet : Packet) : Bytes :=
  firstByte packet.type packet.flags :: remainingLength packet.body.length ++ packet.body

def publishType : Nat := 3

def publishPacket (topic payload : Units) : Packet :=
  ⟨publishType, 0, utf8Field topic ++ encodeText payload⟩

/-! ## Reading -/

def maxLengthBytes : Nat := 4

/-- The loop of `readLength`, with the bytes it may still look at; it gives the
length and what follows it. -/
def readLengthFrom : Nat → Nat → Nat → Bytes → Option (Nat × Bytes)
  | 0, _, _, _ => none
  | _, _, _, [] => none
  | room + 1, length, multiplier, byte :: rest =>
      let length := length + (byte.toNat &&& 0x7f) * multiplier
      if byte.toNat &&& 0x80 = 0 then some (length, rest)
      else readLengthFrom room length (multiplier * 128) rest

def readLength (bytes : Bytes) : Option (Nat × Bytes) :=
  readLengthFrom maxLengthBytes 0 1 bytes

/-- One round of the loop of `splitPackets`. -/
def cutPacket : Bytes → Option (Packet × Bytes)
  | [] => none
  | first :: bytes =>
      match readLength bytes with
      | none => none
      | some (length, rest) =>
          if rest.length < length then none
          else some (⟨first.toNat >>> 4, first.toNat &&& 0x0f, rest.take length⟩, rest.drop length)

/-- What follows a length is a part of what it was read from, and more bytes
follow it when more follow there. -/
theorem readLengthFrom_spec {room length multiplier read : Nat} {bytes rest : Bytes}
    (h : readLengthFrom room length multiplier bytes = some (read, rest)) :
    rest.length < bytes.length ∧
      ∀ more, readLengthFrom room length multiplier (bytes ++ more) = some (read, rest ++ more) := by
  fun_induction readLengthFrom room length multiplier bytes with
  | case1 => cases h
  | case2 => cases h
  | case3 room length multiplier byte rest' next hlast =>
      simp only [Option.some.injEq, Prod.mk.injEq] at h
      obtain ⟨rfl, rfl⟩ := h
      refine ⟨Nat.lt_succ_self _, fun more => ?_⟩
      rw [List.cons_append, readLengthFrom]
      exact if_pos hlast
  | case4 room length multiplier byte rest' next hmore ih =>
      obtain ⟨hshorter, hstable⟩ := ih h
      refine ⟨Nat.lt_succ_of_lt hshorter, fun more => ?_⟩
      rw [List.cons_append, readLengthFrom]
      exact (if_neg hmore).trans (hstable more)

theorem cutPacket_cases {bytes : Bytes} {packet : Packet} {rest : Bytes} (h : cutPacket bytes = some (packet, rest)) :
    ∃ first others length tail, bytes = first :: others ∧ readLength others = some (length, tail) ∧
      length ≤ tail.length ∧ packet = ⟨first.toNat >>> 4, first.toNat &&& 0x0f, tail.take length⟩ ∧
      rest = tail.drop length := by
  unfold cutPacket at h
  split at h
  · cases h
  · next first others =>
      split at h
      · cases h
      · next length tail hread =>
          split_ifs at h with hlength
          simp only [Option.some.injEq, Prod.mk.injEq] at h
          exact ⟨first, others, length, tail, rfl, hread, Nat.not_lt.1 hlength, h.1.symm, h.2.symm⟩

theorem cutPacket_of_read {first : UInt8} {bytes rest : Bytes} {length : Nat}
    (hread : readLength bytes = some (length, rest)) (hlength : length ≤ rest.length) :
    cutPacket (first :: bytes) =
      some (⟨first.toNat >>> 4, first.toNat &&& 0x0f, rest.take length⟩, rest.drop length) := by
  rw [cutPacket, hread]
  exact if_neg (Nat.not_lt.2 hlength)

def splitPackets : Framing UInt8 Packet where
  cut := cutPacket
  shorter := by
    intro bytes packet rest h
    obtain ⟨first, others, length, tail, rfl, hread, -, -, rfl⟩ := cutPacket_cases h
    have hshorter := (readLengthFrom_spec hread).1
    rw [List.length_drop, List.length_cons]
    omega
  stable := by
    intro bytes packet rest h more
    obtain ⟨first, others, length, tail, rfl, hread, hlength, rfl, rfl⟩ := cutPacket_cases h
    have hmore : readLength (others ++ more) = some (length, tail ++ more) := (readLengthFrom_spec hread).2 more
    rw [List.cons_append, cutPacket_of_read hmore (by rw [List.length_append]; omega),
      List.take_append_of_le_length hlength, List.drop_append_of_le_length hlength]

/-! ## A session -/

inductive Frame where
  | binary (bytes : Bytes)
  | text (text : Units)

inductive Event where
  | handled (packet : Packet)
  | notBinary
  deriving DecidableEq

def onFrame (buffer : Bytes) : Frame → List Event × Bytes
  | .text _ => ([.notBinary], buffer)
  | .binary bytes =>
      let (packets, rest) := splitPackets.split (buffer ++ bytes)
      (packets.map .handled, rest)

def onFrames (buffer : Bytes) : List Frame → List Event × Bytes
  | [] => ([], buffer)
  | frame :: frames =>
      let (events, rest) := onFrame buffer frame
      let (more, last) := onFrames rest frames
      (events ++ more, last)

def readUint16 (bytes : Bytes) (offset : Nat) : Nat :=
  ((bytes.getD offset 0).toNat <<< 8) ||| (bytes.getD (offset + 1) 0).toNat

def strictText (bytes : Bytes) : Option (List Char) :=
  match bytes with
  | [] => some []
  | b :: rest =>
      match decodeRune (b :: rest) with
      | some c => (strictText (rest.drop (c.utf8Size - 1))).map (c :: ·)
      | none => none
termination_by bytes.length
decreasing_by
  simp only [List.length_drop, List.length_cons]
  omega

/-- `strictDecoder.decode`, which drops a byte order mark and fails on what is
not UTF-8. -/
def strictDecode (bytes : Bytes) : Option (List Char) :=
  if [0xEF, 0xBB, 0xBF] <+: bytes then strictText (bytes.drop 3) else strictText bytes

/-- `byte.toString(16).padStart(2, '0')`. -/
def hexByte (byte : UInt8) : List Char :=
  let digits := Nat.toDigits 16 byte.toNat
  List.replicate (2 - digits.length) '0' ++ digits

def payloadText (bytes : Bytes) : Units :=
  match strictDecode bytes with
  | some text => utf16 text
  | none => utf16 ([' '].intercalate (bytes.map hexByte))

/-- What the channel is told of a published message, and the packet that is
acknowledged. -/
structure Delivery where
  payload : Units
  topic : Units
  puback : Option Nat
  deriving DecidableEq

def receivePublish (packet : Packet) : Delivery :=
  let topicLength := readUint16 packet.body 0
  let topic := payloadText ((packet.body.drop 2).take topicLength)
  let qos := (packet.flags >>> 1) &&& 0x03
  let idOffset := 2 + topicLength
  let payloadOffset := if qos > 0 then idOffset + 2 else idOffset
  ⟨payloadText (packet.body.drop payloadOffset), topic,
    if qos > 0 then some (readUint16 packet.body idOffset) else none⟩

/-! ## Packets through frames -/

theorem digit_more {n : Nat} (h : n < 128) :
    (UInt8.ofNat (n ||| 0x80)).toNat &&& 0x7f = n ∧ (UInt8.ofNat (n ||| 0x80)).toNat &&& 0x80 ≠ 0 := by
  have hall : ∀ m : Fin 128, (UInt8.ofNat (m.val ||| 0x80)).toNat &&& 0x7f = m.val ∧
      (UInt8.ofNat (m.val ||| 0x80)).toNat &&& 0x80 ≠ 0 := by decide
  exact hall ⟨n, h⟩

theorem digit_last {n : Nat} (h : n < 128) :
    (UInt8.ofNat n).toNat &&& 0x7f = n ∧ (UInt8.ofNat n).toNat &&& 0x80 = 0 := by
  have hall : ∀ m : Fin 128, (UInt8.ofNat m.val).toNat &&& 0x7f = m.val ∧
      (UInt8.ofNat m.val).toNat &&& 0x80 = 0 := by decide
  exact hall ⟨n, h⟩

/-- A length of few enough digits is read back, whatever follows it. -/
theorem readLengthFrom_remainingLength (room : Nat) (read multiplier : Nat) {length : Nat}
    (h : length < 128 ^ (room + 1)) (rest : Bytes) :
    readLengthFrom (room + 1) read multiplier (remainingLength length ++ rest) =
      some (read + length * multiplier, rest) := by
  induction room generalizing read multiplier length with
  | zero =>
      have hsmall : length < 128 := by simpa using h
      have hnone : ¬length / 128 > 0 := by omega
      obtain ⟨hvalue, hlast⟩ := digit_last hsmall
      rw [remainingLength]
      simp only [hnone, if_false, Nat.mod_eq_of_lt hsmall, List.singleton_append, readLengthFrom, hvalue, hlast, if_true]
  | succ room ih =>
      rw [remainingLength]
      by_cases hmore : length / 128 > 0
      · obtain ⟨hvalue, hlast⟩ := digit_more (Nat.mod_lt length (show 128 > 0 by decide))
        have hbound : length / 128 < 128 ^ (room + 1) := by
          rw [Nat.div_lt_iff_lt_mul (by decide), ← Nat.pow_succ]
          exact h
        have hsum : read + length % 128 * multiplier + length / 128 * (multiplier * 128) = read + length * multiplier := by
          conv_rhs => rw [← Nat.div_add_mod length 128]
          ring
        simp only [hmore, if_true, List.cons_append]
        rw [readLengthFrom]
        simp only [hvalue, hlast, if_false, ih _ _ hbound, hsum]
      · have hsmall : length < 128 := by omega
        obtain ⟨hvalue, hlast⟩ := digit_last hsmall
        simp only [hmore, if_false, Nat.mod_eq_of_lt hsmall, List.singleton_append, readLengthFrom, hvalue, hlast, if_true]

/-- A packet as it is read back: its type and flags are the halves of its first
byte. -/
def Packet.received (packet : Packet) : Packet :=
  ⟨(firstByte packet.type packet.flags).toNat >>> 4, (firstByte packet.type packet.flags).toNat &&& 0x0f, packet.body⟩

theorem cutPacket_bytes {packet : Packet} (h : packet.body.length < 2 ^ 28) (rest : Bytes) :
    cutPacket (packet.bytes ++ rest) = some (packet.received, rest) := by
  have hread : readLength (remainingLength packet.body.length ++ (packet.body ++ rest)) =
      some (packet.body.length, packet.body ++ rest) := by
    have hdigits := readLengthFrom_remainingLength 3 0 1 (show packet.body.length < 128 ^ 4 by simpa using h)
      (packet.body ++ rest)
    rwa [Nat.zero_add, Nat.mul_one] at hdigits
  rw [Packet.bytes, List.cons_append, List.cons_append, List.append_assoc, cutPacket_of_read hread (by simp),
    List.take_left, List.drop_left, Packet.received]

theorem received_eq_iff {packet : Packet} : packet.received = packet ↔ packet.type < 16 ∧ packet.flags < 16 := by
  have hall : ∀ t f : Fin 16, (firstByte t.val f.val).toNat >>> 4 = t.val ∧
      (firstByte t.val f.val).toNat &&& 0x0f = f.val := by decide
  obtain ⟨type, flags, body⟩ := packet
  simp only [Packet.received, Packet.mk.injEq, and_true]
  constructor
  · rintro ⟨htype, hflags⟩
    have hbyte := (firstByte type flags).toNat_lt
    constructor
    · rw [← htype, Nat.shiftRight_eq_div_pow]
      omega
    · rw [← hflags]
      exact Nat.lt_succ_of_le Nat.and_le_right
  · rintro ⟨htype, hflags⟩
    exact hall ⟨type, htype⟩ ⟨flags, hflags⟩

/-- Frames of bytes are fed one after the other. -/
theorem onFrames_binary (buffer : Bytes) (pieces : List Bytes) :
    onFrames buffer (pieces.map .binary) =
      ((splitPackets.feed buffer pieces).1.map .handled, (splitPackets.feed buffer pieces).2) := by
  induction pieces generalizing buffer with
  | nil => rfl
  | cons piece pieces ih =>
      rw [List.map_cons, onFrames, onFrame, Framing.feed]
      dsimp only
      rw [ih, List.map_append]

/-- However the packets are cut into frames, each is handled once and in order,
and nothing is left. -/
theorem onFrames_packets {packets : List Packet} (hbodies : ∀ packet ∈ packets, packet.body.length < 2 ^ 28)
    {pieces : List Bytes} (hpieces : pieces.flatten = packets.flatMap Packet.bytes) :
    onFrames [] (pieces.map .binary) = (packets.map fun packet => .handled packet.received, []) := by
  rw [onFrames_binary, Framing.feed_eq_split Framing.split_nil, List.nil_append, hpieces,
    Framing.split_written fun packet hmem rest => cutPacket_bytes (hbodies packet hmem) rest, List.map_map]
  rfl

/-! ## Texts through packets -/

/-- The text has no surrogate that stands alone and does not begin with a byte
order mark. -/
def Plain (text : Units) : Prop :=
  utf16 (scalars text) = text ∧ text.head? ≠ some 0xFEFF

theorem strictText_encode (text : List Char) : strictText (encode text) = some text := by
  induction text with
  | nil => rw [encode_nil, strictText]
  | cons c text ih =>
      rw [encode_cons]
      cases hbytes : String.utf8EncodeChar c with
      | nil => exact absurd hbytes (encodeChar_ne_nil c)
      | cons b rest =>
          have hlength : c.utf8Size = rest.length + 1 := by
            rw [← String.length_utf8EncodeChar, hbytes, List.length_cons]
          have hdecode := decodeRune_encodeChar c (encode text)
          rw [hbytes, List.cons_append] at hdecode
          rw [List.cons_append, strictText, hdecode]
          simp only [hlength, Nat.add_sub_cancel, List.drop_left, ih, Option.map_some]

/-- Where the strict decoder reads a text, the lenient one reads the same. -/
theorem utf8Text_of_strictText {bytes : Bytes} {text : List Char} (h : strictText bytes = some text) :
    Binary.utf8Text bytes = text := by
  fun_induction strictText bytes generalizing text with
  | case1 =>
      rw [Binary.utf8Text]
      exact Option.some.inj h
  | case2 b rest c hdecode ih =>
      obtain ⟨more, hmore, rfl⟩ := Option.map_eq_some_iff.1 h
      rw [Binary.utf8Text, hdecode]
      exact congrArg (c :: ·) (ih hmore)
  | case3 => cases h

theorem decodeText_of_strictDecode {bytes : Bytes} {text : List Char} (h : strictDecode bytes = some text) :
    Binary.decodeText bytes = text := by
  unfold strictDecode at h
  unfold Binary.decodeText
  split_ifs at h ⊢
  · exact utf8Text_of_strictText h
  · exact utf8Text_of_strictText h

theorem strictDecode_encode (text : List Char) : strictDecode (encode text) = some (Binary.unmarked text) := by
  rw [strictDecode, ← apply_ite strictText, Binary.drop_mark_encode, strictText_encode]

theorem payloadText_encodeText (text : Units) : payloadText (encodeText text) = utf16 (Binary.unmarked (scalars text)) := by
  unfold payloadText encodeText
  rw [strictDecode_encode]

theorem utf16_cons (c : Char) (text : List Char) : utf16 (c :: text) = utf16Char c ++ utf16 text := by
  rw [utf16, List.flatMap_cons, ← utf16]

theorem utf16Char_mark : utf16Char Binary.byteOrderMark = [0xFEFF] := by decide

/-- A text comes back from its bytes exactly when it is plain. -/
theorem payloadText_encodeText_eq_iff (text : Units) : payloadText (encodeText text) = text ↔ Plain text := by
  rw [payloadText_encodeText]
  have hlength := length_utf16_scalars text
  by_cases hmark : (scalars text).head? = some Binary.byteOrderMark
  · obtain ⟨rest, hrest⟩ := List.head?_eq_some_iff.1 hmark
    rw [hrest, Binary.unmarked, if_pos rfl]
    rw [hrest, utf16_cons, utf16Char_mark, List.singleton_append, List.length_cons] at hlength
    constructor
    · intro heq
      rw [heq] at hlength
      omega
    · rintro ⟨hwritten, hhead⟩
      rw [hrest, utf16_cons, utf16Char_mark, List.singleton_append] at hwritten
      rw [← hwritten, List.head?_cons] at hhead
      exact absurd rfl hhead
  · rw [Binary.unmarked_eq_self.2 hmark]
    constructor
    · intro heq
      refine ⟨heq, fun hhead => hmark ?_⟩
      obtain ⟨rest, rfl⟩ := List.head?_eq_some_iff.1 hhead
      rw [scalars.eq_def]
      rfl
    · exact fun hplain => hplain.1

/-! ## Publishing -/

theorem readUint16_uint16 (value : Nat) (rest : Bytes) : readUint16 (uint16 value ++ rest) 0 = value % 65536 := by
  have hhigh : (UInt8.ofNat (value >>> 8)).toNat = value / 256 % 256 := by
    rw [Nat.shiftRight_eq_div_pow]
    rfl
  have hlow : (UInt8.ofNat (value &&& 0xff)).toNat = value % 256 := by
    have hmask : value &&& 0xff = value % 256 := Nat.and_two_pow_sub_one_eq_mod value 8
    rw [hmask]
    exact Nat.mod_mod value 256
  change ((UInt8.ofNat (value >>> 8)).toNat <<< 8) ||| (UInt8.ofNat (value &&& 0xff)).toNat = _
  rw [hhigh, hlow, ← Nat.shiftLeft_add_eq_or_of_lt (Nat.mod_lt value (by decide)), Nat.shiftLeft_eq]
  omega

theorem receivePublish_publishPacket (topic payload : Units) :
    receivePublish (publishPacket topic payload) =
      ⟨payloadText ((encodeText topic ++ encodeText payload).drop ((encodeText topic).length % 65536)),
        payloadText ((encodeText topic ++ encodeText payload).take ((encodeText topic).length % 65536)), none⟩ := by
  have hbody : (publishPacket topic payload).body =
      uint16 (encodeText topic).length ++ (encodeText topic ++ encodeText payload) := by
    rw [publishPacket, utf8Field]
    exact List.append_assoc _ _ _
  have hdrop : ∀ more : Bytes, (uint16 (encodeText topic).length ++ more).drop 2 = more := fun _ => rfl
  have hqos : ¬((publishPacket topic payload).flags >>> 1) &&& 0x03 > 0 := show ¬(0 >>> 1) &&& 0x03 > 0 by decide
  unfold receivePublish
  simp only [hbody, readUint16_uint16, hdrop, if_neg hqos]
  rw [← List.drop_drop, hdrop]

theorem toNat_lt_of_mem_hexByte {byte : UInt8} {c : Char} (h : c ∈ hexByte byte) : c.toNat < 128 := by
  have hall : ∀ n ∈ List.range 256, ∀ d ∈ hexByte (UInt8.ofNat n), d.toNat < 128 := by
    decide +kernel
  have hbyte : UInt8.ofNat byte.toNat = byte := UInt8.ofNat_toNat
  exact hall byte.toNat (List.mem_range.2 byte.toNat_lt) c (hbyte.symm ▸ h)

theorem ascii_hex (bytes : Bytes) : ∀ c ∈ [' '].intercalate (bytes.map hexByte), c.toNat < 128 := by
  induction bytes with
  | nil => simp
  | cons byte bytes ih =>
      intro c hmem
      cases bytes with
      | nil => exact toNat_lt_of_mem_hexByte (by simpa using hmem)
      | cons next more =>
          rw [List.map_cons, List.map_cons, List.intercalate_cons_cons, ← List.map_cons, List.mem_append,
            List.mem_append] at hmem
          rcases hmem with (hbyte | hspace) | hrest
          · exact toNat_lt_of_mem_hexByte hbyte
          · rw [List.mem_singleton.1 hspace]
            decide
          · exact ih c hrest

/-- A part of the bytes of a long text does not read as the text. -/
theorem payloadText_take_ne {text : Units} {count : Nat} (h : count + 16 ≤ (encodeText text).length) :
    payloadText ((encodeText text).take count) ≠ text := by
  intro heq
  have hchars := congrArg scalars heq
  unfold payloadText at hchars
  split at hchars
  · next found hfound =>
      rw [scalars_utf16] at hchars
      have hlenient := decodeText_of_strictDecode hfound
      rw [hchars] at hlenient
      exact Binary.decodeText_take_ne h hlenient
  · next hnone =>
      -- The text would be one of hexadecimal digits, and each part of such a text is a text.
      rw [scalars_utf16] at hchars
      have hascii : ∀ c ∈ scalars text, c.toNat < 128 := by
        rw [← hchars]
        exact ascii_hex _
      have htake : (encodeText text).take count = encode ((scalars text).take count) := by
        unfold encodeText
        rw [← utf8Coding_text, ← utf8Coding_text, utf8Coding.text_ascii hascii, ← List.map_take,
          utf8Coding.text_ascii fun c hmem => hascii c (List.mem_of_mem_take hmem)]
      rw [htake, strictDecode_encode] at hnone
      cases hnone

/-- What the session makes of frames is what was sent: the packets in order, and
a published message with its topic. -/
structure Survives (packets : List Packet) (topic payload : Units) : Prop where
  framed : ∀ pieces : List Bytes, pieces.flatten = packets.flatMap Packet.bytes →
    onFrames [] (pieces.map .binary) = (packets.map .handled, [])
  published : (receivePublish (publishPacket topic payload)).topic = topic ∧
    (receivePublish (publishPacket topic payload)).payload = payload

/-- Types and flags of four bits, a topic that fits its length field, and texts
without lone surrogates or a byte order mark at the start. -/
structure Sendable (packets : List Packet) (topic payload : Units) : Prop where
  bits : ∀ packet ∈ packets, packet.type < 16 ∧ packet.flags < 16
  fits : (encodeText topic).length < 65536
  topic : Plain topic
  payload : Plain payload

theorem published_iff (topic payload : Units) :
    ((receivePublish (publishPacket topic payload)).topic = topic ∧
      (receivePublish (publishPacket topic payload)).payload = payload) ↔
    (encodeText topic).length < 65536 ∧ Plain topic ∧ Plain payload := by
  rw [receivePublish_publishPacket]
  dsimp only
  by_cases hfits : (encodeText topic).length < 65536
  · rw [Nat.mod_eq_of_lt hfits, List.take_left, List.drop_left, payloadText_encodeText_eq_iff,
      payloadText_encodeText_eq_iff]
    exact ⟨fun h => ⟨hfits, h⟩, fun h => h.2⟩
  · have hshort : (encodeText topic).length % 65536 + 65536 ≤ (encodeText topic).length := by omega
    rw [List.take_append_of_le_length (by omega)]
    exact ⟨fun h => absurd h.1 (payloadText_take_ne (by omega)), fun h => absurd h.1 hfits⟩

theorem survives_iff_sendable (packets : List Packet) (hbodies : ∀ packet ∈ packets, packet.body.length < 2 ^ 28)
    (topic payload : Units) : Survives packets topic payload ↔ Sendable packets topic payload := by
  constructor
  · intro h
    obtain ⟨hfits, htopic, hpayload⟩ := (published_iff topic payload).1 h.published
    refine ⟨?_, hfits, htopic, hpayload⟩
    have hall := h.framed [packets.flatMap Packet.bytes] (by simp)
    rw [onFrames_packets hbodies (by simp), Prod.mk.injEq] at hall
    intro packet hmem
    have hsame := List.map_eq_map_iff.1 hall.1 packet hmem
    exact received_eq_iff.1 (Event.handled.inj hsame)
  · intro h
    refine ⟨?_, (published_iff topic payload).2 ⟨h.fits, h.topic, h.payload⟩⟩
    intro pieces hpieces
    rw [onFrames_packets hbodies hpieces, Prod.mk.injEq]
    refine ⟨List.map_congr_left fun packet hmem => ?_, rfl⟩
    rw [received_eq_iff.2 (h.bits packet hmem)]

/-- A ping, a message with the topic `t` and one that is acknowledged. -/
def pingAndMessages : List Packet :=
  [⟨12, 0, []⟩, ⟨3, 0, [0, 1, 0x74, 0x68, 0x69]⟩, ⟨3, 2, [0, 1, 0x74, 0, 7, 0x68, 0x69]⟩]

theorem survives_ping : Survives pingAndMessages [0x74] [0x68, 0x69] := by
  refine (survives_iff_sendable pingAndMessages (by decide) [0x74] [0x68, 0x69]).2 ⟨?_, ?_, ?_, ?_⟩
  · decide
  · decide
  · exact ⟨by decide, by decide⟩
  · exact ⟨by decide, by decide⟩

/-- A message that begins with U+FEFF loses it. -/
theorem marked_not_survives : ¬Survives [] [0x74] [0xFEFF, 0x68] := by
  intro h
  exact ((published_iff [0x74] [0xFEFF, 0x68]).1 h.published).2.2.2 rfl

end Gostman.Realtime
