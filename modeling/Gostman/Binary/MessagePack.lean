import Gostman.Binary.Item
/-!
# MessagePack

`lib/binary/messagePack.js`.  The reader's position is the bytes not yet read,
and a thrown error is `none`.
-/

namespace Gostman.Binary.MessagePack

open Gostman.Lib

/-! ## The decoder -/

section Decoder

variable (runtime : Runtime)

def timestamp (data : Bytes) : Option Item :=
  if data.length = 4 then (runtime.millisText (ofBigEndian data * 1000)).map .text
  else if data.length = 8 then
    let packed := ofBigEndian data
    let nanos := packed / 2 ^ 34
    let seconds := packed % 2 ^ 34
    (runtime.millisText (seconds * 1000 + nanos / 1000000 : Nat)).map .text
  else if data.length = 12 then
    let nanos := ofBigEndian (data.take 4)
    let seconds := ofTwosComplement 8 (ofBigEndian (data.drop 4))
    (runtime.millisText (seconds * 1000 + (nanos / 1000000 : Nat))).map .text
  else some (.extension (-1) data)

def readExtension (size : Nat) : Reading Item := fun bytes => do
  let (code, bytes) ← unsigned 1 bytes
  let (data, bytes) ← takeBytes size bytes
  let type := ofTwosComplement 1 code
  let item ← if type = -1 then timestamp runtime data else some (.extension type data)
  return (item, bytes)

def readArray (nested : Reading Item) (count : Nat) : Reading Item :=
  through (readItems nested count) fun items => some (.array items)

def readMap (nested : Reading Item) (count : Nat) : Reading Item :=
  through (readEntries nested count) (objectOf runtime)

/-- `new BinaryValue(reader.take(count))`. -/
def readBinary (count : Nat) : Reading Item :=
  through (takeBytes count) fun front => some (.binary front)

def readText (count : Nat) : Reading Item :=
  through (takeBytes count) fun front => some (.text (decodeText front))

/-- What `read` does with a size of some width in front. -/
def sized (width : Nat) (read : Nat → Reading Item) : Reading Item := fun bytes => do
  let (size, bytes) ← unsigned width bytes
  read size bytes

def readBits (width : Nat) (meaning : Nat → Item) : Reading Item :=
  sized width fun bits bytes => some (meaning bits, bytes)

def readFixed (nested : Reading Item) (code : Nat) : Reading Item := fun bytes =>
  if code ≤ 0x7F then some (integer code, bytes)
  else if 0xE0 ≤ code then some (integer (code - 0x100), bytes)
  else if code ≤ 0x8F then readMap runtime nested (code % 16) bytes
  else if code ≤ 0x9F then readArray nested (code % 16) bytes
  else readText (code % 32) bytes

def readWide (nested : Reading Item) : Nat → Reading Item
  | 0xC0 => fun bytes => some (.null, bytes)
  | 0xC2 => fun bytes => some (.bool false, bytes)
  | 0xC3 => fun bytes => some (.bool true, bytes)
  | 0xC4 => sized 1 readBinary
  | 0xC5 => sized 2 readBinary
  | 0xC6 => sized 4 readBinary
  | 0xC7 => sized 1 (readExtension runtime)
  | 0xC8 => sized 2 (readExtension runtime)
  | 0xC9 => sized 4 (readExtension runtime)
  | 0xCA => readBits 4 fun bits => .number (float32 bits)
  | 0xCB => readBits 8 fun bits => .number (float64 bits)
  | 0xCC => readBits 1 fun bits => integer bits
  | 0xCD => readBits 2 fun bits => integer bits
  | 0xCE => readBits 4 fun bits => integer bits
  | 0xCF => readBits 8 fun bits => fromBigInt bits
  | 0xD0 => readBits 1 fun bits => integer (ofTwosComplement 1 bits)
  | 0xD1 => readBits 2 fun bits => integer (ofTwosComplement 2 bits)
  | 0xD2 => readBits 4 fun bits => integer (ofTwosComplement 4 bits)
  | 0xD3 => readBits 8 fun bits => fromBigInt (ofTwosComplement 8 bits)
  | 0xD4 => readExtension runtime 1
  | 0xD5 => readExtension runtime 2
  | 0xD6 => readExtension runtime 4
  | 0xD7 => readExtension runtime 8
  | 0xD8 => readExtension runtime 16
  | 0xD9 => sized 1 readText
  | 0xDA => sized 2 readText
  | 0xDB => sized 4 readText
  | 0xDC => sized 2 (readArray nested)
  | 0xDD => sized 4 (readArray nested)
  | 0xDE => sized 2 (readMap runtime nested)
  | 0xDF => sized 4 (readMap runtime nested)
  | _ => fun _ => none

/-- `readValue`, where `nested` reads what the value contains. -/
def readWith (nested : Reading Item) : Reading Item
  | [] => none
  | initial :: rest =>
      let code := initial.toNat
      if code < 0xC0 ∨ 0xE0 ≤ code then readFixed runtime nested code rest
      else readWide runtime nested code rest

def readValue : Nat → Reading Item
  | 0 => fun _ => none
  | levels + 1 => readWith runtime (readValue levels)

def decodeMessagePack (bytes : Bytes) : Option Item := do
  let (value, rest) ← readValue runtime (maxDepth + 1) bytes
  if rest ≠ [] then none else return value

end Decoder

/-! ## The encoder -/

/-- `writeSized`, the codes being those of one, two and four bytes.  A code of
0 is none, and what does not fit four bytes loses its upper bits. -/
def writeSized (count fixBase fixLimit : Nat) (codes : UInt8 × UInt8 × UInt8) : Bytes :=
  if count ≤ fixLimit then [UInt8.ofNat (fixBase + count)]
  else if codes.1 ≠ 0 ∧ count < 256 then codes.1 :: bigEndian 1 count
  else if count < 65536 then codes.2.1 :: bigEndian 2 count
  else codes.2.2 :: bigEndian 4 count

def writeInteger (value : Int) : Bytes :=
  if 0 ≤ value ∧ value < 128 then [UInt8.ofNat value.toNat]
  else if value < 0 ∧ -32 ≤ value then [UInt8.ofNat (value + 0x100).toNat]
  else if 0 ≤ value ∧ value < 4294967296 then
    if value < 256 then 0xCC :: bigEndian 1 value.toNat
    else if value < 65536 then 0xCD :: bigEndian 2 value.toNat
    else 0xCE :: bigEndian 4 value.toNat
  else if 0 ≤ value then 0xCF :: bigEndian 8 value.toNat
  else 0xD3 :: bigEndian 8 (toTwosComplement 8 value)

def writeNumber (value : Double) : Bytes :=
  if isSafeInteger value.multiple then writeInteger (value.multiple / one)
  else 0xCB :: bigEndian 8 (float64Bits value.multiple)

def writeString (text : Text) : Bytes :=
  writeSized (encode text).length 0xA0 31 (0xD9, 0xDA, 0xDB) ++ encode text

mutual

def writeValue : Json → Bytes
  | .null => [0xC0]
  | .bool value => [if value then 0xC3 else 0xC2]
  | .num value => writeNumber value
  | .text value => writeString value
  | .arr items => writeSized items.length 0x90 15 (0, 0xDC, 0xDD) ++ writeValues items
  | .obj fields => writeSized fields.length 0x80 15 (0, 0xDE, 0xDF) ++ writeFields fields

def writeValues : List Json → Bytes
  | [] => []
  | value :: rest => writeValue value ++ writeValues rest

def writeFields : List (Text × Json) → Bytes
  | [] => []
  | (key, value) :: rest => writeString key ++ writeValue value ++ writeFields rest

end

def encodeMessagePack (value : Json) : Bytes :=
  writeValue value

end Gostman.Binary.MessagePack
