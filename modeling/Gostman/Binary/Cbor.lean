import Gostman.Binary.Item
/-!
# CBOR

`lib/binary/cbor.js`.  The reader's position is the bytes not yet read, and a
thrown error is `none`.  The depth a read is at counts down from `MAX_DEPTH`:
below the last level everything is too deep.
-/

namespace Gostman.Binary.Cbor

open Gostman.Lib

/-! ## The decoder -/

def readArgument (info : Nat) : Reading Nat := fun bytes =>
  if info < 24 then some (info, bytes)
  else if info = 24 then unsigned 1 bytes
  else if info = 25 then unsigned 2 bytes
  else if info = 26 then unsigned 4 bytes
  else if info = 27 then unsigned 8 bytes
  else none

def isMark : Item → Bool
  | .mark => true
  | _ => false

def markEnds (item : Item) : Option Unit :=
  if isMark item then some () else none

def readUntil (read : Reading Item) : Reading (List Item) :=
  through (toEnd (orEnd markEnds read)) fun found => some found.1

def readEntriesUntil (read : Reading Item) : Reading (List (Item × Item)) :=
  through (toEnd (inTurnOrEnd markEnds read read)) fun found => some found.1

section Decoder

variable (runtime : Runtime)

def readArray (nested : Reading Item) (count : Option Nat) : Reading Item :=
  let items :=
    match count with
    | none => readUntil nested
    | some count => readItems nested count
  through items fun items => some (.array items)

def readMap (nested : Reading Item) (count : Option Nat) : Reading Item :=
  let entries :=
    match count with
    | none => readEntriesUntil nested
    | some count => readEntries nested count
  through entries (objectOf runtime)

/-- The bytes of the chunks of a byte string, `none` where a chunk has none. -/
def joinBytes : List Item → Option Bytes
  | [] => some []
  | .binary bytes :: rest => (joinBytes rest).map (bytes ++ ·)
  | _ :: _ => none

/-- `parts.join('')` of the chunks of a text, in which a `BinaryValue` is an
object like any other, `none` where a chunk is neither. -/
def joinTexts : List Item → Option Text
  | [] => some []
  | .text text :: rest => (joinTexts rest).map (text ++ ·)
  | .binary _ :: rest => (joinTexts rest).map ("[object Object]".toList ++ ·)
  | _ :: _ => none

def joined (major : Nat) (parts : List Item) : Option Item :=
  if major = 3 then (joinTexts parts).map .text else (joinBytes parts).map .binary

def joinChunks (nested : Reading Item) (major : Nat) : Reading Item :=
  through (readUntil nested) (joined major)

def bignum (bytes : Bytes) (negative : Bool) : Item :=
  let value : Int := ofBigEndian bytes
  fromBigInt (if negative then -1 - value else value)

def tagged (tag : Option Nat) (value : Item) : Option Item :=
  if tag = some 55799 then some value
  else
    match value with
    | .text text => some (if tag = some 0 then .text text else .tagged tag (.text text))
    | .number number =>
        if tag = some 1 then (runtime.dateText number).map .text
        else some (.tagged tag (.number number))
    | .binary bytes =>
        if tag = some 2 ∧ bytes.length ≤ maxBignumBytes then some (bignum bytes false)
        else if tag = some 3 ∧ bytes.length ≤ maxBignumBytes then some (bignum bytes true)
        else some (.tagged tag (.binary bytes))
    | value => some (.tagged tag value)

def readSimple (info : Nat) : Reading Item := fun bytes =>
  if info = 20 then some (.bool false, bytes)
  else if info = 21 then some (.bool true, bytes)
  else if info = 22 ∨ info = 23 then some (.null, bytes)
  else if info = 25 then through (unsigned 2) (fun bits => some (.number (float16 bits))) bytes
  else if info = 26 then through (unsigned 4) (fun bits => some (.number (float32 bits))) bytes
  else if info = 27 then through (unsigned 8) (fun bits => some (.number (float64 bits))) bytes
  else if info = 31 then some (.mark, bytes)
  else if info = 24 then through (unsigned 1) (fun code => some (.simple code)) bytes
  else some (.simple info, bytes)

def argumentItem (major argument : Nat) : Item :=
  let value : Int := if major = 0 then argument else -1 - argument
  if argument ≤ maxSafeInteger then integer value else .bigint value

/-- What `readItem` does with the major type and the argument, `none` being an
indefinite length.  A length beyond the safe integers is a `BigInt`, and larger
than any byte string. -/
def readBody (nested : Reading Item) (major : Nat) (argument : Option Nat) : Reading Item :=
  match major, argument with
  | 0, some value => fun bytes => some (argumentItem 0 value, bytes)
  | 1, some value => fun bytes => some (argumentItem 1 value, bytes)
  | 2, some count => through (takeBytes count) fun front => some (.binary front)
  | 3, some count => through (takeBytes count) fun front => some (.text (decodeText front))
  | 2, none => joinChunks nested 2
  | 3, none => joinChunks nested 3
  | 4, count => readArray nested count
  | 5, count => readMap runtime nested count
  | 6, tag => through nested (tagged runtime tag)
  | _, _ => fun _ => none

/-- `readItem`, where `nested` reads what the item contains. -/
def readWith (nested : Reading Item) : Reading Item
  | [] => none
  | initial :: rest =>
      let major := initial.toNat / 32
      let info := initial.toNat % 32
      if major = 7 then readSimple info rest
      else if info = 31 then if major ≤ 1 then none else readBody runtime nested major none rest
      else do
        let (argument, rest) ← readArgument info rest
        readBody runtime nested major (some argument) rest

def readItem : Nat → Reading Item
  | 0 => fun _ => none
  | levels + 1 => readWith runtime (readItem levels)

def decodeCbor (bytes : Bytes) : Option Item := do
  let (value, rest) ← readItem runtime (maxDepth + 1) bytes
  if isMark value then none
  else if rest ≠ [] then none
  else return value

end Decoder

/-! ## The encoder -/

def head (major value : Nat) : Bytes :=
  let first := fun info => UInt8.ofNat (major * 32 + info)
  if value < 24 then [first value]
  else if value < 256 then first 24 :: bigEndian 1 value
  else if value < 65536 then first 25 :: bigEndian 2 value
  else if value < 4294967296 then first 26 :: bigEndian 4 value
  else first 27 :: bigEndian 8 value

def writeNumber (value : Double) : Bytes :=
  if isSafeInteger value.multiple then
    let integer := value.multiple / one
    if 0 ≤ integer then head 0 integer.toNat else head 1 (-1 - integer).toNat
  else 0xFB :: bigEndian 8 (float64Bits value.multiple)

def writeText (text : Text) : Bytes :=
  head 3 (encode text).length ++ encode text

mutual

def writeItem : Json → Bytes
  | .null => [0xF6]
  | .bool value => [if value then 0xF5 else 0xF4]
  | .num value => writeNumber value
  | .text value => writeText value
  | .arr items => head 4 items.length ++ writeItems items
  | .obj fields => head 5 fields.length ++ writeFields fields

def writeItems : List Json → Bytes
  | [] => []
  | value :: rest => writeItem value ++ writeItems rest

def writeFields : List (Text × Json) → Bytes
  | [] => []
  | (key, value) :: rest => writeText key ++ writeItem value ++ writeFields rest

end

def encodeCbor (value : Json) : Bytes :=
  writeItem value

end Gostman.Binary.Cbor
