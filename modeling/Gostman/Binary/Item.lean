import Gostman.Lib.Doubles
import Gostman.Lib.Reading
import Gostman.Lib.Record
/-!
# Values of the binary formats

The values the two decoders give (`lib/binary/values.js`), the JSON values the
two encoders take, and the functions of the runtime both use.
-/

namespace Gostman.Binary

open Gostman.Lib

abbrev Text := List Char

def maxDepth : Nat := 64

def maxBignumBytes : Nat := 64

def maxSafeInteger : Nat := 2 ^ 53 - 1

/-- A JavaScript value as the decoders give it.  `binary`, `tagged`, `simple`
and `extension` are the classes of `values.js`, a simple value being a
`TaggedValue` with the tag `'simple'`; `mark` is the symbol `BREAK`.  Of an
object's prototype only matters whether its chain still ends in
`Object.prototype`, so that `__proto__` is not a property like others. -/
inductive Item where
  | null
  | bool (value : Bool)
  | number (value : Number)
  | bigint (value : Int)
  | text (value : Text)
  | binary (bytes : Bytes)
  | tagged (tag : Option Nat) (value : Item)
  | simple (code : Nat)
  | extension (type : Int) (bytes : Bytes)
  | array (items : List Item)
  | object (fields : List (Text × Item)) (rooted : Bool)
  | mark

def integer (value : Int) : Item :=
  .number (.finite (value * one))

/-- `Number.isSafeInteger(Number(value)) && BigInt(Number(value)) === value ? Number(value) : value`. -/
def fromBigInt (value : Int) : Item :=
  if value.natAbs ≤ maxSafeInteger then integer value else .bigint value

/-- The conversions of the runtime, `none` where they throw: the text of a date
given in seconds or in milliseconds, and `String()` of a number and of an object. -/
structure Runtime where
  dateText : Number → Option Text
  millisText : Int → Option Text
  numberText : Number → Text
  objectText : Item → Option Text

/-- A runtime in which every conversion throws that can. -/
def throwing : Runtime where
  dateText _ := none
  millisText _ := none
  numberText _ := []
  objectText _ := none

mutual

def Item.string (runtime : Runtime) : Item → Option Text
  | .null => some "null".toList
  | .bool value => some (if value then "true" else "false").toList
  | .number value => some (runtime.numberText value)
  | .bigint value => some (toString value).toList
  | .text value => some value
  | .binary _ | .tagged _ _ | .simple _ | .extension _ _ => some "[object Object]".toList
  | .array items => (Item.strings runtime items).map (List.intercalate [','])
  | .object fields rooted => runtime.objectText (.object fields rooted)
  | .mark => some "Symbol(break)".toList

/-- The texts `join` puts together, in which `null` is empty and a symbol throws. -/
def Item.strings (runtime : Runtime) : List Item → Option (List Text)
  | [] => some []
  | .null :: rest => (Item.strings runtime rest).map ([] :: ·)
  | .mark :: _ => none
  | item :: rest => do
      let text ← item.string runtime
      let texts ← Item.strings runtime rest
      return text :: texts

end

/-! ## Objects -/

/-- Whether the prototype chain of a value ends in `Object.prototype`, `none`
where the value is no prototype. -/
def Item.rooted : Item → Option Bool
  | .null => some false
  | .object _ rooted => some rooted
  | .binary _ | .tagged _ _ | .simple _ | .extension _ _ | .array _ => some true
  | .bool _ | .number _ | .bigint _ | .text _ | .mark => none

def protoKey : Text :=
  "__proto__".toList

/-- `result[key] = value` on an object: its properties, and whether it is still
rooted. -/
def store (result : List (Text × Item) × Bool) (key : Text) (value : Item) :
    List (Text × Item) × Bool :=
  if key = protoKey ∧ result.2 = true then (result.1, value.rooted.getD result.2)
  else (Record.put result.1 key value, result.2)

def stored (entries : List (Text × Item)) : List (Text × Item) × Bool :=
  entries.foldl (fun result entry => store result entry.1 entry.2) ([], true)

def Item.ofStored (result : List (Text × Item) × Bool) : Item :=
  .object result.1 result.2

/-! ## Texts -/

/-- Whether a byte may follow in a character that begins with `lead`, as its
second byte. -/
def isSecond (lead b : UInt8) : Bool :=
  if lead = 0xE0 then 0xA0 ≤ b && b ≤ 0xBF
  else if lead = 0xED then 0x80 ≤ b && b ≤ 0x9F
  else if lead = 0xF0 then 0x90 ≤ b && b ≤ 0xBF
  else if lead = 0xF4 then 0x80 ≤ b && b ≤ 0x8F
  else 0x80 ≤ b && b ≤ 0xBF

/-- How many bytes of an ill-formed character are replaced together. -/
def subpart : Bytes → Nat
  | lead :: second :: third :: _ =>
      if 0xE0 ≤ lead ∧ lead ≤ 0xF4 ∧ isSecond lead second = true then
        if 0xF0 ≤ lead ∧ 0x80 ≤ third ∧ third ≤ 0xBF then 3 else 2
      else 1
  | [lead, second] => if 0xE0 ≤ lead ∧ lead ≤ 0xF4 ∧ isSecond lead second = true then 2 else 1
  | _ => 1

/-- The characters of UTF-8, with U+FFFD for what is ill-formed. -/
def utf8Text (bytes : Bytes) : Text :=
  match bytes with
  | [] => []
  | b :: rest =>
      match decodeRune (b :: rest) with
      | some c => c :: utf8Text (rest.drop (c.utf8Size - 1))
      | none => '\uFFFD' :: utf8Text (rest.drop (subpart (b :: rest) - 1))
termination_by bytes.length
decreasing_by
  · simp only [List.length_drop, List.length_cons]
    omega
  · simp only [List.length_drop, List.length_cons]
    omega

/-- `new TextDecoder().decode(bytes)`, which drops a byte order mark. -/
def decodeText (bytes : Bytes) : Text :=
  if [0xEF, 0xBB, 0xBF] <+: bytes then utf8Text (bytes.drop 3) else utf8Text bytes

/-! ## What both decoders do -/

def checkCount (count remaining minimumBytes : Nat) : Bool :=
  count * minimumBytes ≤ remaining

def readEntry (read : Reading Item) : Reading (Item × Item) :=
  inTurn read read

def readItems (read : Reading Item) (count : Nat) : Reading (List Item) := fun bytes =>
  if checkCount count bytes.length 1 then times read count bytes else none

def readEntries (read : Reading Item) (count : Nat) : Reading (List (Item × Item)) := fun bytes =>
  if checkCount count bytes.length 2 then times (readEntry read) count bytes else none

/-- `typeof key === 'string' ? key : String(key)`. -/
def keyOf (runtime : Runtime) : Item → Option Text
  | .text key => some key
  | key => key.string runtime

def keyed (runtime : Runtime) : List (Item × Item) → Option (List (Text × Item))
  | [] => some []
  | (key, value) :: rest => do
      let name ← keyOf runtime key
      let entries ← keyed runtime rest
      return (name, value) :: entries

def objectOf (runtime : Runtime) (entries : List (Item × Item)) : Option Item :=
  (keyed runtime entries).map fun entries => Item.ofStored (stored entries)

/-! ## JSON values -/

/-- A JSON value: finite numbers, texts of Unicode scalar values, and objects
as their properties in order. -/
inductive Json where
  | null
  | bool (value : Bool)
  | num (value : Double)
  | text (value : Text)
  | arr (items : List Json)
  | obj (fields : List (Text × Json))

section Induction

variable {motive : Json → Prop} (null : motive .null) (bool : ∀ value, motive (.bool value))
  (num : ∀ value, motive (.num value)) (text : ∀ value, motive (.text value))
  (arr : ∀ items, (∀ value ∈ items, motive value) → motive (.arr items))
  (obj : ∀ fields, (∀ field ∈ fields, motive field.2) → motive (.obj fields))

include null bool num text arr obj

set_option linter.unusedSectionVars false

mutual

/-- What holds of a value when it holds of every value in it holds of every
value. -/
theorem Json.induct : ∀ value, motive value
  | .null => null
  | .bool value => bool value
  | .num value => num value
  | .text value => text value
  | .arr items => arr items (Json.induct_items items)
  | .obj fields => obj fields (Json.induct_fields fields)

theorem Json.induct_items : ∀ items : List Json, ∀ value ∈ items, motive value
  | [], _, h => absurd h List.not_mem_nil
  | first :: items, value, h =>
      (List.mem_cons.1 h).elim (fun heq => heq ▸ Json.induct first)
        fun hmem => Json.induct_items items value hmem

theorem Json.induct_fields : ∀ fields : List (Text × Json), ∀ field ∈ fields, motive field.2
  | [], _, h => absurd h List.not_mem_nil
  | (_, first) :: fields, field, h =>
      (List.mem_cons.1 h).elim (fun heq => heq ▸ Json.induct first)
        fun hmem => Json.induct_fields fields field hmem

end

end Induction

mutual

def Json.item : Json → Item
  | .null => .null
  | .bool value => .bool value
  | .num value => .number (.finite value.multiple)
  | .text value => .text value
  | .arr items => .array (Json.items items)
  | .obj fields => .object (Json.entries fields) true

def Json.items : List Json → List Item
  | [] => []
  | value :: rest => value.item :: Json.items rest

def Json.entries : List (Text × Json) → List (Text × Item)
  | [] => []
  | (key, value) :: rest => (key, value.item) :: Json.entries rest

end

def isSafeInteger (multiple : Int) : Bool :=
  multiple % one = 0 && (multiple / one).natAbs ≤ maxSafeInteger

mutual

/-- The depth of the deepest value in a value, itself being at depth 0. -/
def Json.nesting : Json → Nat
  | .arr items => Json.nestings items
  | .obj fields => Json.fieldNestings fields
  | _ => 0

/-- The depth of the deepest value in what contains some values. -/
def Json.nestings : List Json → Nat
  | [] => 0
  | value :: rest => max (value.nesting + 1) (Json.nestings rest)

/-- The depth of the deepest value in what has some properties. -/
def Json.fieldNestings : List (Text × Json) → Nat
  | [] => 0
  | (_, value) :: rest => max (value.nesting + 1) (Json.fieldNestings rest)

end

end Gostman.Binary
