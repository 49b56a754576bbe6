import Gostman.Lib.Record
import Mathlib.Data.Rat.Defs
import Mathlib.Data.List.DropRight
/-!
# JavaScript values

The values a flow file can hold, and the conversions the flow modules apply to
them.  A missing property is `none`.  Numbers are rationals: every finite
double is one.  The two conversions between numbers and their texts are taken
from the runtime, as `Numerals`.
-/

namespace Gostman.Js

open Gostman.Lib

/-- A value as JSON and YAML files give it to JavaScript. -/
inductive Json where
  | null
  | bool (value : Bool)
  | num (value : ℚ)
  | str (value : String)
  | arr (items : List Json)
  | obj (fields : List (String × Json))

abbrev Obj := Record String Json

/-- The number conversions of the runtime: `String(number)`, and
`Number(text)`, which is `none` where the runtime gives a number that is not
finite. -/
structure Numerals where
  text : ℚ → String
  ofText : String → Option ℚ

namespace Json

def field (value : Json) (key : String) : Option Json :=
  match value with
  | obj fields => Record.read fields key
  | _ => none

def isPlainObject : Json → Bool
  | obj _ => true
  | _ => false

/-- `Array.isArray(value) ? value.filter(isPlainObject) : []`. -/
def listOf : Option Json → List Json
  | some (arr items) => items.filter isPlainObject
  | _ => []

/-- Whether the runtime takes the value for true in a condition. -/
def truthy : Option Json → Bool
  | none | some null => false
  | some (bool value) => value
  | some (num value) => value ≠ 0
  | some (str value) => value ≠ ""
  | some (arr _) | some (obj _) => true

end Json

/-! ## Texts -/

/-- The characters `trim` takes away: white space and line terminators. -/
def isSpace (c : Char) : Bool :=
  let n := c.toNat
  (0x9 ≤ n && n ≤ 0xD) || n == 0x20 || n == 0xA0 || n == 0x1680 || (0x2000 ≤ n && n ≤ 0x200A) ||
    n == 0x2028 || n == 0x2029 || n == 0x202F || n == 0x205F || n == 0x3000 || n == 0xFEFF

/-- `trim()` on the characters of a text. -/
def trimChars (chars : List Char) : List Char :=
  (chars.dropWhile isSpace).rdropWhile isSpace

def trim (text : String) : String :=
  String.ofList (trimChars text.toList)

mutual

def stringOf (numerals : Numerals) : Json → String
  | .null => "null"
  | .bool value => if value then "true" else "false"
  | .num value => numerals.text value
  | .str value => value
  | .arr items => joined numerals items
  | .obj _ => "[object Object]"

/-- `items.join(',')`, in which null is empty. -/
def joined (numerals : Numerals) : List Json → String
  | [] => ""
  | [item] => element numerals item
  | item :: rest => element numerals item ++ "," ++ joined numerals rest

def element (numerals : Numerals) : Json → String
  | .null => ""
  | .bool value => if value then "true" else "false"
  | .num value => numerals.text value
  | .str value => value
  | .arr items => joined numerals items
  | .obj _ => "[object Object]"

end

/-- `text(value)`: nothing and null are empty, a text is itself. -/
def text (numerals : Numerals) : Option Json → String
  | none | some .null => ""
  | some (.str value) => value
  | some value => stringOf numerals value

def trimmed (numerals : Numerals) (value : Option Json) : String :=
  trim (text numerals value)

/-- `Number(value)`, `none` where it is not finite. -/
def numberOf (numerals : Numerals) : Option Json → Option ℚ
  | none => none
  | some .null => some 0
  | some (.bool value) => some (if value then 1 else 0)
  | some (.num value) => some value
  | some (.str value) => numerals.ofText value
  | some (.arr items) => numerals.ofText (joined numerals items)
  | some (.obj _) => none

def trunc (value : ℚ) : ℤ :=
  value.num.tdiv value.den

/-- `whole`: the value as a whole number between two bounds, or the fallback
where it is no finite number, the empty text or null. -/
def whole (numerals : Numerals) (value : Option Json) (lowest highest fallback : Nat) : Nat :=
  match value with
  | some .null | some (.str "") => fallback
  | _ =>
    match numberOf numerals value with
    | some number => (min (max (trunc number) lowest) highest).toNat
    | none => fallback

/-! ## `JSON.stringify` -/

/-- One hexadecimal digit of a control character's escape. -/
def hexDigit (n : Nat) : Char :=
  "0123456789abcdef".toList.getD n '0'

def quotedChar (c : Char) : List Char :=
  if c = '"' then ['\\', '"']
  else if c = '\\' then ['\\', '\\']
  else if c = '\n' then ['\\', 'n']
  else if c = '\r' then ['\\', 'r']
  else if c = '\t' then ['\\', 't']
  else if c.toNat = 8 then ['\\', 'b']
  else if c.toNat = 12 then ['\\', 'f']
  else if c.toNat < 32 then ['\\', 'u', '0', '0', hexDigit (c.toNat / 16), hexDigit (c.toNat % 16)]
  else [c]

def quoted (value : String) : String :=
  String.ofList ('"' :: value.toList.flatMap quotedChar ++ ['"'])

mutual

def stringify (numerals : Numerals) : Json → String
  | .null => "null"
  | .bool value => if value then "true" else "false"
  | .num value => numerals.text value
  | .str value => quoted value
  | .arr items => "[" ++ ",".intercalate (stringifyItems numerals items) ++ "]"
  | .obj fields => "\x7b" ++ ",".intercalate (stringifyFields numerals fields) ++ "\x7d"

def stringifyItems (numerals : Numerals) : List Json → List String
  | [] => []
  | item :: rest => stringify numerals item :: stringifyItems numerals rest

def stringifyFields (numerals : Numerals) : List (String × Json) → List String
  | [] => []
  | (key, value) :: rest =>
      (quoted key ++ ":" ++ stringify numerals value) :: stringifyFields numerals rest

end

/-- `asText(value)`: nothing and null are empty, a text is itself, anything
else is its JSON. -/
def asText (numerals : Numerals) : Option Json → String
  | none | some .null => ""
  | some (.str value) => value
  | some value => stringify numerals value

/-! ## What the conversions do to values that are normal already -/

@[simp] theorem text_str (numerals : Numerals) (value : String) :
    text numerals (some (.str value)) = value := rfl

@[simp] theorem text_none (numerals : Numerals) : text numerals none = "" := rfl

@[simp] theorem asText_str (numerals : Numerals) (value : String) :
    asText numerals (some (.str value)) = value := rfl

@[simp] theorem asText_none (numerals : Numerals) : asText numerals none = "" := rfl

theorem trimChars_of_ends {chars : List Char}
    (hhead : ∀ c, chars.head? = some c → isSpace c = false)
    (hlast : ∀ c, chars.getLast? = some c → isSpace c = false) : trimChars chars = chars := by
  have hdrop : chars.dropWhile isSpace = chars := by
    cases chars with
    | nil => rfl
    | cons c rest => simp [hhead c (by simp)]
  rw [trimChars, hdrop, List.rdropWhile_eq_self_iff]
  intro hne
  simpa using hlast (chars.getLast hne) (List.getLast?_eq_getLast_of_ne_nil hne)

theorem isSpace_head_trimChars {chars : List Char} {c : Char}
    (h : (trimChars chars).head? = some c) : isSpace c = false := by
  obtain ⟨rest, hrest⟩ : trimChars chars <+: chars.dropWhile isSpace :=
    List.rdropWhile_prefix _ _
  have hhead : (chars.dropWhile isSpace).head? = some c := by
    rw [← hrest, List.head?_append, h, Option.some_or]
  simpa [hhead] using List.head?_dropWhile_not isSpace chars

theorem isSpace_getLast_trimChars {chars : List Char} {c : Char}
    (h : (trimChars chars).getLast? = some c) : isSpace c = false := by
  have hne : trimChars chars ≠ [] := by
    rintro hnil
    simp [hnil] at h
  rw [List.getLast?_eq_some_getLast hne, Option.some.injEq] at h
  have hlast := List.rdropWhile_last_not isSpace (chars.dropWhile isSpace) hne
  rw [← h]
  simpa [trimChars] using hlast

theorem trimChars_trimChars (chars : List Char) : trimChars (trimChars chars) = trimChars chars :=
  trimChars_of_ends (fun _ => isSpace_head_trimChars) (fun _ => isSpace_getLast_trimChars)

@[simp] theorem trim_trim (text : String) : trim (trim text) = trim text := by
  simp [trim, trimChars_trimChars]

@[simp] theorem trim_empty : trim "" = "" := rfl

@[simp] theorem trimmed_str (numerals : Numerals) (value : String) :
    trimmed numerals (some (.str value)) = trim value := rfl

@[simp] theorem trimmed_none (numerals : Numerals) : trimmed numerals none = "" := rfl

@[simp] theorem trim_trimmed (numerals : Numerals) (value : Option Json) :
    trim (trimmed numerals value) = trimmed numerals value :=
  trim_trim _

/-- A suffix that ends in no space keeps a trimmed text trimmed. -/
theorem trim_append {stem suffix : String} (hstem : trim stem = stem) (hne : stem ≠ "")
    (hsuffix : ∀ c, suffix.toList.getLast? = some c → isSpace c = false) :
    trim (stem ++ suffix) = stem ++ suffix := by
  have hchars : trimChars stem.toList = stem.toList := by
    have h := congrArg String.toList hstem
    simpa [trim] using h
  have hnil : stem.toList ≠ [] := by simpa using hne
  have htrim : trimChars (stem ++ suffix).toList = (stem ++ suffix).toList := by
    rw [String.toList_append]
    apply trimChars_of_ends
    · intro c hc
      rw [List.head?_append_of_ne_nil _ hnil, ← hchars] at hc
      exact isSpace_head_trimChars hc
    · intro c hc
      rw [List.getLast?_append] at hc
      cases hlast : suffix.toList.getLast? with
      | none =>
          rw [hlast, Option.none_or, ← hchars] at hc
          exact isSpace_getLast_trimChars hc
      | some d =>
          rw [hlast, Option.some_or, Option.some.injEq] at hc
          exact hc ▸ hsuffix d hlast
  rw [trim, htrim, String.ofList_toList]

@[simp] theorem trunc_natCast (n : Nat) : trunc (n : ℚ) = n := by
  simp [trunc]

theorem whole_natCast (numerals : Numerals) {n lowest highest : Nat} (fallback : Nat)
    (hlow : lowest ≤ n) (hhigh : n ≤ highest) :
    whole numerals (some (.num n)) lowest highest fallback = n := by
  have hclamp : min (max (n : ℤ) lowest) highest = n := by omega
  simp [whole, numberOf, hclamp]

/-- `whole` gives a number within its bounds when its fallback is one. -/
theorem whole_bounds (numerals : Numerals) (value : Option Json) {lowest highest fallback : Nat}
    (hbounds : lowest ≤ highest) (hlow : lowest ≤ fallback) (hhigh : fallback ≤ highest) :
    lowest ≤ whole numerals value lowest highest fallback ∧
      whole numerals value lowest highest fallback ≤ highest := by
  unfold whole
  split
  · exact ⟨hlow, hhigh⟩
  · exact ⟨hlow, hhigh⟩
  · split
    · omega
    · exact ⟨hlow, hhigh⟩

end Gostman.Js
