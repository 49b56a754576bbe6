import Gostman.Lib.Record
import Mathlib.Algebra.Group.Nat.Defs
import Mathlib.Data.List.TakeWhile
import Mathlib.Data.Nat.Basic
/-!
# `JSON.parse` and `JSON.stringify`

Texts are lists of UTF-16 units.  What a number of a text becomes is a
parameter, so that a reading with the texts of numbers and one with numbers are
two instances of one definition.
-/

namespace Gostman.Lib.EcmaJson

abbrev Units := List UInt16

/-- A value; the own properties of an object are in the order of
`Object.entries`. -/
inductive Value (ν : Type)
  | null
  | bool (value : Bool)
  | num (value : ν)
  | str (value : Units)
  | arr (items : List (Value ν))
  | obj (fields : List (Units × Value ν))

/-- An induction in which all items and all fields are at hand. -/
theorem Value.induction {ν : Type} {motive : Value ν → Prop} (null : motive .null) (bool : ∀ value, motive (.bool value))
    (num : ∀ value, motive (.num value)) (str : ∀ value, motive (.str value))
    (arr : ∀ items, (∀ item ∈ items, motive item) → motive (.arr items))
    (obj : ∀ fields, (∀ field ∈ fields, motive field.2) → motive (.obj fields)) : ∀ value, motive value
  | .null => null
  | .bool value => bool value
  | .num value => num value
  | .str value => str value
  | .arr items => arr items fun item _ => Value.induction null bool num str arr obj item
  | .obj fields => obj fields fun field _ => Value.induction null bool num str arr obj field.2
termination_by value => sizeOf value
decreasing_by
  · rename_i hitem
    have hlt := List.sizeOf_lt_of_mem hitem
    simp only [Value.arr.sizeOf_spec]
    omega
  · rename_i hfield
    have hlt := List.sizeOf_lt_of_mem hfield
    obtain ⟨key, value⟩ := field
    simp only [Prod.mk.sizeOf_spec] at hlt
    simp only [Value.obj.sizeOf_spec]
    omega

/-! ## Own properties -/

section Own

variable {α : Type}

def zero : UInt16 := 0x30

def isDigit (u : UInt16) : Bool :=
  0x30 ≤ u.toNat && u.toNat ≤ 0x39

def decimal (digits : Units) : Nat :=
  digits.foldl (fun n u => 10 * n + (u.toNat - 0x30)) 0

def indexLimit : Nat := 2 ^ 32 - 1

/-- The place of a key among the others: array indices come first, in order. -/
def rank (key : Units) : Nat :=
  if key ≠ [] ∧ key.all isDigit ∧ (key.head? ≠ some zero ∨ key = [zero]) then min (decimal key) indexLimit else indexLimit

/-- Define an own property: in place where there is one of that key, else at
its place behind the others. -/
def setOwn (fields : List (Units × α)) (key : Units) (value : α) : List (Units × α) :=
  if key ∈ fields.map Prod.fst then fields.map fun field => if field.1 = key then (key, value) else field
  else
    fields.takeWhile (fun field => rank field.1 ≤ rank key) ++
      (key, value) :: fields.dropWhile fun field => rank field.1 ≤ rank key

def ofMembers (members : List (Units × α)) : List (Units × α) :=
  members.foldl (fun fields member => setOwn fields member.1 member.2) []

structure Ordered (fields : List (Units × α)) : Prop where
  nodup : (fields.map Prod.fst).Nodup
  ranks : fields.Pairwise fun first second => rank first.1 ≤ rank second.1

theorem map_fst_replaced (fields : List (Units × α)) (key : Units) (value : α) :
    (fields.map fun field => if field.1 = key then (key, value) else field).map Prod.fst = fields.map Prod.fst := by
  rw [List.map_map]
  apply List.map_congr_left
  intro field _
  change (if field.1 = key then (key, value) else field).1 = field.1
  split_ifs with hkey
  · exact hkey.symm
  · rfl

/-- Of fields in order, those that a key goes behind come first. -/
theorem lt_of_mem_dropWhile {fields : List (Units × α)}
    (h : fields.Pairwise fun first second => rank first.1 ≤ rank second.1) {key : Units} {field : Units × α}
    (hmem : field ∈ fields.dropWhile fun field => rank field.1 ≤ rank key) : rank key < rank field.1 := by
  induction fields with
  | nil => exact absurd hmem List.not_mem_nil
  | cons first rest ih =>
    obtain ⟨hfirst, hrest⟩ := List.pairwise_cons.1 h
    by_cases hle : rank first.1 ≤ rank key
    · rw [List.dropWhile_cons_of_pos (by exact decide_eq_true hle)] at hmem
      exact ih hrest hmem
    · rw [List.dropWhile_cons_of_neg (by rw [decide_eq_true_eq]; exact hle)] at hmem
      rcases List.mem_cons.1 hmem with rfl | hin
      · omega
      · have hbehind := hfirst field hin
        omega

theorem Ordered.setOwn {fields : List (Units × α)} (h : Ordered fields) (key : Units) (value : α) :
    Ordered (setOwn fields key value) := by
  unfold EcmaJson.setOwn
  split_ifs with hmem
  · constructor
    · rw [map_fst_replaced]
      exact h.nodup
    · have hranks : (fields.map Prod.fst).Pairwise fun first second => rank first ≤ rank second :=
        List.pairwise_map.2 h.ranks
      rw [← map_fst_replaced fields key value] at hranks
      exact (List.pairwise_map (f := Prod.fst) (R := fun first second => rank first ≤ rank second)).1 hranks
  · have hsplit := List.takeWhile_append_dropWhile (p := fun field : Units × α => decide (rank field.1 ≤ rank key)) (l := fields)
    have hnodup := h.nodup
    have hranks := h.ranks
    rw [← hsplit, List.map_append] at hnodup hmem
    rw [← hsplit] at hranks
    constructor
    · rw [List.map_append, List.map_cons, List.nodup_middle, List.nodup_cons]
      exact ⟨hmem, hnodup⟩
    · obtain ⟨hleft, hright, hboth⟩ := List.pairwise_append.1 hranks
      rw [List.pairwise_append, List.pairwise_cons]
      refine ⟨hleft, ⟨?_, hright⟩, ?_⟩
      · intro field hfield
        exact Nat.le_of_lt (lt_of_mem_dropWhile h.ranks hfield)
      · intro field hfield other hother
        rcases List.mem_cons.1 hother with rfl | hin
        · have hle := List.mem_takeWhile_imp hfield
          exact of_decide_eq_true hle
        · exact hboth field hfield other hin

theorem ordered_foldl {fields : List (Units × α)} (h : Ordered fields) (members : List (Units × α)) :
    Ordered (members.foldl (fun fields member => EcmaJson.setOwn fields member.1 member.2) fields) := by
  induction members generalizing fields with
  | nil => exact h
  | cons member rest ih => exact ih (h.setOwn member.1 member.2)

theorem ordered_ofMembers (members : List (Units × α)) : Ordered (ofMembers members) := by
  apply ordered_foldl
  exact ⟨List.Pairwise.nil, List.Pairwise.nil⟩

/-- A key behind all others is put at the end. -/
theorem setOwn_last {fields : List (Units × α)} {key : Units} (h : key ∉ fields.map Prod.fst)
    (hranks : ∀ field ∈ fields, rank field.1 ≤ rank key) (value : α) : setOwn fields key value = fields ++ [(key, value)] := by
  have hall : ∀ field ∈ fields, decide (rank field.1 ≤ rank key) = true := by
    intro field hfield
    exact decide_eq_true (hranks field hfield)
  unfold setOwn
  rw [if_neg h, List.takeWhile_eq_self_iff.2 hall, List.dropWhile_eq_nil_iff.2 hall]

/-- Own properties in order are members of the same object. -/
theorem ofMembers_of_ordered {fields : List (Units × α)} (h : Ordered fields) : ofMembers fields = fields := by
  have hall : ∀ rest first : List (Units × α), Ordered (first ++ rest) →
      rest.foldl (fun fields member => setOwn fields member.1 member.2) first = first ++ rest := by
    intro rest
    induction rest with
    | nil => exact fun first _ => (List.append_nil first).symm
    | cons member rest ih =>
      intro first hordered
      have hnodup := hordered.nodup
      rw [List.map_append, List.map_cons, List.nodup_middle, List.nodup_cons, List.mem_append, not_or] at hnodup
      have hranks : ∀ field ∈ first, rank field.1 ≤ rank member.1 := by
        intro field hfield
        exact (List.pairwise_append.1 hordered.ranks).2.2 field hfield member List.mem_cons_self
      rw [List.foldl_cons, setOwn_last hnodup.1.1 hranks, ih]
      · rw [List.append_assoc, List.singleton_append]
      · rw [List.append_assoc, List.singleton_append]
        exact hordered
  exact hall fields [] h

end Own

/-! ## `JSON.parse` -/

def quotationMark : UInt16 := 0x22

def backslash : UInt16 := 0x5C

def comma : UInt16 := 0x2C

def colon : UInt16 := 0x3A

def openBracket : UInt16 := 0x5B

def closeBracket : UInt16 := 0x5D

def openBrace : UInt16 := 0x7B

def closeBrace : UInt16 := 0x7D

def ascii (text : String) : Units :=
  text.toList.map fun c => UInt16.ofNat c.toNat

def isSpace (u : UInt16) : Bool :=
  u = 0x20 || u = 0x09 || u = 0x0A || u = 0x0D

def skip (text : Units) : Units :=
  text.dropWhile isSpace

def hexValue (u : UInt16) : Option Nat :=
  let n := u.toNat
  if 0x30 ≤ n ∧ n ≤ 0x39 then some (n - 0x30)
  else if 0x61 ≤ n ∧ n ≤ 0x66 then some (n - 0x57)
  else if 0x41 ≤ n ∧ n ≤ 0x46 then some (n - 0x37)
  else none

def hex4 (a b c d : UInt16) : Option UInt16 := do
  let w ← hexValue a
  let x ← hexValue b
  let y ← hexValue c
  let z ← hexValue d
  return UInt16.ofNat (((w * 16 + x) * 16 + y) * 16 + z)

/-- The unit that a letter stands for behind a backslash. -/
def escaped (u : UInt16) : Option UInt16 :=
  match u.toNat with
  | 0x22 => some 0x22
  | 0x5C => some 0x5C
  | 0x2F => some 0x2F
  | 0x62 => some 0x08
  | 0x66 => some 0x0C
  | 0x6E => some 0x0A
  | 0x72 => some 0x0D
  | 0x74 => some 0x09
  | _ => none

/-- A string behind its first quotation mark, and what is left. -/
def readString : Units → Option (Units × Units)
  | [] => none
  | u :: rest =>
      if u = quotationMark then some ([], rest)
      else if u = backslash then
        match rest with
        | e :: a :: b :: c :: d :: more =>
            if e = 0x75 then do
              let unit ← hex4 a b c d
              let (units, left) ← readString more
              return (unit :: units, left)
            else do
              let unit ← escaped e
              let (units, left) ← readString (a :: b :: c :: d :: more)
              return (unit :: units, left)
        | e :: more => do
            let unit ← escaped e
            let (units, left) ← readString more
            return (unit :: units, left)
        | [] => none
      else if u.toNat < 0x20 then none
      else (readString rest).map fun (units, left) => (u :: units, left)

def isNumberUnit (u : UInt16) : Bool :=
  isDigit u || u = 0x2B || u = 0x2D || u = 0x2E || u = 0x65 || u = 0x45

/-- `(\.\d+)?` and `([eE][+-]?\d+)?` up to the end. -/
def isExponent : Units → Bool
  | [] => true
  | mark :: sign :: rest =>
      (mark = 0x65 || mark = 0x45) &&
        (if sign = 0x2B || sign = 0x2D then rest ≠ [] && rest.all isDigit else (sign :: rest).all isDigit)
  | _ => false

def isFraction : Units → Bool
  | mark :: rest =>
      if mark = 0x2E then rest.takeWhile isDigit ≠ [] && isExponent (rest.dropWhile isDigit) else isExponent (mark :: rest)
  | [] => true

def isUnsigned : Units → Bool
  | first :: rest =>
      if first = zero then isFraction rest else isDigit first && isFraction (rest.dropWhile isDigit)
  | [] => false

def isNumber : Units → Bool
  | first :: rest => if first = 0x2D then isUnsigned rest else isUnsigned (first :: rest)
  | [] => false

section Parse

variable {α : Type}

/-- Items with commas between them up to the end of their list. -/
def readItems (item : Units → Option (α × Units)) (close : UInt16) : Nat → Units → Option (List α × Units)
  | 0, _ => none
  | fuel + 1, text => do
      let (value, rest) ← item text
      match skip rest with
      | u :: more =>
          if u = comma then
            let (values, left) ← readItems item close fuel (skip more)
            return (value :: values, left)
          else if u = close then some ([value], more)
          else none
      | [] => none

/-- A list behind its opening bracket; there are fewer items than units. -/
def readList (item : Units → Option (α × Units)) (close : UInt16) (text : Units) : Option (List α × Units) :=
  match skip text with
  | u :: rest => if u = close then some ([], rest) else readItems item close (rest.length + 1) (u :: rest)
  | [] => none

def readMember (value : Units → Option (α × Units)) (text : Units) : Option ((Units × α) × Units) :=
  match text with
  | u :: rest =>
      if u = quotationMark then do
        let (key, rest) ← readString rest
        match skip rest with
        | v :: rest =>
            if v = colon then do
              let (item, rest) ← value (skip rest)
              return ((key, item), rest)
            else none
        | [] => none
      else none
  | [] => none

def readWord (word : Units) (value : α) (text : Units) : Option (α × Units) :=
  if word <+: text then some (value, text.drop word.length) else none

end Parse

section Value

variable {ν : Type} (number : Units → ν)

/-- A value without blanks in front, and what is left; the fuel bounds how
deep it is nested. -/
def readValue : Nat → Units → Option (Value ν × Units)
  | 0, _ => none
  | fuel + 1, text =>
      match text with
      | [] => none
      | u :: rest =>
          if u = openBrace then
            (readList (readMember (readValue fuel)) closeBrace rest).map fun (members, left) => (.obj (ofMembers members), left)
          else if u = openBracket then
            (readList (readValue fuel) closeBracket rest).map fun (items, left) => (.arr items, left)
          else if u = quotationMark then (readString rest).map fun (units, left) => (.str units, left)
          else if u = 0x74 then readWord (ascii "true") (.bool true) (u :: rest)
          else if u = 0x66 then readWord (ascii "false") (.bool false) (u :: rest)
          else if u = 0x6E then readWord (ascii "null") .null (u :: rest)
          else
            let digits := (u :: rest).takeWhile isNumberUnit
            if isNumber digits then some (.num (number digits), (u :: rest).dropWhile isNumberUnit) else none

/-- `JSON.parse`; no value is nested deeper than the text is long. -/
def parse (text : Units) : Option (Value ν) :=
  match readValue number (text.length + 1) (skip text) with
  | some (value, rest) => if skip rest = [] then some value else none
  | none => none

end Value

/-! ## `JSON.stringify` of a string -/

def isHigh (u : UInt16) : Bool :=
  0xD800 ≤ u.toNat && u.toNat < 0xDC00

def isLow (u : UInt16) : Bool :=
  0xDC00 ≤ u.toNat && u.toNat < 0xE000

/-- The lower-case hexadecimal digit of a number below 16. -/
def hexUnit (n : Nat) : UInt16 :=
  UInt16.ofNat (if n < 10 then 0x30 + n else 0x57 + n)

def unicodeEscape (u : UInt16) : Units :=
  let n := u.toNat
  [backslash, 0x75, hexUnit (n / 4096), hexUnit (n / 256 % 16), hexUnit (n / 16 % 16), hexUnit (n % 16)]

def quotedUnit (u : UInt16) : Units :=
  match u.toNat with
  | 0x08 => [backslash, 0x62]
  | 0x09 => [backslash, 0x74]
  | 0x0A => [backslash, 0x6E]
  | 0x0C => [backslash, 0x66]
  | 0x0D => [backslash, 0x72]
  | 0x22 => [backslash, 0x22]
  | 0x5C => [backslash, 0x5C]
  | n => if n < 0x20 then unicodeEscape u else [u]

/-- The units of a string between its quotation marks; a surrogate that stands
alone is escaped. -/
def quotedUnits : Units → Units
  | [] => []
  | u :: rest =>
      if isHigh u then
        match rest with
        | v :: more =>
            if isLow v then u :: v :: quotedUnits more else unicodeEscape u ++ quotedUnits (v :: more)
        | [] => unicodeEscape u
      else if isLow u then unicodeEscape u ++ quotedUnits rest
      else quotedUnit u ++ quotedUnits rest

def quote (units : Units) : Units :=
  quotationMark :: quotedUnits units ++ [quotationMark]

/-! ## Strings that are read back -/

theorem readString_end (rest : Units) : readString (quotationMark :: rest) = some ([], rest) := by
  rw [readString.eq_def]
  dsimp only
  rw [if_pos rfl]

theorem readString_unit {u : UInt16} (hlow : ¬ u.toNat < 0x20) (hquote : u ≠ quotationMark) (hslash : u ≠ backslash)
    (rest : Units) : readString (u :: rest) = (readString rest).map fun (units, left) => (u :: units, left) := by
  rw [readString.eq_def]
  dsimp only
  rw [if_neg hquote, if_neg hslash, if_neg hlow]

theorem readString_escape {e unit : UInt16} (he : e ≠ 0x75) (hunit : escaped e = some unit) (rest : Units) :
    readString (backslash :: e :: rest) = (readString rest).map fun (units, left) => (unit :: units, left) := by
  rw [readString.eq_def]
  dsimp only
  rw [if_neg (by decide), if_pos rfl]
  split
  · rename_i heq
    cases heq
    rw [if_neg he, hunit]
    dsimp only [Option.bind_eq_bind, Option.bind_some]
    cases readString _ <;> rfl
  · rename_i heq
    cases heq
    rw [hunit]
    dsimp only [Option.bind_eq_bind, Option.bind_some]
    cases readString rest <;> rfl
  · rename_i heq
    cases heq

theorem readString_hex {a b c d unit : UInt16} (hunit : hex4 a b c d = some unit) (rest : Units) :
    readString (backslash :: 0x75 :: a :: b :: c :: d :: rest) =
      (readString rest).map fun (units, left) => (unit :: units, left) := by
  rw [readString.eq_def]
  dsimp only
  rw [if_neg (by decide), if_pos rfl, if_pos rfl, hunit]
  dsimp only [Option.bind_eq_bind, Option.bind_some]
  cases readString rest <;> rfl

theorem hexValue_hexUnit {n : Nat} (h : n < 16) : hexValue (hexUnit n) = some n := by
  have hall : ∀ m : Fin 16, hexValue (hexUnit m.val) = some m.val := by decide
  exact hall ⟨n, h⟩

theorem readString_unicodeEscape (u : UInt16) (rest : Units) :
    readString (unicodeEscape u ++ rest) = (readString rest).map fun (units, left) => (u :: units, left) := by
  have hlt : u.toNat < 65536 := u.toNat_lt
  have hsum : ((u.toNat / 4096 * 16 + u.toNat / 256 % 16) * 16 + u.toNat / 16 % 16) * 16 + u.toNat % 16 = u.toNat := by
    omega
  have hhex : hex4 (hexUnit (u.toNat / 4096)) (hexUnit (u.toNat / 256 % 16)) (hexUnit (u.toNat / 16 % 16))
      (hexUnit (u.toNat % 16)) = some u := by
    unfold hex4
    rw [hexValue_hexUnit (by omega), hexValue_hexUnit (by omega), hexValue_hexUnit (by omega), hexValue_hexUnit (by omega)]
    dsimp only [Option.bind_eq_bind, Option.bind_some]
    rw [hsum, UInt16.ofNat_toNat]
    rfl
  exact readString_hex hhex rest

theorem readString_quotedUnit (u : UInt16) (rest : Units) :
    readString (quotedUnit u ++ rest) = (readString rest).map fun (units, left) => (u :: units, left) := by
  have hunit : ∀ n : Nat, u.toNat = n → u = UInt16.ofNat n := by
    intro n hn
    rw [← hn, UInt16.ofNat_toNat]
  unfold quotedUnit
  split
  case h_8 n h8 h9 hA hC hD h22 h5C =>
    split_ifs with hlow
    · exact readString_unicodeEscape u rest
    · apply readString_unit hlow
      · rintro rfl
        exact h22 rfl
      · rintro rfl
        exact h5C rfl
  all_goals
    rename_i heq
    rw [hunit _ heq]
    exact readString_escape (by decide) (by decide) rest

theorem readString_quotedUnits (units more : Units) :
    readString (quotedUnits units ++ quotationMark :: more) = some (units, more) := by
  have hplain : ∀ u : UInt16, 0xD800 ≤ u.toNat → ∀ rest,
      readString (u :: rest) = (readString rest).map fun (units, left) => (u :: units, left) := by
    intro u hu rest
    apply readString_unit (by omega)
    · rintro rfl
      exact absurd hu (by decide)
    · rintro rfl
      exact absurd hu (by decide)
  fun_induction quotedUnits units with
  | case1 => exact readString_end more
  | case2 u hhigh v rest hlow ih =>
    simp only [isHigh, isLow, Bool.and_eq_true, decide_eq_true_eq] at hhigh hlow
    rw [List.cons_append, List.cons_append, hplain u hhigh.1, hplain v (by omega), ih]
    rfl
  | case3 u hhigh v rest hlow ih =>
    rw [List.append_assoc, readString_unicodeEscape, ih]
    rfl
  | case4 u hhigh =>
    rw [readString_unicodeEscape, readString_end]
    rfl
  | case5 u rest hhigh hlow ih =>
    rw [List.append_assoc, readString_unicodeEscape, ih]
    rfl
  | case6 u rest hhigh hlow ih =>
    rw [List.append_assoc, readString_quotedUnit, ih]
    rfl

end Gostman.Lib.EcmaJson
