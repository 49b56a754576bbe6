import Gostman.Binary.Texts
/-!
# Values a format keeps

The values that both formats give back as they were, and, for any format that
writes and reads its parts right, that it gives such values back.
-/

namespace Gostman.Binary

open Gostman.Lib

/-! ## A property of every value in a value -/

mutual

/-- The value and every value in it is as `node` says. -/
def Json.Every (node : Json → Prop) : Json → Prop
  | .null => node .null
  | .bool value => node (.bool value)
  | .num value => node (.num value)
  | .text value => node (.text value)
  | .arr items => node (.arr items) ∧ Json.EveryItem node items
  | .obj fields => node (.obj fields) ∧ Json.EveryField node fields

def Json.EveryItem (node : Json → Prop) : List Json → Prop
  | [] => True
  | value :: rest => value.Every node ∧ Json.EveryItem node rest

/-- `Every` for the properties of an object. -/
def Json.EveryField (node : Json → Prop) : List (Text × Json) → Prop
  | [] => True
  | (_, value) :: rest => value.Every node ∧ Json.EveryField node rest

end

def Json.KeysDistinct : Json → Prop
  | .obj fields => (fields.map Prod.fst).Nodup
  | _ => True

/-- A text that is not too long and has no byte order mark at its start. -/
def PlainText (text : Text) : Prop :=
  text.head? ≠ some byteOrderMark ∧ (encode text).length < 2 ^ 32

instance (text : Text) : Decidable (PlainText text) :=
  inferInstanceAs (Decidable (_ ∧ _))

/-- What a value has to be by itself so that it is kept. -/
def Json.PlainNode : Json → Prop
  | .text value => PlainText value
  | .arr items => items.length < 2 ^ 32
  | .obj fields =>
      fields.length < 2 ^ 32 ∧ ∀ field ∈ fields, PlainText field.1 ∧ field.1 ≠ protoKey
  | _ => True

def Json.Plain (value : Json) : Prop :=
  value.Every Json.PlainNode

/-- A JSON value as `JSON.parse` gives it. -/
structure Document where
  value : Json
  keysDistinct : value.Every Json.KeysDistinct

theorem Json.items_eq (items : List Json) : Json.items items = items.map Json.item := by
  induction items with
  | nil => rfl
  | cons value items ih => rw [Json.items, ih, List.map_cons]

theorem Json.entries_eq (fields : List (Text × Json)) :
    Json.entries fields = fields.map fun field => (field.1, field.2.item) := by
  induction fields with
  | nil => rfl
  | cons field fields ih => rw [Json.entries, ih, List.map_cons]

theorem Json.everyItem_iff {node : Json → Prop} {items : List Json} :
    Json.EveryItem node items ↔ ∀ value ∈ items, value.Every node := by
  induction items with
  | nil => simp [Json.EveryItem]
  | cons value items ih => simp [Json.EveryItem, ih]

theorem Json.everyField_iff {node : Json → Prop} {fields : List (Text × Json)} :
    Json.EveryField node fields ↔ ∀ field ∈ fields, field.2.Every node := by
  induction fields with
  | nil => simp [Json.EveryField]
  | cons field fields ih =>
    rw [Json.EveryField, ih, List.forall_mem_cons]

theorem Json.nesting_lt_nestings {items : List Json} {value : Json} (h : value ∈ items) :
    value.nesting < Json.nestings items := by
  induction items with
  | nil => exact absurd h List.not_mem_nil
  | cons first items ih =>
    rw [Json.nestings]
    rcases List.mem_cons.1 h with rfl | h
    · omega
    · have hlt := ih h
      omega

theorem Json.nesting_lt_fieldNestings {fields : List (Text × Json)} {field : Text × Json}
    (h : field ∈ fields) : field.2.nesting < Json.fieldNestings fields := by
  induction fields with
  | nil => exact absurd h List.not_mem_nil
  | cons first fields ih =>
    rw [Json.fieldNestings]
    rcases List.mem_cons.1 h with rfl | h
    · omega
    · have hlt := ih h
      omega

/-! ## Storing -/

theorem store_of_ne {key : Text} (hkey : key ≠ protoKey) (result : List (Text × Item) × Bool)
    (value : Item) : store result key value = (Record.put result.1 key value, result.2) := by
  unfold store
  rw [if_neg (fun h => hkey h.1)]

theorem foldl_store_of_ne {entries : List (Text × Item)}
    (hkeys : ∀ entry ∈ entries, entry.1 ≠ protoKey) (result : List (Text × Item) × Bool) :
    entries.foldl (fun result entry => store result entry.1 entry.2) result =
      (Record.overlay result.1 entries, result.2) := by
  induction entries generalizing result with
  | nil => rfl
  | cons entry entries ih =>
    rw [List.foldl_cons, store_of_ne (hkeys entry List.mem_cons_self),
      ih (fun other hother => hkeys other (List.mem_cons_of_mem entry hother)), Record.overlay_cons]

/-- Distinct keys that are not `__proto__` are stored as they are. -/
theorem stored_eq {entries : List (Text × Item)} (hdistinct : (entries.map Prod.fst).Nodup)
    (hkeys : ∀ entry ∈ entries, entry.1 ≠ protoKey) : stored entries = (entries, true) := by
  unfold stored
  rw [foldl_store_of_ne hkeys]
  exact congrArg (·, true) (Record.ofEntries_of_nodup entries hdistinct)

theorem Json.stored_entries {fields : List (Text × Json)} (hdistinct : (fields.map Prod.fst).Nodup)
    (hkeys : ∀ field ∈ fields, field.1 ≠ protoKey) :
    stored (Json.entries fields) = (Json.entries fields, true) := by
  refine stored_eq ?_ ?_
  · rw [Json.entries_eq, List.map_map]
    exact hdistinct
  · intro entry hentry
    rw [Json.entries_eq] at hentry
    obtain ⟨field, hfield, rfl⟩ := List.mem_map.1 hentry
    exact hkeys field hfield

theorem length_store_le (result : List (Text × Item) × Bool) (key : Text) (value : Item) :
    (store result key value).1.length ≤ result.1.length + 1 := by
  unfold store
  split
  case isTrue => exact Nat.le_succ _
  case isFalse =>
    rw [Record.length_put]
    split <;> omega

theorem length_foldl_store_le (entries : List (Text × Item)) (result : List (Text × Item) × Bool) :
    (entries.foldl (fun result entry => store result entry.1 entry.2) result).1.length ≤
      result.1.length + entries.length := by
  induction entries generalizing result with
  | nil => exact Nat.le_refl _
  | cons entry entries ih =>
    have hrest := ih (store result entry.1 entry.2)
    have hstore := length_store_le result entry.1 entry.2
    rw [List.foldl_cons, List.length_cons]
    omega

/-- Where nothing is lost, every entry was new and none set the prototype. -/
theorem eq_of_length_foldl_store {entries : List (Text × Item)}
    {result : List (Text × Item) × Bool} (hrooted : result.2 = true)
    (h : (entries.foldl (fun result entry => store result entry.1 entry.2) result).1.length =
      result.1.length + entries.length) :
    (entries.foldl (fun result entry => store result entry.1 entry.2) result).1 =
        result.1 ++ entries ∧
      ∀ entry ∈ entries, entry.1 ≠ protoKey := by
  induction entries generalizing result with
  | nil =>
    rw [List.foldl_nil, List.append_nil]
    exact ⟨rfl, fun entry hentry => absurd hentry List.not_mem_nil⟩
  | cons entry entries ih =>
    rw [List.foldl_cons, List.length_cons] at h
    have hrest := length_foldl_store_le entries (store result entry.1 entry.2)
    have hkey : entry.1 ≠ protoKey := by
      intro hproto
      have hlost : (store result entry.1 entry.2).1 = result.1 := by
        unfold store
        rw [if_pos ⟨hproto, hrooted⟩]
      rw [hlost] at hrest
      omega
    have hstore : store result entry.1 entry.2 = (Record.put result.1 entry.1 entry.2, true) := by
      rw [store_of_ne hkey, hrooted]
    have hput : Record.put result.1 entry.1 entry.2 = result.1 ++ [entry] := by
      refine Record.keys_put_of_notMem result.1 entry.1 entry.2 ?_
      intro hmem
      rw [hstore, Record.length_put, if_pos hmem] at hrest
      rw [hstore] at h
      omega
    rw [hstore, hput] at h
    obtain ⟨heq, hkeys⟩ := ih rfl (by rw [h, List.length_append, List.length_singleton]; omega)
    rw [List.foldl_cons, hstore, hput, heq, List.append_assoc, List.singleton_append]
    refine ⟨rfl, ?_⟩
    intro other hother
    rcases List.mem_cons.1 hother with rfl | hother
    · exact hkey
    · exact hkeys other hother

/-! ## Formats -/

/-- A format: what it writes for a value and for a text, and how it reads with
so many levels left. -/
structure Format where
  write : Json → Bytes
  writeText : Text → Bytes
  read : Nat → Reading Item

namespace Format

variable {runtime : Runtime} {format : Format}

def writeField (format : Format) (field : Text × Json) : Bytes :=
  format.writeText field.1 ++ format.write field.2

/-- The format reads back what has no parts, and takes arrays and objects
apart as it put them together. -/
structure Faithful (runtime : Runtime) (format : Format) : Prop where
  write_ne_nil : ∀ value, format.write value ≠ []
  write_text : ∀ text, format.write (.text text) = format.writeText text
  read_null : ∀ levels rest,
    format.read (levels + 1) (format.write .null ++ rest) = some (.null, rest)
  read_bool : ∀ levels value rest,
    format.read (levels + 1) (format.write (.bool value) ++ rest) = some (.bool value, rest)
  read_num : ∀ levels value rest,
    format.read (levels + 1) (format.write (.num value) ++ rest) =
      some (.number (.finite value.multiple), rest)
  read_text : ∀ levels text rest, PlainText text →
    format.read (levels + 1) (format.writeText text ++ rest) = some (.text text, rest)
  read_arr : ∀ levels items rest, items.length < 2 ^ 32 →
    format.read (levels + 1) (format.write (.arr items) ++ rest) =
      through (readItems (format.read levels) items.length) (fun items => some (.array items))
        (items.flatMap format.write ++ rest)
  read_obj : ∀ levels fields rest, fields.length < 2 ^ 32 →
    format.read (levels + 1) (format.write (.obj fields) ++ rest) =
      through (readEntries (format.read levels) fields.length) (objectOf runtime)
        (fields.flatMap format.writeField ++ rest)

theorem readItems_append {read : Reading Item} (items : List Json)
    (hnonempty : ∀ value, format.write value ≠ [])
    (h : ∀ value ∈ items, ∀ rest, read (format.write value ++ rest) = some (value.item, rest))
    (rest : Bytes) :
    readItems read items.length (items.flatMap format.write ++ rest) =
      some (Json.items items, rest) := by
  have hlength := mul_length_le_flatMap
    (fun value => List.length_pos_of_ne_nil (hnonempty value)) items
  unfold readItems checkCount
  rw [if_pos, times_append items h, Json.items_eq]
  rw [decide_eq_true_iff, List.length_append]
  omega

/-- An entry is read as its key and its value. -/
theorem readEntry_append {read : Reading Item} {field : Text × Json} {rest : Bytes}
    (hkey : ∀ rest, read (format.writeText field.1 ++ rest) = some (.text field.1, rest))
    (hvalue : ∀ rest, read (format.write field.2 ++ rest) = some (field.2.item, rest)) :
    readEntry read (format.writeField field ++ rest) =
      some ((.text field.1, field.2.item), rest) := by
  unfold readEntry writeField
  rw [List.append_assoc]
  exact inTurn_eq_some.2 ⟨_, hkey _, hvalue rest⟩

theorem readEntries_append {read : Reading Item} (fields : List (Text × Json))
    (hnonempty : ∀ field, 2 ≤ (format.writeField field).length)
    (hkeys : ∀ field ∈ fields, ∀ rest,
      read (format.writeText field.1 ++ rest) = some (.text field.1, rest))
    (hvalues : ∀ field ∈ fields, ∀ rest,
      read (format.write field.2 ++ rest) = some (field.2.item, rest))
    (rest : Bytes) :
    readEntries read fields.length (fields.flatMap format.writeField ++ rest) =
      some (fields.map fun field => (.text field.1, field.2.item), rest) := by
  have hlength := mul_length_le_flatMap hnonempty fields
  unfold readEntries checkCount
  rw [if_pos, times_append fields]
  · exact fun field hfield rest => readEntry_append (hkeys field hfield) (hvalues field hfield)
  · rw [decide_eq_true_iff, List.length_append]
    omega

theorem keyed_texts (fields : List (Text × Json)) :
    keyed runtime (fields.map fun field => (.text field.1, field.2.item)) =
      some (Json.entries fields) := by
  induction fields with
  | nil => rfl
  | cons field fields ih =>
    rw [List.map_cons, keyed, ih]
    rfl

namespace Faithful

theorem two_le_writeField (h : format.Faithful runtime) (field : Text × Json) :
    2 ≤ (format.writeField field).length := by
  have hkey := List.length_pos_of_ne_nil (h.write_ne_nil (.text field.1))
  have hvalue := List.length_pos_of_ne_nil (h.write_ne_nil field.2)
  rw [h.write_text] at hkey
  unfold writeField
  rw [List.length_append]
  omega

/-- What is kept is read back, whatever follows. -/
theorem read_write (h : format.Faithful runtime) (value : Json) {levels : Nat}
    (hplain : value.Plain) (hdistinct : value.Every Json.KeysDistinct)
    (hlevels : value.nesting ≤ levels) (rest : Bytes) :
    format.read (levels + 1) (format.write value ++ rest) = some (value.item, rest) := by
  induction value using Json.induct generalizing levels rest with
  | null => exact h.read_null levels rest
  | bool value => exact h.read_bool levels value rest
  | num value => exact h.read_num levels value rest
  | text value =>
    rw [h.write_text]
    exact h.read_text levels value rest hplain
  | arr items ih =>
    have heach : ∀ value ∈ items, ∀ rest,
        format.read levels (format.write value ++ rest) = some (value.item, rest) := by
      intro value hvalue rest
      have hdeeper := Nat.lt_of_lt_of_le (Json.nesting_lt_nestings hvalue) hlevels
      obtain ⟨lower, rfl⟩ := Nat.exists_eq_add_one.2 (Nat.zero_lt_of_lt hdeeper)
      exact ih value hvalue (Json.everyItem_iff.1 hplain.2 value hvalue)
        (Json.everyItem_iff.1 hdistinct.2 value hvalue) (Nat.le_of_lt_succ hdeeper) rest
    rw [h.read_arr levels items rest hplain.1]
    exact through_eq_some.2 ⟨_, readItems_append items h.write_ne_nil heach rest, rfl⟩
  | obj fields ih =>
    have heach : ∀ field ∈ fields, ∀ rest,
        format.read levels (format.writeText field.1 ++ rest) = some (.text field.1, rest) ∧
          format.read levels (format.write field.2 ++ rest) = some (field.2.item, rest) := by
      intro field hfield rest
      have hdeeper := Nat.lt_of_lt_of_le (Json.nesting_lt_fieldNestings hfield) hlevels
      obtain ⟨lower, rfl⟩ := Nat.exists_eq_add_one.2 (Nat.zero_lt_of_lt hdeeper)
      constructor
      · exact h.read_text lower field.1 rest (hplain.1.2 field hfield).1
      · exact ih field hfield (Json.everyField_iff.1 hplain.2 field hfield)
          (Json.everyField_iff.1 hdistinct.2 field hfield) (Nat.le_of_lt_succ hdeeper) rest
    have hstored := Json.stored_entries hdistinct.1 fun field hfield => (hplain.1.2 field hfield).2
    have hread := readEntries_append fields h.two_le_writeField
      (fun field hfield rest => (heach field hfield rest).1)
      (fun field hfield rest => (heach field hfield rest).2) rest
    rw [h.read_obj levels fields rest hplain.1.1]
    refine through_eq_some.2 ⟨_, hread, ?_⟩
    rw [objectOf, keyed_texts, Option.map_some, hstored]
    rfl

end Faithful

end Format

end Gostman.Binary
