import Gostman.Binary.Cbor
/-!
# CBOR as trees

How the decoder cuts bytes into items, apart from the values it makes of them.
What it reads is the value of the tree it cuts.
-/

namespace Gostman.Binary.Cbor

open Gostman.Lib

/-- How the members of an item of indefinite length end: with a break, or with
something else that the decoder takes for one. -/
inductive Ending where
  | bare
  | wrapped
  deriving DecidableEq

/-- What bytes are cut into.  An array or a map without an ending has its
number of members in front. -/
inductive Node where
  | integer (major argument : Nat)
  | bytes (front : Bytes)
  | text (front : Bytes)
  | chunks (major : Nat) (parts : List Node) (ending : Ending)
  | array (items : List Node) (ending : Option Ending)
  | map (entries : List (Node × Node)) (ending : Option Ending)
  | tag (number : Option Nat) (content : Node)
  | simple (info bits : Nat)
  | stop

section Induction

variable {motive : Node → Prop} (integer : ∀ major argument, motive (.integer major argument))
  (bytes : ∀ front, motive (.bytes front)) (text : ∀ front, motive (.text front))
  (chunks : ∀ major parts ending, (∀ part ∈ parts, motive part) →
    motive (.chunks major parts ending))
  (array : ∀ items ending, (∀ item ∈ items, motive item) → motive (.array items ending))
  (map : ∀ entries ending, (∀ entry ∈ entries, motive entry.1 ∧ motive entry.2) →
    motive (.map entries ending))
  (tag : ∀ number content, motive content → motive (.tag number content))
  (simple : ∀ info bits, motive (.simple info bits)) (stop : motive .stop)

include integer bytes text chunks array map tag simple stop

set_option linter.unusedSectionVars false

mutual

/-- What holds of a tree when it holds of every tree in it holds of every
tree. -/
theorem Node.induct : ∀ node, motive node
  | .integer major argument => integer major argument
  | .bytes front => bytes front
  | .text front => text front
  | .chunks major parts ending => chunks major parts ending (Node.induct_items parts)
  | .array items ending => array items ending (Node.induct_items items)
  | .map entries ending => map entries ending (Node.induct_entries entries)
  | .tag number content => tag number content (Node.induct content)
  | .simple info bits => simple info bits
  | .stop => stop

theorem Node.induct_items : ∀ items : List Node, ∀ item ∈ items, motive item
  | [], _, h => absurd h List.not_mem_nil
  | first :: items, item, h =>
      (List.mem_cons.1 h).elim (fun heq => heq ▸ Node.induct first)
        fun hmem => Node.induct_items items item hmem

theorem Node.induct_entries : ∀ entries : List (Node × Node), ∀ entry ∈ entries,
    motive entry.1 ∧ motive entry.2
  | [], _, h => absurd h List.not_mem_nil
  | (key, value) :: entries, entry, h =>
      (List.mem_cons.1 h).elim (fun heq => heq ▸ ⟨Node.induct key, Node.induct value⟩)
        fun hmem => Node.induct_entries entries entry hmem

end

end Induction

/-! ## Cutting -/

/-- What the decoder takes for a break: a break, also behind tags that only say
that CBOR follows. -/
def Node.isBreak : Node → Bool
  | .stop => true
  | .tag number content => number == some 55799 && content.isBreak
  | _ => false

def Node.ending : Node → Ending
  | .stop => .bare
  | _ => .wrapped

/-- How a tree ends what has an indefinite length, if it does. -/
def breakEnds (node : Node) : Option Ending :=
  if node.isBreak then some node.ending else none

def cutUntil (cut : Reading Node) : Reading (List Node × Ending) :=
  toEnd (orEnd breakEnds cut)

def cutEntriesUntil (cut : Reading Node) : Reading (List (Node × Node) × Ending) :=
  toEnd (inTurnOrEnd breakEnds cut cut)

def cutSimple (info : Nat) : Reading Node := fun bytes =>
  if info = 31 then some (.stop, bytes)
  else if info < 24 ∨ 28 ≤ info then some (.simple info 0, bytes)
  else through (unsigned (2 ^ (info - 24))) (fun bits => some (.simple info bits)) bytes

/-- What an item with an argument or of indefinite length is cut into. -/
def cutBody (nested : Reading Node) (major : Nat) (argument : Option Nat) : Reading Node :=
  match major, argument with
  | 0, some value => fun bytes => some (.integer 0 value, bytes)
  | 1, some value => fun bytes => some (.integer 1 value, bytes)
  | 2, some count => through (takeBytes count) fun front => some (.bytes front)
  | 3, some count => through (takeBytes count) fun front => some (.text front)
  | 2, none => through (cutUntil nested) fun found => some (.chunks 2 found.1 found.2)
  | 3, none => through (cutUntil nested) fun found => some (.chunks 3 found.1 found.2)
  | 4, none => through (cutUntil nested) fun found => some (.array found.1 (some found.2))
  | 4, some count => through (times nested count) fun items => some (.array items none)
  | 5, none => through (cutEntriesUntil nested) fun found => some (.map found.1 (some found.2))
  | 5, some count =>
      through (times (inTurn nested nested) count) fun entries => some (.map entries none)
  | 6, tag => through nested fun content => some (.tag tag content)
  | _, _ => fun _ => none

/-- What bytes start with, cut into a tree, where `nested` cuts what it
contains. -/
def cutWith (nested : Reading Node) : Reading Node
  | [] => none
  | initial :: rest =>
      let major := initial.toNat / 32
      let info := initial.toNat % 32
      if major = 7 then cutSimple info rest
      else if info = 31 then if major ≤ 1 then none else cutBody nested major none rest
      else do
        let (argument, rest) ← readArgument info rest
        cutBody nested major (some argument) rest

/-- What bytes start with, cut into a tree of so many levels at most. -/
def cut : Nat → Reading Node
  | 0 => fun _ => none
  | levels + 1 => cutWith (cut levels)

/-! ## Values -/

def simpleItem (info bits : Nat) : Item :=
  if info = 20 then .bool false
  else if info = 21 then .bool true
  else if info = 22 ∨ info = 23 then .null
  else if info = 25 then .number (float16 bits)
  else if info = 26 then .number (float32 bits)
  else if info = 27 then .number (float64 bits)
  else if info = 24 then .simple bits
  else .simple info

mutual

/-- The value of a tree, `none` where making it throws. -/
def Node.value (runtime : Runtime) : Node → Option Item
  | .integer major argument => some (argumentItem major argument)
  | .bytes front => some (.binary front)
  | .text front => some (.text (decodeText front))
  | .chunks major parts _ => (Node.values runtime parts).bind (joined major)
  | .array items _ => (Node.values runtime items).bind fun items => some (.array items)
  | .map entries _ => (Node.entryValues runtime entries).bind (objectOf runtime)
  | .tag number content => (content.value runtime).bind (tagged runtime number)
  | .simple info bits => some (simpleItem info bits)
  | .stop => some .mark

def Node.values (runtime : Runtime) : List Node → Option (List Item)
  | [] => some []
  | first :: rest => do
      let item ← first.value runtime
      let items ← Node.values runtime rest
      return item :: items

def Node.entryValues (runtime : Runtime) : List (Node × Node) → Option (List (Item × Item))
  | [] => some []
  | (key, value) :: rest => do
      let keyItem ← key.value runtime
      let valueItem ← value.value runtime
      let entries ← Node.entryValues runtime rest
      return (keyItem, valueItem) :: entries

end

variable {runtime : Runtime}

theorem values_eq (nodes : List Node) :
    Node.values runtime nodes = nodes.mapM (Node.value runtime) := by
  induction nodes with
  | nil => rfl
  | cons node nodes ih => rw [Node.values, ih, List.mapM_cons]

theorem entryValues_eq (entries : List (Node × Node)) :
    Node.entryValues runtime entries =
      entries.mapM (bothMean (Node.value runtime) (Node.value runtime)) := by
  induction entries with
  | nil => rfl
  | cons entry entries ih =>
    obtain ⟨key, value⟩ := entry
    rw [Node.entryValues, ih, List.mapM_cons, bothMean]
    simp [Option.bind_assoc, Option.map_eq_bind]

/-! ## Marks -/

def isScalar : Item → Bool
  | .text _ | .number _ | .bigint _ => true
  | _ => false

theorem isScalar_fromBigInt (value : Int) : isScalar (fromBigInt value) = true := by
  unfold fromBigInt
  split <;> rfl

/-- A tag that does not only say that CBOR follows gives a tagged value, a
number or a text. -/
theorem tagged_cases {tag : Option Nat} {value item : Item}
    (h : tagged runtime tag value = some item) :
    tag = some 55799 ∧ item = value ∨
      tag ≠ some 55799 ∧ (item = .tagged tag value ∨ isScalar item = true) := by
  unfold tagged at h
  split at h
  case isTrue htag => exact .inl ⟨htag, (Option.some.inj h).symm⟩
  case isFalse htag =>
    refine .inr ⟨htag, ?_⟩
    split at h
    · obtain rfl := Option.some.inj h
      split
      · exact .inr rfl
      · exact .inl rfl
    · split at h
      · obtain ⟨text, -, rfl⟩ := Option.map_eq_some_iff.1 h
        exact .inr rfl
      · exact .inl (Option.some.inj h).symm
    · split at h
      · obtain rfl := Option.some.inj h
        exact .inr (isScalar_fromBigInt _)
      split at h
      · obtain rfl := Option.some.inj h
        exact .inr (isScalar_fromBigInt _)
      · exact .inl (Option.some.inj h).symm
    · exact .inl (Option.some.inj h).symm

theorem isMark_tagged {tag : Option Nat} {value item : Item}
    (h : tagged runtime tag value = some item) :
    isMark item = (tag == some 55799 && isMark value) := by
  rcases tagged_cases h with ⟨rfl, rfl⟩ | ⟨htag, hitem⟩
  · rfl
  · have hother : (tag == some 55799) = false := by simpa using htag
    rw [hother, Bool.false_and]
    rcases hitem with rfl | hscalar
    · rfl
    · cases item with
      | mark => exact absurd hscalar Bool.false_ne_true
      | _ => rfl

/-- A tree is the mark when the decoder takes it for a break. -/
theorem isMark_of_value {node : Node} {item : Item} (h : node.value runtime = some item) :
    isMark item = node.isBreak := by
  induction node using Node.induct generalizing item with
  | integer major argument =>
    obtain rfl := Option.some.inj h
    unfold argumentItem
    simp only
    split <;> rfl
  | bytes front =>
    obtain rfl := Option.some.inj h
    rfl
  | text front =>
    obtain rfl := Option.some.inj h
    rfl
  | chunks major parts ending =>
    obtain ⟨items, -, hjoined⟩ := Option.bind_eq_some_iff.1 h
    unfold joined at hjoined
    split at hjoined
    · obtain ⟨text, -, rfl⟩ := Option.map_eq_some_iff.1 hjoined
      rfl
    · obtain ⟨bytes, -, rfl⟩ := Option.map_eq_some_iff.1 hjoined
      rfl
  | array items ending =>
    obtain ⟨values, -, harray⟩ := Option.bind_eq_some_iff.1 h
    obtain rfl := Option.some.inj harray
    rfl
  | map entries ending =>
    obtain ⟨values, -, hobject⟩ := Option.bind_eq_some_iff.1 h
    obtain ⟨named, -, rfl⟩ := Option.map_eq_some_iff.1 hobject
    rfl
  | tag number content ih =>
    obtain ⟨value, hvalue, htagged⟩ := Option.bind_eq_some_iff.1 h
    rw [isMark_tagged htagged, ih hvalue, Node.isBreak]
  | simple info bits =>
    obtain rfl := Option.some.inj h
    unfold simpleItem
    split_ifs <;> rfl
  | stop =>
    obtain rfl := Option.some.inj h
    rfl

theorem value_of_isBreak {node : Node} (h : node.isBreak = true) :
    node.value runtime = some .mark := by
  induction node using Node.induct with
  | tag number content ih =>
    obtain ⟨hnumber, hcontent⟩ := Bool.and_eq_true_iff.1 h
    rw [eq_of_beq hnumber, Node.value, ih hcontent]
    rfl
  | stop => rfl
  | _ => exact absurd h Bool.false_ne_true

/-! ## What is read is the value of what is cut -/

theorem value_endsAlike :
    EndsAlike (Node.value runtime) breakEnds markEnds (fun _ => some ()) where
  ended node ending h := by
    have hbreak : node.isBreak = true := by
      unfold breakEnds at h
      exact (Option.ite_none_right_eq_some.1 h).1
    rw [value_of_isBreak hbreak]
    refine ⟨rfl, ?_⟩
    intro item hitem
    obtain rfl := Option.some.inj hitem
    rfl
  goesOn node item h hvalue := by
    unfold breakEnds at h
    unfold markEnds
    rw [isMark_of_value hvalue]
    cases hbreak : node.isBreak with
    | true => rw [hbreak] at h; exact absurd h (Option.some_ne_none _)
    | false => rfl

section Nested

variable {nested : Reading Node}

theorem readUntil_through : readUntil (through nested (Node.value runtime)) =
    through (cutUntil nested) fun found => Node.values runtime found.1 := by
  unfold readUntil cutUntil
  rw [orEnd_through value_endsAlike, toEnd_through, through_through]
  refine through_congr fun _ found _ _ => ?_
  rw [values_eq, eitherAll]
  simp [Option.bind_assoc]

theorem readEntriesUntil_through : readEntriesUntil (through nested (Node.value runtime)) =
    through (cutEntriesUntil nested) fun found => Node.entryValues runtime found.1 := by
  unfold readEntriesUntil cutEntriesUntil
  rw [inTurnOrEnd_through value_endsAlike, toEnd_through, through_through]
  refine through_congr fun _ found _ _ => ?_
  rw [entryValues_eq, eitherAll]
  simp [Option.bind_assoc]

/-- A number of items that each take a byte is not larger than the bytes. -/
theorem readItems_through (h : Takes 1 nested) (count : Nat) :
    readItems (through nested (Node.value runtime)) count =
      through (times nested count) (Node.values runtime) := by
  have hvalues : Node.values runtime = List.mapM (Node.value runtime) := funext values_eq
  rw [hvalues, ← times_through]
  refine Reading.ext_iff.2 fun bytes items rest => ?_
  unfold readItems checkCount
  rw [Option.ite_none_right_eq_some, decide_eq_true_iff]
  refine ⟨And.right, fun htimes => ⟨?_, htimes⟩⟩
  have htaken := takes_times (takes_through h _) count bytes items rest htimes
  omega

theorem readEntries_through (h : Takes 1 nested) (count : Nat) :
    readEntries (through nested (Node.value runtime)) count =
      through (times (inTurn nested nested) count) (Node.entryValues runtime) := by
  have hvalues : Node.entryValues runtime =
      List.mapM (bothMean (Node.value runtime) (Node.value runtime)) := funext entryValues_eq
  have hentry : readEntry (through nested (Node.value runtime)) =
      through (inTurn nested nested) (bothMean (Node.value runtime) (Node.value runtime)) :=
    inTurn_through
  rw [hvalues, ← times_through, ← hentry]
  refine Reading.ext_iff.2 fun bytes entries rest => ?_
  unfold readEntries checkCount
  rw [Option.ite_none_right_eq_some, decide_eq_true_iff]
  refine ⟨And.right, fun htimes => ⟨?_, htimes⟩⟩
  have htaken := takes_times (takes_inTurn (takes_through h _) (takes_through h _)) count
    bytes entries rest htimes
  omega

theorem readSimple_wide {info : Nat} (h : 24 ≤ info ∧ info < 28) :
    readSimple info = through (unsigned (2 ^ (info - 24))) fun bits => some (simpleItem info bits) := by
  have hinfo : info = 24 ∨ info = 25 ∨ info = 26 ∨ info = 27 := by omega
  rcases hinfo with rfl | rfl | rfl | rfl <;> rfl

theorem readSimple_narrow {info : Nat} (h : info < 24 ∨ 28 ≤ info) (hstop : info ≠ 31)
    (bytes : Bytes) : readSimple info bytes = some (simpleItem info 0, bytes) := by
  unfold readSimple simpleItem
  simp only [show info ≠ 25 by omega, show info ≠ 26 by omega, show info ≠ 27 by omega, hstop,
    show info ≠ 24 by omega, if_false]
  split_ifs <;> rfl

theorem readSimple_through (info : Nat) :
    readSimple info = through (cutSimple info) (Node.value runtime) := by
  by_cases hstop : info = 31
  · subst hstop
    rfl
  by_cases hnarrow : info < 24 ∨ 28 ≤ info
  · funext bytes
    have hcut : cutSimple info bytes = some (.simple info 0, bytes) := by
      rw [cutSimple, if_neg hstop, if_pos hnarrow]
    rw [readSimple_narrow hnarrow hstop, through, hcut]
    rfl
  · have hcut : cutSimple info =
        through (unsigned (2 ^ (info - 24))) fun bits => some (.simple info bits) := by
      funext bytes
      rw [cutSimple, if_neg hstop, if_neg hnarrow]
    rw [readSimple_wide (by omega), hcut, through_through]
    rfl

theorem readBody_through (h : Takes 1 nested) : ∀ (major : Nat) (argument : Option Nat),
    readBody runtime (through nested (Node.value runtime)) major argument =
      through (cutBody nested major argument) (Node.value runtime)
  | 0, some _ | 1, some _ | 0, none | 1, none => rfl
  | 2, some _ | 3, some _ => by
      simp only [readBody, cutBody, through_through]
      rfl
  | 2, none | 3, none => by
      simp only [readBody, cutBody, joinChunks, readUntil_through, through_through]
      rfl
  | 4, none => by
      simp only [readBody, cutBody, readArray, readUntil_through, through_through]
      rfl
  | 4, some _ => by
      simp only [readBody, cutBody, readArray, readItems_through h, through_through]
      rfl
  | 5, none => by
      simp only [readBody, cutBody, readMap, readEntriesUntil_through, through_through]
      rfl
  | 5, some _ => by
      simp only [readBody, cutBody, readMap, readEntries_through h, through_through]
      rfl
  | 6, _ => by
      simp only [readBody, cutBody, through_through]
      rfl
  | _ + 7, _ => rfl

theorem readWith_through (h : Takes 1 nested) :
    readWith runtime (through nested (Node.value runtime)) =
      through (cutWith nested) (Node.value runtime) := by
  funext bytes
  cases bytes with
  | nil => rfl
  | cons initial rest =>
    simp only [readWith, readBody_through h, @readSimple_through runtime]
    unfold through cutWith
    simp only
    split
    · rfl
    split
    · split <;> rfl
    · rcases readArgument (initial.toNat % 32) rest with - | ⟨argument, rest'⟩ <;> rfl

end Nested

/-! ## Every tree takes a byte -/

theorem takes_readArgument (info : Nat) : Takes 0 (readArgument info) := by
  intro bytes value rest hread
  unfold readArgument at hread
  split at hread
  · obtain ⟨-, rfl⟩ := Prod.mk.inj (Option.some.inj hread)
    exact Nat.le_refl _
  split at hread
  · exact takes_unsigned 1 bytes value rest hread
  split at hread
  · exact takes_unsigned 2 bytes value rest hread
  split at hread
  · exact takes_unsigned 4 bytes value rest hread
  split at hread
  · exact takes_unsigned 8 bytes value rest hread
  · exact absurd hread (Option.some_ne_none _).symm

theorem takes_cutSimple (info : Nat) : Takes 0 (cutSimple info) := by
  intro bytes node rest hread
  unfold cutSimple at hread
  split at hread
  · exact takes_pure _ bytes node rest hread
  split at hread
  · exact takes_pure _ bytes node rest hread
  · exact takes_through (takes_unsigned _) _ bytes node rest hread

section Nested

variable {nested : Reading Node} (h : Takes 0 nested)

include h

theorem takes_cutBody (major : Nat) (argument : Option Nat) :
    Takes 0 (cutBody nested major argument) := by
  have huntil : Takes 0 (cutUntil nested) := takes_toEnd (takes_through h _)
  unfold cutBody
  split
  · exact takes_pure _
  · exact takes_pure _
  · exact takes_through (takes_takeBytes _) _
  · exact takes_through (takes_takeBytes _) _
  · exact takes_through huntil _
  · exact takes_through huntil _
  · exact takes_through huntil _
  · exact takes_through ((takes_times h _).weaken (Nat.zero_le _)) _
  · exact takes_through (takes_toEnd (takes_inTurnOrEnd h h)) _
  · exact takes_through ((takes_times (takes_inTurn h h) _).weaken (Nat.zero_le _)) _
  · exact takes_through h _
  · exact takes_none _

theorem takes_cutWith : Takes 1 (cutWith nested) := by
  intro bytes node rest hread
  cases bytes with
  | nil => exact absurd hread (Option.some_ne_none _).symm
  | cons initial bytes =>
    suffices rest.length + 0 ≤ bytes.length by
      rw [List.length_cons]
      omega
    unfold cutWith at hread
    simp only at hread
    split at hread
    · exact takes_cutSimple _ bytes node rest hread
    split at hread
    · split at hread
      · exact absurd hread (Option.some_ne_none _).symm
      · exact takes_cutBody h _ none bytes node rest hread
    · obtain ⟨⟨argument, bytes'⟩, hargument, hread⟩ := Option.bind_eq_some_iff.1 hread
      have htaken := takes_readArgument _ bytes argument bytes' hargument
      have hrest := takes_cutBody h _ (some argument) bytes' node rest hread
      omega

end Nested

theorem takes_cut (levels : Nat) : Takes 1 (cut levels) := by
  induction levels with
  | zero => exact takes_none 1
  | succ levels ih => exact takes_cutWith (ih.weaken (Nat.zero_le 1))

/-- What the decoder reads is the value of the tree it cuts. -/
theorem readItem_eq (levels : Nat) :
    readItem runtime levels = through (cut levels) (Node.value runtime) := by
  induction levels with
  | zero => rfl
  | succ levels ih => rw [readItem, cut, ih, readWith_through (takes_cut levels)]

/-- The decoder accepts the bytes of one tree that has a value and is no
break. -/
theorem decodeCbor_eq_some {bytes : Bytes} {item : Item} :
    decodeCbor runtime bytes = some item ↔
      ∃ node, cut (maxDepth + 1) bytes = some (node, []) ∧ node.value runtime = some item ∧
        node.isBreak = false := by
  unfold decodeCbor
  rw [readItem_eq]
  constructor
  · intro h
    obtain ⟨⟨value, rest⟩, hread, h⟩ := Option.bind_eq_some_iff.1 h
    obtain ⟨node, hcut, hvalue⟩ := through_eq_some.1 hread
    simp only at h
    split at h
    case isTrue => exact absurd h (Option.some_ne_none _).symm
    case isFalse hmark =>
      obtain ⟨hrest, h⟩ := Option.ite_none_left_eq_some.1 h
      obtain rfl := Option.some.inj h
      obtain rfl := not_not.1 hrest
      rw [isMark_of_value hvalue] at hmark
      exact ⟨node, hcut, hvalue, Bool.not_eq_true _ ▸ hmark⟩
  · rintro ⟨node, hcut, hvalue, hbreak⟩
    have hread := through_eq_some.2 ⟨node, hcut, hvalue⟩
    have hmark := isMark_of_value hvalue
    rw [hread]
    simp [hmark, hbreak]

end Gostman.Binary.Cbor
