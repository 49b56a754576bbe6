import Gostman.Binary.Grammar
import Gostman.Binary.WellFormed
/-!
# What the CBOR decoder accepts

The decoder accepts the trees of which no part is stuck, and of strict trees it
makes values without the mark.
-/

namespace Gostman.Binary

open Gostman.Lib

mutual

def Item.MarkFree : Item → Prop
  | .tagged _ value => value.MarkFree
  | .array items => Item.AllMarkFree items
  | .object fields _ => Item.FieldsMarkFree fields
  | .mark => False
  | _ => True

def Item.AllMarkFree : List Item → Prop
  | [] => True
  | item :: rest => item.MarkFree ∧ Item.AllMarkFree rest

def Item.FieldsMarkFree : List (Text × Item) → Prop
  | [] => True
  | (_, item) :: rest => item.MarkFree ∧ Item.FieldsMarkFree rest

end

theorem Item.allMarkFree_iff {items : List Item} :
    Item.AllMarkFree items ↔ ∀ item ∈ items, item.MarkFree := by
  induction items with
  | nil => simp [Item.AllMarkFree]
  | cons item items ih => rw [Item.AllMarkFree, ih, List.forall_mem_cons]

theorem Item.fieldsMarkFree_iff {fields : List (Text × Item)} :
    Item.FieldsMarkFree fields ↔ ∀ field ∈ fields, field.2.MarkFree := by
  induction fields with
  | nil => simp [Item.FieldsMarkFree]
  | cons field fields ih => rw [Item.FieldsMarkFree, ih, List.forall_mem_cons]

theorem mem_of_mem_foldl_store {entries : List (Text × Item)} {result : List (Text × Item) × Bool}
    {field : Text × Item}
    (h : field ∈ (entries.foldl (fun result entry => store result entry.1 entry.2) result).1) :
    field ∈ result.1 ∨ field ∈ entries := by
  induction entries generalizing result with
  | nil => exact .inl h
  | cons entry entries ih =>
    rcases ih h with hstored | hlater
    · unfold store at hstored
      beta_reduce at hstored
      split at hstored
      · exact .inl hstored
      · rcases Record.mem_put hstored with rfl | hold
        · exact .inr List.mem_cons_self
        · exact .inl hold
    · exact .inr (List.mem_cons_of_mem entry hlater)

theorem mem_of_keyed {runtime : Runtime} {entries : List (Item × Item)} {named : List (Text × Item)}
    (h : keyed runtime entries = some named) {field : Text × Item} (hfield : field ∈ named) :
    ∃ entry ∈ entries, entry.2 = field.2 := by
  induction entries generalizing named with
  | nil =>
    obtain rfl := Option.some.inj h
    exact absurd hfield List.not_mem_nil
  | cons entry entries ih =>
    rw [keyed] at h
    obtain ⟨name, -, h⟩ := Option.bind_eq_some_iff.1 h
    obtain ⟨rest, hrest, h⟩ := Option.bind_eq_some_iff.1 h
    obtain rfl := Option.some.inj h
    rcases List.mem_cons.1 hfield with rfl | hfield
    · exact ⟨entry, List.mem_cons_self, rfl⟩
    · obtain ⟨other, hother, heq⟩ := ih hrest hfield
      exact ⟨other, List.mem_cons_of_mem entry hother, heq⟩

theorem isSome_keyed {runtime : Runtime} {entries : List (Item × Item)} :
    (keyed runtime entries).isSome = true ↔
      ∀ entry ∈ entries, (keyOf runtime entry.1).isSome = true := by
  induction entries with
  | nil => simp [keyed]
  | cons entry entries ih =>
    rw [List.forall_mem_cons, ← ih, keyed]
    cases keyOf runtime entry.1 <;> cases keyed runtime entries <;> simp

namespace Cbor

variable {runtime : Runtime}

/-! ## Strict trees have no mark -/

theorem markFree_of_isScalar {item : Item} (h : isScalar item = true) : item.MarkFree := by
  cases item with
  | text | number | bigint => trivial
  | _ => exact absurd h Bool.false_ne_true

/-- The value of a strict tree that is no break has no mark. -/
theorem markFree_of_strict {node : Node} {item : Item} (hstrict : node.Strict)
    (hstop : node.kind ≠ .stop) (h : node.value runtime = some item) : item.MarkFree := by
  induction node using Node.induct generalizing item with
  | integer major argument =>
    obtain rfl := Option.some.inj h
    unfold argumentItem
    simp only
    split <;> trivial
  | bytes front =>
    obtain rfl := Option.some.inj h
    trivial
  | text front =>
    obtain rfl := Option.some.inj h
    trivial
  | chunks major parts ending =>
    obtain ⟨items, -, hjoined⟩ := Option.bind_eq_some_iff.1 h
    unfold joined at hjoined
    split at hjoined
    · obtain ⟨text, -, rfl⟩ := Option.map_eq_some_iff.1 hjoined
      trivial
    · obtain ⟨bytes, -, rfl⟩ := Option.map_eq_some_iff.1 hjoined
      trivial
  | array items ending ih =>
    obtain ⟨values, hvalues, harray⟩ := Option.bind_eq_some_iff.1 h
    obtain rfl := Option.some.inj harray
    rw [values_eq] at hvalues
    refine Item.allMarkFree_iff.2 fun value hvalue => ?_
    obtain ⟨node, hnode, hitem⟩ := exists_of_mapM hvalues value hvalue
    exact ih node hnode (Node.everyItem_iff.1 hstrict.2 node hnode) (hstrict.1.2 node hnode) hitem
  | map entries ending ih =>
    obtain ⟨values, hvalues, hobject⟩ := Option.bind_eq_some_iff.1 h
    obtain ⟨named, hnamed, rfl⟩ := Option.map_eq_some_iff.1 hobject
    rw [entryValues_eq] at hvalues
    refine Item.fieldsMarkFree_iff.2 fun field hfield => ?_
    have hstored : field ∈ named :=
      (mem_of_mem_foldl_store hfield).resolve_left List.not_mem_nil
    obtain ⟨entry, hentry, heq⟩ := mem_of_keyed hnamed hstored
    obtain ⟨nodes, hnodes, hboth⟩ := exists_of_mapM hvalues entry hentry
    rw [← heq]
    exact (ih nodes hnodes).2 (Node.everyEntry_iff.1 hstrict.2 nodes hnodes).2
      (hstrict.1.2 nodes hnodes).2 (bothMean_eq_some.1 hboth).2
  | tag number content ih =>
    obtain ⟨value, hvalue, htagged⟩ := Option.bind_eq_some_iff.1 h
    have hfree := ih hstrict.2 hstrict.1.2 hvalue
    rcases tagged_cases htagged with ⟨-, rfl⟩ | ⟨-, rfl | hscalar⟩
    · exact hfree
    · exact hfree
    · exact markFree_of_isScalar hscalar
  | simple info bits =>
    obtain rfl := Option.some.inj h
    unfold simpleItem
    split_ifs <;> trivial
  | stop => exact absurd rfl hstop

/-! ## Trees that have a value -/

/-- The decoder takes the value for a chunk of a string. -/
def isChunk (major : Nat) : Item → Bool
  | .binary _ => true
  | .text _ => major == 3
  | _ => false

theorem isChunk_of_given {major : Nat} {node : Node} {item : Item} (h : Given node item) :
    isChunk major item = (node.binary.isSome || major == 3 && node.isText) := by
  rw [← h.bytes, ← h.text]
  cases item <;> simp [isChunk, bytesOf, isTextual]

/-- What keeps the decoder from the value of a tree, apart from the trees in it: a
chunk that is no string, a key that has no text, a date out of range. -/
def Node.Stuck (runtime : Runtime) : Node → Prop
  | .chunks major parts _ => ∃ part ∈ parts, part.binary = none ∧ ¬ (major = 3 ∧ part.isText = true)
  | .map entries _ => ∃ entry ∈ entries, entry.1.prints = false
  | .tag number content =>
      number = some 1 ∧ ∃ value, content.number = some value ∧ runtime.dateText value = none
  | _ => False

def Node.PlainKeys : Node → Prop
  | .map entries _ => ∀ entry ∈ entries, entry.1.holdsMap = false
  | _ => True

def Node.Convertible (runtime : Runtime) (node : Node) : Prop :=
  node.Every fun part => ¬ part.Stuck runtime

theorem isSome_joined {major : Nat} {items : List Item} :
    (joined major items).isSome = true ↔ ∀ item ∈ items, isChunk major item = true := by
  unfold joined
  split
  case isTrue hmajor =>
    rw [Option.isSome_map]
    induction items with
    | nil => simp [joinTexts]
    | cons item items ih =>
      rw [List.forall_mem_cons, ← ih]
      cases item <;> simp [joinTexts, isChunk, hmajor]
  case isFalse hmajor =>
    rw [Option.isSome_map]
    induction items with
    | nil => simp [joinBytes]
    | cons item items ih =>
      rw [List.forall_mem_cons, ← ih]
      cases item <;> simp [joinBytes, isChunk, hmajor]

theorem isSome_tagged {tag : Option Nat} {value : Item} :
    (tagged runtime tag value).isSome = true ↔
      (tag = some 1 → ∀ number, value = .number number →
        (runtime.dateText number).isSome = true) := by
  by_cases hself : tag = some 55799
  · subst hself
    simp [tagged]
  unfold tagged
  rw [if_neg hself]
  cases value with
  | number number =>
    by_cases hdate : tag = some 1 <;> simp [hdate]
  | text text => simp
  | binary bytes =>
    simp only [reduceCtorEq, false_implies, implies_true, iff_true]
    split_ifs <;> rfl
  | _ => simp

theorem isSome_bothMean {pair : Node × Node} :
    (bothMean (Node.value runtime) (Node.value runtime) pair).isSome = true ↔
      (pair.1.value runtime).isSome = true ∧ (pair.2.value runtime).isSome = true := by
  unfold bothMean
  cases pair.1.value runtime <;> simp

/-- A tree none of whose keys holds a map has a value exactly when no part of it is
stuck. -/
theorem isSome_value_iff {node : Node} (hkeys : node.Every Node.PlainKeys) :
    (node.value runtime).isSome = true ↔ node.Convertible runtime := by
  induction node using Node.induct with
  | integer | bytes | text | simple | stop => exact iff_of_true rfl id
  | chunks major parts ending ih =>
    have hparts := Node.everyItem_iff.1 hkeys.2
    rw [Node.value, values_eq, isSome_mapM_bind fun items => isSome_joined]
    unfold Node.Convertible
    rw [Node.Every, Node.everyItem_iff, and_comm]
    have hvalues : (∀ part ∈ parts, (part.value runtime).isSome = true) ↔
        ∀ part ∈ parts, part.Every fun part => ¬ part.Stuck runtime :=
      forall₂_congr fun part hpart => ih part hpart (hparts part hpart)
    rw [← hvalues]
    refine and_congr_left fun hsome => ?_
    simp only [Node.Stuck, not_exists, not_and]
    refine forall₂_congr fun part hpart => ?_
    obtain ⟨item, hitem⟩ := Option.isSome_iff_exists.1 (hsome part hpart)
    have hchunk : isChunk major item = (part.binary.isSome || major == 3 && part.isText) :=
      isChunk_of_given (given_of_value hitem)
    constructor
    · intro h hbinary hnot
      have hpart := h item hitem
      rw [hchunk, hbinary] at hpart
      have htext : major = 3 ∧ part.isText = true := by simpa using hpart
      exact hnot htext.1 htext.2
    · intro h other hother
      obtain rfl := Option.some.inj (hitem.symm.trans hother)
      rw [hchunk]
      cases hbinary : part.binary with
      | some bytes => rfl
      | none => simpa using h hbinary
  | array items ending ih =>
    have harray : ∀ results : List Item, (some (Item.array results)).isSome = true ↔
        ∀ result ∈ results, True := by
      simp
    have hitems := Node.everyItem_iff.1 hkeys.2
    rw [Node.value, values_eq, isSome_mapM_bind harray]
    unfold Node.Convertible
    rw [Node.Every, Node.everyItem_iff, and_comm]
    refine and_congr ?_ (forall₂_congr fun item hitem => ih item hitem (hitems item hitem))
    exact iff_of_true (fun _ _ _ _ => trivial) id
  | map entries ending ih =>
    have hobject : ∀ results, (objectOf runtime results).isSome = true ↔
        ∀ result ∈ results, (keyOf runtime result.1).isSome = true := by
      intro results
      rw [objectOf, Option.isSome_map, isSome_keyed]
    have hentries := Node.everyEntry_iff.1 hkeys.2
    rw [Node.value, entryValues_eq, isSome_mapM_bind hobject]
    unfold Node.Convertible
    rw [Node.Every, Node.everyEntry_iff, and_comm]
    have hvalues : (∀ entry ∈ entries, (bothMean (Node.value runtime) (Node.value runtime) entry).isSome = true) ↔
        ∀ entry ∈ entries, (entry.1.Every fun part => ¬ part.Stuck runtime) ∧
          entry.2.Every fun part => ¬ part.Stuck runtime := by
      refine forall₂_congr fun entry hentry => isSome_bothMean.trans ?_
      exact and_congr ((ih entry hentry).1 (hentries entry hentry).1)
        ((ih entry hentry).2 (hentries entry hentry).2)
    rw [← hvalues]
    refine and_congr_left fun hsome => ?_
    simp only [Node.Stuck, not_exists, not_and, Bool.not_eq_false]
    refine forall₂_congr fun entry hentry => ?_
    obtain ⟨result, hresult⟩ := Option.isSome_iff_exists.1 (hsome entry hentry)
    have hkey := isSome_string (bothMean_eq_some.1 hresult).1 (hkeys.1 entry hentry)
    rw [← hkey, ← keyOf_eq]
    constructor
    · exact fun h => h result hresult
    · intro h other hother
      obtain rfl := Option.some.inj (hresult.symm.trans hother)
      exact h
  | tag number content ih =>
    have hcontent := ih hkeys.2
    unfold Node.Convertible at hcontent ⊢
    rw [Node.Every, ← hcontent, Node.value]
    cases hvalue : content.value runtime with
    | none => simp
    | some value =>
      have hgiven := (given_of_value hvalue).number
      rw [Option.bind_some, isSome_tagged, Node.Stuck, ← hgiven]
      simp only [Option.isSome_some, and_true]
      constructor
      · rintro h ⟨hdate, found, hfound, hthrows⟩
        cases value with
        | number date =>
            obtain rfl := Option.some.inj hfound
            have hsome := h hdate date rfl
            rw [hthrows] at hsome
            exact Bool.false_ne_true hsome
        | _ => exact absurd hfound.symm (Option.some_ne_none _)
      · rintro h hdate date rfl
        exact Option.isSome_iff_ne_none.2 fun hthrows => h ⟨hdate, date, rfl, hthrows⟩

/-! ## The parts of a tree -/

mutual

def Node.parts : Node → List Node
  | .chunks major parts ending => .chunks major parts ending :: Node.itemParts parts
  | .array items ending => .array items ending :: Node.itemParts items
  | .map entries ending => .map entries ending :: Node.entryParts entries
  | .tag number content => .tag number content :: content.parts
  | node => [node]

def Node.itemParts : List Node → List Node
  | [] => []
  | item :: rest => item.parts ++ Node.itemParts rest

def Node.entryParts : List (Node × Node) → List Node
  | [] => []
  | (key, value) :: rest => key.parts ++ value.parts ++ Node.entryParts rest

end

theorem itemParts_eq (items : List Node) : Node.itemParts items = items.flatMap Node.parts := by
  induction items with
  | nil => rfl
  | cons item items ih => rw [Node.itemParts, ih, List.flatMap_cons]

theorem entryParts_eq (entries : List (Node × Node)) :
    Node.entryParts entries = entries.flatMap fun entry => entry.1.parts ++ entry.2.parts := by
  induction entries with
  | nil => rfl
  | cons entry entries ih => rw [Node.entryParts, ih, List.flatMap_cons]

theorem every_iff {good : Node → Prop} {node : Node} : node.Every good ↔ ∀ part ∈ node.parts, good part := by
  have hitems : ∀ items : List Node, (∀ item ∈ items, item.Every good ↔ ∀ part ∈ item.parts, good part) →
      (Node.EveryItem good items ↔ ∀ part ∈ Node.itemParts items, good part) := by
    intro items ih
    rw [Node.everyItem_iff, itemParts_eq, List.forall_mem_flatMap]
    exact forall₂_congr ih
  induction node using Node.induct with
  | integer | bytes | text | simple | stop => simp [Node.Every, Node.parts]
  | chunks major parts ending ih => rw [Node.Every, Node.parts, List.forall_mem_cons, hitems parts ih]
  | array items ending ih => rw [Node.Every, Node.parts, List.forall_mem_cons, hitems items ih]
  | map entries ending ih =>
    rw [Node.Every, Node.parts, List.forall_mem_cons, Node.everyEntry_iff, entryParts_eq,
      List.forall_mem_flatMap]
    refine and_congr_right fun _ => forall₂_congr fun entry hentry => ?_
    rw [List.forall_mem_append]
    exact and_congr (ih entry hentry).1 (ih entry hentry).2
  | tag number content ih =>
    rw [Node.Every, Node.parts, List.forall_mem_cons]
    exact and_congr_right fun _ => ih

/-- What no well-formed item has: a break that ends nothing or stands behind a tag, a
chunk of another type or that is no single string, a tag without a number, and
reserved additional information or simple values. -/
def Node.Loose : Node → Prop
  | .chunks major parts ending => ending = .wrapped ∨ ∃ part ∈ parts, part.kind ≠ .definite major
  | .array items ending => ending = some .wrapped ∨ ∃ item ∈ items, item.kind = .stop
  | .map entries ending =>
      ending = some .wrapped ∨ ∃ entry ∈ entries, entry.1.kind = .stop ∨ entry.2.kind = .stop
  | .tag number content => number = none ∨ content.kind = .stop
  | .simple info bits => 28 ≤ info ∨ info = 24 ∧ bits < 32
  | _ => False

theorem strictNode_iff {node : Node} : node.StrictNode ↔ ¬ node.Loose := by
  cases node with
  | chunks major parts ending => cases ending <;> simp [Node.StrictNode, Node.Loose]
  | array items ending => simp [Node.StrictNode, Node.Loose]
  | map entries ending => simp [Node.StrictNode, Node.Loose]
  | tag number content => cases number <;> simp [Node.StrictNode, Node.Loose]
  | simple info bits =>
      simp only [Node.StrictNode, Node.Loose]
      omega
  | _ => simp [Node.StrictNode, Node.Loose]

theorem strict_iff {node : Node} : node.Strict ↔ ¬ ∃ part ∈ node.parts, part.Loose := by
  rw [Node.Strict, every_iff]
  simp only [strictNode_iff, not_exists, not_and]

theorem convertible_iff {node : Node} : node.Convertible runtime ↔ ¬ ∃ part ∈ node.parts, part.Stuck runtime := by
  rw [Node.Convertible, every_iff]
  simp only [not_exists, not_and]

/-! ## The decoder against the grammar -/

/-- The decoder accepts the bytes exactly when they are well-formed, and what
it returns has no mark. -/
def AcceptsExactly (runtime : Runtime) (bytes : Bytes) : Prop :=
  ((decodeCbor runtime bytes).isSome = true ↔ WellFormed bytes) ∧
    ∀ item, decodeCbor runtime bytes = some item → item.MarkFree

/-- The bytes are written for this tree, which is more than a break. -/
def WrittenFor (node : Node) (bytes : Bytes) : Prop :=
  Encodes (maxDepth + 1) node bytes ∧ node.isBreak = false

theorem isSome_decodeCbor_iff {bytes : Bytes} :
    (decodeCbor runtime bytes).isSome = true ↔
      ∃ node, WrittenFor node bytes ∧ (node.value runtime).isSome = true := by
  rw [Option.isSome_iff_exists]
  constructor
  · rintro ⟨item, hitem⟩
    obtain ⟨node, hcut, hvalue, hbreak⟩ := decodeCbor_eq_some.1 hitem
    exact ⟨node, ⟨cut_eq_some_nil.1 hcut, hbreak⟩, Option.isSome_iff_exists.2 ⟨item, hvalue⟩⟩
  · rintro ⟨node, ⟨hwritten, hbreak⟩, hsome⟩
    obtain ⟨item, hvalue⟩ := Option.isSome_iff_exists.1 hsome
    exact ⟨item, decodeCbor_eq_some.2 ⟨node, cut_eq_some_nil.2 hwritten, hvalue, hbreak⟩⟩

theorem isBreak_eq_false_of_strict {node : Node} (hstrict : node.Strict) (hstop : node.kind ≠ .stop) :
    node.isBreak = false := by
  rw [← Bool.not_eq_true]
  intro hbreak
  rcases not_strict_of_isBreak hbreak with rfl | ⟨-, hnot⟩
  · exact hstop rfl
  · exact hnot hstrict

theorem kind_ne_stop_of_isBreak {node : Node} (h : node.isBreak = false) : node.kind ≠ .stop := by
  refine kind_ne_stop_of_goesOn ?_
  rw [breakEnds, h]
  rfl

theorem wellFormed_iff_written {bytes : Bytes} :
    WellFormed bytes ↔ ∃ node, WrittenFor node bytes ∧ node.Strict := by
  rw [wellFormed_iff]
  constructor
  · rintro ⟨node, hcut, hstrict, hstop⟩
    exact ⟨node, ⟨cut_eq_some_nil.1 hcut, isBreak_eq_false_of_strict hstrict hstop⟩, hstrict⟩
  · rintro ⟨node, ⟨hwritten, hbreak⟩, hstrict⟩
    exact ⟨node, cut_eq_some_nil.2 hwritten, hstrict, kind_ne_stop_of_isBreak hbreak⟩

theorem WrittenFor.unique {node other : Node} {bytes : Bytes} (h : WrittenFor node bytes)
    (hother : WrittenFor other bytes) : other = node :=
  (Prod.mk.inj (Option.some.inj ((cut_eq_some_nil.2 hother.1).symm.trans (cut_eq_some_nil.2 h.1)))).1

/-- Either no part of what the bytes are written for is loose and none is stuck, or
some part is loose and some part is stuck; and no key holds a map. -/
def Sound (runtime : Runtime) (bytes : Bytes) : Prop :=
  ∀ node, WrittenFor node bytes → (∀ part ∈ node.parts, part.PlainKeys) ∧
    ((∃ part ∈ node.parts, part.Loose) ↔ ∃ part ∈ node.parts, part.Stuck runtime)

/-- The array of the number 1 under the key `a`. -/
def keyedOne : Bytes := [0xA1, 0x61, 0x61, 0x81, 0x01]

end Cbor

end Gostman.Binary
