import Gostman.Binary.Tree
/-!
# Well-formed CBOR

Which byte strings are well-formed, by the recogniser that the format is defined
with, and which trees those are that well-formed bytes are cut into.
-/

namespace Gostman.Binary.Cbor

open Gostman.Lib

/-! ## The recogniser -/

/-- What the recogniser returns: the major type of an item of
definite length, 99 for one of indefinite length, or -1 for a break. -/
inductive Kind where
  | definite (major : Nat)
  | indefinite
  | stop
  deriving DecidableEq

def stopEnds (kind : Kind) : Option Unit :=
  if kind = .stop then some () else none

def wellFormedUntil (nested : Bool → Reading Kind) : Reading (List Kind) :=
  through (toEnd (orEnd stopEnds (nested true))) fun found => some found.1

def wellFormedIndefinite (nested : Bool → Reading Kind) (major : Nat) (breakable : Bool) :
    Reading Kind :=
  match major with
  | 2 | 3 => through (wellFormedUntil nested) fun kinds =>
      if ∀ kind ∈ kinds, kind = .definite major then some .indefinite else none
  | 4 => through (wellFormedUntil nested) fun _ => some .indefinite
  | 5 => through (toEnd (inTurnOrEnd stopEnds (nested true) (nested false)))
      fun _ => some .indefinite
  | 7 => fun bytes => if breakable then some (.stop, bytes) else none
  | _ => fun _ => none

def wellFormedBody (nested : Bool → Reading Kind) (major info argument : Nat) : Reading Kind :=
  match major with
  | 2 | 3 => through (takeBytes argument) fun _ => some (.definite major)
  | 4 => through (times (nested false) argument) fun _ => some (.definite major)
  | 5 => through (times (inTurn (nested false) (nested false)) argument)
      fun _ => some (.definite major)
  | 6 => through (nested false) fun _ => some (.definite major)
  | 7 => fun bytes => if info = 24 ∧ argument < 32 then none else some (.definite major, bytes)
  | _ => fun bytes => some (.definite major, bytes)

/-- `well_formed`, where `nested` goes through what the item contains. -/
def wellFormedWith (nested : Bool → Reading Kind) (breakable : Bool) : Reading Kind
  | [] => none
  | initial :: rest =>
      let major := initial.toNat / 32
      let info := initial.toNat % 32
      if info = 31 then wellFormedIndefinite nested major breakable rest
      else (readArgument info rest).bind fun (argument, rest) =>
        wellFormedBody nested major info argument rest

def wellFormed : Nat → Bool → Reading Kind
  | 0 => fun _ _ => none
  | levels + 1 => wellFormedWith (wellFormed levels)

/-- The bytes are one well-formed item that nests at most `MAX_DEPTH` deep, and
nothing follows. -/
def WellFormed (bytes : Bytes) : Prop :=
  ∃ kind, wellFormed (maxDepth + 1) false bytes = some (kind, [])

instance (bytes : Bytes) : Decidable (WellFormed bytes) :=
  match h : wellFormed (maxDepth + 1) false bytes with
  | some (kind, []) => isTrue ⟨kind, h⟩
  | some (kind, b :: rest) => isFalse (by rintro ⟨other, hother⟩; rw [h] at hother; simp at hother)
  | none => isFalse (by rintro ⟨other, hother⟩; rw [h] at hother; simp at hother)

/-! ## Trees -/

def Node.kind : Node → Kind
  | .integer major _ => .definite major
  | .bytes _ => .definite 2
  | .text _ => .definite 3
  | .chunks _ _ _ => .indefinite
  | .array _ none => .definite 4
  | .array _ (some _) => .indefinite
  | .map _ none => .definite 5
  | .map _ (some _) => .indefinite
  | .tag _ _ => .definite 6
  | .simple _ _ => .definite 7
  | .stop => .stop

/-- What is asked of a tree by itself: a break only ends what has an
indefinite length, the chunks of a string are of definite length and of its
type, a tag has a number, and additional information and simple values are not
reserved. -/
def Node.StrictNode : Node → Prop
  | .chunks major parts ending => ending = .bare ∧ ∀ part ∈ parts, part.kind = .definite major
  | .array items ending => ending ≠ some .wrapped ∧ ∀ item ∈ items, item.kind ≠ .stop
  | .map entries ending =>
      ending ≠ some .wrapped ∧ ∀ entry ∈ entries, entry.1.kind ≠ .stop ∧ entry.2.kind ≠ .stop
  | .tag number content => number.isSome = true ∧ content.kind ≠ .stop
  | .simple info bits => info < 28 ∧ (info = 24 → 32 ≤ bits)
  | _ => True

mutual

/-- The tree and every tree in it is as `good` says. -/
def Node.Every (good : Node → Prop) : Node → Prop
  | .chunks major parts ending => good (.chunks major parts ending) ∧ Node.EveryItem good parts
  | .array items ending => good (.array items ending) ∧ Node.EveryItem good items
  | .map entries ending => good (.map entries ending) ∧ Node.EveryEntry good entries
  | .tag number content => good (.tag number content) ∧ content.Every good
  | node => good node

def Node.EveryItem (good : Node → Prop) : List Node → Prop
  | [] => True
  | node :: rest => node.Every good ∧ Node.EveryItem good rest

def Node.EveryEntry (good : Node → Prop) : List (Node × Node) → Prop
  | [] => True
  | (key, value) :: rest => (key.Every good ∧ value.Every good) ∧ Node.EveryEntry good rest

end

theorem Node.everyItem_iff {good : Node → Prop} {items : List Node} :
    Node.EveryItem good items ↔ ∀ item ∈ items, item.Every good := by
  induction items with
  | nil => simp [Node.EveryItem]
  | cons item items ih => rw [Node.EveryItem, ih, List.forall_mem_cons]

theorem Node.everyEntry_iff {good : Node → Prop} {entries : List (Node × Node)} :
    Node.EveryEntry good entries ↔ ∀ entry ∈ entries, entry.1.Every good ∧ entry.2.Every good := by
  induction entries with
  | nil => simp [Node.EveryEntry]
  | cons entry entries ih => rw [Node.EveryEntry, ih, List.forall_mem_cons]

def Node.Strict (node : Node) : Prop :=
  node.Every Node.StrictNode

/-! ## Well-formed bytes are cut into strict trees -/

open Classical in
/-- What `well_formed` returns for a tree. -/
noncomputable def judged (breakable : Bool) (node : Node) : Option Kind :=
  if node.Strict ∧ (node.kind = .stop → breakable = true) then some node.kind else none

theorem judged_eq_some {breakable : Bool} {node : Node} {kind : Kind} :
    judged breakable node = some kind ↔
      node.Strict ∧ (node.kind = .stop → breakable = true) ∧ node.kind = kind := by
  unfold judged
  rw [Option.ite_none_right_eq_some, Option.some.injEq, and_assoc]

theorem mapM_judged {breakable : Bool} {nodes : List Node} {kinds : List Kind} :
    nodes.mapM (judged breakable) = some kinds ↔
      (∀ node ∈ nodes, node.Strict ∧ (node.kind = .stop → breakable = true)) ∧
        nodes.map Node.kind = kinds := by
  induction nodes generalizing kinds with
  | nil => simp [eq_comm]
  | cons node nodes ih =>
    rw [mapM_cons_eq_some, List.forall_mem_cons, List.map_cons]
    constructor
    · rintro ⟨kind, others, hkind, hothers, rfl⟩
      obtain ⟨hstrict, hbreakable, rfl⟩ := judged_eq_some.1 hkind
      obtain ⟨hnodes, rfl⟩ := ih.1 hothers
      exact ⟨⟨⟨hstrict, hbreakable⟩, hnodes⟩, rfl⟩
    · rintro ⟨⟨⟨hstrict, hbreakable⟩, hnodes⟩, rfl⟩
      exact ⟨node.kind, nodes.map Node.kind, judged_eq_some.2 ⟨hstrict, hbreakable, rfl⟩,
        ih.2 ⟨hnodes, rfl⟩, rfl⟩

theorem mapM_bothMean_judged {first second : Bool} {entries : List (Node × Node)}
    {kinds : List (Kind × Kind)} :
    entries.mapM (bothMean (judged first) (judged second)) = some kinds ↔
      (∀ entry ∈ entries, (entry.1.Strict ∧ (entry.1.kind = .stop → first = true)) ∧
        entry.2.Strict ∧ (entry.2.kind = .stop → second = true)) ∧
        entries.map (fun entry => (entry.1.kind, entry.2.kind)) = kinds := by
  induction entries generalizing kinds with
  | nil => simp [eq_comm]
  | cons entry entries ih =>
    rw [mapM_cons_eq_some, List.forall_mem_cons, List.map_cons]
    constructor
    · rintro ⟨kind, others, hkind, hothers, rfl⟩
      obtain ⟨hkey, hvalue⟩ := bothMean_eq_some.1 hkind
      obtain ⟨hkeyStrict, hkeyBreakable, hkeyKind⟩ := judged_eq_some.1 hkey
      obtain ⟨hvalueStrict, hvalueBreakable, hvalueKind⟩ := judged_eq_some.1 hvalue
      obtain ⟨hentries, rfl⟩ := ih.1 hothers
      exact ⟨⟨⟨⟨hkeyStrict, hkeyBreakable⟩, hvalueStrict, hvalueBreakable⟩, hentries⟩,
        congrArg (· :: _) (Prod.ext hkeyKind hvalueKind)⟩
    · rintro ⟨⟨⟨⟨hkeyStrict, hkeyBreakable⟩, hvalueStrict, hvalueBreakable⟩, hentries⟩, rfl⟩
      exact ⟨_, _, bothMean_eq_some.2 ⟨judged_eq_some.2 ⟨hkeyStrict, hkeyBreakable, rfl⟩,
        judged_eq_some.2 ⟨hvalueStrict, hvalueBreakable, rfl⟩⟩, ih.2 ⟨hentries, rfl⟩, rfl⟩

theorem not_strict_of_isBreak {node : Node} (h : node.isBreak = true) :
    node = .stop ∨ node.ending = .wrapped ∧ ¬ node.Strict := by
  induction node using Node.induct with
  | tag number content ih =>
    refine .inr ⟨rfl, ?_⟩
    intro hstrict
    rcases ih (Bool.and_eq_true_iff.1 h).2 with rfl | ⟨-, hcontent⟩
    · exact hstrict.1.2 rfl
    · exact hcontent hstrict.2
  | stop => exact .inl rfl
  | _ => exact absurd h Bool.false_ne_true

theorem kind_ne_stop_of_goesOn {node : Node} (h : breakEnds node = none) : node.kind ≠ .stop := by
  intro hkind
  cases node with
  | stop => exact absurd h (Option.some_ne_none _)
  | array items ending => cases ending <;> exact absurd hkind (by simp [Node.kind])
  | map entries ending => cases ending <;> exact absurd hkind (by simp [Node.kind])
  | _ => exact absurd hkind (by simp [Node.kind])

theorem judged_stop : judged true .stop = some .stop :=
  judged_eq_some.2 ⟨trivial, fun _ => rfl, rfl⟩

def strictEnding : Ending → Option Unit
  | .bare => some ()
  | .wrapped => none

theorem judged_endsAlike : EndsAlike (judged true) breakEnds stopEnds strictEnding where
  ended node ending h := by
    obtain ⟨hbreak, hending⟩ := Option.ite_none_right_eq_some.1 h
    obtain rfl := Option.some.inj hending
    rcases not_strict_of_isBreak hbreak with rfl | ⟨hwrapped, hstrict⟩
    · rw [judged_stop]
      exact ⟨rfl, fun kind hkind => Option.some.inj hkind ▸ rfl⟩
    · have hjudged : judged true node = none := if_neg fun h => hstrict h.1
      rw [hjudged, hwrapped]
      exact ⟨rfl, fun kind hkind => absurd hkind (Option.some_ne_none _).symm⟩
  goesOn node kind h hkind := by
    obtain ⟨-, -, rfl⟩ := judged_eq_some.1 hkind
    exact if_neg (kind_ne_stop_of_goesOn h)

theorem strictEnding_eq_some {ending : Ending} {stop : Unit} :
    strictEnding ending = some stop ↔ ending = .bare := by
  cases ending <;> simp [strictEnding]

section Nested

variable {nested : Reading Node}

theorem kinds_of_cutUntil {bytes rest : Bytes} {found : List Node × Ending}
    (h : cutUntil nested bytes = some (found, rest)) : ∀ item ∈ found.1, item.kind ≠ .stop :=
  forall_of_toEnd (fun _ _ _ hread => kind_ne_stop_of_goesOn (goesOn_of_orEnd hread)) h

theorem kinds_of_cutEntriesUntil {bytes rest : Bytes} {found : List (Node × Node) × Ending}
    (h : cutEntriesUntil nested bytes = some (found, rest)) :
    ∀ entry ∈ found.1, entry.1.kind ≠ .stop :=
  forall_of_toEnd (fun _ _ _ hread => kind_ne_stop_of_goesOn (goesOn_of_inTurnOrEnd hread)) h

/-- Items up to a break are strict trees up to a break. -/
theorem wellFormedUntil_through {bytes rest : Bytes} {kinds : List Kind} :
    wellFormedUntil (fun breakable => through nested (judged breakable)) bytes = some (kinds, rest) ↔
      ∃ items, cutUntil nested bytes = some ((items, .bare), rest) ∧
        (∀ item ∈ items, item.Strict) ∧ items.map Node.kind = kinds := by
  unfold wellFormedUntil
  rw [orEnd_through judged_endsAlike, toEnd_through, through_through, through_eq_some]
  constructor
  · rintro ⟨⟨items, ending⟩, hcut, hkinds⟩
    obtain ⟨⟨kinds', stop⟩, hall, hkinds⟩ := Option.bind_eq_some_iff.1 hkinds
    obtain rfl := Option.some.inj hkinds
    obtain ⟨hitems, hending⟩ := eitherAll_eq_some.1 hall
    obtain rfl := strictEnding_eq_some.1 hending
    obtain ⟨hstrict, hmap⟩ := mapM_judged.1 hitems
    exact ⟨items, hcut, fun item hitem => (hstrict item hitem).1, hmap⟩
  · rintro ⟨items, hcut, hstrict, hmap⟩
    refine ⟨(items, .bare), hcut, Option.bind_eq_some_iff.2 ⟨(kinds, ()), ?_, rfl⟩⟩
    exact eitherAll_eq_some.2
      ⟨mapM_judged.2 ⟨fun item hitem => ⟨hstrict item hitem, fun _ => rfl⟩, hmap⟩, rfl⟩

variable {breakable : Bool}

/-- An item of definite length is well-formed when its tree is strict. -/
theorem judged_definite {node : Node} {major : Nat} (h : node.kind = .definite major) {kind : Kind} :
    judged breakable node = some kind ↔ node.Strict ∧ .definite major = kind := by
  rw [judged_eq_some, h]
  simp

theorem judged_indefinite {node : Node} (h : node.kind = .indefinite) {kind : Kind} :
    judged breakable node = some kind ↔ node.Strict ∧ .indefinite = kind := by
  rw [judged_eq_some, h]
  simp

theorem wellFormedChunks_through (major : Nat) :
    through (wellFormedUntil fun breakable => through nested (judged breakable))
        (fun kinds => if ∀ kind ∈ kinds, kind = .definite major then some .indefinite else none) =
      through (through (cutUntil nested) fun found => some (.chunks major found.1 found.2))
        (judged breakable) := by
  rw [through_through]
  refine Reading.ext_iff.2 fun bytes kind rest => ?_
  rw [through_eq_some, through_eq_some]
  constructor
  · rintro ⟨kinds, hkinds, hkind⟩
    obtain ⟨items, hcut, hstrict, rfl⟩ := wellFormedUntil_through.1 hkinds
    obtain ⟨hmajor, hkind⟩ := Option.ite_none_right_eq_some.1 hkind
    refine ⟨(items, .bare), hcut, ?_⟩
    refine (judged_indefinite rfl).2 ⟨⟨⟨rfl, ?_⟩, Node.everyItem_iff.2 hstrict⟩, Option.some.inj hkind⟩
    exact fun item hitem => hmajor item.kind (List.mem_map_of_mem hitem)
  · rintro ⟨⟨items, ending⟩, hcut, hkind⟩
    obtain ⟨hstrict, rfl⟩ := (judged_indefinite rfl).1 hkind
    obtain ⟨⟨rfl, hmajor⟩, hitems⟩ := hstrict
    refine ⟨items.map Node.kind,
      wellFormedUntil_through.2 ⟨items, hcut, Node.everyItem_iff.1 hitems, rfl⟩, if_pos ?_⟩
    intro kind hkind
    obtain ⟨item, hitem, rfl⟩ := List.mem_map.1 hkind
    exact hmajor item hitem

theorem wellFormedArray_through :
    through (wellFormedUntil fun breakable => through nested (judged breakable))
        (fun _ => some .indefinite) =
      through (through (cutUntil nested) fun found => some (.array found.1 (some found.2)))
        (judged breakable) := by
  rw [through_through]
  refine Reading.ext_iff.2 fun bytes kind rest => ?_
  rw [through_eq_some, through_eq_some]
  constructor
  · rintro ⟨kinds, hkinds, hkind⟩
    obtain ⟨items, hcut, hstrict, rfl⟩ := wellFormedUntil_through.1 hkinds
    refine ⟨(items, .bare), hcut, ?_⟩
    exact (judged_indefinite rfl).2 ⟨⟨⟨by simp, kinds_of_cutUntil hcut⟩,
      Node.everyItem_iff.2 hstrict⟩, Option.some.inj hkind⟩
  · rintro ⟨⟨items, ending⟩, hcut, hkind⟩
    obtain ⟨⟨⟨hending, -⟩, hitems⟩, rfl⟩ := (judged_indefinite rfl).1 hkind
    cases ending with
    | bare => exact ⟨_, wellFormedUntil_through.2 ⟨items, hcut, Node.everyItem_iff.1 hitems, rfl⟩, rfl⟩
    | wrapped => exact absurd rfl hending

theorem wellFormedMap_through :
    through (toEnd (inTurnOrEnd stopEnds (through nested (judged true))
        (through nested (judged false)))) (fun _ => some .indefinite) =
      through (through (cutEntriesUntil nested) fun found => some (.map found.1 (some found.2)))
        (judged breakable) := by
  rw [inTurnOrEnd_through judged_endsAlike, toEnd_through, through_through, through_through]
  refine Reading.ext_iff.2 fun bytes kind rest => ?_
  rw [through_eq_some, through_eq_some]
  constructor
  · rintro ⟨⟨entries, ending⟩, hcut, hkind⟩
    obtain ⟨⟨kinds, stop⟩, hall, hindefinite⟩ := Option.bind_eq_some_iff.1 hkind
    obtain ⟨hentries, hending⟩ := eitherAll_eq_some.1 hall
    obtain rfl := strictEnding_eq_some.1 hending
    obtain ⟨hstrict, -⟩ := mapM_bothMean_judged.1 hentries
    refine ⟨(entries, .bare), hcut, (judged_indefinite rfl).2 ⟨⟨⟨by simp, ?_⟩, ?_⟩,
      Option.some.inj hindefinite⟩⟩
    · intro entry hentry
      refine ⟨kinds_of_cutEntriesUntil hcut entry hentry, fun hstop => ?_⟩
      exact Bool.false_ne_true ((hstrict entry hentry).2.2 hstop)
    · exact Node.everyEntry_iff.2 fun entry hentry =>
        ⟨(hstrict entry hentry).1.1, (hstrict entry hentry).2.1⟩
  · rintro ⟨⟨entries, ending⟩, hcut, hkind⟩
    obtain ⟨⟨⟨hending, hkinds⟩, hentries⟩, rfl⟩ := (judged_indefinite rfl).1 hkind
    have hentries := Node.everyEntry_iff.1 hentries
    cases ending with
    | bare =>
      refine ⟨(entries, .bare), hcut, Option.bind_eq_some_iff.2
        ⟨(entries.map fun entry => (entry.1.kind, entry.2.kind), ()), ?_, rfl⟩⟩
      refine eitherAll_eq_some.2 ⟨mapM_bothMean_judged.2 ⟨?_, rfl⟩, rfl⟩
      intro entry hentry
      exact ⟨⟨(hentries entry hentry).1, fun _ => rfl⟩, (hentries entry hentry).2,
        fun hstop => absurd hstop (hkinds entry hentry).2⟩
    | wrapped => exact absurd rfl hending

/-- What contains a number of items is well-formed when they are and none is a
break. -/
theorem wellFormedItems_through (count : Nat) :
    through (times (through nested (judged false)) count) (fun _ => some (.definite 4)) =
      through (through (times nested count) fun items => some (.array items none))
        (judged breakable) := by
  rw [times_through, through_through, through_through]
  refine through_congr fun bytes items rest _ => Option.ext fun kind => ?_
  rw [Option.bind_eq_some_iff, Option.bind_some, judged_definite rfl]
  constructor
  · rintro ⟨kinds, hkinds, hkind⟩
    obtain ⟨hstrict, -⟩ := mapM_judged.1 hkinds
    refine ⟨⟨⟨by simp, ?_⟩, Node.everyItem_iff.2 fun item hitem => (hstrict item hitem).1⟩,
      Option.some.inj hkind⟩
    exact fun item hitem hstop => Bool.false_ne_true ((hstrict item hitem).2 hstop)
  · rintro ⟨⟨⟨-, hkinds⟩, hitems⟩, rfl⟩
    have hitems := Node.everyItem_iff.1 hitems
    refine ⟨_, mapM_judged.2 ⟨fun item hitem => ⟨hitems item hitem, ?_⟩, rfl⟩, rfl⟩
    exact fun hstop => absurd hstop (hkinds item hitem)

theorem wellFormedEntries_through (count : Nat) :
    through (times (inTurn (through nested (judged false)) (through nested (judged false))) count)
        (fun _ => some (.definite 5)) =
      through (through (times (inTurn nested nested) count) fun entries => some (.map entries none))
        (judged breakable) := by
  rw [inTurn_through, times_through, through_through, through_through]
  refine through_congr fun bytes entries rest _ => Option.ext fun kind => ?_
  rw [Option.bind_eq_some_iff, Option.bind_some, judged_definite rfl]
  constructor
  · rintro ⟨kinds, hkinds, hkind⟩
    obtain ⟨hstrict, -⟩ := mapM_bothMean_judged.1 hkinds
    refine ⟨⟨⟨by simp, ?_⟩, Node.everyEntry_iff.2 fun entry hentry =>
      ⟨(hstrict entry hentry).1.1, (hstrict entry hentry).2.1⟩⟩, Option.some.inj hkind⟩
    intro entry hentry
    exact ⟨fun hstop => Bool.false_ne_true ((hstrict entry hentry).1.2 hstop),
      fun hstop => Bool.false_ne_true ((hstrict entry hentry).2.2 hstop)⟩
  · rintro ⟨⟨⟨-, hkinds⟩, hentries⟩, rfl⟩
    have hentries := Node.everyEntry_iff.1 hentries
    refine ⟨_, mapM_bothMean_judged.2 ⟨fun entry hentry => ?_, rfl⟩, rfl⟩
    exact ⟨⟨(hentries entry hentry).1, fun hstop => absurd hstop (hkinds entry hentry).1⟩,
      (hentries entry hentry).2, fun hstop => absurd hstop (hkinds entry hentry).2⟩

theorem wellFormedTag_through (number : Nat) :
    through (through nested (judged false)) (fun _ => some (.definite 6)) =
      through (through nested fun content => some (.tag (some number) content))
        (judged breakable) := by
  rw [through_through, through_through]
  refine through_congr fun bytes content rest _ => Option.ext fun kind => ?_
  rw [Option.bind_eq_some_iff, Option.bind_some, judged_definite rfl]
  constructor
  · rintro ⟨inner, hinner, hkind⟩
    obtain ⟨hstrict, hstop, -⟩ := judged_eq_some.1 hinner
    exact ⟨⟨⟨rfl, fun h => Bool.false_ne_true (hstop h)⟩, hstrict⟩, Option.some.inj hkind⟩
  · rintro ⟨⟨⟨-, hstop⟩, hstrict⟩, rfl⟩
    exact ⟨content.kind, judged_eq_some.2 ⟨hstrict, fun h => absurd h hstop, rfl⟩, rfl⟩

@[simp] theorem judged_integer (major argument : Nat) :
    judged breakable (.integer major argument) = some (.definite major) :=
  (judged_definite rfl).2 ⟨trivial, rfl⟩

@[simp] theorem judged_bytes (front : Bytes) :
    judged breakable (.bytes front) = some (.definite 2) :=
  (judged_definite rfl).2 ⟨trivial, rfl⟩

@[simp] theorem judged_text (front : Bytes) :
    judged breakable (.text front) = some (.definite 3) :=
  (judged_definite rfl).2 ⟨trivial, rfl⟩

theorem wellFormedBody_through (info argument : Nat) : ∀ {major : Nat}, major < 7 →
    wellFormedBody (fun breakable => through nested (judged breakable)) major info argument =
      through (cutBody nested major (some argument)) (judged breakable)
  | 0, _ | 1, _ => by
      funext bytes
      simp [wellFormedBody, cutBody, through]
  | 2, _ | 3, _ => by
      simp [wellFormedBody, cutBody, through_through]
  | 4, _ => by
      simp only [wellFormedBody, cutBody]
      exact wellFormedItems_through argument
  | 5, _ => by
      simp only [wellFormedBody, cutBody]
      exact wellFormedEntries_through argument
  | 6, _ => by
      simp only [wellFormedBody, cutBody]
      exact wellFormedTag_through argument
  | _ + 7, h => absurd h (by omega)

theorem wellFormedIndefinite_through : ∀ {major : Nat}, 1 < major → major < 7 →
    wellFormedIndefinite (fun breakable => through nested (judged breakable)) major breakable =
      through (cutBody nested major none) (judged breakable)
  | 0, h, _ | 1, h, _ => absurd h (by omega)
  | 2, _, _ | 3, _, _ => by
      simp only [wellFormedIndefinite, cutBody]
      exact wellFormedChunks_through _
  | 4, _, _ => by
      simp only [wellFormedIndefinite, cutBody]
      exact wellFormedArray_through
  | 5, _, _ => by
      simp only [wellFormedIndefinite, cutBody]
      exact wellFormedMap_through
  | 6, _, _ => by
      simp only [wellFormedIndefinite, cutBody]
      rw [through_through]
      refine Reading.ext_iff.2 fun bytes kind rest => ?_
      rw [through_eq_some]
      constructor
      · intro h
        exact absurd h (Option.some_ne_none _).symm
      · rintro ⟨content, -, hkind⟩
        obtain ⟨⟨⟨hnumber, -⟩, -⟩, -⟩ := (judged_definite rfl).1 hkind
        exact absurd hnumber Bool.false_ne_true
  | _ + 7, _, h => absurd h (by omega)

end Nested

theorem judged_simple {breakable : Bool} {info bits : Nat} {kind : Kind} :
    judged breakable (.simple info bits) = some kind ↔
      (info < 28 ∧ (info = 24 → 32 ≤ bits)) ∧ .definite 7 = kind :=
  judged_definite rfl

/-- The argument of a simple value or a float stands in the bytes its tree is
cut from. -/
theorem wellFormedSimple_through {breakable : Bool} {info : Nat} (hstop : info ≠ 31)
    (nested : Bool → Reading Kind) (bytes : Bytes) :
    ((readArgument info bytes).bind fun (argument, rest) =>
        wellFormedBody nested 7 info argument rest) =
      through (cutSimple info) (judged breakable) bytes := by
  refine Option.ext fun ⟨kind, rest⟩ => ?_
  rw [through_eq_some, Option.bind_eq_some_iff]
  by_cases hsmall : info < 24
  · have hargument : readArgument info bytes = some (info, bytes) := if_pos hsmall
    have hcut : cutSimple info bytes = some (.simple info 0, bytes) := by
      rw [cutSimple, if_neg hstop, if_pos (.inl hsmall)]
    rw [hargument, hcut]
    constructor
    · rintro ⟨⟨argument, bytes'⟩, hfound, hbody⟩
      obtain ⟨rfl, rfl⟩ := Prod.mk.inj (Option.some.inj hfound)
      obtain ⟨-, hbody⟩ := Option.ite_none_left_eq_some.1 hbody
      obtain ⟨rfl, rfl⟩ := Prod.mk.inj (Option.some.inj hbody)
      exact ⟨_, rfl, judged_simple.2 ⟨⟨by omega, by omega⟩, rfl⟩⟩
    · rintro ⟨node, hnode, hkind⟩
      obtain ⟨rfl, rfl⟩ := Prod.mk.inj (Option.some.inj hnode)
      obtain ⟨-, rfl⟩ := judged_simple.1 hkind
      exact ⟨(info, bytes), rfl, if_neg (by omega)⟩
  by_cases hwide : info < 28
  · have hargument : readArgument info bytes = unsigned (2 ^ (info - 24)) bytes := by
      have hinfo : info = 24 ∨ info = 25 ∨ info = 26 ∨ info = 27 := by omega
      rcases hinfo with rfl | rfl | rfl | rfl <;> rfl
    have hcut : cutSimple info bytes = through (unsigned (2 ^ (info - 24)))
        (fun bits => some (.simple info bits)) bytes := by
      rw [cutSimple, if_neg hstop, if_neg (by omega)]
    rw [hargument, hcut]
    constructor
    · rintro ⟨⟨argument, bytes'⟩, hfound, hbody⟩
      obtain ⟨hbits, hbody⟩ := Option.ite_none_left_eq_some.1 hbody
      obtain ⟨rfl, rfl⟩ := Prod.mk.inj (Option.some.inj hbody)
      refine ⟨_, through_eq_some.2 ⟨argument, hfound, rfl⟩, judged_simple.2 ⟨⟨hwide, ?_⟩, rfl⟩⟩
      omega
    · rintro ⟨node, hnode, hkind⟩
      obtain ⟨bits, hbits, hsimple⟩ := through_eq_some.1 hnode
      obtain rfl := Option.some.inj hsimple
      obtain ⟨⟨-, hreserved⟩, rfl⟩ := judged_simple.1 hkind
      exact ⟨(bits, rest), hbits, if_neg (by omega)⟩
  · have hargument : readArgument info bytes = none := by
      unfold readArgument
      simp only [hsmall, show info ≠ 24 by omega, show info ≠ 25 by omega, show info ≠ 26 by omega,
        show info ≠ 27 by omega, if_false]
    have hcut : cutSimple info bytes = some (.simple info 0, bytes) := by
      rw [cutSimple, if_neg hstop, if_pos (.inr (by omega))]
    rw [hargument, hcut]
    constructor
    · rintro ⟨found, hfound, -⟩
      exact absurd hfound (Option.some_ne_none _).symm
    · rintro ⟨node, hnode, hkind⟩
      obtain ⟨rfl, rfl⟩ := Prod.mk.inj (Option.some.inj hnode)
      exact absurd (judged_simple.1 hkind).1.1 hwide

theorem wellFormedWith_through (nested : Reading Node) (breakable : Bool) :
    wellFormedWith (fun breakable => through nested (judged breakable)) breakable =
      through (cutWith nested) (judged breakable) := by
  funext bytes
  cases bytes with
  | nil => rfl
  | cons initial rest =>
    have hmajor : initial.toNat / 32 < 8 := by
      have hbyte := initial.toNat_lt
      omega
    generalize hread : initial.toNat / 32 = major at hmajor
    generalize hinfo : initial.toNat % 32 = info
    have hwell : wellFormedWith (fun breakable => through nested (judged breakable)) breakable
        (initial :: rest) = if info = 31 then
          wellFormedIndefinite (fun breakable => through nested (judged breakable)) major breakable rest
        else (readArgument info rest).bind fun (argument, rest) => wellFormedBody
          (fun breakable => through nested (judged breakable)) major info argument rest := by
      rw [wellFormedWith, hread, hinfo]
    have hcut : cutWith nested (initial :: rest) = if major = 7 then cutSimple info rest
        else if info = 31 then if major ≤ 1 then none else cutBody nested major none rest
        else (readArgument info rest).bind fun (argument, rest) =>
          cutBody nested major (some argument) rest := by
      rw [cutWith, hread, hinfo]
      rfl
    rw [hwell, through, hcut]
    by_cases hseven : major = 7
    · subst hseven
      rw [if_pos rfl]
      split
      case isTrue hstop =>
        subst hstop
        cases breakable with
        | true =>
          change _ = (judged true .stop).map _
          rw [judged_stop]
          rfl
        | false =>
          change none = (judged false .stop).map _
          rw [judged, if_neg fun h => Bool.false_ne_true (h.2 rfl)]
          rfl
      case isFalse hstop => exact wellFormedSimple_through hstop _ rest
    rw [if_neg hseven]
    split
    case isTrue =>
      by_cases hsmall : major ≤ 1
      · rw [if_pos hsmall]
        have hcases : major = 0 ∨ major = 1 := by omega
        rcases hcases with rfl | rfl <;> rfl
      · rw [if_neg hsmall, wellFormedIndefinite_through (by omega) (by omega)]
        rfl
    case isFalse =>
      rcases readArgument info rest with - | ⟨argument, rest'⟩
      · rfl
      · rw [Option.bind_some, Option.bind_some]
        simp only
        rw [wellFormedBody_through info argument (by omega)]
        rfl

/-- Well-formed bytes are those that are cut into a strict tree. -/
theorem wellFormed_eq (levels : Nat) :
    wellFormed levels = fun breakable => through (cut levels) (judged breakable) := by
  induction levels with
  | zero => rfl
  | succ levels ih =>
    funext breakable
    rw [wellFormed, ih, wellFormedWith_through, cut]

theorem wellFormed_iff {bytes : Bytes} :
    WellFormed bytes ↔ ∃ node, cut (maxDepth + 1) bytes = some (node, []) ∧ node.Strict ∧
      node.kind ≠ .stop := by
  unfold WellFormed
  rw [wellFormed_eq]
  constructor
  · rintro ⟨kind, hkind⟩
    obtain ⟨node, hcut, hjudged⟩ := through_eq_some.1 hkind
    obtain ⟨hstrict, hstop, -⟩ := judged_eq_some.1 hjudged
    exact ⟨node, hcut, hstrict, fun h => Bool.false_ne_true (hstop h)⟩
  · rintro ⟨node, hcut, hstrict, hstop⟩
    exact ⟨node.kind, through_eq_some.2
      ⟨node, hcut, judged_eq_some.2 ⟨hstrict, fun h => absurd h hstop, rfl⟩⟩⟩

end Gostman.Binary.Cbor
