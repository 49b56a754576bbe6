import Mathlib.Data.List.DropRight
/-!
# The graph of the commits

`commitGraph.js`: the commits come newest first, and a pass over them keeps the
lanes that are open, each for the commit it leads to.
-/

namespace Gostman.Commits

abbrev Hash := String

structure Commit where
  hash : Hash
  parents : Option (List Hash)

def Commit.listed (commit : Commit) : List Hash := commit.parents.getD []

abbrev Lanes := List (Option Hash)

structure Row where
  hash : Hash
  node : Nat
  top : Lanes
  bottom : Lanes
  merging : List Nat
  parentLanes : List Nat
  isMerge : Bool

def firstFree (lanes : Lanes) : Nat :=
  match lanes.idxOf? none with
  | none => lanes.length
  | some free => free

def trimTail (lanes : Lanes) : Lanes :=
  lanes.rdropWhile (· = none)

/-- `lanes[index] = hash`, where the index is at most the length. -/
def setLane (lanes : Lanes) (index : Nat) (hash : Hash) : Lanes :=
  if index < lanes.length then lanes.set index (some hash) else lanes ++ [some hash]

/-- The lane that leads to a commit, or else the first free one for it. -/
def laneFor (lanes : Lanes) (hash : Hash) : Nat × Lanes :=
  match lanes.idxOf? (some hash) with
  | some index => (index, lanes)
  | none => (firstFree lanes, setLane lanes (firstFree lanes) hash)

def placeParents : Lanes → List Hash → List Nat × Lanes
  | lanes, [] => ([], lanes)
  | lanes, parent :: parents =>
      let (index, placed) := laneFor lanes parent
      let (indices, last) := placeParents placed parents
      (index :: indices, last)

def mergingOf (lanes : Lanes) (hash : Hash) (node : Nat) : List Nat :=
  (List.range lanes.length).filter fun index => lanes[index]? = some (some hash) ∧ index ≠ node

def clear (lanes : Lanes) (indices : List Nat) : Lanes :=
  indices.foldl (fun lanes index => lanes.set index none) lanes

/-- What the loop of `layoutGraph` does for one commit: its row, whose `bottom` are
the lanes before `trimTail`. -/
def layoutRow (lanes : Lanes) (commit : Commit) : Row :=
  let (node, held) := laneFor lanes commit.hash
  let merging := mergingOf held commit.hash node
  let cleared := clear held merging
  let (parentLanes, bottom) :=
    match commit.listed with
    | [] => ([], cleared.set node none)
    | first :: others =>
        let (indices, last) := placeParents (cleared.set node (some first)) others
        (node :: indices, last)
  { hash := commit.hash, node, top := lanes, bottom, merging, parentLanes,
    isMerge := decide (commit.listed.length > 1) }

def layoutRows : Lanes → List Commit → List Row
  | _, [] => []
  | lanes, commit :: commits =>
      let row := layoutRow lanes commit
      row :: layoutRows (trimTail row.bottom) commits

structure Graph where
  rows : List Row
  width : Nat

def layoutGraph (commits : List Commit) : Graph :=
  let rows := layoutRows [] commits
  { rows, width := rows.foldl (fun widest row => max widest (max row.top.length (max row.bottom.length (row.node + 1)))) 1 }

/-! ## The hash a lane holds -/

def Holds (lanes : Lanes) (lane : Nat) (hash : Hash) : Prop := lanes[lane]? = some (some hash)

instance (lanes : Lanes) (lane : Nat) (hash : Hash) : Decidable (Holds lanes lane hash) :=
  inferInstanceAs (Decidable (_ = _))

theorem Holds.unique {lanes : Lanes} {lane : Nat} {hash other : Hash} (h : Holds lanes lane hash)
    (h' : Holds lanes lane other) : hash = other :=
  Option.some.inj (Option.some.inj (h.symm.trans h'))

theorem Holds.lt_length {lanes : Lanes} {lane : Nat} {hash : Hash} (h : Holds lanes lane hash) : lane < lanes.length :=
  (List.getElem?_eq_some_iff.1 h).1

theorem holds_set {lanes : Lanes} {index lane : Nat} {value : Option Hash} {hash : Hash} (h : index < lanes.length) :
    Holds (lanes.set index value) lane hash ↔
      (lane = index ∧ value = some hash) ∨ (lane ≠ index ∧ Holds lanes lane hash) := by
  unfold Holds
  by_cases hlane : lane = index
  · rw [hlane, List.getElem?_set_self h]
    simp
  · rw [List.getElem?_set_ne (Ne.symm hlane)]
    simp [hlane]

theorem not_holds_firstFree (lanes : Lanes) (hash : Hash) : ¬ Holds lanes (firstFree lanes) hash := by
  unfold Holds firstFree
  cases hfree : lanes.idxOf? none with
  | none =>
    rw [List.getElem?_eq_none (Nat.le_refl _)]
    exact nofun
  | some free =>
    obtain ⟨hlt, hvalue, -⟩ := List.idxOf?_eq_some_iff.1 hfree
    rw [List.getElem?_eq_getElem hlt, hvalue]
    exact nofun

theorem firstFree_le (lanes : Lanes) : firstFree lanes ≤ lanes.length := by
  unfold firstFree
  cases hfree : lanes.idxOf? none with
  | none => exact Nat.le_refl _
  | some free => exact Nat.le_of_lt (List.idxOf?_eq_some_iff.1 hfree).1

theorem holds_setLane {lanes : Lanes} {index lane : Nat} {hash other : Hash} (h : index ≤ lanes.length)
    (hfree : ∀ hash, ¬ Holds lanes index hash) :
    Holds (setLane lanes index hash) lane other ↔ (lane = index ∧ other = hash) ∨ Holds lanes lane other := by
  unfold setLane
  split_ifs with hlt
  · rw [holds_set hlt, Option.some_inj, eq_comm (a := hash)]
    apply or_congr_right
    constructor
    · exact And.right
    · intro hheld
      refine ⟨?_, hheld⟩
      intro hlane
      exact hfree other (hlane ▸ hheld)
  · have hindex : index = lanes.length := by omega
    unfold Holds
    rcases Nat.lt_trichotomy lane lanes.length with hlane | hlane | hlane
    · rw [List.getElem?_append_left hlane]
      have hne : lane ≠ index := by omega
      simp [hne]
    · rw [hlane, hindex, List.getElem?_concat_length, List.getElem?_eq_none (Nat.le_refl _)]
      simp [eq_comm]
    · rw [List.getElem?_eq_none (by rw [List.length_append]; exact hlane), List.getElem?_eq_none (by omega)]
      have hne : lane ≠ index := by omega
      simp [hne]

/-- The lane for a commit is opened where none leads to it; all others stay. -/
theorem holds_laneFor (lanes : Lanes) (lane : Nat) (hash other : Hash) :
    Holds (laneFor lanes hash).2 lane other ↔ (lane = (laneFor lanes hash).1 ∧ other = hash) ∨ Holds lanes lane other := by
  unfold laneFor
  cases hlane : lanes.idxOf? (some hash) with
  | none => exact holds_setLane (firstFree_le lanes) (not_holds_firstFree lanes)
  | some index =>
    obtain ⟨hlt, hvalue, -⟩ := List.idxOf?_eq_some_iff.1 hlane
    constructor
    · exact Or.inr
    · intro h
      rcases h with ⟨rfl, rfl⟩ | h
      · exact (List.getElem?_eq_getElem hlt).trans (congrArg some hvalue)
      · exact h

theorem laneFor_holds (lanes : Lanes) (hash : Hash) : Holds (laneFor lanes hash).2 (laneFor lanes hash).1 hash :=
  (holds_laneFor lanes _ hash hash).2 (.inl ⟨rfl, rfl⟩)

theorem holds_placeParents (lanes : Lanes) (parents : List Hash) (lane : Nat) (hash : Hash) :
    Holds (placeParents lanes parents).2 lane hash ↔
      Holds lanes lane hash ∨
        ∃ k : Nat, parents[k]? = some hash ∧ (placeParents lanes parents).1[k]? = some lane := by
  induction parents generalizing lanes with
  | nil => simp [placeParents]
  | cons parent parents ih =>
    rw [placeParents]
    simp only
    rw [ih, holds_laneFor]
    constructor
    · intro h
      rcases h with (⟨hlane, hhash⟩ | h) | ⟨k, hparent, hlane⟩
      · exact .inr ⟨0, by rw [hhash]; rfl, by rw [hlane]; rfl⟩
      · exact .inl h
      · exact .inr ⟨k + 1, hparent, hlane⟩
    · intro h
      rcases h with h | ⟨k, hparent, hlane⟩
      · exact .inl (.inr h)
      · cases k with
        | zero => exact .inl (.inl ⟨(Option.some.inj hlane).symm, (Option.some.inj hparent).symm⟩)
        | succ k => exact .inr ⟨k, hparent, hlane⟩

theorem length_placeParents (lanes : Lanes) (parents : List Hash) :
    (placeParents lanes parents).1.length = parents.length := by
  induction parents generalizing lanes with
  | nil => rfl
  | cons parent parents ih => exact congrArg (· + 1) (ih _)

theorem length_clear (lanes : Lanes) (indices : List Nat) : (clear lanes indices).length = lanes.length := by
  unfold clear
  induction indices generalizing lanes with
  | nil => rfl
  | cons index indices ih => rw [List.foldl_cons, ih, List.length_set]

theorem holds_clear (lanes : Lanes) (indices : List Nat) (lane : Nat) (hash : Hash) :
    Holds (clear lanes indices) lane hash ↔ Holds lanes lane hash ∧ lane ∉ indices := by
  unfold clear
  induction indices generalizing lanes with
  | nil => simp
  | cons index indices ih =>
    rw [List.foldl_cons, ih, List.mem_cons, not_or]
    by_cases hindex : index < lanes.length
    · rw [holds_set hindex]
      simp only [reduceCtorEq, and_false, false_or]
      rw [and_assoc, and_left_comm]
    · have hbeyond : Holds lanes lane hash → lane ≠ index := by
        intro h
        have hlt := h.lt_length
        omega
      rw [List.set_eq_of_length_le (by omega)]
      constructor
      · intro ⟨h, hrest⟩
        exact ⟨h, hbeyond h, hrest⟩
      · intro h
        exact ⟨h.1, h.2.2⟩

theorem mem_mergingOf {lanes : Lanes} {hash : Hash} {node lane : Nat} :
    lane ∈ mergingOf lanes hash node ↔ Holds lanes lane hash ∧ lane ≠ node := by
  unfold mergingOf
  rw [List.mem_filter, List.mem_range, decide_eq_true_iff]
  constructor
  · exact And.right
  · intro h
    exact ⟨h.1.lt_length, h⟩

theorem holds_trimTail (lanes : Lanes) (lane : Nat) (hash : Hash) :
    Holds (trimTail lanes) lane hash ↔ Holds lanes lane hash := by
  induction lanes using List.reverseRecOn with
  | nil => rfl
  | append_singleton lanes last ih =>
    unfold trimTail at ih ⊢
    cases last with
    | some kept => rw [List.rdropWhile_concat_neg _ _ _ (by simp)]
    | none =>
      rw [List.rdropWhile_concat_pos _ _ _ (by simp), ih]
      unfold Holds
      rcases Nat.lt_trichotomy lane lanes.length with hlane | hlane | hlane
      · rw [List.getElem?_append_left hlane]
      · rw [hlane, List.getElem?_concat_length, List.getElem?_eq_none (Nat.le_refl _)]
        simp
      · rw [List.getElem?_eq_none (by omega), List.getElem?_eq_none (by rw [List.length_append]; exact hlane)]

end Gostman.Commits
