import Gostman.Commits.Graph
/-!
# Unbroken lanes

An edge of the graph stays in one lane until the row of the commit it leads to.
Which lanes lead to a commit is known at each row from the rows before it.
-/

namespace Gostman.Commits

/-! ## One row -/

section Row

variable (lanes : Lanes) (commit : Commit)

theorem layoutRow_top : (layoutRow lanes commit).top = lanes := rfl

theorem layoutRow_hash : (layoutRow lanes commit).hash = commit.hash := rfl

theorem layoutRow_node : (layoutRow lanes commit).node = (laneFor lanes commit.hash).1 := rfl

theorem layoutRow_merging :
    (layoutRow lanes commit).merging = mergingOf (laneFor lanes commit.hash).2 commit.hash (laneFor lanes commit.hash).1 :=
  rfl

/-- The lanes after those that merge are closed. -/
theorem holds_cleared (lane : Nat) (hash : Hash) :
    Holds (clear (laneFor lanes commit.hash).2 (layoutRow lanes commit).merging) lane hash ↔
      (lane = (layoutRow lanes commit).node ∧ hash = commit.hash) ∨ (Holds lanes lane hash ∧ hash ≠ commit.hash) := by
  rw [holds_clear, layoutRow_merging, mem_mergingOf, holds_laneFor, ← layoutRow_node]
  have hnode : Holds (laneFor lanes commit.hash).2 (layoutRow lanes commit).node commit.hash :=
    laneFor_holds lanes commit.hash
  constructor
  · intro ⟨h, hstays⟩
    rcases h with h | h
    · exact .inl h
    · by_cases hhash : hash = commit.hash
      · by_cases hlane : lane = (layoutRow lanes commit).node
        · exact .inl ⟨hlane, hhash⟩
        · refine absurd ⟨?_, hlane⟩ hstays
          rw [holds_laneFor]
          exact .inr (hhash ▸ h)
      · exact .inr ⟨h, hhash⟩
  · intro h
    rcases h with h | ⟨h, hhash⟩
    · exact ⟨.inl h, fun hmerging => hmerging.2 h.1⟩
    · refine ⟨.inr h, ?_⟩
      intro hmerging
      apply hhash
      have hheld : Holds (laneFor lanes commit.hash).2 lane hash := (holds_laneFor _ _ _ _).2 (.inr h)
      exact hheld.unique hmerging.1

theorem node_lt_length : (layoutRow lanes commit).node < (laneFor lanes commit.hash).2.length :=
  (laneFor_holds lanes commit.hash).lt_length

/-- After the row a lane leads where it led before, unless that was here, or to a
parent that is drawn in it. -/
theorem holds_bottom (lane : Nat) (hash : Hash) :
    Holds (layoutRow lanes commit).bottom lane hash ↔
      (Holds lanes lane hash ∧ hash ≠ commit.hash) ∨
        ∃ k : Nat, commit.listed[k]? = some hash ∧ (layoutRow lanes commit).parentLanes[k]? = some lane := by
  have hset (value : Option Hash) :
      Holds ((clear (laneFor lanes commit.hash).2 (layoutRow lanes commit).merging).set (layoutRow lanes commit).node value)
          lane hash ↔
        (lane = (layoutRow lanes commit).node ∧ value = some hash) ∨ (Holds lanes lane hash ∧ hash ≠ commit.hash) := by
    rw [holds_set (by rw [length_clear]; exact node_lt_length lanes commit), holds_cleared]
    constructor
    · intro h
      rcases h with h | ⟨hlane, h | h⟩
      · exact .inl h
      · exact absurd h.1 hlane
      · exact .inr h
    · intro h
      rcases h with h | h
      · exact .inl h
      · refine .inr ⟨?_, .inr h⟩
        intro hlane
        have hnode : Holds (laneFor lanes commit.hash).2 (layoutRow lanes commit).node commit.hash :=
          laneFor_holds lanes commit.hash
        have hheld : Holds (laneFor lanes commit.hash).2 lane hash := (holds_laneFor _ _ _ _).2 (.inr h.1)
        exact h.2 (hheld.unique (hlane ▸ hnode))
  cases hlisted : commit.listed with
  | nil =>
    have hbottom : (layoutRow lanes commit).bottom =
        (clear (laneFor lanes commit.hash).2 (layoutRow lanes commit).merging).set (layoutRow lanes commit).node none := by
      unfold layoutRow
      rw [hlisted]
    rw [hbottom, hset]
    simp
  | cons first others =>
    have hbottom : (layoutRow lanes commit).bottom =
        (placeParents ((clear (laneFor lanes commit.hash).2 (layoutRow lanes commit).merging).set
          (layoutRow lanes commit).node (some first)) others).2 := by
      unfold layoutRow
      rw [hlisted]
    have hparentLanes : (layoutRow lanes commit).parentLanes =
        (layoutRow lanes commit).node ::
          (placeParents ((clear (laneFor lanes commit.hash).2 (layoutRow lanes commit).merging).set
            (layoutRow lanes commit).node (some first)) others).1 := by
      unfold layoutRow
      rw [hlisted]
    rw [hbottom, hparentLanes, holds_placeParents, hset]
    constructor
    · intro h
      rcases h with (⟨hlane, hhash⟩ | h) | ⟨k, hparent, hlane⟩
      · exact .inr ⟨0, hhash, by rw [hlane]; rfl⟩
      · exact .inl h
      · exact .inr ⟨k + 1, hparent, hlane⟩
    · intro h
      rcases h with h | ⟨k, hparent, hlane⟩
      · exact .inl (.inr h)
      · cases k with
        | zero => exact .inl (.inl ⟨(Option.some.inj hlane).symm, hparent⟩)
        | succ k => exact .inr ⟨k, hparent, hlane⟩

theorem length_parentLanes : (layoutRow lanes commit).parentLanes.length = commit.listed.length := by
  unfold layoutRow
  cases hlisted : commit.listed with
  | nil => rfl
  | cons first others => exact congrArg (· + 1) (length_placeParents _ others)

/-- All lanes that led to the commit come together in its row. -/
theorem lane_of_holds_top {lane : Nat} (h : Holds lanes lane commit.hash) :
    (layoutRow lanes commit).node = lane ∨ lane ∈ (layoutRow lanes commit).merging := by
  by_cases hnode : lane = (layoutRow lanes commit).node
  · exact .inl hnode.symm
  · refine .inr (mem_mergingOf.2 ⟨?_, hnode⟩)
    exact (holds_laneFor _ _ _ _).2 (.inr h)

end Row

/-! ## The whole graph -/

def lanesAt (commits : List Commit) (index : Nat) : Lanes :=
  (commits.take index).foldl (fun lanes commit => trimTail (layoutRow lanes commit).bottom) []

theorem lanesAt_succ {commits : List Commit} {index : Nat} {commit : Commit} (h : commits[index]? = some commit) :
    lanesAt commits (index + 1) = trimTail (layoutRow (lanesAt commits index) commit).bottom := by
  unfold lanesAt
  rw [List.take_add_one, h, List.foldl_append]
  rfl

theorem layoutRows_eq (lanes : Lanes) (commits : List Commit) (index : Nat) :
    (layoutRows lanes commits)[index]? =
      commits[index]?.map
        (layoutRow ((commits.take index).foldl (fun lanes commit => trimTail (layoutRow lanes commit).bottom) lanes)) := by
  induction commits generalizing lanes index with
  | nil => rfl
  | cons commit commits ih =>
    cases index with
    | zero => rfl
    | succ index => exact ih _ index

theorem layoutGraph_row (commits : List Commit) (index : Nat) :
    (layoutGraph commits).rows[index]? = commits[index]?.map (layoutRow (lanesAt commits index)) :=
  layoutRows_eq [] commits index

/-- The commit of the row has this parent, drawn in this lane. -/
def Edge (commits : List Commit) (index lane : Nat) (parent : Hash) : Prop :=
  ∃ commit row, commits[index]? = some commit ∧ (layoutGraph commits).rows[index]? = some row ∧
    ∃ k : Nat, commit.listed[k]? = some parent ∧ row.parentLanes[k]? = some lane

/-- An edge of an earlier commit leads in this lane to a commit that has not been
drawn since. -/
def Reached (commits : List Commit) (index lane : Nat) (hash : Hash) : Prop :=
  ∃ start < index, Edge commits start lane hash ∧
    ∀ between commit, start < between → between < index → commits[between]? = some commit → commit.hash ≠ hash

theorem reached_succ {commits : List Commit} {index : Nat} {commit : Commit} (h : commits[index]? = some commit)
    (lane : Nat) (hash : Hash) :
    Reached commits (index + 1) lane hash ↔
      (Reached commits index lane hash ∧ hash ≠ commit.hash) ∨ Edge commits index lane hash := by
  constructor
  · intro ⟨start, hstart, hedge, hfree⟩
    rcases Nat.lt_succ_iff_lt_or_eq.1 hstart with hlt | heq
    · refine .inl ⟨⟨start, hlt, hedge, ?_⟩, (hfree index commit hlt (Nat.lt_succ_self _) h).symm⟩
      intro between other hafter hbefore
      exact hfree between other hafter (Nat.lt_succ_of_lt hbefore)
    · exact .inr (heq ▸ hedge)
  · intro hreached
    rcases hreached with ⟨⟨start, hstart, hedge, hfree⟩, hhash⟩ | hedge
    · refine ⟨start, Nat.lt_succ_of_lt hstart, hedge, ?_⟩
      intro between other hafter hbefore hother
      rcases Nat.lt_succ_iff_lt_or_eq.1 hbefore with hlt | heq
      · exact hfree between other hafter hlt hother
      · rw [heq, h] at hother
        cases hother
        exact hhash.symm
    · refine ⟨index, Nat.lt_succ_self _, hedge, ?_⟩
      intro between other hafter hbefore
      omega

theorem edge_iff {commits : List Commit} {index : Nat} {commit : Commit} (h : commits[index]? = some commit)
    (lane : Nat) (hash : Hash) :
    Edge commits index lane hash ↔
      ∃ k : Nat, commit.listed[k]? = some hash ∧
        (layoutRow (lanesAt commits index) commit).parentLanes[k]? = some lane := by
  have hrow : (layoutGraph commits).rows[index]? = some (layoutRow (lanesAt commits index) commit) := by
    rw [layoutGraph_row, h]
    rfl
  constructor
  · intro ⟨found, row, hfound, hrow', hparent⟩
    rw [h] at hfound
    rw [hrow] at hrow'
    cases hfound
    cases hrow'
    exact hparent
  · intro hparent
    exact ⟨commit, _, h, hrow, hparent⟩

/-- Which lanes lead to a commit, from the rows before. -/
theorem holds_lanesAt {commits : List Commit} {index : Nat} (h : index ≤ commits.length) (lane : Nat) (hash : Hash) :
    Holds (lanesAt commits index) lane hash ↔ Reached commits index lane hash := by
  induction index with
  | zero =>
    constructor
    · intro hheld
      cases hheld
    · intro ⟨start, hstart, _⟩
      omega
  | succ index ih =>
    have hcommit : commits[index]? = some commits[index] := List.getElem?_eq_getElem (by omega)
    rw [lanesAt_succ hcommit, holds_trimTail, holds_bottom, reached_succ hcommit, edge_iff hcommit, ih (by omega)]

theorem reached_unique {commits : List Commit} {index : Nat} (h : index ≤ commits.length) {lane : Nat} {hash other : Hash}
    (hreached : Reached commits index lane hash) (hother : Reached commits index lane other) : hash = other :=
  ((holds_lanesAt h lane hash).2 hreached).unique ((holds_lanesAt h lane other).2 hother)

/-- An edge reaches all rows down to that of the commit it leads to. -/
theorem Edge.reached {commits : List Commit} (hdistinct : (commits.map Commit.hash).Nodup) {start lane later : Nat}
    {parent : Commit} (hedge : Edge commits start lane parent.hash) (hparent : commits[later]? = some parent)
    {index : Nat} (hafter : start < index) (hbefore : index ≤ later) : Reached commits index lane parent.hash := by
  refine ⟨start, hafter, hedge, ?_⟩
  intro between commit _ hbetween hcommit hhash
  have hsame : (commits.map Commit.hash)[between]? = (commits.map Commit.hash)[later]? := by
    rw [List.getElem?_map, List.getElem?_map, hcommit, hparent, Option.map_some, Option.map_some, hhash]
  have hlt : between < (commits.map Commit.hash).length := by
    rw [List.length_map]
    exact (List.getElem?_eq_some_iff.1 hcommit).1
  have heq := (List.getElem?_inj hlt hdistinct).1 hsame
  omega

section Rows

variable {commits : List Commit} {index : Nat} {commit : Commit} (h : commits[index]? = some commit)

include h

theorem index_lt_length : index < commits.length :=
  (List.getElem?_eq_some_iff.1 h).1

theorem row_of_commit : (layoutGraph commits).rows[index]? = some (layoutRow (lanesAt commits index) commit) := by
  rw [layoutGraph_row, h]
  rfl

theorem holds_top_iff (lane : Nat) (hash : Hash) :
    Holds (layoutRow (lanesAt commits index) commit).top lane hash ↔ Reached commits index lane hash :=
  holds_lanesAt (Nat.le_of_lt (index_lt_length h)) lane hash

theorem holds_bottom_iff (lane : Nat) (hash : Hash) :
    Holds (layoutRow (lanesAt commits index) commit).bottom lane hash ↔ Reached commits (index + 1) lane hash := by
  rw [← holds_lanesAt (index_lt_length h), lanesAt_succ h, holds_trimTail]

end Rows

/-- Each parent has a lane, which leads to it in every row down to its own, and a lane
leads to a commit only where an edge does. -/
theorem edges_unbroken (commits : List Commit) (hdistinct : (commits.map Commit.hash).Nodup) {index : Nat}
    {commit : Commit} (hcommit : commits[index]? = some commit) :
    ∃ row, (layoutGraph commits).rows[index]? = some row ∧ row.hash = commit.hash ∧
      row.parentLanes.length = commit.listed.length ∧
      (∀ (k lane : Nat) (hash : Hash), commit.listed[k]? = some hash → row.parentLanes[k]? = some lane →
        Holds row.bottom lane hash ∧
          ∀ (later : Nat) (parent : Commit), index < later → commits[later]? = some parent → parent.hash = hash →
            (∀ (between : Nat) (middle : Row), index < between → between < later →
              (layoutGraph commits).rows[between]? = some middle →
                Holds middle.top lane hash ∧ Holds middle.bottom lane hash) ∧
            ∃ last, (layoutGraph commits).rows[later]? = some last ∧ Holds last.top lane hash ∧
              (last.node = lane ∨ lane ∈ last.merging)) ∧
      (∀ (lane : Nat) (hash : Hash), Holds row.top lane hash ↔ Reached commits index lane hash) ∧
      (∀ (lane : Nat) (hash : Hash), Holds row.bottom lane hash ↔ Reached commits (index + 1) lane hash) ∧
      ∀ (lane : Nat) (hash other : Hash),
        (Reached commits index lane hash → Reached commits index lane other → hash = other) ∧
          (Reached commits (index + 1) lane hash → Reached commits (index + 1) lane other → hash = other) := by
  have hlength := index_lt_length hcommit
  refine ⟨_, row_of_commit hcommit, rfl, length_parentLanes _ _, ?_, holds_top_iff hcommit, holds_bottom_iff hcommit, ?_⟩
  · intro k lane hash hlisted hlane
    have hedge : Edge commits index lane hash := (edge_iff hcommit lane hash).2 ⟨k, hlisted, hlane⟩
    refine ⟨(holds_bottom _ _ _ _).2 (.inr ⟨k, hlisted, hlane⟩), ?_⟩
    intro later parent hlater hparent hhash
    subst hhash
    have hreached {place : Nat} (hafter : index < place) (hbefore : place ≤ later) :
        Reached commits place lane parent.hash :=
      hedge.reached hdistinct hparent hafter hbefore
    constructor
    · intro between middle hafter hbefore hmiddle
      rw [layoutGraph_row] at hmiddle
      obtain ⟨other, hother, rfl⟩ := Option.map_eq_some_iff.1 hmiddle
      constructor
      · rw [holds_top_iff hother]
        exact hreached hafter (Nat.le_of_lt hbefore)
      · rw [holds_bottom_iff hother]
        exact hreached (Nat.lt_succ_of_lt hafter) hbefore
    · have htop := (holds_top_iff hparent lane parent.hash).2 (hreached hlater (Nat.le_refl _))
      exact ⟨_, row_of_commit hparent, htop, lane_of_holds_top _ _ htop⟩
  · intro lane hash other
    exact ⟨reached_unique (Nat.le_of_lt hlength), reached_unique hlength⟩

/-- Two branches that are merged again, the second through a lane of its own. -/
def mergedBranches : List Commit :=
  [⟨"m", some ["a", "b"]⟩, ⟨"a", some ["r"]⟩, ⟨"b", some ["r"]⟩, ⟨"r", none⟩]

theorem second_branch_unbroken :
    ∃ row, (layoutGraph mergedBranches).rows[0]? = some row ∧ Holds row.bottom 1 "b" ∧
      ∃ last, (layoutGraph mergedBranches).rows[2]? = some last ∧ Holds last.top 1 "b" ∧
        (last.node = 1 ∨ 1 ∈ last.merging) := by
  obtain ⟨row, hrow, -, -, hedges, -⟩ := edges_unbroken mergedBranches (by decide) (show mergedBranches[0]? = some ⟨"m", some ["a", "b"]⟩ from rfl)
  have hfirst : (layoutGraph mergedBranches).rows[0]? = some (layoutRow [] ⟨"m", some ["a", "b"]⟩) := rfl
  have hlane : row.parentLanes[1]? = some 1 := by
    rw [hfirst] at hrow
    cases hrow
    decide
  obtain ⟨hbottom, hbelow⟩ := hedges 1 1 "b" rfl hlane
  exact ⟨row, hrow, hbottom, (hbelow 2 ⟨"b", some ["r"]⟩ (by decide) rfl rfl).2⟩

end Gostman.Commits
