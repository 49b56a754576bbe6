import Gostman.Flows.Names
/-!
# The index of a flow

What `indexSteps` and `loopsAround` give for steps with distinct ids that are
not empty: the place of every step, the steps beside it, around it and inside
it, and how the loops around two steps relate.
-/

namespace Gostman.Flows

open Gostman.Lib

/-- The id a trail of ids ends in, empty for the empty trail. -/
def lastId (trail : List String) : String := trail.getLast?.getD ""

@[simp] theorem lastId_nil : lastId [] = "" := rfl

@[simp] theorem lastId_snoc (trail : List String) (id : String) : lastId (trail ++ [id]) = id := by
  simp [lastId]

/-- Every step with the ids of the steps around it, outermost first. -/
def trailWalk (steps : List Step) : List (Outline.Spot StepHead (List String)) :=
  Outline.walk opensInner (Outline.trail StepHead.id) steps []

theorem walkSteps_eq (steps : List Step) :
    walkSteps steps "" = (trailWalk steps).map (Outline.Spot.mapParent lastId) := by
  have hnext : ∀ (above : List String) (head : StepHead),
      lastId (Outline.trail StepHead.id above head) = head.id :=
    fun above head => lastId_snoc above head.id
  exact Outline.walk_mapParent (f := lastId) hnext steps []

theorem mem_trailWalk_iff {steps : List Step} {spot : Outline.Spot StepHead (List String)} :
    spot ∈ trailWalk steps ↔
      Outline.Located opensInner (Outline.trail StepHead.id) steps [] spot :=
  Outline.mem_walk_iff

/-- Steps whose ids name them: distinct and not empty. -/
structure Named (steps : List Step) : Prop where
  nodup : (allStepIds steps).Nodup
  ne_empty : ∀ id ∈ allStepIds steps, id ≠ ""

theorem named_normalizeFlow (numerals : Js.Numerals) (raw : Js.Json) :
    Named (normalizeFlow numerals raw).steps where
  nodup := nodup_allStepIds numerals raw
  ne_empty := fun _ h => (plainId_of_mem_allStepIds numerals h).ne_empty

namespace Named

variable {steps : List Step} (hnamed : Named steps)

include hnamed

theorem indexSteps_eq :
    indexSteps steps = (walkSteps steps "").map fun entry => (entry.item.head.id, entry) := by
  apply Record.ofEntries_of_nodup
  simpa [Record.keys, allStepIds, Function.comp_def] using hnamed.nodup

theorem keys_indexSteps : (indexSteps steps).keys = allStepIds steps := by
  rw [hnamed.indexSteps_eq]
  simp [Record.keys, allStepIds, Function.comp_def]

theorem read_index_iff {id : String} {entry : Entry} :
    (indexSteps steps).read id = some entry ↔
      entry ∈ walkSteps steps "" ∧ entry.item.head.id = id := by
  constructor
  · intro h
    have hmem := Record.mem_of_read h
    rw [hnamed.indexSteps_eq, List.mem_map] at hmem
    obtain ⟨other, hother, heq⟩ := hmem
    obtain ⟨rfl, rfl⟩ := Prod.mk.inj heq
    exact ⟨hother, rfl⟩
  · rintro ⟨hmem, rfl⟩
    apply Record.read_of_mem
    · rw [hnamed.keys_indexSteps]
      exact hnamed.nodup
    · rw [hnamed.indexSteps_eq]
      exact List.mem_map.2 ⟨entry, hmem, rfl⟩

theorem read_of_located {spot : Outline.Spot StepHead (List String)}
    (hspot : spot ∈ trailWalk steps) :
    (indexSteps steps).read spot.item.head.id = some (spot.mapParent lastId) := by
  rw [hnamed.read_index_iff, walkSteps_eq]
  exact ⟨List.mem_map.2 ⟨spot, hspot, rfl⟩, rfl⟩

theorem exists_spot_of_read {id : String} {entry : Entry}
    (h : (indexSteps steps).read id = some entry) :
    ∃ spot ∈ trailWalk steps, entry = spot.mapParent lastId ∧ spot.item.head.id = id := by
  obtain ⟨hmem, rfl⟩ := hnamed.read_index_iff.1 h
  rw [walkSteps_eq] at hmem
  obtain ⟨spot, hspot, rfl⟩ := List.mem_map.1 hmem
  exact ⟨spot, hspot, rfl, rfl⟩

theorem id_ne_empty {spot : Outline.Spot StepHead (List String)} (hspot : spot ∈ trailWalk steps) :
    spot.item.head.id ≠ "" := by
  apply hnamed.ne_empty
  rw [allStepIds, walkSteps_eq, List.map_map]
  exact List.mem_map.2 ⟨spot, hspot, rfl⟩

theorem read_empty : (indexSteps steps).read "" = none := by
  rw [Record.read_eq_none_iff, hnamed.keys_indexSteps]
  exact fun h => hnamed.ne_empty "" h rfl

theorem loopsFrom_of_located {spot : Outline.Spot StepHead (List String)}
    (hspot : spot ∈ trailWalk steps) {bound : Nat} (hbound : spot.parent.length ≤ bound) :
    loopsFrom (indexSteps steps) bound (lastId spot.parent) = spot.parent := by
  rw [mem_trailWalk_iff] at hspot
  induction hspot generalizing bound with
  | root _ => cases bound <;> simp [loopsFrom]
  | @inner outer item position houter _ ih =>
      have hmem := mem_trailWalk_iff.2 houter
      simp only [Outline.trail, List.length_append, List.length_cons, List.length_nil] at hbound ⊢
      obtain ⟨rest, rfl⟩ : ∃ rest, bound = rest + 1 := ⟨bound - 1, by omega⟩
      have hparent : parentOf (indexSteps steps) outer.item.head.id = lastId outer.parent := by
        simp [parentOf, hnamed.read_of_located hmem, Outline.Spot.mapParent]
      rw [lastId_snoc, loopsFrom, if_neg (hnamed.id_ne_empty hmem), hparent, ih (by omega)]

/-- The loops around a located step are its trail. -/
theorem loopsAround_of_located {spot : Outline.Spot StepHead (List String)}
    (hspot : spot ∈ trailWalk steps) :
    loopsAround (indexSteps steps) spot.item.head.id = spot.parent := by
  have hparent : parentOf (indexSteps steps) spot.item.head.id = lastId spot.parent := by
    simp [parentOf, hnamed.read_of_located hspot, Outline.Spot.mapParent]
  have hlength : (indexSteps steps).length = (trailWalk steps).length := by
    rw [hnamed.indexSteps_eq, walkSteps_eq]
    simp
  rw [loopsAround, hparent, hlength]
  exact hnamed.loopsFrom_of_located hspot (Outline.trail_length_lt hspot).le

theorem spot_unique {first second : Outline.Spot StepHead (List String)}
    (hfirst : first ∈ trailWalk steps) (hsecond : second ∈ trailWalk steps)
    (hid : first.item.head.id = second.item.head.id) : first = second := by
  have hread := hnamed.read_of_located hfirst
  rw [hid, hnamed.read_of_located hsecond, Option.some.injEq] at hread
  have hparent := hnamed.loopsAround_of_located hfirst
  rw [hid, hnamed.loopsAround_of_located hsecond] at hparent
  obtain ⟨item, list, position, parent⟩ := first
  obtain ⟨item', list', position', parent'⟩ := second
  simp only [Outline.Spot.mapParent, Outline.Spot.mk.injEq] at hread
  obtain ⟨rfl, rfl, rfl, -⟩ := hread
  simpa using hparent.symm

omit hnamed in
/-- A name in the trail of a place is the id of a step that lies that deep. -/
theorem exists_spot_of_getElem {spot : Outline.Spot StepHead (List String)}
    (hspot : spot ∈ trailWalk steps) {depth : Nat} {id : String}
    (hid : spot.parent[depth]? = some id) :
    ∃ outer ∈ trailWalk steps, opensInner outer.item.head = true ∧ outer.item.head.id = id ∧
      outer.parent = spot.parent.take depth := by
  rw [mem_trailWalk_iff] at hspot
  induction hspot with
  | root _ => simp at hid
  | @inner outer item position houter hitem ih =>
      simp only [Outline.trail] at hid ⊢
      rcases lt_trichotomy depth outer.parent.length with hlt | rfl | hgt
      · rw [List.getElem?_append_left hlt] at hid
        obtain ⟨spot, hspot, hopens, hspotId, hparent⟩ := ih hid
        exact ⟨spot, hspot, hopens, hspotId, by rw [List.take_append_of_le_length hlt.le, hparent]⟩
      · have hopens : opensInner outer.item.head = true := by
          by_contra h
          simp [Outline.shown, h] at hitem
        exact ⟨outer, mem_trailWalk_iff.2 houter, hopens, by simpa using hid, by simp⟩
      · rw [List.getElem?_eq_none (by simp; omega)] at hid
        cases hid

theorem nodup_trail {spot : Outline.Spot StepHead (List String)} (hspot : spot ∈ trailWalk steps) :
    (spot.parent ++ [spot.item.head.id]).Nodup := by
  have hspotAt : ∀ depth, (spot.parent ++ [spot.item.head.id])[depth]? ≠ none →
      ∃ outer ∈ trailWalk steps, (spot.parent ++ [spot.item.head.id])[depth]? = some outer.item.head.id ∧
        outer.parent = spot.parent.take depth ∧ depth ≤ spot.parent.length := by
    intro depth hdepth
    rcases lt_or_ge depth spot.parent.length with hlt | hge
    · have hget : spot.parent[depth]? = some spot.parent[depth] := List.getElem?_eq_getElem hlt
      obtain ⟨outer, houter, -, hid, hparent⟩ := exists_spot_of_getElem hspot hget
      exact ⟨outer, houter, by rw [List.getElem?_append_left hlt, hget, hid], hparent, hlt.le⟩
    · have hle : depth ≤ spot.parent.length := by
        by_contra h
        exact hdepth (List.getElem?_eq_none (by simp; omega))
      obtain rfl : depth = spot.parent.length := by omega
      exact ⟨spot, hspot, by simp, by simp, le_rfl⟩
  rw [List.nodup_iff_getElem?_ne_getElem?]
  intro i j hij hj heq
  obtain ⟨outer, houter, hget, hparent, hle⟩ := hspotAt j (by simp [List.getElem?_eq_getElem hj])
  obtain ⟨other, hother, hget', hparent', hle'⟩ := hspotAt i (by rw [heq, hget]; simp)
  rw [hget, hget', Option.some.injEq] at heq
  obtain rfl := hnamed.spot_unique hother houter heq
  have hlength := congrArg List.length (hparent'.symm.trans hparent)
  simp only [List.length_take] at hlength
  omega

/-- A step whose loops are all around another step shares them outermost
first. -/
theorem prefix_of_subset {first second : Outline.Spot StepHead (List String)}
    (hfirst : first ∈ trailWalk steps) (hsecond : second ∈ trailWalk steps)
    (hsub : ∀ loop ∈ first.parent, loop ∈ second.parent) : first.parent <+: second.parent := by
  rcases List.eq_nil_or_concat first.parent with hnil | ⟨above, last, hconcat⟩
  · simp [hnil]
  · have hlast : last ∈ second.parent := hsub last (by simp [hconcat])
    obtain ⟨depth, hdepth, rfl⟩ := List.getElem_of_mem hlast
    have hget := List.getElem?_eq_getElem hdepth
    obtain ⟨outer, houter, -, hid, hparent⟩ := exists_spot_of_getElem hsecond hget
    have hget' : first.parent[above.length]? = some second.parent[depth] := by simp [hconcat]
    obtain ⟨other, hother, -, hid', hparent'⟩ := exists_spot_of_getElem hfirst hget'
    obtain rfl := hnamed.spot_unique houter hother (hid.trans hid'.symm)
    have habove : above = second.parent.take depth := by
      rw [← hparent, hparent', hconcat]
      simp
    rw [hconcat, habove, List.concat_eq_append, List.take_concat_get' _ _ hdepth]
    exact List.take_prefix _ _

end Named

/-! ## The steps beside, around and inside a step -/

section Places

variable {steps : List Step} {spot : Outline.Spot StepHead (List String)}

theorem first_mem_trailWalk {first : Step} {rest : List Step} (h : steps = first :: rest) :
    ⟨first, steps, 0, []⟩ ∈ trailWalk steps :=
  mem_trailWalk_iff.2 (.root (by simp [h]))

theorem sibling_mem_trailWalk (hspot : spot ∈ trailWalk steps) {position : Nat} {item : Step}
    (hitem : spot.list[position]? = some item) :
    ⟨item, spot.list, position, spot.parent⟩ ∈ trailWalk steps := by
  rw [mem_trailWalk_iff] at hspot ⊢
  cases hspot with
  | root _ => exact .root hitem
  | inner houter _ => exact .inner houter hitem

theorem inner_mem_trailWalk (hspot : spot ∈ trailWalk steps) {position : Nat} {item : Step}
    (hitem : (innerSteps spot.item)[position]? = some item) :
    ⟨item, innerSteps spot.item, position, spot.parent ++ [spot.item.head.id]⟩ ∈
      trailWalk steps := by
  rw [mem_trailWalk_iff] at hspot ⊢
  exact .inner hspot hitem

/-- A step that is not at the top level stands in the steps of another. -/
theorem exists_outer (hspot : spot ∈ trailWalk steps) (hne : spot.parent ≠ []) :
    ∃ outer ∈ trailWalk steps, opensInner outer.item.head = true ∧
      spot.parent = outer.parent ++ [outer.item.head.id] ∧ spot.list = innerSteps outer.item := by
  rw [mem_trailWalk_iff] at hspot
  cases hspot with
  | root _ => exact absurd rfl hne
  | @inner outer item position houter hitem =>
      have hopens : opensInner outer.item.head = true := by
        by_contra h
        simp [Outline.shown, h] at hitem
      exact ⟨outer, mem_trailWalk_iff.2 houter, hopens, rfl, rfl⟩

theorem mem_list_of_mem_trailWalk (hspot : spot ∈ trailWalk steps) :
    spot.list[spot.position]? = some spot.item := by
  rw [mem_trailWalk_iff] at hspot
  cases hspot with
  | root h => exact h
  | inner _ h => exact h

end Places

end Gostman.Flows
