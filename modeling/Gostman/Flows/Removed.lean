import Gostman.Flows.English
import Gostman.Flows.Places
/-!
# Removing a step

Without a step the jumps that led to it lead on to what came after it, which
every step that could reach the removed one can reach.
-/

namespace Gostman.Flows

open Gostman.Lib

/-! ## The list without the step -/

mutual

/-- The steps without the one of an id, wherever it stands. -/
def without (id : String) : List Step → List Step
  | [] => []
  | step :: rest => if step.head.id = id then without id rest else withoutIn id step :: without id rest

def withoutIn (id : String) : Step → Step
  | .node head inner => .node head (if opensInner head then without id inner else inner)

end

abbrev stepsOf (steps : List Step) : List Step := Outline.flatten opensInner steps

abbrev stepsBelow (step : Step) : List Step := Outline.beneath opensInner step

theorem stepsOf_cons (step : Step) (rest : List Step) :
    stepsOf (step :: rest) = step :: (stepsBelow step ++ stepsOf rest) := rfl

theorem stepsBelow_node {head : StepHead} (h : opensInner head = true) (inner : List Step) :
    stepsBelow (.node head inner) = stepsOf inner :=
  if_pos h

theorem stepsBelow_closed {head : StepHead} (h : ¬opensInner head = true) (inner : List Step) :
    stepsBelow (.node head inner) = [] :=
  if_neg h

abbrev idsOf (steps : List Step) : List String := steps.map fun step => step.head.id

theorem idsOf_cons (step : Step) (rest : List Step) :
    idsOf (stepsOf (step :: rest)) = step.head.id :: (idsOf (stepsBelow step) ++ idsOf (stepsOf rest)) := by
  rw [stepsOf_cons, idsOf, List.map_cons, List.map_append]

mutual

theorem without_of_notMem {id : String} : ∀ steps : List Step, id ∉ idsOf (stepsOf steps) → without id steps = steps
  | [], _ => rfl
  | step :: rest, h => by
      rw [idsOf_cons, List.mem_cons, List.mem_append, not_or, not_or] at h
      rw [without, if_neg (fun heq => h.1 heq.symm), withoutIn_of_notMem step h.2.1, without_of_notMem rest h.2.2]

theorem withoutIn_of_notMem {id : String} : ∀ step : Step, id ∉ idsOf (stepsBelow step) → withoutIn id step = step
  | .node head inner, h => by
      rw [withoutIn]
      by_cases hopen : opensInner head = true
      · rw [stepsBelow_node hopen] at h
        rw [if_pos hopen, without_of_notMem inner h]
      · rw [if_neg hopen]

end

mutual

theorem changeSteps_of_notMem {parent : String} {change : List Step → List Step} : ∀ steps : List Step,
    parent ∉ idsOf (stepsOf steps) → changeSteps parent change steps = steps
  | [], _ => rfl
  | step :: rest, h => by
      rw [idsOf_cons, List.mem_cons, List.mem_append, not_or, not_or] at h
      rw [changeSteps, changeStep_of_notMem step (fun heq => h.1 heq.symm) h.2.1, changeSteps_of_notMem rest h.2.2]

theorem changeStep_of_notMem {parent : String} {change : List Step → List Step} : ∀ step : Step,
    step.head.id ≠ parent → parent ∉ idsOf (stepsBelow step) → changeStep parent change step = step
  | .node head inner, hid, h => by
      rw [changeStep, if_neg (show ¬head.id = parent from hid)]
      by_cases hopen : head.kind.isContainer = true
      · rw [stepsBelow_node (by exact hopen)] at h
        rw [if_pos hopen, changeSteps_of_notMem inner h]
      · rw [if_neg hopen]

end

theorem mem_stepsOf {step : Step} {steps : List Step} (h : step ∈ steps) : step ∈ stepsOf steps := by
  induction steps with
  | nil => exact h
  | cons first rest ih =>
    rw [stepsOf_cons]
    rcases List.mem_cons.1 h with rfl | hin
    · exact List.mem_cons_self
    · exact List.mem_cons_of_mem _ (List.mem_append_right _ (ih hin))

/-- In the list that the step stands in, leaving it out is all there is to do. -/
theorem filter_eq_without {id : String} {steps : List Step} (hnodup : (idsOf (stepsOf steps)).Nodup)
    (hmem : id ∈ idsOf steps) : (steps.filter fun step => step.head.id ≠ id) = without id steps := by
  induction steps with
  | nil => rfl
  | cons step rest ih =>
    rw [idsOf_cons, List.nodup_cons, List.nodup_append] at hnodup
    obtain ⟨hhead, hbelow, hrest, hapart⟩ := hnodup
    rw [List.mem_append, not_or] at hhead
    by_cases hid : step.head.id = id
    · rw [hid] at hhead
      have hself : (rest.filter fun step => step.head.id ≠ id) = rest := by
        apply List.filter_eq_self.2
        intro other hother
        apply decide_eq_true
        intro heq
        exact hhead.2 (heq ▸ List.mem_map_of_mem (mem_stepsOf hother))
      rw [List.filter_cons, if_neg (by rw [decide_eq_true_eq]; exact not_not.2 hid), without, if_pos hid,
        without_of_notMem rest hhead.2, hself]
    · have hin : id ∈ idsOf rest := by
        rcases List.mem_cons.1 hmem with heq | hin
        · exact absurd heq.symm hid
        · exact hin
      have hnot : id ∉ idsOf (stepsBelow step) := by
        intro hmemBelow
        obtain ⟨other, hother, heq⟩ := List.mem_map.1 hin
        exact hapart id hmemBelow id (heq ▸ List.mem_map_of_mem (mem_stepsOf hother)) rfl
      rw [List.filter_cons, if_pos (decide_eq_true hid), without, if_neg hid, withoutIn_of_notMem step hnot, ih hrest hin]

/-- The step of an id holds, among the steps inside it, one of another id. -/
def Holds (parent id : String) (step : Step) : Prop :=
  step.head.id = parent ∧ opensInner step.head = true ∧ id ∈ idsOf step.inner

theorem Holds.mem_stepsBelow {parent id : String} {step : Step} (h : Holds parent id step) :
    id ∈ idsOf (stepsBelow step) := by
  obtain ⟨-, hopen, hmem⟩ := h
  cases step with
  | node head inner =>
    change opensInner head = true at hopen
    rw [stepsBelow_node hopen]
    obtain ⟨item, hitem, hid⟩ := List.mem_map.1 hmem
    exact hid ▸ List.mem_map_of_mem (mem_stepsOf hitem)

mutual

/-- What lies below a step lies below all steps around it. -/
theorem mem_stepsOf_of_below {outer step : Step} (hbelow : step ∈ stepsBelow outer) :
    ∀ steps : List Step, outer ∈ stepsOf steps → step ∈ stepsOf steps
  | [], h => absurd h List.not_mem_nil
  | first :: rest, h => by
      rw [stepsOf_cons] at h ⊢
      rcases List.mem_cons.1 h with rfl | hin
      · exact List.mem_cons_of_mem _ (List.mem_append_left _ hbelow)
      · rcases List.mem_append.1 hin with hfirst | hrest
        · exact List.mem_cons_of_mem _ (List.mem_append_left _ (mem_stepsBelow_of_below hbelow first hfirst))
        · exact List.mem_cons_of_mem _ (List.mem_append_right _ (mem_stepsOf_of_below hbelow rest hrest))

theorem mem_stepsBelow_of_below {outer step : Step} (hbelow : step ∈ stepsBelow outer) :
    ∀ first : Step, outer ∈ stepsBelow first → step ∈ stepsBelow first
  | .node head inner, h => by
      by_cases hopen : opensInner head = true
      · rw [stepsBelow_node hopen] at h ⊢
        exact mem_stepsOf_of_below hbelow inner h
      · rw [stepsBelow_closed hopen] at h
        exact absurd h List.not_mem_nil

end

theorem mem_ids_of_below {outer : Step} {id : String} {steps : List Step} (hid : id ∈ idsOf (stepsBelow outer))
    (h : outer ∈ stepsOf steps) : id ∈ idsOf (stepsOf steps) := by
  obtain ⟨step, hstep, rfl⟩ := List.mem_map.1 hid
  exact List.mem_map_of_mem (mem_stepsOf_of_below hstep steps h)

theorem mem_idsBelow_of_below {outer step : Step} {id : String} (hid : id ∈ idsOf (stepsBelow outer))
    (h : outer ∈ stepsBelow step) : id ∈ idsOf (stepsBelow step) := by
  obtain ⟨found, hfound, rfl⟩ := List.mem_map.1 hid
  exact List.mem_map_of_mem (mem_stepsBelow_of_below hfound step h)

mutual

/-- Changing the list that holds the step leaves the step out, and nothing
else. -/
theorem changeSteps_eq_without {parent id : String} {outer : Step} (hholds : Holds parent id outer) :
    ∀ steps : List Step, (idsOf (stepsOf steps)).Nodup → outer ∈ stepsOf steps →
      changeSteps parent (fun list => list.filter fun step => step.head.id ≠ id) steps = without id steps
  | [], _, h => absurd h List.not_mem_nil
  | step :: rest, hnodup, h => by
      rw [idsOf_cons, List.nodup_cons, List.nodup_append] at hnodup
      obtain ⟨hhead, hbelow, hrest, hapart⟩ := hnodup
      rw [List.mem_append, not_or] at hhead
      have hid := hholds.mem_stepsBelow
      rw [stepsOf_cons] at h
      rw [changeSteps, without]
      by_cases hin : outer ∈ stepsOf rest
      · have hparent : parent ∈ idsOf (stepsOf rest) := hholds.1 ▸ List.mem_map_of_mem hin
        have hidRest := mem_ids_of_below hid hin
        have hstep : step.head.id ≠ parent := fun heq => hhead.2 (heq ▸ hparent)
        have hstepId : step.head.id ≠ id := fun heq => hhead.2 (heq ▸ hidRest)
        rw [changeStep_of_notMem step hstep (fun hmem => hapart _ hmem _ hparent rfl), if_neg hstepId,
          withoutIn_of_notMem step (fun hmem => hapart _ hmem _ hidRest rfl),
          changeSteps_eq_without hholds rest hrest hin]
      · have hself : outer ∈ step :: stepsBelow step := by
          rcases List.mem_cons.1 h with rfl | hmem
          · exact List.mem_cons_self
          · exact List.mem_cons_of_mem _ ((List.mem_append.1 hmem).resolve_right hin)
        have hidBelow : id ∈ idsOf (stepsBelow step) := by
          rcases List.mem_cons.1 hself with rfl | hmem
          · exact hid
          · exact mem_idsBelow_of_below hid hmem
        have hparent : parent ∈ idsOf (step :: stepsBelow step) := hholds.1 ▸ List.mem_map_of_mem hself
        have hparentRest : parent ∉ idsOf (stepsOf rest) := by
          intro hmem
          rcases List.mem_cons.1 hparent with heq | hparentBelow
          · rw [heq] at hmem
            exact hhead.2 hmem
          · exact hapart _ hparentBelow _ hmem rfl
        have hstepId : step.head.id ≠ id := fun heq => hhead.1 (heq ▸ hidBelow)
        rw [changeSteps_of_notMem rest hparentRest, if_neg hstepId,
          without_of_notMem rest (fun hmem => hapart _ hidBelow _ hmem rfl),
          changeStep_eq_withoutIn hholds step hhead.1 hbelow hself]

theorem changeStep_eq_withoutIn {parent id : String} {outer : Step} (hholds : Holds parent id outer) :
    ∀ step : Step, step.head.id ∉ idsOf (stepsBelow step) → (idsOf (stepsBelow step)).Nodup →
      outer ∈ step :: stepsBelow step →
        changeStep parent (fun list => list.filter fun step => step.head.id ≠ id) step = withoutIn id step
  | .node head inner, hhead, hnodup, h => by
      rw [changeStep, withoutIn]
      rcases List.mem_cons.1 h with rfl | hmem
      · obtain ⟨hid, hopen, hin⟩ := hholds
        change opensInner head = true at hopen
        change head.id = parent at hid
        rw [stepsBelow_node hopen] at hnodup
        rw [if_pos hid, if_pos hopen, filter_eq_without hnodup hin]
      · by_cases hopen : opensInner head = true
        · rw [stepsBelow_node hopen] at hmem hnodup hhead
          have hne : ¬head.id = parent := by
            intro heq
            exact hhead (heq.symm ▸ hholds.1 ▸ List.mem_map_of_mem hmem)
          rw [if_neg hne, if_pos hopen, if_pos (show head.kind.isContainer = true from hopen),
            changeSteps_eq_without hholds inner hnodup hmem]
        · rw [stepsBelow_closed hopen] at hmem
          exact absurd hmem List.not_mem_nil

end

/-! ## The places that stay -/

def isOutside (id : String) (place : Place) : Bool :=
  place.head.id ≠ id ∧ id ∉ place.trail

def Place.seat (place : Place) : StepHead × List String :=
  (place.head, place.trail)

theorem filter_isOutside_of_mem {id : String} {trail : List String} (h : id ∈ trail) (steps : List Step) :
    (placesBelow trail steps).filter (isOutside id) = [] := by
  apply List.filter_eq_nil_iff.2
  intro place hplace houtside
  have hout := of_decide_eq_true houtside
  exact hout.2 ((trail_prefix_of_mem hplace).subset h)

mutual

theorem seats_without {id : String} {trail : List String} (htrail : id ∉ trail) : ∀ steps : List Step,
    (placesBelow trail (without id steps)).map Place.seat =
      ((placesBelow trail steps).filter (isOutside id)).map Place.seat
  | [] => rfl
  | step :: rest => by
      rw [without, placesBelow, List.filter_append, List.map_append, ← seats_without htrail rest]
      by_cases hid : step.head.id = id
      · rw [if_pos hid]
        have hnone : (placesOfStep trail step).filter (isOutside id) = [] := by
          cases step with
          | node head inner =>
            change head.id = id at hid
            have hout : ¬isOutside id ⟨head, inner.length, trail⟩ = true := fun h => (of_decide_eq_true h).1 hid
            rw [placesOfStep, List.filter_cons, if_neg hout]
            split_ifs with hopen
            · exact filter_isOutside_of_mem (by rw [hid]; exact List.mem_append_right _ List.mem_cons_self) inner
            · rfl
        rw [hnone]
        rfl
      · rw [if_neg hid, placesBelow, List.map_append, seats_withoutIn htrail step hid]

theorem seats_withoutIn {id : String} {trail : List String} (htrail : id ∉ trail) : ∀ step : Step, step.head.id ≠ id →
    (placesOfStep trail (withoutIn id step)).map Place.seat =
      ((placesOfStep trail step).filter (isOutside id)).map Place.seat
  | .node head inner, hid => by
      have hout : isOutside id ⟨head, inner.length, trail⟩ = true := decide_eq_true ⟨hid, htrail⟩
      rw [withoutIn, placesOfStep, placesOfStep, List.filter_cons, if_pos hout, List.map_cons, List.map_cons]
      by_cases hopen : opensInner head = true
      · have hinner : id ∉ trail ++ [head.id] := by
          intro hmem
          rcases List.mem_append.1 hmem with hin | hin
          · exact htrail hin
          · exact hid (List.mem_singleton.1 hin).symm
        rw [if_pos hopen, if_pos hopen, if_pos hopen, seats_without hinner inner]
        rfl
      · rw [if_neg hopen, if_neg hopen]
        rfl

end

/-! ## What is removed -/

theorem stepsBelow_eq (step : Step) : stepsBelow step = stepsOf (innerSteps step) := by
  cases step with
  | node head inner =>
    unfold innerSteps Outline.shown
    by_cases hopen : opensInner head = true
    · rw [stepsBelow_node hopen, if_pos (by exact hopen)]
      rfl
    · rw [stepsBelow_closed hopen, if_neg (by exact hopen)]
      rfl

theorem ids_placesBelow (trail : List String) (steps : List Step) :
    ((placesBelow trail steps).map fun place => place.head.id) = idsOf (stepsOf steps) := by
  have hmap : (Outline.walk opensInner (Outline.trail StepHead.id) steps trail).map placeOf = placesBelow trail steps :=
    map_placeOf_walk steps trail
  have hitems := @Outline.walk_map_item _ _ opensInner (Outline.trail StepHead.id) steps trail
  rw [← hmap, List.map_map, idsOf, stepsOf, ← hitems, List.map_map]
  rfl

section Removed

variable {steps : List Step} (hnamed : Named steps) {spot : Outline.Spot StepHead (List String)}
  (hspot : spot ∈ trailWalk steps)

include hspot

/-- What lies below a spot is placed in the whole. -/
theorem places_of_placesBelow {place : Place}
    (h : place ∈ placesBelow (spot.parent ++ [spot.item.head.id]) (innerSteps spot.item)) : place ∈ places steps := by
  rw [← map_placeOf_walk] at h
  obtain ⟨found, hfound, rfl⟩ := List.mem_map.1 h
  apply place_mem_of_spot
  have hlocated := Outline.mem_walk_iff.1 hfound
  clear hfound h
  induction hlocated with
  | root hitem => exact inner_mem_trailWalk hspot hitem
  | inner _ hitem ih => exact inner_mem_trailWalk ih hitem

include hnamed

theorem mem_stepsBelow_of_trail {other : Outline.Spot StepHead (List String)} (hother : other ∈ trailWalk steps)
    (h : spot.item.head.id ∈ other.parent) : other.item ∈ stepsBelow spot.item := by
  rw [mem_trailWalk_iff] at hother
  induction hother with
  | root hitem => exact absurd h List.not_mem_nil
  | @inner outer item position houter hitem ih =>
    have hdirect : item ∈ stepsBelow outer.item := by
      rw [stepsBelow_eq]
      exact mem_stepsOf (List.mem_of_getElem? hitem)
    rcases List.mem_append.1 h with hin | hin
    · exact mem_stepsBelow_of_below hdirect spot.item (ih hin)
    · have hsame : spot = outer := hnamed.spot_unique hspot (mem_trailWalk_iff.2 houter) (List.mem_singleton.1 hin)
      rw [hsame]
      exact hdirect

/-- The removed ids are those of the places that are not outside. -/
theorem mem_idsWithin_iff {place : Place} (hplace : place ∈ places steps) :
    place.head.id ∈ idsWithin spot.item ↔ isOutside spot.item.head.id place = false := by
  have hout : isOutside spot.item.head.id place = false ↔
      place.head.id = spot.item.head.id ∨ spot.item.head.id ∈ place.trail := by
    unfold isOutside
    rw [decide_eq_false_iff_not]
    tauto
  have hids : allStepIds (innerSteps spot.item) = idsOf (stepsBelow spot.item) := by
    rw [allStepIds_eq, stepsBelow_eq]
  rw [hout, idsWithin, List.mem_cons, hids]
  constructor
  · rintro (heq | hmem)
    · exact .inl heq
    · right
      rw [stepsBelow_eq, ← ids_placesBelow (spot.parent ++ [spot.item.head.id])] at hmem
      obtain ⟨found, hfound, hid⟩ := List.mem_map.1 hmem
      rw [hnamed.place_unique hplace (places_of_placesBelow hspot hfound) hid.symm]
      exact (trail_prefix_of_mem hfound).subset (List.mem_append_right _ List.mem_cons_self)
  · rintro (heq | hmem)
    · exact .inl heq
    · obtain ⟨other, hother, rfl⟩ := exists_spot_of_place hplace
      exact .inr (List.mem_map_of_mem (mem_stepsBelow_of_trail hnamed hspot hother hmem))

end Removed

section Flow

variable {flow : Flow} (hnamed : Named flow.steps) {spot : Outline.Spot StepHead (List String)}
  (hspot : spot ∈ trailWalk flow.steps)

include hnamed hspot

theorem shortened_eq :
    changeList flow (lastId spot.parent) (fun list => list.filter fun step => step.head.id ≠ spot.item.head.id) =
      { flow with steps := without spot.item.head.id flow.steps } := by
  have hnodup : (idsOf (stepsOf flow.steps)).Nodup := by
    have h := hnamed.nodup
    rw [allStepIds_eq] at h
    exact h
  unfold changeList
  by_cases hnil : spot.parent = []
  · have hitem : spot.item ∈ flow.steps := by
      rw [mem_trailWalk_iff] at hspot
      cases hspot with
      | root h => exact List.mem_of_getElem? h
      | inner _ _ => exact absurd hnil (by simp [Outline.trail])
    have hfilter := filter_eq_without hnodup (List.mem_map_of_mem hitem)
    rw [hnil, lastId_nil, if_pos rfl]
    exact congrArg (fun steps => { flow with steps := steps }) hfilter
  · obtain ⟨outer, houter, hopen, hparent, hlist⟩ := exists_outer hspot hnil
    have hlast : lastId spot.parent = outer.item.head.id := by rw [hparent, lastId_snoc]
    have hne := hnamed.id_ne_empty houter
    have hmem := List.mem_of_getElem? (mem_list_of_mem_trailWalk hspot)
    rw [hlist, innerSteps, Outline.shown, if_pos hopen] at hmem
    have houterMem : outer.item ∈ stepsOf flow.steps := by
      have hitems := @Outline.walk_map_item _ _ opensInner (Outline.trail StepHead.id) flow.steps []
      rw [stepsOf, ← hitems]
      exact List.mem_map_of_mem houter
    rw [hlast, if_neg hne,
      changeSteps_eq_without ⟨rfl, hopen, List.mem_map_of_mem hmem⟩ flow.steps hnodup houterMem]

theorem removeStep_eq :
    removeStep flow spot.item.head.id =
      { flow with
        steps := mapSteps (towards (idsWithin spot.item) (continuationOf (spot.mapParent lastId) (idsWithin spot.item)))
          (without spot.item.head.id flow.steps) } := by
  have hread := hnamed.read_of_located hspot
  have hshort := shortened_eq hnamed hspot
  unfold removeStep
  rw [hread]
  change (let shortened := changeList flow (lastId spot.parent) fun list =>
      list.filter fun step => step.head.id ≠ spot.item.head.id
    ({ shortened with steps := mapSteps _ shortened.steps } : Flow)) = _
  rw [hshort]
  rfl

end Flow

/-! ## After the removal -/

theorem retargeted_retargeted (head : StepHead) (first second : String → String) :
    (head.retargeted first).retargeted second = head.retargeted fun target => second (first target) := by
  unfold StepHead.retargeted
  cases head.fields with
  | switch fields =>
    simp only [Fields.retargeted, List.map_map]
    rfl
  | _ => rfl

section Result

variable {flow : Flow} (hnamed : Named flow.steps) {spot : Outline.Spot StepHead (List String)}
  (hspot : spot ∈ trailWalk flow.steps)

include hspot

theorem exists_place_of_idsWithin {id : String} (h : id ∈ idsWithin spot.item) :
    ∃ place ∈ places flow.steps, place.head.id = id := by
  rcases List.mem_cons.1 h with rfl | hmem
  · exact ⟨placeOf spot, place_mem_of_spot hspot, rfl⟩
  · rw [allStepIds_eq, ← idsOf, ← stepsOf, ← ids_placesBelow (spot.parent ++ [spot.item.head.id])] at hmem
    obtain ⟨place, hplace, hid⟩ := List.mem_map.1 hmem
    exact ⟨place, places_of_placesBelow hspot hplace, hid⟩

include hnamed

theorem empty_notMem_idsWithin : "" ∉ idsWithin spot.item := by
  intro hmem
  obtain ⟨place, hplace, hid⟩ := exists_place_of_idsWithin hspot hmem
  obtain ⟨other, hother, rfl⟩ := exists_spot_of_place hplace
  exact hnamed.id_ne_empty hother hid

theorem notMem_idsWithin_iff {place : Place} (hplace : place ∈ places flow.steps) :
    place.head.id ∉ idsWithin spot.item ↔ isOutside spot.item.head.id place = true := by
  rw [mem_idsWithin_iff hnamed hspot hplace, Bool.not_eq_false]

/-- What the jumps to the removed step lead to instead: nothing, or what every
step reaches that could reach the removed one. -/
theorem continuation_spec {lib : Library} (hproblems : targetProblems lib (indexSteps flow.steps) spot.item = [])
    (hend : endTarget ∉ allStepIds flow.steps) :
    let continuation := continuationOf (spot.mapParent lastId) (idsWithin spot.item)
    continuation = "" ∨ continuation ∉ idsWithin spot.item ∧
      (continuation = endTarget ∨ ∃ goal ∈ places flow.steps, isOutside spot.item.head.id goal = true ∧
        goal.head.id = continuation ∧ goal.trail ⊆ spot.parent) := by
  have hendWithin : endTarget ∉ idsWithin spot.item := by
    intro hmem
    obtain ⟨place, hplace, hid⟩ := exists_place_of_idsWithin hspot hmem
    rw [allStepIds_eq_places, ← hid] at hend
    exact hend (List.mem_map_of_mem hplace)
  have hplace := place_mem_of_spot hspot
  intro continuation
  by_cases hjump : spot.item.head.next ≠ "" ∧ spot.item.head.next ∉ idsWithin spot.item
  · have hcontinuation : continuation = spot.item.head.next := if_pos hjump
    rw [hcontinuation]
    refine .inr ⟨hjump.2, ?_⟩
    have hroute : (TargetField.next, spot.item.head.next) ∈ (placeOf spot).targets := by
      apply List.mem_filter.2
      refine ⟨List.mem_append_right _ ?_, decide_eq_true hjump.1⟩
      exact List.mem_filterMap.2 ⟨_, List.mem_cons_self, rfl⟩
    rcases (hnamed.targetProblems_eq_nil_iff lib hplace rfl).1 hproblems _ hroute with hstop | ⟨goal, hgoal, hid, hsub⟩
    · exact .inl hstop
    · exact .inr ⟨goal, hgoal, (notMem_idsWithin_iff hnamed hspot hgoal).1 (hid ▸ hjump.2), hid, hsub⟩
  · have hcontinuation : continuation = successorOf (spot.mapParent lastId) := if_neg hjump
    rw [hcontinuation]
    have hstop : (if lastId spot.parent = "" then endTarget else "") = "" ∨
        (if lastId spot.parent = "" then endTarget else "") ∉ idsWithin spot.item ∧
          (if lastId spot.parent = "" then endTarget else "") = endTarget := by
      split_ifs with hroot
      · exact .inr ⟨hendWithin, rfl⟩
      · exact .inl rfl
    unfold successorOf
    cases hnext : (spot.mapParent lastId).list[(spot.mapParent lastId).position + 1]? with
    | none => exact hstop.imp_right fun h => ⟨h.1, .inl h.2⟩
    | some step =>
      have hsibling := @sibling_mem_trailWalk _ _ hspot (spot.position + 1) _ hnext
      have hne := hnamed.id_ne_empty hsibling
      have hout : isOutside spot.item.head.id (placeOf ⟨step, spot.list, spot.position + 1, spot.parent⟩) = true := by
        apply decide_eq_true
        constructor
        · intro hid
          have hsame := congrArg Outline.Spot.position (hnamed.spot_unique hsibling hspot hid)
          change spot.position + 1 = spot.position at hsame
          omega
        · intro hmem
          exact (List.nodup_append.1 (hnamed.nodup_trail hspot)).2.2 _ hmem _ List.mem_cons_self rfl
      have hgoal := place_mem_of_spot hsibling
      change (if step.head.id ≠ "" then _ else _) = "" ∨ _
      simp only [if_pos (show step.head.id ≠ "" from hne)]
      exact .inr ⟨(notMem_idsWithin_iff hnamed hspot hgoal).2 hout, .inr ⟨_, hgoal, hout, rfl, List.Subset.refl _⟩⟩

theorem seats_removeStep :
    (places (removeStep flow spot.item.head.id).steps).map Place.seat =
      ((places flow.steps).filter (isOutside spot.item.head.id)).map fun place =>
        (towards (idsWithin spot.item) (continuationOf (spot.mapParent lastId) (idsWithin spot.item)) place.head,
          place.trail) := by
  have hmapped := @places_mapSteps
    (towards (idsWithin spot.item) (continuationOf (spot.mapParent lastId) (idsWithin spot.item))) id
    (fun _ => rfl) (fun head => kind_retargeted head _) (without spot.item.head.id flow.steps)
  have hseats := @seats_without spot.item.head.id [] List.not_mem_nil flow.steps
  rw [removeStep_eq hnamed hspot, hmapped, List.map_map]
  have hseat : (Place.seat ∘ Place.mapped
      (towards (idsWithin spot.item) (continuationOf (spot.mapParent lastId) (idsWithin spot.item))) id) =
        (fun seat : StepHead × List String =>
          (towards (idsWithin spot.item) (continuationOf (spot.mapParent lastId) (idsWithin spot.item)) seat.1, seat.2)) ∘
            Place.seat := by
    funext place
    simp [Place.seat, Place.mapped]
  rw [hseat, ← List.map_map, places, hseats, List.map_map]
  rfl

theorem place_of_removed {place : Place} (h : place ∈ places (removeStep flow spot.item.head.id).steps) :
    ∃ old ∈ places flow.steps, isOutside spot.item.head.id old = true ∧ place.trail = old.trail ∧
      place.head = towards (idsWithin spot.item) (continuationOf (spot.mapParent lastId) (idsWithin spot.item)) old.head := by
  have hmem : place.seat ∈ (places (removeStep flow spot.item.head.id).steps).map Place.seat := List.mem_map_of_mem h
  rw [seats_removeStep hnamed hspot] at hmem
  obtain ⟨old, hold, heq⟩ := List.mem_map.1 hmem
  obtain ⟨hin, hout⟩ := List.mem_filter.1 hold
  exact ⟨old, hin, hout, (congrArg Prod.snd heq).symm, (congrArg Prod.fst heq).symm⟩

theorem removed_of_place {old : Place} (h : old ∈ places flow.steps) (hout : isOutside spot.item.head.id old = true) :
    ∃ place ∈ places (removeStep flow spot.item.head.id).steps, place.head.id = old.head.id ∧ place.trail = old.trail := by
  have hmem : (towards (idsWithin spot.item) (continuationOf (spot.mapParent lastId) (idsWithin spot.item)) old.head,
      old.trail) ∈ (places (removeStep flow spot.item.head.id).steps).map Place.seat := by
    rw [seats_removeStep hnamed hspot]
    exact List.mem_map_of_mem (List.mem_filter.2 ⟨h, hout⟩)
  obtain ⟨place, hplace, heq⟩ := List.mem_map.1 hmem
  exact ⟨place, hplace, congrArg (fun seat => seat.1.id) heq, congrArg Prod.snd heq⟩

theorem named_removeStep : Named (removeStep flow spot.item.head.id).steps := by
  have hids : allStepIds (removeStep flow spot.item.head.id).steps =
      ((places flow.steps).filter (isOutside spot.item.head.id)).map fun place => place.head.id := by
    have h := congrArg (List.map fun seat : StepHead × List String => seat.1.id) (seats_removeStep hnamed hspot)
    rw [List.map_map, List.map_map] at h
    rw [allStepIds_eq_places]
    exact h
  have hsub : (allStepIds (removeStep flow spot.item.head.id).steps).Sublist (allStepIds flow.steps) := by
    rw [hids, allStepIds_eq_places]
    exact List.filter_sublist.map _
  exact ⟨hnamed.nodup.sublist hsub, fun id hid => hnamed.ne_empty id (hsub.subset hid)⟩

end Result

/-! ## Removing keeps the targets -/

/-- The ids that `removeStep` takes away. -/
def removedBy (flow : Flow) (id : String) : List String :=
  match (indexSteps flow.steps).read id with
  | some entry => idsWithin entry.item
  | none => []

def StepHead.untargeted (head : StepHead) : StepHead :=
  head.retargeted fun _ => ""

/-- What stays of a step whatever its targets become: its other fields and the
step around it. -/
def keptOf (entry : Entry) : StepHead × String :=
  (entry.item.head.untargeted, entry.parent)

def Targeted (lib : Library) (steps : List Step) : Prop :=
  ∀ entry ∈ walkSteps steps "", targetProblems lib (indexSteps steps) entry.item = []

instance (lib : Library) (steps : List Step) : Decidable (Targeted lib steps) :=
  inferInstanceAs (Decidable (∀ entry ∈ walkSteps steps "", targetProblems lib (indexSteps steps) entry.item = []))

theorem targeted_iff {lib : Library} {steps : List Step} (hnamed : Named steps) :
    Targeted lib steps ↔ ∀ place ∈ places steps, ∀ route ∈ place.targets, CanReach (places steps) place route.2 := by
  unfold Targeted
  rw [walkSteps_eq, ← map_placeOf_trailWalk]
  simp only [List.forall_mem_map]
  constructor
  · intro h spot hspot
    rw [map_placeOf_trailWalk]
    exact (hnamed.targetProblems_eq_nil_iff lib (place_mem_of_spot hspot) rfl).1 (h spot hspot)
  · intro h spot hspot
    rw [map_placeOf_trailWalk] at h
    exact (hnamed.targetProblems_eq_nil_iff lib (place_mem_of_spot hspot) rfl).2 (h spot hspot)

section Removing

variable {flow : Flow} (hnamed : Named flow.steps) (hend : endTarget ∉ allStepIds flow.steps) {lib : Library}
  (htargeted : Targeted lib flow.steps) {spot : Outline.Spot StepHead (List String)}
  (hspot : spot ∈ trailWalk flow.steps)

include hnamed hend htargeted hspot

/-- Each target that is left can be reached and was not removed. -/
theorem target_removeStep {place : Place} (hplace : place ∈ places (removeStep flow spot.item.head.id).steps)
    {route : TargetField × String} (hroute : route ∈ place.targets) :
    CanReach (places (removeStep flow spot.item.head.id).steps) place route.2 ∧ route.2 ∉ idsWithin spot.item := by
  obtain ⟨old, hold, hout, htrail, hhead⟩ := place_of_removed hnamed hspot hplace
  have hproblems : targetProblems lib (indexSteps flow.steps) spot.item = [] := by
    apply htargeted (spot.mapParent lastId)
    rw [walkSteps_eq]
    exact List.mem_map_of_mem hspot
  have hspec := continuation_spec hnamed hspot hproblems hend
  have hkeeps : ∀ goal ∈ places flow.steps, isOutside spot.item.head.id goal = true → goal.trail ⊆ old.trail →
      CanReach (places (removeStep flow spot.item.head.id).steps) place goal.head.id := by
    intro goal hgoal hgoalOut hsub
    obtain ⟨found, hfound, hid, hfoundTrail⟩ := removed_of_place hnamed hspot hgoal hgoalOut
    refine .inr ⟨found, hfound, hid, ?_⟩
    rw [hfoundTrail, htrail]
    exact hsub
  have hchanged : route ∈ Place.targets ⟨place.head, old.inner, old.trail⟩ := hroute
  rw [hhead] at hchanged
  obtain ⟨hne, before, hbefore, heq⟩ := @mem_targets_retargeted old
    (fun target => if target ∈ idsWithin spot.item then
      continuationOf (spot.mapParent lastId) (idsWithin spot.item) else target)
    (if_neg (empty_notMem_idsWithin hnamed hspot)) route hchanged
  have hreach := (targeted_iff hnamed).1 htargeted old hold before hbefore
  have hsecond := congrArg Prod.snd heq
  change route.2 = if before.2 ∈ idsWithin spot.item then _ else before.2 at hsecond
  by_cases hremoved : before.2 ∈ idsWithin spot.item
  · rw [if_pos hremoved] at hsecond
    rw [hsecond] at hne ⊢
    obtain ⟨hnotRemoved, hwhere⟩ := hspec.resolve_left hne
    refine ⟨?_, hnotRemoved⟩
    rcases hwhere with hstop | ⟨goal, hgoal, hgoalOut, hid, hsub⟩
    · exact .inl hstop
    · -- Only the removed step itself could be jumped to from outside.
      have haround : spot.parent ⊆ old.trail := by
        rcases hreach with hstop | ⟨target, htarget, htargetId, htargetSub⟩
        · rw [hstop] at hremoved
          obtain ⟨other, hother, hotherId⟩ := exists_place_of_idsWithin hspot hremoved
          rw [allStepIds_eq_places, ← hotherId] at hend
          exact absurd (List.mem_map_of_mem hother) hend
        · rw [← htargetId, mem_idsWithin_iff hnamed hspot htarget, isOutside, decide_eq_false_iff_not, not_and_or,
            not_not, not_not] at hremoved
          rcases hremoved with hself | hin
          · have hsame := hnamed.place_unique htarget (place_mem_of_spot hspot) hself
            rw [hsame] at htargetSub
            exact htargetSub
          · exact absurd (htargetSub hin) (of_decide_eq_true hout).2
      rw [← hid]
      exact hkeeps goal hgoal hgoalOut (List.Subset.trans hsub haround)
  · rw [if_neg hremoved] at hsecond
    rw [hsecond]
    refine ⟨?_, hremoved⟩
    rcases hreach with hstop | ⟨goal, hgoal, hid, hsub⟩
    · exact .inl hstop
    · rw [← hid]
      exact hkeeps goal hgoal ((notMem_idsWithin_iff hnamed hspot hgoal).1 (hid ▸ hremoved)) hsub

omit hend htargeted in
theorem kept_removeStep :
    (walkSteps (removeStep flow spot.item.head.id).steps "").map keptOf =
      ((walkSteps flow.steps "").filter fun entry => entry.item.head.id ∉ idsWithin spot.item).map keptOf := by
  have hkept : ∀ steps : List Step, (walkSteps steps "").map keptOf =
      ((places steps).map Place.seat).map fun seat => (seat.1.untargeted, lastId seat.2) := by
    intro steps
    rw [walkSteps_eq, ← map_placeOf_trailWalk, List.map_map, List.map_map, List.map_map]
    rfl
  rw [hkept, seats_removeStep hnamed hspot, List.map_map, walkSteps_eq, List.filter_map, List.map_map,
    ← map_placeOf_trailWalk, List.filter_map, List.map_map]
  have hfilter : (trailWalk flow.steps).filter ((isOutside spot.item.head.id) ∘ placeOf) =
      (trailWalk flow.steps).filter
        ((fun entry : Entry => decide (entry.item.head.id ∉ idsWithin spot.item)) ∘ Outline.Spot.mapParent lastId) := by
    apply List.filter_congr
    intro other hother
    have hiff := notMem_idsWithin_iff hnamed hspot (place_mem_of_spot hother)
    exact Bool.eq_iff_iff.2 (hiff.symm.trans (decide_eq_true_iff (p := other.item.head.id ∉ idsWithin spot.item)).symm)
  rw [hfilter]
  apply List.map_congr_left
  intro other _
  exact congrArg (fun head => (head, lastId other.parent)) (retargeted_retargeted other.item.head _ _)

end Removing

/-- Removing a step from a normal flow without target problems makes none,
leaves no target to what was removed, and keeps all other steps in order with
everything but their targets. -/
theorem removeStep_keeps_targets (lib : Library) (numerals : Js.Numerals) (raw : Js.Json) (id : String)
    (h : Targeted lib (normalizeFlow numerals raw).steps) :
    let flow := normalizeFlow numerals raw
    let result := removeStep flow id
    Targeted lib result.steps ∧
      (∀ entry ∈ walkSteps result.steps "", ∀ route ∈ targetsOf entry.item, route.2 ∉ removedBy flow id) ∧
        (walkSteps result.steps "").map keptOf =
            ((walkSteps flow.steps "").filter fun entry => entry.item.head.id ∉ removedBy flow id).map keptOf ∧
          { result with steps := [] } = { flow with steps := [] } := by
  intro flow result
  have hnamed := named_normalizeFlow numerals raw
  have hend : endTarget ∉ allStepIds flow.steps :=
    fun hmem => (plainId_of_mem_allStepIds numerals hmem).ne_end rfl
  cases hread : (indexSteps flow.steps).read id with
  | none =>
    have hresult : result = flow := by
      change removeStep flow id = flow
      unfold removeStep
      rw [hread]
    have hremoved : removedBy flow id = [] := by
      unfold removedBy
      rw [hread]
    rw [hresult, hremoved]
    refine ⟨h, fun _ _ _ _ => List.not_mem_nil, ?_, rfl⟩
    rw [List.filter_eq_self.2 fun _ _ => decide_eq_true List.not_mem_nil]
  | some entry =>
    obtain ⟨spot, hspot, rfl, rfl⟩ := hnamed.exists_spot_of_read hread
    have hremoved : removedBy flow spot.item.head.id = idsWithin spot.item := by
      unfold removedBy
      rw [hread]
      rfl
    rw [hremoved]
    refine ⟨?_, ?_, kept_removeStep hnamed hspot, ?_⟩
    · apply (targeted_iff (named_removeStep hnamed hspot)).2
      intro place hplace route hroute
      exact (target_removeStep hnamed hend h hspot hplace hroute).1
    · intro found hfound route hroute
      rw [walkSteps_eq] at hfound
      obtain ⟨other, hother, rfl⟩ := List.mem_map.1 hfound
      have htarget : route ∈ (placeOf other).targets := by
        have hsame : targetsOf (.node (placeOf other).head []) = targetsOf other.item := targetsOf_congr rfl
        unfold Place.targets
        rw [hsame]
        exact hroute
      exact (target_removeStep hnamed hend h hspot (place_mem_of_spot hother) htarget).2
    · change ({ removeStep flow spot.item.head.id with steps := [] } : Flow) = _
      rw [removeStep_eq hnamed hspot]

/-- A step in a loop jumps to the next step of the loop. -/
def jumpFlow : Js.Json :=
  .obj [("id", .str "f"), ("steps", .arr [.obj [("id", .str "each"), ("kind", .str "forEach"),
    ("steps", .arr [.obj [("id", .str "first"), ("next", .str "second")], .obj [("id", .str "second")]])]])]

theorem jump_leads_on :
    Targeted plainLibrary (removeStep (normalizeFlow plainLibrary.numerals jumpFlow) "second").steps :=
  (removeStep_keeps_targets plainLibrary plainLibrary.numerals jumpFlow "second" (by decide +kernel)).1

end Gostman.Flows
