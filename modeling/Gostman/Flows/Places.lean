import Gostman.Flows.Editing
import Gostman.Flows.Index
import Gostman.Flows.Validate
/-!
# The places of the steps

What the index of a flow tells about ids depends on the heads of the steps and
on the ids of the steps around them only.  An edit of a flow is described by
what it does to the list of these places.
-/

namespace Gostman.Flows

open Gostman.Lib

/-- A step without the steps inside it, and where it stands. -/
structure Place where
  head : StepHead
  inner : Nat
  trail : List String

mutual

/-- The places of a list of steps below `trail`, in the order of the walk. -/
def placesBelow (trail : List String) : List Step → List Place
  | [] => []
  | step :: rest => placesOfStep trail step ++ placesBelow trail rest

def placesOfStep (trail : List String) : Step → List Place
  | .node head inner =>
      ⟨head, inner.length, trail⟩ :: if opensInner head then placesBelow (trail ++ [head.id]) inner else []

end

def places (steps : List Step) : List Place :=
  placesBelow [] steps

def placeOf (spot : Outline.Spot StepHead (List String)) : Place :=
  ⟨spot.item.head, spot.item.inner.length, spot.parent⟩

mutual

private theorem map_placeOf_walkFrom (list : List Step) (trail : List String) :
    ∀ (position : Nat) (rest : List Step),
      (Outline.walkFrom opensInner (Outline.trail StepHead.id) list trail position rest).map placeOf =
        placesBelow trail rest
  | _, [] => rfl
  | position, step :: rest => by
      rw [Outline.walkFrom, List.map_cons, List.map_append, map_placeOf_walkFrom list trail (position + 1) rest,
        map_placeOf_walkInner trail step, placesBelow]
      cases step with
      | node head inner => rfl

private theorem map_placeOf_walkInner (trail : List String) : ∀ step : Step,
    (Outline.walkInner opensInner (Outline.trail StepHead.id) trail step).map placeOf = (placesOfStep trail step).tail
  | .node head inner => by
      rw [Outline.walkInner, placesOfStep, List.tail_cons]
      split_ifs with hopen
      · exact map_placeOf_walkFrom inner (trail ++ [head.id]) 0 inner
      · rfl

end

theorem map_placeOf_walk (steps : List Step) (trail : List String) :
    (Outline.walk opensInner (Outline.trail StepHead.id) steps trail).map placeOf = placesBelow trail steps :=
  map_placeOf_walkFrom steps trail 0 steps

theorem map_placeOf_trailWalk (steps : List Step) : (trailWalk steps).map placeOf = places steps :=
  map_placeOf_walk steps []

theorem placesBelow_append (trail : List String) (first second : List Step) :
    placesBelow trail (first ++ second) = placesBelow trail first ++ placesBelow trail second := by
  induction first with
  | nil => rfl
  | cons step rest ih => rw [List.cons_append, placesBelow, placesBelow, ih, List.append_assoc]

theorem allStepIds_eq_places (steps : List Step) : allStepIds steps = (places steps).map fun place => place.head.id := by
  rw [← map_placeOf_trailWalk, List.map_map, allStepIds, walkSteps_eq, List.map_map]
  rfl

theorem trail_prefix_of_mem {trail : List String} {steps : List Step} {place : Place}
    (h : place ∈ placesBelow trail steps) : trail <+: place.trail := by
  have hall : ∀ (list : List Step) (spot : Outline.Spot StepHead (List String)),
      Outline.Located opensInner (Outline.trail StepHead.id) list trail spot → trail <+: spot.parent := by
    intro list spot hspot
    induction hspot with
    | root hitem => exact List.prefix_refl trail
    | inner hspot hitem ih => exact ih.trans (List.prefix_append _ _)
  rw [← map_placeOf_walk] at h
  obtain ⟨spot, hspot, rfl⟩ := List.mem_map.1 h
  exact hall steps spot (Outline.mem_walk_iff.1 hspot)

/-! ## What the index tells -/

theorem exists_spot_of_place {steps : List Step} {place : Place} (h : place ∈ places steps) :
    ∃ spot ∈ trailWalk steps, placeOf spot = place := by
  rw [← map_placeOf_trailWalk] at h
  exact List.mem_map.1 h

theorem place_mem_of_spot {steps : List Step} {spot : Outline.Spot StepHead (List String)} (h : spot ∈ trailWalk steps) :
    placeOf spot ∈ places steps := by
  rw [← map_placeOf_trailWalk]
  exact List.mem_map_of_mem h

namespace Named

variable {steps : List Step} (hnamed : Named steps)

include hnamed

theorem place_unique {first second : Place} (hfirst : first ∈ places steps) (hsecond : second ∈ places steps)
    (h : first.head.id = second.head.id) : first = second := by
  obtain ⟨spot, hspot, rfl⟩ := exists_spot_of_place hfirst
  obtain ⟨other, hother, rfl⟩ := exists_spot_of_place hsecond
  rw [hnamed.spot_unique hspot hother h]

theorem loopsAround_of_place {place : Place} (h : place ∈ places steps) :
    loopsAround (indexSteps steps) place.head.id = place.trail := by
  obtain ⟨spot, hspot, rfl⟩ := exists_spot_of_place h
  exact hnamed.loopsAround_of_located hspot

theorem read_of_place {place : Place} (h : place ∈ places steps) :
    ∃ entry, (indexSteps steps).read place.head.id = some entry ∧ entry.item.head = place.head ∧
      entry.parent = lastId place.trail := by
  obtain ⟨spot, hspot, rfl⟩ := exists_spot_of_place h
  exact ⟨spot.mapParent lastId, hnamed.read_of_located hspot, rfl, rfl⟩

/-- The ids of the index are those of the places. -/
theorem has_iff (id : String) :
    (indexSteps steps).has id = true ↔ ∃ place ∈ places steps, place.head.id = id := by
  unfold Record.has
  rw [Option.isSome_iff_exists]
  constructor
  · rintro ⟨entry, hentry⟩
    obtain ⟨spot, hspot, -, hid⟩ := hnamed.exists_spot_of_read hentry
    exact ⟨placeOf spot, place_mem_of_spot hspot, hid⟩
  · rintro ⟨place, hplace, rfl⟩
    obtain ⟨entry, hentry, -⟩ := hnamed.read_of_place hplace
    exact ⟨entry, hentry⟩

end Named

section Kinds

variable {steps : List Step} (hnamed : Named steps)

include hnamed

theorem Named.isRequestStep_iff (id : String) :
    isRequestStep (indexSteps steps) id = true ↔ ∃ place ∈ places steps, place.head.id = id ∧ place.head.kind = .request := by
  unfold isRequestStep
  constructor
  · intro h
    cases hread : (indexSteps steps).read id with
    | none =>
      rw [hread] at h
      cases h
    | some entry =>
      rw [hread] at h
      obtain ⟨spot, hspot, rfl, hid⟩ := hnamed.exists_spot_of_read hread
      exact ⟨placeOf spot, place_mem_of_spot hspot, hid, of_decide_eq_true h⟩
  · rintro ⟨place, hplace, rfl, hkind⟩
    obtain ⟨entry, hread, hhead, -⟩ := hnamed.read_of_place hplace
    rw [hread]
    simp only
    rw [hhead]
    exact decide_eq_true hkind

theorem Named.parentOf_of_place {place : Place} (h : place ∈ places steps) :
    parentOf (indexSteps steps) place.head.id = lastId place.trail := by
  obtain ⟨entry, hread, -, hparent⟩ := hnamed.read_of_place h
  unfold parentOf
  rw [hread]
  exact hparent

theorem Named.isBranch_iff {place : Place} (h : place ∈ places steps) :
    isBranch (indexSteps steps) place.head.id = true ↔
      ∃ outer ∈ places steps, outer.head.id = lastId place.trail ∧ outer.head.kind = .parallel := by
  unfold isBranch
  rw [hnamed.parentOf_of_place h]
  constructor
  · intro hbranch
    cases hread : (indexSteps steps).read (lastId place.trail) with
    | none =>
      rw [hread] at hbranch
      cases hbranch
    | some entry =>
      rw [hread] at hbranch
      obtain ⟨spot, hspot, rfl, hid⟩ := hnamed.exists_spot_of_read hread
      exact ⟨placeOf spot, place_mem_of_spot hspot, hid, of_decide_eq_true hbranch⟩
  · rintro ⟨outer, houter, hid, hkind⟩
    obtain ⟨entry, hread, hhead, -⟩ := hnamed.read_of_place houter
    rw [← hid, hread]
    simp only
    rw [hhead]
    exact decide_eq_true hkind

theorem Named.isSibling_iff {first second : Place} (hfirst : first ∈ places steps) (hsecond : second ∈ places steps) :
    isSibling (indexSteps steps) first.head.id second.head.id = true ↔
      isBranch (indexSteps steps) first.head.id = true ∧ lastId first.trail = lastId second.trail := by
  obtain ⟨entry, hread, -, hparent⟩ := hnamed.read_of_place hfirst
  obtain ⟨other, hother, -, hotherParent⟩ := hnamed.read_of_place hsecond
  unfold isSibling
  rw [Bool.and_eq_true, hread, hother, Option.map_some, Option.map_some, hparent, hotherParent, decide_eq_true_iff,
    Option.some_inj]

end Kinds

/-! ## Which step comes first -/

theorem pair_sublist_of_runsBefore {order : List String} {first second : String} (hmem : first ∈ order)
    (h : runsBefore order first second = true) : [first, second].Sublist order := by
  induction order with
  | nil => exact absurd hmem List.not_mem_nil
  | cons head rest ih =>
    unfold runsBefore at h
    simp only [List.findIdx?_cons] at h
    by_cases hfirst : head = first
    · subst hfirst
      apply List.Sublist.cons_cons
      rw [List.singleton_sublist]
      by_contra hnot
      have hnone : rest.findIdx? (fun id => decide (id = second)) = none := by
        rw [List.findIdx?_eq_none_iff]
        intro id hid
        apply decide_eq_false
        rintro rfl
        exact hnot hid
      by_cases hsecond : head = second <;> simp [hsecond, hnone] at h
    · have hin : first ∈ rest := by
        rcases List.mem_cons.1 hmem with heq | hin
        · exact absurd heq.symm hfirst
        · exact hin
      apply List.Sublist.cons
      apply ih hin
      unfold runsBefore
      obtain ⟨position, hposition⟩ := Option.ne_none_iff_exists'.1 (fun hnone : rest.findIdx? (fun id => decide (id = first)) = none =>
        of_decide_eq_false (List.findIdx?_eq_none_iff.1 hnone first hin) rfl)
      simp only [hfirst, decide_false, hposition] at h ⊢
      cases hfound : rest.findIdx? (fun id => decide (id = second)) with
      | none => by_cases hsecond : head = second <;> simp [hfound, hsecond] at h <;> omega
      | some other => by_cases hsecond : head = second <;> simp [hfound, hsecond] at h ⊢ <;> omega

theorem runsBefore_of_pair_sublist {order : List String} {first second : String} (hnodup : order.Nodup)
    (h : [first, second].Sublist order) : runsBefore order first second = true := by
  induction order with
  | nil => cases h
  | cons head rest ih =>
    obtain ⟨hhead, hrest⟩ := List.nodup_cons.1 hnodup
    unfold runsBefore
    simp only [List.findIdx?_cons]
    cases h with
    | cons _ hsub =>
      have hfirst : ¬head = first := fun heq => hhead (heq ▸ hsub.subset List.mem_cons_self)
      have hsecond : ¬head = second := fun heq => hhead (heq ▸ hsub.subset (List.mem_cons_of_mem _ List.mem_cons_self))
      have hbefore := ih hrest hsub
      unfold runsBefore at hbefore
      simp only [decide_eq_true_eq] at hbefore
      simp only [hfirst, hsecond, decide_false, Bool.false_eq_true, if_false, decide_eq_true_eq]
      cases hone : rest.findIdx? (fun id => decide (id = first)) with
      | none =>
        cases htwo : rest.findIdx? (fun id => decide (id = second)) with
        | none => simp [hone, htwo] at hbefore
        | some later =>
          have hlater : (-1 : Int) < ((later + 1 : Nat) : Int) := by omega
          exact hlater
      | some position =>
        cases htwo : rest.findIdx? (fun id => decide (id = second)) <;> simp [hone, htwo] at hbefore ⊢ <;> omega
    | cons_cons _ hsub =>
      have hin : second ∈ rest := List.singleton_sublist.1 hsub
      have hsecond : ¬first = second := fun heq => hhead (heq ▸ hin)
      cases hfound : rest.findIdx? (fun id => decide (id = second)) with
      | none => exact absurd (of_decide_eq_false (List.findIdx?_eq_none_iff.1 hfound second hin) rfl) (fun h => h)
      | some position =>
        simp [hsecond]

/-! ## Targets -/

/-- A target that a step may lead to: the end, or a step that lies in no loop
but those around it. -/
def CanReach (all : List Place) (place : Place) (target : String) : Prop :=
  target = endTarget ∨ ∃ goal ∈ all, goal.head.id = target ∧ goal.trail ⊆ place.trail

theorem routesOf_congr {first second : Step} (h : first.head = second.head) : routesOf first = routesOf second := by
  unfold routesOf caseTargets fieldTargets
  rw [h]

theorem targetsOf_congr {first second : Step} (h : first.head = second.head) : targetsOf first = targetsOf second := by
  unfold targetsOf
  rw [routesOf_congr h]

def Place.targets (place : Place) : List (TargetField × String) :=
  targetsOf (.node place.head [])

theorem Named.targetProblem_eq_nil_iff {steps : List Step} (hnamed : Named steps) (lib : Library) {step : Step}
    {place : Place} (hplace : place ∈ places steps) (hhead : step.head = place.head) (route : TargetField × String) :
    targetProblem lib (indexSteps steps) step route = [] ↔ CanReach (places steps) place route.2 := by
  unfold targetProblem CanReach
  simp only
  rw [hhead, hnamed.loopsAround_of_place hplace]
  by_cases hend : route.2 = endTarget
  · rw [if_pos hend]
    exact ⟨fun _ => .inl hend, fun _ => rfl⟩
  · rw [if_neg hend]
    by_cases hhas : (indexSteps steps).has route.2 = true
    · obtain ⟨goal, hgoal, hid⟩ := (hnamed.has_iff _).1 hhas
      have hloops := hnamed.loopsAround_of_place hgoal
      rw [hid] at hloops
      rw [hhas, Bool.not_true, if_neg nofun, hloops]
      constructor
      · intro h
        right
        refine ⟨goal, hgoal, hid, ?_⟩
        by_contra hnot
        have hall : ¬(goal.trail.all fun loop => decide (loop ∈ place.trail)) = true := by
          intro hall
          apply hnot
          intro loop hloop
          exact of_decide_eq_true (List.all_eq_true.1 hall loop hloop)
        rw [if_neg hall] at h
        split_ifs at h
      · rintro (h | ⟨other, hother, hotherId, hsub⟩)
        · exact absurd h hend
        · rw [hnamed.place_unique hgoal hother (hid.trans hotherId.symm), if_pos]
          apply List.all_eq_true.2
          intro loop hloop
          exact decide_eq_true (hsub hloop)
    · rw [Bool.not_eq_true] at hhas
      rw [hhas, Bool.not_false, if_pos rfl]
      constructor
      · intro h
        cases h
      · rintro (h | ⟨goal, hgoal, hid, -⟩)
        · exact absurd h hend
        · rw [(hnamed.has_iff _).2 ⟨goal, hgoal, hid⟩] at hhas
          cases hhas

/-- A step has no target problem when each of its targets can be reached. -/
theorem Named.targetProblems_eq_nil_iff {steps : List Step} (hnamed : Named steps) (lib : Library) {step : Step}
    {place : Place} (hplace : place ∈ places steps) (hhead : step.head = place.head) :
    targetProblems lib (indexSteps steps) step = [] ↔
      ∀ route ∈ place.targets, CanReach (places steps) place route.2 := by
  unfold targetProblems Place.targets
  have hsame : targetsOf step = targetsOf (.node place.head []) := targetsOf_congr hhead
  rw [List.flatMap_eq_nil_iff, hsame]
  constructor
  · intro h route hroute
    exact (hnamed.targetProblem_eq_nil_iff lib hplace hhead route).1 (h route hroute)
  · intro h route hroute
    exact (hnamed.targetProblem_eq_nil_iff lib hplace hhead route).2 (h route hroute)

/-! ## Changing the targets -/

theorem kind_retargeted (head : StepHead) (change : String → String) : (head.retargeted change).kind = head.kind := by
  unfold StepHead.retargeted StepHead.kind
  cases head.fields <;> rfl

theorem routesOf_retargeted (head : StepHead) (change : String → String) (inner : List Step) :
    routesOf (.node (head.retargeted change) inner) =
      (routesOf (.node head inner)).map fun route => (route.1, change route.2) := by
  unfold routesOf caseTargets fieldTargets StepHead.retargeted
  cases hfields : head.fields with
  | switch fields =>
    simp only [Outline.head_node, hfields, Fields.retargeted, Fields.onFailure?, Fields.thenTo?, Fields.elseTo?]
    rw [List.map_append]
    refine congrArg₂ (· ++ ·) ?_ rfl
    apply List.ext_getElem?
    intro position
    rw [List.getElem?_mapIdx, List.getElem?_map, List.getElem?_map, List.getElem?_mapIdx, Option.map_map, Option.map_map]
    rfl
  | _ => simp only [Outline.head_node, hfields, Fields.retargeted, Fields.onFailure?, Fields.thenTo?, Fields.elseTo?]; rfl

/-- A target of a changed step is the change of one, where none is made. -/
theorem mem_targets_retargeted {place : Place} {change : String → String} (hempty : change "" = "")
    {route : TargetField × String} (h : route ∈ Place.targets { place with head := place.head.retargeted change }) :
    route.2 ≠ "" ∧ ∃ old ∈ place.targets, route = (old.1, change old.2) := by
  unfold Place.targets targetsOf at h ⊢
  obtain ⟨hmem, hne⟩ := List.mem_filter.1 h
  rw [routesOf_retargeted] at hmem
  obtain ⟨old, hold, rfl⟩ := List.mem_map.1 hmem
  have hroute := of_decide_eq_true hne
  refine ⟨hroute, old, List.mem_filter.2 ⟨hold, decide_eq_true ?_⟩, rfl⟩
  intro heq
  rw [heq] at hroute
  exact hroute hempty

/-! ## Changing every step -/

theorem length_mapSteps (change : StepHead → StepHead) (steps : List Step) :
    (mapSteps change steps).length = steps.length := by
  induction steps with
  | nil => rfl
  | cons step rest ih => rw [mapSteps, List.length_cons, List.length_cons, ih]

section Mapped

variable {change : StepHead → StepHead} {rename : String → String}

def Place.mapped (change : StepHead → StepHead) (rename : String → String) (place : Place) : Place :=
  ⟨change place.head, place.inner, place.trail.map rename⟩

variable (hid : ∀ head, (change head).id = rename head.id) (hkind : ∀ head, (change head).kind = head.kind)

include hid hkind

mutual

theorem placesBelow_mapSteps (trail : List String) : ∀ steps : List Step,
    placesBelow (trail.map rename) (mapSteps change steps) =
      (placesBelow trail steps).map (Place.mapped change rename)
  | [] => rfl
  | step :: rest => by
      rw [mapSteps, placesBelow, placesBelow, List.map_append, placesOfStep_mapStep trail step,
        placesBelow_mapSteps trail rest]

theorem placesOfStep_mapStep (trail : List String) : ∀ step : Step,
    placesOfStep (trail.map rename) (mapStep change step) =
      (placesOfStep trail step).map (Place.mapped change rename)
  | .node head inner => by
      rw [mapStep, placesOfStep, placesOfStep, List.map_cons]
      have hopens : opensInner (change head) = opensInner head := congrArg Kind.isContainer (hkind head)
      rw [hopens]
      unfold opensInner at hopens
      by_cases hopen : opensInner head = true
      · have hcontainer : (change head).kind.isContainer = true := hopens.trans hopen
        rw [if_pos hcontainer, if_pos hopen, if_pos hopen, length_mapSteps, hid]
        have hbelow := placesBelow_mapSteps (trail ++ [head.id]) inner
        rw [List.map_append, List.map_singleton] at hbelow
        rw [hbelow]
        rfl
      · have hcontainer : ¬(change head).kind.isContainer = true := fun h => hopen (hopens.symm.trans h)
        rw [if_neg hcontainer, if_neg hopen, if_neg hopen]
        rfl

end

theorem places_mapSteps (steps : List Step) :
    places (mapSteps change steps) = (places steps).map (Place.mapped change rename) :=
  placesBelow_mapSteps hid hkind [] steps

end Mapped

end Gostman.Flows
