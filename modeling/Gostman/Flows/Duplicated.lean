import Gostman.Flows.Agree
import Gostman.Flows.Removed
/-!
# Copying a step

The copy of a step gets ids of its own and stands behind the step.  Its jumps
and reads stay what they are, so a jump within the step leads from the copy
back into the step.
-/

namespace Gostman.Flows

open Gostman.Lib

/-! ## The copy -/

def withId (rename : String → String) (head : StepHead) : StepHead :=
  { head with id := rename head.id }

mutual

theorem mapSteps_congr {first second : String → String} : ∀ steps : List Step,
    (∀ id ∈ idsOf (stepsOf steps), first id = second id) →
      mapSteps (withId first) steps = mapSteps (withId second) steps
  | [], _ => rfl
  | step :: rest, h => by
      rw [idsOf_cons] at h
      rw [mapSteps, mapSteps, mapSteps_congr rest fun id hid => h id (List.mem_cons_of_mem _ (List.mem_append_right _ hid)),
        mapStep_congr step (h _ List.mem_cons_self) fun id hid => h id (List.mem_cons_of_mem _ (List.mem_append_left _ hid))]

theorem mapStep_congr {first second : String → String} : ∀ step : Step, first step.head.id = second step.head.id →
    (∀ id ∈ idsOf (stepsBelow step), first id = second id) →
      mapStep (withId first) step = mapStep (withId second) step
  | .node head inner, hhead, h => by
      have hsame : withId first head = withId second head := congrArg (fun id => { head with id := id }) hhead
      rw [mapStep, mapStep, hsame]
      by_cases hopen : opensInner head = true
      · rw [stepsBelow_node hopen] at h
        rw [if_pos (show (withId second head).kind.isContainer = true from hopen),
          if_pos (show (withId second head).kind.isContainer = true from hopen), mapSteps_congr inner h]
      · rw [if_neg (show ¬(withId second head).kind.isContainer = true from hopen),
          if_neg (show ¬(withId second head).kind.isContainer = true from hopen)]

end

theorem placesBelow_withId (rename : String → String) (trail : List String) (steps : List Step) :
    placesBelow (trail.map rename) (mapSteps (withId rename) steps) =
      (placesBelow trail steps).map (Place.mapped (withId rename) rename) :=
  @placesBelow_mapSteps (withId rename) rename (fun _ => rfl) (fun _ => rfl) trail steps

/-- What copying steps comes to: they are renamed, by names that are new,
plain and distinct. -/
structure CopiedBy (rename : String → String) (taken : List String) (steps : List Step)
    (result : List Step × List String) : Prop where
  steps_eq : result.1 = mapSteps (withId rename) steps
  after : result.2 = taken ++ (idsOf (stepsOf steps)).map rename
  nodup : taken.Nodup → result.2.Nodup
  plain : ∀ id ∈ idsOf (stepsOf steps), PlainId (rename id)

/-- One renaming up to some names and another one behind. -/
def renameFirst (ids : List String) (first second : String → String) (id : String) : String :=
  if id ∈ ids then first id else second id

theorem map_renameFirst_of_mem {ids others : List String} {first second : String → String}
    (h : ∀ id ∈ others, id ∈ ids) : others.map (renameFirst ids first second) = others.map first := by
  apply List.map_congr_left
  intro id hid
  exact if_pos (h id hid)

theorem map_renameFirst_of_notMem {ids others : List String} {first second : String → String}
    (h : ∀ id ∈ others, id ∉ ids) : others.map (renameFirst ids first second) = others.map second := by
  apply List.map_congr_left
  intro id hid
  exact if_neg (h id hid)

theorem plainId_copy {id : String} (h : PlainId id) (taken : List String) : PlainId (uniqueId id taken) :=
  plainId_uniqueId h.ne_empty h.trim_eq taken

mutual

/-- The ids taken before are carried along, so every copy differs from them. -/
theorem copied_copyEach (taken : List String) : ∀ steps : List Step, (idsOf (stepsOf steps)).Nodup →
    (∀ id ∈ idsOf (stepsOf steps), PlainId id) → ∃ rename, CopiedBy rename taken steps (copyEach taken steps)
  | [], _, _ => ⟨id, rfl, (List.append_nil taken).symm, fun h => h, fun _ h => absurd h List.not_mem_nil⟩
  | step :: rest, hnodup, hplain => by
      rw [idsOf_cons, List.nodup_cons, List.nodup_append] at hnodup
      obtain ⟨hhead, hbelow, hrest, hapart⟩ := hnodup
      rw [idsOf_cons] at hplain
      have hstepNodup : (step.head.id :: idsOf (stepsBelow step)).Nodup :=
        List.nodup_cons.2 ⟨fun hmem => hhead (List.mem_append_left _ hmem), hbelow⟩
      have hstepPlain : ∀ id ∈ step.head.id :: idsOf (stepsBelow step), PlainId id := by
        intro id hid
        rcases List.mem_cons.1 hid with rfl | hmem
        · exact hplain _ List.mem_cons_self
        · exact hplain id (List.mem_cons_of_mem _ (List.mem_append_left _ hmem))
      have hrestPlain : ∀ id ∈ idsOf (stepsOf rest), PlainId id :=
        fun id hid => hplain id (List.mem_cons_of_mem _ (List.mem_append_right _ hid))
      obtain ⟨first, hfirst⟩ := copied_copyWithIds taken step hstepNodup hstepPlain
      obtain ⟨second, hsecond⟩ := copied_copyEach (copyWithIds taken step).2 rest hrest hrestPlain
      have hdisjoint : ∀ id ∈ idsOf (stepsOf rest), id ∉ step.head.id :: idsOf (stepsBelow step) := by
        intro id hid hmem
        rcases List.mem_cons.1 hmem with rfl | hin
        · exact hhead (List.mem_append_right _ hid)
        · exact hapart id hin id hid rfl
      have hsingle : idsOf (stepsOf [step]) = step.head.id :: idsOf (stepsBelow step) := by
        rw [idsOf_cons]
        exact congrArg _ (List.append_nil _)
      have hfirstEq := hfirst.steps_eq
      refine ⟨renameFirst (step.head.id :: idsOf (stepsBelow step)) first second, ?_, ?_, ?_, ?_⟩
      · have hstep : mapStep (withId (renameFirst (step.head.id :: idsOf (stepsBelow step)) first second)) step =
            mapStep (withId first) step :=
          mapStep_congr step (if_pos List.mem_cons_self) fun id hid => if_pos (List.mem_cons_of_mem _ hid)
        have hsteps : mapSteps (withId (renameFirst (step.head.id :: idsOf (stepsBelow step)) first second)) rest =
            mapSteps (withId second) rest :=
          mapSteps_congr rest fun id hid => if_neg (hdisjoint id hid)
        rw [mapSteps, hstep, hsteps, ← hsecond.steps_eq, ← List.head_eq_of_cons_eq hfirstEq]
        rfl
      · have hcopy := hfirst.after
        change (copyWithIds taken step).2 = _ at hcopy
        change (copyEach (copyWithIds taken step).2 rest).2 = _
        rw [hsecond.after, hcopy, hsingle, idsOf_cons, ← List.cons_append, List.map_append,
          map_renameFirst_of_mem fun _ h => h, map_renameFirst_of_notMem hdisjoint, List.append_assoc]
      · intro h
        exact hsecond.nodup (hfirst.nodup h)
      · intro id hid
        rw [idsOf_cons, ← List.cons_append] at hid
        unfold renameFirst
        split_ifs with hmem
        · exact hfirst.plain id (hsingle.symm ▸ hmem)
        · exact hsecond.plain id ((List.mem_append.1 hid).resolve_left hmem)

theorem copied_copyWithIds (taken : List String) : ∀ step : Step, (step.head.id :: idsOf (stepsBelow step)).Nodup →
    (∀ id ∈ step.head.id :: idsOf (stepsBelow step), PlainId id) →
      ∃ rename, CopiedBy rename taken [step] ([(copyWithIds taken step).1], (copyWithIds taken step).2)
  | .node head inner, hnodup, hplain => by
      obtain ⟨hhead, hbelow⟩ := List.nodup_cons.1 hnodup
      have hfresh := uniqueId_notMem head.id taken
      have hid := plainId_copy (hplain _ List.mem_cons_self) taken
      rw [copyWithIds]
      simp only
      by_cases hopen : opensInner head = true
      · rw [stepsBelow_node hopen] at hhead hbelow hplain
        obtain ⟨rename, hrename⟩ := copied_copyEach (taken ++ [uniqueId head.id taken]) inner hbelow
          fun id hin => hplain id (List.mem_cons_of_mem _ hin)
        have hids : idsOf (stepsOf [Outline.node head inner]) = head.id :: idsOf (stepsOf inner) := by
          rw [idsOf_cons, stepsBelow_node hopen]
          exact congrArg _ (List.append_nil _)
        have hinner : ∀ id ∈ idsOf (stepsOf inner), id ∉ [head.id] := by
          intro id hin hmem
          rw [List.mem_singleton.1 hmem] at hin
          exact hhead hin
        rw [if_pos (show head.kind.isContainer = true from hopen)]
        refine ⟨renameFirst [head.id] (fun _ => uniqueId head.id taken) rename, ?_, ?_, ?_, ?_⟩
        · have hsteps : mapSteps (withId (renameFirst [head.id] (fun _ => uniqueId head.id taken) rename)) inner =
              mapSteps (withId rename) inner := mapSteps_congr inner fun id hin => if_neg (hinner id hin)
          rw [mapSteps, mapStep, if_pos (show (withId _ head).kind.isContainer = true from hopen), hsteps,
            ← hrename.steps_eq]
          unfold withId renameFirst
          rw [if_pos List.mem_cons_self]
          rfl
        · rw [hids, List.map_cons, map_renameFirst_of_notMem hinner, hrename.after, List.append_assoc]
          unfold renameFirst
          rw [if_pos List.mem_cons_self]
          rfl
        · intro h
          exact hrename.nodup (nodup_snoc_uniqueId h head.id)
        · intro id hin
          rw [hids] at hin
          unfold renameFirst
          split_ifs with hmem
          · exact hid
          · rcases List.mem_cons.1 hin with rfl | hinside
            · exact absurd List.mem_cons_self hmem
            · exact hrename.plain id hinside
      · have hids : idsOf (stepsOf [Outline.node head inner]) = [head.id] := by
          rw [idsOf_cons, stepsBelow_closed hopen]
          rfl
        rw [if_neg (show ¬head.kind.isContainer = true from hopen)]
        refine ⟨fun _ => uniqueId head.id taken, ?_, ?_, ?_, ?_⟩
        · rw [mapSteps, mapStep, if_neg (show ¬(withId _ head).kind.isContainer = true from hopen)]
          rfl
        · rw [hids]
          rfl
        · intro h
          exact nodup_snoc_uniqueId h head.id
        · intro id _
          exact hid

end

/-! ## The place of the copy -/

/-- A place with no more than whether there are steps inside. -/
def Place.shape (place : Place) : StepHead × Bool × List String :=
  (place.head, decide (0 < place.inner), place.trail)

def InsertedAfter (old new block copy : List Place) : Prop :=
  ∃ before behind, old = before ++ (block ++ behind) ∧
    new.map Place.shape = (before ++ (block ++ (copy ++ behind))).map Place.shape

theorem InsertedAfter.append {old new block copy : List Place} (h : InsertedAfter old new block copy)
    (first last : List Place) : InsertedAfter (first ++ (old ++ last)) (first ++ (new ++ last)) block copy := by
  obtain ⟨before, behind, rfl, hnew⟩ := h
  refine ⟨first ++ before, behind ++ last, by simp only [List.append_assoc], ?_⟩
  rw [List.map_append, List.map_append, hnew, ← List.map_append, ← List.map_append]
  simp only [List.append_assoc]

theorem insertedAfter_insertInto {list : List Step} {position : Nat} {step : Step} (h : list[position]? = some step)
    (copy : Step) (trail : List String) :
    InsertedAfter (placesBelow trail list) (placesBelow trail (insertInto list (position + 1) copy))
      (placesOfStep trail step) (placesOfStep trail copy) := by
  obtain ⟨hlt, hget⟩ := List.getElem?_eq_some_iff.1 h
  have htake : list.take (position + 1) = list.take position ++ [step] := by
    rw [List.take_add_one, h]
    rfl
  have hsplit : list = list.take position ++ step :: list.drop (position + 1) := by
    rw [← hget, List.getElem_cons_drop, List.take_append_drop]
  refine ⟨placesBelow trail (list.take position), placesBelow trail (list.drop (position + 1)), ?_, ?_⟩
  · conv_lhs => rw [hsplit]
    rw [placesBelow_append, placesBelow]
  · unfold insertInto
    rw [htake, List.append_assoc, List.singleton_append, placesBelow_append, placesBelow, placesBelow]

theorem insertInto_length (list : List Step) (position : Nat) (copy : Step) :
    (insertInto list position copy).length = list.length + 1 := by
  unfold insertInto
  rw [List.length_append, List.length_cons, List.length_take, List.length_drop]
  omega

theorem length_changeSteps (parent : String) (change : List Step → List Step) (steps : List Step) :
    (changeSteps parent change steps).length = steps.length := by
  induction steps with
  | nil => rfl
  | cons step rest ih => rw [changeSteps, List.length_cons, List.length_cons, ih]

section Nested

variable {outer step : Step} {position : Nat} (hopen : opensInner outer.head = true)
  (hstep : outer.inner[position]? = some step) (copy : Step)

include hopen hstep

mutual

theorem insertedAfter_changeSteps (trail : List String) : ∀ steps : List Step, (idsOf (stepsOf steps)).Nodup →
    outer ∈ stepsOf steps → ∃ below, InsertedAfter (placesBelow trail steps)
      (placesBelow trail (changeSteps outer.head.id (fun list => insertInto list (position + 1) copy) steps))
        (placesOfStep below step) (placesOfStep below copy)
  | [], _, h => absurd h List.not_mem_nil
  | first :: rest, hnodup, h => by
      rw [idsOf_cons, List.nodup_cons, List.nodup_append] at hnodup
      obtain ⟨hhead, hbelow, hrest, hapart⟩ := hnodup
      rw [List.mem_append, not_or] at hhead
      rw [stepsOf_cons] at h
      rw [changeSteps, placesBelow, placesBelow]
      by_cases hin : outer ∈ stepsOf rest
      · have hid : outer.head.id ∈ idsOf (stepsOf rest) := List.mem_map_of_mem hin
        have hfirst : first.head.id ≠ outer.head.id := fun heq => hhead.2 (heq ▸ hid)
        obtain ⟨below, hinserted⟩ := insertedAfter_changeSteps trail rest hrest hin
        rw [changeStep_of_notMem first hfirst fun hmem => hapart _ hmem _ hid rfl]
        refine ⟨below, ?_⟩
        have happended := hinserted.append (placesOfStep trail first) []
        rw [List.append_nil, List.append_nil] at happended
        exact happended
      · have hself : outer ∈ first :: stepsBelow first := by
          rcases List.mem_cons.1 h with rfl | hmem
          · exact List.mem_cons_self
          · exact List.mem_cons_of_mem _ ((List.mem_append.1 hmem).resolve_right hin)
        have hid : outer.head.id ∈ idsOf (first :: stepsBelow first) := List.mem_map_of_mem hself
        have hnot : outer.head.id ∉ idsOf (stepsOf rest) := by
          intro hmem
          rcases List.mem_cons.1 hid with heq | hinBelow
          · rw [heq] at hmem
            exact hhead.2 hmem
          · exact hapart _ hinBelow _ hmem rfl
        obtain ⟨below, hinserted⟩ := insertedAfter_changeStep trail first hhead.1 hbelow hself
        rw [changeSteps_of_notMem rest hnot]
        exact ⟨below, hinserted.append [] (placesBelow trail rest)⟩

theorem insertedAfter_changeStep (trail : List String) : ∀ first : Step, first.head.id ∉ idsOf (stepsBelow first) →
    (idsOf (stepsBelow first)).Nodup → outer ∈ first :: stepsBelow first → ∃ below,
      InsertedAfter (placesOfStep trail first)
        (placesOfStep trail (changeStep outer.head.id (fun list => insertInto list (position + 1) copy) first))
          (placesOfStep below step) (placesOfStep below copy)
  | .node head inner, hhead, hnodup, h => by
      rw [changeStep]
      rcases List.mem_cons.1 h with rfl | hmem
      · change inner[position]? = some step at hstep
        change opensInner head = true at hopen
        obtain ⟨before, behind, hold, hnew⟩ := insertedAfter_insertInto hstep copy (trail ++ [head.id])
        have hpos : 0 < inner.length := by
          obtain ⟨hlt, -⟩ := List.getElem?_eq_some_iff.1 hstep
          omega
        refine ⟨trail ++ [head.id], ⟨head, inner.length, trail⟩ :: before, behind, ?_, ?_⟩
        · rw [placesOfStep, if_pos hopen, hold]
          rfl
        · rw [if_pos (show head.id = (Outline.node head inner).head.id from rfl), placesOfStep, if_pos hopen, List.map_cons, hnew]
          have hshape : Place.shape ⟨head, (insertInto inner (position + 1) copy).length, trail⟩ =
              Place.shape ⟨head, inner.length, trail⟩ := by
            unfold Place.shape
            rw [insertInto_length, decide_eq_true hpos, decide_eq_true (Nat.succ_pos _)]
          rw [hshape]
          rfl
      · by_cases hopens : opensInner head = true
        · rw [stepsBelow_node hopens] at hmem hnodup hhead
          have hne : ¬head.id = outer.head.id := by
            intro heq
            exact hhead (heq.symm ▸ List.mem_map_of_mem hmem)
          obtain ⟨below, before, behind, hold, hnew⟩ :=
            insertedAfter_changeSteps (trail ++ [head.id]) inner hnodup hmem
          rw [if_neg hne, if_pos (show head.kind.isContainer = true from hopens)]
          refine ⟨below, ⟨head, inner.length, trail⟩ :: before, behind, ?_, ?_⟩
          · rw [placesOfStep, if_pos hopens, hold]
            rfl
          · rw [placesOfStep, if_pos hopens, List.map_cons, hnew, length_changeSteps]
            rfl
        · rw [stepsBelow_closed hopens] at hmem
          exact absurd hmem List.not_mem_nil

end

end Nested

/-! ## The copy among the places -/

abbrev WalkSpot := Outline.Spot StepHead (List String)

def blockOf (spot : WalkSpot) : List Place :=
  placesOfStep spot.parent spot.item

theorem blockOf_eq (spot : WalkSpot) :
    blockOf spot = placeOf spot :: placesBelow (spot.parent ++ [spot.item.head.id]) (innerSteps spot.item) := by
  obtain ⟨⟨head, inner⟩, list, position, parent⟩ := spot
  unfold blockOf placeOf innerSteps Outline.shown
  simp only
  rw [placesOfStep]
  by_cases hopen : opensInner head = true
  · rw [if_pos hopen, if_pos (show opensInner (Outline.node head inner).head = true from hopen)]
    rfl
  · rw [if_neg hopen, if_neg (show ¬opensInner (Outline.node head inner).head = true from hopen)]
    rfl

theorem ids_blockOf (spot : WalkSpot) : ((blockOf spot).map fun place => place.head.id) = idsWithin spot.item := by
  rw [blockOf_eq, List.map_cons, ids_placesBelow, idsWithin, allStepIds_eq]
  rfl

theorem placesOfStep_singleton (trail : List String) (step : Step) : placesOfStep trail step = placesBelow trail [step] := by
  rw [placesBelow]
  exact (List.append_nil _).symm

section Copying

variable {flow : Flow} {spot : WalkSpot} (hspot : spot ∈ trailWalk flow.steps)

include hspot

theorem mem_places_of_blockOf {place : Place} (h : place ∈ blockOf spot) : place ∈ places flow.steps := by
  rw [blockOf_eq] at h
  rcases List.mem_cons.1 h with rfl | hbelow
  · exact place_mem_of_spot hspot
  · exact places_of_placesBelow hspot hbelow

variable (hnamed : Named flow.steps)

include hnamed

theorem mem_blockOf_iff {place : Place} (hplace : place ∈ places flow.steps) :
    place ∈ blockOf spot ↔ place.head.id ∈ idsWithin spot.item := by
  rw [← ids_blockOf]
  constructor
  · exact fun h => List.mem_map_of_mem h
  · intro h
    obtain ⟨other, hother, hid⟩ := List.mem_map.1 h
    rw [← hnamed.place_unique (mem_places_of_blockOf hspot hother) hplace hid]
    exact hother

/-- The steps around a step that lies outside are outside as well. -/
theorem trail_outside {place : Place} (hplace : place ∈ places flow.steps) (hout : spot.item.head.id ∉ place.trail) :
    ∀ loop ∈ place.trail, loop ∉ idsWithin spot.item := by
  intro loop hloop hwithin
  obtain ⟨other, hother, rfl⟩ := exists_spot_of_place hplace
  obtain ⟨depth, hdepth⟩ := List.getElem?_of_mem hloop
  obtain ⟨outer, houter, -, hid, hparent⟩ := Named.exists_spot_of_getElem hother hdepth
  have houterPlace := place_mem_of_spot houter
  have hnot : isOutside spot.item.head.id (placeOf outer) = false :=
    (mem_idsWithin_iff hnamed hspot houterPlace).1 (by rw [show (placeOf outer).head.id = loop from hid]; exact hwithin)
  rw [isOutside, decide_eq_false_iff_not, not_and_or, not_not, not_not] at hnot
  rcases hnot with hself | hin
  · have hloopId : loop = spot.item.head.id := hid.symm.trans hself
    exact hout (hloopId ▸ hloop)
  · have hsub : spot.item.head.id ∈ other.parent.take depth := hparent ▸ hin
    exact hout (List.mem_of_mem_take hsub)

theorem parent_outside : ∀ loop ∈ spot.parent, loop ∉ idsWithin spot.item := by
  apply trail_outside hspot hnamed (place_mem_of_spot hspot)
  intro hmem
  exact (List.nodup_append.1 (hnamed.nodup_trail hspot)).2.2 _ hmem _ List.mem_cons_self rfl

end Copying

/-- The copy of a step stands behind it under new names. -/
structure CopyPlaced (flow : Flow) (spot : WalkSpot) (rename : String → String) (result : List Step) : Prop where
  inserted : InsertedAfter (places flow.steps) (places result) (blockOf spot)
    ((blockOf spot).map (Place.mapped (withId rename) rename))
  fixed : ∀ id, id ∉ idsWithin spot.item → rename id = id
  fresh : ∀ id ∈ idsWithin spot.item, rename id ∉ allStepIds flow.steps
  plain : ∀ id ∈ idsWithin spot.item, PlainId (rename id)
  nodup : ((idsWithin spot.item).map rename).Nodup

theorem idsWithin_eq (step : Step) : idsWithin step = step.head.id :: idsOf (stepsBelow step) := by
  rw [idsWithin, allStepIds_eq, stepsBelow_eq]

theorem idsOf_within (step : Step) : idsOf (stepsOf [step]) = idsWithin step := by
  rw [idsOf_cons, idsWithin_eq]
  exact congrArg _ (List.append_nil _)

section Placing

variable {flow : Flow} (hnamed : Named flow.steps) (hplain : ∀ id ∈ allStepIds flow.steps, PlainId id)
  {spot : WalkSpot} (hspot : spot ∈ trailWalk flow.steps)

include hnamed hspot

theorem inserted_copy (copy : Step) :
    InsertedAfter (places flow.steps) (places (insertStep flow (lastId spot.parent) (spot.position + 1) copy).steps)
      (blockOf spot) (placesOfStep spot.parent copy) := by
  have hitem := mem_list_of_mem_trailWalk hspot
  unfold insertStep changeList
  by_cases hnil : spot.parent = []
  · have hlist : spot.list = flow.steps := by
      rw [mem_trailWalk_iff] at hspot
      cases hspot with
      | root _ => rfl
      | inner _ _ => exact absurd hnil (by simp [Outline.trail])
    rw [hlist] at hitem
    unfold blockOf
    rw [hnil, lastId_nil, if_pos rfl]
    exact insertedAfter_insertInto hitem copy []
  · obtain ⟨outer, houter, hopen, hparent, hlist⟩ := exists_outer hspot hnil
    have hlast : lastId spot.parent = outer.item.head.id := by rw [hparent, lastId_snoc]
    rw [hlist, innerSteps, Outline.shown, if_pos hopen] at hitem
    have hitems := @Outline.walk_map_item _ _ opensInner (Outline.trail StepHead.id) flow.steps []
    have houterMem : outer.item ∈ stepsOf flow.steps := by
      rw [stepsOf, ← hitems]
      exact List.mem_map_of_mem houter
    have hnodup := hnamed.nodup
    rw [allStepIds_eq] at hnodup
    obtain ⟨below, hinserted⟩ := insertedAfter_changeSteps hopen hitem copy [] flow.steps hnodup houterMem
    rw [hlast, if_neg (hnamed.id_ne_empty houter)]
    have hbelow : below = spot.parent := by
      obtain ⟨before, behind, hold, -⟩ := hinserted
      have hfirst : (⟨spot.item.head, spot.item.inner.length, below⟩ : Place) ∈ places flow.steps := by
        rw [places, hold]
        apply List.mem_append_right
        apply List.mem_append_left
        obtain ⟨head, inner⟩ := spot.item
        rw [placesOfStep]
        exact List.mem_cons_self
      exact congrArg Place.trail (hnamed.place_unique hfirst (place_mem_of_spot hspot) rfl)
    rw [hbelow] at hinserted
    exact hinserted

include hplain

theorem exists_copyPlaced :
    ∃ rename, CopyPlaced flow spot rename (duplicateStep flow spot.item.head.id).1.steps ∧
      (duplicateStep flow spot.item.head.id).2 = rename spot.item.head.id := by
  have hwithin : ∀ id ∈ idsWithin spot.item, id ∈ allStepIds flow.steps := by
    intro id hid
    obtain ⟨place, hplace, rfl⟩ := exists_place_of_idsWithin hspot hid
    rw [allStepIds_eq_places]
    exact List.mem_map_of_mem hplace
  have hnodup : (idsWithin spot.item).Nodup := by
    obtain ⟨before, behind, hold, -⟩ := inserted_copy hnamed hspot spot.item
    have hall := hnamed.nodup
    rw [allStepIds_eq_places, hold, List.map_append, List.map_append, ids_blockOf] at hall
    exact (List.nodup_append.1 (List.nodup_append.1 hall).2.1).1
  obtain ⟨first, hfirst⟩ := copied_copyWithIds (allStepIds flow.steps) spot.item
    (idsWithin_eq spot.item ▸ hnodup) fun id hid => hplain id (hwithin id (idsWithin_eq spot.item ▸ hid))
  have hids := idsOf_within spot.item
  have hafter := hfirst.after
  have hdistinct := hfirst.nodup hnamed.nodup
  rw [hids] at hafter
  rw [hafter] at hdistinct
  obtain ⟨-, hrenamed, hapart⟩ := List.nodup_append.1 hdistinct
  let rename := renameFirst (idsWithin spot.item) first id
  have hrename : (idsWithin spot.item).map rename = (idsWithin spot.item).map first := map_renameFirst_of_mem fun _ h => h
  have hcopy : (copyWithIds (allStepIds flow.steps) spot.item).1 = mapStep (withId rename) spot.item := by
    have hsteps := hfirst.steps_eq
    have hsame : mapSteps (withId rename) [spot.item] = mapSteps (withId first) [spot.item] :=
      mapSteps_congr [spot.item] fun id hid => if_pos (hids ▸ hid)
    exact List.head_eq_of_cons_eq (hsteps.trans hsame.symm)
  have hread := hnamed.read_of_located hspot
  have hresult : duplicateStep flow spot.item.head.id =
      (insertStep flow (lastId spot.parent) (spot.position + 1) (mapStep (withId rename) spot.item),
        rename spot.item.head.id) := by
    unfold duplicateStep
    rw [hread]
    change (insertStep flow (lastId spot.parent) (spot.position + 1) (copyWithIds (allStepIds flow.steps) spot.item).1,
      (copyWithIds (allStepIds flow.steps) spot.item).1.head.id) = _
    rw [hcopy]
    obtain ⟨head, inner⟩ := spot.item
    rfl
  rw [hresult]
  refine ⟨rename, ⟨?_, ?_, ?_, ?_, ?_⟩, rfl⟩
  · have hparent : spot.parent.map rename = spot.parent := by
      have hsame : spot.parent.map rename = spot.parent.map id :=
        map_renameFirst_of_notMem (parent_outside hspot hnamed)
      rw [hsame, List.map_id]
    have hblock : placesOfStep spot.parent (mapStep (withId rename) spot.item) =
        (blockOf spot).map (Place.mapped (withId rename) rename) := by
      have hmapped := placesBelow_withId rename spot.parent [spot.item]
      rw [hparent, mapSteps, mapSteps] at hmapped
      unfold blockOf
      rw [placesOfStep_singleton, hmapped, placesOfStep_singleton]
    rw [← hblock]
    exact inserted_copy hnamed hspot _
  · intro id hid
    exact if_neg hid
  · intro id hid hmem
    exact hapart _ hmem _ (hrename ▸ List.mem_map_of_mem hid) rfl
  · intro id hid
    have hplainId := hfirst.plain id (hids.symm ▸ hid)
    have hname : rename id = first id := if_pos hid
    rw [hname]
    exact hplainId
  · rw [hrename]
    exact hrenamed

end Placing

end Gostman.Flows
