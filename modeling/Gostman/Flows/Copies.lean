import Gostman.Flows.Duplicated
import Gostman.Flows.English
/-!
# A flow with a copied step

A flow that can run can run with the copy as well, and the jumps of the copy
are as they should be, just when no step of what is copied jumps to another
one of it.
-/

namespace Gostman.Flows

open Gostman.Lib

/-! ## What a flow without problems is -/

structure Valid (lib : Library) (flow : Flow) (requests : List SavedRequest) (flows : List StoredFlow) : Prop where
  steps : flow.steps ≠ []
  declared : declaredProblems lib flow = []
  outputs : outputProblems lib flow (indexSteps flow.steps) = []
  each : ∀ spot ∈ trailWalk flow.steps, stepProblems lib spot.item (flowScope flow requests flows) = [] ∧
    shapeProblems lib spot.item (flow.vars.map Declared.name) = []

theorem validateFlow_eq_nil_iff {lib : Library} {flow : Flow} {requests : List SavedRequest} {flows : List StoredFlow} :
    validateFlow lib flow requests flows = [] ↔ Valid lib flow requests flows := by
  unfold validateFlow
  by_cases hnone : flow.steps.length = 0
  · rw [if_pos hnone]
    constructor
    · intro h
      cases h
    · intro h
      exact absurd (List.length_eq_zero_iff.1 hnone) h.steps
  · rw [if_neg hnone]
    simp only [List.append_eq_nil_iff, List.map_eq_nil_iff, List.flatMap_eq_nil_iff]
    rw [walkSteps_eq]
    simp only [List.forall_mem_map]
    constructor
    · rintro ⟨⟨hdeclared, houtputs⟩, heach⟩
      exact ⟨fun h => hnone (List.length_eq_zero_iff.2 h), hdeclared, houtputs, heach⟩
    · intro h
      exact ⟨⟨h.declared, h.outputs⟩, h.each⟩

theorem retargeted_id (fields : Fields) : fields.retargeted id = fields := by
  cases fields with
  | switch fields =>
    have hcases : (fields.cases.map fun entry => { entry with target := id entry.target }) = fields.cases := List.map_id _
    change Fields.switch { fields with cases := fields.cases.map fun entry => { entry with target := id entry.target } } = _
    rw [hcases]
  | _ => rfl

theorem rewired_id (value : NamedValue) : value.rewired id = value := by
  obtain ⟨name, reading⟩ := value
  cases reading with
  | template text => rfl
  | response step source path =>
    unfold NamedValue.rewired
    simp only
    split_ifs <;> rfl

theorem rewiredRead_id (step : String) : rewiredRead id step = step := by
  unfold rewiredRead
  split_ifs <;> rfl

theorem rerouted_id (fields : Fields) : fields.rerouted id id = fields := by
  unfold Fields.rerouted
  rw [retargeted_id]
  cases fields with
  | request fields =>
    have hinputs : (fields.inputs.map fun input => { input with value := input.value.rewired id }) = fields.inputs :=
      List.map_id'' (fun input => by rw [rewired_id]) _
    change Fields.request { fields with inputs := fields.inputs.map _ } = _
    rw [hinputs]
  | setStep values => exact congrArg Fields.setStep (List.map_id'' rewired_id values)
  | ifStep fields => simp only [Fields.rewired, rewiredRead_id]
  | switch fields => simp only [Fields.rewired, rewiredRead_id]
  | forEach fields => simp only [Fields.rewired, rewiredRead_id]
  | repeatStep fields => simp only [Fields.rewired, rewiredRead_id]
  | _ => rfl

/-! ## The places of the result -/

theorem lastId_map (rename : String → String) {trail : List String} (h : trail ≠ []) :
    lastId (trail.map rename) = rename (lastId trail) := by
  obtain ⟨above, last, rfl⟩ := List.eq_nil_or_concat trail |>.resolve_left h
  rw [List.concat_eq_append, List.map_append, List.map_singleton, lastId_snoc, lastId_snoc]

theorem lastId_mem {trail : List String} (h : trail ≠ []) : lastId trail ∈ trail := by
  obtain ⟨above, last, rfl⟩ := List.eq_nil_or_concat trail |>.resolve_left h
  rw [List.concat_eq_append, lastId_snoc]
  exact List.mem_append_right _ List.mem_cons_self

theorem mem_ids_of_trail {steps : List Step} {place : Place} (h : place ∈ places steps) :
    ∀ loop ∈ place.trail, loop ∈ allStepIds steps := by
  intro loop hloop
  obtain ⟨spot, hspot, rfl⟩ := exists_spot_of_place h
  obtain ⟨depth, hdepth⟩ := List.getElem?_of_mem hloop
  obtain ⟨outer, houter, -, hid, -⟩ := Named.exists_spot_of_getElem hspot hdepth
  rw [allStepIds_eq_places, ← hid]
  exact List.mem_map_of_mem (place_mem_of_spot houter)

section Result

variable {flow : Flow} {spot : WalkSpot} {rename : String → String} {result : List Step}
  (hcopy : CopyPlaced flow spot rename result)

include hcopy

/-- The names of the copies stand behind those they are copied from. -/
theorem ids_result : ∃ before behind, allStepIds flow.steps = before ++ (idsWithin spot.item ++ behind) ∧
    allStepIds result = before ++ (idsWithin spot.item ++ ((idsWithin spot.item).map rename ++ behind)) := by
  obtain ⟨before, behind, hold, hnew⟩ := hcopy.inserted
  refine ⟨before.map fun place => place.head.id, behind.map fun place => place.head.id, ?_, ?_⟩
  · rw [allStepIds_eq_places, hold, List.map_append, List.map_append, ids_blockOf]
  · have hids := congrArg (List.map fun shape : StepHead × Bool × List String => shape.1.id) hnew
    rw [List.map_map, List.map_map] at hids
    rw [allStepIds_eq_places]
    refine hids.trans ?_
    rw [List.map_append, List.map_append, List.map_append, ← ids_blockOf, List.map_map, List.map_map]
    rfl

theorem place_of_result {place : Place} (h : place ∈ places result) :
    (∃ old ∈ places flow.steps, place.shape = old.shape) ∨
      ∃ old ∈ blockOf spot, place.shape = (old.mapped (withId rename) rename).shape := by
  obtain ⟨before, behind, hold, hnew⟩ := hcopy.inserted
  have hmem : place.shape ∈ (places result).map Place.shape := List.mem_map_of_mem h
  rw [hnew] at hmem
  obtain ⟨other, hother, hshape⟩ := List.mem_map.1 hmem
  rcases List.mem_append.1 hother with hin | hin
  · exact .inl ⟨other, by rw [hold]; exact List.mem_append_left _ hin, hshape.symm⟩
  · rcases List.mem_append.1 hin with hblock | hin
    · exact .inl ⟨other, by rw [hold]; exact List.mem_append_right _ (List.mem_append_left _ hblock), hshape.symm⟩
    · rcases List.mem_append.1 hin with hcopied | hbehind
      · obtain ⟨old, holdMem, rfl⟩ := List.mem_map.1 hcopied
        exact .inr ⟨old, holdMem, hshape.symm⟩
      · exact .inl ⟨other, by rw [hold]; exact List.mem_append_right _ (List.mem_append_right _ hbehind), hshape.symm⟩

theorem exists_result_of_mem {place : Place}
    (h : place ∈ places flow.steps ∨ place ∈ (blockOf spot).map (Place.mapped (withId rename) rename)) :
    ∃ found ∈ places result, found.shape = place.shape := by
  obtain ⟨before, behind, hold, hnew⟩ := hcopy.inserted
  have hmem : place.shape ∈ (places result).map Place.shape := by
    rw [hnew]
    apply List.mem_map_of_mem
    rcases h with hin | hin
    · rw [hold] at hin
      rcases List.mem_append.1 hin with hbefore | hrest
      · exact List.mem_append_left _ hbefore
      · rcases List.mem_append.1 hrest with hblock | hbehind
        · exact List.mem_append_right _ (List.mem_append_left _ hblock)
        · exact List.mem_append_right _ (List.mem_append_right _ (List.mem_append_right _ hbehind))
    · exact List.mem_append_right _ (List.mem_append_right _ (List.mem_append_left _ hin))
  obtain ⟨found, hfound, hshape⟩ := List.mem_map.1 hmem
  exact ⟨found, hfound, hshape⟩

theorem original_of_place {place : Place} (h : place ∈ places flow.steps) :
    ∃ found ∈ places result, found.head = place.head ∧ found.trail = place.trail := by
  obtain ⟨found, hfound, hshape⟩ := exists_result_of_mem hcopy (.inl h)
  exact ⟨found, hfound, congrArg Prod.fst hshape, congrArg (fun shape => shape.2.2) hshape⟩

theorem copy_of_place {place : Place} (h : place ∈ blockOf spot) :
    ∃ found ∈ places result, found.head = withId rename place.head ∧ found.trail = place.trail.map rename := by
  obtain ⟨found, hfound, hshape⟩ := exists_result_of_mem hcopy (.inr (List.mem_map_of_mem h))
  exact ⟨found, hfound, congrArg Prod.fst hshape, congrArg (fun shape => shape.2.2) hshape⟩

/-- The name of a copy is not that of the step around an old one. -/
theorem rename_ne_lastId {place : Place} (hplace : place ∈ places flow.steps) {id : String}
    (hid : id ∈ idsWithin spot.item) : rename id ≠ lastId place.trail := by
  intro heq
  by_cases hnil : place.trail = []
  · rw [hnil, lastId_nil] at heq
    exact (hcopy.plain id hid).ne_empty heq
  · exact hcopy.fresh id hid (heq ▸ mem_ids_of_trail hplace _ (lastId_mem hnil))

theorem rename_inj {first second : String} (hfirst : first ∈ idsWithin spot.item) (hsecond : second ∈ idsWithin spot.item)
    (h : rename first = rename second) : first = second :=
  List.inj_on_of_nodup_map hcopy.nodup hfirst hsecond h

variable (hnamed : Named flow.steps)

include hnamed

theorem named_result : Named result := by
  obtain ⟨before, behind, hold, hnew⟩ := ids_result hcopy
  have hnodup := hnamed.nodup
  rw [hold] at hnodup
  have hcopies : ∀ id ∈ (idsWithin spot.item).map rename, id ∉ before ++ (idsWithin spot.item ++ behind) := by
    intro id hid hmem
    obtain ⟨old, holdMem, rfl⟩ := List.mem_map.1 hid
    exact hcopy.fresh old holdMem (hold ▸ hmem)
  have hperm : (allStepIds result).Perm ((idsWithin spot.item).map rename ++ (before ++ (idsWithin spot.item ++ behind))) := by
    rw [hnew]
    have hinner := List.perm_append_comm_assoc (idsWithin spot.item) ((idsWithin spot.item).map rename) behind
    exact (hinner.append_left before).trans (List.perm_append_comm_assoc before _ _)
  refine ⟨?_, ?_⟩
  · apply hperm.nodup_iff.2
    apply List.nodup_append.2
    refine ⟨hcopy.nodup, hnodup, ?_⟩
    intro first hfirst second hsecond heq
    exact hcopies first hfirst (heq ▸ hsecond)
  · intro id hid
    rcases List.mem_append.1 (hperm.mem_iff.1 hid) with hin | hin
    · obtain ⟨old, holdMem, rfl⟩ := List.mem_map.1 hin
      exact (hcopy.plain old holdMem).ne_empty
    · exact hnamed.ne_empty id (hold ▸ hin)

theorem isRequestStep_result {id : String} (h : isRequestStep (indexSteps flow.steps) id = true) :
    isRequestStep (indexSteps result) id = true := by
  obtain ⟨place, hplace, hid, hkind⟩ := (hnamed.isRequestStep_iff id).1 h
  obtain ⟨found, hfound, hhead, -⟩ := original_of_place hcopy hplace
  apply ((named_result hcopy hnamed).isRequestStep_iff id).2
  exact ⟨found, hfound, by rw [hhead]; exact hid, by rw [hhead]; exact hkind⟩

theorem isBranch_original {place found : Place} (hplace : place ∈ places flow.steps) (hfound : found ∈ places result)
    (htrail : found.trail = place.trail) :
    isBranch (indexSteps result) found.head.id = isBranch (indexSteps flow.steps) place.head.id := by
  apply Bool.eq_iff_iff.2
  rw [(named_result hcopy hnamed).isBranch_iff hfound, hnamed.isBranch_iff hplace, htrail]
  constructor
  · rintro ⟨outer, houter, hid, hkind⟩
    rcases place_of_result hcopy houter with ⟨old, hold, hshape⟩ | ⟨old, hold, hshape⟩
    · have hsame : outer.head = old.head := congrArg Prod.fst hshape
      rw [hsame] at hid hkind
      exact ⟨old, hold, hid, hkind⟩
    · have hsame : outer.head = withId rename old.head := congrArg Prod.fst hshape
      have hwithin : old.head.id ∈ idsWithin spot.item := ids_blockOf spot ▸ List.mem_map_of_mem hold
      rw [hsame] at hid
      exact absurd hid (rename_ne_lastId hcopy hplace hwithin)
  · rintro ⟨outer, houter, hid, hkind⟩
    obtain ⟨other, hother, hsame, -⟩ := original_of_place hcopy houter
    exact ⟨other, hother, by rw [hsame]; exact hid, by rw [hsame]; exact hkind⟩

variable (hspot : spot ∈ trailWalk flow.steps)

include hspot

theorem isBranch_copy {place found : Place} (hplace : place ∈ blockOf spot) (hfound : found ∈ places result)
    (htrail : found.trail = place.trail.map rename) :
    isBranch (indexSteps result) found.head.id = isBranch (indexSteps flow.steps) place.head.id := by
  have hin := mem_places_of_blockOf hspot hplace
  apply Bool.eq_iff_iff.2
  rw [(named_result hcopy hnamed).isBranch_iff hfound, hnamed.isBranch_iff hin, htrail]
  by_cases hnil : place.trail = []
  · rw [hnil, List.map_nil, lastId_nil]
    constructor
    · rintro ⟨outer, houter, hid, -⟩
      have hne := (named_result hcopy hnamed).ne_empty outer.head.id (allStepIds_eq_places result ▸ List.mem_map_of_mem houter)
      exact absurd hid hne
    · rintro ⟨outer, houter, hid, -⟩
      have hne := hnamed.ne_empty outer.head.id (allStepIds_eq_places flow.steps ▸ List.mem_map_of_mem houter)
      exact absurd hid hne
  · rw [lastId_map rename hnil]
    constructor
    · rintro ⟨outer, houter, hid, hkind⟩
      rcases place_of_result hcopy houter with ⟨old, hold, hshape⟩ | ⟨old, hold, hshape⟩
      · have hsame : outer.head = old.head := congrArg Prod.fst hshape
        rw [hsame] at hid hkind
        by_cases hwithin : lastId place.trail ∈ idsWithin spot.item
        · refine absurd ?_ (hcopy.fresh _ hwithin)
          rw [← hid, allStepIds_eq_places]
          exact List.mem_map_of_mem hold
        · rw [hcopy.fixed _ hwithin] at hid
          exact ⟨old, hold, hid, hkind⟩
      · have hsame : outer.head = withId rename old.head := congrArg Prod.fst hshape
        have holdWithin : old.head.id ∈ idsWithin spot.item := ids_blockOf spot ▸ List.mem_map_of_mem hold
        rw [hsame] at hid hkind
        change rename old.head.id = rename (lastId place.trail) at hid
        refine ⟨old, mem_places_of_blockOf hspot hold, ?_, hkind⟩
        by_cases hwithin : lastId place.trail ∈ idsWithin spot.item
        · exact rename_inj hcopy holdWithin hwithin hid
        · rw [hcopy.fixed _ hwithin] at hid
          exact absurd hid (rename_ne_lastId hcopy hin holdWithin)
    · rintro ⟨outer, houter, hid, hkind⟩
      by_cases hwithin : lastId place.trail ∈ idsWithin spot.item
      · have hblock : outer ∈ blockOf spot := (mem_blockOf_iff hspot hnamed houter).2 (hid.symm ▸ hwithin)
        obtain ⟨other, hother, hsame, -⟩ := copy_of_place hcopy hblock
        exact ⟨other, hother, by rw [hsame]; exact congrArg rename hid, by rw [hsame]; exact hkind⟩
      · obtain ⟨other, hother, hsame, -⟩ := original_of_place hcopy houter
        exact ⟨other, hother, by rw [hsame, hcopy.fixed _ hwithin]; exact hid, by rw [hsame]; exact hkind⟩

/-! ## What the steps refer to -/

omit hspot in
theorem readsAgree_original {requests : List SavedRequest} {flows : List StoredFlow} {place found : Place}
    (hplace : place ∈ places flow.steps) (hfound : found ∈ places result) (hhead : found.head = place.head)
    (htrail : found.trail = place.trail) :
    ReadsAgree id (flowScope flow requests flows) (flowScope { flow with steps := result } requests flows) place.head.id
      found.head.id where
  requests := rfl
  flows := sameFlows_withSteps flow result requests flows
  known step hstep :=
    ⟨fun heq => by
      obtain ⟨other, hother, hid, -⟩ := (hnamed.isRequestStep_iff step).1 hstep
      exact hnamed.ne_empty step (allStepIds_eq_places flow.steps ▸ hid ▸ List.mem_map_of_mem hother) heq,
      isRequestStep_result hcopy hnamed hstep⟩
  before step hstep hbefore := by
    have hresult := named_result hcopy hnamed
    obtain ⟨other, hother, hid, -⟩ := (hnamed.isRequestStep_iff step).1 hstep
    change runsBefore (indexSteps flow.steps).keys step place.head.id = true at hbefore
    change runsBefore (indexSteps result).keys step found.head.id = true
    rw [hnamed.keys_indexSteps] at hbefore
    rw [hresult.keys_indexSteps, hhead]
    have hmem : step ∈ allStepIds flow.steps := allStepIds_eq_places flow.steps ▸ hid ▸ List.mem_map_of_mem hother
    obtain ⟨before, behind, hold, hnew⟩ := ids_result hcopy
    have hsub := pair_sublist_of_runsBefore hmem hbefore
    apply runsBefore_of_pair_sublist hresult.nodup
    rw [hold] at hsub
    rw [hnew]
    apply hsub.trans
    exact (List.Sublist.refl before).append ((List.Sublist.refl _).append (List.sublist_append_right _ behind))
  sibling step hstep hsibling := by
    have hresult := named_result hcopy hnamed
    obtain ⟨other, hother, rfl, -⟩ := (hnamed.isRequestStep_iff step).1 hstep
    obtain ⟨source, hsource, hsourceHead, hsourceTrail⟩ := original_of_place hcopy hother
    change isSibling (indexSteps flow.steps) other.head.id place.head.id = false at hsibling
    change isSibling (indexSteps result) other.head.id found.head.id = false
    rw [← Bool.not_eq_true] at hsibling ⊢
    rw [hnamed.isSibling_iff hother hplace] at hsibling
    rw [← hsourceHead, hresult.isSibling_iff hsource hfound, isBranch_original hcopy hnamed hother hsource hsourceTrail,
      hsourceTrail, htrail]
    exact hsibling

theorem readsAgree_copy {requests : List SavedRequest} {flows : List StoredFlow} {place found : Place}
    (hplace : place ∈ blockOf spot) (hfound : found ∈ places result) (hhead : found.head = withId rename place.head)
    (htrail : found.trail = place.trail.map rename) :
    ReadsAgree id (flowScope flow requests flows) (flowScope { flow with steps := result } requests flows) place.head.id
      found.head.id where
  requests := rfl
  flows := sameFlows_withSteps flow result requests flows
  known step hstep :=
    ⟨fun heq => by
      obtain ⟨other, hother, hid, -⟩ := (hnamed.isRequestStep_iff step).1 hstep
      exact hnamed.ne_empty step (allStepIds_eq_places flow.steps ▸ hid ▸ List.mem_map_of_mem hother) heq,
      isRequestStep_result hcopy hnamed hstep⟩
  before step hstep hbefore := by
    have hresult := named_result hcopy hnamed
    obtain ⟨other, hother, hid, -⟩ := (hnamed.isRequestStep_iff step).1 hstep
    change runsBefore (indexSteps flow.steps).keys step place.head.id = true at hbefore
    change runsBefore (indexSteps result).keys step found.head.id = true
    rw [hnamed.keys_indexSteps] at hbefore
    rw [hresult.keys_indexSteps, hhead]
    have hmem : step ∈ allStepIds flow.steps := allStepIds_eq_places flow.steps ▸ hid ▸ List.mem_map_of_mem hother
    have hwithin : place.head.id ∈ idsWithin spot.item := ids_blockOf spot ▸ List.mem_map_of_mem hplace
    obtain ⟨before, behind, hold, hnew⟩ := ids_result hcopy
    have hsub := pair_sublist_of_runsBefore hmem hbefore
    have hnodup := hnamed.nodup
    apply runsBefore_of_pair_sublist hresult.nodup
    rw [hold, ← List.append_assoc] at hsub hnodup
    rw [hnew, ← List.append_assoc]
    have hfirst : [step].Sublist (before ++ idsWithin spot.item) := by
      obtain ⟨left, right, hsplit, hleft, hright⟩ := List.sublist_append_iff.1 hsub
      have hbehind : place.head.id ∉ right := by
        intro hin
        exact (List.nodup_append.1 hnodup).2.2 _ (List.mem_append_right _ hwithin) _ (hright.subset hin) rfl
      match left, right, hsplit with
      | [], [_, _], rfl => exact absurd (List.mem_cons_of_mem _ List.mem_cons_self) hbehind
      | [_], [_], rfl => exact absurd List.mem_cons_self hbehind
      | [_, _], [], rfl => exact (List.Sublist.cons_cons _ (List.nil_sublist _)).trans hleft
    have hsecond : [(withId rename place.head).id].Sublist ((idsWithin spot.item).map rename ++ behind) :=
      List.singleton_sublist.2 (List.mem_append_left _ (List.mem_map_of_mem hwithin))
    exact hfirst.append hsecond
  sibling step hstep hsibling := by
    have hresult := named_result hcopy hnamed
    have hin := mem_places_of_blockOf hspot hplace
    obtain ⟨other, hother, rfl, -⟩ := (hnamed.isRequestStep_iff step).1 hstep
    obtain ⟨source, hsource, hsourceHead, hsourceTrail⟩ := original_of_place hcopy hother
    change isSibling (indexSteps flow.steps) other.head.id place.head.id = false at hsibling
    change isSibling (indexSteps result) other.head.id found.head.id = false
    rw [← Bool.not_eq_true] at hsibling ⊢
    rw [hnamed.isSibling_iff hother hin] at hsibling
    rw [← hsourceHead, hresult.isSibling_iff hsource hfound, isBranch_original hcopy hnamed hother hsource hsourceTrail,
      hsourceTrail, htrail]
    rintro ⟨hbranch, hlast⟩
    apply hsibling
    refine ⟨hbranch, ?_⟩
    by_cases hnil : place.trail = []
    · rw [hnil]
      rw [hnil] at hlast
      exact hlast
    · rw [lastId_map rename hnil] at hlast
      by_cases hwithin : lastId place.trail ∈ idsWithin spot.item
      · exact absurd hlast.symm (rename_ne_lastId hcopy hother hwithin)
      · rw [hlast, hcopy.fixed _ hwithin]

/-! ## Where the jumps lead -/

omit hnamed hspot in
theorem canReach_original {place found : Place} (htrail : found.trail = place.trail) {target : String}
    (h : CanReach (places flow.steps) place target) : CanReach (places result) found target := by
  rcases h with hstop | ⟨goal, hgoal, hid, hsub⟩
  · exact .inl hstop
  · obtain ⟨other, hother, hhead, hotherTrail⟩ := original_of_place hcopy hgoal
    refine .inr ⟨other, hother, by rw [hhead]; exact hid, ?_⟩
    rw [hotherTrail, htrail]
    exact hsub

theorem canReach_copy {place found : Place} (htrail : found.trail = place.trail.map rename) {target : String}
    (hnot : target ∉ idsWithin spot.item) (h : CanReach (places flow.steps) place target) :
    CanReach (places result) found target := by
  rcases h with hstop | ⟨goal, hgoal, hid, hsub⟩
  · exact .inl hstop
  · have hout := of_decide_eq_true ((notMem_idsWithin_iff hnamed hspot hgoal).1 (hid ▸ hnot))
    obtain ⟨other, hother, hhead, hotherTrail⟩ := original_of_place hcopy hgoal
    refine .inr ⟨other, hother, by rw [hhead]; exact hid, ?_⟩
    rw [hotherTrail, htrail]
    intro loop hloop
    have hfixed := hcopy.fixed loop (trail_outside hspot hnamed hgoal hout.2 loop hloop)
    exact hfixed ▸ List.mem_map_of_mem (hsub hloop)

/-- The flow with the copy has no problem either. -/
theorem valid_result {lib : Library} {requests : List SavedRequest} {flows : List StoredFlow}
    (hvalid : Valid lib flow requests flows)
    (hjumps : ∀ place ∈ blockOf spot, ∀ route ∈ place.targets, route.2 ∉ idsWithin spot.item) :
    Valid lib { flow with steps := result } requests flows := by
  have hresult := named_result hcopy hnamed
  refine ⟨?_, hvalid.declared, ?_, ?_⟩
  · obtain ⟨found, hfound, -⟩ := original_of_place hcopy (place_mem_of_spot hspot)
    rintro (rfl : result = [])
    exact absurd hfound List.not_mem_nil
  · apply List.flatMap_eq_nil_iff.2
    intro output houtput
    have hfine := List.flatMap_eq_nil_iff.1 hvalid.outputs output houtput
    have hknown : ∀ step, isRequestStep (indexSteps flow.steps) step = true →
        id step ≠ "" ∧ isRequestStep (indexSteps result) (id step) = true := by
      obtain ⟨found, hfound, hhead, htrail⟩ := original_of_place hcopy (place_mem_of_spot hspot)
      have hagree : ReadsAgree id (flowScope flow requests flows) (flowScope { flow with steps := result } requests flows)
          (placeOf spot).head.id found.head.id :=
        readsAgree_original hcopy hnamed (place_mem_of_spot hspot) hfound hhead htrail
      exact hagree.known
    have hrewired := valueProblems_rewired hknown hfine
    rw [rewired_id] at hrewired
    exact hrewired
  · intro found hfound
    have hfoundPlace := place_mem_of_spot hfound
    rcases place_of_result hcopy hfoundPlace with ⟨old, hold, hshape⟩ | ⟨old, hold, hshape⟩
    · obtain ⟨source, hsource, rfl⟩ := exists_spot_of_place hold
      obtain ⟨hstep, hform⟩ := hvalid.each source hsource
      have hhead : found.item.head = source.item.head := congrArg Prod.fst hshape
      have htrail : (placeOf found).trail = (placeOf source).trail := congrArg (fun shape => shape.2.2) hshape
      have hinner : decide (0 < found.item.inner.length) = decide (0 < source.item.inner.length) :=
        congrArg (fun shape => shape.2.1) hshape
      have hfields : found.item.head.fields = source.item.head.fields.rerouted id id := by rw [rerouted_id, hhead]
      have hnext : found.item.head.next = id source.item.head.next := congrArg StepHead.next hhead
      refine ⟨?_, (shapeProblems_rerouted hfields _).trans hform⟩
      apply stepProblems_rerouted hfields hnext (readsAgree_original hcopy hnamed hold hfoundPlace hhead htrail)
        (fun hpos => of_decide_eq_true (hinner.trans (decide_eq_true hpos))) (fun _ _ => Iff.rfl)
        (isBranch_original hcopy hnamed hold hfoundPlace htrail) _ hstep
      intro htargets
      apply (hresult.targetProblems_eq_nil_iff lib hfoundPlace rfl).2
      intro route hroute
      apply canReach_original hcopy htrail
      apply (hnamed.targetProblems_eq_nil_iff lib hold rfl).1 htargets
      unfold Place.targets at hroute ⊢
      rw [show (placeOf found).head = source.item.head from hhead] at hroute
      exact hroute
    · have holdPlace := mem_places_of_blockOf hspot hold
      obtain ⟨source, hsource, rfl⟩ := exists_spot_of_place holdPlace
      obtain ⟨hstep, hform⟩ := hvalid.each source hsource
      have hhead : found.item.head = withId rename source.item.head := congrArg Prod.fst hshape
      have htrail : (placeOf found).trail = (placeOf source).trail.map rename := congrArg (fun shape => shape.2.2) hshape
      have hinner : decide (0 < found.item.inner.length) = decide (0 < source.item.inner.length) :=
        congrArg (fun shape => shape.2.1) hshape
      have hfields : found.item.head.fields = source.item.head.fields.rerouted id id := by
        rw [rerouted_id, hhead]
        rfl
      have hnext : found.item.head.next = id source.item.head.next := by
        rw [hhead]
        rfl
      refine ⟨?_, (shapeProblems_rerouted hfields _).trans hform⟩
      apply stepProblems_rerouted hfields hnext (readsAgree_copy hcopy hnamed hspot hold hfoundPlace hhead htrail)
        (fun hpos => of_decide_eq_true (hinner.trans (decide_eq_true hpos))) (fun _ _ => Iff.rfl)
        (isBranch_copy hcopy hnamed hspot hold hfoundPlace htrail) _ hstep
      intro htargets
      apply (hresult.targetProblems_eq_nil_iff lib hfoundPlace rfl).2
      intro route hroute
      have hsame : route ∈ (placeOf source).targets := by
        unfold Place.targets at hroute ⊢
        rw [show (placeOf found).head = withId rename source.item.head from hhead] at hroute
        exact hroute
      apply canReach_copy hcopy hnamed hspot htrail (hjumps _ hold route hsame)
      exact (hnamed.targetProblems_eq_nil_iff lib holdPlace rfl).1 htargets route hsame

end Result

/-! ## What is copied and its copy -/

/-- The step of an id and the steps inside it, in the order of the walk. -/
def stepsWithin (steps : List Step) (id : String) : List Step :=
  ((walkSteps steps "").filter fun entry =>
    entry.item.head.id = id ∨ id ∈ loopsAround (indexSteps steps) entry.item.head.id).map fun entry => entry.item

/-- Each jump of a step to another one of the list is, in the copy of the
step, a jump to the copy of the other one. -/
def JumpsFollow (originals copies : List Step) : Prop :=
  copies.length = originals.length ∧
    ∀ pair ∈ originals.zip copies, ∀ goal ∈ originals.zip copies, ∀ route ∈ targetsOf pair.1,
      route.2 = goal.1.head.id → (route.1, goal.2.head.id) ∈ targetsOf pair.2

def NoInnerJump (steps : List Step) : Prop :=
  ∀ step ∈ steps, ∀ route ∈ targetsOf step, ∀ goal ∈ steps, route.2 ≠ goal.head.id

theorem heads_stepsWithin {steps : List Step} (hnamed : Named steps) (id : String) :
    (stepsWithin steps id).map Outline.head =
      ((places steps).filter fun place => !isOutside id place).map Place.head := by
  unfold stepsWithin
  rw [walkSteps_eq, ← map_placeOf_trailWalk, List.filter_map, List.filter_map, List.map_map, List.map_map, List.map_map]
  have hfilter : (trailWalk steps).filter ((fun entry : Entry =>
      decide (entry.item.head.id = id ∨ id ∈ loopsAround (indexSteps steps) entry.item.head.id)) ∘
        Outline.Spot.mapParent lastId) = (trailWalk steps).filter ((fun place => !isOutside id place) ∘ placeOf) := by
    apply List.filter_congr
    intro spot hspot
    have hloops := hnamed.loopsAround_of_located hspot
    change decide (spot.item.head.id = id ∨ id ∈ loopsAround (indexSteps steps) spot.item.head.id) =
      !decide (spot.item.head.id ≠ id ∧ id ∉ spot.parent)
    rw [hloops, ← decide_not]
    exact decide_eq_decide.2 (by tauto)
  rw [hfilter]
  rfl

theorem filter_middle {α : Type} {keep : α → Bool} {before block behind : List α}
    (hbefore : ∀ item ∈ before, keep item = false) (hblock : ∀ item ∈ block, keep item = true)
    (hbehind : ∀ item ∈ behind, keep item = false) : (before ++ (block ++ behind)).filter keep = block := by
  have hfirst : before.filter keep = [] := List.filter_eq_nil_iff.2 fun item hitem => Bool.eq_false_iff.1 (hbefore item hitem)
  have hlast : behind.filter keep = [] := List.filter_eq_nil_iff.2 fun item hitem => Bool.eq_false_iff.1 (hbehind item hitem)
  rw [List.filter_append, List.filter_append, hfirst, hlast, List.filter_eq_self.2 hblock, List.append_nil, List.nil_append]

section Heads

variable {flow : Flow} {spot : WalkSpot} (hnamed : Named flow.steps) (hspot : spot ∈ trailWalk flow.steps)

include hnamed hspot

theorem isOutside_of_notMem {place : Place} (hplace : place ∈ places flow.steps) (h : place ∉ blockOf spot) :
    isOutside spot.item.head.id place = true :=
  (notMem_idsWithin_iff hnamed hspot hplace).1 fun hid => h ((mem_blockOf_iff hspot hnamed hplace).2 hid)

theorem isOutside_of_mem {place : Place} (h : place ∈ blockOf spot) : isOutside spot.item.head.id place = false :=
  have hplace := mem_places_of_blockOf hspot h
  (mem_idsWithin_iff hnamed hspot hplace).1 ((mem_blockOf_iff hspot hnamed hplace).1 h)

theorem heads_original {rename : String → String} {result : List Step} (hcopy : CopyPlaced flow spot rename result) :
    (stepsWithin flow.steps spot.item.head.id).map Outline.head = (blockOf spot).map Place.head := by
  obtain ⟨before, behind, hold, -⟩ := hcopy.inserted
  have hnodup : (places flow.steps).Nodup := by
    have hids := hnamed.nodup
    rw [allStepIds_eq_places] at hids
    exact List.Nodup.of_map _ hids
  have hin : ∀ place ∈ before ++ behind, place ∈ places flow.steps ∧ place ∉ blockOf spot := by
    intro place hplace
    rw [hold] at hnodup ⊢
    obtain ⟨-, hrest, hapart⟩ := List.nodup_append.1 hnodup
    rcases List.mem_append.1 hplace with hbefore | hbehind
    · exact ⟨List.mem_append_left _ hbefore, fun hblock => hapart _ hbefore _ (List.mem_append_left _ hblock) rfl⟩
    · exact ⟨List.mem_append_right _ (List.mem_append_right _ hbehind), fun hblock =>
        (List.nodup_append.1 hrest).2.2 _ hblock _ hbehind rfl⟩
  have hout : ∀ place ∈ before ++ behind, (!isOutside spot.item.head.id place) = false := by
    intro place hplace
    rw [isOutside_of_notMem hnamed hspot (hin place hplace).1 (hin place hplace).2]
    rfl
  rw [heads_stepsWithin hnamed, hold, filter_middle]
  · exact fun place hplace => hout place (List.mem_append_left _ hplace)
  · intro place hplace
    rw [isOutside_of_mem hnamed hspot hplace]
    rfl
  · exact fun place hplace => hout place (List.mem_append_right _ hplace)

/-- The steps of the copy are those that are copied, renamed. -/
theorem heads_copy {rename : String → String} {result : List Step} (hcopy : CopyPlaced flow spot rename result) :
    (stepsWithin result (rename spot.item.head.id)).map Outline.head =
      (blockOf spot).map fun place => withId rename place.head := by
  obtain ⟨before, behind, hold, hnew⟩ := hcopy.inserted
  have hself : spot.item.head.id ∈ idsWithin spot.item := List.mem_cons_self
  have hkept : ∀ place : Place, (!isOutside (rename spot.item.head.id) place) =
      (fun shape : StepHead × Bool × List String => decide (shape.1.id = rename spot.item.head.id ∨
        rename spot.item.head.id ∈ shape.2.2)) place.shape := by
    intro place
    unfold isOutside Place.shape
    rw [← decide_not]
    exact decide_eq_decide.2 (by tauto)
  have hout : ∀ place ∈ places flow.steps, (!isOutside (rename spot.item.head.id) place) = false := by
    intro place hplace
    have hfresh := hcopy.fresh _ hself
    rw [Bool.not_eq_false']
    apply decide_eq_true
    constructor
    · intro heq
      apply hfresh
      rw [← heq, allStepIds_eq_places]
      exact List.mem_map_of_mem hplace
    · exact fun hmem => hfresh (mem_ids_of_trail hplace _ hmem)
  have hin : ∀ place ∈ (blockOf spot).map (Place.mapped (withId rename) rename),
      (!isOutside (rename spot.item.head.id) place) = true := by
    intro place hplace
    obtain ⟨old, holdMem, rfl⟩ := List.mem_map.1 hplace
    have hinside := isOutside_of_mem hnamed hspot holdMem
    rw [Bool.not_eq_true']
    rw [isOutside, decide_eq_false_iff_not, not_and_or, not_not, not_not] at hinside ⊢
    rcases hinside with hid | hmem
    · exact .inl (congrArg rename hid)
    · exact .inr (List.mem_map_of_mem hmem)
  have hheads : ∀ list : List Place, (list.filter fun place => !isOutside (rename spot.item.head.id) place).map Place.head =
      ((list.map Place.shape).filter fun shape => decide (shape.1.id = rename spot.item.head.id ∨
        rename spot.item.head.id ∈ shape.2.2)).map Prod.fst := by
    intro list
    rw [List.filter_map, List.map_map]
    exact congrArg (List.map Place.head) (List.filter_congr fun place _ => hkept place)
  rw [heads_stepsWithin (named_result hcopy hnamed), hheads, hnew, ← hheads, ← List.append_assoc, filter_middle]
  · rw [List.map_map]
    rfl
  · intro place hplace
    apply hout
    rw [hold, ← List.append_assoc]
    exact List.mem_append_left _ hplace
  · exact hin
  · intro place hplace
    apply hout
    rw [hold, ← List.append_assoc]
    exact List.mem_append_right _ hplace

end Heads

/-! ## Copying keeps a flow runnable without inner jumps -/

theorem targetProblems_of_valid {lib : Library} {flow : Flow} {requests : List SavedRequest} {flows : List StoredFlow}
    (h : Valid lib flow requests flows) {spot : WalkSpot} (hspot : spot ∈ trailWalk flow.steps) :
    targetProblems lib (indexSteps flow.steps) spot.item = [] := by
  have hstep := (h.each spot hspot).1
  unfold stepProblems at hstep
  split at hstep
  · cases hstep
  · obtain ⟨hfirst, hlast⟩ := List.append_eq_nil_iff.1 hstep
    rw [(List.append_eq_nil_iff.1 hfirst).2] at hlast
    exact hlast

theorem map_zip_heads {originals copies : List Step} {block : List Place} {rename : String → String}
    (horiginals : originals.map Outline.head = block.map Place.head)
    (hcopies : copies.map Outline.head = block.map fun place => withId rename place.head) :
    (originals.zip copies).map (Prod.map Outline.head Outline.head) =
      block.map fun place => (place.head, withId rename place.head) := by
  rw [← List.zip_map, horiginals, hcopies, List.zip_map']

theorem targetsOf_withId {step : Step} {place : Place} {rename : String → String}
    (h : step.head = withId rename place.head) : targetsOf step = place.targets := by
  have hcopy : targetsOf step = targetsOf (.node (withId rename place.head) []) := targetsOf_congr h
  rw [hcopy]
  rfl

section Following

variable {flow : Flow} {spot : WalkSpot} {rename : String → String} {originals copies : List Step}
  (horiginals : originals.map Outline.head = (blockOf spot).map Place.head)
  (hcopies : copies.map Outline.head = (blockOf spot).map fun place => withId rename place.head)

include horiginals

theorem exists_place_of_original {step : Step} (h : step ∈ originals) : ∃ place ∈ blockOf spot, place.head = step.head := by
  have hmem : step.head ∈ originals.map Outline.head := List.mem_map_of_mem h
  rw [horiginals] at hmem
  exact List.mem_map.1 hmem

/-- Without inner jumps, what is copied jumps out of itself. -/
theorem targets_of_noInnerJump (h : NoInnerJump originals) :
    ∀ place ∈ blockOf spot, ∀ route ∈ place.targets, route.2 ∉ idsWithin spot.item := by
  intro place hplace route hroute hwithin
  have hoccurs : ∀ place ∈ blockOf spot, ∃ step ∈ originals, step.head = place.head := by
    intro place hplace
    have hmem : place.head ∈ (blockOf spot).map Place.head := List.mem_map_of_mem hplace
    rw [← horiginals] at hmem
    exact List.mem_map.1 hmem
  rw [← ids_blockOf] at hwithin
  obtain ⟨goal, hgoal, hid⟩ := List.mem_map.1 hwithin
  obtain ⟨step, hstep, hhead⟩ := hoccurs place hplace
  obtain ⟨other, hother, hotherHead⟩ := hoccurs goal hgoal
  have hsame : targetsOf step = place.targets := targetsOf_congr hhead
  exact h step hstep route (hsame ▸ hroute) other hother (by rw [hotherHead]; exact hid.symm)

include hcopies

theorem exists_pair_of_place {place : Place} (h : place ∈ blockOf spot) :
    ∃ pair ∈ originals.zip copies, pair.1.head = place.head ∧ pair.2.head = withId rename place.head := by
  have hmem : (place.head, withId rename place.head) ∈ (originals.zip copies).map (Prod.map Outline.head Outline.head) := by
    rw [map_zip_heads horiginals hcopies]
    exact List.mem_map.2 ⟨place, h, rfl⟩
  obtain ⟨pair, hpair, heq⟩ := List.mem_map.1 hmem
  exact ⟨pair, hpair, congrArg Prod.fst heq, congrArg Prod.snd heq⟩

/-- The jumps of the copy cannot follow an inner one, since a copied step
keeps its targets. -/
theorem noInnerJump_of_follow (hspot : spot ∈ trailWalk flow.steps) (hnamed : Named flow.steps)
    (hfresh : ∀ id ∈ idsWithin spot.item, rename id ∉ allStepIds flow.steps)
    (hplain : ∀ id ∈ idsWithin spot.item, PlainId (rename id)) {lib : Library} {requests : List SavedRequest}
    {flows : List StoredFlow} (hvalid : Valid lib flow requests flows) (h : JumpsFollow originals copies) :
    NoInnerJump originals := by
  intro step hstep route hroute goal hgoal hinner
  obtain ⟨place, hplace, hhead⟩ := exists_place_of_original horiginals hstep
  obtain ⟨other, hother, hotherHead⟩ := exists_place_of_original horiginals hgoal
  obtain ⟨pair, hpair, hfirst, hsecond⟩ := exists_pair_of_place horiginals hcopies hplace
  obtain ⟨goalPair, hgoalPair, hgoalFirst, hgoalSecond⟩ := exists_pair_of_place horiginals hcopies hother
  have hsame : targetsOf pair.1 = targetsOf step := targetsOf_congr (hfirst.trans hhead)
  have hfollowed := h.2 pair hpair goalPair hgoalPair route (hsame.symm ▸ hroute) (by rw [hgoalFirst, hotherHead]; exact hinner)
  rw [targetsOf_withId hsecond, hgoalSecond] at hfollowed
  have hin := mem_places_of_blockOf hspot hplace
  obtain ⟨source, hsource, rfl⟩ := exists_spot_of_place hin
  have hwithin : other.head.id ∈ idsWithin spot.item := ids_blockOf spot ▸ List.mem_map_of_mem hother
  rcases (hnamed.targetProblems_eq_nil_iff lib hin rfl).1 (targetProblems_of_valid hvalid hsource) _ hfollowed with
    hstop | ⟨target, htarget, hid, -⟩
  · exact (hplain _ hwithin).ne_end hstop
  · apply hfresh _ hwithin
    rw [allStepIds_eq_places]
    exact List.mem_map.2 ⟨target, htarget, hid⟩

end Following

theorem duplicateStep_withSteps (flow : Flow) (id : String) :
    (duplicateStep flow id).1 = { flow with steps := (duplicateStep flow id).1.steps } := by
  unfold duplicateStep
  cases (indexSteps flow.steps).read id with
  | none => rfl
  | some entry =>
    unfold insertStep changeList
    simp only
    split_ifs <;> rfl

/-- Copying a step of a flow that can run keeps the flow runnable, with jumps
of the copy that follow those within the step, just when there are no such. -/
theorem duplicateStep_iff (lib : Library) (numerals : Js.Numerals) (raw : Js.Json) (requests : List SavedRequest)
    (flows : List StoredFlow) (id : String)
    (hvalid : validateFlow lib (normalizeFlow numerals raw) requests flows = [])
    (hid : id ∈ allStepIds (normalizeFlow numerals raw).steps) :
    let flow := normalizeFlow numerals raw
    let copied := (duplicateStep flow id).1
    let copy := (duplicateStep flow id).2
    ((allStepIds copied.steps).Nodup ∧ validateFlow lib copied requests flows = [] ∧
      JumpsFollow (stepsWithin flow.steps id) (stepsWithin copied.steps copy)) ↔
        NoInnerJump (stepsWithin flow.steps id) := by
  intro flow copied copy
  have hnamed : Named flow.steps := named_normalizeFlow numerals raw
  have hvalid : Valid lib flow requests flows := validateFlow_eq_nil_iff.1 hvalid
  obtain ⟨place, hplace, rfl⟩ := List.mem_map.1 (allStepIds_eq_places flow.steps ▸ hid)
  obtain ⟨spot, hspot, rfl⟩ := exists_spot_of_place hplace
  obtain ⟨rename, hcopy, hname⟩ :=
    exists_copyPlaced hnamed (fun id hid => plainId_of_mem_allStepIds numerals hid) hspot
  have horiginals := heads_original hnamed hspot hcopy
  have hcopies := heads_copy hnamed hspot hcopy
  change copy = rename spot.item.head.id at hname
  rw [hname]
  constructor
  · rintro ⟨-, -, hfollow⟩
    exact noInnerJump_of_follow horiginals hcopies hspot hnamed hcopy.fresh hcopy.plain hvalid hfollow
  · intro hinner
    have hjumps := targets_of_noInnerJump horiginals hinner
    refine ⟨(named_result hcopy hnamed).nodup, ?_, ?_, ?_⟩
    · rw [show copied = { flow with steps := copied.steps } from duplicateStep_withSteps flow spot.item.head.id]
      exact validateFlow_eq_nil_iff.2 (valid_result hcopy hnamed hspot hvalid hjumps)
    · have hlength := congrArg List.length hcopies
      rw [List.length_map, List.length_map] at hlength
      have horiginal := congrArg List.length horiginals
      rw [List.length_map, List.length_map] at horiginal
      exact hlength.trans horiginal.symm
    · intro pair hpair goal hgoal route hroute hto
      exact absurd hto (hinner pair.1 (List.of_mem_zip hpair).1 route hroute goal.1 (List.of_mem_zip hgoal).1)

instance (originals copies : List Step) : Decidable (JumpsFollow originals copies) :=
  inferInstanceAs (Decidable (_ ∧ _))

instance (steps : List Step) : Decidable (NoInnerJump steps) :=
  inferInstanceAs (Decidable (∀ step ∈ steps, ∀ route ∈ targetsOf step, ∀ goal ∈ steps, route.2 ≠ goal.head.id))

def roundsRaw : Js.Json :=
  .obj [("id", .str "f"), ("steps", .arr [.obj [("id", .str "rounds"), ("kind", .str "repeat"),
    ("steps", .arr [.obj [("id", .str "first"), ("kind", .str "delay"), ("next", .str "second")],
      .obj [("id", .str "second"), ("kind", .str "delay")]])]])]

/-- The last of the repeated steps can be copied. -/
theorem last_step_copied :
    let copied := (duplicateStep (normalizeFlow plainLibrary.numerals roundsRaw) "second").1
    validateFlow plainLibrary copied [] [] = [] :=
  ((duplicateStep_iff plainLibrary plainLibrary.numerals roundsRaw [] [] "second" (by decide +kernel)
    (by decide +kernel)).2 (by decide +kernel)).2.1

/-- The copy of the whole Repeat step jumps back into the step. -/
theorem jump_stays_behind :
    let flow := normalizeFlow plainLibrary.numerals roundsRaw
    validateFlow plainLibrary flow [] [] = [] ∧ "rounds" ∈ allStepIds flow.steps ∧
      ¬JumpsFollow (stepsWithin flow.steps "rounds") (stepsWithin (duplicateStep flow "rounds").1.steps "rounds-2") ∧
        (duplicateStep flow "rounds").2 = "rounds-2" ∧
          validateFlow plainLibrary (duplicateStep flow "rounds").1 [] [] ≠ [] := by
  decide +kernel

end Gostman.Flows
