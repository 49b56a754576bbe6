import Gostman.Flows.Copies
/-!
# A flow under a new id

What the steps of a flow read and where they lead when one id is replaced by
another one that no step has.
-/

namespace Gostman.Flows

open Gostman.Lib

/-! ## What a step refers to -/

def readsOf : Fields → List String
  | .request fields => fields.inputs.map fun input => input.value.reading.step
  | .setStep values => values.map fun value => value.reading.step
  | .ifStep fields => [fields.step]
  | .switch fields => [fields.step]
  | .forEach fields => [fields.step]
  | .repeatStep fields => [fields.step]
  | .parallel _ | .flow _ | .delay _ | .endStep _ | .unknown _ => []

/-! ## The new id -/

theorem uniqueId_ne_end (wanted : String) (taken : List String) : uniqueId wanted taken ≠ endTarget := by
  unfold uniqueId
  simp only
  split_ifs with htaken
  · exact (hyphen_notMem_reserved (by simp [numberedId])).1
  · unfold baseId
    split_ifs with hreserved
    · exact (hyphen_notMem_reserved (by simp)).1
    · exact fun heq => hreserved (.inl heq)

theorem uniqueId_ne_empty {wanted : String} (h : wanted ≠ "") (taken : List String) : uniqueId wanted taken ≠ "" := by
  have hbase : baseId wanted ≠ "" := by
    unfold baseId
    split_ifs <;> simp [h]
  unfold uniqueId
  simp only
  split_ifs with htaken
  · simp [numberedId]
  · exact hbase

theorem slugOf_ne_empty (casing : Casing) (wanted : String) {source : String} (h : source ≠ "") :
    slugOf casing wanted source ≠ "" := by
  unfold slugOf
  simp only
  split_ifs with hslug
  · exact hslug
  · exact h

theorem wantedId_notMem {casing : Casing} {flow : Flow} {source wanted : String}
    (hne : wantedId casing flow source wanted ≠ source) : wantedId casing flow source wanted ∉ allStepIds flow.steps := by
  intro hmem
  apply uniqueId_notMem (slugOf casing wanted source) ((allStepIds flow.steps).filter fun id => id ≠ source)
  exact List.mem_filter.2 ⟨hmem, decide_eq_true hne⟩

/-- An empty id is wanted only for an empty one. -/
theorem wantedId_ne_empty {casing : Casing} {flow : Flow} (hnamed : Named flow.steps) {source wanted : String}
    (hne : wantedId casing flow source wanted ≠ source) : wantedId casing flow source wanted ≠ "" := by
  by_cases hslug : slugOf casing wanted source = ""
  · by_cases hsource : source = ""
    · exfalso
      apply hne
      unfold wantedId uniqueId
      have hfree : ("" : String) ∉ (allStepIds flow.steps).filter fun id => id ≠ source :=
        fun hmem => hnamed.ne_empty "" (List.mem_filter.1 hmem).1 rfl
      rw [hslug]
      simp only
      rw [if_pos (show baseId "" ∉ _ from hfree), hsource]
      rfl
    · exact absurd hslug (slugOf_ne_empty casing wanted hsource)
  · exact uniqueId_ne_empty hslug _

/-! ## Steps that read the same under other names -/

/-- What a step of the id `id` may read agrees with what the step `id'` reads
for it in another scope. -/
structure SameReading (rename : String → String) (scope scope' : Scope) (id id' read : String) : Prop where
  ne_empty : rename read ≠ ""
  request : isRequestStep scope'.index (rename read) = isRequestStep scope.index read
  before : runsBefore scope'.index.keys (rename read) id' = runsBefore scope.index.keys read id
  sibling : isRequestStep scope.index read = true →
    isSibling scope'.index (rename read) id' = isSibling scope.index read id

section Values

variable {lib : Library} {rename : String → String} {index index' : Record String Entry}

theorem valueProblems_same {value : NamedValue} (hne : value.reading.step ≠ "" → rename value.reading.step ≠ "")
    (hrequest : value.reading.step ≠ "" →
      isRequestStep index' (rename value.reading.step) = isRequestStep index value.reading.step) :
    valueProblems lib index' (value.rewired rename) = [] ↔ valueProblems lib index value = [] := by
  obtain ⟨name, reading⟩ := value
  cases reading with
  | template text => exact Iff.rfl
  | response step source path =>
    unfold NamedValue.rewired valueProblems
    simp only
    by_cases hstep : step = ""
    · simp only [if_pos hstep]
    · have hfound := hrequest hstep
      have hboth := hne hstep
      change isRequestStep index' (rename step) = isRequestStep index step at hfound
      change rename step ≠ "" at hboth
      simp only [if_neg hstep, if_neg hboth, hfound]
      split_ifs <;> simp

theorem referenceProblem_same {id : String} (hne : id ≠ "" → rename id ≠ "")
    (hrequest : id ≠ "" → isRequestStep index' (rename id) = isRequestStep index id) :
    referenceProblem lib index' (rewiredRead rename id) = [] ↔ referenceProblem lib index id = [] := by
  unfold referenceProblem rewiredRead
  by_cases hid : id = ""
  · rw [if_pos hid, if_neg (fun h => h.1 hid), if_neg (fun h => h.1 hid)]
  · rw [if_neg hid, hrequest hid]
    have hboth := hne hid
    split_ifs with hfirst hsecond hsecond
    · simp
    · exact absurd ⟨hid, hfirst.2⟩ hsecond
    · exact absurd ⟨hboth, hsecond.2⟩ hfirst
    · simp

end Values

section Same

variable {lib : Library} {target rename : String → String} {scope scope' : Scope} {id id' : String}

theorem inputProblem_same {request : Option SavedRequest} {input : StepInput}
    (h : input.value.reading.step ≠ "" → SameReading rename scope scope' id id' input.value.reading.step) :
    inputProblem lib id' scope'.index request scope'.index.keys { input with value := input.value.rewired rename } = [] ↔
      inputProblem lib id scope.index request scope.index.keys input = [] := by
  have hown := @valueProblems_same lib rename scope.index scope'.index input.value (fun hstep => (h hstep).ne_empty)
    fun hstep => (h hstep).request
  unfold inputProblem
  simp only
  rw [name_rewired, step_rewired]
  by_cases htarget : input.target ∉ inputTargets
  · rw [if_pos htarget, if_pos htarget]
  rw [if_neg htarget, if_neg htarget]
  by_cases hname : input.value.name = ""
  · rw [if_pos hname, if_pos hname]
  rw [if_neg hname, if_neg hname]
  by_cases hvalue : valueProblems lib scope.index input.value = []
  · have hplace : placeProblems lib { input with value := input.value.rewired rename } request =
        placeProblems lib input request := by
      unfold placeProblems
      simp only [name_rewired]
    rw [if_neg (not_not.2 hvalue), if_neg (not_not.2 (hown.2 hvalue)), hplace]
    unfold rewiredRead
    by_cases hstep : input.value.reading.step = ""
    · rw [if_pos hstep, if_neg (fun hboth => hboth.1 hstep), if_neg (fun hboth => hboth.1 hstep),
        if_neg (fun hboth => hboth.1 hstep), if_neg (fun hboth => hboth.1 hstep)]
    · have hsame := h hstep
      rw [if_neg hstep, hsame.before, hsame.sibling (isRequestStep_of_valueProblems hvalue hstep)]
      simp only [ne_eq, hsame.ne_empty, hstep, not_false_eq_true, true_and]
      split_ifs <;> simp
  · rw [if_pos hvalue, if_pos (fun heq => hvalue (hown.1 heq))]
    exact hown

theorem inputProblems_same {request : Option SavedRequest} {inputs : List StepInput}
    (h : ∀ input ∈ inputs, input.value.reading.step ≠ "" →
      SameReading rename scope scope' id id' input.value.reading.step) :
    inputProblems lib id' (inputs.map fun input => { input with value := input.value.rewired rename }) scope'.index request
        scope'.index.keys = [] ↔
      inputProblems lib id inputs scope.index request scope.index.keys = [] := by
  unfold inputProblems
  rw [List.flatMap_map, List.flatMap_eq_nil_iff, List.flatMap_eq_nil_iff]
  exact forall₂_congr fun input hinput => inputProblem_same (h input hinput)

/-- The problems of a kind, for a step that is checked in two scopes. -/
theorem kindProblems_same {step step' : Step} (hid : step.head.id = id) (hid' : step'.head.id = id')
    (hfields : step'.head.fields = step.head.fields.rerouted target rename)
    (hinner : step'.inner.length = step.inner.length) (hrequests : scope'.requests = scope.requests)
    (hflows : ∀ fields, flowProblems lib fields scope' = [] ↔ flowProblems lib fields scope = [])
    (h : ∀ read ∈ readsOf step.head.fields, read ≠ "" → SameReading rename scope scope' id id' read) :
    kindProblems lib step' scope' = [] ↔ kindProblems lib step scope = [] := by
  have hresponse : ∀ (source : ConditionSource) (read : String), (read ≠ "" → SameReading rename scope scope' id id' read) →
      (responseReference lib scope'.index source (rewiredRead rename read) = [] ↔
        responseReference lib scope.index source read = []) := by
    intro source read hread
    unfold responseReference
    split_ifs with hsource
    · exact referenceProblem_same (fun hne => (hread hne).ne_empty) fun hne => (hread hne).request
    · exact Iff.rfl
  unfold kindProblems
  rw [hfields, hinner]
  cases hkind : step.head.fields with
  | request fields =>
    rw [hkind] at h
    have hinputs := @inputProblems_same lib rename scope scope' id id' (resolveRequest fields scope.requests) fields.inputs
      fun input hinput => h _ (List.mem_map.2 ⟨input, hinput, rfl⟩)
    change requestProblems lib fields scope'.requests ++ inputProblems lib step'.head.id _ scope'.index
      (resolveRequest fields scope'.requests) scope'.index.keys = [] ↔ _
    simp only
    rw [hrequests, hid', hid, List.append_eq_nil_iff, List.append_eq_nil_iff, hinputs]
  | setStep values =>
    rw [hkind] at h
    change (values.map (NamedValue.rewired rename)).flatMap (valueProblems lib scope'.index) = [] ↔ _
    simp only
    rw [List.flatMap_map, List.flatMap_eq_nil_iff, List.flatMap_eq_nil_iff]
    apply forall₂_congr
    intro value hvalue
    have hread := h _ (List.mem_map.2 ⟨value, hvalue, rfl⟩)
    exact valueProblems_same (fun hne => (hread hne).ne_empty) fun hne => (hread hne).request
  | ifStep fields =>
    rw [hkind] at h
    have hread := hresponse fields.source fields.step (h _ List.mem_cons_self)
    change _ ++ responseReference lib scope'.index fields.source (rewiredRead rename fields.step) = [] ↔ _
    simp only
    rw [List.append_eq_nil_iff, List.append_eq_nil_iff, hread]
  | switch fields =>
    rw [hkind] at h
    have hread := hresponse fields.source fields.step (h _ List.mem_cons_self)
    change (if (fields.cases.map _).length > 0 then caseProblems lib (fields.cases.map _) else _) ++
      responseReference lib scope'.index fields.source (rewiredRead rename fields.step) = [] ↔ _
    simp only
    rw [List.length_map, caseProblems_retargeted, List.append_eq_nil_iff, List.append_eq_nil_iff, hread]
  | forEach fields =>
    rw [hkind] at h
    have hread := h fields.step List.mem_cons_self
    have hlist : (if rewiredRead rename fields.step ≠ "" then
        referenceProblem lib scope'.index (rewiredRead rename fields.step) else [lib.say .noList]) = [] ↔
        (if fields.step ≠ "" then referenceProblem lib scope.index fields.step else [lib.say .noList]) = [] := by
      by_cases hstep : fields.step = ""
      · have hsame : rewiredRead rename fields.step = "" := (if_pos hstep).trans hstep
        rw [hsame, if_neg (not_not.2 rfl), if_neg (not_not.2 hstep)]
      · have hne : rewiredRead rename fields.step ≠ "" := by
          unfold rewiredRead
          rw [if_neg hstep]
          exact (hread hstep).ne_empty
        rw [if_pos hne, if_pos hstep]
        exact referenceProblem_same (fun hne => (hread hne).ne_empty) fun hne => (hread hne).request
    change ((if rewiredRead rename fields.step ≠ "" then _ else _) ++ _) ++ _ = [] ↔ _
    simp only [List.append_eq_nil_iff]
    rw [hlist]
  | repeatStep fields =>
    rw [hkind] at h
    have hread := hresponse fields.source fields.step (h _ List.mem_cons_self)
    have hactive : (if hasActiveCondition fields.til then
        responseReference lib scope'.index fields.source (rewiredRead rename fields.step) else []) = [] ↔
        (if hasActiveCondition fields.til then responseReference lib scope.index fields.source fields.step else []) = [] := by
      split_ifs
      · exact hread
      · exact Iff.rfl
    change _ ++ (if hasActiveCondition fields.til then
      responseReference lib scope'.index fields.source (rewiredRead rename fields.step) else []) = [] ↔ _
    simp only [List.append_eq_nil_iff]
    rw [hactive]
  | flow fields => exact hflows fields
  | _ => exact Iff.rfl

end Same

/-! ## The flow with the new id -/

/-- The steps of `renameStep` with the new id. -/
def renamedSteps (source target : String) (steps : List Step) : List Step :=
  mapSteps (renamedReferences source target) steps

theorem kind_renamedReferences (source target : String) (head : StepHead) :
    (renamedReferences source target head).kind = head.kind :=
  kind_rerouted (renamedId source target) (renamedId source target) head.fields

theorem places_renamed (source target : String) (steps : List Step) :
    places (renamedSteps source target steps) =
      (places steps).map (Place.mapped (renamedReferences source target) (renamedId source target)) :=
  places_mapSteps (fun _ => rfl) (kind_renamedReferences source target) steps

theorem ids_renamed (source target : String) (steps : List Step) :
    allStepIds (renamedSteps source target steps) = (allStepIds steps).map (renamedId source target) := by
  rw [allStepIds_eq_places, allStepIds_eq_places, places_renamed, List.map_map, List.map_map]
  rfl

theorem mapped_mem {source target : String} {steps : List Step} {place : Place} (h : place ∈ places steps) :
    place.mapped (renamedReferences source target) (renamedId source target) ∈
      places (renamedSteps source target steps) := by
  rw [places_renamed]
  exact List.mem_map_of_mem h

theorem mem_ids_of_place {steps : List Step} {place : Place} (h : place ∈ places steps) :
    place.head.id ∈ allStepIds steps := by
  rw [allStepIds_eq_places]
  exact List.mem_map_of_mem h

/-- A reference that is not mixed up with another one under the new id. -/
def Kept (ids : List String) (source target reference : String) : Prop :=
  ∀ id ∈ ids, renamedId source target id = renamedId source target reference → id = reference

theorem kept_of {ids : List String} {source target reference : String} (hnew : target ∉ ids)
    (h : reference = target → source ∉ ids) : Kept ids source target reference := by
  intro id hid heq
  unfold renamedId at heq
  split_ifs at heq with hsource hreference hreference
  · rw [hsource, hreference]
  · exact absurd (hsource ▸ hid) (h heq.symm)
  · exact absurd (heq ▸ hid) hnew
  · exact heq

theorem kept_of_mem {ids : List String} {source target reference : String} (hnew : target ∉ ids) (h : reference ∈ ids) :
    Kept ids source target reference :=
  kept_of hnew fun heq => absurd (heq ▸ h) hnew

theorem findIdx?_renamed {ids : List String} {source target reference : String} (hkept : Kept ids source target reference) :
    (ids.map (renamedId source target)).findIdx? (fun id => decide (id = renamedId source target reference)) =
      ids.findIdx? fun id => decide (id = reference) := by
  induction ids with
  | nil => rfl
  | cons id rest ih =>
    have hhead : renamedId source target id = renamedId source target reference ↔ id = reference :=
      ⟨hkept id List.mem_cons_self, fun heq => heq ▸ rfl⟩
    rw [List.map_cons, List.findIdx?_cons, List.findIdx?_cons, ih fun other hother => hkept other (List.mem_cons_of_mem _ hother),
      decide_eq_decide.2 hhead]

section Renaming

variable {flow : Flow} (hnamed : Named flow.steps) {source target : String} (hnew : target ∉ allStepIds flow.steps)
  (hempty : target ≠ "")

include hnew

theorem renamedId_inj {first second : String} (hfirst : first ∈ allStepIds flow.steps)
    (hsecond : second ∈ allStepIds flow.steps) (h : renamedId source target first = renamedId source target second) :
    first = second :=
  kept_of_mem hnew hsecond first hfirst h

include hnamed hempty

theorem named_renamed : Named (renamedSteps source target flow.steps) := by
  have hids := ids_renamed source target flow.steps
  constructor
  · rw [hids]
    exact List.Nodup.map_on (fun _ hfirst _ hsecond heq => renamedId_inj hnew hfirst hsecond heq) hnamed.nodup
  · intro id hid
    rw [hids] at hid
    obtain ⟨old, hold, rfl⟩ := List.mem_map.1 hid
    unfold renamedId
    split_ifs with hsource
    · exact hempty
    · exact hnamed.ne_empty old hold

theorem isRequestStep_renamed {reference : String} (hkept : Kept (allStepIds flow.steps) source target reference) :
    isRequestStep (indexSteps (renamedSteps source target flow.steps)) (renamedId source target reference) =
      isRequestStep (indexSteps flow.steps) reference := by
  apply Bool.eq_iff_iff.2
  rw [(named_renamed hnamed hnew hempty).isRequestStep_iff, hnamed.isRequestStep_iff, places_renamed]
  constructor
  · rintro ⟨found, hfound, hid, hkind⟩
    obtain ⟨place, hplace, rfl⟩ := List.mem_map.1 hfound
    exact ⟨place, hplace, hkept _ (mem_ids_of_place hplace) hid, (kind_renamedReferences source target place.head).symm.trans hkind⟩
  · rintro ⟨place, hplace, hid, hkind⟩
    refine ⟨_, List.mem_map_of_mem hplace, ?_, (kind_renamedReferences source target place.head).trans hkind⟩
    exact congrArg (renamedId source target) hid

theorem runsBefore_renamed {reference id : String} (hid : id ∈ allStepIds flow.steps)
    (hkept : Kept (allStepIds flow.steps) source target reference) :
    runsBefore (indexSteps (renamedSteps source target flow.steps)).keys (renamedId source target reference)
        (renamedId source target id) =
      runsBefore (indexSteps flow.steps).keys reference id := by
  have hfirst := findIdx?_renamed hkept
  have hsecond := @findIdx?_renamed (allStepIds flow.steps) source target id (kept_of_mem hnew hid)
  rw [(named_renamed hnamed hnew hempty).keys_indexSteps, hnamed.keys_indexSteps, ids_renamed]
  unfold runsBefore
  simp only [hfirst, hsecond]

theorem isBranch_renamed {place : Place} (hplace : place ∈ places flow.steps) :
    isBranch (indexSteps (renamedSteps source target flow.steps)) (renamedId source target place.head.id) =
      isBranch (indexSteps flow.steps) place.head.id := by
  have hresult := @named_renamed _ hnamed source _ hnew hempty
  apply Bool.eq_iff_iff.2
  have hbranch := hresult.isBranch_iff (mapped_mem hplace)
  change isBranch _ (renamedId source target place.head.id) = true ↔ _ at hbranch
  rw [hbranch, hnamed.isBranch_iff hplace]
  change (∃ outer ∈ places _, outer.head.id = lastId (place.trail.map (renamedId source target)) ∧ _) ↔ _
  by_cases hnil : place.trail = []
  · rw [hnil, List.map_nil, lastId_nil]
    constructor
    · rintro ⟨outer, houter, hid, -⟩
      exact absurd hid (hresult.ne_empty _ (mem_ids_of_place houter))
    · rintro ⟨outer, houter, hid, -⟩
      exact absurd hid (hnamed.ne_empty _ (mem_ids_of_place houter))
  · have hlast := mem_ids_of_trail hplace _ (lastId_mem hnil)
    rw [lastId_map _ hnil, places_renamed]
    constructor
    · rintro ⟨outer, houter, hid, hkind⟩
      obtain ⟨old, hold, rfl⟩ := List.mem_map.1 houter
      exact ⟨old, hold, renamedId_inj hnew (mem_ids_of_place hold) hlast hid,
        (kind_renamedReferences source target old.head).symm.trans hkind⟩
    · rintro ⟨outer, houter, hid, hkind⟩
      refine ⟨_, List.mem_map_of_mem houter, ?_, (kind_renamedReferences source target outer.head).trans hkind⟩
      exact congrArg (renamedId source target) hid

theorem isSibling_renamed {first second : Place} (hfirst : first ∈ places flow.steps) (hsecond : second ∈ places flow.steps) :
    isSibling (indexSteps (renamedSteps source target flow.steps)) (renamedId source target first.head.id)
        (renamedId source target second.head.id) =
      isSibling (indexSteps flow.steps) first.head.id second.head.id := by
  have hresult := @named_renamed _ hnamed source _ hnew hempty
  have hsibling := hresult.isSibling_iff (mapped_mem hfirst) (mapped_mem hsecond)
  change isSibling _ (renamedId source target first.head.id) (renamedId source target second.head.id) = true ↔
    isBranch _ (renamedId source target first.head.id) = true ∧
      lastId (first.trail.map (renamedId source target)) = lastId (second.trail.map (renamedId source target)) at hsibling
  apply Bool.eq_iff_iff.2
  rw [hsibling, hnamed.isSibling_iff hfirst hsecond, isBranch_renamed hnamed hnew hempty hfirst]
  apply and_congr_right
  intro hbranch
  obtain ⟨outer, houter, hid, -⟩ := (hnamed.isBranch_iff hfirst).1 hbranch
  have hnil : first.trail ≠ [] := by
    intro hnil
    rw [hnil, lastId_nil] at hid
    exact hnamed.ne_empty _ (mem_ids_of_place houter) hid
  rw [lastId_map _ hnil]
  by_cases hroot : second.trail = []
  · rw [hroot, List.map_nil, lastId_nil]
    have hlast := mem_ids_of_trail hfirst _ (lastId_mem hnil)
    constructor
    · intro heq
      have hmem := @List.mem_map_of_mem _ _ _ _ (renamedId source target) hlast
      rw [← ids_renamed, heq] at hmem
      exact absurd rfl (hresult.ne_empty "" hmem)
    · intro heq
      exact absurd heq (hnamed.ne_empty _ hlast)
  · rw [lastId_map _ hroot]
    exact ⟨renamedId_inj hnew (mem_ids_of_trail hfirst _ (lastId_mem hnil)) (mem_ids_of_trail hsecond _ (lastId_mem hroot)),
      congrArg (renamedId source target)⟩

omit hnamed hempty in
theorem canReach_renamed {place : Place} (hplace : place ∈ places flow.steps) {reference : String}
    (hkept : Kept (allStepIds flow.steps) source target reference)
    (hstop : renamedId source target reference = endTarget ↔ reference = endTarget) :
    CanReach (places (renamedSteps source target flow.steps))
        (place.mapped (renamedReferences source target) (renamedId source target)) (renamedId source target reference) ↔
      CanReach (places flow.steps) place reference := by
  unfold CanReach
  rw [hstop, places_renamed]
  apply or_congr_right
  constructor
  · rintro ⟨goal, hgoal, hid, hsub⟩
    obtain ⟨old, hold, rfl⟩ := List.mem_map.1 hgoal
    refine ⟨old, hold, hkept _ (mem_ids_of_place hold) hid, ?_⟩
    intro loop hloop
    obtain ⟨other, hother, heq⟩ := List.mem_map.1 (hsub (List.mem_map_of_mem hloop))
    rw [← renamedId_inj hnew (mem_ids_of_trail hplace _ hother) (mem_ids_of_trail hold _ hloop) heq]
    exact hother
  · rintro ⟨goal, hgoal, hid, hsub⟩
    refine ⟨_, List.mem_map_of_mem hgoal, congrArg (renamedId source target) hid, ?_⟩
    intro loop hloop
    obtain ⟨other, hother, rfl⟩ := List.mem_map.1 hloop
    exact List.mem_map_of_mem (hsub hother)

/-- What a step may read is the same under the new id. -/
theorem sameReading_renamed {requests : List SavedRequest} {flows : List StoredFlow} {place : Place}
    (hplace : place ∈ places flow.steps) {read : String} (hread : read ≠ "")
    (hkept : Kept (allStepIds flow.steps) source target read) :
    SameReading (renamedId source target) (flowScope flow requests flows)
      (flowScope { flow with steps := renamedSteps source target flow.steps } requests flows) place.head.id
      (renamedId source target place.head.id) read where
  ne_empty := by
    unfold renamedId
    split_ifs
    · exact hempty
    · exact hread
  request := isRequestStep_renamed hnamed hnew hempty hkept
  before := runsBefore_renamed hnamed hnew hempty (mem_ids_of_place hplace) hkept
  sibling hstep := by
    obtain ⟨other, hother, rfl, -⟩ := (hnamed.isRequestStep_iff read).1 hstep
    exact isSibling_renamed hnamed hnew hempty hother hplace

omit hnamed hnew hempty in
theorem flowProblems_renamed {lib : Library} {requests : List SavedRequest} {flows : List StoredFlow} (fields : FlowFields) :
    flowProblems lib fields (flowScope { flow with steps := renamedSteps source target flow.steps } requests flows) = [] ↔
      flowProblems lib fields (flowScope flow requests flows) = [] :=
  ⟨flowProblems_same (sameFlows_withSteps { flow with steps := renamedSteps source target flow.steps } flow.steps requests flows),
    flowProblems_same (sameFlows_withSteps flow (renamedSteps source target flow.steps) requests flows)⟩

variable (hend : target ≠ endTarget)

include hend

omit hnamed hnew in
/-- A reference that names a step by its syntax still does. -/
theorem renamedId_plain {reference : String} (h : reference = source → source ≠ "" ∧ source ≠ endTarget) :
    (renamedId source target reference = "" ↔ reference = "") ∧
      (renamedId source target reference = endTarget ↔ reference = endTarget) := by
  unfold renamedId
  split_ifs with hsource
  · rw [hsource]
    exact ⟨iff_of_false hempty (h hsource).1, iff_of_false hend (h hsource).2⟩
  · exact ⟨Iff.rfl, Iff.rfl⟩

theorem targetProblems_renamed {lib : Library} {spot found : WalkSpot} (hspot : spot ∈ trailWalk flow.steps)
    (hfound : found ∈ trailWalk (renamedSteps source target flow.steps))
    (hplace : placeOf found = (placeOf spot).mapped (renamedReferences source target) (renamedId source target))
    (hroutes : ∀ route ∈ routesOf spot.item, Kept (allStepIds flow.steps) source target route.2 ∧
      (route.2 = source → source ≠ "" ∧ source ≠ endTarget)) :
    targetProblems lib (indexSteps (renamedSteps source target flow.steps)) found.item = [] ↔
      targetProblems lib (indexSteps flow.steps) spot.item = [] := by
  have hspotPlace := place_mem_of_spot hspot
  have hfoundTargets : (placeOf found).targets = targetsOf found.item := targetsOf_congr rfl
  have hspotTargets : (placeOf spot).targets = targetsOf spot.item := targetsOf_congr rfl
  have hhead : found.item.head = renamedReferences source target spot.item.head := congrArg Place.head hplace
  have hfields : found.item.head.fields =
      spot.item.head.fields.rerouted (renamedId source target) (renamedId source target) := congrArg StepHead.fields hhead
  have hnext : found.item.head.next = renamedId source target spot.item.head.next := congrArg StepHead.next hhead
  have hmapped := routesOf_rerouted hfields hnext
  have hreach : ∀ route ∈ routesOf spot.item,
      (CanReach (places (renamedSteps source target flow.steps)) (placeOf found) (renamedId source target route.2) ↔
        CanReach (places flow.steps) (placeOf spot) route.2) := by
    intro route hroute
    rw [hplace]
    exact canReach_renamed hnew hspotPlace (hroutes route hroute).1 (renamedId_plain hempty hend (hroutes route hroute).2).2
  rw [(named_renamed hnamed hnew hempty).targetProblems_eq_nil_iff lib (place_mem_of_spot hfound) rfl,
    hnamed.targetProblems_eq_nil_iff lib hspotPlace rfl, hfoundTargets, hspotTargets]
  unfold targetsOf
  rw [hmapped]
  constructor
  · intro h route hroute
    obtain ⟨hmem, hne⟩ := List.mem_filter.1 hroute
    apply (hreach route hmem).1
    apply h (route.1, renamedId source target route.2)
    refine List.mem_filter.2 ⟨List.mem_map.2 ⟨route, hmem, rfl⟩, decide_eq_true ?_⟩
    exact fun heq => of_decide_eq_true hne ((renamedId_plain hempty hend (hroutes route hmem).2).1.1 heq)
  · intro h route hroute
    obtain ⟨hmem, hne⟩ := List.mem_filter.1 hroute
    obtain ⟨old, hold, rfl⟩ := List.mem_map.1 hmem
    apply (hreach old hold).2
    apply h old
    refine List.mem_filter.2 ⟨hold, decide_eq_true ?_⟩
    exact fun heq => of_decide_eq_true hne ((renamedId_plain hempty hend (hroutes old hold).2).1.2 heq)

/-- A step has a problem under the new id just when it had one. -/
theorem stepProblems_renamed {lib : Library} {requests : List SavedRequest} {flows : List StoredFlow} {spot found : WalkSpot}
    (hspot : spot ∈ trailWalk flow.steps) (hfound : found ∈ trailWalk (renamedSteps source target flow.steps))
    (hplace : placeOf found = (placeOf spot).mapped (renamedReferences source target) (renamedId source target))
    (hroutes : ∀ route ∈ routesOf spot.item, Kept (allStepIds flow.steps) source target route.2 ∧
      (route.2 = source → source ≠ "" ∧ source ≠ endTarget))
    (hreads : ∀ read ∈ readsOf spot.item.head.fields, Kept (allStepIds flow.steps) source target read) :
    stepProblems lib found.item (flowScope { flow with steps := renamedSteps source target flow.steps } requests flows) = [] ↔
      stepProblems lib spot.item (flowScope flow requests flows) = [] := by
  have hspotPlace := place_mem_of_spot hspot
  have hhead : found.item.head = renamedReferences source target spot.item.head := congrArg Place.head hplace
  have hinner : found.item.inner.length = spot.item.inner.length := congrArg Place.inner hplace
  have hid : found.item.head.id = renamedId source target spot.item.head.id := congrArg StepHead.id hhead
  have hfields : found.item.head.fields =
      spot.item.head.fields.rerouted (renamedId source target) (renamedId source target) := congrArg StepHead.fields hhead
  have hnext : found.item.head.next = renamedId source target spot.item.head.next := congrArg StepHead.next hhead
  have hkind := kind_of_rerouted hfields
  have hbranch : isBranch (indexSteps (renamedSteps source target flow.steps)) found.item.head.id =
      isBranch (indexSteps flow.steps) spot.item.head.id := by
    rw [hid]
    exact isBranch_renamed hnamed hnew hempty hspotPlace
  have hbranches : branchProblems lib found.item
      (flowScope { flow with steps := renamedSteps source target flow.steps } requests flows) =
        branchProblems lib spot.item (flowScope flow requests flows) :=
    branchProblems_rerouted hfields hnext
      (fun route hroute => (renamedId_plain hempty hend (hroutes route hroute).2).1) hbranch
  have hown : kindProblems lib found.item
      (flowScope { flow with steps := renamedSteps source target flow.steps } requests flows) = [] ↔
        kindProblems lib spot.item (flowScope flow requests flows) = [] :=
    kindProblems_same rfl hid hfields hinner rfl flowProblems_renamed fun read hread hne =>
      sameReading_renamed hnamed hnew hempty hspotPlace hne (hreads read hread)
  have htargets := @targetProblems_renamed flow hnamed source target hnew hempty hend lib spot found hspot hfound hplace hroutes
  unfold stepProblems
  rw [hkind, hbranches]
  cases hstep : spot.item.head.kind with
  | unknown name => simp
  | _ =>
    simp only [List.append_eq_nil_iff]
    rw [hown]
    split_ifs
    · exact Iff.rfl
    · exact and_congr_right fun _ => htargets

end Renaming

end Gostman.Flows
