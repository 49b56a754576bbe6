import Gostman.Flows.Renaming
/-!
# Renaming a step

The references of the steps follow the new id, but the outputs of the flow keep
reading the old one, and a reference that led nowhere is caught by the new id.
-/

namespace Gostman.Flows

open Gostman.Lib

/-! ## What a pure renaming is -/

/-- Everything in a step that names a step: its targets and what it reads. -/
def referencesOf (step : Step) : List String :=
  (routesOf step).map Prod.snd ++ readsOf step.head.fields

def leadsTo (ids : List String) (reference : String) : Option String :=
  if reference ∈ ids then some reference else none

/-- The flow has a problem at a place: a step, or the flow itself for the empty
id. -/
def HasProblem (lib : Library) (flow : Flow) (requests : List SavedRequest) (flows : List StoredFlow) (place : String) :
    Prop :=
  ∃ problem ∈ validateFlow lib flow requests flows, problem.step = place

structure PureRenaming (lib : Library) (requests : List SavedRequest) (flows : List StoredFlow) (flow : Flow)
    (source : String) (result : Flow × String) : Prop where
  unique : (allStepIds result.1.steps).Nodup
  references : ((walkSteps result.1.steps "").map fun entry =>
      (referencesOf entry.item).map (leadsTo (allStepIds result.1.steps))) =
    (walkSteps flow.steps "").map fun entry => (referencesOf entry.item).map fun reference =>
      (leadsTo (allStepIds flow.steps) reference).map (renamedId source result.2)
  outputs : (result.1.outputs.map fun output => leadsTo (allStepIds result.1.steps) output.reading.step) =
    flow.outputs.map fun output =>
      (leadsTo (allStepIds flow.steps) output.reading.step).map (renamedId source result.2)
  flowProblem : HasProblem lib result.1 requests flows "" ↔ HasProblem lib flow requests flows ""
  stepProblem : ∀ id ∈ allStepIds flow.steps,
    (HasProblem lib result.1 requests flows (renamedId source result.2 id) ↔ HasProblem lib flow requests flows id)

/-- When renaming a step to `target` does nothing else.  Where no step of the
old id is there, only the targets that the flow does not take for steps matter. -/
def RenamesAlone (lib : Library) (requests : List SavedRequest) (flows : List StoredFlow) (flow : Flow)
    (source target : String) : Prop :=
  target = source ∨
    (source ∈ allStepIds flow.steps ∧
      (∀ output ∈ flow.outputs, output.reading.step ≠ source ∧ output.reading.step ≠ target) ∧
        ∀ entry ∈ walkSteps flow.steps "", target ∉ referencesOf entry.item) ∨
    (source ∉ allStepIds flow.steps ∧ (source = "" ∨ source = endTarget →
      ∀ entry ∈ walkSteps flow.steps "", (∃ route ∈ routesOf entry.item, route.2 = source) →
        HasProblem lib flow requests flows entry.item.head.id))

/-! ## Where there are problems -/

theorem hasProblem_empty_iff {lib : Library} {flow : Flow} {requests : List SavedRequest} {flows : List StoredFlow}
    (hnamed : Named flow.steps) : HasProblem lib flow requests flows "" ↔
      (flow.steps ≠ [] → ¬(declaredProblems lib flow = [] ∧ outputProblems lib flow (indexSteps flow.steps) = [])) := by
  unfold HasProblem validateFlow
  by_cases hnone : flow.steps.length = 0
  · rw [if_pos hnone]
    exact ⟨fun _ hne => absurd (List.length_eq_zero_iff.1 hnone) hne, fun _ => ⟨_, List.mem_cons_self, rfl⟩⟩
  · rw [if_neg hnone, ← List.append_eq_nil_iff]
    have hne : flow.steps ≠ [] := fun h => hnone (List.length_eq_zero_iff.2 h)
    constructor
    · rintro ⟨problem, hproblem, hplace⟩ _ hempty
      rcases List.mem_append.1 hproblem with hfirst | hstep
      · obtain ⟨message, hmessage, -⟩ := List.mem_map.1 hfirst
        change message ∈ declaredProblems lib flow ++ outputProblems lib flow (indexSteps flow.steps) at hmessage
        rw [hempty] at hmessage
        cases hmessage
      · obtain ⟨entry, hentry, hin⟩ := List.mem_flatMap.1 hstep
        obtain ⟨message, -, rfl⟩ := List.mem_map.1 hin
        exact hnamed.ne_empty entry.item.head.id (List.mem_map_of_mem hentry) hplace
    · intro h
      obtain ⟨message, hmessage⟩ := List.exists_mem_of_ne_nil _ (h hne)
      exact ⟨⟨"", message⟩, List.mem_append_left _ (List.mem_map_of_mem hmessage), rfl⟩

theorem hasProblem_iff {lib : Library} {flow : Flow} {requests : List SavedRequest} {flows : List StoredFlow}
    (hnamed : Named flow.steps) {spot : WalkSpot} (hspot : spot ∈ trailWalk flow.steps) :
    HasProblem lib flow requests flows spot.item.head.id ↔
      ¬(stepProblems lib spot.item (flowScope flow requests flows) = [] ∧
        shapeProblems lib spot.item (flow.vars.map Declared.name) = []) := by
  have hne : flow.steps ≠ [] := by
    rintro hnil
    rw [hnil] at hspot
    cases hspot
  unfold HasProblem validateFlow
  rw [if_neg (fun h => hne (List.length_eq_zero_iff.1 h)), ← List.append_eq_nil_iff, walkSteps_eq]
  constructor
  · rintro ⟨problem, hproblem, hplace⟩ hempty
    rcases List.mem_append.1 hproblem with hfirst | hstep
    · obtain ⟨message, -, rfl⟩ := List.mem_map.1 hfirst
      exact hnamed.id_ne_empty hspot hplace.symm
    · obtain ⟨entry, hentry, hin⟩ := List.mem_flatMap.1 hstep
      obtain ⟨other, hother, rfl⟩ := List.mem_map.1 hentry
      obtain ⟨message, hmessage, rfl⟩ := List.mem_map.1 hin
      rw [hnamed.spot_unique hother hspot hplace] at hmessage
      change message ∈ stepProblems lib spot.item (flowScope flow requests flows) ++
        shapeProblems lib spot.item (flow.vars.map Declared.name) at hmessage
      rw [hempty] at hmessage
      cases hmessage
  · intro h
    obtain ⟨message, hmessage⟩ := List.exists_mem_of_ne_nil _ h
    refine ⟨⟨spot.item.head.id, message⟩, List.mem_append_right _ ?_, rfl⟩
    exact List.mem_flatMap.2 ⟨_, List.mem_map_of_mem hspot, List.mem_map_of_mem hmessage⟩

/-! ## Where the references lead -/

theorem leadsTo_renamed {ids : List String} {source target reference : String} (hkept : Kept ids source target reference) :
    leadsTo (ids.map (renamedId source target)) (renamedId source target reference) =
      (leadsTo ids reference).map (renamedId source target) := by
  unfold leadsTo
  by_cases hmem : reference ∈ ids
  · rw [if_pos hmem, if_pos (List.mem_map_of_mem hmem)]
    rfl
  · rw [if_neg hmem, if_neg]
    · rfl
    · intro hin
      obtain ⟨id, hid, heq⟩ := List.mem_map.1 hin
      exact hmem (hkept id hid heq ▸ hid)

theorem readsOf_rerouted (target rename : String → String) (fields : Fields) :
    readsOf (fields.rerouted target rename) = (readsOf fields).map (rewiredRead rename) := by
  cases fields with
  | request fields =>
    change (fields.inputs.map _).map (fun input : StepInput => input.value.reading.step) = (fields.inputs.map _).map _
    rw [List.map_map, List.map_map]
    exact List.map_congr_left fun input _ => step_rewired rename input.value
  | setStep values =>
    change (values.map _).map (fun value : NamedValue => value.reading.step) = (values.map _).map _
    rw [List.map_map, List.map_map]
    exact List.map_congr_left fun value _ => step_rewired rename value
  | _ => rfl

theorem referencesOf_congr {first second : Step} (h : first.head = second.head) : referencesOf first = referencesOf second := by
  unfold referencesOf
  rw [routesOf_congr h, h]

theorem map_references (lead : String → Option String) (steps : List Step) :
    ((walkSteps steps "").map fun entry => (referencesOf entry.item).map lead) =
      (places steps).map fun place => (referencesOf (.node place.head [])).map lead := by
  rw [walkSteps_eq, ← map_placeOf_trailWalk, List.map_map, List.map_map]
  apply List.map_congr_left
  intro spot _
  exact congrArg (List.map lead) (referencesOf_congr rfl)

/-- The references of a renamed step one by one. -/
theorem references_renamed_iff {source target : String} {head : StepHead} {lead lead' : String → Option String} :
    (referencesOf (.node (renamedReferences source target head) [])).map lead' =
        (referencesOf (.node head [])).map lead ↔
      (∀ route ∈ routesOf (.node head []), lead' (renamedId source target route.2) = lead route.2) ∧
        ∀ read ∈ readsOf head.fields, lead' (rewiredRead (renamedId source target) read) = lead read := by
  have hroutes := @routesOf_rerouted (renamedId source target) (renamedId source target) (.node head [])
    (.node (renamedReferences source target head) []) rfl rfl
  have hreads := readsOf_rerouted (renamedId source target) (renamedId source target) head.fields
  unfold referencesOf
  rw [hroutes]
  change (_ ++ readsOf (head.fields.rerouted (renamedId source target) (renamedId source target))).map lead' =
    (_ ++ readsOf head.fields).map lead ↔ _
  rw [hreads, List.map_append, List.map_append, List.map_map, List.map_map, List.map_map, List.map_map]
  have hsplit : ∀ {first second third fourth : List (Option String)}, first.length = third.length →
      (first ++ second = third ++ fourth ↔ first = third ∧ second = fourth) := by
    intro first second third fourth hlength
    exact ⟨fun h => List.append_inj h hlength, fun h => by rw [h.1, h.2]⟩
  rw [hsplit (by rw [List.length_map, List.length_map]), List.map_inj_left, List.map_inj_left]
  exact Iff.rfl

theorem isRequestStep_of_notMem {steps : List Step} (hnamed : Named steps) {id : String} (h : id ∉ allStepIds steps) :
    isRequestStep (indexSteps steps) id = false := by
  rw [← Bool.not_eq_true, hnamed.isRequestStep_iff]
  rintro ⟨place, hplace, rfl, -⟩
  exact h (mem_ids_of_place hplace)

theorem renamedId_self (source id : String) : renamedId source source id = id := by
  unfold renamedId
  split_ifs with h
  · exact h.symm
  · rfl

theorem pureRenaming_self (lib : Library) (requests : List SavedRequest) (flows : List StoredFlow) {flow : Flow}
    (hnamed : Named flow.steps) (source : String) : PureRenaming lib requests flows flow source (flow, source) := by
  have hself : renamedId source source = id := funext (renamedId_self source)
  refine ⟨hnamed.nodup, ?_, ?_, Iff.rfl, ?_⟩
  · simp only [hself, Option.map_id, id_eq]
  · simp only [hself, Option.map_id, id_eq]
  · intro id _
    rw [renamedId_self]

section Leads

variable {flow : Flow} (hnamed : Named flow.steps) {source target : String} (hne : target ≠ source)
  (hnew : target ∉ allStepIds flow.steps) (hempty : target ≠ "") (hend : target ≠ endTarget)

include hnew

omit hnew in
theorem mem_ids_renamed_iff {id : String} : id ∈ allStepIds (renamedSteps source target flow.steps) ↔
    ∃ old ∈ allStepIds flow.steps, renamedId source target old = id := by
  rw [ids_renamed, List.mem_map]

theorem new_mem_iff : target ∈ allStepIds (renamedSteps source target flow.steps) ↔ source ∈ allStepIds flow.steps := by
  rw [mem_ids_renamed_iff]
  constructor
  · rintro ⟨old, hold, heq⟩
    unfold renamedId at heq
    split_ifs at heq with hsource
    · exact hsource ▸ hold
    · exact absurd (heq ▸ hold) hnew
  · intro hmem
    exact ⟨source, hmem, if_pos rfl⟩

omit hnew in
include hne in
theorem old_notMem : source ∉ allStepIds (renamedSteps source target flow.steps) := by
  rw [mem_ids_renamed_iff]
  rintro ⟨old, hold, heq⟩
  unfold renamedId at heq
  split_ifs at heq with hsource
  · exact hne heq
  · exact hsource heq

include hne in
/-- The outputs follow the new id when they read neither it nor the old one. -/
theorem outputs_iff (h : source ∈ allStepIds flow.steps) {read : String} :
    leadsTo (allStepIds (renamedSteps source target flow.steps)) read =
        (leadsTo (allStepIds flow.steps) read).map (renamedId source target) ↔
      read ≠ source ∧ read ≠ target := by
  constructor
  · intro heq
    constructor
    · rintro rfl
      unfold leadsTo at heq
      rw [if_neg (old_notMem hne), if_pos h] at heq
      cases heq
    · rintro rfl
      unfold leadsTo at heq
      rw [if_pos ((new_mem_iff hnew).2 h), if_neg hnew] at heq
      cases heq
  · rintro ⟨hsource, htarget⟩
    have hkept : Kept (allStepIds flow.steps) source target read := kept_of hnew fun heq => absurd heq htarget
    have hlead := leadsTo_renamed hkept
    rw [ids_renamed, ← hlead]
    unfold renamedId
    rw [if_neg hsource]

theorem outputs_of_notMem (h : source ∉ allStepIds flow.steps) (read : String) :
    leadsTo (allStepIds (renamedSteps source target flow.steps)) read =
      (leadsTo (allStepIds flow.steps) read).map (renamedId source target) := by
  by_cases hsource : read = source
  · unfold leadsTo
    rw [hsource, if_neg h, if_neg]
    · rfl
    · rw [mem_ids_renamed_iff]
      rintro ⟨old, hold, heq⟩
      unfold renamedId at heq
      split_ifs at heq with hold'
      · exact h (hold' ▸ hold)
      · exact hold' heq
  · have hlead := leadsTo_renamed (kept_of hnew fun _ => h : Kept (allStepIds flow.steps) source target read)
    rw [ids_renamed, ← hlead]
    unfold renamedId
    rw [if_neg hsource]

include hne hempty in
/-- The new id must not stand in the flow already. -/
theorem target_notMem_of_references (h : source ∈ allStepIds flow.steps) {head : StepHead}
    (heq : (referencesOf (.node (renamedReferences source target head) [])).map
        (leadsTo (allStepIds (renamedSteps source target flow.steps))) =
      (referencesOf (.node head [])).map fun reference =>
        (leadsTo (allStepIds flow.steps) reference).map (renamedId source target)) :
    target ∉ referencesOf (.node head []) := by
  have hcaught : ¬leadsTo (allStepIds (renamedSteps source target flow.steps)) (renamedId source target target) =
      (leadsTo (allStepIds flow.steps) target).map (renamedId source target) := by
    unfold leadsTo renamedId
    rw [if_neg hne, if_pos ((new_mem_iff hnew).2 h), if_neg hnew]
    nofun
  obtain ⟨hroutes, hreads⟩ := references_renamed_iff.1 heq
  intro hmem
  rcases List.mem_append.1 hmem with hin | hin
  · obtain ⟨route, hroute, hto⟩ := List.mem_map.1 hin
    have hlead := hroutes route hroute
    rw [hto] at hlead
    exact hcaught hlead
  · have hlead := hreads target hin
    unfold rewiredRead at hlead
    rw [if_neg hempty] at hlead
    exact hcaught hlead

include hnamed hempty in
theorem references_of_kept {head : StepHead}
    (h : ∀ reference ∈ referencesOf (.node head []), Kept (allStepIds flow.steps) source target reference) :
    (referencesOf (.node (renamedReferences source target head) [])).map
        (leadsTo (allStepIds (renamedSteps source target flow.steps))) =
      (referencesOf (.node head [])).map fun reference =>
        (leadsTo (allStepIds flow.steps) reference).map (renamedId source target) := by
  rw [ids_renamed]
  apply references_renamed_iff.2
  constructor
  · intro route hroute
    exact leadsTo_renamed (h _ (List.mem_append_left _ (List.mem_map_of_mem hroute)))
  · intro read hread
    unfold rewiredRead
    split_ifs with hnone
    · -- An empty read names no step before or after.
      have hresult := @named_renamed _ hnamed source _ hnew hempty
      unfold leadsTo
      rw [← ids_renamed, hnone, if_neg fun hmem => hresult.ne_empty "" hmem rfl,
        if_neg fun hmem => hnamed.ne_empty "" hmem rfl]
      rfl
    · exact leadsTo_renamed (h read (List.mem_append_right _ hread))

omit hnew in
/-- A target that is no step is a problem of its step. -/
theorem targetProblems_of_stepProblems {lib : Library} {step : Step} {scope : Scope} (h : stepProblems lib step scope = []) :
    targetProblems lib scope.index step = [] := by
  unfold stepProblems at h
  split at h
  · cases h
  · obtain ⟨hfirst, hlast⟩ := List.append_eq_nil_iff.1 h
    rw [(List.append_eq_nil_iff.1 hfirst).2] at hlast
    exact hlast

include hnamed hempty hend

theorem stepProblems_ne_nil {lib : Library} {requests : List SavedRequest} {flows : List StoredFlow} {found : WalkSpot}
    (hfound : found ∈ trailWalk (renamedSteps source target flow.steps)) (h : source ∉ allStepIds flow.steps)
    {route : TargetField × String} (hroute : route ∈ routesOf found.item) (hto : route.2 = target) :
    stepProblems lib found.item (flowScope { flow with steps := renamedSteps source target flow.steps } requests flows) ≠ [] := by
  intro hnone
  have hplace := place_mem_of_spot hfound
  have htargets := ((named_renamed hnamed hnew hempty).targetProblems_eq_nil_iff lib hplace rfl).1
    (targetProblems_of_stepProblems hnone)
  have hsame : (placeOf found).targets = targetsOf found.item := targetsOf_congr rfl
  have hmem : route ∈ (placeOf found).targets := by
    rw [hsame]
    exact List.mem_filter.2 ⟨hroute, decide_eq_true (hto ▸ hempty)⟩
  rcases htargets route hmem with hstop | ⟨goal, hgoal, hid, -⟩
  · exact hend (hto.symm.trans hstop)
  · have hin := mem_ids_of_place hgoal
    rw [hid, hto] at hin
    exact h ((new_mem_iff hnew).1 hin)

omit hnamed hnew hempty hend in
theorem exists_renamed {spot : WalkSpot} (hspot : spot ∈ trailWalk flow.steps) :
    ∃ found ∈ trailWalk (renamedSteps source target flow.steps),
      placeOf found = (placeOf spot).mapped (renamedReferences source target) (renamedId source target) :=
  exists_spot_of_place (mapped_mem (place_mem_of_spot hspot))

omit hnamed hnew hempty hend in
theorem routes_renamed {spot found : WalkSpot}
    (hplace : placeOf found = (placeOf spot).mapped (renamedReferences source target) (renamedId source target)) :
    routesOf found.item = (routesOf spot.item).map fun route => (route.1, renamedId source target route.2) := by
  have hhead : found.item.head = renamedReferences source target spot.item.head := congrArg Place.head hplace
  have hfields : found.item.head.fields =
      spot.item.head.fields.rerouted (renamedId source target) (renamedId source target) := congrArg StepHead.fields hhead
  exact routesOf_rerouted hfields (congrArg StepHead.next hhead)

/-- A step has a problem under the new id just when it had one, unless a target
that was no step became the new id. -/
theorem hasProblem_renamed_iff {lib : Library} {requests : List SavedRequest} {flows : List StoredFlow} {spot : WalkSpot}
    (hspot : spot ∈ trailWalk flow.steps)
    (hkept : ∀ reference ∈ referencesOf spot.item, Kept (allStepIds flow.steps) source target reference)
    (hroutes : ∀ route ∈ routesOf spot.item, route.2 = source → source ≠ "" ∧ source ≠ endTarget) :
    HasProblem lib { flow with steps := renamedSteps source target flow.steps } requests flows
        (renamedId source target spot.item.head.id) ↔
      HasProblem lib flow requests flows spot.item.head.id := by
  obtain ⟨found, hfound, hplace⟩ := @exists_renamed _ source target _ hspot
  have hhead : found.item.head = renamedReferences source target spot.item.head := congrArg Place.head hplace
  have hid : found.item.head.id = renamedId source target spot.item.head.id := congrArg StepHead.id hhead
  have hfields : found.item.head.fields =
      spot.item.head.fields.rerouted (renamedId source target) (renamedId source target) := congrArg StepHead.fields hhead
  have hresult : Named ({ flow with steps := renamedSteps source target flow.steps } : Flow).steps :=
    named_renamed hnamed hnew hempty
  have hsteps := @stepProblems_renamed flow hnamed source target hnew hempty hend lib requests flows spot found hspot hfound
    hplace
    (fun route hroute => ⟨hkept _ (List.mem_append_left _ (List.mem_map_of_mem hroute)), hroutes route hroute⟩)
    fun read hread => hkept read (List.mem_append_right _ hread)
  rw [← hid, hasProblem_iff hresult hfound, hasProblem_iff hnamed hspot, hsteps, shapeProblems_rerouted hfields]

omit hend in
/-- The flow itself has a problem just when it had one, when the outputs lead
where they led. -/
theorem flowProblem_renamed_iff {lib : Library} {requests : List SavedRequest} {flows : List StoredFlow}
    (houtputs : ∀ output ∈ flow.outputs,
      leadsTo (allStepIds (renamedSteps source target flow.steps)) output.reading.step =
        (leadsTo (allStepIds flow.steps) output.reading.step).map (renamedId source target)) :
    HasProblem lib { flow with steps := renamedSteps source target flow.steps } requests flows "" ↔
      HasProblem lib flow requests flows "" := by
  have hresult : Named ({ flow with steps := renamedSteps source target flow.steps } : Flow).steps :=
    named_renamed hnamed hnew hempty
  have hrequest : ∀ output ∈ flow.outputs,
      isRequestStep (indexSteps (renamedSteps source target flow.steps)) output.reading.step =
        isRequestStep (indexSteps flow.steps) output.reading.step := by
    intro output houtput
    have hlead := houtputs output houtput
    by_cases hmem : output.reading.step ∈ allStepIds flow.steps
    · unfold leadsTo at hlead
      rw [if_pos hmem, Option.map_some] at hlead
      split_ifs at hlead with hin
      have hsame := isRequestStep_renamed hnamed hnew hempty (kept_of_mem hnew hmem : Kept _ source target _)
      rw [← Option.some.inj hlead] at hsame
      exact hsame
    · unfold leadsTo at hlead
      rw [if_neg hmem, Option.map_none] at hlead
      split_ifs at hlead with hin
      rw [isRequestStep_of_notMem (named_renamed hnamed hnew hempty) hin, isRequestStep_of_notMem hnamed hmem]
  have hproblems : outputProblems lib { flow with steps := renamedSteps source target flow.steps }
      (indexSteps (renamedSteps source target flow.steps)) = [] ↔
        outputProblems lib flow (indexSteps flow.steps) = [] := by
    unfold outputProblems
    rw [List.flatMap_eq_nil_iff, List.flatMap_eq_nil_iff]
    apply forall₂_congr
    intro output houtput
    have hsame := @valueProblems_same lib id (indexSteps flow.steps) (indexSteps (renamedSteps source target flow.steps)) output
      (fun hne => hne) fun _ => hrequest output houtput
    rw [rewired_id] at hsame
    exact hsame
  have hsteps : renamedSteps source target flow.steps = [] ↔ flow.steps = [] := by
    unfold renamedSteps
    rw [← List.length_eq_zero_iff, length_mapSteps, List.length_eq_zero_iff]
  rw [hasProblem_empty_iff hresult, hasProblem_empty_iff hnamed]
  change (renamedSteps source target flow.steps ≠ [] → ¬(declaredProblems lib flow = [] ∧ _)) ↔ _
  rw [hproblems, ne_eq, hsteps]

include hne in
/-- Renaming does nothing else just when no reference is mixed up. -/
theorem pureRenaming_iff (hplain : ∀ id ∈ allStepIds flow.steps, PlainId id) {lib : Library} {requests : List SavedRequest}
    {flows : List StoredFlow} :
    PureRenaming lib requests flows flow source ({ flow with steps := renamedSteps source target flow.steps }, target) ↔
      RenamesAlone lib requests flows flow source target := by
  have hentry : ∀ spot ∈ trailWalk flow.steps, spot.mapParent lastId ∈ walkSteps flow.steps "" := by
    intro spot hspot
    rw [walkSteps_eq]
    exact List.mem_map_of_mem hspot
  constructor
  · intro hpure
    refine .inr ?_
    have houtputs := List.map_inj_left.1 hpure.outputs
    by_cases hsource : source ∈ allStepIds flow.steps
    · refine .inl ⟨hsource, fun output houtput => (outputs_iff hne hnew hsource).1 (houtputs output houtput), ?_⟩
      have hreferences := hpure.references
      change ((walkSteps (renamedSteps source target flow.steps) "").map fun entry => (referencesOf entry.item).map
        (leadsTo (allStepIds (renamedSteps source target flow.steps)))) = _ at hreferences
      rw [map_references, map_references, places_renamed, List.map_map] at hreferences
      intro entry hmem
      rw [walkSteps_eq] at hmem
      obtain ⟨spot, hspot, rfl⟩ := List.mem_map.1 hmem
      have hplace := List.map_inj_left.1 hreferences (placeOf spot) (place_mem_of_spot hspot)
      have hnot := target_notMem_of_references hne hnew hempty hsource hplace
      have hsame : referencesOf (.node (placeOf spot).head []) = referencesOf spot.item := referencesOf_congr rfl
      rw [hsame] at hnot
      exact hnot
    · refine .inr ⟨hsource, fun hspecial => ?_⟩
      rintro entry hmem ⟨route, hroute, hto⟩
      rw [walkSteps_eq] at hmem
      obtain ⟨spot, hspot, rfl⟩ := List.mem_map.1 hmem
      obtain ⟨found, hfound, hplace⟩ := @exists_renamed _ source target _ hspot
      have hid : found.item.head.id = renamedId source target spot.item.head.id :=
        congrArg (fun place : Place => place.head.id) hplace
      have hresult : Named ({ flow with steps := renamedSteps source target flow.steps } : Flow).steps :=
        named_renamed hnamed hnew hempty
      have hin : spot.item.head.id ∈ allStepIds flow.steps := mem_ids_of_place (place_mem_of_spot hspot)
      apply (hpure.stepProblem _ hin).1
      rw [← hid]
      apply (hasProblem_iff hresult hfound).2
      rintro ⟨hnone, -⟩
      have hrenamed : (route.1, renamedId source target route.2) ∈ routesOf found.item := by
        rw [routes_renamed hplace]
        exact List.mem_map.2 ⟨route, hroute, rfl⟩
      exact stepProblems_ne_nil hnamed hnew hempty hend hfound hsource hrenamed (if_pos hto) hnone
  · intro halone
    have hwhere := halone.resolve_left hne
    have hkept : ∀ spot ∈ trailWalk flow.steps, ∀ reference ∈ referencesOf spot.item,
        Kept (allStepIds flow.steps) source target reference := by
      rcases hwhere with ⟨-, -, hreferences⟩ | ⟨hsource, -⟩
      · intro spot hspot reference hreference
        apply kept_of hnew
        rintro rfl
        exact absurd hreference (hreferences _ (hentry spot hspot))
      · intro spot hspot reference hreference
        exact kept_of hnew fun _ => hsource
    have houtputs : ∀ output ∈ flow.outputs,
        leadsTo (allStepIds (renamedSteps source target flow.steps)) output.reading.step =
          (leadsTo (allStepIds flow.steps) output.reading.step).map (renamedId source target) := by
      intro output houtput
      rcases hwhere with ⟨hsource, hreads, -⟩ | ⟨hsource, -⟩
      · exact (outputs_iff hne hnew hsource).2 (hreads output houtput)
      · exact outputs_of_notMem hnew hsource _
    refine ⟨(named_renamed hnamed hnew hempty).nodup, ?_, List.map_inj_left.2 houtputs,
      flowProblem_renamed_iff hnamed hnew hempty houtputs, ?_⟩
    · change ((walkSteps (renamedSteps source target flow.steps) "").map fun entry => (referencesOf entry.item).map
        (leadsTo (allStepIds (renamedSteps source target flow.steps)))) = _
      rw [map_references, map_references, places_renamed, List.map_map]
      apply List.map_congr_left
      intro place hplace
      obtain ⟨spot, hspot, rfl⟩ := exists_spot_of_place hplace
      apply references_of_kept hnamed hnew hempty
      intro reference hreference
      have hsame : referencesOf (.node (placeOf spot).head []) = referencesOf spot.item := referencesOf_congr rfl
      exact hkept spot hspot reference (hsame ▸ hreference)
    · intro id hid
      obtain ⟨place, hplace, rfl⟩ := List.mem_map.1 (allStepIds_eq_places flow.steps ▸ hid)
      obtain ⟨spot, hspot, rfl⟩ := exists_spot_of_place hplace
      by_cases hspecial : (source = "" ∨ source = endTarget) ∧ ∃ route ∈ routesOf spot.item, route.2 = source
      · obtain ⟨hword, route, hroute, hto⟩ := hspecial
        have hsource : source ∉ allStepIds flow.steps := by
          intro hmem
          rcases hword with rfl | rfl
          · exact (hplain _ hmem).ne_empty rfl
          · exact (hplain _ hmem).ne_end rfl
        have hproblems := (hwhere.resolve_left fun h => hsource h.1).2 hword
        refine iff_of_true ?_ (hproblems _ (hentry spot hspot) ⟨route, hroute, hto⟩)
        obtain ⟨found, hfound, hplaceOf⟩ := @exists_renamed _ source target _ hspot
        have hid : found.item.head.id = renamedId source target spot.item.head.id :=
          congrArg (fun place : Place => place.head.id) hplaceOf
        have hresult : Named ({ flow with steps := renamedSteps source target flow.steps } : Flow).steps :=
          named_renamed hnamed hnew hempty
        have hrenamed : (route.1, renamedId source target route.2) ∈ routesOf found.item := by
          rw [routes_renamed hplaceOf]
          exact List.mem_map.2 ⟨route, hroute, rfl⟩
        change HasProblem _ _ _ _ (renamedId source target spot.item.head.id)
        rw [← hid]
        apply (hasProblem_iff hresult hfound).2
        rintro ⟨hnone, -⟩
        exact stepProblems_ne_nil hnamed hnew hempty hend hfound hsource hrenamed (if_pos hto) hnone
      · apply hasProblem_renamed_iff hnamed hnew hempty hend hspot (hkept spot hspot)
        intro route hroute hto
        rw [← not_or]
        exact fun hword => hspecial ⟨hword, route, hroute, hto⟩

end Leads

/-- `renameStep` is a pure renaming just when the outputs do not read the step
and nothing names the new id, or when there is no such step. -/
theorem renameStep_iff (lib : Library) (casing : Casing) (numerals : Js.Numerals) (raw : Js.Json)
    (requests : List SavedRequest) (flows : List StoredFlow) (source wanted : String) :
    let flow := normalizeFlow numerals raw
    PureRenaming lib requests flows flow source (renameStep casing flow source wanted) ↔
      RenamesAlone lib requests flows flow source (wantedId casing flow source wanted) := by
  intro flow
  have hnamed : Named flow.steps := named_normalizeFlow numerals raw
  unfold renameStep
  simp only
  by_cases hne : wantedId casing flow source wanted = source
  · rw [if_pos hne]
    exact iff_of_true (pureRenaming_self lib requests flows hnamed source) (.inl hne)
  · rw [if_neg hne]
    exact pureRenaming_iff hnamed hne (wantedId_notMem hne) (wantedId_ne_empty hnamed hne) (uniqueId_ne_end _ _)
      fun id hid => plainId_of_mem_allStepIds numerals hid

def plainCasing : Casing where
  toLowerCase := String.toLower
  toUpperCase character := character.toUpper.toString

def tokenRaw : Js.Json :=
  .obj [("id", .str "f"),
    ("outputs", .arr [.obj [("name", .str "token"), ("step", .str "login"), ("source", .str "status")]]),
    ("steps", .arr [.obj [("id", .str "login"), ("kind", .str "request"), ("request", .str "Login")]])]

/-- The output still reads the old id. -/
theorem output_left_behind :
    let flow := normalizeFlow plainLibrary.numerals tokenRaw
    let result := renameStep plainCasing flow "login" "Sign in"
    validateFlow plainLibrary flow [⟨"r", "", "Login", ""⟩] [] = [] ∧ result.2 = "sign-in" ∧
      (result.1.outputs.map fun output => leadsTo (allStepIds result.1.steps) output.reading.step) = [none] ∧
        (flow.outputs.map fun output =>
          (leadsTo (allStepIds flow.steps) output.reading.step).map (renamedId "login" result.2)) = [some "sign-in"] ∧
          validateFlow plainLibrary result.1 [⟨"r", "", "Login", ""⟩] [] ≠ [] ∧
            ¬PureRenaming plainLibrary [⟨"r", "", "Login", ""⟩] [] flow "login" result := by
  intro flow result
  have hvalid : validateFlow plainLibrary flow [⟨"r", "", "Login", ""⟩] [] = [] := by decide +kernel
  have houtputs : (result.1.outputs.map fun output => leadsTo (allStepIds result.1.steps) output.reading.step) = [none] := by
    decide +kernel
  have hexpected : (flow.outputs.map fun output =>
      (leadsTo (allStepIds flow.steps) output.reading.step).map (renamedId "login" result.2)) = [some "sign-in"] := by
    decide +kernel
  refine ⟨hvalid, by decide +kernel, houtputs, hexpected, by decide +kernel, ?_⟩
  intro hpure
  have hsame := hpure.outputs
  rw [houtputs, hexpected] at hsame
  cases hsame

end Gostman.Flows
