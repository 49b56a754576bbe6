import Gostman.Flows.Index
import Gostman.Flows.Engine.Answers
/-!
# Flows that are ready to run

What `validateFlow` gives the engine once it finds no problem, at every step of
a normal flow: where its targets lie, that what it refers to is there, and that
no step but a request or a flow stands in a Parallel step.
-/

namespace Gostman.Flows

open Gostman.Lib Gostman.Js

/-- A step of a flow with the ids of the steps around it. -/
abbrev Spot := Outline.Spot StepHead (List String)

structure Ready (scene : Scene) : Prop where
  index_eq : scene.index = indexSteps scene.flow.steps
  types_eq : scene.types = declaredTypes scene.flow
  named : Named scene.flow.steps
  heads : ∀ spot ∈ trailWalk scene.flow.steps,
    ∃ source id, spot.item.head = { headOf scene.lib.numerals source with id := id }
  maxSends_pos : 1 ≤ scene.flow.maxSends
  valid : validateFlow scene.lib scene.flow scene.requests scene.flows = []

theorem item_mem_flatten {steps : List Step} {spot : Spot} (hspot : spot ∈ trailWalk steps) :
    spot.item ∈ Outline.flatten opensInner steps := by
  rw [← Outline.walk_map_item steps []]
  exact List.mem_map.2 ⟨spot, hspot, rfl⟩

theorem ready_createScene {lib : Library} {raw : Json} (context : Context)
    (hvalid : validateFlow lib (normalizeFlow lib.numerals raw) context.requests context.flows = []) :
    Ready (createScene lib (normalizeFlow lib.numerals raw) context) where
  index_eq := rfl
  types_eq := rfl
  named := named_normalizeFlow lib.numerals raw
  heads := fun _ hspot => exists_headOf lib.numerals (item_mem_flatten hspot)
  maxSends_pos :=
    (whole_bounds lib.numerals _ (by decide) (by decide) (by decide)).1
  valid := hvalid

namespace Ready

variable {scene : Scene} (hready : Ready scene)

include hready

/-! ## The problems one by one -/

private theorem no_problems :
    scene.flow.steps ≠ [] ∧
      outputProblems scene.lib scene.flow scene.index = [] ∧
      ∀ spot ∈ trailWalk scene.flow.steps,
        stepProblems scene.lib spot.item
          (flowScope scene.flow scene.requests scene.flows) = [] ∧
        shapeProblems scene.lib spot.item (scene.flow.vars.map Declared.name) = [] := by
  have hvalid := hready.valid
  unfold validateFlow at hvalid
  split_ifs at hvalid with hempty
  simp only [List.append_eq_nil_iff, List.map_eq_nil_iff, List.flatMap_eq_nil_iff] at hvalid
  obtain ⟨⟨-, houtputs⟩, hsteps⟩ := hvalid
  refine ⟨fun h => hempty (by simp [h]), ?_, fun spot hspot => ?_⟩
  · rw [hready.index_eq]
    exact houtputs
  · apply hsteps (spot.mapParent lastId)
    rw [walkSteps_eq]
    exact List.mem_map.2 ⟨spot, hspot, rfl⟩

theorem steps_ne_nil : scene.flow.steps ≠ [] := hready.no_problems.1

theorem scope_index :
    (flowScope scene.flow scene.requests scene.flows).index = scene.index := by
  rw [hready.index_eq]
  rfl

theorem stepProblems_eq_nil {spot : Spot} (hspot : spot ∈ trailWalk scene.flow.steps) :
    stepProblems scene.lib spot.item (flowScope scene.flow scene.requests scene.flows) = [] :=
  (hready.no_problems.2.2 spot hspot).1

theorem kind_ne_unknown {spot : Spot} (hspot : spot ∈ trailWalk scene.flow.steps) (name : String) :
    spot.item.head.kind ≠ .unknown name := by
  intro hkind
  have h := hready.stepProblems_eq_nil hspot
  simp [stepProblems, hkind] at h

private theorem parts {spot : Spot} (hspot : spot ∈ trailWalk scene.flow.steps) :
    kindProblems scene.lib spot.item (flowScope scene.flow scene.requests scene.flows) = [] ∧
      branchProblems scene.lib spot.item (flowScope scene.flow scene.requests scene.flows) = [] ∧
      targetProblems scene.lib scene.index spot.item = [] := by
  have h := hready.stepProblems_eq_nil hspot
  unfold stepProblems at h
  split at h
  · simp at h
  · simp only [List.append_eq_nil_iff] at h
    obtain ⟨⟨hkind, hbranch⟩, htargets⟩ := h
    refine ⟨hkind, hbranch, ?_⟩
    rw [hbranch, hready.scope_index] at htargets
    simpa using htargets

/-! ## References -/

theorem read_index {spot : Spot} (hspot : spot ∈ trailWalk scene.flow.steps) :
    scene.index.read spot.item.head.id = some (spot.mapParent lastId) := by
  rw [hready.index_eq]
  exact hready.named.read_of_located hspot

theorem loopsAround_eq {spot : Spot} (hspot : spot ∈ trailWalk scene.flow.steps) :
    loopsAround scene.index spot.item.head.id = spot.parent := by
  rw [hready.index_eq]
  exact hready.named.loopsAround_of_located hspot

theorem exists_spot {id : String} {entry : Entry} (h : scene.index.read id = some entry) :
    ∃ spot ∈ trailWalk scene.flow.steps, entry = spot.mapParent lastId ∧ spot.item.head.id = id := by
  rw [hready.index_eq] at h
  exact hready.named.exists_spot_of_read h

theorem parentOf_eq {spot : Spot} (hspot : spot ∈ trailWalk scene.flow.steps) :
    parentOf scene.index spot.item.head.id = lastId spot.parent := by
  simp [parentOf, hready.read_index hspot, Outline.Spot.mapParent]

omit hready in
/-- A reference the validator accepts names a step of the flow. -/
private theorem has_of_isRequestStep {id : String} (h : isRequestStep scene.index id = true) :
    ∃ entry, scene.index.read id = some entry := by
  unfold isRequestStep at h
  split at h
  · exact ⟨_, ‹_›⟩
  · simp at h

omit hready in
private theorem readable {value : NamedValue} (h : valueProblems scene.lib scene.index value = [])
    {step : String} {source : Source} {path : String}
    (hreading : value.reading = .response step source path) :
    ∃ entry, scene.index.read step = some entry := by
  unfold valueProblems at h
  rw [hreading] at h
  split_ifs at h with hname
  simp only at h
  split_ifs at h with hstep hrequest
  all_goals exact has_of_isRequestStep (by simpa using hrequest)

theorem output_readable {output : NamedValue} (houtput : output ∈ scene.flow.outputs)
    {step : String} {source : Source} {path : String}
    (hreading : output.reading = .response step source path) :
    ∃ entry, scene.index.read step = some entry := by
  have h := hready.no_problems.2.1
  rw [outputProblems, List.flatMap_eq_nil_iff] at h
  exact readable (h output houtput) hreading

section Kinds

variable {spot : Spot} (hspot : spot ∈ trailWalk scene.flow.steps)

include hspot

theorem set_readable {values : List NamedValue} (hfields : spot.item.head.fields = .setStep values)
    {value : NamedValue} (hvalue : value ∈ values) {step : String} {source : Source} {path : String}
    (hreading : value.reading = .response step source path) :
    ∃ entry, scene.index.read step = some entry := by
  have h := (hready.parts hspot).1
  rw [kindProblems, hfields, hready.scope_index, List.flatMap_eq_nil_iff] at h
  exact readable (h value hvalue) hreading

/-- A For each step takes its list from a step of the flow. -/
theorem forEach_readable {fields : ForEachFields} (hfields : spot.item.head.fields = .forEach fields) :
    ∃ entry, scene.index.read fields.step = some entry := by
  have h := (hready.parts hspot).1
  simp only [kindProblems, hfields, hready.scope_index, List.append_eq_nil_iff] at h
  have hlist := h.1.1
  split_ifs at hlist with hstep
  unfold referenceProblem at hlist
  split_ifs at hlist with hrequest
  exact has_of_isRequestStep (by simpa [hstep] using hrequest)

/-- A loop or a Parallel step has steps inside it. -/
theorem inner_ne_nil (hopens : opensInner spot.item.head = true) : spot.item.inner ≠ [] := by
  have h := (hready.parts hspot).1
  intro hnil
  unfold kindProblems at h
  cases hfields : spot.item.head.fields <;>
    simp [hfields, hnil, opensInner, StepHead.kind, Fields.kind, Kind.isContainer] at h hopens

theorem request_resolved {fields : RequestFields} (hfields : spot.item.head.fields = .request fields) :
    ∃ request, resolveRequest fields scene.requests = some request := by
  have h := (hready.parts hspot).1
  simp only [kindProblems, hfields, List.append_eq_nil_iff] at h
  have hrequest := h.1
  unfold requestProblems at hrequest
  split_ifs at hrequest with hempty hsome
  exact Option.isSome_iff_exists.1 hsome

/-- The flow a Flow step names is there, and the search from it comes to no flow
twice and not too deep. -/
theorem flow_reached {fields : FlowFields} (hfields : spot.item.head.fields = .flow fields) :
    flowProblems scene.lib fields (flowScope scene.flow scene.requests scene.flows) = [] := by
  have h := (hready.parts hspot).1
  simpa only [kindProblems, hfields] using h

/-- The inputs of a request step read from steps of the flow. -/
theorem input_readable {fields : RequestFields} (hfields : spot.item.head.fields = .request fields)
    {input : StepInput} (hinput : input ∈ fields.inputs) {step : String} {source : Source}
    {path : String} (hreading : input.value.reading = .response step source path) :
    ∃ entry, scene.index.read step = some entry := by
  have h := (hready.parts hspot).1
  simp only [kindProblems, hfields, hready.scope_index, List.append_eq_nil_iff] at h
  have hinputs := h.2
  rw [inputProblems, List.flatMap_eq_nil_iff] at hinputs
  have hproblem := hinputs input hinput
  unfold inputProblem at hproblem
  simp only at hproblem
  have hown : valueProblems scene.lib scene.index input.value = [] := by
    split_ifs at hproblem with htarget hname hown
    · exact hproblem
    all_goals simpa using hown
  exact readable hown hreading

/-- The index name of a Repeat is not empty and hides no declared variable,
and it makes at least one pass. -/
theorem repeat_fields {fields : RepeatFields} (hfields : spot.item.head.fields = .repeatStep fields) :
    1 ≤ fields.times ∧ fields.indexAs ≠ "" := by
  obtain ⟨source, id, hhead⟩ := hready.heads spot hspot
  rw [hhead] at hfields
  simp only [headOf] at hfields
  generalize Kind.ofText _ = kind at hfields
  cases kind <;> simp only [fieldsOf, Fields.repeatStep.injEq, reduceCtorEq] at hfields
  subst hfields
  refine ⟨(whole_bounds scene.lib.numerals _ (by decide) (by decide) (by decide)).1, ?_⟩
  simp only [trimmedOr]
  split_ifs with h
  · decide
  · exact h

theorem indexAs_notMem_declared {fields : RepeatFields}
    (hfields : spot.item.head.fields = .repeatStep fields) :
    fields.indexAs ∉ scene.flow.vars.map Declared.name := by
  intro hmem
  have h := (hready.no_problems.2.2 spot hspot).2
  have hne := (hready.repeat_fields hspot hfields).2
  unfold shapeProblems at h
  simp only [loopNamesOf, hfields] at h
  split_ifs at h
  · simp at h
  · simp only [List.map_eq_nil_iff, List.filter_eq_nil_iff, decide_eq_true_eq] at h
    exact h fields.indexAs (by simp [hne]) hmem

end Kinds

/-! ## Branches and targets -/

theorem isBranch_iff {spot : Spot} (hspot : spot ∈ trailWalk scene.flow.steps) :
    isBranch scene.index spot.item.head.id = true ↔
      ∃ outer ∈ trailWalk scene.flow.steps, spot.parent = outer.parent ++ [outer.item.head.id] ∧
        outer.item.head.kind = .parallel := by
  unfold isBranch
  rw [hready.parentOf_eq hspot]
  constructor
  · intro h
    split at h
    case h_2 => simp at h
    case h_1 entry hread =>
      obtain ⟨outer, houter, rfl, hid⟩ := hready.exists_spot hread
      have hne : spot.parent ≠ [] := by
        intro hnil
        rw [hnil, lastId_nil, hready.index_eq, hready.named.read_empty] at hread
        cases hread
      obtain ⟨other, hother, -, hparent, -⟩ := exists_outer hspot hne
      rw [hparent, lastId_snoc] at hid
      obtain rfl := hready.named.spot_unique houter hother hid
      exact ⟨outer, houter, hparent, of_decide_eq_true h⟩
  · rintro ⟨outer, houter, hparent, hkind⟩
    rw [hparent, lastId_snoc, hready.read_index houter]
    exact decide_eq_true hkind

theorem branch_kind {spot : Spot} (hspot : spot ∈ trailWalk scene.flow.steps)
    (hbranch : isBranch scene.index spot.item.head.id = true) :
    spot.item.head.kind = .request ∨ spot.item.head.kind = .flow := by
  have h := (hready.parts hspot).2.1
  unfold branchProblems at h
  rw [hready.scope_index, hbranch] at h
  by_contra hkind
  rw [not_or] at hkind
  simp [hkind] at h

end Ready

def InLoops (flow : Flow) (spot : Spot) : Prop :=
  ∀ outer ∈ trailWalk flow.steps, outer.item.head.id ∈ spot.parent →
    outer.item.head.kind ≠ .parallel

namespace Ready

variable {scene : Scene} (hready : Ready scene)

include hready

theorem not_branch_of_inLoops {spot : Spot} (hspot : spot ∈ trailWalk scene.flow.steps)
    (hloops : InLoops scene.flow spot) : isBranch scene.index spot.item.head.id = false := by
  by_contra h
  obtain ⟨outer, houter, hparent, hkind⟩ := (hready.isBranch_iff hspot).1 (by simpa using h)
  exact hloops outer houter (by simp [hparent]) hkind

/-- A target is the end, or a step around which there are no loops but those
around the step that names it. -/
theorem target_located {spot : Spot} (hspot : spot ∈ trailWalk scene.flow.steps)
    {field : TargetField} {target : String} (htarget : (field, target) ∈ routesOf spot.item)
    (hne : target ≠ "") (hend : target ≠ endTarget) :
    ∃ goal ∈ trailWalk scene.flow.steps, goal.item.head.id = target ∧ goal.parent <+: spot.parent := by
  have h := (hready.parts hspot).2.2
  rw [targetProblems, List.flatMap_eq_nil_iff] at h
  have hmem : (field, target) ∈ targetsOf spot.item := by
    simpa [targetsOf, hne] using htarget
  have hproblem := h _ hmem
  simp only [targetProblem, hend, if_false] at hproblem
  split_ifs at hproblem with hhas hall
  simp only [Record.has, Bool.not_eq_true', Option.isSome_eq_false_iff, Option.isNone_iff_eq_none]
    at hhas
  obtain ⟨entry, hentry⟩ := Option.ne_none_iff_exists'.1 hhas
  obtain ⟨goal, hgoal, rfl, hid⟩ := hready.exists_spot hentry
  refine ⟨goal, hgoal, hid, hready.named.prefix_of_subset hgoal hspot fun loop hloop => ?_⟩
  rw [← hid, hready.loopsAround_eq hgoal, hready.loopsAround_eq hspot, List.all_eq_true] at hall
  simpa using hall loop hloop

end Ready

/-- Fewer loops around a step are still only loops. -/
theorem InLoops.of_outer {flow : Flow} {spot goal : Spot} (hloops : InLoops flow spot)
    (hpre : goal.parent <+: spot.parent) : InLoops flow goal :=
  fun outer houter hmem => hloops outer houter (hpre.subset hmem)

end Gostman.Flows
