import Gostman.Flows.Nesting
import Gostman.Flows.Places
/-!
# Steps that are checked alike

A step without problems stays without problems in another flow, with its
targets and its reads renamed, when what it refers to agrees.
-/

namespace Gostman.Flows

open Gostman.Lib

/-! ## The flows that a step calls -/

/-- Two scopes of one draft, which differ in its steps only. -/
structure SameFlows (scope other : Scope) : Prop where
  flow : other.flow.id = scope.flow.id
  keys : other.flows.map StoredFlow.key = scope.flows.map StoredFlow.key
  read : ∀ id, id ≠ scope.flow.id → other.flowsById.read id = scope.flowsById.read id

section SameFlows

variable {lib : Library} {scope other : Scope} (hflows : SameFlows scope other)

include hflows

theorem resolveFlow_same (fields : FlowFields) :
    (resolveFlow fields other.flows).map StoredFlow.id = (resolveFlow fields scope.flows).map StoredFlow.id := by
  rw [map_id_resolveFlow, map_id_resolveFlow, hflows.keys]

/-- The search stops at the draft, so its steps do not matter. -/
theorem reach_same (bound : Nat) (flowId : String) (path : List String) (hpath : scope.flow.id ∈ path) :
    reach lib other bound flowId path = reach lib scope bound flowId path := by
  induction bound generalizing flowId path with
  | zero => rfl
  | succ bound ih =>
    unfold reach
    by_cases hcycle : flowId ∈ path
    · rw [if_pos hcycle, if_pos hcycle]
    · have hne : flowId ≠ scope.flow.id := fun heq => hcycle (heq ▸ hpath)
      rw [if_neg hcycle, if_neg hcycle, hflows.read flowId hne]
      split_ifs with hdeep
      · rfl
      · cases scope.flowsById.read flowId with
        | none => rfl
        | some flow =>
          simp only
          congr 2
          apply List.map_congr_left
          intro fields _
          have hresolve := resolveFlow_same hflows fields
          cases hfound : resolveFlow fields scope.flows with
          | none =>
            rw [hfound, Option.map_none, Option.map_eq_none_iff] at hresolve
            rw [hresolve]
          | some called =>
            rw [hfound] at hresolve
            obtain ⟨found, hother, hid⟩ := Option.map_eq_some_iff.1 hresolve
            rw [hother]
            simp only
            rw [hid]
            exact ih called.id (path ++ [flowId]) (List.mem_append_left _ hpath)

theorem flowProblems_same {fields : FlowFields} (h : flowProblems lib fields scope = []) :
    flowProblems lib fields other = [] := by
  have hreach := flowProblems_eq_nil h
  have hresolve := resolveFlow_same hflows fields
  unfold flowProblems at h ⊢
  by_cases hnone : fields.flow = "" ∧ fields.flowId = ""
  · rw [if_pos hnone] at h
    cases h
  rw [if_neg hnone] at h ⊢
  cases hfound : resolveFlow fields scope.flows with
  | none =>
    rw [hfound] at h
    cases h
  | some called =>
    have hfine := hreach called hfound
    rw [hfound] at hresolve
    obtain ⟨found, hother, hid⟩ := Option.map_eq_some_iff.1 hresolve
    rw [hother]
    simp only
    rw [hid, hflows.flow, reach_same hflows _ _ _ List.mem_cons_self, hfine]

end SameFlows

theorem read_ofEntries_cons_ne {α : Type} {first : String × α} {entries : List (String × α)} {id : String}
    (h : id ≠ first.1) : (Record.ofEntries (first :: entries)).read id = (Record.ofEntries entries).read id := by
  have hall : ∀ left right : Record String α, left.read id = right.read id →
      (left.overlay entries).read id = (right.overlay entries).read id := by
    induction entries with
    | nil => exact fun left right heq => heq
    | cons entry rest ih =>
      intro left right heq
      rw [Record.overlay_cons, Record.overlay_cons]
      apply ih
      rw [Record.read_put, Record.read_put, heq]
  apply hall
  rw [Record.read_put, if_neg h]

theorem sameFlows_withSteps (flow : Flow) (steps : List Step) (requests : List SavedRequest) (flows : List StoredFlow) :
    SameFlows (flowScope flow requests flows) (flowScope { flow with steps := steps } requests flows) where
  flow := rfl
  keys := rfl
  read id hne := by
    unfold flowScope
    simp only
    rw [List.map_cons, List.map_cons]
    exact (read_ofEntries_cons_ne hne).trans (read_ofEntries_cons_ne hne).symm

/-! ## What a step refers to -/

/-- What a step of the id `id` reads agrees with what the step `id'` reads in
another scope, by other names. -/
structure ReadsAgree (rename : String → String) (scope scope' : Scope) (id id' : String) : Prop where
  requests : scope'.requests = scope.requests
  flows : SameFlows scope scope'
  known : ∀ step, isRequestStep scope.index step = true →
    rename step ≠ "" ∧ isRequestStep scope'.index (rename step) = true
  before : ∀ step, isRequestStep scope.index step = true → runsBefore scope.index.keys step id = true →
    runsBefore scope'.index.keys (rename step) id' = true
  sibling : ∀ step, isRequestStep scope.index step = true → isSibling scope.index step id = false →
    isSibling scope'.index (rename step) id' = false

/-- The fields of a step with its targets and its reads renamed. -/
def Fields.rerouted (target read : String → String) (fields : Fields) : Fields :=
  (fields.retargeted target).rewired read

section Values

variable {lib : Library} {rename : String → String} {index index' : Record String Entry}
  (hknown : ∀ step, isRequestStep index step = true → rename step ≠ "" ∧ isRequestStep index' (rename step) = true)

include hknown

theorem valueProblems_rewired {value : NamedValue} (h : valueProblems lib index value = []) :
    valueProblems lib index' (value.rewired rename) = [] := by
  obtain ⟨name, reading⟩ := value
  cases reading with
  | template text => exact h
  | response step source path =>
    unfold valueProblems at h ⊢
    unfold NamedValue.rewired
    simp only at h ⊢
    split_ifs at h with hname hstep hrequest hsource
    rw [Bool.not_eq_false] at hrequest
    obtain ⟨hne, hfound⟩ := hknown step hrequest
    rw [if_neg hstep]
    simp only
    rw [if_neg hname, if_neg hne, hfound, if_neg nofun, if_neg hsource]

theorem referenceProblem_rewired {id : String} (h : referenceProblem lib index id = []) :
    referenceProblem lib index' (rewiredRead rename id) = [] := by
  unfold referenceProblem at h ⊢
  unfold rewiredRead
  split_ifs at h with hrequest
  by_cases hid : id = ""
  · rw [if_pos hid, if_neg (fun hboth => hboth.1 hid)]
  · rw [if_neg hid]
    have hfound : isRequestStep index id = true := by
      cases hstep : isRequestStep index id with
      | true => rfl
      | false => exact absurd ⟨hid, hstep⟩ hrequest
    rw [if_neg]
    rintro ⟨-, hnot⟩
    rw [(hknown id hfound).2] at hnot
    cases hnot

theorem responseReference_rewired {source : ConditionSource} {id : String}
    (h : responseReference lib index source id = []) :
    responseReference lib index' source (rewiredRead rename id) = [] := by
  unfold responseReference at h ⊢
  split_ifs at h ⊢ with hsource
  · exact referenceProblem_rewired hknown h
  · rfl

end Values

/-- The step that an input reads from, renamed. -/
theorem step_rewired (rename : String → String) (value : NamedValue) :
    (value.rewired rename).reading.step = rewiredRead rename value.reading.step := by
  obtain ⟨name, reading⟩ := value
  cases reading with
  | template text => rfl
  | response step source path =>
    unfold NamedValue.rewired rewiredRead
    simp only
    by_cases hstep : step = ""
    · rw [if_pos hstep]
      exact (if_pos hstep).symm
    · rw [if_neg hstep]
      exact (if_neg hstep).symm

theorem name_rewired (rename : String → String) (value : NamedValue) : (value.rewired rename).name = value.name := by
  obtain ⟨name, reading⟩ := value
  cases reading with
  | template text => rfl
  | response step source path =>
    unfold NamedValue.rewired
    simp only
    split_ifs <;> rfl

theorem isRequestStep_of_valueProblems {lib : Library} {index : Record String Entry} {value : NamedValue}
    (h : valueProblems lib index value = []) (hstep : value.reading.step ≠ "") :
    isRequestStep index value.reading.step = true := by
  obtain ⟨name, reading⟩ := value
  cases reading with
  | template text => exact absurd rfl hstep
  | response step source path =>
    unfold valueProblems at h
    simp only at h
    split_ifs at h with hname hempty hrequest hsource
    exact Bool.not_eq_false _ ▸ hrequest

section Agree

variable {lib : Library} {target rename : String → String} {scope scope' : Scope} {id id' : String}
  (hagree : ReadsAgree rename scope scope' id id')

include hagree

theorem inputProblem_rewired {request : Option SavedRequest} {input : StepInput}
    (h : inputProblem lib id scope.index request scope.index.keys input = []) :
    inputProblem lib id' scope'.index request scope'.index.keys
      { input with value := input.value.rewired rename } = [] := by
  unfold inputProblem at h ⊢
  simp only at h ⊢
  rw [name_rewired, step_rewired]
  split_ifs at h with htarget hname hown hbefore hsibling
  · exact absurd h hown
  · rw [not_not] at hown
    have hvalue := valueProblems_rewired hagree.known hown
    rw [if_neg (not_not.2 htarget), if_neg hname, if_neg (not_not.2 hvalue)]
    have hplace : placeProblems lib { input with value := input.value.rewired rename } request = [] := by
      unfold placeProblems at h ⊢
      simp only [name_rewired]
      exact h
    by_cases hstep : input.value.reading.step = ""
    · have hsame : rewiredRead rename input.value.reading.step = "" := (if_pos hstep).trans hstep
      rw [hsame, if_neg (fun hboth => hboth.1 rfl), if_neg (fun hboth => hboth.1 rfl)]
      exact hplace
    · have hrequest := isRequestStep_of_valueProblems hown hstep
      have hread : rewiredRead rename input.value.reading.step = rename input.value.reading.step := if_neg hstep
      have hruns : runsBefore scope.index.keys input.value.reading.step id = true := by
        cases hruns : runsBefore scope.index.keys input.value.reading.step id with
        | true => rfl
        | false => exact absurd ⟨hstep, hruns⟩ hbefore
      have hapart : isSibling scope.index input.value.reading.step id = false := by
        cases hapart : isSibling scope.index input.value.reading.step id with
        | true => exact absurd ⟨hstep, hapart⟩ hsibling
        | false => rfl
      rw [hread, hagree.before _ hrequest hruns, hagree.sibling _ hrequest hapart, if_neg (fun hboth => nomatch hboth.2),
        if_neg (fun hboth => nomatch hboth.2)]
      exact hplace

theorem inputProblems_rewired {request : Option SavedRequest} {inputs : List StepInput}
    (h : inputProblems lib id inputs scope.index request scope.index.keys = []) :
    inputProblems lib id' (inputs.map fun input => { input with value := input.value.rewired rename }) scope'.index request
      scope'.index.keys = [] := by
  unfold inputProblems at h ⊢
  rw [List.flatMap_map]
  apply List.flatMap_eq_nil_iff.2
  intro input hinput
  exact inputProblem_rewired hagree (List.flatMap_eq_nil_iff.1 h input hinput)

omit hagree in
theorem caseProblems_retargeted (cases' : List Case) :
    caseProblems lib (cases'.map fun entry => { entry with target := target entry.target }) = caseProblems lib cases' := by
  unfold caseProblems
  congr 1
  apply List.ext_getElem?
  intro position
  rw [List.getElem?_mapIdx, List.getElem?_mapIdx, List.getElem?_map, Option.map_map]
  rfl

theorem kindProblems_rerouted {step step' : Step} (hid : step.head.id = id) (hid' : step'.head.id = id')
    (hfields : step'.head.fields = step.head.fields.rerouted target rename)
    (hinner : 0 < step.inner.length → 0 < step'.inner.length) (h : kindProblems lib step scope = []) :
    kindProblems lib step' scope' = [] := by
  unfold kindProblems at h ⊢
  rw [hfields]
  have hsteps : ∀ text : FlowText, (if step.inner.length > 0 then [] else [lib.say text]) = [] →
      (if step'.inner.length > 0 then [] else [lib.say text]) = [] := by
    intro text hnone
    split_ifs at hnone with hpos
    exact if_pos (hinner hpos)
  cases hkind : step.head.fields with
  | request fields =>
    rw [hkind] at h
    obtain ⟨hrequest, hinputs⟩ := List.append_eq_nil_iff.1 h
    rw [hid] at hinputs
    change requestProblems lib fields scope'.requests ++ inputProblems lib step'.head.id _ scope'.index
      (resolveRequest fields scope'.requests) scope'.index.keys = []
    rw [hagree.requests, hid', hrequest, inputProblems_rewired hagree hinputs]
    rfl
  | setStep values =>
    rw [hkind] at h
    change (values.map (NamedValue.rewired rename)).flatMap (valueProblems lib scope'.index) = []
    rw [List.flatMap_map]
    apply List.flatMap_eq_nil_iff.2
    intro value hvalue
    exact valueProblems_rewired hagree.known (List.flatMap_eq_nil_iff.1 h value hvalue)
  | ifStep fields =>
    rw [hkind] at h
    obtain ⟨hconditions, hresponse⟩ := List.append_eq_nil_iff.1 h
    exact List.append_eq_nil_iff.2 ⟨hconditions, responseReference_rewired hagree.known hresponse⟩
  | switch fields =>
    rw [hkind] at h
    obtain ⟨hcases, hresponse⟩ := List.append_eq_nil_iff.1 h
    refine List.append_eq_nil_iff.2 ⟨?_, responseReference_rewired hagree.known hresponse⟩
    change (if (fields.cases.map _).length > 0 then caseProblems lib (fields.cases.map _) else _) = []
    rw [List.length_map, caseProblems_retargeted]
    exact hcases
  | forEach fields =>
    rw [hkind] at h
    obtain ⟨hfirst, hinside⟩ := List.append_eq_nil_iff.1 h
    obtain ⟨hlist, hpath⟩ := List.append_eq_nil_iff.1 hfirst
    refine List.append_eq_nil_iff.2 ⟨List.append_eq_nil_iff.2 ⟨?_, hpath⟩, hsteps _ hinside⟩
    change (if rewiredRead rename fields.step ≠ "" then referenceProblem lib scope'.index (rewiredRead rename fields.step)
      else [lib.say .noList]) = []
    split_ifs at hlist with hstep
    have hreference := referenceProblem_rewired hagree.known hlist
    have hne : rewiredRead rename fields.step ≠ "" := by
      unfold rewiredRead
      rw [if_neg hstep]
      unfold referenceProblem at hlist
      split_ifs at hlist with hrequest
      cases hfound : isRequestStep scope.index fields.step with
      | true => exact (hagree.known _ hfound).1
      | false => exact absurd ⟨hstep, hfound⟩ hrequest
    rw [if_pos hne]
    exact hreference
  | repeatStep fields =>
    rw [hkind] at h
    obtain ⟨hinside, hresponse⟩ := List.append_eq_nil_iff.1 h
    refine List.append_eq_nil_iff.2 ⟨hsteps _ hinside, ?_⟩
    change (if hasActiveCondition fields.til then _ else _) = []
    split_ifs at hresponse ⊢ with hactive
    · exact responseReference_rewired hagree.known hresponse
    · rfl
  | flow fields =>
    rw [hkind] at h
    exact flowProblems_same hagree.flows h
  | parallel fields =>
    rw [hkind] at h
    exact hsteps _ h
  | _ => rfl

end Agree

theorem kind_rerouted (target rename : String → String) (fields : Fields) :
    (fields.rerouted target rename).kind = fields.kind := by
  cases fields <;> rfl

theorem routesOf_rewired (head : StepHead) (rename : String → String) (inner : List Step) :
    routesOf (.node (head.rewired rename) inner) = routesOf (.node head inner) := by
  obtain ⟨id, label, note, fields, next⟩ := head
  cases fields <;> rfl

/-- The routes of a step whose fields are rerouted. -/
theorem routesOf_rerouted {target rename : String → String} {step step' : Step}
    (hfields : step'.head.fields = step.head.fields.rerouted target rename)
    (hnext : step'.head.next = target step.head.next) :
    routesOf step' = (routesOf step).map fun route => (route.1, target route.2) := by
  have hretargeted := routesOf_retargeted step.head target step.inner
  have hsame : routesOf step' = routesOf (.node ((step.head.retargeted target).rewired rename) step'.inner) := by
    unfold routesOf caseTargets fieldTargets
    simp only [Outline.head_node]
    rw [hfields, hnext]
    rfl
  have hself : routesOf step = routesOf (.node step.head step.inner) := routesOf_congr rfl
  have hinner : routesOf (.node (step.head.retargeted target) step'.inner) =
      routesOf (.node (step.head.retargeted target) step.inner) := routesOf_congr rfl
  rw [hsame, hself, routesOf_rewired, hinner, hretargeted]

section Steps

variable {lib : Library} {target rename : String → String} {scope scope' : Scope} {step step' : Step}
  (hfields : step'.head.fields = step.head.fields.rerouted target rename)
  (hnext : step'.head.next = target step.head.next)

include hfields

theorem kind_of_rerouted : step'.head.kind = step.head.kind := by
  unfold StepHead.kind
  rw [hfields, kind_rerouted]

theorem hasRetry_rerouted : hasRetry step' = hasRetry step := by
  unfold hasRetry
  rw [hfields]
  cases step.head.fields <;> rfl

theorem shapeProblems_rerouted (names : List String) : shapeProblems lib step' names = shapeProblems lib step names := by
  have hloops : loopNamesOf step' = loopNamesOf step := by
    unfold loopNamesOf
    rw [hfields]
    cases step.head.fields <;> rfl
  have hconditions : conditionListsOf step' = conditionListsOf step := by
    unfold conditionListsOf
    rw [hfields]
    cases step.head.fields with
    | switch fields => exact List.map_map
    | _ => rfl
  unfold shapeProblems tooDeep
  rw [hloops, hconditions]

include hnext

theorem branchProblems_rerouted (hempty : ∀ route ∈ routesOf step, target route.2 = "" ↔ route.2 = "")
    (hbranch : isBranch scope'.index step'.head.id = isBranch scope.index step.head.id) :
    branchProblems lib step' scope' = branchProblems lib step scope := by
  have htargets : (targetsOf step').length = (targetsOf step).length := by
    unfold targetsOf
    rw [routesOf_rerouted hfields hnext, List.filter_map, List.length_map]
    congr 1
    apply List.filter_congr
    intro route hroute
    exact decide_eq_decide.2 (not_congr (hempty route hroute))
  unfold branchProblems
  rw [hbranch, kind_of_rerouted hfields, htargets, hasRetry_rerouted hfields]

/-- A step without problems has none elsewhere, when its reads agree, it is a
branch in both places and its targets can be reached in both. -/
theorem stepProblems_rerouted (hagree : ReadsAgree rename scope scope' step.head.id step'.head.id)
    (hinner : 0 < step.inner.length → 0 < step'.inner.length)
    (hempty : ∀ route ∈ routesOf step, target route.2 = "" ↔ route.2 = "")
    (hbranch : isBranch scope'.index step'.head.id = isBranch scope.index step.head.id)
    (htargets : targetProblems lib scope.index step = [] → targetProblems lib scope'.index step' = [])
    (h : stepProblems lib step scope = []) : stepProblems lib step' scope' = [] := by
  have hkind := kind_of_rerouted hfields
  have hsame := @branchProblems_rerouted lib target rename scope scope' step step' hfields hnext hempty hbranch
  unfold stepProblems at h ⊢
  rw [hkind, hsame]
  cases hstep : step.head.kind with
  | unknown name =>
    rw [hstep] at h
    cases h
  | _ =>
    rw [hstep] at h
    simp only at h ⊢
    obtain ⟨hfirst, hlast⟩ := List.append_eq_nil_iff.1 h
    obtain ⟨hown, hnone⟩ := List.append_eq_nil_iff.1 hfirst
    rw [hnone] at hlast ⊢
    rw [kindProblems_rerouted hagree rfl rfl hfields hinner hown]
    exact htargets hlast

end Steps

end Gostman.Flows
