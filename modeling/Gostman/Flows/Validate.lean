import Gostman.Flows.Json
import Gostman.Flows.Values
/-!
# What a flow must meet to run

`flows/validate.js`: the problems of a flow, step by step, and how a step
finds the request it sends and the flow it runs.
-/

namespace Gostman.Flows

open Gostman.Lib Gostman.Js

structure SavedRequest where
  id : String
  path : String
  name : String
  bodyType : String
  deriving DecidableEq

def uniqueMatch {α : Type} (items : List α) (isMatch : α → Bool) : Option α :=
  match items.filter isMatch with
  | [found] => some found
  | _ => none

def resolveRequest (fields : RequestFields) (requests : List SavedRequest) : Option SavedRequest :=
  let byId := if fields.requestId = "" then none
    else requests.find? fun request => request.id = fields.requestId
  match byId with
  | some request => some request
  | none =>
      if fields.request = "" then none
      else (uniqueMatch requests fun request => request.path = fields.request).or
        (uniqueMatch requests fun request => request.name = fields.request)

def resolveFlow (fields : FlowFields) (flows : List StoredFlow) : Option StoredFlow :=
  let byId := if fields.flowId = "" then none
    else flows.find? fun flow => flow.id = fields.flowId
  match byId with
  | some flow => some flow
  | none =>
      if fields.flow = "" then none
      else uniqueMatch flows fun flow => flow.name = fields.flow

/-- What `validateFlow` checks a step against. -/
structure Scope where
  flow : Flow
  requests : List SavedRequest
  flows : List StoredFlow
  flowsById : Record String StoredFlow
  index : Record String Entry

/-- `flowScope`: the draft takes the place of the stored flow of its id. -/
def flowScope (flow : Flow) (requests : List SavedRequest) (flows : List StoredFlow) : Scope :=
  let others := flows.filter fun candidate => candidate.id ≠ flow.id
  let known := flow.stored :: others
  { flow := flow
    requests := requests
    flows := known
    flowsById := Record.ofEntries (known.map fun candidate => (candidate.id, candidate))
    index := indexSteps flow.steps }

/-- A problem, with the id of its step or the empty text. -/
structure Problem where
  step : String
  message : String

/-- `REACH_FINE`, `REACH_CYCLE` and `REACH_DEEP`. -/
inductive Reach where
  | fine
  | cycle
  | deep
  deriving DecidableEq

variable (lib : Library)

def lastSegment (path : String) : String :=
  String.ofList (path.toList.reverse.takeWhile (· ≠ '/')).reverse

def caseLabel (entry : Case) (position : Nat) : String :=
  if trim entry.label = "" then lib.say (.caseName position) else trim entry.label

def stepTitle (step : Step) (requests : List SavedRequest) (flows : List StoredFlow) : String :=
  let kindLabel := lib.say (.kindLabel step.head.kind)
  if trim step.head.label ≠ "" then trim step.head.label
  else match step.head.fields with
    | .flow fields =>
        let name := ((resolveFlow fields flows).map StoredFlow.name).getD ""
        if name ≠ "" then name else if fields.flow ≠ "" then fields.flow else kindLabel
    | .request fields =>
        match resolveRequest fields requests with
        | some request => request.name
        | none => if fields.request ≠ "" then lastSegment fields.request else kindLabel
    | _ => kindLabel

def fieldText (step : Step) (field : TargetField) : String :=
  match field, step.head.fields with
  | .caseAt position, .switch fields =>
      let label := ((fields.cases[position]?).map fun entry => caseLabel lib entry position).getD ""
      lib.say (.fieldText (.caseOf label))
  | .elseTo, .switch _ => lib.say (.fieldText .otherwise)
  | field, _ => lib.say (.fieldText (.field field))

def isRequestStep (index : Record String Entry) (id : String) : Bool :=
  match index.read id with
  | some entry => entry.item.head.kind = .request
  | none => false

def targetProblem (index : Record String Entry) (step : Step) (route : TargetField × String) :
    List String :=
  let (field, target) := route
  let around := loopsAround index step.head.id
  if target = endTarget then []
  else if !index.has target then [lib.say (.unknownTarget (fieldText lib step field) target)]
  else if (loopsAround index target).all fun loop => loop ∈ around then []
  else if isBranch index target then [lib.say (.intoBranch (fieldText lib step field) target)]
  else [lib.say (.intoLoop (fieldText lib step field) target)]

def targetProblems (index : Record String Entry) (step : Step) : List String :=
  (targetsOf step).flatMap (targetProblem lib index step)

def referenceProblem (index : Record String Entry) (id : String) : List String :=
  if id ≠ "" ∧ isRequestStep index id = false then [lib.say (.notRequestStep id)] else []

def responseReference (index : Record String Entry) (source : ConditionSource) (id : String) :
    List String :=
  if source = .response then referenceProblem lib index id else []

def valueProblems (index : Record String Entry) (value : NamedValue) : List String :=
  if value.name = "" then [lib.say .noName]
  else match value.reading with
    | .template _ => []
    | .response step source path =>
        if step = "" then [lib.say (.noValueStep value.name)]
        else if isRequestStep index step = false then [lib.say (.notRequestStep step)]
        else if source = .body ∧ path = "" then [lib.say (.noSource value.name)]
        else []

def caseProblems (cases : List Case) : List String :=
  (cases.mapIdx fun position entry =>
    if hasActiveCondition entry.conditions then []
    else [lib.say (.caseNoConditions (caseLabel lib entry position))]).flatten

def flowSteps (flow : Flow) : List FlowFields :=
  (walkSteps flow.steps "").filterMap fun entry => match entry.item.head.fields with
    | .flow fields => some fields
    | _ => none

/-- `reach`.  The search stops by itself once the path is longer than
`MAX_FLOW_DEPTH`; `bound` only makes that visible to the recursion. -/
def reach (scope : Scope) : Nat → String → List String → Reach
  | 0, _, _ => .deep
  | bound + 1, flowId, path =>
      if flowId ∈ path then .cycle
      else if path.length > maxFlowDepth then .deep
      else match scope.flowsById.read flowId with
        | none => .fine
        | some flow =>
            let called := (flowSteps (normalizeFlow lib.numerals flow.raw)).map fun fields =>
              match resolveFlow fields scope.flows with
              | some called => reach scope bound called.id (path ++ [flowId])
              | none => .fine
            (called.find? (· ≠ .fine)).getD .fine

def flowProblems (fields : FlowFields) (scope : Scope) : List String :=
  if fields.flow = "" ∧ fields.flowId = "" then [lib.say .noFlow]
  else match resolveFlow fields scope.flows with
    | none => [lib.say (.missingFlow (if fields.flow ≠ "" then fields.flow else fields.flowId))]
    | some called =>
        match reach lib scope (maxFlowDepth + 1) called.id [scope.flow.id] with
        | .cycle => [lib.say (.flowCycle called.name)]
        | .deep => [lib.say (.flowTooDeep maxFlowDepth)]
        | .fine => []

def requestProblems (fields : RequestFields) (requests : List SavedRequest) : List String :=
  if fields.request = "" ∧ fields.requestId = "" then [lib.say .noRequest]
  else if (resolveRequest fields requests).isSome then []
  else [lib.say (.missingRequest (if fields.request ≠ "" then fields.request else fields.requestId))]

/-- `runsBefore`: an id that is not in the order comes before all others. -/
def runsBefore (order : List String) (first second : String) : Bool :=
  let position (id : String) : Int := match order.findIdx? (· = id) with
    | some position => position
    | none => -1
  position first < position second

def isSibling (index : Record String Entry) (first second : String) : Bool :=
  isBranch index first &&
    (index.read first).map Outline.Spot.parent = (index.read second).map Outline.Spot.parent

def placeProblems (input : StepInput) (request : Option SavedRequest) : List String :=
  let name := input.value.name
  if input.target = "body" ∧ lib.isBodyPath name = false then [lib.say (.inputBadPath name)]
  else match request with
    | none => []
    | some request =>
        if input.target = "body" ∧ acceptsBody request.bodyType = false then
          [lib.say (.inputNotJson name)]
        else if input.target = "form" ∧ acceptsForm request.bodyType = false then
          [lib.say (.inputNotForm name)]
        else []

def Reading.step : Reading → String
  | template _ => ""
  | response step _ _ => step

def inputProblem (id : String) (index : Record String Entry) (request : Option SavedRequest)
    (order : List String) (input : StepInput) : List String :=
  let own := valueProblems lib index input.value
  let source := input.value.reading.step
  if input.target ∉ inputTargets then [lib.say (.unknownInput input.target)]
  else if input.value.name = "" then [lib.say .noInputName]
  else if own ≠ [] then own
  else if source ≠ "" ∧ runsBefore order source id = false then [lib.say (.notEarlierStep source)]
  else if source ≠ "" ∧ isSibling index source id then [lib.say (.siblingBranch source)]
  else placeProblems lib input request

def inputProblems (id : String) (inputs : List StepInput) (index : Record String Entry)
    (request : Option SavedRequest) (order : List String) : List String :=
  inputs.flatMap (inputProblem lib id index request order)

def kindProblems (step : Step) (scope : Scope) : List String :=
  let index := scope.index
  match step.head.fields with
  | .request fields =>
      requestProblems lib fields scope.requests ++
        inputProblems lib step.head.id fields.inputs index (resolveRequest fields scope.requests)
          index.keys
  | .setStep values => values.flatMap (valueProblems lib index)
  | .ifStep fields =>
      (if hasActiveCondition fields.conditions then [] else [lib.say .noConditions]) ++
        responseReference lib index fields.source fields.step
  | .switch fields =>
      (if fields.cases.length > 0 then caseProblems lib fields.cases else [lib.say .noCases]) ++
        responseReference lib index fields.source fields.step
  | .forEach fields =>
      (if fields.step ≠ "" then referenceProblem lib index fields.step else [lib.say .noList]) ++
        (if fields.path ≠ "" then [] else [lib.say .noPath]) ++
        (if step.inner.length > 0 then [] else [lib.say .emptyLoop])
  | .repeatStep fields =>
      (if step.inner.length > 0 then [] else [lib.say .emptyRepeat]) ++
        (if hasActiveCondition fields.til then responseReference lib index fields.source fields.step
          else [])
  | .flow fields => flowProblems lib fields scope
  | .parallel _ => if step.inner.length > 0 then [] else [lib.say .emptyParallel]
  | .delay _ | .endStep _ | .unknown _ => []

def hasRetry (step : Step) : Bool :=
  match step.head.fields with
  | .request fields =>
      fields.retry.times > 1 || hasActiveCondition (fields.retry.til.map .check)
  | _ => false

def branchProblems (step : Step) (scope : Scope) : List String :=
  if isBranch scope.index step.head.id = false then []
  else if step.head.kind ≠ .request ∧ step.head.kind ≠ .flow then [lib.say .branchKind]
  else
    (if (targetsOf step).length > 0 then [lib.say .branchJump] else []) ++
      (if hasRetry step then [lib.say .branchRetry] else [])

def stepProblems (step : Step) (scope : Scope) : List String :=
  match step.head.kind with
  | .unknown name => [lib.say (.unknownKind name)]
  | _ =>
      let branch := branchProblems lib step scope
      kindProblems lib step scope ++ branch ++
        (if branch.length > 0 then [] else targetProblems lib scope.index step)

def hasPlaceholder (template : String) : Bool :=
  ['{', '{'] <:+: template.toList

def loopProblems (flow : Flow) : List String :=
  let looped := (declarationOrder lib (namedDeclared flow) Declared.input).2
  if looped.length > 0 then [lib.say (.variablesLoop looped)] else []

/-- The problems of the declared variables one by one, with the names seen so
far. -/
def declaredEach : List String → List Declared → List String
  | _, [] => []
  | seen, declared :: rest =>
      if declared.name = "" then lib.say .noVariableName :: declaredEach seen rest
      else if declared.name ∈ seen then
        lib.say (.variableTwice declared.name) :: declaredEach seen rest
      else
        (if declared.required || hasPlaceholder declared.value ||
            (coerce lib declared.value declared.type).isSome then []
          else [lib.say (.notOfType declared.name (lib.say (.typeName declared.type)) declared.value)]) ++
          declaredEach (declared.name :: seen) rest

def declaredProblems (flow : Flow) : List String :=
  let problems := declaredEach lib [] flow.vars
  if problems.length > 0 then problems else loopProblems lib flow

def outputProblems (flow : Flow) (index : Record String Entry) : List String :=
  flow.outputs.flatMap (valueProblems lib index)

def conditionListsOf (step : Step) : List (List Condition) :=
  match step.head.fields with
  | .ifStep fields => [fields.conditions]
  | .switch fields => fields.cases.map Case.conditions
  | .repeatStep fields => [fields.til]
  | .parallel fields => [fields.til]
  | _ => []

def tooDeep (step : Step) : Bool :=
  (conditionListsOf step).any fun conditions => groupDepth conditions > maxGroupDepth

def loopNamesOf (step : Step) : List String :=
  let names := match step.head.fields with
    | .forEach fields => [fields.itemAs, fields.indexAs]
    | .repeatStep fields => [fields.indexAs]
    | _ => []
  names.filter (· ≠ "")

def shapeProblems (step : Step) (declaredNames : List String) : List String :=
  let hidden := ((loopNamesOf step).filter (· ∈ declaredNames)).map fun name =>
    lib.say (.loopHidesVariable name)
  if tooDeep step then hidden ++ [lib.say (.groupsTooDeep maxGroupDepth)] else hidden

def validateFlow (flow : Flow) (requests : List SavedRequest) (flows : List StoredFlow) :
    List Problem :=
  if flow.steps.length = 0 then [⟨"", lib.say .noSteps⟩]
  else
    let scope := flowScope flow requests flows
    let declaredNames := flow.vars.map Declared.name
    (declaredProblems lib flow ++ outputProblems lib flow scope.index).map (Problem.mk "") ++
      (walkSteps flow.steps "").flatMap fun entry =>
        (stepProblems lib entry.item scope ++ shapeProblems lib entry.item declaredNames).map
          (Problem.mk entry.item.head.id)

/-- `describeProblems`, `none` where the step of a problem is not one of the
flow's. -/
def describeProblems (flow : Flow) (problems : List Problem) (requests : List SavedRequest)
    (flows : List StoredFlow) : Option String := do
  let index := indexSteps flow.steps
  let lines ← problems.mapM fun problem =>
    if problem.step = "" then some problem.message
    else (index.read problem.step).map fun entry =>
      lib.say (.problem (stepTitle lib entry.item requests flows) problem.message)
  return "\n".intercalate (lib.say (.cannotRun problems.length) :: lines)

end Gostman.Flows
