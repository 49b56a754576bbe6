import Gostman.Flows.Conditions
import Gostman.Lib.FreeName
import Gostman.Lib.Outline
/-!
# Flows and their normal form

`flows/model.js` and the declared variables of `flows/declared.js`: what a
flow is made of, how `normalizeFlow` reads one from any value, and the index
of its steps with the loops around each of them.

A kind that is not a step's gives a step no fields.  `Flows.Inherited` reads the
ones among them that name a member of `Object.prototype` (`constructor`, `toString`
and so on), for which the lookup `FIELDS[kind]` finds an inherited function.
-/

namespace Gostman.Flows

open Gostman.Lib Gostman.Js

/-- `STEP_KINDS`, and any other text a file can hold as a kind. -/
inductive Kind where
  | request
  | setStep
  | ifStep
  | switch
  | forEach
  | repeatStep
  | parallel
  | flow
  | delay
  | endStep
  | unknown (name : String)
  deriving DecidableEq

def Kind.text : Kind → String
  | request => "request"
  | setStep => "set"
  | ifStep => "if"
  | switch => "switch"
  | forEach => "forEach"
  | repeatStep => "repeat"
  | parallel => "parallel"
  | flow => "flow"
  | delay => "delay"
  | endStep => "end"
  | unknown name => name

/-- The kind of a step; every other text, the name of a member of `Object.prototype`
too, is a kind without fields. -/
def Kind.ofText (name : String) : Kind :=
  if name = "request" then request
  else if name = "set" then setStep
  else if name = "if" then ifStep
  else if name = "switch" then switch
  else if name = "forEach" then forEach
  else if name = "repeat" then repeatStep
  else if name = "parallel" then parallel
  else if name = "flow" then flow
  else if name = "delay" then delay
  else if name = "end" then endStep
  else unknown name

def Kind.isContainer : Kind → Bool
  | forEach | repeatStep | parallel => true
  | _ => false

def endTarget : String := "end"

inductive Outcome where
  | passed
  | failed
  deriving DecidableEq

inductive Source where
  | body
  | header
  | status
  deriving DecidableEq

inductive ConditionSource where
  | response
  | vars
  deriving DecidableEq

inductive VariableType where
  | string
  | number
  | boolean
  | json
  deriving DecidableEq

def defaultMaxSends : Nat := 1000
def maxSendsCap : Nat := 10000
def maxAttempts : Nat := 50
def maxDelayMs : Nat := 600000
def defaultDelayMs : Nat := 1000
def defaultItemName : String := "item"
def defaultIndexName : String := "index"
def defaultPasses : Nat := 3
def maxPasses : Nat := 1000
def maxFlowDepth : Nat := 8
def maxNesting : Nat := 8

/-- How often a request step is tried, and until when. -/
structure Retry where
  times : Nat
  delayMs : Nat
  til : List Assertion
  deriving DecidableEq

/-- Where a value comes from: a template, or the response of a step. -/
inductive Reading where
  | template (value : String)
  | response (step : String) (source : Source) (path : String)
  deriving DecidableEq

/-- A named value of a Set step, of the outputs or of an input. -/
structure NamedValue where
  name : String
  reading : Reading
  deriving DecidableEq

structure StepInput where
  target : String
  value : NamedValue
  deriving DecidableEq

structure Case where
  label : String
  mode : Match
  conditions : List Condition
  target : String

structure RequestFields where
  request : String
  requestId : String
  vars : Record String String
  inputs : List StepInput
  retry : Retry
  onFailure : String

structure IfFields where
  source : ConditionSource
  step : String
  mode : Match
  conditions : List Condition
  thenTo : String
  elseTo : String

structure SwitchFields where
  source : ConditionSource
  step : String
  cases : List Case
  elseTo : String

structure ForEachFields where
  step : String
  path : String
  itemAs : String
  indexAs : String

structure RepeatFields where
  times : Nat
  delayMs : Nat
  indexAs : String
  source : ConditionSource
  step : String
  mode : Match
  til : List Condition
  onFailure : String

structure ParallelFields where
  mode : Match
  til : List Condition
  timeoutMs : Nat
  onFailure : String

structure FlowFields where
  flow : String
  flowId : String
  vars : Record String String
  onFailure : String

structure EndFields where
  outcome : Outcome
  message : String

inductive Fields where
  | request (fields : RequestFields)
  | setStep (values : List NamedValue)
  | ifStep (fields : IfFields)
  | switch (fields : SwitchFields)
  | forEach (fields : ForEachFields)
  | repeatStep (fields : RepeatFields)
  | parallel (fields : ParallelFields)
  | flow (fields : FlowFields)
  | delay (ms : Nat)
  | endStep (fields : EndFields)
  | unknown (kind : String)

def Fields.kind : Fields → Kind
  | request _ => .request
  | setStep _ => .setStep
  | ifStep _ => .ifStep
  | switch _ => .switch
  | forEach _ => .forEach
  | repeatStep _ => .repeatStep
  | parallel _ => .parallel
  | flow _ => .flow
  | delay _ => .delay
  | endStep _ => .endStep
  | unknown name => .unknown name

structure StepHead where
  id : String
  label : String
  note : String
  fields : Fields
  next : String

def StepHead.kind (head : StepHead) : Kind := head.fields.kind

abbrev Step := Outline StepHead

def opensInner (head : StepHead) : Bool := head.kind.isContainer

def innerSteps (step : Step) : List Step := step.shown opensInner

structure Declared where
  name : String
  type : VariableType
  value : String
  input : Bool
  required : Bool
  deriving DecidableEq

structure Flow where
  id : String
  name : String
  description : String
  maxSends : Nat
  vars : List Declared
  outputs : List NamedValue
  steps : List Step

/-! ## Reading the fields of a step -/

section Normalize

variable (numerals : Numerals)

/-- `oneOf(value, VALUE_SOURCES, SOURCE_BODY)`. -/
def sourceOf : Option Json → Source
  | some (.str "header") => .header
  | some (.str "status") => .status
  | _ => .body

def isSource : Option Json → Bool
  | some (.str name) => name = "body" || name = "header" || name = "status"
  | _ => false

/-- `oneOf(value, CONDITION_SOURCES, CONDITION_RESPONSE)`. -/
def conditionSourceOf : Option Json → ConditionSource
  | some (.str "variables") => .vars
  | _ => .response

/-- `oneOf(value, OUTCOMES, OUTCOME_PASSED)`. -/
def outcomeOf : Option Json → Outcome
  | some (.str "failed") => .failed
  | _ => .passed

/-- `VARIABLE_TYPES.includes(declared.type) ? declared.type : TYPE_STRING`. -/
def variableTypeOf : Option Json → VariableType
  | some (.str "number") => .number
  | some (.str "boolean") => .boolean
  | some (.str "json") => .json
  | _ => .string

def textMap : Option Json → Record String String
  | some (.obj fields) =>
      Record.ofEntries ((fields.map fun entry => (trim entry.1, text numerals (some entry.2))).filter
        fun entry => entry.1 ≠ "")
  | _ => []

def retryOf (raw : Option Json) : Retry :=
  let retry := match raw with
    | some (.obj fields) => Json.obj fields
    | _ => .obj []
  { times := whole numerals (retry.field "times") 1 maxAttempts 1
    delayMs := whole numerals (retry.field "delayMs") 0 maxDelayMs 0
    til := normalizeAssertions numerals (retry.field "until") }

def valueOf (raw : Json) : NamedValue :=
  let step := trimmed numerals (raw.field "step")
  { name := trimmed numerals (raw.field "name")
    reading :=
      if step = "" && !isSource (raw.field "source") then .template (text numerals (raw.field "value"))
      else .response step (sourceOf (raw.field "source")) (trimmed numerals (raw.field "path")) }

def caseOf (raw : Json) : Case :=
  { label := text numerals (raw.field "label")
    mode := matchOf (raw.field "match")
    conditions := normalizeConditions numerals (raw.field "conditions")
    target := trimmed numerals (raw.field "target") }

def inputOf (raw : Json) : StepInput :=
  { target := trimmed numerals (raw.field "target"), value := valueOf numerals raw }

def trimmedOr (value : Option Json) (fallback : String) : String :=
  if trimmed numerals value = "" then fallback else trimmed numerals value

/-- What the readers of `FIELDS` give.  The lookup `FIELDS[kind]` also finds the members
of `Object.prototype`: what it gives for their names is `inheritedFields`, and
`normalizedFlow` is the normalization with both. -/
def fieldsOf (raw : Json) : Kind → Fields
  | .request => .request
      { request := trimmed numerals (raw.field "request")
        requestId := trimmed numerals (raw.field "requestId")
        vars := textMap numerals (raw.field "variables")
        inputs := (Json.listOf (raw.field "inputs")).map (inputOf numerals)
        retry := retryOf numerals (raw.field "retry")
        onFailure := trimmed numerals (raw.field "onFailure") }
  | .setStep => .setStep ((Json.listOf (raw.field "values")).map (valueOf numerals))
  | .ifStep => .ifStep
      { source := conditionSourceOf (raw.field "source")
        step := trimmed numerals (raw.field "step")
        mode := matchOf (raw.field "match")
        conditions := normalizeConditions numerals (raw.field "conditions")
        thenTo := trimmed numerals (raw.field "then")
        elseTo := trimmed numerals (raw.field "else") }
  | .forEach => .forEach
      { step := trimmed numerals (raw.field "step")
        path := trimmed numerals (raw.field "path")
        itemAs := trimmedOr numerals (raw.field "as") defaultItemName
        indexAs := trimmedOr numerals (raw.field "indexAs") defaultIndexName }
  | .switch => .switch
      { source := conditionSourceOf (raw.field "source")
        step := trimmed numerals (raw.field "step")
        cases := (Json.listOf (raw.field "cases")).map (caseOf numerals)
        elseTo := trimmed numerals (raw.field "else") }
  | .repeatStep =>
      let til := normalizeConditions numerals (raw.field "until")
      .repeatStep
        { times := whole numerals (raw.field "times") 1 maxPasses defaultPasses
          delayMs := whole numerals (raw.field "delayMs") 0 maxDelayMs 0
          indexAs := trimmedOr numerals (raw.field "indexAs") defaultIndexName
          source := conditionSourceOf (raw.field "source")
          step := trimmed numerals (raw.field "step")
          mode := matchOf (raw.field "match")
          til := til
          onFailure := if hasActiveCondition til then trimmed numerals (raw.field "onFailure") else "" }
  | .parallel => .parallel
      { mode := matchOf (raw.field "match")
        til := normalizeConditions numerals (raw.field "until")
        timeoutMs := whole numerals (raw.field "timeoutMs") 0 maxDelayMs 0
        onFailure := trimmed numerals (raw.field "onFailure") }
  | .flow => .flow
      { flow := trimmed numerals (raw.field "flow")
        flowId := trimmed numerals (raw.field "flowId")
        vars := textMap numerals (raw.field "variables")
        onFailure := trimmed numerals (raw.field "onFailure") }
  | .delay => .delay (whole numerals (raw.field "ms") 0 maxDelayMs defaultDelayMs)
  | .endStep => .endStep
      { outcome := outcomeOf (raw.field "outcome"), message := text numerals (raw.field "message") }
  | .unknown name => .unknown name

/-- `normalizeStep` without the inner steps. -/
def headOf (raw : Json) : StepHead :=
  { id := trimmed numerals (raw.field "id")
    label := text numerals (raw.field "label")
    note := text numerals (raw.field "note")
    fields := fieldsOf numerals raw (.ofText (trimmedOr numerals (raw.field "kind") "request"))
    next := trimmed numerals (raw.field "next") }

mutual

def normalizeStep (depth : Nat) : Json → Option Step
  | .obj fields =>
      let head := headOf numerals (.obj fields)
      some (.node head
        (if head.kind.isContainer && depth < maxNesting then stepsField (depth + 1) fields else []))
  | _ => none

def stepsField (depth : Nat) : List (String × Json) → List Step
  | [] => []
  | (key, value) :: rest =>
      if key = "steps" then stepsValue depth value else stepsField depth rest

def stepsValue (depth : Nat) : Json → List Step
  | .arr items => normalizeList depth items
  | _ => []

def normalizeList (depth : Nat) : List Json → List Step
  | [] => []
  | item :: rest => (normalizeStep depth item).toList ++ normalizeList depth rest

end

def normalizeDeclared (raw : Json) : Declared :=
  let isTrue (value : Option Json) : Bool := match value with
    | some (.bool true) => true
    | _ => false
  let isInput := isTrue (raw.field "input")
  { name := trim (text numerals (raw.field "name"))
    type := variableTypeOf (raw.field "type")
    value := text numerals (raw.field "value")
    input := isInput
    required := isInput && isTrue (raw.field "required") }

end Normalize

/-! ## Unique ids -/

def prototypeNames : List String :=
  ["constructor", "__defineGetter__", "__defineSetter__", "hasOwnProperty", "__lookupGetter__",
    "__lookupSetter__", "isPrototypeOf", "propertyIsEnumerable", "toString", "valueOf", "__proto__",
    "toLocaleString"]

def numberedId (base : String) (number : Nat) : String :=
  base ++ "-" ++ toString number

def baseId (wanted : String) : String :=
  if wanted = endTarget ∨ wanted ∈ prototypeNames then wanted ++ "-step" else wanted

/-- `uniqueId`.  The loop that counts up ends within as many attempts as there
are taken ids. -/
def uniqueId (wanted : String) (taken : List String) : String :=
  let base := baseId wanted
  if base ∉ taken then base
  else numberedId base (firstFree (fun number => numberedId base number ∉ taken) taken.length 2)

mutual

/-- `withUniqueIds` on a list, with the ids taken so far. -/
def uniqueSteps (taken : List String) : List Step → List Step × List String
  | [] => ([], taken)
  | step :: rest =>
      let named := uniqueStep taken step
      let others := uniqueSteps named.2 rest
      (named.1 :: others.1, others.2)

def uniqueStep (taken : List String) : Step → Step × List String
  | .node head inner =>
      let id := uniqueId (if head.id = "" then head.kind.text else head.id) taken
      let head' := { head with id := id }
      if head.kind.isContainer then
        let others := uniqueSteps (taken ++ [id]) inner
        (.node head' others.1, others.2)
      else (.node head' inner, taken ++ [id])

end

def withUniqueIds (steps : List Step) : List Step :=
  (uniqueSteps [] steps).1

def normalizeFlow (numerals : Numerals) (raw : Json) : Flow :=
  let flow := match raw with
    | .obj fields => Json.obj fields
    | _ => .obj []
  { id := trimmed numerals (flow.field "id")
    name := text numerals (flow.field "name")
    description := text numerals (flow.field "description")
    maxSends := whole numerals (flow.field "maxSends") 1 maxSendsCap defaultMaxSends
    vars := (Json.listOf (flow.field "variables")).map (normalizeDeclared numerals)
    outputs := (Json.listOf (flow.field "outputs")).map (valueOf numerals)
    steps := withUniqueIds (match flow with
      | .obj fields => stepsField numerals 0 fields
      | _ => []) }

/-! ## The index of the steps -/

/-- A step with its place: the list it stands in, its position there and the
id of the step around it. -/
abbrev Entry := Outline.Spot StepHead String

/-- `walkSteps`: every step with its place, each before the steps inside it. -/
def walkSteps (steps : List Step) (parent : String) : List Entry :=
  Outline.walk opensInner (fun _ head => head.id) steps parent

def allStepIds (steps : List Step) : List String :=
  (walkSteps steps "").map fun entry => entry.item.head.id

def indexSteps (steps : List Step) : Record String Entry :=
  Record.ofEntries ((walkSteps steps "").map fun entry => (entry.item.head.id, entry))

/-- The id of the step around a step, empty at the top level. -/
def parentOf (index : Record String Entry) (id : String) : String :=
  ((index.read id).map Outline.Spot.parent).getD ""

/-- The loop of `loopsAround`, which `bound` keeps from running on. -/
def loopsFrom (index : Record String Entry) : Nat → String → List String
  | 0, _ => []
  | bound + 1, parent =>
      if parent = "" then [] else loopsFrom index bound (parentOf index parent) ++ [parent]

/-- `loopsAround`: the ids of the steps around a step, outermost first. -/
def loopsAround (index : Record String Entry) (id : String) : List String :=
  loopsFrom index index.length (parentOf index id)

def isBranch (index : Record String Entry) (id : String) : Bool :=
  match index.read (parentOf index id) with
  | some entry => entry.item.head.kind = .parallel
  | none => false

/-! ## Targets -/

/-- The field of a step that names a target: a case, or one of
`TARGET_FIELDS`. -/
inductive TargetField where
  | caseAt (position : Nat)
  | next
  | onFailure
  | thenTo
  | elseTo
  deriving DecidableEq

def Fields.onFailure? : Fields → Option String
  | .request fields => some fields.onFailure
  | .repeatStep fields => some fields.onFailure
  | .parallel fields => some fields.onFailure
  | .flow fields => some fields.onFailure
  | _ => none

def Fields.thenTo? : Fields → Option String
  | .ifStep fields => some fields.thenTo
  | _ => none

def Fields.elseTo? : Fields → Option String
  | .ifStep fields => some fields.elseTo
  | .switch fields => some fields.elseTo
  | _ => none

def fieldTargets (step : Step) : List (TargetField × String) :=
  [(TargetField.next, some step.head.next), (.onFailure, step.head.fields.onFailure?),
    (.thenTo, step.head.fields.thenTo?), (.elseTo, step.head.fields.elseTo?)].filterMap
    fun (field, target) => target.map fun id => (field, id)

def caseTargets (step : Step) : List (TargetField × String) :=
  match step.head.fields with
  | .switch fields => fields.cases.mapIdx fun position entry => (.caseAt position, entry.target)
  | _ => []

def routesOf (step : Step) : List (TargetField × String) :=
  caseTargets step ++ fieldTargets step

def targetsOf (step : Step) : List (TargetField × String) :=
  (routesOf step).filter fun route => route.2 ≠ ""

end Gostman.Flows
