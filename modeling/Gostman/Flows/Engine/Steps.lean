import Gostman.Flows.Engine.Turn
/-!
# The steps of a flow

`flows/engine.js`, second part: what each kind of step does when the run comes
to it, and the loop of `proceed`.
-/

namespace Gostman.Flows

open Gostman.Lib Gostman.Js

section Engine

variable (scene : Scene)

/-! ## The send budget -/

def sendLimit : Nat := min scene.flow.maxSends scene.sendsLeft

def isOverBudget (turn : Turn) : Bool := turn.state.sends ≥ sendLimit scene

def budgetMessage : String :=
  if scene.sendsLeft < scene.flow.maxSends then ""
  else if scene.isNested then
    scene.lib.say (.budgetOf scene.flow.name (sendLimit scene) maxSendsCap)
  else scene.lib.say (.budget (sendLimit scene) maxSendsCap)

def stopForBudget (turn : Turn) (message : String) : Except Fault Turn :=
  finish scene turn .failed message true

def inputsFailed (turn : Turn) (step : Step) (message : String) : Except Fault Turn :=
  let onFailure := step.head.fields.onFailure?.getD ""
  if onFailure ≠ "" then
    let turn := record scene turn step .handled { summary := message, handledBy := some "failure" }
    goFrom scene turn step onFailure
  else
    let turn := record scene turn step .failed { summary := message }
    finish scene turn .failed
      (scene.lib.say (.inputsFailed (titleOfStep scene step)) ++ " " ++ message) false

/-! ## The steps -/

def soleName (template : String) : String :=
  let trimmed := trim template
  if !trimmed.startsWith "\x7b\x7b" || !trimmed.endsWith "\x7d\x7d" then ""
  else
    let inner := trim (String.ofList ((trimmed.toList.drop 2).take (trimmed.length - 4)))
    if inner.toList.any fun c => c = '{' || c = '}' then "" else inner

/-- The variable a body input is made of, where it is nothing else. -/
def bodyName (input : StepInput) : String :=
  match input.value.reading with
  | .template written => if input.target = "body" then soleName written else ""
  | .response _ _ _ => ""

def typedInput (turn : Turn) (input : StepInput) : StepInput × Bool :=
  let name := bodyName input
  match scene.types.read name, turn.state.locals.read name with
  | some type, some value =>
      if name = "" ∨ type = .string then (input, false)
      else ({ input with value := { input.value with reading := .template value } }, true)
  | _, _ => (input, false)

def readInput (turn : Turn) (step : String) (source : Source) (path : String) :
    Except Fault (Except String (Option Json)) := do
  let title ← titleOf scene step
  return readResponse scene.lib (turn.state.responses.read step) source path title

def fillInputs (turn : Turn) (fields : RequestFields) : Except Fault (Except String Filled) :=
  resolveInputs scene.lib (fields.inputs.map (typedInput scene turn)) (readInput scene turn)

def sendVariables (turn : Turn) (fields : RequestFields) (filled : Filled) :
    Record String String :=
  (turn.state.locals.overlay fields.vars).overlay filled.vars

def sendAction (turn : Turn) (step : Step) (fields : RequestFields) : Except Fault Turn := do
  match ← fillInputs scene turn fields with
  | .error message => inputsFailed scene turn step message
  | .ok filled =>
      if isOverBudget scene turn then stopForBudget scene turn (budgetMessage scene)
      else match resolveRequest fields scene.requests with
        | none => .error (.unresolvedRequest step.head.id)
        | some request =>
            let attempt := turn.state.attempt
            return { turn with
              state := { turn.state with sends := turn.state.sends + 1 }
              action := some (.send
                { step := step.head.id
                  requestId := request.id
                  attempt := attempt
                  attempts := fields.retry.times
                  delayMs := if attempt > 1 then fields.retry.delayMs else 0
                  vars := sendVariables turn fields filled
                  inputs := filled.inputs }) }

/-- The loop of `runSet`: the turn after it, and the values written or why
not. -/
def setValues (turn : Turn) (values : Record String String) :
    List NamedValue → Except Fault (Turn × Except String (Record String String))
  | [] => .ok (turn, .ok values)
  | value :: rest => do
      match ← setValue scene turn value with
      | .error message => return (turn, .error message)
      | .ok found =>
          match assign scene turn value.name (asText scene.lib.numerals found) with
          | (turn, .error message) => return (turn, .error message)
          | (turn, .ok placed) => setValues turn (values.put value.name placed) rest

def runSet (turn : Turn) (step : Step) (values : List NamedValue) : Except Fault Turn := do
  match ← setValues scene turn [] values with
  | (turn, .error message) =>
      let turn := record scene turn step .failed { summary := message }
      finish scene turn .failed
        (scene.lib.say (.setFailed (titleOfStep scene step)) ++ " " ++ message) false
  | (turn, .ok written) =>
      let turn := record scene turn step .passed
        { summary := scene.lib.say (.wrote written.keys), writes := some written }
      continueFrom scene turn step ""

def nextTitle (step : Step) (target : String) : Except Fault String := do
  if target ≠ "" then targetTitle scene target
  else
    let entry ← entryOf scene step.head.id
    match entry.list[entry.position + 1]? with
    | some next => titleOf scene next.head.id
    | none =>
        if entry.parent = "" then return scene.lib.say .endOfFlow
        else
          let loop ← entryOf scene entry.parent
          return scene.lib.say (if loop.item.head.kind = .repeatStep then .nextPass else .nextItem)

def orNext (step : Step) (target : String) : String :=
  if target = "" then step.head.next else target

def runIf (turn : Turn) (step : Step) (fields : IfFields) : Except Fault Turn := do
  let result := evaluateConditions scene.lib fields.source fields.mode fields.conditions
    (conditionSubject turn fields.step) (variablesOf scene turn) scene.types
  let target := if result.passed then fields.thenTo else fields.elseTo
  let title ← nextTitle scene step (orNext step target)
  let name := scene.lib.say (if result.passed then .branchThen else .branchElse)
  let turn := record scene turn step .passed
    { branch := some (if result.passed then "then" else "else")
      checks := some result.checks
      summary := scene.lib.say (.branch name title) }
  continueFrom scene turn step target

def caseChecks (checks : List Check) (label : String) : List Check :=
  checks.map fun check => { check with name := scene.lib.say (.caseCheck label check.name) }

/-- The rest of the loop of `runSwitch`, from a position with the checks made
so far. -/
def runCases (turn : Turn) (step : Step) (fields : SwitchFields) :
    Nat → List Check → List Case → Except Fault Turn
  | _, checks, [] => do
      let title ← nextTitle scene step (orNext step fields.elseTo)
      let turn := record scene turn step .passed
        { branch := some "else"
          checks := some checks
          summary := scene.lib.say (.branch (scene.lib.say .noCaseMatched) title) }
      continueFrom scene turn step fields.elseTo
  | position, checks, entry :: rest => do
      let label := caseLabel scene.lib entry position
      let result := evaluateConditions scene.lib fields.source entry.mode entry.conditions
        (conditionSubject turn fields.step) (variablesOf scene turn) scene.types
      let checks := checks ++ caseChecks scene result.checks label
      if result.passed then
        let title ← nextTitle scene step (orNext step entry.target)
        let turn := record scene turn step .passed
          { branch := some ("case:" ++ toString position)
            checks := some checks
            summary := scene.lib.say (.branch label title) }
        continueFrom scene turn step entry.target
      else runCases turn step fields (position + 1) checks rest

def runSwitch (turn : Turn) (step : Step) (fields : SwitchFields) : Except Fault Turn :=
  runCases scene turn step fields 0 [] fields.cases

def pushFrame (turn : Turn) (frame : Frame) : Turn :=
  { turn with state := { turn.state with frames := turn.state.frames ++ [frame] } }

def runForEach (turn : Turn) (step : Step) (fields : ForEachFields) : Except Fault Turn := do
  let title ← titleOf scene fields.step
  match listItems scene.lib (turn.state.responses.read fields.step) fields.path title with
  | .error message =>
      let turn := record scene turn step .failed { summary := message }
      finish scene turn .failed message false
  | .ok [] =>
      let turn := record scene turn step .passed
        { summary := scene.lib.say .emptyList, count := some 0 }
      continueFrom scene turn step ""
  | .ok items =>
      bindItem scene (pushFrame turn (.item step.head.id items 0)) step fields items 0

def runRepeat (turn : Turn) (step : Step) (fields : RepeatFields) : Except Fault Turn :=
  let shadowed := shadowOf scene turn fields.indexAs
  let turn := { turn with loops := turn.loops ++ [.opened step.head.id fields.indexAs shadowed] }
  let turn := pushFrame turn (.pass step.head.id 0 fields.times shadowed)
  beginPass scene turn step fields 0 fields.times

def filledVariables (turn : Turn) (vars : Record String String) : Record String String :=
  vars.map fun entry => (entry.1, scene.lib.fillTemplate entry.2 (variablesOf scene turn))

def flowAction (turn : Turn) (step : Step) (fields : FlowFields) (sendsLeft : Nat) : FlowAction :=
  { step := step.head.id
    flowId := ((resolveFlow fields scene.flows).map StoredFlow.id).getD ""
    title := titleOfStep scene step
    vars := filledVariables scene turn fields.vars
    sendsLeft := sendsLeft }

/-- `runFlow`.  The budget is not used up, so what is left of it is a natural
number. -/
def runFlow (turn : Turn) (step : Step) (fields : FlowFields) : Except Fault Turn :=
  if isOverBudget scene turn then stopForBudget scene turn (budgetMessage scene)
  else .ok { turn with action := some (.flow
    (flowAction scene turn step fields (sendLimit scene - turn.state.sends).toNat)) }

/-- `branchAction`.  A flow branch is given its budget afterwards. -/
def branchAction (turn : Turn) (branch : Step) : Except Fault (Except String Branch) := do
  match branch.head.fields with
  | .flow fields => return .ok (.flow (flowAction scene turn branch fields 0))
  | .request fields =>
      let title := titleOfStep scene branch
      match ← fillInputs scene turn fields with
      | .error message => return .error (scene.lib.say (.branchInputs title message))
      | .ok filled =>
          match resolveRequest fields scene.requests with
          | none => .error (.unresolvedRequest branch.head.id)
          | some request =>
              return .ok (.send title
                { step := branch.head.id
                  requestId := request.id
                  attempt := 1
                  attempts := 1
                  delayMs := 0
                  vars := sendVariables turn fields filled
                  inputs := filled.inputs })
  | _ => .error (.notABranch branch.head.id)

def Branch.isSend : Branch → Bool
  | send _ _ => true
  | flow _ => false

def Branch.withSendsLeft (sendsLeft : Nat) : Branch → Branch
  | flow action => flow { action with sendsLeft := sendsLeft }
  | branch => branch

/-- The first message among the built branches, or all of them. -/
def builtBranches : List (Except String Branch) → Except String (List Branch)
  | [] => .ok []
  | .error message :: _ => .error message
  | .ok branch :: rest => do
      let others ← builtBranches rest
      return branch :: others

def runParallel (turn : Turn) (step : Step) (fields : ParallelFields) : Except Fault Turn := do
  let built ← step.inner.mapM (branchAction scene turn)
  match builtBranches built with
  | .error message => inputsFailed scene turn step message
  | .ok branches =>
      let sends := (branches.filter Branch.isSend).length
      if turn.state.sends + sends > sendLimit scene then
        stopForBudget scene turn (budgetMessage scene)
      else
        let total := turn.state.sends + sends
        let flowCount := branches.length - sends
        let sendsLeft := if flowCount > 0 then (sendLimit scene - total).toNat / flowCount else 0
        return { turn with
          state := { turn.state with sends := total }
          action := some (.parallel step.head.id (titleOfStep scene step) fields.timeoutMs
            (branches.map (Branch.withSendsLeft sendsLeft))) }

def runEnd (turn : Turn) (step : Step) (fields : EndFields) : Except Fault Turn :=
  let written := trim fields.message
  let message := if written = "" then scene.lib.say (.ended fields.outcome) else written
  let turn := record scene turn step (if fields.outcome = .failed then .failed else .passed)
    { summary := message }
  finish scene turn fields.outcome message false

def runStep (turn : Turn) (step : Step) : Except Fault Turn :=
  match step.head.fields with
  | .request fields => sendAction scene turn step fields
  | .setStep values => runSet scene turn step values
  | .ifStep fields => runIf scene turn step fields
  | .switch fields => runSwitch scene turn step fields
  | .forEach fields => runForEach scene turn step fields
  | .repeatStep fields => runRepeat scene turn step fields
  | .flow fields => runFlow scene turn step fields
  | .parallel fields => runParallel scene turn step fields
  | .delay ms => .ok { turn with action := some (.wait step.head.id ms) }
  | .endStep fields => runEnd scene turn step fields
  | .unknown _ => .error (.unknownKind step.head.id)

def proceedStep (turn : Turn) : Except Fault Turn :=
  if turn.state.quiet ≥ maxQuietSteps then
    finish scene turn .failed (scene.lib.say (.endless turn.state.quiet)) false
  else do
    let entry ← entryOf scene turn.state.atStep
    runStep scene { turn with state := { turn.state with quiet := turn.state.quiet + 1 } } entry.item

def proceedFor : Nat → Turn → Except Fault Turn
  | 0, turn => if turn.action.isSome then .ok turn else .error .outOfFuel
  | rounds + 1, turn =>
      if turn.action.isSome then .ok turn
      else do
        let turn ← proceedStep scene turn
        proceedFor rounds turn

/-- `proceed`.  The count of quiet steps goes up in every round, which bounds
the rounds. -/
def proceed (turn : Turn) : Except Fault Turn :=
  proceedFor scene (maxQuietSteps + 1) turn

end Engine

end Gostman.Flows
