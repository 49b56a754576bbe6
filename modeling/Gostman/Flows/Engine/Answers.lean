import Gostman.Flows.Engine.Steps
import Mathlib.Algebra.GroupWithZero.Nat
/-!
# What the host answers

`flows/engine.js`, last part: what a turn makes of the answer to the action of
the turn before, and the first turn of a run.
-/

namespace Gostman.Flows

open Gostman.Lib Gostman.Js

section Engine

variable (scene : Scene)

/-! ## After an action -/

/-- `judgeAttempt`: the turn that keeps the response, the checks, and whether
the attempt passed. -/
def judgeAttempt (turn : Turn) (step : Step) (fields : RequestFields) (input : Json) :
    Turn × List Check × Bool :=
  let response := input.field "response"
  let subject := subjectOf scene.lib response
  let turn := { turn with state := { turn.state with
    responses := turn.state.responses.put step.head.id subject
    last := step.head.id } }
  let arrived := Json.truthy response && !Json.truthy (response.bind fun value => value.field "error")
  let checks := if arrived then untilChecks scene
      (scene.lib.evaluateAssertionList fields.retry.til subject (variablesOf scene turn))
    else []
  (turn, checks, arrived && !Json.truthy (input.field "failed") && checks.all Check.passed)

def notFilled (turn : Turn) (step : Step) (message : String) : Except Fault Turn :=
  inputsFailed scene { turn with state := { turn.state with sends := turn.state.sends - 1 } } step
    message

/-- What `afterSend` does once the response is judged. -/
def afterAttempt (turn : Turn) (step : Step) (fields : RequestFields) (checks : List Check)
    (passed : Bool) : Except Fault Turn :=
  let attempt := turn.state.attempt
  let attempts := fields.retry.times
  let details : Details :=
    { checks := some checks, attempt := some attempt, attempts := some attempts }
  if passed then
    let turn := record scene turn step .passed
      { details with summary := scene.lib.say (.attemptPassed attempt attempts) }
    continueFrom scene turn step ""
  else if attempt < attempts then
    let turn := record scene turn step .handled
      { details with
        summary := scene.lib.say (.retrying attempt attempts)
        handledBy := some "retry" }
    .ok { turn with state := { turn.state with attempt := attempt + 1 } }
  else if fields.onFailure ≠ "" then do
    let title ← targetTitle scene fields.onFailure
    let turn := record scene turn step .handled
      { details with summary := scene.lib.say (.rerouted title), handledBy := some "failure" }
    goFrom scene turn step fields.onFailure
  else
    let turn := record scene turn step .failed
      { details with summary := scene.lib.say (.attemptFailed attempt attempts) }
    finish scene turn .failed (scene.lib.say (.failedAt (titleOfStep scene step))) false

def afterSend (turn : Turn) (step : Step) (fields : RequestFields) (input : Json) :
    Except Fault Turn :=
  match input.field "unfilled" with
  | some (.str message) => notFilled scene turn step message
  | _ =>
      let turn := { turn with state := { turn.state with quiet := 0 } }
      let (turn, checks, passed) := judgeAttempt scene turn step fields input
      afterAttempt scene turn step fields checks passed

/-- `afterWait`.  Only a Delay step has the milliseconds it names. -/
def afterWait (turn : Turn) (step : Step) (ms : Nat) : Except Fault Turn :=
  let turn := record scene turn step .passed { summary := scene.lib.say (.waited ms) }
  continueFrom scene turn step ""

def afterPause (turn : Turn) (loop : Step) (fields : RepeatFields) : Except Fault Turn :=
  match turn.state.frames.getLast? with
  | some (.pass step index count _) =>
      if step = loop.head.id then beginPass scene turn loop fields index count
      else continueFrom scene turn loop ""
  | some (.item _ _ _) | none => continueFrom scene turn loop ""

def flowOverBudget (turn : Turn) (step : Step) (message : String) (sends : Nat) :
    Except Fault Turn :=
  let stated := if message = "" then budgetMessage scene else message
  let summary := if stated = "" then scene.lib.say .budgetAbove else stated
  let turn := record scene turn step .failed { summary := summary, sends := some sends }
  stopForBudget scene turn stated

def sendsOf (lib : Library) (input : Json) : Nat :=
  match numberOf lib.numerals (input.field "sends") with
  | some number => (trunc number).toNat
  | none => 0

def outputsOf (input : Json) : List (String × Json) :=
  match input.field "outputs" with
  | some (.obj fields) => fields
  | some (.arr items) => items.mapIdx fun position item => (toString position, item)
  | _ => []

def writesOf (values : Record String String) : Option (Record String String) :=
  if values.length > 0 then some values else none

/-- `typeof value === 'string' ? value : ''`. -/
def textOnly : Option Json → String
  | some (.str value) => value
  | _ => ""

def isTrue : Option Json → Bool
  | some (.bool true) => true
  | _ => false

def isText (name : String) : Option Json → Bool
  | some (.str value) => value = name
  | _ => false

def failOrReroute (turn : Turn) (step : Step) (summary : String) (details : Details) :
    Except Fault Turn := do
  let onFailure := step.head.fields.onFailure?.getD ""
  if onFailure ≠ "" then
    let title ← targetTitle scene onFailure
    let turn := record scene turn step .handled
      { details with
        summary := summary ++ " " ++ scene.lib.say (.rerouted title)
        handledBy := some "failure" }
    goFrom scene turn step onFailure
  else
    let turn := record scene turn step .failed { details with summary := summary }
    finish scene turn .failed
      (scene.lib.say (.failedAt (titleOfStep scene step)) ++ " " ++ summary) false

def countSends (turn : Turn) (sends : Nat) : Turn :=
  { turn with state := { turn.state with
      sends := turn.state.sends + sends
      quiet := if sends > 0 then 0 else turn.state.quiet } }

def afterFlow (turn : Turn) (step : Step) (fields : FlowFields) (input : Json) :
    Except Fault Turn :=
  let sends := sendsOf scene.lib input
  let turn := countSends turn sends
  let message := textOnly (input.field "message")
  if isTrue (input.field "budget") then flowOverBudget scene turn step message sends
  else if isText "passed" (input.field "outcome") then
    match assignAll scene turn [] (outputsOf input) with
    | (turn, .error problem) => failOrReroute scene turn step problem { sends := some sends }
    | (turn, .ok values) =>
        let turn := record scene turn step .passed
          { summary := scene.lib.say (.flowPassed sends)
            sends := some sends
            writes := writesOf values }
        continueFrom scene turn step ""
  else if fields.onFailure ≠ "" then do
    let title ← targetTitle scene fields.onFailure
    let turn := record scene turn step .handled
      { summary := scene.lib.say (.rerouted title)
        sends := some sends
        handledBy := some "failure" }
    goFrom scene turn step fields.onFailure
  else
    let failed := scene.lib.say (.failedAt (titleOfStep scene step))
    let turn := record scene turn step .failed
      { summary := if message = "" then failed else message, sends := some sends }
    finish scene turn .failed failed false

/-! ## After a Parallel step -/

def branchInput (input : Json) (id : String) : Json :=
  match (input.field "branches").bind fun branches => branches.field id with
  | some got => if Json.truthy (some got) then got else .obj [("state", .str "running")]
  | none => .obj [("state", .str "running")]

def round (value : ℚ) : ℤ := (value + 1 / 2).floor

def elapsedOf (input : Json) : Nat :=
  match numberOf scene.lib.numerals (input.field "elapsedMs") with
  | some number => (round number).toNat
  | none => 0

/-- `got.ms`, rounded, where it is a finite number. -/
def branchMs (got : Json) : Option ℤ :=
  match got.field "ms" with
  | some (.num value) => some (round value)
  | _ => none

/-- The facts of one branch.  Hosts give the state of a branch as a text. -/
def factsOf (input : Json) (branch : Step) : Record String String :=
  let got := branchInput input branch.head.id
  let response := got.field "response"
  let status :=
    if Json.truthy response && !Json.truthy (response.bind fun value => value.field "error") then
      (subjectOf scene.lib response).field "status"
    else none
  (branch.head.id, asText scene.lib.numerals (got.field "state")) ::
    (status.map fun value => (branch.head.id ++ ".status", stringOf scene.lib.numerals value)).toList ++
    ((branchMs got).map fun ms => (branch.head.id ++ ".ms", toString ms)).toList

def branchFacts (step : Step) (input : Json) : Record String String :=
  Record.ofEntries (("elapsedMs", toString (elapsedOf scene input)) ::
    step.inner.flatMap (factsOf scene input))

def branchIs (state : String) (got : Json) : Bool := isText state (got.field "state")

def parallelVerdict (turn : Turn) (step : Step) (fields : ParallelFields) (input : Json) :
    Bool × List Check :=
  if !hasActiveCondition fields.til then
    (step.inner.all fun branch => branchIs "passed" (branchInput input branch.head.id), [])
  else
    let facts := branchFacts scene step input
    let judged := evaluateConditions scene.lib .vars fields.mode fields.til none
      ((variablesOf scene turn).overlay facts) (scene.types.without facts.keys)
    (judged.passed, judged.checks)

def branchSummary (got input : Json) : String :=
  if branchIs "cancelled" got then
    if isTrue (input.field "timedOut") && !Json.truthy (input.field "doneAt") then
      scene.lib.say .branchTimedOut
    else scene.lib.say .branchCancelled
  else if branchIs "passed" got then scene.lib.say .branchPassed
  else
    let message := textOnly (got.field "message")
    if message = "" then scene.lib.say .branchFailed else message

def branchRow (branch : Step) (got input : Json) : Check :=
  let word := scene.lib.say (.branchState (textOnly (got.field "state")))
  let timing := match branchMs got with
    | some ms => scene.lib.say (.branchTook word (scene.lib.say (.milliseconds ms)))
    | none => word
  let passed := branchIs "passed" got
  { name := scene.lib.say (.branchFact (titleOfStep scene branch) timing)
    passed := passed
    message := if passed then "" else branchSummary scene got input
    resolvedName := none }

def branchEventStatus (got : Json) (isFailing : Bool) : EventStatus :=
  if branchIs "passed" got then .passed
  else if branchIs "failed" got && isFailing then .failed
  else .handled

def recordBranch (input : Json) (isFailing : Bool) (turn : Turn) (branch : Step) : Turn :=
  let got := branchInput input branch.head.id
  let status := branchEventStatus got isFailing
  let isFlow : Bool := branch.head.kind = .flow
  record scene turn branch status
    { summary := branchSummary scene got input
      sends := if isFlow then some (sendsOf scene.lib got) else none
      attempt := if isFlow then none else some 1
      attempts := if isFlow then none else some 1
      handledBy := if status = .handled then some "parallel" else none }

def recordBranches (turn : Turn) (step : Step) (input : Json) (isFailing : Bool) : Turn :=
  step.inner.foldl (recordBranch scene input isFailing) turn

def keepResponse (input : Json) (turn : Turn) (id : String) : Turn :=
  match (branchInput input id).field "response" with
  | none => turn
  | some response =>
      if Json.truthy (some response) then
        { turn with state := { turn.state with
          responses := turn.state.responses.put id (subjectOf scene.lib (some response))
          last := id } }
      else turn

def orderOf (input : Json) : List String :=
  match input.field "order" with
  | some (.arr items) => items.map (stringOf scene.lib.numerals)
  | _ => []

def keepResponses (turn : Turn) (input : Json) : Turn :=
  (orderOf scene input).foldl (keepResponse scene input) turn

def parallelSummary (step : Step) (input : Json) (passed : Bool) : String :=
  let count := (step.inner.filter fun branch =>
    branchIs "passed" (branchInput input branch.head.id)).length
  let elapsed := scene.lib.say (.milliseconds (elapsedOf scene input))
  if isTrue (input.field "timedOut") && !passed then scene.lib.say (.parallelTimedOut elapsed)
  else if passed then scene.lib.say (.parallelPassed count step.inner.length elapsed)
  else scene.lib.say (.parallelFailed count step.inner.length)

def branchOutputs (turn : Turn) (input : Json) (values : Record String String) :
    List Step → Turn × Except String (Record String String)
  | [] => (turn, .ok values)
  | branch :: rest =>
      let got := branchInput input branch.head.id
      if branch.head.kind = .flow ∧ branchIs "passed" got then
        match assignAll scene turn [] (outputsOf got) with
        | (turn, .error message) => (turn, .error message)
        | (turn, .ok given) => branchOutputs turn input (values.overlay given) rest
      else branchOutputs turn input values rest

def branchSends (lib : Library) (step : Step) (input : Json) : Nat :=
  (step.inner.map fun branch =>
    if branch.head.kind = .flow then sendsOf lib (branchInput input branch.head.id) else 0).sum

def doneAtOf (input : Json) : Json :=
  match input.field "doneAt" with
  | some value => if Json.truthy (some value) then value else input
  | none => input

/-- `overBudget`: the first branch that was stopped for its budget. -/
def overBudgetOf (step : Step) (input : Json) : Option Json :=
  (step.inner.map fun branch => branchInput input branch.head.id).find? fun got =>
    isTrue (got.field "budget")

/-- What `settleParallel` does once the branches are judged and recorded. -/
def endParallel (turn : Turn) (step : Step) (input : Json) (sends : Nat) (passed : Bool)
    (checks : List Check) : Except Fault Turn :=
  match overBudgetOf step input with
  | some got => flowOverBudget scene turn step (textOnly (got.field "message")) sends
  | none =>
      match branchOutputs scene turn input [] step.inner with
      | (turn, .error message) => failOrReroute scene turn step message { sends := some sends }
      | (turn, .ok values) =>
          let rows := step.inner.map fun branch =>
            branchRow scene branch (branchInput input branch.head.id) input
          let details : Details :=
            { checks := some (checks ++ rows), sends := some sends, writes := writesOf values }
          let summary := parallelSummary scene step input passed
          if passed then
            let turn := record scene turn step .passed { details with summary := summary }
            continueFrom scene turn step ""
          else failOrReroute scene turn step summary details

def settleParallel (turn : Turn) (step : Step) (fields : ParallelFields) (input : Json) :
    Except Fault Turn :=
  let sends := branchSends scene.lib step input
  let turn := { turn with state := { turn.state with
    quiet := 0
    sends := turn.state.sends + sends } }
  let turn := keepResponses scene turn input
  let verdict := parallelVerdict scene turn step fields (doneAtOf input)
  let isFailing := (!verdict.1 && fields.onFailure = "") || (overBudgetOf step input).isSome
  let turn := recordBranches scene turn step input isFailing
  endParallel scene turn step input sends verdict.1 verdict.2

def afterParallel (turn : Turn) (step : Step) (fields : ParallelFields) (input : Json) :
    Except Fault Turn :=
  if isTrue (input.field "settled") then settleParallel scene turn step fields input
  else
    let stop := (parallelVerdict scene turn step fields input).1
    .ok { turn with action := some (.parallelStop step.head.id stop) }

def afterAction (turn : Turn) (step : Step) (input : Json) : Except Fault Turn :=
  match step.head.fields with
  | .request fields => afterSend scene turn step fields input
  | .flow fields => afterFlow scene turn step fields input
  | .repeatStep fields => afterPause scene turn step fields
  | .parallel fields => afterParallel scene turn step fields input
  | .delay ms => afterWait scene turn step ms
  | _ => afterWait scene turn step 0

/-! ## The first turn and the next -/

def isSupplied (declared : Declared) : Bool :=
  declared.input && scene.given.has declared.name

/-- One variable of `declare`: the turn with its value, or a problem. -/
def declareOne (turn : Turn) (declared : Declared) : Turn × List String :=
  let supplied := isSupplied scene declared
  let handed := (scene.given.read declared.name).getD ""
  if declared.required && (!supplied || trim handed = "") then
    (turn, [scene.lib.say (.inputMissing declared.name)])
  else
    let written := if supplied then handed
      else scene.lib.fillTemplate declared.value (variablesOf scene turn)
    match coerce scene.lib written declared.type with
    | some typed =>
        ({ turn with state := { turn.state with
          locals := turn.state.locals.put declared.name typed } }, [])
    | none =>
        (turn, [scene.lib.say
          (.notOfType declared.name (scene.lib.say (.typeName declared.type)) written)])

def declareAll (turn : Turn) : List Declared → Turn × List String
  | [] => (turn, [])
  | declared :: rest =>
      let (turn, problems) := declareOne scene turn declared
      let (turn, others) := declareAll turn rest
      (turn, problems ++ others)

def declare (turn : Turn) : Turn × List Problem :=
  let (order, looped) := declarationOrder scene.lib (namedDeclared scene.flow) (isSupplied scene)
  let (turn, problems) := declareAll scene turn order
  let loop := if looped.length > 0 then [scene.lib.say (.variablesLoop looped)] else []
  (turn, (loop ++ problems).map (Problem.mk ""))

def beginTurn : Except Fault (Turn × List Problem) := do
  let fresh : Turn := { state := {} }
  let found := validateFlow scene.lib scene.flow scene.requests scene.flows
  let (turn, problems) := if found.length > 0 then (fresh, found) else declare scene fresh
  if problems.length > 0 then
    match describeProblems scene.lib scene.flow problems scene.requests scene.flows with
    | none => .error (.unknownStep "")
    | some message =>
        let turn ← finish scene turn .failed message false
        let turn ← proceed scene turn
        return (turn, problems)
  else match scene.flow.steps with
    | [] => .error (.unknownStep "")
    | first :: _ =>
        let turn ← enter scene turn first.head.id
        let turn ← proceed scene turn
        return (turn, [])

def advanceTurn (state : State) (input : Json) : Except Fault Turn := do
  let turn : Turn := { state := state }
  match scene.index.read state.atStep with
  | none =>
      let turn ← finish scene turn .passed (scene.lib.say .passed) false
      proceed scene turn
  | some entry =>
      let turn ← afterAction scene turn entry.item input
      proceed scene turn

end Engine

def flowBegin (lib : Library) (raw : Json) (context : Context) :
    Except Fault (Turn × List Problem) :=
  beginTurn (createScene lib (normalizeFlow lib.numerals raw) context)

def flowAdvance (lib : Library) (raw : Json) (state : State) (input : Json) (context : Context) :
    Except Fault Turn :=
  advanceTurn (createScene lib (normalizeFlow lib.numerals raw) context) state input

end Gostman.Flows
