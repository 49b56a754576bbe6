import Gostman.Flows.Validate
/-!
# The turns of a flow

`flows/engine.js`, first part: what a turn is, and how it moves from step to
step through the loops of the flow.  A turn takes the state the last turn left
and what its action came to, walks through the steps until one of them needs
the host, and gives back the new state with that action.

The source edits one `turn` object.  Here its constant part is a `Scene` and
its changing part a `Turn` that is passed on.  A lookup the source makes
without a check gives a `Fault` where the source would throw.
-/

namespace Gostman.Flows

open Gostman.Lib Gostman.Js

def maxQuietSteps : Nat := 10000

inductive Fault where
  | unknownStep (id : String)
  | unknownKind (id : String)
  | notALoop (id : String)
  | emptyLoop (id : String)
  | notABranch (id : String)
  | unresolvedRequest (id : String)
  | outOfFuel

/-- A loop that is running: a For each over its items, or a Repeat with the
value its index variable had before. -/
inductive Frame where
  | item (step : String) (items : List Json) (index : Nat)
  | pass (step : String) (index count : Nat) (shadowed : Option String)

def Frame.step : Frame → String
  | item step _ _ => step
  | pass step _ _ _ => step

def Frame.advance : Frame → Frame
  | item step items index => item step items (index + 1)
  | pass step index count shadowed => pass step (index + 1) count shadowed

/-- `freshState`: what a run keeps between its turns.  `atStep` is `at`. -/
structure State where
  atStep : String := ""
  frames : List Frame := []
  attempt : Nat := 0
  sends : Int := 0
  quiet : Nat := 0
  responses : Record String Json := []
  last : String := ""
  locals : Record String String := []

structure SendAction where
  step : String
  requestId : String
  attempt : Nat
  attempts : Nat
  delayMs : Nat
  vars : Record String String
  inputs : List FilledInput

structure FlowAction where
  step : String
  flowId : String
  title : String
  vars : Record String String
  sendsLeft : Nat

inductive Branch where
  | send (title : String) (action : SendAction)
  | flow (action : FlowAction)

/-- What a turn asks of the host: `ACTION_SEND`, `ACTION_WAIT`, `ACTION_DONE`,
`ACTION_FLOW`, and `ACTION_PARALLEL` with the branches to run or with whether
to stop those that run. -/
inductive Action where
  | send (action : SendAction)
  | wait (step : String) (ms : Nat)
  | done (outcome : Outcome) (message : String) (outputs vars : Record String String)
      (budget : Bool)
  | flow (action : FlowAction)
  | parallel (step title : String) (timeoutMs : Nat) (branches : List Branch)
  | parallelStop (step : String) (stop : Bool)

/-- `EVENT_PASSED`, `EVENT_FAILED` and `EVENT_HANDLED`. -/
inductive EventStatus where
  | passed
  | failed
  | handled
  deriving DecidableEq

structure Details where
  summary : String := ""
  checks : Option (List Check) := none
  attempt : Option Nat := none
  attempts : Option Nat := none
  index : Option Nat := none
  count : Option Nat := none
  branch : Option String := none
  writes : Option (Record String String) := none
  sends : Option Nat := none
  handledBy : Option String := none

structure Event where
  step : String
  kind : Kind
  title : String
  status : EventStatus
  details : Details

/-- A Repeat that opens or closes, with the value its index variable has just
before or just after.  The source keeps no such log; it only lets theorems
speak about these moments. -/
inductive LoopEvent where
  | opened (step name : String) (before : Option String)
  | closed (step name : String) (after : Option String)
  deriving DecidableEq

structure Context where
  requests : List SavedRequest
  flows : List StoredFlow
  vars : Record String String
  sendsLeft : Option Nat

/-- What `createTurn` sets up and no function of the engine changes. -/
structure Scene where
  lib : Library
  flow : Flow
  index : Record String Entry
  requests : List SavedRequest
  flows : List StoredFlow
  isNested : Bool
  sendsLeft : Nat
  given : Record String String
  types : Record String VariableType

structure Turn where
  state : State
  writes : Record String String := []
  forgets : List String := []
  events : List Event := []
  action : Option Action := none
  loops : List LoopEvent := []

def createScene (lib : Library) (flow : Flow) (context : Context) : Scene :=
  { lib := lib
    flow := flow
    index := indexSteps flow.steps
    requests := context.requests
    flows := context.flows
    isNested := context.sendsLeft.isSome
    sendsLeft := context.sendsLeft.getD maxSendsCap
    given := context.vars
    types := declaredTypes flow }

section Engine

variable (scene : Scene)

def variablesOf (turn : Turn) : Record String String :=
  ((scene.given.without turn.forgets).overlay turn.writes).overlay turn.state.locals

/-- `turn.index.get(id)`, which the source reads from without a check. -/
def entryOf (id : String) : Except Fault Entry :=
  match scene.index.read id with
  | some entry => .ok entry
  | none => .error (.unknownStep id)

def titleOfStep (step : Step) : String :=
  stepTitle scene.lib step scene.requests scene.flows

def titleOf (id : String) : Except Fault String := do
  let entry ← entryOf scene id
  return titleOfStep scene entry.item

def targetTitle (target : String) : Except Fault String :=
  if target = endTarget then .ok (scene.lib.say .endOfFlow) else titleOf scene target

def record (turn : Turn) (step : Step) (status : EventStatus) (details : Details) : Turn :=
  { turn with events := turn.events ++
      [⟨step.head.id, step.head.kind, titleOfStep scene step, status, details⟩] }

/-! ## Variables -/

def write (turn : Turn) (values : Record String String) : Turn :=
  { turn with
    writes := turn.writes.overlay values
    forgets := turn.forgets.filter fun name => !values.has name }

def forget (turn : Turn) (name : String) : Turn :=
  { turn with
    writes := turn.writes.remove name
    forgets := if name ∈ turn.forgets then turn.forgets else turn.forgets ++ [name] }

def shadowOf (turn : Turn) (name : String) : Option String :=
  (variablesOf scene turn).read name

def Frame.shadowed : Frame → Option String
  | item _ _ _ => none
  | pass _ _ _ shadowed => shadowed

def closeLoop (turn : Turn) (frame : Frame) : Except Fault Turn := do
  let loop ← entryOf scene frame.step
  match loop.item.head.fields with
  | .repeatStep fields =>
      let restored := match frame.shadowed with
        | some value => write turn [(fields.indexAs, value)]
        | none => forget turn fields.indexAs
      return { restored with loops := restored.loops ++
        [.closed frame.step fields.indexAs ((variablesOf scene restored).read fields.indexAs)] }
  | _ => return turn

def leaveLoops (turn : Turn) (kept : Nat) : Except Fault Turn := do
  let turn ← (turn.state.frames.drop kept).reverse.foldlM (closeLoop scene) turn
  return { turn with state := { turn.state with frames := turn.state.frames.take kept } }

def leaveLoop (turn : Turn) : Except Fault Turn :=
  leaveLoops scene turn (turn.state.frames.length - 1)

/-- `assign`: the turn after it, and the value that was placed or why not. -/
def assign (turn : Turn) (name value : String) : Turn × Except String String :=
  match scene.types.read name with
  | none => (write turn [(name, value)], .ok value)
  | some type =>
      match coerce scene.lib value type with
      | none =>
          (turn, .error (scene.lib.say (.notOfType name (scene.lib.say (.typeName type)) value)))
      | some typed =>
          ({ turn with state := { turn.state with locals := turn.state.locals.put name typed } },
            .ok typed)

def assignAll (turn : Turn) (assigned : Record String String) :
    List (String × Json) → Turn × Except String (Record String String)
  | [] => (turn, .ok assigned)
  | (name, value) :: rest =>
      match assign scene turn name (asText scene.lib.numerals (some value)) with
      | (turn, .error message) => (turn, .error message)
      | (turn, .ok placed) => assignAll turn (assigned.put name placed) rest

/-! ## The end of a run -/

def setValue (turn : Turn) (value : NamedValue) : Except Fault (Except String (Option Json)) :=
  match value.reading with
  | .template written =>
      .ok (.ok (some (.str (scene.lib.fillTemplate written (variablesOf scene turn)))))
  | .response step source path => do
      let title ← titleOf scene step
      return readResponse scene.lib (turn.state.responses.read step) source path title

def flowOutputs (turn : Turn) (values : Record String String) :
    List NamedValue → Except Fault (Except String (Record String String))
  | [] => .ok (.ok values)
  | output :: rest =>
      if output.name = "" then flowOutputs turn values rest
      else do
        match ← setValue scene turn output with
        | .error message => return .error (scene.lib.say (.outputFailed output.name message))
        | .ok value =>
            flowOutputs turn (values.put output.name (asText scene.lib.numerals value)) rest

/-- `finish`, once the outputs are read. -/
def finishWith (turn : Turn) (outcome : Outcome) (message : String)
    (outputs : Record String String) (budget : Bool) : Except Fault Turn := do
  let turn ← leaveLoops scene turn 0
  let turn := if scene.isNested then turn else write turn outputs
  return { turn with
    state := { turn.state with atStep := "" }
    action := some (.done outcome message outputs turn.state.locals budget) }

/-- `finish`.  Outputs that cannot be read turn a passed run into a failed
one. -/
def finish (turn : Turn) (outcome : Outcome) (message : String) (budget : Bool) :
    Except Fault Turn :=
  match outcome with
  | .failed => finishWith scene turn .failed message [] budget
  | .passed => do
      match ← flowOutputs scene turn [] scene.flow.outputs with
      | .error failure => finishWith scene turn .failed failure [] budget
      | .ok outputs => finishWith scene turn .passed message outputs budget

/-! ## Moving on -/

/-- The loops `enter` leaves: from the first that is not around the step. -/
def leaveOutside (turn : Turn) (around : List String) : Except Fault Turn :=
  match turn.state.frames.findIdx? fun frame => frame.step ∉ around with
  | some kept => leaveLoops scene turn kept
  | none => .ok turn

def enter (turn : Turn) (id : String) : Except Fault Turn := do
  let turn ← leaveOutside scene turn (loopsAround scene.index id)
  return { turn with state := { turn.state with atStep := id, attempt := 1 } }

def startPass (turn : Turn) (loop : Step) : Except Fault Turn :=
  match loop.inner with
  | [] => .error (.emptyLoop loop.head.id)
  | first :: _ =>
      .ok { turn with state := { turn.state with atStep := first.head.id, attempt := 1 } }

def bindItem (turn : Turn) (loop : Step) (names : ForEachFields) (items : List Json)
    (index : Nat) : Except Fault Turn :=
  let turn := write turn (itemValues scene.lib items[index]? index names)
  let turn := record scene turn loop .passed
    { summary := scene.lib.say (.iteration index items.length)
      index := some index
      count := some items.length }
  startPass turn loop

def beginPass (turn : Turn) (loop : Step) (fields : RepeatFields) (index count : Nat) :
    Except Fault Turn :=
  let turn := write turn [(fields.indexAs, toString index)]
  let turn := record scene turn loop .passed
    { summary := scene.lib.say (.pass index count), index := some index, count := some count }
  startPass turn loop

/-- `frame.index += 1` on the innermost frame. -/
def advanceLast (turn : Turn) : Turn :=
  { turn with state := { turn.state with
      frames := turn.state.frames.dropLast ++
        (turn.state.frames.getLast?.map Frame.advance).toList } }

def conditionSubject (turn : Turn) (step : String) : Option Json :=
  turn.state.responses.read (if step = "" then turn.state.last else step)

def untilChecks (checks : List Check) : List Check :=
  checks.map fun check => { check with name := scene.lib.say (.untilCheck check.name) }

section Navigation

/- `following` calls the functions below and they call it, each time for the
step around the last one.  They take it as a parameter. -/
variable (follow : Turn → String → Except Fault Turn)

def goTo (turn : Turn) (source target : String) : Except Fault Turn :=
  if target = endTarget then finish scene turn .passed (scene.lib.say .passed) false
  else if target ≠ "" then enter scene turn target
  else follow turn source

def continueAfter (turn : Turn) (step : Step) (target : String) : Except Fault Turn :=
  goTo scene follow turn step.head.id (if target = "" then step.head.next else target)

def endOfItem (turn : Turn) (loop : Step) (names : ForEachFields) (items : List Json)
    (index : Nat) : Except Fault Turn := do
  let turn := advanceLast turn
  if index + 1 < items.length then bindItem scene turn loop names items (index + 1)
  else
    let turn ← leaveLoop scene turn
    continueAfter scene follow turn loop ""

def repeatExhausted (turn : Turn) (loop : Step) (fields : RepeatFields) (checks : List Check) :
    Except Fault Turn := do
  let turn ← leaveLoop scene turn
  if fields.onFailure ≠ "" then
    let title ← targetTitle scene fields.onFailure
    let turn := record scene turn loop .handled
      { checks := some checks
        summary := scene.lib.say (.untilNeverRerouted fields.times title)
        handledBy := some "failure" }
    goTo scene follow turn loop.head.id fields.onFailure
  else
    let turn := record scene turn loop .failed
      { checks := some checks, summary := scene.lib.say (.untilNever fields.times) }
    finish scene turn .failed
      (scene.lib.say (.repeatFailed (titleOfStep scene loop) fields.times)) false

def nextPass (turn : Turn) (loop : Step) (fields : RepeatFields) (index count : Nat) :
    Except Fault Turn :=
  let turn := advanceLast turn
  if fields.delayMs = 0 then beginPass scene turn loop fields (index + 1) count
  else .ok { turn with
    state := { turn.state with atStep := loop.head.id }
    action := some (.wait loop.head.id fields.delayMs) }

def endOfPass (turn : Turn) (loop : Step) (fields : RepeatFields) (index count : Nat) :
    Except Fault Turn := do
  let isLast : Bool := index + 1 ≥ count
  if !hasActiveCondition fields.til then
    if !isLast then nextPass scene turn loop fields index count
    else
      let turn ← leaveLoop scene turn
      continueAfter scene follow turn loop ""
  else
    let result := evaluateConditions scene.lib fields.source fields.mode fields.til
      (conditionSubject turn fields.step) (variablesOf scene turn) scene.types
    let checks := untilChecks scene result.checks
    if result.passed then
      let turn ← leaveLoop scene turn
      let turn := record scene turn loop .passed
        { checks := some checks, summary := scene.lib.say (.untilMet (index + 1)) }
      continueAfter scene follow turn loop ""
    else if isLast then repeatExhausted scene follow turn loop fields checks
    else nextPass scene turn loop fields index count

def nextInLoop (turn : Turn) (loopId : String) : Except Fault Turn := do
  let loop := (← entryOf scene loopId).item
  match turn.state.frames.getLast? with
  | none => follow turn loopId
  | some frame =>
      if frame.step ≠ loopId then follow turn loopId
      else match loop.head.fields, frame with
        | .forEach names, .item _ items index => endOfItem scene follow turn loop names items index
        | .repeatStep fields, .pass _ index count _ =>
            endOfPass scene follow turn loop fields index count
        | _, _ => .error (.notALoop loopId)

end Navigation

/-- `following`.  Each call inside it is for the step around, so as many as
there are steps are enough. -/
def following : Nat → Turn → String → Except Fault Turn
  | 0, _, _ => .error .outOfFuel
  | fuel + 1, turn, id => do
      let entry ← entryOf scene id
      match entry.list[entry.position + 1]? with
      | some next => enter scene turn next.head.id
      | none =>
          if entry.parent ≠ "" then nextInLoop scene (following fuel) turn entry.parent
          else finish scene turn .passed (scene.lib.say .passed) false

/-- `following`, with fuel for every step around. -/
def follow (turn : Turn) (id : String) : Except Fault Turn :=
  following scene (scene.index.length + 1) turn id

def goFrom (turn : Turn) (step : Step) (target : String) : Except Fault Turn :=
  goTo scene (follow scene) turn step.head.id target

def continueFrom (turn : Turn) (step : Step) (target : String) : Except Fault Turn :=
  continueAfter scene (follow scene) turn step target

end Engine

end Gostman.Flows
