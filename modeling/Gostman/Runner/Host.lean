import Gostman.Flows.Engine.Answers
/-!
# The host of a flow

`runner/flows.go` and `runner/flowparallel.go`: what a flow run keeps while the
runner drives it, and the functions of the runner that touch nothing else.  The
names are those of the source.

The results and events of a run go to the ledger, or, below a branch of a
Parallel step, to the notes the branch holds back until it is kept.  A run and
the runs it calls share one such place, so the functions here take it as a
`Sink` and give it back.  Clocks and metrics are left out.
-/

namespace Gostman.Runner

open Gostman.Lib Gostman.Js
open Gostman.Flows (Action Branch Check Context FilledInput FlowAction Outcome SavedRequest
  SendAction State StoredFlow)

def flowStopped : String := "The flow was stopped before it reached its end."

def branchStopped : String := "Stopped, because the Parallel step was already done."

/-! ## What the runner and the script engine tell each other -/

inductive FlowStatus where
  | unset
  | passed
  | failed
  | handled
  | running
  deriving DecidableEq

structure FlowEvent where
  step : String
  kind : Flows.Kind
  title : String
  status : FlowStatus
  summary : String := ""
  branch : String := ""
  attempt : Nat := 0
  attempts : Nat := 0
  handledBy : String := ""
  checks : List Check := []
  writes : Record String String := []
  depth : Nat := 0
  steps : List FlowEvent := []
  index : Option Nat := none

structure FlowTurn where
  state : State
  action : Action
  events : List FlowEvent
  writes : Record String String
  forgets : List String

inductive BranchState where
  | passed
  | failed
  | cancelled
  deriving DecidableEq

structure BranchInput where
  state : BranchState
  response : Option Json := none
  message : String := ""
  ms : Nat := 0
  sends : Nat := 0
  budget : Bool := false
  outputs : Record String String := []

/-- What is known of the branches of a Parallel step at one moment. -/
structure Gathered where
  branches : Record String BranchInput := []
  order : List String := []
  elapsedMs : Nat := 0

structure FlowInput extends Gathered where
  response : Option Json := none
  failed : Bool := false
  outcome : Option Outcome := none
  message : String := ""
  sends : Nat := 0
  budget : Bool := false
  unfilled : Option String := none
  outputs : Record String String := []
  settled : Bool := false
  timedOut : Bool := false
  doneAt : Option Gathered := none

structure Done where
  outcome : Outcome
  message : String
  budget : Bool := false
  outputs : Record String String := []
  vars : Record String String := []

/-- A result, as far as the flow code reads or sets it. -/
structure Result where
  id : String
  name : String
  folder : String
  skipped : String
  error : String
  failed : Bool
  tests : List Check
  step : String := ""
  attempt : Nat := 0
  attempts : Nat := 0
  handled : String := ""
  inFlow : String := ""
  depth : Nat := 0

def Result.isSkipped (result : Result) : Bool := result.skipped ≠ ""

inductive FlowNote where
  | event (event : FlowEvent)
  | result (result : Result)

/-! ## Variables -/

/-- `values`: the layers below the session, and the session's own variables. -/
structure Values where
  layers : Record String String
  session : Record String String

namespace Values

def current (values : Values) : Record String String := values.layers.overlay values.session

def remember (values : Values) (overrides : Record String String) : Values :=
  { values with session := values.session.overlay overrides }

def forgetSession (values : Values) (names : List String) : Values :=
  { values with session := values.session.without names }

end Values

/-! ## Where results and events go -/

inductive Sink where
  | held (notes : List FlowNote)
  | ledger (results : List Result) (shown : List FlowEvent)

namespace Sink

def notify (event : FlowEvent) : Sink → Sink
  | held notes => held (notes ++ [.event event])
  | ledger results shown => ledger results (shown ++ [event])

def record (result : Result) : Sink → Sink
  | held notes => held (notes ++ [.result result])
  | ledger results shown => ledger (results ++ [result]) shown

end Sink

/-! ## A run -/

structure FlowRun where
  flow : StoredFlow
  depth : Nat := 0
  given : Record String String := []
  sendsLeft : Option Nat := none
  sends : Nat := 0
  steps : List FlowEvent := []
  nested : Record String FlowEvent := []
  pending : Record String Result := []
  concurrent : Bool := false

structure BranchDone where
  step : String
  input : BranchInput
  result : Option Result := none
  nested : Option FlowEvent := none
  sends : Nat := 0
  held : List FlowNote := []

/-- The calls of the script engine, with what each may answer or the error it may
end in. -/
structure Engine where
  flowBegin : StoredFlow → Context → Except String FlowTurn → Prop
  flowAdvance : StoredFlow → State → FlowInput → Context → Except String FlowTurn → Prop

/-- What stays the same while a flow runs: the engine, the stored flows and
requests, and what becomes of a request.  `filled` says how filling in its
inputs may fail, `exchanged` what sending it may come to: the variables its
scripts leave, the result and the response.  `quoted` is the verb `%q`. -/
structure Setting where
  engine : Engine
  flows : List StoredFlow
  requests : List SavedRequest
  filled : String → List FilledInput → Option String → Prop
  exchanged : SendAction → Record String String → Values → Values → Result → Json → Prop
  quoted : String → String

namespace FlowRun

variable (setting : Setting)

def context (run : FlowRun) (values : Values) : Context :=
  ⟨setting.requests, setting.flows, values.current.overlay run.given, run.sendsLeft⟩

def findFlow (id : String) : Option StoredFlow :=
  setting.flows.find? fun flow => flow.id = id

def child (run : FlowRun) (called : StoredFlow) (given : Record String String)
    (sendsLeft : Option Nat) : FlowRun :=
  { flow := called
    depth := run.depth + 1
    given := given
    sendsLeft := sendsLeft
    concurrent := run.concurrent }

def branch (run : FlowRun) : FlowRun :=
  { flow := run.flow
    depth := run.depth
    given := run.given
    sendsLeft := run.sendsLeft
    concurrent := true }

/-- What `runNested` announces before it drives the called flow. -/
def announcement (run : FlowRun) (action : FlowAction) (called : StoredFlow) : FlowEvent :=
  { step := action.step
    kind := .flow
    title := action.title
    status := .running
    summary := "Runs the flow " ++ setting.quoted called.name ++ "."
    depth := run.depth }

def callee (run : FlowRun) (action : FlowAction) (called : StoredFlow) : FlowRun :=
  run.child called (run.given.overlay action.vars) (some action.sendsLeft)

/-- What `runNested` keeps of the run it drove. -/
def finished (run child : FlowRun) (action : FlowAction) : FlowEvent :=
  { step := action.step
    kind := .flow
    title := action.title
    status := .unset
    depth := run.depth
    steps := child.steps }

def missingFlow (id : String) : String :=
  "there is no flow with the id " ++ setting.quoted id

/-- What `send` adds to the result `describe` makes. -/
def signed (run : FlowRun) (action : SendAction) (result : Result) : Result :=
  let result := { result with
    step := action.step
    attempt := action.attempt
    attempts := action.attempts }
  if run.depth > 0 then { result with depth := run.depth, inFlow := run.flow.name } else result

/-! ## Taking in events -/

/-- `settle`, what it makes of the pending result. -/
def settled (event : FlowEvent) (result : Result) : Result :=
  let result := if event.status = .handled then { result with handled := event.summary } else result
  event.checks.foldl (fun result check =>
    { result with
      tests := result.tests ++ [check]
      failed := result.failed || (!check.passed && result.handled = "") }) result

/-- The event with what is kept of the flow it is about. -/
def completed (run : FlowRun) (event : FlowEvent) : FlowEvent :=
  let event := { event with depth := run.depth }
  match run.nested.read event.step with
  | some nested => if event.kind = .flow then { event with steps := nested.steps } else event
  | none => event

def absorbOne (sink : Sink) (run : FlowRun) (event : FlowEvent) : Sink × FlowRun :=
  let event := run.completed event
  let run : FlowRun := { run with
    nested := if event.kind = .flow then run.nested.remove event.step else run.nested
    steps := run.steps ++ [event] }
  match run.pending.read event.step with
  | some result =>
      if event.kind = .request then
        (sink.record (settled event result),
          { run with pending := run.pending.remove event.step })
      else (sink.notify event, run)
  | none => (sink.notify event, run)

def absorb (sink : Sink) (run : FlowRun) : List FlowEvent → Sink × FlowRun
  | [] => (sink, run)
  | event :: events =>
      let (sink, run) := run.absorbOne sink event
      run.absorb sink events

/-! ## Ending -/

def sortedKeys {α : Type} (record : Record String α) : List String :=
  record.keys.mergeSort fun a b => decide (a ≤ b)

def flush (sink : Sink) (run : FlowRun) (message : String) : Sink × FlowRun :=
  let results := (sortedKeys run.pending).filterMap run.pending.read
  let unfinished := (sortedKeys run.nested).filterMap run.nested.read
  (results.foldl (fun sink result => sink.record result) sink,
    { run with
      pending := []
      nested := []
      steps := run.steps ++ unfinished.map fun event =>
        { event with status := .failed, summary := message } })

def halt (sink : Sink) (run : FlowRun) (message : String) : Sink × FlowRun × Done :=
  let (sink, run) := run.flush sink message
  (sink, run, { outcome := .failed, message := message })

def stopped (sink : Sink) (run : FlowRun) : Sink × FlowRun × Done :=
  let run := if run.concurrent then
      { run with pending := run.pending.map fun entry =>
          (entry.1, { entry.2 with handled := branchStopped }) }
    else run
  run.halt sink flowStopped

/-! ## Branches -/

def replay (sink : Sink) : List FlowNote → Sink
  | [] => sink
  | .event event :: notes => replay (sink.notify event) notes
  | .result result :: notes => replay (sink.record result) notes

def keepBranch (sink : Sink) (run : FlowRun) (done : BranchDone) : Sink × FlowRun :=
  let run := { run with sends := run.sends + done.sends }
  let run := match done.result with
    | some result => { run with pending := run.pending.put done.step result }
    | none => run
  let run := match done.nested with
    | some nested => { run with nested := run.nested.put done.step nested }
    | none => run
  (replay sink done.held, run)

end FlowRun

end Gostman.Runner
