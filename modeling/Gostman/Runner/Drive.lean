import Gostman.Runner.Host
/-!
# Driving a flow

`drive`, `perform`, `runNested`, `runBranch` and `parallel` of the runner, as
steps that any goroutine may take next.  A `Task` says where a run stands in
`drive`, with the run it waits for or the branches that run beside each other;
a `Lane` says where one such branch stands.

Whatever the source does not decide is open: what the engine answers or whether
its call fails, what a request comes to, which branch moves next, when the timer
of a Parallel step fires and when the context is cancelled.
-/

namespace Gostman.Runner

open Gostman.Lib Gostman.Js
open Gostman.Flows (Action Branch FlowAction Outcome SendAction StoredFlow)

/-- The variables all runs share.  `calls` counts the calls of `send` and
`produced` lists what they returned: the source keeps neither, they let theorems
speak about all sends. -/
structure World where
  values : Values
  calls : Nat := 0
  produced : List Result := []

/-- The variables of `parallel`, and whether its context is cancelled. -/
structure Parallel where
  states : Record String BranchInput := []
  order : List String := []
  deadline : Bool := false
  stopping : Bool := false
  timedOut : Bool := false
  failure : Option String := none
  doneAt : Option Gathered := none
  cancelled : Bool := false

mutual

inductive Task where
  /-- At the head of the loop, with what the engine answered. -/
  | turned (answer : Except String FlowTurn)
  /-- Between `remember` and `forgetSession`. -/
  | remembered (turn : FlowTurn)
  | performing (turn : FlowTurn)
  | sending (turn : FlowTurn) (action : SendAction)
  | calling (turn : FlowTurn) (action : FlowAction) (child : FlowRun) (task : Task)
  | performed (turn : FlowTurn) (input : FlowInput)
  | gathering (turn : FlowTurn) (parallel : Parallel) (lanes : List Lane)
  /-- After `parallel`, with what it returned. -/
  | gathered (answer : Except String FlowTurn)
  | ended (done : Done)

inductive Lane where
  | waiting (branch : Branch)
  | sending (action : SendAction) (runner : FlowRun)
  | calling (action : FlowAction) (runner : FlowRun) (held : List FlowNote) (child : FlowRun)
      (task : Task)
  /-- Before `runBranch` looks at the context for the last time. -/
  | closing (done : BranchDone)
  /-- In the channel `finished`. -/
  | finished (done : BranchDone)

end

/-! ## What the steps compute -/

def branchesOf : Action → List Branch
  | .parallel _ _ _ branches => branches
  | _ => []

def timeoutOf : Action → Nat
  | .parallel _ _ timeoutMs _ => timeoutMs
  | _ => 0

def stopOf : Action → Bool
  | .parallelStop _ stop => stop
  | _ => false

def isParallel : Action → Prop
  | .parallel _ _ _ _ => True
  | .parallelStop _ _ => True
  | _ => False

def stepOf : Branch → String
  | .send _ action => action.step
  | .flow action => action.step

def passedState (passed : Bool) : BranchState := if passed then .passed else .failed

/-- What `perform` returns once the request is sent. -/
def sentInput (result : Result) (response : Json) : FlowInput :=
  if result.isSkipped then { failed := result.failed }
  else { response := some response, failed := result.failed }

def nestedInput (done : Done) (sends : Nat) : FlowInput :=
  { outcome := some done.outcome
    message := done.message
    budget := done.budget
    sends := sends
    outputs := done.outputs }

def hasNoError (response : Json) : Bool :=
  match response.field "error" with
  | some (.str error) => error = ""
  | _ => true

/-- What `sendBranch` returns once the request is sent. -/
def sentBranch (action : SendAction) (result : Result) (response : Json) (sends : Nat) :
    BranchDone :=
  { step := action.step
    input := if result.isSkipped then { state := .failed, message := result.skipped }
      else
        { state := passedState (!result.failed && hasNoError response)
          response := some response
          message := result.error }
    result := some result
    sends := sends }

/-- What `flowBranch` makes of what `runNested` returned. -/
def flowBranchInput (input : FlowInput) : BranchInput :=
  { state := passedState (input.outcome = some .passed)
    message := input.message
    sends := input.sends
    budget := input.budget
    outputs := input.outputs }

def BranchDone.close (done : BranchDone) (isCancelled : Bool) (ms : Nat) : BranchDone :=
  let input := { done.input with ms := ms }
  if isCancelled && done.input.state ≠ .passed then
    { done with input := { input with state := .cancelled } }
  else { done with input := input }

namespace Parallel

/-- The bookkeeping of `parallel` for a branch it received. -/
def receive (parallel : Parallel) (done : BranchDone) : Parallel :=
  { parallel with
    states := parallel.states.put done.step done.input
    order := parallel.order ++ [done.step] }

/-- `partial`, and the first fields of `settled`. -/
def gathered (parallel : Parallel) (elapsedMs : Nat) : Gathered :=
  { branches := parallel.states, order := parallel.order, elapsedMs := elapsedMs }

/-- What `parallel` does with the engine's answer to `partial`. -/
def judge (parallel : Parallel) (seen : Gathered) (answer : Except String FlowTurn) : Parallel :=
  match answer with
  | .error failure => { parallel with failure := some failure, stopping := true, cancelled := true }
  | .ok next =>
      if stopOf next.action then
        { parallel with stopping := true, doneAt := some seen, cancelled := true }
      else parallel

def expire (parallel : Parallel) : Parallel :=
  { parallel with deadline := false, timedOut := true, stopping := true, cancelled := true }

def settled (parallel : Parallel) (elapsedMs : Nat) : FlowInput :=
  { toGathered := parallel.gathered elapsedMs
    settled := true
    timedOut := parallel.timedOut
    doneAt := parallel.doneAt }

end Parallel

/-- The loop of `drive`, from `forgetSession` on: the variables taken out of
`given`, and the events. -/
def takeIn (sink : Sink) (run : FlowRun) (turn : FlowTurn) : Sink × FlowRun :=
  let run := { run with given := (run.given.without turn.writes.keys).without turn.forgets }
  run.absorb sink turn.events

/-- What `drive` does next with a turn it has taken in. -/
def afterTurn (turn : FlowTurn) : Task :=
  match turn.action with
  | .done outcome message outputs vars budget => .ended ⟨outcome, message, budget, outputs, vars⟩
  | _ => .performing turn

/-! ## Steps -/

/-- One run of the tree with the variables all runs share and the place its notes
go to. -/
structure Config where
  world : World
  sink : Sink
  run : FlowRun
  task : Task

section Steps

variable (setting : Setting)

/-- A branch that a goroutine runs by itself: `runBranch` up to and after the run
it may call. -/
inductive LaneStep (run : FlowRun) (isCancelled : Bool) : World → Lane → World → Lane → Prop where
  | skip {world : World} {branch : Branch} (h : isCancelled = true) :
      LaneStep run isCancelled world (.waiting branch) world
        (.finished { step := stepOf branch, input := { state := .cancelled } })
  | borrowFailed {world : World} {branch : Branch} {message : String} (h : isCancelled = false) :
      LaneStep run isCancelled world (.waiting branch) world
        (.finished { step := stepOf branch, input := { state := .failed, message := message } })
  | unfilled {world : World} {title message : String} {action : SendAction}
      (h : isCancelled = false)
      (hfilled : setting.filled action.requestId action.inputs (some message)) :
      LaneStep run isCancelled world (.waiting (.send title action)) world
        (.closing { step := action.step, input := { state := .failed, message := message } })
  | send {world : World} {title : String} {action : SendAction} (h : isCancelled = false)
      (hfilled : setting.filled action.requestId action.inputs none) :
      LaneStep run isCancelled world (.waiting (.send title action))
        { world with calls := world.calls + 1 }
        (.sending action { run.branch with sends := run.branch.sends + 1 })
  | sent {world : World} {action : SendAction} {runner : FlowRun} {values : Values}
      {result : Result} {response : Json}
      (h : setting.exchanged action (runner.given.overlay action.vars) world.values values result
        response) :
      LaneStep run isCancelled world (.sending action runner)
        { world with values := values, produced := world.produced ++ [runner.signed action result] }
        (.closing (sentBranch action (runner.signed action result) response runner.sends))
  | missing {world : World} {action : FlowAction} (h : isCancelled = false)
      (hfind : FlowRun.findFlow setting action.flowId = none) :
      LaneStep run isCancelled world (.waiting (.flow action)) world
        (.closing
          { step := action.step
            input := flowBranchInput
              ({ outcome := some .failed, message := FlowRun.missingFlow setting action.flowId }) })
  | call {world : World} {action : FlowAction} {called : StoredFlow}
      {answer : Except String FlowTurn} (h : isCancelled = false)
      (hfind : FlowRun.findFlow setting action.flowId = some called)
      (hbegin : setting.engine.flowBegin called
        ((run.branch.callee action called).context setting world.values) answer) :
      LaneStep run isCancelled world (.waiting (.flow action)) world
        (.calling action run.branch [.event (run.branch.announcement setting action called)]
          (run.branch.callee action called) (.turned answer))
  | returned {world : World} {action : FlowAction} {runner child : FlowRun} {held : List FlowNote}
      {done : Done} :
      LaneStep run isCancelled world (.calling action runner held child (.ended done)) world
        (.closing
          { step := action.step
            input := flowBranchInput (nestedInput done child.sends)
            nested := some (runner.finished child action)
            sends := runner.sends + child.sends
            held := held })
  | close {world : World} {done : BranchDone} {ms : Nat} :
      LaneStep run isCancelled world (.closing done) world (.finished (done.close isCancelled ms))

/-- One step of a run or of a run below it.  `isCancelled` is `ctx.Err() != nil`
for the context of the run. -/
inductive Step : Bool → Config → Config → Prop where
  | failed {isCancelled : Bool} {world : World} {sink : Sink} {run : FlowRun} {message : String} :
      Step isCancelled ⟨world, sink, run, .turned (.error message)⟩
        ⟨world, (run.halt sink message).1, (run.halt sink message).2.1,
          .ended (run.halt sink message).2.2⟩
  | remember {isCancelled : Bool} {world : World} {sink : Sink} {run : FlowRun} {turn : FlowTurn} :
      Step isCancelled ⟨world, sink, run, .turned (.ok turn)⟩
        ⟨{ world with values := world.values.remember turn.writes }, sink, run, .remembered turn⟩
  | takeIn {isCancelled : Bool} {world : World} {sink : Sink} {run : FlowRun} {turn : FlowTurn} :
      Step isCancelled ⟨world, sink, run, .remembered turn⟩
        ⟨{ world with values := world.values.forgetSession turn.forgets },
          (takeIn sink run turn).1, (takeIn sink run turn).2, afterTurn turn⟩
  | wait {isCancelled : Bool} {world : World} {sink : Sink} {run : FlowRun} {turn : FlowTurn}
      {step : String} {ms : Nat} (haction : turn.action = .wait step ms) :
      Step isCancelled ⟨world, sink, run, .performing turn⟩ ⟨world, sink, run, .performed turn {}⟩
  | unsent {isCancelled : Bool} {world : World} {sink : Sink} {run : FlowRun} {turn : FlowTurn}
      {action : SendAction} (haction : turn.action = .send action) (h : isCancelled = true) :
      Step isCancelled ⟨world, sink, run, .performing turn⟩ ⟨world, sink, run, .performed turn {}⟩
  | unfilled {isCancelled : Bool} {world : World} {sink : Sink} {run : FlowRun} {turn : FlowTurn}
      {action : SendAction} {message : String} (haction : turn.action = .send action)
      (h : isCancelled = false)
      (hfilled : setting.filled action.requestId action.inputs (some message)) :
      Step isCancelled ⟨world, sink, run, .performing turn⟩
        ⟨world, sink, run, .performed turn { unfilled := some message }⟩
  | send {isCancelled : Bool} {world : World} {sink : Sink} {run : FlowRun} {turn : FlowTurn}
      {action : SendAction} (haction : turn.action = .send action) (h : isCancelled = false)
      (hfilled : setting.filled action.requestId action.inputs none) :
      Step isCancelled ⟨world, sink, run, .performing turn⟩
        ⟨{ world with calls := world.calls + 1 }, sink, { run with sends := run.sends + 1 },
          .sending turn action⟩
  | sent {isCancelled : Bool} {world : World} {sink : Sink} {run : FlowRun} {turn : FlowTurn}
      {action : SendAction} {values : Values} {result : Result} {response : Json}
      (h : setting.exchanged action (run.given.overlay action.vars) world.values values result
        response) :
      Step isCancelled ⟨world, sink, run, .sending turn action⟩
        ⟨{ world with values := values, produced := world.produced ++ [run.signed action result] },
          sink, { run with pending := run.pending.put action.step (run.signed action result) },
          .performed turn (sentInput (run.signed action result) response)⟩
  | missing {isCancelled : Bool} {world : World} {sink : Sink} {run : FlowRun} {turn : FlowTurn}
      {action : FlowAction} (haction : turn.action = .flow action)
      (hfind : FlowRun.findFlow setting action.flowId = none) :
      Step isCancelled ⟨world, sink, run, .performing turn⟩
        ⟨world, sink, run, .performed turn
          { outcome := some .failed, message := FlowRun.missingFlow setting action.flowId }⟩
  | call {isCancelled : Bool} {world : World} {sink : Sink} {run : FlowRun} {turn : FlowTurn}
      {action : FlowAction} {called : StoredFlow} {answer : Except String FlowTurn}
      (haction : turn.action = .flow action)
      (hfind : FlowRun.findFlow setting action.flowId = some called)
      (hbegin : setting.engine.flowBegin called
        ((run.callee action called).context setting world.values) answer) :
      Step isCancelled ⟨world, sink, run, .performing turn⟩
        ⟨world, sink.notify (run.announcement setting action called), run,
          .calling turn action (run.callee action called) (.turned answer)⟩
  | within {isCancelled : Bool} {world world' : World} {sink sink' : Sink}
      {run child child' : FlowRun} {turn : FlowTurn} {action : FlowAction} {task task' : Task}
      (h : Step isCancelled ⟨world, sink, child, task⟩ ⟨world', sink', child', task'⟩) :
      Step isCancelled ⟨world, sink, run, .calling turn action child task⟩
        ⟨world', sink', run, .calling turn action child' task'⟩
  | returned {isCancelled : Bool} {world : World} {sink : Sink} {run child : FlowRun}
      {turn : FlowTurn} {action : FlowAction} {done : Done} :
      Step isCancelled ⟨world, sink, run, .calling turn action child (.ended done)⟩
        ⟨world, sink,
          { run with
            nested := run.nested.put action.step (run.finished child action)
            sends := run.sends + child.sends },
          .performed turn (nestedInput done child.sends)⟩
  | stopped {world : World} {sink : Sink} {run : FlowRun} {turn : FlowTurn} {input : FlowInput} :
      Step true ⟨world, sink, run, .performed turn input⟩
        ⟨world, (run.stopped sink).1, (run.stopped sink).2.1, .ended (run.stopped sink).2.2⟩
  | advance {world : World} {sink : Sink} {run : FlowRun} {turn : FlowTurn} {input : FlowInput}
      {answer : Except String FlowTurn}
      (h : setting.engine.flowAdvance run.flow turn.state input (run.context setting world.values)
        answer) :
      Step false ⟨world, sink, run, .performed turn input⟩ ⟨world, sink, run, .turned answer⟩
  | spread {isCancelled : Bool} {world : World} {sink : Sink} {run : FlowRun} {turn : FlowTurn}
      (haction : isParallel turn.action) :
      Step isCancelled ⟨world, sink, run, .performing turn⟩
        ⟨world, sink, run, .gathering turn { deadline := decide (timeoutOf turn.action > 0) }
          ((branchesOf turn.action).map .waiting)⟩
  | lane {isCancelled : Bool} {world world' : World} {sink : Sink} {run : FlowRun}
      {turn : FlowTurn} {parallel : Parallel} {before after : List Lane} {lane lane' : Lane}
      (h : LaneStep setting run (isCancelled || parallel.cancelled) world lane world' lane') :
      Step isCancelled ⟨world, sink, run, .gathering turn parallel (before ++ lane :: after)⟩
        ⟨world', sink, run, .gathering turn parallel (before ++ lane' :: after)⟩
  | beside {isCancelled : Bool} {world world' : World} {sink : Sink} {run runner child child' : FlowRun}
      {turn : FlowTurn} {parallel : Parallel} {before after : List Lane} {action : FlowAction}
      {held held' : List FlowNote} {task task' : Task}
      (h : Step (isCancelled || parallel.cancelled) ⟨world, .held held, child, task⟩
        ⟨world', .held held', child', task'⟩) :
      Step isCancelled
        ⟨world, sink, run,
          .gathering turn parallel (before ++ .calling action runner held child task :: after)⟩
        ⟨world', sink, run,
          .gathering turn parallel (before ++ .calling action runner held' child' task' :: after)⟩
  | receive {isCancelled : Bool} {world : World} {sink : Sink} {run : FlowRun} {turn : FlowTurn}
      {parallel : Parallel} {before after : List Lane} {done : BranchDone}
      (h : parallel.stopping = true ∨ before ++ after = []) :
      Step isCancelled
        ⟨world, sink, run, .gathering turn parallel (before ++ .finished done :: after)⟩
        ⟨world, (run.keepBranch sink done).1, (run.keepBranch sink done).2,
          .gathering turn (parallel.receive done) (before ++ after)⟩
  | judge {isCancelled : Bool} {world : World} {sink : Sink} {run : FlowRun} {turn : FlowTurn}
      {parallel : Parallel} {before after : List Lane} {done : BranchDone} {elapsedMs : Nat}
      {answer : Except String FlowTurn} (hstopping : parallel.stopping = false)
      (hmore : before ++ after ≠ [])
      (hadvance : setting.engine.flowAdvance run.flow turn.state
        { toGathered := (parallel.receive done).gathered elapsedMs }
        ((run.keepBranch sink done).2.context setting world.values) answer) :
      Step isCancelled
        ⟨world, sink, run, .gathering turn parallel (before ++ .finished done :: after)⟩
        ⟨world, (run.keepBranch sink done).1, (run.keepBranch sink done).2,
          .gathering turn ((parallel.receive done).judge
            ((parallel.receive done).gathered elapsedMs) answer) (before ++ after)⟩
  | expire {isCancelled : Bool} {world : World} {sink : Sink} {run : FlowRun} {turn : FlowTurn}
      {parallel : Parallel} {lanes : List Lane} (hmore : lanes ≠ [])
      (h : parallel.deadline = true) :
      Step isCancelled ⟨world, sink, run, .gathering turn parallel lanes⟩
        ⟨world, sink, run, .gathering turn parallel.expire lanes⟩
  | broken {isCancelled : Bool} {world : World} {sink : Sink} {run : FlowRun} {turn : FlowTurn}
      {parallel : Parallel} {failure : String} (h : parallel.failure = some failure) :
      Step isCancelled ⟨world, sink, run, .gathering turn parallel []⟩
        ⟨world, sink, run, .gathered (.error failure)⟩
  | settle {isCancelled : Bool} {world : World} {sink : Sink} {run : FlowRun} {turn : FlowTurn}
      {parallel : Parallel} {elapsedMs : Nat} {answer : Except String FlowTurn}
      (h : parallel.failure = none)
      (hadvance : setting.engine.flowAdvance run.flow turn.state (parallel.settled elapsedMs)
        (run.context setting world.values) answer) :
      Step isCancelled ⟨world, sink, run, .gathering turn parallel []⟩
        ⟨world, sink, run, .gathered answer⟩
  | halted {world : World} {sink : Sink} {run : FlowRun} {answer : Except String FlowTurn} :
      Step true ⟨world, sink, run, .gathered answer⟩
        ⟨world, (run.stopped sink).1, (run.stopped sink).2.1, .ended (run.stopped sink).2.2⟩
  | resume {world : World} {sink : Sink} {run : FlowRun} {answer : Except String FlowTurn} :
      Step false ⟨world, sink, run, .gathered answer⟩ ⟨world, sink, run, .turned answer⟩

/-- The states of a flow that `RunFlow` starts and drives, with whether its context
is cancelled. -/
inductive Reached (flow : StoredFlow) (values : Values) : Bool → Config → Prop where
  | start {isCancelled : Bool} {answer : Except String FlowTurn}
      (h : setting.engine.flowBegin flow
        (({ flow := flow } : FlowRun).context setting values) answer) :
      Reached flow values isCancelled
        ⟨{ values := values }, .ledger [] [], { flow := flow }, .turned answer⟩
  | cancel {isCancelled : Bool} {config : Config} (h : Reached flow values isCancelled config) :
      Reached flow values true config
  | step {isCancelled : Bool} {config next : Config} (h : Reached flow values isCancelled config)
      (hstep : Step setting isCancelled config next) : Reached flow values isCancelled next

end Steps

end Gostman.Runner
