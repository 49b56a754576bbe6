import Gostman.Flows.Ready
import Gostman.Lib.Yields
/-!
# Where a turn stands

The invariant of a run.  `Fit` and `Sane` say what is kept in good order while
a turn moves: every frame is a loop of the flow within its bounds, the Repeats
of the log that are still open are those of the frames, and the local variables
are declared ones.  `Standing` says where the turn is between two moves, and
`Reached` adds what a move does to the counts.
-/

namespace Gostman.Flows

open Gostman.Lib Gostman.Js

/-! ## The log of the Repeats -/

/-- A Repeat that is open, with the value its index variable had before. -/
structure OpenLoop where
  step : String
  name : String
  before : Option String
  deriving DecidableEq

/-- The event that closes a Repeat with the value it found. -/
def OpenLoop.closed (loop : OpenLoop) : LoopEvent :=
  .closed loop.step loop.name loop.before

/-- Read one event of a log, with the Repeats that are open, innermost first.
A Repeat is closed only as the innermost one and only with the value that was
there before it opened. -/
def bracketStep : List OpenLoop → LoopEvent → Option (List OpenLoop)
  | stack, .opened step name before => some (⟨step, name, before⟩ :: stack)
  | loop :: rest, .closed step name after =>
      if loop = ⟨step, name, after⟩ then some rest else none
  | [], .closed _ _ _ => none

/-- Read a whole log: the Repeats it leaves open, or `none` where one was
closed out of order or with another value. -/
def bracket (log : List LoopEvent) : Option (List OpenLoop) :=
  log.foldlM bracketStep []

@[simp] theorem bracket_nil : bracket [] = some [] := rfl

theorem bracket_snoc (log : List LoopEvent) (event : LoopEvent) :
    bracket (log ++ [event]) = (bracket log).bind fun stack => bracketStep stack event := by
  simp only [bracket, List.foldlM_append, List.foldlM_cons, List.foldlM_nil]
  cases List.foldlM bracketStep [] log <;> simp

@[simp] theorem bracketStep_closed (loop : OpenLoop) (rest : List OpenLoop) :
    bracketStep (loop :: rest) loop.closed = some rest := by
  simp [bracketStep, OpenLoop.closed]

def openLoop (flow : Flow) (frame : Frame) : Option OpenLoop :=
  match (indexSteps flow.steps).read frame.step with
  | none => none
  | some entry =>
      match entry.item.head.fields with
      | .repeatStep fields => some ⟨frame.step, fields.indexAs, frame.shadowed⟩
      | _ => none

def openLoops (flow : Flow) (frames : List Frame) : List OpenLoop :=
  frames.reverse.filterMap (openLoop flow)

theorem openLoops_snoc (flow : Flow) (frames : List Frame) (frame : Frame) :
    openLoops flow (frames ++ [frame]) = (openLoop flow frame).toList ++ openLoops flow frames := by
  cases h : openLoop flow frame <;> simp [openLoops, h]

@[simp] theorem openLoop_advance (flow : Flow) (frame : Frame) :
    openLoop flow frame.advance = openLoop flow frame := by
  cases frame <;> rfl

/-! ## What stays in order -/

def FrameKind (flow : Flow) (frame : Frame) : Prop :=
  ∃ spot ∈ trailWalk flow.steps, spot.item.head.id = frame.step ∧
    match frame with
    | .item _ _ _ => ∃ names, spot.item.head.fields = .forEach names
    | .pass _ _ _ _ => ∃ fields, spot.item.head.fields = .repeatStep fields

def Frame.InBounds : Frame → Prop
  | item _ items index => index < items.length
  | pass _ index count _ => index < count

/-- What is in order about a state and the log of the Repeats up to it. -/
structure Fit (flow : Flow) (history : List LoopEvent) (state : State) : Prop where
  kinds : ∀ frame ∈ state.frames, FrameKind flow frame
  log : bracket history = some (openLoops flow state.frames)
  locals_nodup : state.locals.keys.Nodup
  locals_declared : ∀ name ∈ state.locals.keys, name ∈ flow.vars.map Declared.name

/-- What is in order about a turn, after the log of the turns before it. -/
structure Sane (scene : Scene) (history : List LoopEvent) (turn : Turn) : Prop where
  fit : Fit scene.flow (history ++ turn.loops) turn.state
  bounds : ∀ frame ∈ turn.state.frames, frame.InBounds
  writes_nodup : turn.writes.keys.Nodup

def BranchOf (step : Step) : Branch → Prop
  | .send _ action => step.head.kind = .request ∧ action.step = step.head.id
  | .flow action => step.head.kind = .flow ∧ action.step = step.head.id

inductive Asks (step : Step) : Action → Prop where
  | send {fields : RequestFields} {action : SendAction}
      (hfields : step.head.fields = .request fields) (hstep : action.step = step.head.id) :
      Asks step (.send action)
  | wait {ms : Nat} (hfields : step.head.fields = .delay ms) : Asks step (.wait step.head.id ms)
  | flow {fields : FlowFields} {action : FlowAction}
      (hfields : step.head.fields = .flow fields) (hstep : action.step = step.head.id) :
      Asks step (.flow action)
  | parallel {fields : ParallelFields} {title : String} {branches : List Branch}
      (hfields : step.head.fields = .parallel fields)
      (hbranches : List.Forall₂ BranchOf step.inner branches) :
      Asks step (.parallel step.head.id title fields.timeoutMs branches)

/-- Where a turn comes to when it moves: a step it has still to run, a Repeat
between two passes, or the end. -/
inductive Landed (flow : Flow) (turn : Turn) : Prop where
  | running {spot : Spot} (hspot : spot ∈ trailWalk flow.steps)
      (hloops : InLoops flow spot) (hat : turn.state.atStep = spot.item.head.id)
      (hframes : turn.state.frames.map Frame.step = spot.parent) (haction : turn.action = none)
  | waiting {spot : Spot} {fields : RepeatFields} (hspot : spot ∈ trailWalk flow.steps)
      (hloops : InLoops flow spot) (hat : turn.state.atStep = spot.item.head.id)
      (hframes : turn.state.frames.map Frame.step = spot.parent ++ [spot.item.head.id])
      (hfields : spot.item.head.fields = .repeatStep fields)
      (haction : turn.action = some (.wait spot.item.head.id fields.delayMs))
  | finished {outcome : Outcome} {message : String} {outputs vars : Record String String}
      {budget : Bool} (hat : turn.state.atStep = "") (hframes : turn.state.frames = [])
      (haction : turn.action = some (.done outcome message outputs vars budget))

/-- Where a turn stands: where a move has come to, or at a step that waits for
the host. -/
inductive Standing (flow : Flow) (turn : Turn) : Prop where
  | landed (h : Landed flow turn)
  | asking {spot : Spot} {action : Action} (hspot : spot ∈ trailWalk flow.steps)
      (hloops : InLoops flow spot) (hat : turn.state.atStep = spot.item.head.id)
      (hframes : turn.state.frames.map Frame.step = spot.parent)
      (hasks : Asks spot.item action) (haction : turn.action = some action)

def Branch.flow? : Branch → Option FlowAction
  | send _ _ => none
  | flow action => some action

def Action.flows : Action → List FlowAction
  | flow action => [action]
  | parallel _ _ _ branches => branches.filterMap Branch.flow?
  | _ => []

def Action.direct : Action → Nat
  | send _ => 1
  | parallel _ _ _ branches => (branches.filter Branch.isSend).length
  | _ => 0

def Action.granted (action : Action) : Nat :=
  (action.flows.map FlowAction.sendsLeft).sum

def Turn.direct (turn : Turn) : Nat := (turn.action.map Action.direct).getD 0

def Turn.granted (turn : Turn) : Nat := (turn.action.map Action.granted).getD 0

/-- What a move comes to that starts with these counts. -/
structure Moved (scene : Scene) (history : List LoopEvent) (sends : Int) (quiet : Nat)
    (turn : Turn) : Prop where
  sane : Sane scene history turn
  landed : Landed scene.flow turn
  sends_eq : turn.state.sends = sends
  quiet_eq : turn.state.quiet = quiet

/-- What a step comes to that starts with these counts. -/
structure Reached (scene : Scene) (history : List LoopEvent) (sends : Int) (quiet : Nat)
    (turn : Turn) : Prop where
  sane : Sane scene history turn
  standing : Standing scene.flow turn
  sends_eq : turn.state.sends = sends + turn.direct
  quiet_eq : turn.state.quiet = quiet
  within : sends ≤ sendLimit scene → turn.state.sends + turn.granted ≤ sendLimit scene

/-- A turn that is about to move on from a step, out of the loops inside it. -/
structure LeftAt (scene : Scene) (history : List LoopEvent) (turn : Turn) (spot : Spot) : Prop where
  sane : Sane scene history turn
  mem : spot ∈ trailWalk scene.flow.steps
  inLoops : InLoops scene.flow spot
  frames_eq : turn.state.frames.map Frame.step = spot.parent
  action_eq : turn.action = none

/-- A turn in a loop whose innermost frame is this one. -/
structure InsideAt (scene : Scene) (history : List LoopEvent) (turn : Turn) (spot : Spot)
    (frame : Frame) : Prop where
  sane : Sane scene history turn
  mem : spot ∈ trailWalk scene.flow.steps
  inLoops : InLoops scene.flow spot
  frames_eq : ∃ outer, turn.state.frames = outer ++ [frame] ∧ outer.map Frame.step = spot.parent
  step_eq : frame.step = spot.item.head.id
  action_eq : turn.action = none

section Lemmas

variable {scene : Scene} {history : List LoopEvent} {turn : Turn} {spot : Spot}

theorem Landed.direct_eq {flow : Flow} (h : Landed flow turn) : turn.direct = 0 := by
  cases h with
  | running _ _ _ _ haction => simp [Turn.direct, haction]
  | waiting _ _ _ _ _ haction => simp [Turn.direct, haction, Action.direct]
  | finished _ _ haction => simp [Turn.direct, haction, Action.direct]

theorem Landed.granted_eq {flow : Flow} (h : Landed flow turn) : turn.granted = 0 := by
  cases h with
  | running _ _ _ _ haction => simp [Turn.granted, haction]
  | waiting _ _ _ _ _ haction => simp [Turn.granted, haction, Action.granted, Action.flows]
  | finished _ _ haction => simp [Turn.granted, haction, Action.granted, Action.flows]

theorem Moved.reached {sends : Int} {quiet : Nat} (h : Moved scene history sends quiet turn) :
    Reached scene history sends quiet turn where
  sane := h.sane
  standing := .landed h.landed
  sends_eq := by simp [h.sends_eq, h.landed.direct_eq]
  quiet_eq := h.quiet_eq
  within := by simp [h.sends_eq, h.landed.granted_eq]

/-- What is in order about a turn rests on its frames, its local variables, its
log and the names it writes. -/
theorem Sane.congr {turn' : Turn} (h : Sane scene history turn)
    (hframes : turn'.state.frames = turn.state.frames)
    (hlocals : turn'.state.locals = turn.state.locals)
    (hloops : turn'.loops = turn.loops) (hwrites : turn'.writes = turn.writes) :
    Sane scene history turn' where
  fit :=
    { kinds := by
        rw [hframes]
        exact h.fit.kinds
      log := by
        rw [hframes, hloops]
        exact h.fit.log
      locals_nodup := by
        rw [hlocals]
        exact h.fit.locals_nodup
      locals_declared := by
        rw [hlocals]
        exact h.fit.locals_declared }
  bounds := by
    rw [hframes]
    exact h.bounds
  writes_nodup := by
    rw [hwrites]
    exact h.writes_nodup

theorem LeftAt.record (h : LeftAt scene history turn spot) (step : Step) (status : EventStatus)
    (details : Details) : LeftAt scene history (record scene turn step status details) spot :=
  { h with sane := h.sane.congr rfl rfl rfl rfl }

theorem InsideAt.record {frame : Frame} (h : InsideAt scene history turn spot frame) (step : Step)
    (status : EventStatus) (details : Details) :
    InsideAt scene history (record scene turn step status details) spot frame :=
  { h with sane := h.sane.congr rfl rfl rfl rfl }

/-- Counts and responses may change at a step. -/
theorem LeftAt.with_state (h : LeftAt scene history turn spot) (state : State)
    (hframes : state.frames = turn.state.frames) (hlocals : state.locals = turn.state.locals) :
    LeftAt scene history { turn with state := state } spot :=
  { h with
    sane := h.sane.congr hframes hlocals rfl rfl
    frames_eq := by
      simp only [hframes]
      exact h.frames_eq }

end Lemmas

end Gostman.Flows
