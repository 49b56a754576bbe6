import Gostman.Flows.Budget
import Gostman.Flows.Recorded
import Gostman.Runner.Ledger
/-!
# The flow engine as the runner calls it

The script engine runs `flows/engine.js`.  The runner hands it a flow, the state
it returned last, an input and a context as JSON, and reads a turn from what it
answers.  A call may also fail for reasons of its own.

This engine records an event for every step it hands out, which is what the
ledger of a flow run rests on.
-/

namespace Gostman.Runner

open Gostman.Lib Gostman.Js
open Gostman.Flows (Action Branch Check Context Event EventStatus Library Outcome SavedRequest
  SendAction FlowAction State StoredFlow normalizeFlow validateFlow)

/-! ## Inputs as JSON -/

/-- The fields that are there, as `omitempty` leaves them. -/
def present (entries : Record String (Option Json)) : Obj :=
  entries.filterMap fun entry => entry.2.map fun value => (entry.1, value)

theorem read_present {entries : Record String (Option Json)} (hnodup : entries.keys.Nodup)
    (name : String) : Record.read (present entries) name = (entries.read name).join := by
  induction entries with
  | nil => rfl
  | cons entry rest ih =>
      obtain ⟨key, value⟩ := entry
      simp only [Record.keys, List.map_cons, List.nodup_cons] at hnodup
      have hrest := ih hnodup.2
      cases value with
      | none =>
          rw [show present ((key, none) :: rest) = present rest from rfl, Record.read_cons]
          split_ifs with hkey
          · subst hkey
            rw [hrest, (Record.read_eq_none_iff rest key).2 hnodup.1]
            rfl
          · exact hrest
      | some value =>
          rw [show present ((key, some value) :: rest) = (key, value) :: present rest from rfl,
            Record.read_cons, Record.read_cons]
          split_ifs
          · rfl
          · exact hrest

def textField (text : String) : Option Json := if text = "" then none else some (.str text)

def countField (count : Nat) : Option Json := if count = 0 then none else some (.num count)

def flagField (flag : Bool) : Option Json := if flag then some (.bool true) else none

def textsField (values : Record String String) : Option Json :=
  if values.length = 0 then none
  else some (.obj ((FlowRun.sortedKeys values).filterMap fun key =>
    (values.read key).map fun text => (key, .str text)))

def BranchState.text : BranchState → String
  | passed => "passed"
  | failed => "failed"
  | cancelled => "cancelled"

def outcomeText : Outcome → String
  | .passed => "passed"
  | .failed => "failed"

def BranchInput.toJson (input : BranchInput) : Json :=
  .obj (present [("state", some (.str input.state.text)), ("response", input.response),
    ("message", textField input.message), ("ms", some (.num input.ms)),
    ("sends", countField input.sends), ("budget", flagField input.budget),
    ("outputs", textsField input.outputs)])

def Gathered.branchesField (gathered : Gathered) : Option Json :=
  if gathered.branches.length = 0 then none
  else some (.obj ((FlowRun.sortedKeys gathered.branches).filterMap fun key =>
    (gathered.branches.read key).map fun input => (key, input.toJson)))

def Gathered.orderField (gathered : Gathered) : Option Json :=
  if gathered.order.length = 0 then none else some (.arr (gathered.order.map .str))

/-- A `flowInput` with nothing but what is known of the branches. -/
def Gathered.toJson (gathered : Gathered) : Json :=
  .obj (present [("failed", some (.bool false)), ("branches", gathered.branchesField),
    ("order", gathered.orderField), ("elapsedMs", countField gathered.elapsedMs)])

def FlowInput.toJson (input : FlowInput) : Json :=
  .obj (present [("response", input.response), ("failed", some (.bool input.failed)),
    ("outcome", input.outcome.map fun outcome => .str (outcomeText outcome)),
    ("message", textField input.message), ("sends", countField input.sends),
    ("budget", flagField input.budget), ("unfilled", input.unfilled.map .str),
    ("outputs", textsField input.outputs), ("branches", input.branchesField),
    ("order", input.orderField), ("elapsedMs", countField input.elapsedMs),
    ("settled", flagField input.settled), ("timedOut", flagField input.timedOut),
    ("doneAt", input.doneAt.map Gathered.toJson)])

theorem FlowInput.field_toJson (input : FlowInput) :
    input.toJson.field "settled" = flagField input.settled ∧
      input.toJson.field "outputs" = textsField input.outputs ∧
      input.toJson.field "branches" = input.branchesField := by
  refine ⟨?_, ?_, ?_⟩ <;>
    exact (read_present (by simp [Record.keys]) _).trans (by rfl)

/-! ## Turns as the runner reads them -/

def FlowStatus.of : EventStatus → FlowStatus
  | .passed => passed
  | .failed => failed
  | .handled => handled

def FlowEvent.of (event : Event) : FlowEvent :=
  { step := event.step
    kind := event.kind
    title := event.title
    status := .of event.status
    summary := event.details.summary
    branch := event.details.branch.getD ""
    attempt := event.details.attempt.getD 0
    attempts := event.details.attempts.getD 0
    handledBy := event.details.handledBy.getD ""
    checks := event.details.checks.getD []
    writes := event.details.writes.getD []
    index := event.details.index }

/-- The runner reads this turn from what the engine returned. -/
structure Reads (turn : Flows.Turn) (read : FlowTurn) : Prop where
  state_eq : read.state = turn.state
  action_eq : turn.action = some read.action
  events_eq : read.events = turn.events.map FlowEvent.of
  writes_eq : read.writes = turn.writes
  forgets_eq : read.forgets = turn.forgets

/-- The script engine with `flows/engine.js` in it. -/
def scripted (lib : Library) : Engine where
  flowBegin flow context answer :=
    match answer with
    | .error _ => True
    | .ok read => ∃ turn problems,
        Flows.flowBegin lib flow.raw context = .ok (turn, problems) ∧ Reads turn read
  flowAdvance flow state input context answer :=
    match answer with
    | .error _ => True
    | .ok read => ∃ turn,
        Flows.flowAdvance lib flow.raw state input.toJson context = .ok turn ∧ Reads turn read

/-! ## What the engine promises -/

section Promise

variable {lib : Library} {setting : Setting} (hengine : setting.engine = scripted lib)
  {flow : StoredFlow} {read : FlowTurn}

include hengine

/-- A turn that the runner is given is one of a run of the flow, and a flow with
problems is done at once. -/
theorem Given.run (h : Given setting flow read) :
    ∃ log turn, Flows.Run lib flow.raw setting.requests setting.flows log turn ∧ Reads turn read ∧
      (validateFlow lib (normalizeFlow lib.numerals flow.raw) setting.requests setting.flows ≠ [] →
        isDone read.action = true) := by
  induction h with
  | @begin vars sendsLeft read h =>
      rw [hengine] at h
      obtain ⟨turn, problems, hbegin, hreads⟩ := h
      refine ⟨_, turn, .begin hbegin, hreads, fun hinvalid => ?_⟩
      have hdone := (Flows.begin_of_problems
        ⟨setting.requests, setting.flows, vars, sendsLeft⟩ hinvalid hbegin).2
      obtain ⟨outcome, message, outputs, vars, budget, hdone⟩ := hdone
      have haction := Option.some.inj (hreads.action_eq.symm.trans hdone)
      rw [haction]
      rfl
  | @advance vars sendsLeft before read input _ hgoes h ih =>
      rw [hengine] at h
      obtain ⟨turn, hadvance, hreads⟩ := h
      obtain ⟨log, last, hrun, hlast, hproblems⟩ := ih
      rw [hlast.state_eq] at hadvance
      refine ⟨_, turn, .advance hrun hadvance, hreads, fun hinvalid => ?_⟩
      rw [hproblems hinvalid] at hgoes
      cases hgoes

/-- The step a turn is at has asked the action it gives, or the turn only says
whether to stop a Parallel step. -/
theorem Given.awaits (h : Given setting flow read)
    (hvalid : validateFlow lib (normalizeFlow lib.numerals flow.raw) setting.requests
      setting.flows = []) :
    Flows.Awaits (normalizeFlow lib.numerals flow.raw) read.state read.action ∨
      ∃ step stop, read.action = .parallelStop step stop := by
  obtain ⟨log, turn, hrun, hreads, -⟩ := h.run hengine
  rw [hreads.state_eq]
  cases hrun with
  | @begin vars sendsLeft _ problems hbegin =>
      have hready := Flows.ready_createScene
        ⟨setting.requests, setting.flows, vars, sendsLeft⟩ hvalid
      have hturned := (Flows.beginTurn_turned hready).result hbegin
      exact .inl (hturned.awaits hreads.action_eq)
  | @advance log last _ input vars sendsLeft hrun hadvance =>
      have hready := Flows.ready_createScene
        ⟨setting.requests, setting.flows, vars, sendsLeft⟩ hvalid
      obtain ⟨hfit, hresting, hplaced⟩ := Flows.run_rests hvalid hrun
      rcases (Flows.advanceTurn_turned hready hfit hplaced.bounds hresting input).result hadvance with
        ⟨hturned, -⟩ | hpeeked
      · exact .inl (hturned.awaits hreads.action_eq)
      · obtain ⟨stop, rfl⟩ := hpeeked.after_eq
        exact .inr ⟨_, stop, (Option.some.inj hreads.action_eq).symm⟩

omit hengine in
theorem isTrue_settled {input : FlowInput} (h : input.settled = true) :
    Flows.isTrue (input.toJson.field "settled") = true := by
  rw [input.field_toJson.1, h]
  rfl

omit hengine in
theorem stepOf_of_branchOf {step : Flows.Step} {branch : Branch} (h : Flows.BranchOf step branch) :
    stepOf branch = step.head.id ∧ kindOf branch = step.head.kind := by
  cases branch with
  | send title action => exact ⟨h.2, h.1.symm⟩
  | flow action => exact ⟨h.2, h.1.symm⟩

omit hengine in
theorem map_stepOf {steps : List Flows.Step} {branches : List Branch}
    (h : List.Forall₂ Flows.BranchOf steps branches) :
    branches.map stepOf = steps.map fun step => step.head.id := by
  induction h with
  | nil => rfl
  | cons hbranch _ ih => rw [List.map_cons, List.map_cons, ih, (stepOf_of_branchOf hbranch).1]

omit hengine in
theorem nodup_inner {steps : List Flows.Step} (hnamed : Flows.Named steps) {spot : Flows.Spot}
    (hspot : spot ∈ Flows.trailWalk steps) (hopens : Flows.opensInner spot.item.head = true) :
    (spot.item.inner.map fun step => step.head.id).Nodup := by
  have hshown : Flows.innerSteps spot.item = spot.item.inner := by
    simp [Flows.innerSteps, Outline.shown, hopens]
  rw [← hshown, List.nodup_iff_getElem?_ne_getElem?]
  intro i j hij hj heq
  rw [List.length_map] at hj
  rw [List.getElem?_map, List.getElem?_map, List.getElem?_eq_getElem hj,
    List.getElem?_eq_getElem (by omega : i < (Flows.innerSteps spot.item).length)] at heq
  have hfirst := Flows.inner_mem_trailWalk hspot
    (List.getElem?_eq_getElem (by omega : i < (Flows.innerSteps spot.item).length))
  have hsecond := Flows.inner_mem_trailWalk hspot (List.getElem?_eq_getElem hj)
  have hsame := hnamed.spot_unique hfirst hsecond (by simpa using heq)
  have hposition := congrArg Outline.Spot.position hsame
  simp only at hposition
  omega

omit hengine in
/-- The branches of a Parallel step are different steps of the flow. -/
theorem nodup_branches {steps : Flows.Flow} (hnamed : Flows.Named steps.steps) {state : State}
    {action : Action} (h : Flows.Awaits steps state action) :
    ((branchesOf action).map stepOf).Nodup := by
  cases h with
  | @asking spot action hspot _ hasks =>
      cases hasks with
      | parallel hfields hbranches =>
          rw [branchesOf, map_stepOf hbranches]
          exact nodup_inner hnamed hspot (by simp [Flows.opensInner, Flows.StepHead.kind, hfields,
            Flows.Fields.kind, Flows.Kind.isContainer])
      | _ => exact List.nodup_nil
  | waiting => exact List.nodup_nil
  | finished => exact List.nodup_nil

theorem Given.apart (h : Given setting flow read) : ((branchesOf read.action).map stepOf).Nodup := by
  by_cases hvalid : validateFlow lib (normalizeFlow lib.numerals flow.raw) setting.requests
    setting.flows = []
  · rcases h.awaits hengine hvalid with hawaits | ⟨step, stop, haction⟩
    · exact nodup_branches (Flows.named_normalizeFlow lib.numerals flow.raw) hawaits
    · rw [haction]
      exact List.nodup_nil
  · obtain ⟨_, _, _, _, hproblems⟩ := h.run hengine
    have hdone := hproblems hvalid
    cases haction : read.action <;> simp_all [isDone, branchesOf]

omit hengine in
/-- The turn that answers an action has an event for each step it handed out. -/
theorem awaits_recorded {scene : Flows.Scene} (hmade : Flows.Made scene) {state : State}
    {action : Action} (hawaits : Flows.Awaits scene.flow state action) {input : FlowInput}
    (hsettled : isParallel action → input.settled = true) {after : Flows.Turn}
    (hafter : Flows.advanceTurn scene state input.toJson = .ok after) {step : String} {kind : Flows.Kind}
    (hasked : (step, kind) ∈ asked action) :
    ∃ event ∈ after.events, event.step = step ∧ event.kind = kind := by
  cases hawaits with
  | waiting => cases hasked
  | finished => cases hasked
  | @asking spot action hspot hat hasks =>
      cases hasks with
      | wait => cases hasked
      | send hfields hstep =>
          have hkind : spot.item.head.kind = .request := by
            simp [Flows.StepHead.kind, hfields, Flows.Fields.kind]
          obtain ⟨rfl, rfl⟩ : step = _ ∧ kind = _ := by simpa [asked] using hasked
          obtain ⟨event, hmem, habout, hkinds⟩ :=
            Flows.advanceTurn_recorded hmade hspot hat (.inl hkind) after hafter
          exact ⟨event, hmem, habout.trans hstep.symm, hkinds.trans hkind⟩
      | flow hfields hstep =>
          have hkind : spot.item.head.kind = .flow := by
            simp [Flows.StepHead.kind, hfields, Flows.Fields.kind]
          obtain ⟨rfl, rfl⟩ : step = _ ∧ kind = _ := by simpa [asked] using hasked
          obtain ⟨event, hmem, habout, hkinds⟩ :=
            Flows.advanceTurn_recorded hmade hspot hat (.inr hkind) after hafter
          exact ⟨event, hmem, habout.trans hstep.symm, hkinds.trans hkind⟩
      | parallel hfields hbranches =>
          obtain ⟨branch, hbranch, hpair⟩ := List.mem_map.1 hasked
          obtain ⟨rfl, rfl⟩ : stepOf branch = step ∧ kindOf branch = kind := by simpa using hpair
          obtain ⟨item, hitem, hof⟩ : ∃ item ∈ spot.item.inner, Flows.BranchOf item branch := by
            obtain ⟨i, hi, rfl⟩ := List.getElem_of_mem hbranch
            have hi' : i < spot.item.inner.length := by rw [hbranches.length_eq]; exact hi
            exact ⟨_, List.getElem_mem hi', hbranches.get hi' hi⟩
          obtain ⟨event, hmem, habout, hkinds⟩ :=
            Flows.advanceTurn_recordsBranches hmade hspot hat hfields
              (isTrue_settled (hsettled trivial)) after hafter item hitem
          obtain ⟨hstep, hkind⟩ := stepOf_of_branchOf hof
          exact ⟨event, hmem, habout.trans hstep.symm, hkinds.trans hkind.symm⟩

/-- The flow engine records what the ledger rests on. -/
theorem records_of_scripted : Records setting where
  apart := Given.apart hengine
  recorded := by
    intro flow turn next input vars sendsLeft hgiven hadvance hsettled step kind hasked
    rw [hengine] at hadvance
    obtain ⟨after, hafter, hreads⟩ := hadvance
    rw [hreads.events_eq]
    by_cases hvalid : validateFlow lib (normalizeFlow lib.numerals flow.raw) setting.requests
      setting.flows = []
    · rcases hgiven.awaits hengine hvalid with hawaits | ⟨step, stop, haction⟩
      · obtain ⟨event, hmem, habout⟩ := awaits_recorded
          (Flows.made_createScene lib flow.raw
            ⟨setting.requests, setting.flows, vars, sendsLeft⟩) hawaits hsettled hafter hasked
        exact ⟨.of event, List.mem_map_of_mem hmem, habout⟩
      · rw [haction] at hasked
        cases hasked
    · obtain ⟨_, _, _, _, hproblems⟩ := hgiven.run hengine
      have hdone := hproblems hvalid
      cases haction : turn.action <;> simp_all [isDone, asked]

end Promise

/-! ## A flow that calls another one in a branch -/

def pingFlow : StoredFlow where
  raw := .obj [("id", .str "f"), ("name", .str "Ping"),
    ("steps", .arr [.obj [("id", .str "ping"), ("requestId", .str "r")]])]
  id := "f"
  name := "Ping"
  id_eq := rfl
  name_eq := rfl

def pong : Result :=
  { id := "r", name := "Ping", folder := "", skipped := "", error := "", failed := false, tests := [] }

def readTurn (answer : Except Flows.Fault Flows.Turn) : Option FlowTurn :=
  match answer with
  | .error _ => none
  | .ok turn => turn.action.map fun action =>
      { state := turn.state
        action := action
        events := turn.events.map FlowEvent.of
        writes := turn.writes
        forgets := turn.forgets }

theorem reads_of_readTurn {answer : Except Flows.Fault Flows.Turn} {read : FlowTurn}
    (h : readTurn answer = some read) : ∃ turn, answer = .ok turn ∧ Reads turn read := by
  cases answer with
  | error fault => cases h
  | ok turn =>
      obtain ⟨action, haction, rfl⟩ := Option.map_eq_some_iff.1 h
      exact ⟨turn, rfl, rfl, haction, rfl, rfl, rfl⟩

def pongResponse : Json := .obj [("status", .num 200)]

def fanFlow : StoredFlow where
  raw := .obj [("id", .str "g"), ("name", .str "Fan"),
    ("steps", .arr [.obj [("id", .str "both"), ("kind", .str "parallel"), ("steps", .arr [
      .obj [("id", .str "ping"), ("requestId", .str "r")],
      .obj [("id", .str "inner"), ("kind", .str "flow"), ("flowId", .str "f")]])]])]
  id := "g"
  name := "Fan"
  id_eq := rfl
  name_eq := rfl

def fanSetting : Setting where
  engine := scripted Flows.plainLibrary
  flows := [pingFlow, fanFlow]
  requests := [⟨"r", "Ping", "Ping", "none"⟩]
  filled := fun _ _ failure => failure = none
  exchanged := fun _ _ before after result response =>
    after = before ∧ result = pong ∧ response = .obj [("status", .num 200)]
  quoted := fun text => "\"" ++ text ++ "\""

def fanContext (sendsLeft : Option Nat) : Context := ⟨fanSetting.requests, fanSetting.flows, [], sendsLeft⟩

/-- What the branches come to: the request was answered, and the flow sent one. -/
def answeredPing : BranchInput := { state := .passed, response := some pongResponse }

def ranInner : BranchInput :=
  { state := .passed, message := "The flow reached its end.", sends := 1 }

/-- What the engine is given after the first branch, and after both. -/
def fanPartial : FlowInput := { branches := [("ping", answeredPing)], order := ["ping"] }

def fanSettled : FlowInput :=
  { branches := [("ping", answeredPing), ("inner", ranInner)], order := ["ping", "inner"], settled := true }

def fanPartialJson : Json :=
  .obj [("failed", .bool false), ("branches", .obj [("ping", answeredPing.toJson)]), ("order", .arr [.str "ping"])]

def fanSettledJson : Json :=
  .obj [("failed", .bool false), ("branches", .obj [("inner", ranInner.toJson), ("ping", answeredPing.toJson)]),
    ("order", .arr [.str "ping", .str "inner"]), ("settled", .bool true)]

theorem fan_toJson : fanPartial.toJson = fanPartialJson ∧ fanSettled.toJson = fanSettledJson := by
  simp [FlowInput.toJson, fanPartial, fanSettled, fanPartialJson, fanSettledJson, Gathered.branchesField,
    Gathered.orderField, FlowRun.sortedKeys, Record.keys, List.mergeSort, Record.read, present, flagField,
    countField, textField, textsField]

def pingAction : SendAction :=
  { step := "ping", requestId := "r", attempt := 1, attempts := 1, delayMs := 0, vars := [], inputs := [] }

def innerAction : FlowAction :=
  { step := "inner", flowId := "f", title := "Ping", vars := [], sendsLeft := 999 }

/-- The engine hands out both branches, goes on after the first, and is done after both. -/
theorem fan_turns : ∃ first partly last,
    first.action = .parallel "both" "Parallel" 0 [.send "Ping" pingAction, .flow innerAction] ∧
    stopOf partly.action = false ∧
    (∃ outcome message outputs vars budget, last.action = .done outcome message outputs vars budget) ∧
    readTurn ((Flows.flowBegin Flows.plainLibrary fanFlow.raw (fanContext none)).map Prod.fst) = some first ∧
    readTurn (Flows.flowAdvance Flows.plainLibrary fanFlow.raw first.state fanPartialJson (fanContext none)) =
      some partly ∧
    readTurn (Flows.flowAdvance Flows.plainLibrary fanFlow.raw first.state fanSettledJson (fanContext none)) =
      some last ∧
    first.writes = [] ∧ first.forgets = [] ∧ first.events = [] :=
  ⟨_, _, _, rfl, rfl, ⟨_, _, _, _, _, rfl⟩, rfl, rfl, rfl, rfl, rfl, rfl⟩

/-- The flow of the second branch sends its request and is done with the answer. -/
theorem inner_turns : ∃ first last, first.action = .send pingAction ∧
    last.action = .done .passed ranInner.message [] [] false ∧
    readTurn ((Flows.flowBegin Flows.plainLibrary pingFlow.raw (fanContext (some 999))).map Prod.fst) = some first ∧
    readTurn (Flows.flowAdvance Flows.plainLibrary pingFlow.raw first.state
      ({ response := some pongResponse } : FlowInput).toJson (fanContext (some 999))) = some last ∧
    (first.writes = [] ∧ first.forgets = [] ∧ first.events = []) ∧ last.writes = [] ∧ last.forgets = [] :=
  ⟨_, _, rfl, rfl, rfl, rfl, ⟨rfl, rfl, rfl⟩, rfl, rfl⟩

theorem begins {lib : Library} {flow : StoredFlow} {context : Context} {turn : FlowTurn}
    (h : readTurn ((Flows.flowBegin lib flow.raw context).map Prod.fst) = some turn) :
    (scripted lib).flowBegin flow context (.ok turn) := by
  obtain ⟨begun, hbegun, hreads⟩ := reads_of_readTurn h
  cases hresult : Flows.flowBegin lib flow.raw context with
  | error fault =>
      rw [hresult] at hbegun
      cases hbegun
  | ok result =>
      rw [hresult] at hbegun
      obtain rfl := Except.ok.inj hbegun
      exact ⟨result.1, result.2, hresult, hreads⟩

theorem advances {lib : Library} {flow : StoredFlow} {state : State} {input : FlowInput} {context : Context}
    {turn : FlowTurn} (h : readTurn (Flows.flowAdvance lib flow.raw state input.toJson context) = some turn) :
    (scripted lib).flowAdvance flow state input context (.ok turn) :=
  reads_of_readTurn h

theorem takeIn_quiet {sink : Sink} {run : FlowRun} {turn : FlowTurn} (hwrites : turn.writes = [])
    (hforgets : turn.forgets = []) (hevents : turn.events = []) (hgiven : run.given = []) :
    takeIn sink run turn = (sink, run) := by
  rw [takeIn, hwrites, hforgets, hevents, hgiven]
  obtain ⟨flow, depth, given, sendsLeft, sends, steps, nested, pending, concurrent⟩ := run
  obtain rfl : given = [] := hgiven
  rfl

/-- The result of the request in the branch, and of that in the flow of the other one. -/
def pingResult : Result := { pong with step := "ping", attempt := 1, attempts := 1 }

def innerResult : Result := { pingResult with depth := 1, inFlow := "Ping" }

/-- The run of the other flow in its branch, before and after it sends. -/
def innerRun : FlowRun := { flow := pingFlow, depth := 1, sendsLeft := some 999, concurrent := true }

def innerSent : FlowRun := { innerRun with sends := 1, pending := [("ping", innerResult)] }

/-- The run of the first flow and its Parallel step, once the first branch is received. -/
def fanRun : FlowRun := { flow := fanFlow, sends := 1, pending := [("ping", pingResult)] }

def fanParallel : Parallel := { states := [("ping", answeredPing)], order := ["ping"] }

def fanWorld (results : List Result) : World :=
  { values := ⟨[], []⟩, calls := results.length, produced := results }

/-- A run in a branch notes what it finds, and keeps its count of sends. -/
theorem takeIn_held (notes : List FlowNote) {run : FlowRun} (hnodup : run.pending.keys.Nodup) (turn : FlowTurn) :
    (∃ kept, (takeIn (.held notes) run turn).1 = .held kept) ∧
      (takeIn (.held notes) run turn).2.sends = run.sends := by
  have h := @absorb_absorbed { run with given := (run.given.without turn.writes.keys).without turn.forgets }
    hnodup (.held notes) turn.events
  refine ⟨?_, h.sends_eq⟩
  have hheld := h.ledger
  rw [takeIn]
  cases hsink : (FlowRun.absorb (.held notes)
    { run with given := (run.given.without turn.writes.keys).without turn.forgets } turn.events).1 with
  | held kept => exact ⟨kept, rfl⟩
  | ledger results shown =>
      rw [hsink] at hheld
      cases hheld

/-- The branch with the other flow, while that flow runs. -/
def InnerReached (first : FlowTurn) (config : Config) : Prop :=
  ∃ notes, config.sink = .held notes ∧ Reached fanSetting fanFlow ⟨[], []⟩ false
    ⟨config.world, .ledger [] [], fanRun,
      .gathering first fanParallel
        [.calling innerAction ({ flow := fanFlow, concurrent := true }) notes config.run config.task]⟩

theorem InnerReached.step {first : FlowTurn} {config next : Config} (h : InnerReached first config)
    (hstep : Step fanSetting false config next) (hheld : ∃ notes, next.sink = .held notes) :
    InnerReached first next := by
  obtain ⟨world, sink, run, task⟩ := config
  obtain ⟨world', sink', run', task'⟩ := next
  obtain ⟨notes, rfl, hreached⟩ := h
  obtain ⟨notes', rfl⟩ := hheld
  exact ⟨notes', rfl, hreached.step (@Step.beside fanSetting false _ _ _ _ _ _ _ _ _ [] [] _ _ _ _ _ hstep)⟩

/-- The first branch is received while the other one waits. -/
theorem reached_first {first partly : FlowTurn}
    (haction : first.action = .parallel "both" "Parallel" 0 [.send "Ping" pingAction, .flow innerAction])
    (hbegin : fanSetting.engine.flowBegin fanFlow (fanContext none) (.ok first)) (hgoes : stopOf partly.action = false)
    (hpartly : fanSetting.engine.flowAdvance fanFlow first.state fanPartial (fanContext none) (.ok partly))
    (hwrites : first.writes = []) (hforgets : first.forgets = []) (hevents : first.events = []) :
    Reached fanSetting fanFlow ⟨[], []⟩ false
      ⟨fanWorld [pingResult], .ledger [] [], fanRun,
        .gathering first fanParallel [.waiting (.flow innerAction)]⟩ := by
  have h0 : Reached fanSetting fanFlow ⟨[], []⟩ false
      ⟨fanWorld [], .ledger [] [], { flow := fanFlow }, .turned (.ok first)⟩ := .start hbegin
  have h1 := (h0.step .remember).step .takeIn
  rw [afterTurn, haction, takeIn_quiet hwrites hforgets hevents rfl, hwrites, hforgets] at h1
  have h2 : Reached fanSetting fanFlow ⟨[], []⟩ false
      ⟨fanWorld [], .ledger [] [], { flow := fanFlow },
        .gathering first {} [.waiting (.send "Ping" pingAction), .waiting (.flow innerAction)]⟩ := by
    have hspread := h1.step (.spread (by rw [haction]; trivial))
    rw [haction] at hspread
    exact hspread
  have h3 := h2.step (@Step.lane fanSetting false _ _ _ _ _ _ [] [_] _ _ (.send rfl rfl))
  have h4 := h3.step (@Step.lane fanSetting false _ _ _ _ _ _ [] [_] _ _
    (@LaneStep.sent fanSetting _ _ _ _ _ _ pong pongResponse ⟨rfl, rfl, rfl⟩))
  have h5 := h4.step (@Step.lane fanSetting false _ _ _ _ _ _ [] [_] _ _ (@LaneStep.close _ _ _ _ _ 0))
  have h6 := h5.step (@Step.judge fanSetting false _ _ _ _ _ [] [_] _ 0 (.ok partly) rfl (List.cons_ne_nil _ _) hpartly)
  rw [Parallel.judge, hgoes] at h6
  exact h6

theorem reached_fan :
    ∃ config done, Reached fanSetting fanFlow ⟨[], []⟩ false config ∧ config.task = .ended done ∧
      config.world.produced.length = 2 := by
  obtain ⟨first, partly, last, haction, hgoes, ⟨outcome, message, outputs, vars, budget, hdone⟩, hfirst, hpartly,
    hlast, hwrites, hforgets, hevents⟩ := fan_turns
  obtain ⟨asked, answered, hasked, hanswered, hbegun, hended, ⟨hwrites', hforgets', hevents'⟩, hlastWrites,
    hlastForgets⟩ := inner_turns
  have hreached := reached_first haction (begins hfirst) hgoes (advances (fan_toJson.1 ▸ hpartly)) hwrites hforgets
    hevents
  -- the second branch runs the other flow, which sends the same request
  have h0 : InnerReached first ⟨fanWorld [pingResult], .held _, innerRun, .turned (.ok asked)⟩ :=
    ⟨_, rfl, hreached.step (@Step.lane fanSetting false _ _ _ _ _ _ [] [] _ _ (.call rfl rfl (begins hbegun)))⟩
  have h1 := (h0.step .remember ⟨_, rfl⟩).step .takeIn
    ⟨_, congrArg Prod.fst (takeIn_quiet hwrites' hforgets' hevents' rfl)⟩
  rw [afterTurn, hasked, takeIn_quiet hwrites' hforgets' hevents' rfl, hwrites', hforgets'] at h1
  have h2 := h1.step (.send hasked rfl rfl) ⟨_, rfl⟩
  have h3 := h2.step (@Step.sent fanSetting _ _ _ _ _ _ _ pong pongResponse ⟨rfl, rfl, rfl⟩) ⟨_, rfl⟩
  have h4 := (h3.step (.advance (advances hended)) ⟨_, rfl⟩).step .remember ⟨_, rfl⟩
  have hkept := takeIn_held [.event (FlowRun.announcement fanSetting
    { flow := fanFlow, concurrent := true } innerAction pingFlow)]
    (show innerSent.pending.keys.Nodup from List.nodup_singleton _) answered
  obtain ⟨notes, -, h5⟩ := h4.step .takeIn hkept.1
  rw [afterTurn, hanswered, hlastWrites, hlastForgets] at h5
  obtain ⟨child, hsends, h6⟩ : ∃ child : FlowRun, child.sends = 1 ∧ Reached fanSetting fanFlow ⟨[], []⟩ false
      ⟨fanWorld [pingResult, innerResult], .ledger [] [], fanRun,
        .gathering first fanParallel
          [.calling innerAction { flow := fanFlow, concurrent := true } notes child
            (.ended ⟨.passed, ranInner.message, false, [], []⟩)]⟩ := ⟨_, hkept.2, h5⟩
  have h7 := (h6.step (@Step.lane fanSetting false _ _ _ _ _ _ [] [] _ _ .returned)).step
    (@Step.lane fanSetting false _ _ _ _ _ _ [] [] _ _ (@LaneStep.close _ _ _ _ _ 0))
  rw [hsends] at h7
  have hsettled : fanSetting.engine.flowAdvance fanFlow first.state fanSettled (fanContext none) (.ok last) :=
    advances (fan_toJson.2 ▸ hlast)
  -- both are received, and the flow is done
  have h8 := h7.step (@Step.receive fanSetting false _ _ _ _ _ [] [] _ (.inr rfl))
  have h9 := ((h8.step (@Step.settle fanSetting false _ _ _ _ _ 0 _ rfl hsettled)).step .resume).step .remember
  have h10 := h9.step .takeIn
  rw [afterTurn, hdone] at h10
  exact ⟨_, _, h10, rfl, rfl⟩

/-- The flow with a request in one branch and a flow in the other ends with both results in the ledger. -/
theorem ledger_complete_fan :
    ∃ results shown done,
      (∃ config, Reached fanSetting fanFlow ⟨[], []⟩ false config ∧ config.task = .ended done ∧
        config.sink = .ledger results shown) ∧ results.length = 2 := by
  obtain ⟨config, done, hreached, hended, hlength⟩ := reached_fan
  obtain ⟨-, -, -, hdone⟩ := ledger_complete (records_of_scripted rfl) hreached
  obtain ⟨-, results, shown, hsink, hperm⟩ := hdone done hended
  have hcount := hperm.length_eq
  rw [List.length_map, List.length_map, hlength] at hcount
  exact ⟨results, shown, done, ⟨config, hreached, hended, hsink⟩, hcount⟩

end Gostman.Runner
