import Gostman.Runner.Bookkeeping
/-!
# The ledger of a flow run

A step of any run of the tree moves results between the places that hold them
and adds only what a `send` returns.  So a flow that has ended has every result
in the ledger once, whatever order its branches, timers, failed engine calls and
cancellations come in, and has counted every call of `send`.

The engine has to record an event for every step it hands out; what is pending
for a step that no event names would be replaced by the next result for it.
-/

namespace Gostman.Runner

open Gostman.Lib Gostman.Js
open Gostman.Flows (Action Branch FlowAction SendAction StoredFlow)

/-! ## What the engine promises -/

def kindOf : Branch → Flows.Kind
  | .send _ _ => .request
  | .flow _ => .flow

def asked : Action → List (String × Flows.Kind)
  | .send action => [(action.step, .request)]
  | .flow action => [(action.step, .flow)]
  | .parallel _ _ _ branches => branches.map fun branch => (stepOf branch, kindOf branch)
  | _ => []

def isDone : Action → Bool
  | .done _ _ _ _ _ => true
  | _ => false

def isPlain : Action → Prop
  | .send _ => True
  | .wait _ _ => True
  | .flow _ => True
  | _ => False

theorem isDone_of_isPlain {action : Action} (h : isPlain action) : isDone action = false := by
  cases action with
  | done => exact h.elim
  | _ => rfl

theorem isDone_of_isParallel {action : Action} (h : isParallel action) : isDone action = false := by
  cases action with
  | done => exact h.elim
  | _ => rfl

theorem not_isParallel_of_isPlain {action : Action} (h : isPlain action) : ¬isParallel action := by
  cases action with
  | parallel => exact fun _ => h
  | parallelStop => exact fun _ => h
  | _ => exact fun h => h

/-- A turn the engine may give for a flow that goes on as long as it is not
done. -/
inductive Given (setting : Setting) (flow : StoredFlow) : FlowTurn → Prop where
  | begin {vars : Record String String} {sendsLeft : Option Nat} {turn : FlowTurn}
      (h : setting.engine.flowBegin flow ⟨setting.requests, setting.flows, vars, sendsLeft⟩
        (.ok turn)) : Given setting flow turn
  | advance {vars : Record String String} {sendsLeft : Option Nat} {turn next : FlowTurn}
      {input : FlowInput} (hgiven : Given setting flow turn) (hgoes : isDone turn.action = false)
      (h : setting.engine.flowAdvance flow turn.state input
        ⟨setting.requests, setting.flows, vars, sendsLeft⟩ (.ok next)) : Given setting flow next

/-- The branches of a Parallel step are different steps, and the turn that answers
an action has an event for each step that was handed out. -/
structure Records (setting : Setting) : Prop where
  apart : ∀ {flow : StoredFlow} {turn : FlowTurn}, Given setting flow turn →
    ((branchesOf turn.action).map stepOf).Nodup
  recorded : ∀ {flow : StoredFlow} {turn next : FlowTurn} {input : FlowInput}
    {vars : Record String String} {sendsLeft : Option Nat}, Given setting flow turn →
    setting.engine.flowAdvance flow turn.state input
      ⟨setting.requests, setting.flows, vars, sendsLeft⟩ (.ok next) →
    (isParallel turn.action → input.settled = true) →
    ∀ step kind, (step, kind) ∈ asked turn.action →
      ∃ event ∈ next.events, event.step = step ∧ event.kind = kind

/-! ## The invariant -/

section Invariant

variable (setting : Setting)

structure Owes (run : FlowRun) (steps : List (String × Flows.Kind)) : Prop where
  nodup : run.pending.keys.Nodup
  pending : ∀ key ∈ run.pending.keys, (key, Flows.Kind.request) ∈ steps
  nested : ∀ key ∈ run.nested.keys, (key, Flows.Kind.flow) ∈ steps

/-- The events of a turn speak about all that a run keeps. -/
structure Covered (run : FlowRun) (turn : FlowTurn) : Prop where
  given : Given setting run.flow turn
  pending : ∀ key ∈ run.pending.keys, ∃ event ∈ turn.events, event.step = key ∧ event.kind = .request
  nested : ∀ key ∈ run.nested.keys, ∃ event ∈ turn.events, event.step = key ∧ event.kind = .flow

def Answered (run : FlowRun) (answer : Except String FlowTurn) : Prop :=
  run.pending.keys.Nodup ∧ ∀ turn, answer = .ok turn → Covered setting run turn

def Lane.step : Lane → String
  | .waiting branch => stepOf branch
  | .sending action _ => action.step
  | .calling action _ _ _ _ => action.step
  | .closing done => done.step
  | .finished done => done.step

/-- A branch that is done reports on a step of the kind it was. -/
def BranchDone.Fits (done : BranchDone) (steps : List (String × Flows.Kind)) : Prop :=
  (done.result.isSome → (done.step, Flows.Kind.request) ∈ steps) ∧
    (done.nested.isSome → (done.step, Flows.Kind.flow) ∈ steps)

mutual

/-- What holds of a run at each point of `drive`. -/
def Sound (run : FlowRun) : Task → Prop
  | .turned answer => Answered setting run answer
  | .remembered turn => run.pending.keys.Nodup ∧ Covered setting run turn
  | .performing turn => Given setting run.flow turn ∧ run.Clear
  | .sending turn action => Given setting run.flow turn ∧ run.Clear ∧ turn.action = .send action
  | .calling turn action child task =>
      Given setting run.flow turn ∧ run.Clear ∧ turn.action = .flow action ∧ Sound child task
  | .performed turn _ =>
      Given setting run.flow turn ∧ isPlain turn.action ∧ Owes run (asked turn.action)
  | .gathering turn _ lanes =>
      Given setting run.flow turn ∧ isParallel turn.action ∧ Owes run (asked turn.action) ∧
        (lanes.map Lane.step).Nodup ∧ (∀ lane ∈ lanes, lane.step ∉ run.pending.keys) ∧
        LanesSound (asked turn.action) lanes
  | .gathered answer => Answered setting run answer
  | .ended _ => run.Clear

def Lane.Sound (steps : List (String × Flows.Kind)) : Lane → Prop
  | .waiting branch => (stepOf branch, kindOf branch) ∈ steps
  | .sending action _ => (action.step, .request) ∈ steps
  | .calling action _ _ child task => (action.step, .flow) ∈ steps ∧ Runner.Sound child task
  | .closing done => done.Fits steps
  | .finished done => done.Fits steps

def LanesSound (steps : List (String × Flows.Kind)) : List Lane → Prop
  | [] => True
  | lane :: lanes => lane.Sound steps ∧ LanesSound steps lanes

end

variable {setting}

theorem lanesSound_append {steps : List (String × Flows.Kind)} {before after : List Lane} :
    LanesSound setting steps (before ++ after) ↔
      LanesSound setting steps before ∧ LanesSound setting steps after := by
  induction before with
  | nil => simp [LanesSound]
  | cons lane before ih =>
      rw [List.cons_append, LanesSound, ih, LanesSound, and_assoc]

theorem lanesSound_waiting {steps : List (String × Flows.Kind)} {branches : List Branch}
    (h : ∀ branch ∈ branches, (stepOf branch, kindOf branch) ∈ steps) :
    LanesSound setting steps (branches.map .waiting) := by
  induction branches with
  | nil => exact trivial
  | cons branch branches ih =>
      have hrest := ih fun other hother => h other (List.mem_cons_of_mem _ hother)
      exact ⟨h branch List.mem_cons_self, hrest⟩

theorem FlowRun.Clear.owes {run : FlowRun} (h : run.Clear) (steps : List (String × Flows.Kind)) :
    Owes run steps := by
  refine ⟨?_, ?_, ?_⟩ <;> simp [h.1, h.2, Record.keys]

theorem FlowRun.Clear.answered {run : FlowRun} (h : run.Clear) {answer : Except String FlowTurn}
    (hgiven : ∀ turn, answer = .ok turn → Given setting run.flow turn) :
    Answered setting run answer := by
  refine ⟨by simp [h.1, Record.keys], fun turn hturn => ⟨hgiven turn hturn, ?_, ?_⟩⟩
  · simp [h.1, Record.keys]
  · simp [h.2, Record.keys]

theorem clear_of_no_keys {run : FlowRun} (hpending : ∀ key, key ∉ run.pending.keys)
    (hnested : ∀ key, key ∉ run.nested.keys) : run.Clear := by
  constructor
  · exact List.map_eq_nil_iff.1 (List.eq_nil_iff_forall_not_mem.2 hpending)
  · exact List.map_eq_nil_iff.1 (List.eq_nil_iff_forall_not_mem.2 hnested)

/-- The answer to a run that owes what its action asked for. -/
theorem Owes.answered (hrecords : Records setting) {run : FlowRun} {turn : FlowTurn}
    {input : FlowInput} {values : Values} {answer : Except String FlowTurn}
    (hgiven : Given setting run.flow turn) (hgoes : isDone turn.action = false)
    (howes : Owes run (asked turn.action)) (hsettled : isParallel turn.action → input.settled = true)
    (hadvance : setting.engine.flowAdvance run.flow turn.state input (run.context setting values)
      answer) : Answered setting run answer := by
  refine ⟨howes.nodup, ?_⟩
  rintro next rfl
  refine ⟨.advance hgiven hgoes hadvance, ?_, ?_⟩
  · intro key hkey
    exact hrecords.recorded hgiven hadvance hsettled _ _ (howes.pending key hkey)
  · intro key hkey
    exact hrecords.recorded hgiven hadvance hsettled _ _ (howes.nested key hkey)

/-! ## What a step changes -/

/-- A step keeps the invariant, and what the places hold grows by what `send`
returned. -/
structure Conserved (setting : Setting) (config next : Config) : Prop where
  sound : Sound setting next.run next.task
  results : ∃ fresh, next.world.produced = config.world.produced ++ fresh ∧
    next.held = config.held + cores fresh
  counted : next.sends + config.world.calls = config.sends + next.world.calls
  ledger : next.sink.isLedger = config.sink.isLedger

/-- A step in which no request is sent and none returns. -/
theorem Conserved.of_quiet {config next : Config} (hsound : Sound setting next.run next.task)
    (hproduced : next.world.produced = config.world.produced)
    (hcalls : next.world.calls = config.world.calls) (hheld : next.held = config.held)
    (hsends : next.sends = config.sends) (hledger : next.sink.isLedger = config.sink.isLedger) :
    Conserved setting config next :=
  ⟨hsound, ⟨[], by simp [hproduced], by simp [hheld]⟩, by rw [hcalls, hsends], hledger⟩

theorem conserved_takeIn {world : World} {sink : Sink} {run : FlowRun} {turn : FlowTurn}
    (hsound : Sound setting run (.remembered turn)) :
    Conserved setting ⟨world, sink, run, .remembered turn⟩
      ⟨{ world with values := world.values.forgetSession turn.forgets },
        (takeIn sink run turn).1, (takeIn sink run turn).2, afterTurn turn⟩ := by
  obtain ⟨hnodup, hcovered⟩ := hsound
  have habsorbed := @absorb_absorbed
    { run with given := (run.given.without turn.writes.keys).without turn.forgets }
    hnodup sink turn.events
  have hclear : (takeIn sink run turn).2.Clear := by
    apply clear_of_no_keys
    · intro key hkey
      obtain ⟨hmem, hnone⟩ := habsorbed.pending key hkey
      obtain ⟨event, hevent, habout⟩ := hcovered.pending key hmem
      exact hnone event hevent habout
    · intro key hkey
      obtain ⟨hmem, hnone⟩ := habsorbed.nested key hkey
      obtain ⟨event, hevent, habout⟩ := hcovered.nested key hmem
      exact hnone event hevent habout
  have hgiven : Given setting (takeIn sink run turn).2.flow turn := by
    rw [show (takeIn sink run turn).2.flow = run.flow from habsorbed.flow_eq]
    exact hcovered.given
  have hbelow : (afterTurn turn).heldBelow = 0 ∧ (afterTurn turn).sendsBelow = 0 := by
    unfold afterTurn
    split <;> simp [Task.heldBelow, Task.sendsBelow]
  refine .of_quiet ?_ rfl rfl ?_ ?_ habsorbed.ledger
  · change Sound setting (takeIn sink run turn).2 (afterTurn turn)
    unfold afterTurn
    split
    · exact hclear
    · exact ⟨hgiven, hclear⟩
  · have hconserved : (takeIn sink run turn).1.noted + (takeIn sink run turn).2.waiting =
        sink.noted + run.waiting := habsorbed.conserved
    simp only [Config.held, hbelow.1, hconserved, Task.heldBelow]
  · have hsends : (takeIn sink run turn).2.sends = run.sends := habsorbed.sends_eq
    simp only [Config.sends, hbelow.2, hsends, Task.sendsBelow]

theorem conserved_flushed {world : World} {sink sink' : Sink} {run run' : FlowRun} {task : Task}
    {done : Done} (hflushed : Flushed sink run sink' run') (hbelow : task.heldBelow = 0)
    (hsends : task.sendsBelow = 0) :
    Conserved setting ⟨world, sink, run, task⟩ ⟨world, sink', run', .ended done⟩ := by
  refine .of_quiet hflushed.clear rfl rfl ?_ ?_ hflushed.ledger
  · simp only [Config.held, hflushed.conserved, hflushed.clear.waiting_eq, hbelow, Task.heldBelow]
    abel
  · simp only [Config.sends, hflushed.sends_eq, hsends, Task.sendsBelow]

/-! ## Branches -/

structure LaneConserved (setting : Setting) (steps : List (String × Flows.Kind)) (world : World)
    (lane : Lane) (world' : World) (lane' : Lane) : Prop where
  sound : lane'.Sound setting steps
  step_eq : lane'.step = lane.step
  results : ∃ fresh, world'.produced = world.produced ++ fresh ∧
    lane'.held = lane.held + cores fresh
  counted : lane'.sends + world.calls = lane.sends + world'.calls

theorem LaneConserved.of_quiet {steps : List (String × Flows.Kind)} {world : World} {lane lane' : Lane}
    (hsound : lane'.Sound setting steps) (hstep : lane'.step = lane.step)
    (hheld : lane'.held = lane.held) (hsends : lane'.sends = lane.sends) :
    LaneConserved setting steps world lane world lane' :=
  ⟨hsound, hstep, ⟨[], by simp, by simp [hheld]⟩, by rw [hsends]⟩

theorem BranchDone.close_eq (done : BranchDone) (isCancelled : Bool) (ms : Nat) :
    (done.close isCancelled ms).step = done.step ∧
      (done.close isCancelled ms).result = done.result ∧
      (done.close isCancelled ms).nested = done.nested ∧
      (done.close isCancelled ms).sends = done.sends ∧
      (done.close isCancelled ms).held = done.held := by
  unfold BranchDone.close
  simp only
  split_ifs <;> exact ⟨rfl, rfl, rfl, rfl, rfl⟩

theorem LaneStep.conserved {run : FlowRun} {isCancelled : Bool} {steps : List (String × Flows.Kind)}
    {world world' : World} {lane lane' : Lane}
    (h : LaneStep setting run isCancelled world lane world' lane')
    (hsound : lane.Sound setting steps) :
    LaneConserved setting steps world lane world' lane' := by
  cases h with
  | skip =>
      refine .of_quiet ⟨?_, ?_⟩ rfl ?_ rfl
      · exact fun h => by cases h
      · exact fun h => by cases h
      · simp [Lane.held, BranchDone.carried, noted]
  | borrowFailed =>
      refine .of_quiet ⟨?_, ?_⟩ rfl ?_ rfl
      · exact fun h => by cases h
      · exact fun h => by cases h
      · simp [Lane.held, BranchDone.carried, noted]
  | unfilled =>
      refine .of_quiet ⟨?_, ?_⟩ rfl ?_ rfl
      · exact fun h => by cases h
      · exact fun h => by cases h
      · simp [Lane.held, BranchDone.carried, noted]
  | send =>
      refine ⟨hsound, rfl, ⟨[], by simp, rfl⟩, ?_⟩
      simp only [Lane.sends, FlowRun.branch]
      omega
  | @sent action runner values result response =>
      refine ⟨⟨fun _ => hsound, fun h => by cases h⟩, rfl, ⟨_, rfl, ?_⟩, rfl⟩
      simp [Lane.held, BranchDone.carried, sentBranch, noted]
  | missing =>
      refine .of_quiet ⟨?_, ?_⟩ rfl ?_ rfl
      · exact fun h => by cases h
      · exact fun h => by cases h
      · simp [Lane.held, BranchDone.carried, noted]
  | @call action called answer _ _ hbegin =>
      have hclear : (run.branch.callee action called).Clear := ⟨rfl, rfl⟩
      refine .of_quiet ⟨hsound, hclear.answered ?_⟩ rfl ?_ rfl
      · rintro turn rfl
        exact .begin hbegin
      · simp [Lane.held, hclear.waiting_eq, Task.heldBelow, noted, FlowNote.results]
  | @returned action runner child held done =>
      have hclear : child.Clear := hsound.2
      refine .of_quiet ⟨?_, fun _ => hsound.1⟩ rfl ?_ rfl
      · exact fun h => by cases h
      · simp [Lane.held, BranchDone.carried, hclear.waiting_eq, Task.heldBelow]
  | @close done ms =>
      obtain ⟨hstep, hresult, hnested, hsends, hheld⟩ := done.close_eq isCancelled ms
      refine .of_quiet ?_ hstep ?_ hsends
      · exact ⟨by rw [hresult, hstep]; exact hsound.1, by rw [hnested, hstep]; exact hsound.2⟩
      · simp [Lane.held, BranchDone.carried, hresult, hheld]

theorem LaneConserved.conserved {world world' : World} {sink : Sink} {run : FlowRun}
    {turn : FlowTurn} {parallel : Parallel} {before after : List Lane} {lane lane' : Lane}
    (hsound : Sound setting run (.gathering turn parallel (before ++ lane :: after)))
    (hlane : lane.Sound setting (asked turn.action) →
      LaneConserved setting (asked turn.action) world lane world' lane') :
    Conserved setting ⟨world, sink, run, .gathering turn parallel (before ++ lane :: after)⟩
      ⟨world', sink, run, .gathering turn parallel (before ++ lane' :: after)⟩ := by
  obtain ⟨hgiven, hparallel, howes, hnodup, hfresh, hlanes⟩ := hsound
  obtain ⟨hbefore, hthis, hafter⟩ := lanesSound_append.1 hlanes
  obtain ⟨hsound', hstep, ⟨fresh, hproduced, hheld⟩, hcounted⟩ := hlane hthis
  refine ⟨⟨hgiven, hparallel, howes, ?_, ?_, ?_⟩, ⟨fresh, hproduced, ?_⟩, ?_, rfl⟩
  · simpa [hstep] using hnodup
  · intro other hother
    simp only [List.mem_append, List.mem_cons] at hother
    rcases hother with hother | rfl | hother
    · exact hfresh other (by simp [hother])
    · rw [hstep]
      exact hfresh lane (by simp)
    · exact hfresh other (by simp [hother])
  · exact lanesSound_append.2 ⟨hbefore, hsound', hafter⟩
  · simp only [Config.held, Task.heldBelow, lanesHeld_append, lanesHeld, hheld]
    abel
  · simp only [Config.sends, Task.sendsBelow, lanesSends_append, lanesSends]
    omega

theorem conserved_keepBranch {world : World} {sink : Sink} {run : FlowRun} {turn : FlowTurn}
    {parallel parallel' : Parallel} {before after : List Lane} {done : BranchDone}
    (hsound : Sound setting run (.gathering turn parallel (before ++ .finished done :: after))) :
    Conserved setting
      ⟨world, sink, run, .gathering turn parallel (before ++ .finished done :: after)⟩
      ⟨world, (run.keepBranch sink done).1, (run.keepBranch sink done).2,
        .gathering turn parallel' (before ++ after)⟩ := by
  obtain ⟨hgiven, hparallel, howes, hnodup, hfresh, hlanes⟩ := hsound
  obtain ⟨hbefore, hthis, hafter⟩ := lanesSound_append.1 hlanes
  have hnotPending : done.step ∉ run.pending.keys := hfresh (.finished done) (by simp)
  have hkept := keepBranch_kept howes.nodup hnotPending sink
  -- The other branches are other steps, so none of them finds its step taken now.
  have hothers : (∀ lane ∈ before ++ after, lane.step ≠ done.step) ∧
      ((before ++ after).map Lane.step).Nodup := by
    rw [List.map_append, List.map_cons, List.nodup_middle, List.nodup_cons,
      ← List.map_append] at hnodup
    exact ⟨fun lane hlane heq => hnodup.1 (List.mem_map.2 ⟨lane, hlane, heq⟩), hnodup.2⟩
  have howes' : Owes (run.keepBranch sink done).2 (asked turn.action) := by
    refine ⟨hkept.nodup, ?_, ?_⟩
    · intro key hkey
      rcases hkept.pending key hkey with hmem | ⟨rfl, hsome⟩
      · exact howes.pending key hmem
      · exact hthis.1 hsome
    · intro key hkey
      rcases hkept.nested key hkey with hmem | ⟨rfl, hsome⟩
      · exact howes.nested key hmem
      · exact hthis.2 hsome
  refine .of_quiet ⟨?_, hparallel, howes', hothers.2, ?_, ?_⟩ rfl rfl ?_ ?_ hkept.ledger
  · rw [hkept.flow_eq]
    exact hgiven
  · intro lane hlane hkey
    rcases hkept.pending _ hkey with hmem | ⟨heq, -⟩
    · refine hfresh lane ?_ hmem
      rcases List.mem_append.1 hlane with h | h <;> simp [h]
    · exact hothers.1 lane hlane heq
  · exact lanesSound_append.2 ⟨hbefore, hafter⟩
  · simp only [Config.held, Task.heldBelow, lanesHeld_append, lanesHeld, Lane.held]
    rw [hkept.conserved]
    abel
  · simp only [Config.sends, Task.sendsBelow, lanesSends_append, lanesSends, Lane.sends]
    rw [hkept.sends_eq]
    omega

/-! ## Steps and runs -/

theorem kind_asked {action : Action} {branch : Branch} (h : branch ∈ branchesOf action) :
    (stepOf branch, kindOf branch) ∈ asked action := by
  cases action with
  | parallel step title timeoutMs branches => exact List.mem_map.2 ⟨branch, h, rfl⟩
  | _ => cases h

theorem isPlain_of_send {turn : FlowTurn} {action : SendAction} (h : turn.action = .send action) :
    isPlain turn.action := by
  rw [h]
  exact trivial

theorem isPlain_of_flow {turn : FlowTurn} {action : FlowAction} (h : turn.action = .flow action) :
    isPlain turn.action := by
  rw [h]
  exact trivial

theorem Step.conserved (hrecords : Records setting) {isCancelled : Bool} {config next : Config}
    (h : Step setting isCancelled config next) (hsound : Sound setting config.run config.task) :
    Conserved setting config next := by
  induction h with
  | failed => exact conserved_flushed (halt_flushed hsound.1 _ _) rfl rfl
  | remember => exact .of_quiet ⟨hsound.1, hsound.2 _ rfl⟩ rfl rfl rfl rfl rfl
  | takeIn => exact conserved_takeIn hsound
  | @wait _ world sink run turn step ms haction =>
      refine .of_quiet ⟨hsound.1, ?_, hsound.2.owes _⟩ rfl rfl rfl rfl rfl
      rw [haction]
      exact trivial
  | unsent haction =>
      exact .of_quiet ⟨hsound.1, isPlain_of_send haction, hsound.2.owes _⟩ rfl rfl rfl rfl rfl
  | unfilled haction =>
      exact .of_quiet ⟨hsound.1, isPlain_of_send haction, hsound.2.owes _⟩ rfl rfl rfl rfl rfl
  | send haction =>
      refine ⟨⟨hsound.1, hsound.2, haction⟩, ⟨[], by simp, (add_zero _).symm⟩, ?_, rfl⟩
      simp only [Config.sends, Task.sendsBelow]
      omega
  | @sent _ world sink run turn action values result response =>
      obtain ⟨hgiven, hclear, haction⟩ :
        Given setting run.flow turn ∧ run.Clear ∧ turn.action = .send action := hsound
      have hfresh : action.step ∉ run.pending.keys := by simp [hclear.1, Record.keys]
      refine ⟨⟨hgiven, isPlain_of_send haction, ?_, ?_, ?_⟩, ⟨_, rfl, ?_⟩, rfl, rfl⟩
      · exact Record.nodup_put (by simp [hclear.1, Record.keys]) _ _
      · intro key hkey
        rcases Record.mem_keys_put.1 hkey with rfl | hmem
        · simp [haction, asked]
        · simp [hclear.1, Record.keys] at hmem
      · simp [hclear.2, Record.keys]
      · simp only [Config.held, FlowRun.waiting, Task.heldBelow, cores_put hfresh]
        abel
  | missing haction =>
      exact .of_quiet ⟨hsound.1, isPlain_of_flow haction, hsound.2.owes _⟩ rfl rfl rfl rfl rfl
  | @call _ world sink run turn action called answer haction _ hbegin =>
      have hclear : (run.callee action called).Clear := ⟨rfl, rfl⟩
      refine .of_quiet ⟨hsound.1, hsound.2, haction, hclear.answered ?_⟩ rfl rfl ?_ rfl ?_
      · rintro begun rfl
        exact .begin hbegin
      · simp [Config.held, Task.heldBelow, hclear.waiting_eq]
      · simp
  | @within _ world world' sink sink' run child child' turn action task task' _ ih =>
      obtain ⟨hgiven, hclear, haction, hchild⟩ := hsound
      obtain ⟨hsound', ⟨fresh, hproduced, hheld⟩, hcounted, hledger⟩ := ih hchild
      refine ⟨⟨hgiven, hclear, haction, hsound'⟩, ⟨fresh, hproduced, ?_⟩, ?_, hledger⟩
      · simp only [Config.held, Task.heldBelow] at hheld ⊢
        calc sink'.noted + run.waiting + (child'.waiting + task'.heldBelow)
            = run.waiting + (sink'.noted + child'.waiting + task'.heldBelow) := by abel
          _ = run.waiting + (sink.noted + child.waiting + task.heldBelow + cores fresh) := by
              rw [hheld]
          _ = sink.noted + run.waiting + (child.waiting + task.heldBelow) + cores fresh := by abel
      · simp only [Config.sends, Task.sendsBelow] at hcounted ⊢
        omega
  | @returned _ world sink run child turn action done =>
      obtain ⟨hgiven, hclear, haction, hended⟩ :
        Given setting run.flow turn ∧ run.Clear ∧ turn.action = .flow action ∧ child.Clear := hsound
      refine .of_quiet ⟨hgiven, isPlain_of_flow haction, ?_, ?_, ?_⟩ rfl rfl ?_ ?_ rfl
      · simp [hclear.1, Record.keys]
      · simp [hclear.1, Record.keys]
      · intro key hkey
        rcases Record.mem_keys_put.1 hkey with rfl | hmem
        · simp [haction, asked]
        · simp [hclear.2, Record.keys] at hmem
      · rw [Config.held, Config.held, Task.heldBelow, hended.waiting_eq]
        rfl
      · simp [Config.sends, Task.sendsBelow]
  | stopped => exact conserved_flushed (stopped_flushed hsound.2.2.nodup _) rfl rfl
  | advance h =>
      obtain ⟨hgiven, hplain, howes⟩ := hsound
      refine .of_quiet (howes.answered hrecords hgiven (isDone_of_isPlain hplain) ?_ h)
        rfl rfl rfl rfl rfl
      exact fun hparallel => absurd hparallel (not_isParallel_of_isPlain hplain)
  | @spread _ world sink run turn haction =>
      obtain ⟨hgiven, hclear⟩ : Given setting run.flow turn ∧ run.Clear := hsound
      obtain ⟨hheld, hsends⟩ := lanes_waiting (branchesOf turn.action)
      refine .of_quiet ⟨hgiven, haction, hclear.owes _, ?_, ?_, ?_⟩ rfl rfl ?_ ?_ rfl
      · have hsteps : ((branchesOf turn.action).map Lane.waiting).map Lane.step =
            (branchesOf turn.action).map stepOf := by
          simp [Function.comp_def, Lane.step]
        rw [hsteps]
        exact hrecords.apart hgiven
      · simp [hclear.1, Record.keys]
      · exact lanesSound_waiting fun branch hbranch => kind_asked hbranch
      · simp only [Config.held, Task.heldBelow, hheld]
      · simp only [Config.sends, Task.sendsBelow, hsends]
  | lane h => exact LaneConserved.conserved hsound fun hlane => h.conserved hlane
  | @beside _ world world' sink run runner child child' turn parallel before after action held
      held' task task' _ ih =>
      refine LaneConserved.conserved hsound fun hlane => ?_
      obtain ⟨hsound', ⟨fresh, hproduced, hheld⟩, hcounted, -⟩ := ih hlane.2
      refine ⟨⟨hlane.1, hsound'⟩, rfl, ⟨fresh, hproduced, hheld⟩, ?_⟩
      simp only [Config.sends, Lane.sends] at hcounted ⊢
      omega
  | receive => exact conserved_keepBranch hsound
  | judge => exact conserved_keepBranch hsound
  | expire => exact .of_quiet hsound rfl rfl rfl rfl rfl
  | broken =>
      obtain ⟨-, -, howes, -⟩ := hsound
      exact .of_quiet ⟨howes.nodup, fun turn h => by cases h⟩ rfl rfl rfl rfl rfl
  | settle _ hadvance =>
      obtain ⟨hgiven, hparallel, howes, -⟩ := hsound
      exact .of_quiet (howes.answered hrecords hgiven (isDone_of_isParallel hparallel)
        (fun _ => rfl) hadvance) rfl rfl rfl rfl rfl
  | halted => exact conserved_flushed (stopped_flushed hsound.1 _) rfl rfl
  | resume => exact .of_quiet hsound rfl rfl rfl rfl rfl

/-- What holds in every state of a flow that is driven. -/
structure Accounted (setting : Setting) (config : Config) : Prop where
  sound : Sound setting config.run config.task
  held_eq : config.held = cores config.world.produced
  sends_eq : config.sends = config.world.calls
  ledger : config.sink.isLedger = true

theorem Reached.accounted (hrecords : Records setting) {flow : StoredFlow} {values : Values}
    {isCancelled : Bool} {config : Config} (h : Reached setting flow values isCancelled config) :
    Accounted setting config := by
  induction h with
  | @start _ answer hbegin =>
      have hclear : ({ flow := flow } : FlowRun).Clear := ⟨rfl, rfl⟩
      refine ⟨hclear.answered ?_, rfl, rfl, rfl⟩
      rintro turn rfl
      exact .begin hbegin
  | cancel _ ih => exact ih
  | @step _ config next _ hstep ih =>
      obtain ⟨hsound, ⟨fresh, hproduced, hheld⟩, hcounted, hledger⟩ :=
        hstep.conserved hrecords ih.sound
      refine ⟨hsound, ?_, ?_, hledger.trans ih.ledger⟩
      · rw [hheld, ih.held_eq, hproduced, cores_append]
      · have hsends := ih.sends_eq
        omega

end Invariant

/-- A run of the tree with the point it has reached: the run itself, one it called,
or one that a branch called. -/
inductive InTree : FlowRun → Task → FlowRun → Task → Prop where
  | here {run : FlowRun} {task : Task} : InTree run task run task
  | called {run child inner : FlowRun} {turn : FlowTurn} {action : FlowAction} {task at' : Task}
      (h : InTree child task inner at') :
      InTree run (.calling turn action child task) inner at'
  | beside {run runner child inner : FlowRun} {turn : FlowTurn} {parallel : Parallel}
      {before after : List Lane} {action : FlowAction} {held : List FlowNote} {task at' : Task}
      (h : InTree child task inner at') :
      InTree run (.gathering turn parallel (before ++ .calling action runner held child task :: after))
        inner at'

theorem InTree.sound {setting : Setting} {run inner : FlowRun} {task at' : Task}
    (h : InTree run task inner at') (hsound : Sound setting run task) :
    Sound setting inner at' := by
  induction h with
  | here => exact hsound
  | called _ ih => exact ih hsound.2.2.2
  | beside _ ih =>
      obtain ⟨-, -, -, -, -, hlanes⟩ := hsound
      obtain ⟨-, hthis, -⟩ := lanesSound_append.1 hlanes
      exact ih hthis.2

/-- In every state that a flow can reach, the results `send` has returned are, each
once, in the ledger or on their way there, and the sends are counted.  A run that
has ended keeps nothing back, and once the whole flow has ended all results are in
the ledger and its own count is that of all calls of `send`. -/
theorem ledger_complete {setting : Setting} (hrecords : Records setting) {flow : StoredFlow}
    {values : Values} {isCancelled : Bool} {config : Config}
    (h : Reached setting flow values isCancelled config) :
    config.held = cores config.world.produced ∧ config.sends = config.world.calls ∧
      (∀ inner done, InTree config.run config.task inner (.ended done) →
        inner.pending = [] ∧ inner.nested = []) ∧
      ∀ done, config.task = .ended done →
        config.run.sends = config.world.calls ∧
        ∃ results shown, config.sink = .ledger results shown ∧
          (results.map Result.core).Perm (config.world.produced.map Result.core) := by
  obtain ⟨hsound, hheld, hsends, hledger⟩ := h.accounted hrecords
  refine ⟨hheld, hsends, fun inner done hinner => hinner.sound hsound, ?_⟩
  intro done hdone
  have hclear : config.run.Clear := by
    rw [hdone] at hsound
    exact hsound
  refine ⟨?_, ?_⟩
  · simpa [Config.sends, hdone, Task.sendsBelow] using hsends
  · cases hsink : config.sink with
    | held notes => simp [hsink, Sink.isLedger] at hledger
    | ledger results shown =>
        have hcores : cores results = cores config.world.produced := by
          simpa [Config.held, hdone, hclear.waiting_eq, Task.heldBelow, hsink, Sink.noted]
            using hheld
        exact ⟨results, shown, rfl, Multiset.coe_eq_coe.1 hcores⟩

end Gostman.Runner
