import Gostman.Flows.Answering
import Gostman.Flows.English
/-!
# Runs

The runs of a flow: a first turn and any number of further turns, each with its
own answer of the host.  Every turn of a flow without problems ends without a
fault, and the state it leaves is well placed in the flow.
-/

namespace Gostman.Flows

open Gostman.Lib Gostman.Js

/-! ## The first turn -/

theorem declarationRounds_subset (lib : Library) (isFixed : Declared → Bool) (rounds : Nat)
    (waiting : Record String Declared) (order : List Declared) {declared : Declared}
    (h : declared ∈ (declarationRounds lib isFixed rounds waiting order).1) :
    declared ∈ order ∨ declared ∈ waiting.map Prod.snd := by
  induction rounds generalizing waiting order with
  | zero => exact .inl h
  | succ rounds ih =>
      unfold declarationRounds at h
      simp only at h
      split_ifs at h with hempty hready
      · exact .inl h
      · exact .inl h
      · rcases ih _ _ h with horder | hwaiting
        · rcases List.mem_append.1 horder with hold | hnew
          · exact .inl hold
          · exact .inr (List.mem_of_mem_filter hnew)
        · obtain ⟨entry, hentry, rfl⟩ := List.mem_map.1 hwaiting
          exact .inr (List.mem_map.2 ⟨entry, List.mem_of_mem_filter hentry, rfl⟩)

theorem declarationOrder_subset (lib : Library) (declared : List Declared)
    (isFixed : Declared → Bool) : (declarationOrder lib declared isFixed).1 ⊆ declared := by
  intro one hone
  rcases declarationRounds_subset lib isFixed _ _ _ hone with hnil | hwaiting
  · cases hnil
  · obtain ⟨entry, hentry, rfl⟩ := List.mem_map.1 hwaiting
    rcases Record.mem_overlay hentry with hnil | hmem
    · cases hnil
    · obtain ⟨source, hsource, rfl⟩ := List.mem_map.1 hmem
      exact hsource

section Begin

variable {scene : Scene} {history : List LoopEvent} {turn : Turn} {spot : Spot}

theorem declareOne_left (hat : LeftAt scene history turn spot) {declared : Declared}
    (hdeclared : declared ∈ scene.flow.vars) :
    LeftAt scene history (declareOne scene turn declared).1 spot ∧
      OnlyVariables turn (declareOne scene turn declared).1 := by
  unfold declareOne
  simp only
  split_ifs
  · exact ⟨hat, rfl, rfl, rfl, rfl⟩
  all_goals
    split
    · refine ⟨{ hat with sane := ?_ }, rfl, rfl, rfl, rfl⟩
      exact
        { fit :=
            { kinds := hat.sane.fit.kinds
              log := hat.sane.fit.log
              locals_nodup := Record.nodup_put hat.sane.fit.locals_nodup _ _
              locals_declared := by
                intro name hname
                rcases Record.mem_keys_put.1 hname with rfl | hmem
                · exact List.mem_map.2 ⟨declared, hdeclared, rfl⟩
                · exact hat.sane.fit.locals_declared name hmem }
          bounds := hat.sane.bounds
          writes_nodup := hat.sane.writes_nodup }
    · exact ⟨hat, rfl, rfl, rfl, rfl⟩

theorem declareAll_left (hat : LeftAt scene history turn spot) {order : List Declared}
    (horder : order ⊆ scene.flow.vars) :
    LeftAt scene history (declareAll scene turn order).1 spot ∧
      OnlyVariables turn (declareAll scene turn order).1 := by
  induction order generalizing turn with
  | nil => exact ⟨hat, rfl, rfl, rfl, rfl⟩
  | cons declared rest ih =>
      obtain ⟨hdeclared, hrest⟩ := List.cons_subset.1 horder
      have hone := declareOne_left hat hdeclared
      have hothers := ih hone.1 hrest
      exact ⟨hothers.1, hone.2.trans hothers.2⟩

theorem declare_left (hat : LeftAt scene history turn spot) :
    LeftAt scene history (declare scene turn).1 spot ∧ OnlyVariables turn (declare scene turn).1 := by
  refine declareAll_left hat fun declared hdeclared => ?_
  exact List.mem_of_mem_filter (declarationOrder_subset scene.lib _ _ hdeclared)

/-- Problems of the whole flow are described without a step. -/
theorem describeProblems_isSome (lib : Library) (flow : Flow) (requests : List SavedRequest)
    (flows : List StoredFlow) (messages : List String) :
    (describeProblems lib flow (messages.map (Problem.mk "")) requests flows).isSome = true := by
  have hlines : ∀ texts : List String, ∃ lines,
      (texts.map (Problem.mk "")).mapM (fun problem =>
        if problem.step = "" then some problem.message
        else ((indexSteps flow.steps).read problem.step).map fun entry =>
          lib.say (.problem (stepTitle lib entry.item requests flows) problem.message)) = some lines := by
    intro texts
    induction texts with
    | nil => exact ⟨[], rfl⟩
    | cons text rest ih =>
        obtain ⟨lines, hlines⟩ := ih
        refine ⟨text :: lines, ?_⟩
        rw [List.map_cons, List.mapM_cons, hlines]
        rfl
  obtain ⟨lines, hlines⟩ := hlines messages
  unfold describeProblems
  simp only [hlines]
  rfl

/-- The first turn of a flow without problems ends without a fault. -/
theorem beginTurn_turned (hready : Ready scene) :
    Yields (beginTurn scene) fun result => Turned scene [] 0 0 result.1 := by
  obtain ⟨first, rest, hsteps⟩ := List.exists_cons_of_ne_nil hready.steps_ne_nil
  have hfirst := first_mem_trailWalk hsteps
  have hfresh : LeftAt scene [] { state := {} } ⟨first, scene.flow.steps, 0, []⟩ :=
    { sane :=
        { fit :=
            { kinds := by simp
              log := rfl
              locals_nodup := by simp [Record.keys]
              locals_declared := by simp [Record.keys] }
          bounds := by simp
          writes_nodup := by simp [Record.keys] }
      mem := hfirst
      inLoops := by simp [InLoops]
      frames_eq := rfl
      action_eq := rfl }
  obtain ⟨hdeclared, -, hsends, hquiet, -⟩ := declare_left hfresh
  simp only at hsends hquiet
  unfold beginTurn
  simp only [hready.valid, List.length_nil, gt_iff_lt, Nat.lt_irrefl, if_false, hsteps]
  split_ifs with hproblems
  · obtain ⟨messages, hmessages⟩ : ∃ messages : List String,
        (declare scene { state := {} }).2 = messages.map (Problem.mk "") := ⟨_, rfl⟩
    obtain ⟨message, hmessage⟩ := Option.isSome_iff_exists.1
      (describeProblems_isSome scene.lib scene.flow scene.requests scene.flows messages)
    rw [← hmessages] at hmessage
    simp only [hmessage]
    have hfinished := finish_moved hready hdeclared.sane .failed message false
    rw [hsends, hquiet] at hfinished
    refine hfinished.bind fun after hafter => ?_
    refine (proceed_turned hready hafter.reached).bind fun last hlast => ?_
    exact Yields.ok hlast.1
  · have hentered := enter_moved hready hdeclared hfirst (List.prefix_refl _)
    rw [hsends, hquiet] at hentered
    refine hentered.bind fun after hafter => ?_
    refine (proceed_turned hready hafter.reached).bind fun last hlast => ?_
    exact Yields.ok hlast.1

end Begin

/-! ## Runs and where their states are -/

/-- A run of a flow up to the turn it has made last, with the log of its
Repeats.  The saved requests and flows stay the same; what the host answers,
the variables and the sends left are any. -/
inductive Run (lib : Library) (raw : Json) (requests : List SavedRequest)
    (flows : List StoredFlow) : List LoopEvent → Turn → Prop where
  | begin {vars : Record String String} {sendsLeft : Option Nat} {turn : Turn}
      {problems : List Problem}
      (h : flowBegin lib raw ⟨requests, flows, vars, sendsLeft⟩ = .ok (turn, problems)) :
      Run lib raw requests flows turn.loops turn
  | advance {log : List LoopEvent} {turn next : Turn} {input : Json} {vars : Record String String}
      {sendsLeft : Option Nat} (hrun : Run lib raw requests flows log turn)
      (h : flowAdvance lib raw turn.state input ⟨requests, flows, vars, sendsLeft⟩ = .ok next) :
      Run lib raw requests flows (log ++ next.loops) next

/-- The turn has come to the pause of a Repeat between two passes. -/
def Turn.isPaused (index : Record String Entry) (turn : Turn) : Bool :=
  match index.read turn.state.atStep, turn.action with
  | some entry, some (.wait step _) => entry.item.head.kind = .repeatStep && step = turn.state.atStep
  | _, _ => false

structure WellPlaced (flow : Flow) (turn : Turn) : Prop where
  at_step : turn.state.atStep = "" ∨ ((indexSteps flow.steps).has turn.state.atStep = true ∧
    isBranch (indexSteps flow.steps) turn.state.atStep = false)
  frames_eq : turn.state.frames.map Frame.step =
    loopsAround (indexSteps flow.steps) turn.state.atStep ++
      if turn.isPaused (indexSteps flow.steps) then [turn.state.atStep] else []
  kinds : ∀ frame ∈ turn.state.frames, FrameKind flow frame
  bounds : ∀ frame ∈ turn.state.frames, frame.InBounds
  acts : turn.action ≠ none
  at_end : turn.isDone → turn.state.frames = []

theorem loopsAround_empty {steps : List Step} (hnamed : Named steps) :
    loopsAround (indexSteps steps) "" = [] := by
  rw [loopsAround, parentOf, hnamed.read_empty]
  cases (indexSteps steps).length <;> simp [loopsFrom]

/-- Where a turn has come to rest, its state is well placed. -/
theorem Turned.wellPlaced {scene : Scene} (hready : Ready scene) {history : List LoopEvent}
    {sends : Int} {quiet : Nat} {turn : Turn} (h : Turned scene history sends quiet turn) :
    WellPlaced scene.flow turn := by
  have hbranch : ∀ {spot : Spot}, spot ∈ trailWalk scene.flow.steps → InLoops scene.flow spot →
      turn.state.atStep = spot.item.head.id →
      (indexSteps scene.flow.steps).has turn.state.atStep = true ∧
        isBranch (indexSteps scene.flow.steps) turn.state.atStep = false := by
    intro spot hspot hloops hat
    rw [hat, ← hready.index_eq, Record.has, hready.read_index hspot]
    exact ⟨rfl, hready.not_branch_of_inLoops hspot hloops⟩
  have hframes : turn.state.frames.map Frame.step =
      loopsAround (indexSteps scene.flow.steps) turn.state.atStep ++
        if turn.isPaused (indexSteps scene.flow.steps) then [turn.state.atStep] else [] := by
    obtain hlanded | ⟨hspot, hloops, hat, hframes, hasks, haction⟩ := h.standing
    · cases hlanded with
      | running _ _ _ _ haction => exact absurd haction h.acts
      | waiting hspot hloops hat hframes hfields haction =>
          have hpaused : turn.isPaused (indexSteps scene.flow.steps) = true := by
            simp [Turn.isPaused, hat, ← hready.index_eq, hready.read_index hspot, haction,
              Outline.Spot.mapParent, StepHead.kind, hfields, Fields.kind]
          rw [hpaused, if_pos rfl, hframes, hat, ← hready.index_eq, hready.loopsAround_eq hspot]
      | finished hat hframes haction =>
          have hpaused : turn.isPaused (indexSteps scene.flow.steps) = false := by
            simp [Turn.isPaused, hat, hready.named.read_empty]
          rw [hpaused, hframes, hat, loopsAround_empty hready.named]
          rfl
    · have hpaused : turn.isPaused (indexSteps scene.flow.steps) = false := by
        unfold Turn.isPaused
        rw [hat, ← hready.index_eq, hready.read_index hspot, haction]
        cases hasks <;> simp [Outline.Spot.mapParent, StepHead.kind, Fields.kind, *]
      rw [hpaused, hframes, hat, ← hready.index_eq, hready.loopsAround_eq hspot]
      simp
  refine ⟨?_, hframes, h.sane.fit.kinds, h.sane.bounds, h.acts, ?_⟩
  · obtain hlanded | ⟨hspot, hloops, hat, -, -, -⟩ := h.standing
    · cases hlanded with
      | running hspot hloops hat _ _ => exact .inr (hbranch hspot hloops hat)
      | waiting hspot hloops hat _ _ _ => exact .inr (hbranch hspot hloops hat)
      | finished hat _ _ => exact .inl hat
    · exact .inr (hbranch hspot hloops hat)
  · rintro ⟨_, _, _, _, _, hdone⟩
    obtain hlanded | ⟨-, -, -, -, hasks, haction⟩ := h.standing
    · cases hlanded with
      | running _ _ _ _ haction => simp [haction] at hdone
      | waiting _ _ _ _ _ haction => simp [haction] at hdone
      | finished _ hframes _ => exact hframes
    · rw [haction] at hdone
      cases hasks <;> simp at hdone

/-- A state stays well placed while a Parallel step runs. -/
theorem WellPlaced.of_peeked {scene : Scene} (hready : Ready scene) {turn next : Turn} {input : Json}
    (h : WellPlaced scene.flow turn) (hpeeked : Peeked scene turn.state input next) :
    WellPlaced scene.flow next := by
  obtain ⟨entry, hentry, hkind⟩ := hpeeked.rests
  rw [hready.index_eq] at hentry
  have hpaused : turn.isPaused (indexSteps scene.flow.steps) = false := by
    unfold Turn.isPaused
    rw [hentry]
    split <;> simp_all
  obtain ⟨stop, rfl⟩ := hpeeked.after_eq
  have hpaused' : Turn.isPaused (indexSteps scene.flow.steps)
      { state := turn.state, action := some (.parallelStop turn.state.atStep stop) } = false := by
    simp [Turn.isPaused]
  exact
    { at_step := h.at_step
      frames_eq := by
        rw [hpaused', h.frames_eq, hpaused]
      kinds := h.kinds
      bounds := h.bounds
      acts := by simp
      at_end := by
        rintro ⟨_, _, _, _, _, hdone⟩
        simp at hdone }

section Runs

variable {lib : Library} {raw : Json} {requests : List SavedRequest} {flows : List StoredFlow}
  (hvalid : validateFlow lib (normalizeFlow lib.numerals raw) requests flows = [])

include hvalid

/-- A run comes to rest after each turn: in order, and well placed. -/
theorem run_rests {log : List LoopEvent} {turn : Turn} (hrun : Run lib raw requests flows log turn) :
    Fit (normalizeFlow lib.numerals raw) log turn.state ∧
      Resting (normalizeFlow lib.numerals raw) turn.state ∧
      WellPlaced (normalizeFlow lib.numerals raw) turn := by
  induction hrun with
  | @begin vars sendsLeft turn problems h =>
      have hready := ready_createScene ⟨requests, flows, vars, sendsLeft⟩ hvalid
      have hturned := (beginTurn_turned hready).result h
      exact ⟨hturned.sane.fit, hturned.resting, hturned.wellPlaced hready⟩
  | @advance log turn next input vars sendsLeft _ h ih =>
      obtain ⟨hfit, hresting, hplaced⟩ := ih
      have hready := ready_createScene ⟨requests, flows, vars, sendsLeft⟩ hvalid
      rcases (advanceTurn_turned hready hfit hplaced.bounds hresting input).result h with
        ⟨hturned, -⟩ | hpeeked
      · exact ⟨hturned.sane.fit, hturned.resting, hturned.wellPlaced hready⟩
      · have hplaced' := hplaced.of_peeked hready hpeeked
        obtain ⟨stop, rfl⟩ := hpeeked.after_eq
        exact ⟨by simpa using hfit, hresting, hplaced'⟩

/-- Every turn of a run without problems ends without a fault, and the state it
leaves is well placed. -/
theorem run_wellPlaced :
    (∀ vars sendsLeft, ∃ turn problems,
      flowBegin lib raw ⟨requests, flows, vars, sendsLeft⟩ = .ok (turn, problems)) ∧
    ∀ log turn, Run lib raw requests flows log turn →
      WellPlaced (normalizeFlow lib.numerals raw) turn ∧
      ∀ input vars sendsLeft, ∃ next,
        flowAdvance lib raw turn.state input ⟨requests, flows, vars, sendsLeft⟩ = .ok next := by
  constructor
  · intro vars sendsLeft
    have hready := ready_createScene ⟨requests, flows, vars, sendsLeft⟩ hvalid
    obtain ⟨⟨turn, problems⟩, h, -⟩ := beginTurn_turned hready
    exact ⟨turn, problems, h⟩
  · intro log turn hrun
    obtain ⟨hfit, hresting, hplaced⟩ := run_rests hvalid hrun
    refine ⟨hplaced, fun input vars sendsLeft => ?_⟩
    have hready := ready_createScene ⟨requests, flows, vars, sendsLeft⟩ hvalid
    obtain ⟨next, h, -⟩ := advanceTurn_turned hready hfit hplaced.bounds hresting input
    exact ⟨next, h⟩

end Runs

/-- Two rounds of a pause in a Repeat that counts in `n`, and an end. -/
def roundsFlow : Json :=
  .obj [("id", .str "f"), ("name", .str "Rounds"),
    ("steps", .arr [
      .obj [("id", .str "rounds"), ("kind", .str "repeat"), ("times", .num 2), ("indexAs", .str "n"),
        ("steps", .arr [.obj [("id", .str "pause"), ("kind", .str "delay"), ("ms", .num 5)]])],
      .obj [("id", .str "stop"), ("kind", .str "end")]])]

theorem run_wellPlaced_rounds :
    (∀ vars sendsLeft, ∃ turn problems,
      flowBegin plainLibrary roundsFlow ⟨[], [], vars, sendsLeft⟩ = .ok (turn, problems)) ∧
    ∀ log turn, Run plainLibrary roundsFlow [] [] log turn →
      WellPlaced (normalizeFlow plainLibrary.numerals roundsFlow) turn ∧
      ∀ input vars sendsLeft, ∃ next,
        flowAdvance plainLibrary roundsFlow turn.state input ⟨[], [], vars, sendsLeft⟩ = .ok next :=
  run_wellPlaced (by decide +kernel)

end Gostman.Flows
