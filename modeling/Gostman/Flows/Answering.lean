import Gostman.Flows.Running
/-!
# The answers of the host

What a turn makes of an answer: the counts it takes from it, and that it moves
on without a fault from wherever the turn before it came to rest.
-/

namespace Gostman.Flows

open Gostman.Lib Gostman.Js

/-- `typeof input.unfilled === 'string'`. -/
def isUnfilled (input : Json) : Bool :=
  match input.field "unfilled" with
  | some (.str _) => true
  | _ => false

/-- The counts of sends and of quiet steps after an answer. -/
def answered (scene : Scene) (step : Step) (input : Json) (sends : Int) (quiet : Nat) : Int × Nat :=
  match step.head.fields with
  | .request _ => if isUnfilled input then (sends - 1, quiet) else (sends, 0)
  | .flow _ => (sends + sendsOf scene.lib input, if sendsOf scene.lib input > 0 then 0 else quiet)
  | .parallel _ =>
      if isTrue (input.field "settled") then (sends + branchSends scene.lib step input, 0)
      else (sends, quiet)
  | _ => (sends, quiet)

/-- Where a state is between two turns: at a step that waits for the host, at a
Repeat between two passes, or at the end. -/
inductive Resting (flow : Flow) (state : State) : Prop where
  | asking {spot : Spot} {action : Action} (hspot : spot ∈ trailWalk flow.steps)
      (hloops : InLoops flow spot) (hat : state.atStep = spot.item.head.id)
      (hframes : state.frames.map Frame.step = spot.parent) (hasks : Asks spot.item action)
  | waiting {spot : Spot} {fields : RepeatFields} (hspot : spot ∈ trailWalk flow.steps)
      (hloops : InLoops flow spot) (hat : state.atStep = spot.item.head.id)
      (hframes : state.frames.map Frame.step = spot.parent ++ [spot.item.head.id])
      (hfields : spot.item.head.fields = .repeatStep fields)
  | finished (hat : state.atStep = "") (hframes : state.frames = [])

theorem Turned.resting {scene : Scene} {history : List LoopEvent} {sends : Int} {quiet : Nat}
    {turn : Turn} (h : Turned scene history sends quiet turn) : Resting scene.flow turn.state := by
  obtain hlanded | ⟨hspot, hloops, hat, hframes, hasks, -⟩ := h.standing
  · cases hlanded with
    | running _ _ _ _ haction => exact absurd haction h.acts
    | waiting hspot hloops hat hframes hfields _ => exact .waiting hspot hloops hat hframes hfields
    | finished hat hframes _ => exact .finished hat hframes
  · exact .asking hspot hloops hat hframes hasks

section Answers

variable {scene : Scene} (hready : Ready scene) {history : List LoopEvent} {turn : Turn} {spot : Spot}

include hready

/-! ## After a send, a wait and a flow -/

theorem afterAttempt_moved (hat : LeftAt scene history turn spot)
    (hstep : turn.state.atStep = spot.item.head.id) {fields : RequestFields}
    (hfields : spot.item.head.fields = .request fields) (checks : List Check) (passed : Bool) :
    Yields (afterAttempt scene turn spot.item fields checks passed)
      (Moved scene history turn.state.sends turn.state.quiet) := by
  unfold afterAttempt
  simp only
  split_ifs with hpassed hagain hne
  · exact continueFrom_moved hready (hat.record _ _ _) (.inl rfl)
  · exact Yields.ok
      { sane := hat.sane.congr rfl rfl rfl rfl
        landed := .running hat.mem hat.inLoops hstep hat.frames_eq hat.action_eq
        sends_eq := rfl
        quiet_eq := rfl }
  · have hroute : IsRoute spot.item fields.onFailure :=
      isRoute_onFailure (by simp [hfields, Fields.onFailure?])
    obtain ⟨title, htitle⟩ := targetTitle_yields hready hat.mem hroute hne
    simp only [htitle]
    exact goFrom_moved hready (hat.record _ _ _) hroute
  · exact finish_moved hready (hat.record _ _ _).sane _ _ _

theorem afterSend_moved (hat : LeftAt scene history turn spot)
    (hstep : turn.state.atStep = spot.item.head.id) {fields : RequestFields}
    (hfields : spot.item.head.fields = .request fields) (input : Json) :
    Yields (afterSend scene turn spot.item fields input)
      (Moved scene history (answered scene spot.item input turn.state.sends turn.state.quiet).1
        (answered scene spot.item input turn.state.sends turn.state.quiet).2) := by
  unfold afterSend
  split
  case h_1 message hunfilled =>
    have hcounts : answered scene spot.item input turn.state.sends turn.state.quiet =
        (turn.state.sends - 1, turn.state.quiet) := by
      simp [answered, hfields, isUnfilled, hunfilled]
    rw [hcounts]
    have hgiven := hat.with_state { turn.state with sends := turn.state.sends - 1 } rfl rfl
    exact inputsFailed_moved hready hgiven message
  case h_2 hfilled =>
    have hnot : isUnfilled input = false := by
      unfold isUnfilled
      split
      · exact absurd ‹_› (hfilled _)
      · rfl
    have hcounts : answered scene spot.item input turn.state.sends turn.state.quiet =
        (turn.state.sends, 0) := by
      simp [answered, hfields, hnot]
    rw [hcounts]
    have hjudged := hat.with_state { turn.state with
      quiet := 0
      responses := turn.state.responses.put spot.item.head.id
        (subjectOf scene.lib (input.field "response"))
      last := spot.item.head.id } rfl rfl
    exact afterAttempt_moved hready hjudged hstep hfields _ _

theorem failOrReroute_moved (hat : LeftAt scene history turn spot) (summary : String)
    (details : Details) :
    Yields (failOrReroute scene turn spot.item summary details)
      (Moved scene history turn.state.sends turn.state.quiet) := by
  unfold failOrReroute
  simp only
  split_ifs with hne
  · have hroute : IsRoute spot.item (spot.item.head.fields.onFailure?.getD "") := by
      cases honFailure : spot.item.head.fields.onFailure? with
      | none => simp [honFailure] at hne
      | some target => exact isRoute_onFailure honFailure
    obtain ⟨title, htitle⟩ := targetTitle_yields hready hat.mem hroute hne
    simp only [htitle]
    exact goFrom_moved hready (hat.record _ _ _) hroute
  · exact finish_moved hready (hat.record _ _ _).sane _ _ _

theorem flowOverBudget_moved (hat : LeftAt scene history turn spot) (message : String)
    (sends : Nat) :
    Yields (flowOverBudget scene turn spot.item message sends)
      (Moved scene history turn.state.sends turn.state.quiet) := by
  unfold flowOverBudget stopForBudget
  exact finish_moved hready (hat.record _ _ _).sane _ _ _

theorem afterFlow_moved (hat : LeftAt scene history turn spot) {fields : FlowFields}
    (hfields : spot.item.head.fields = .flow fields) (input : Json) :
    Yields (afterFlow scene turn spot.item fields input)
      (Moved scene history (answered scene spot.item input turn.state.sends turn.state.quiet).1
        (answered scene spot.item input turn.state.sends turn.state.quiet).2) := by
  have hcounted : LeftAt scene history (countSends turn (sendsOf scene.lib input)) spot :=
    hat.with_state _ rfl rfl
  have hcounts : answered scene spot.item input turn.state.sends turn.state.quiet =
      ((countSends turn (sendsOf scene.lib input)).state.sends,
        (countSends turn (sendsOf scene.lib input)).state.quiet) := by
    simp [answered, hfields, countSends]
  rw [hcounts]
  unfold afterFlow
  simp only
  generalize countSends turn (sendsOf scene.lib input) = counted at hcounted
  by_cases hbudget : isTrue (input.field "budget") = true
  · rw [if_pos hbudget]
    exact flowOverBudget_moved hready hcounted _ _
  rw [if_neg hbudget]
  by_cases hpassed : isText "passed" (input.field "outcome") = true
  · rw [if_pos hpassed]
    have h := assignAll_left hready hcounted [] (outputsOf input)
    generalize assignAll scene counted [] (outputsOf input) = given at h
    obtain ⟨after, result⟩ := given
    obtain ⟨hafter, -, hsends, hquiet, -⟩ := h
    simp only at hsends hquiet
    rw [← hsends, ← hquiet]
    cases result with
    | error problem => exact failOrReroute_moved hready hafter _ _
    | ok values => exact continueFrom_moved hready (hafter.record _ _ _) (.inl rfl)
  rw [if_neg hpassed]
  by_cases hne : fields.onFailure ≠ ""
  · have hroute : IsRoute spot.item fields.onFailure :=
      isRoute_onFailure (by simp [hfields, Fields.onFailure?])
    obtain ⟨title, htitle⟩ := targetTitle_yields hready hat.mem hroute hne
    rw [if_pos hne, htitle]
    exact goFrom_moved hready (hcounted.record _ _ _) hroute
  · rw [if_neg hne]
    exact finish_moved hready (hcounted.record _ _ _).sane _ _ _

/-! ## After a Parallel step -/

omit hready in
/-- Recording the branches changes nothing but the events. -/
theorem recordBranches_left (hat : LeftAt scene history turn spot) (step : Step) (input : Json)
    (isFailing : Bool) :
    LeftAt scene history (recordBranches scene turn step input isFailing) spot ∧
      OnlyVariables turn (recordBranches scene turn step input isFailing) := by
  unfold recordBranches
  induction step.inner generalizing turn with
  | nil => exact ⟨hat, rfl, rfl, rfl, rfl⟩
  | cons branch rest ih => exact ih (hat.record _ _ _)

omit hready in
theorem keepResponse_left (hat : LeftAt scene history turn spot) (input : Json) (id : String) :
    LeftAt scene history (keepResponse scene input turn id) spot ∧
      OnlyVariables turn (keepResponse scene input turn id) := by
  unfold keepResponse
  split
  · exact ⟨hat, rfl, rfl, rfl, rfl⟩
  · split_ifs
    · exact ⟨hat.with_state _ rfl rfl, rfl, rfl, rfl, rfl⟩
    · exact ⟨hat, rfl, rfl, rfl, rfl⟩

omit hready in
/-- Keeping responses changes neither the counts nor the frames. -/
theorem keepResponses_left (hat : LeftAt scene history turn spot) (input : Json) :
    LeftAt scene history (keepResponses scene turn input) spot ∧
      OnlyVariables turn (keepResponses scene turn input) := by
  unfold keepResponses
  induction orderOf scene input generalizing turn with
  | nil => exact ⟨hat, rfl, rfl, rfl, rfl⟩
  | cons id rest ih =>
      have hone := keepResponse_left hat input id
      have hrest := ih hone.1
      exact ⟨hrest.1, hone.2.trans hrest.2⟩

theorem branchOutputs_left (hat : LeftAt scene history turn spot) (input : Json)
    (values : Record String String) (branches : List Step) :
    LeftAt scene history (branchOutputs scene turn input values branches).1 spot ∧
      OnlyVariables turn (branchOutputs scene turn input values branches).1 := by
  induction branches generalizing turn values with
  | nil => exact ⟨hat, rfl, rfl, rfl, rfl⟩
  | cons branch rest ih =>
      unfold branchOutputs
      simp only
      split_ifs
      · have h := assignAll_left hready hat [] (outputsOf (branchInput input branch.head.id))
        generalize assignAll scene turn [] (outputsOf (branchInput input branch.head.id)) = given at h
        obtain ⟨after, result⟩ := given
        cases result with
        | error message => exact h
        | ok given =>
            have hrest := ih h.1 (values.overlay given)
            exact ⟨hrest.1, h.2.trans hrest.2⟩
      · exact ih hat values

theorem endParallel_moved (hat : LeftAt scene history turn spot) (input : Json) (sends : Nat)
    (passed : Bool) (checks : List Check) :
    Yields (endParallel scene turn spot.item input sends passed checks)
      (Moved scene history turn.state.sends turn.state.quiet) := by
  unfold endParallel
  cases overBudgetOf spot.item input with
  | some got => exact flowOverBudget_moved hready hat _ _
  | none =>
      have h := branchOutputs_left hready hat input [] spot.item.inner
      simp only
      generalize branchOutputs scene turn input [] spot.item.inner = given at h
      obtain ⟨after, result⟩ := given
      obtain ⟨hafter, -, hsends, hquiet, -⟩ := h
      simp only at hsends hquiet
      rw [← hsends, ← hquiet]
      cases result with
      | error message => exact failOrReroute_moved hready hafter _ _
      | ok values =>
          simp only
          split_ifs with hpassed
          · exact continueFrom_moved hready (hafter.record _ _ _) (.inl rfl)
          · exact failOrReroute_moved hready hafter _ _

theorem settleParallel_moved (hat : LeftAt scene history turn spot) (fields : ParallelFields)
    (input : Json) :
    Yields (settleParallel scene turn spot.item fields input)
      (Moved scene history (turn.state.sends + branchSends scene.lib spot.item input) 0) := by
  have hcounted := hat.with_state { turn.state with
    quiet := 0
    sends := turn.state.sends + branchSends scene.lib spot.item input } rfl rfl
  obtain ⟨hkept, hkeeps⟩ := keepResponses_left hcounted input
  obtain ⟨hrecorded, hrecords⟩ := recordBranches_left hkept spot.item input
    ((!(parallelVerdict scene (keepResponses scene { turn with state := { turn.state with
      quiet := 0
      sends := turn.state.sends + branchSends scene.lib spot.item input } } input) spot.item fields
      (doneAtOf input)).1 && fields.onFailure = "") || (overBudgetOf spot.item input).isSome)
  obtain ⟨-, hsends, hquiet, -⟩ := hkeeps.trans hrecords
  have h := endParallel_moved hready hrecorded input (branchSends scene.lib spot.item input)
  rw [hsends, hquiet] at h
  exact h _ _

/-- An answer to the action of a step is taken without a fault: the turn moves
on, or it only says whether to stop a Parallel step that still runs. -/
theorem afterAction_moved (hat : LeftAt scene history turn spot)
    (hstep : turn.state.atStep = spot.item.head.id) {action : Action} (hasks : Asks spot.item action)
    (input : Json) :
    Yields (afterAction scene turn spot.item input) fun after =>
      (Moved scene history (answered scene spot.item input turn.state.sends turn.state.quiet).1
          (answered scene spot.item input turn.state.sends turn.state.quiet).2 after ∧
        (spot.item.head.kind = .parallel → isTrue (input.field "settled") = true)) ∨
        (spot.item.head.kind = .parallel ∧ isTrue (input.field "settled") = false ∧
          ∃ stop, after = { turn with action := some (.parallelStop spot.item.head.id stop) }) := by
  unfold afterAction
  cases hasks with
  | send hfields _ =>
      rw [hfields]
      refine (afterSend_moved hready hat hstep hfields input).mono fun _ h => .inl ⟨h, ?_⟩
      simp [StepHead.kind, hfields, Fields.kind]
  | flow hfields _ =>
      rw [hfields]
      refine (afterFlow_moved hready hat hfields input).mono fun _ h => .inl ⟨h, ?_⟩
      simp [StepHead.kind, hfields, Fields.kind]
  | wait hfields =>
      have hcounts : answered scene spot.item input turn.state.sends turn.state.quiet =
          (turn.state.sends, turn.state.quiet) := by
        simp [answered, hfields]
      rw [hfields, hcounts]
      refine (continueFrom_moved hready (hat.record _ _ _) (.inl rfl)).mono fun _ h => .inl ⟨h, ?_⟩
      simp [StepHead.kind, hfields, Fields.kind]
  | @parallel fields _ _ hfields _ =>
      simp only [hfields]
      unfold afterParallel
      by_cases hsettled : isTrue (input.field "settled") = true
      · have hcounts : answered scene spot.item input turn.state.sends turn.state.quiet =
            (turn.state.sends + branchSends scene.lib spot.item input, 0) := by
          simp [answered, hfields, hsettled]
        rw [if_pos hsettled, hcounts]
        exact (settleParallel_moved hready hat fields input).mono fun _ h => .inl ⟨h, fun _ => hsettled⟩
      · rw [if_neg hsettled]
        have hkind : spot.item.head.kind = .parallel := by simp [StepHead.kind, hfields, Fields.kind]
        exact Yields.ok (.inr ⟨hkind, by simpa using hsettled, _, rfl⟩)

/-- After a pause a Repeat begins its next pass. -/
theorem afterPause_moved {fields : RepeatFields} {frame : Frame}
    (hin : InsideAt scene history turn spot frame)
    (hfields : spot.item.head.fields = .repeatStep fields) :
    Yields (afterPause scene turn spot.item fields) fun after =>
      Moved scene history turn.state.sends turn.state.quiet after ∧ after.action = none := by
  obtain ⟨outer, hframes, -⟩ := hin.frames_eq
  obtain ⟨loop, hloop, hid, hkind⟩ := hin.sane.fit.kinds frame (by simp [hframes])
  obtain rfl := hready.named.spot_unique hloop hin.mem (hid.trans hin.step_eq)
  cases frame with
  | item step items index =>
      obtain ⟨names, hnames⟩ := hkind
      rw [hfields] at hnames
      cases hnames
  | pass step index count shadowed =>
      obtain rfl : step = loop.item.head.id := hin.step_eq
      have hlast : turn.state.frames.getLast? =
          some (.pass loop.item.head.id index count shadowed) := by simp [hframes]
      unfold afterPause
      simp only [hlast, if_true]
      refine (beginPass_moved hready hin hfields index count).mono_eq fun after heq hafter => ?_
      refine ⟨hafter, ?_⟩
      unfold beginPass startPass at heq
      split at heq
      · cases heq
      · obtain rfl := Except.ok.inj heq
        exact hin.action_eq

end Answers

/-! ## Whole turns -/

/-- The counts after the answer to the action a state rests at. -/
def answeredAt (scene : Scene) (state : State) (input : Json) : Int × Nat :=
  match scene.index.read state.atStep with
  | some entry => answered scene entry.item input state.sends state.quiet
  | none => (state.sends, state.quiet)

def RestsAt (scene : Scene) (kind : Kind) (state : State) : Prop :=
  ∃ entry, scene.index.read state.atStep = some entry ∧ entry.item.head.kind = kind

theorem proceed_of_action {scene : Scene} {turn : Turn} (h : turn.action ≠ none) :
    proceed scene turn = .ok turn := by
  rw [proceed, proceedFor, if_pos (Option.isSome_iff_ne_none.2 h)]

/-- What a turn after the first has done for the run to end: it ended it, it ran
a step, or it came to the pause of a Repeat. -/
inductive Progress (scene : Scene) (state : State) (input : Json) (after : Turn) : Prop where
  | done (h : after.isDone)
  | ran (h : (answeredAt scene state input).2 < after.state.quiet)
  | paused (hnot : ¬RestsAt scene .repeatStep state) (h : RestsAt scene .repeatStep after.state)

/-- A turn that only says whether to stop a Parallel step that still runs. -/
structure Peeked (scene : Scene) (state : State) (input : Json) (after : Turn) : Prop where
  rests : RestsAt scene .parallel state
  unsettled : isTrue (input.field "settled") = false
  after_eq : ∃ stop, after = { state := state, action := some (.parallelStop state.atStep stop) }

section Turns

variable {scene : Scene} (hready : Ready scene) {history : List LoopEvent}

include hready

theorem restsAt_iff {spot : Spot} (hspot : spot ∈ trailWalk scene.flow.steps) {state : State}
    (hat : state.atStep = spot.item.head.id) (kind : Kind) :
    RestsAt scene kind state ↔ spot.item.head.kind = kind := by
  rw [RestsAt, hat, hready.read_index hspot]
  constructor
  · rintro ⟨entry, hentry, hkind⟩
    obtain rfl := Option.some.inj hentry
    exact hkind
  · exact fun hkind => ⟨_, rfl, hkind⟩

/-- A turn from a state at rest ends without a fault, at rest again or where it
was. -/
theorem advanceTurn_turned {state : State} (hfit : Fit scene.flow history state)
    (hbounds : ∀ frame ∈ state.frames, frame.InBounds) (hresting : Resting scene.flow state)
    (input : Json) :
    Yields (advanceTurn scene state input) fun after =>
      (Turned scene history (answeredAt scene state input).1 (answeredAt scene state input).2 after ∧
        Progress scene state input after ∧
        (RestsAt scene .parallel state → isTrue (input.field "settled") = true)) ∨
      Peeked scene state input after := by
  have hsane : Sane scene history { state := state } :=
    { fit := by simpa using hfit
      bounds := hbounds
      writes_nodup := by simp [Record.keys] }
  unfold advanceTurn
  cases hresting with
  | finished hat hframes =>
      have hread : scene.index.read state.atStep = none := by
        rw [hat, hready.index_eq]
        exact hready.named.read_empty
      simp only [answeredAt, hread]
      refine (finish_done hready hsane _ _ _).bind ?_
      rintro after ⟨hafter, hdone⟩
      refine (proceed_turned hready hafter.reached).mono_eq fun last heq hlast =>
        .inl ⟨hlast.1, .done ?_, ?_⟩
      · obtain ⟨_, _, _, _, _, haction⟩ := hdone
        rw [proceed_of_action (by simp [haction]), Except.ok.injEq] at heq
        exact heq ▸ ⟨_, _, _, _, _, haction⟩
      · rintro ⟨entry, hentry, -⟩
        rw [hread] at hentry
        cases hentry
  | @waiting spot fields hspot hloops hat hframes hfields =>
      have hread : scene.index.read state.atStep = some (spot.mapParent lastId) := by
        rw [hat, hready.read_index hspot]
      obtain ⟨outer, last, hsplit, houter, hlastMap⟩ := List.map_eq_append_iff.1 hframes
      obtain ⟨frame, rfl, hframe⟩ := List.map_eq_singleton_iff.1 hlastMap
      have hin : InsideAt scene history { state := state } spot frame :=
        ⟨hsane, hspot, hloops, ⟨outer, hsplit, houter⟩, hframe, rfl⟩
      have hcounts : answeredAt scene state input = (state.sends, state.quiet) := by
        simp [answeredAt, hread, answered, Outline.Spot.mapParent, hfields]
      have hafter : afterAction scene { state := state } (spot.mapParent lastId).item input =
          afterPause scene { state := state } spot.item fields := by
        simp [afterAction, Outline.Spot.mapParent, hfields]
      simp only [hread, hafter, hcounts]
      refine (afterPause_moved hready hin hfields).bind ?_
      rintro after ⟨hmoved, haction⟩
      refine (proceed_turned hready hmoved.reached).mono fun last hlast =>
        .inl ⟨hlast.1, ?_, fun hrests => ?_⟩
      · rcases hlast.2 haction with hdone | hran
        · exact .done hdone
        · exact .ran (by rwa [hcounts])
      · have hkind := (restsAt_iff hready hspot hat .parallel).1 hrests
        simp [StepHead.kind, hfields, Fields.kind] at hkind
  | @asking spot action hspot hloops hat hframes hasks =>
      have hread : scene.index.read state.atStep = some (spot.mapParent lastId) := by
        rw [hat, hready.read_index hspot]
      have hleft : LeftAt scene history { state := state } spot :=
        ⟨hsane, hspot, hloops, hframes, rfl⟩
      have hcounts : answeredAt scene state input =
          answered scene spot.item input state.sends state.quiet := by
        simp [answeredAt, hread, Outline.Spot.mapParent]
      simp only [hread, hcounts]
      refine (afterAction_moved hready hleft hat hasks input).bind ?_
      rintro after (⟨hmoved, hsettled⟩ | ⟨hkind, hunsettled, stop, hafter⟩)
      · refine (proceed_turned hready hmoved.reached).mono_eq fun last heq hlast =>
          .inl ⟨hlast.1, ?_, fun hrests => hsettled ((restsAt_iff hready hspot hat .parallel).1 hrests)⟩
        cases hmoved.landed with
        | running _ _ _ _ haction =>
            rcases hlast.2 haction with hdone | hran
            · exact .done hdone
            · exact .ran (by rwa [hcounts])
        | waiting hspot' _ hat' _ hfields' haction =>
            rw [proceed_of_action (by simp [haction]), Except.ok.injEq] at heq
            refine .paused ?_ ?_
            · rw [restsAt_iff hready hspot hat]
              cases hasks <;> rename_i hfields _ <;> simp [StepHead.kind, *, Fields.kind]
            · rw [← heq, restsAt_iff hready hspot' hat']
              simp [StepHead.kind, hfields', Fields.kind]
        | finished _ _ haction =>
            rw [proceed_of_action (by simp [haction]), Except.ok.injEq] at heq
            exact .done (heq ▸ ⟨_, _, _, _, _, haction⟩)
      · rw [proceed_of_action (by simp [hafter])]
        exact Yields.ok (.inr
          ⟨(restsAt_iff hready hspot hat .parallel).2 hkind, hunsettled, stop, by rw [hafter, hat]⟩)

end Turns

end Gostman.Flows
