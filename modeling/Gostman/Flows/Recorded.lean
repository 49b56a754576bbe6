import Gostman.Flows.Asked
import Gostman.Flows.Edits
/-!
# Every answer is recorded

A turn that answers an action is a path of edits too, and records an event for
each step that the action handed to the host.
-/

namespace Gostman.Flows

open Gostman.Lib Gostman.Js

def Recorded (turn : Turn) (step : Step) : Prop :=
  ∃ event ∈ turn.events, event.step = step.head.id ∧ event.kind = step.head.kind

structure NoOutputs (input : Json) : Prop where
  own : outputsOf input = []
  branches : ∀ id, outputsOf (branchInput input id) = []

section Events

variable {scene : Scene} {assigns : Prop} {turn after : Turn}

theorem closeLoop_events (turn : Turn) (frame : Frame) :
    Ensures (closeLoop scene turn frame) fun closed => closed.events = turn.events := by
  unfold closeLoop
  refine (Ensures.trivial _).bind fun loop _ => ?_
  split
  · refine Ensures.ok ?_
    cases frame.shadowed <;> rfl
  · exact Ensures.ok rfl

theorem leaveLoops_events (kept : Nat) :
    Ensures (leaveLoops scene turn kept) fun left => left.events = turn.events := by
  unfold leaveLoops
  let Inv : List Frame → Turn → Prop := fun _ now => now.events = turn.events
  have hstart : Inv (turn.state.frames.drop kept).reverse turn := rfl
  have hfold := Ensures.foldlM (f := closeLoop scene) hstart fun frame rest now hnow =>
    (closeLoop_events now frame).mono fun closed hclosed => hclosed.trans hnow
  exact hfold.bind fun left hleft => Ensures.ok hleft

theorem Edit.events (h : Edit scene assigns turn after) : turn.events <+: after.events := by
  cases h with
  | record step status details => exact List.prefix_append _ _
  | leave h => rw [leaveLoops_events _ _ h]
  | _ => exact List.prefix_refl _

theorem Path.events (h : Path scene assigns turn after) : turn.events <+: after.events := by
  induction h with
  | refl => exact List.prefix_refl _
  | tail _ hedit ih => exact ih.trans hedit.events

theorem Path.recorded (h : Path scene assigns turn after) {step : Step} (hrecorded : Recorded turn step) :
    Recorded after step := by
  obtain ⟨event, hmem, habout⟩ := hrecorded
  exact ⟨event, h.events.subset hmem, habout⟩

theorem recorded_record (step : Step) (status : EventStatus) (details : Details) :
    Recorded (record scene turn step status details) step :=
  ⟨_, List.mem_append_right _ List.mem_cons_self, rfl, rfl⟩

end Events

/-- The turn after an answer: a path of edits, with an event of the step. -/
structure Answers (scene : Scene) (assigns : Prop) (turn : Turn) (step : Step) (after : Turn) :
    Prop where
  path : Path scene assigns turn after
  recorded : Recorded after step

section Answering

variable {scene : Scene} {assigns : Prop} {turn : Turn} (hcalm : Calm scene ∨ assigns)
  (hkeyed : Keyed scene) {step : Step} {input : Json}

theorem answers_of_record {x : Except Fault Turn} {now : Turn} {status : EventStatus}
    {details : Details} (hpath : Path scene assigns turn now)
    (hx : Ensures x (Path scene assigns (record scene now step status details))) :
    Ensures x (Answers scene assigns turn step) := by
  refine hx.mono fun after hafter => ⟨?_, hafter.recorded (recorded_record step status details)⟩
  exact (hpath.trans (path_record _ _ _)).trans hafter

theorem Answers.from_path {now after : Turn} (hpath : Path scene assigns turn now)
    (h : Answers scene assigns now step after) : Answers scene assigns turn step after :=
  ⟨hpath.trans h.path, h.recorded⟩

include hcalm hkeyed

theorem inputsFailed_answers (message : String) :
    Ensures (inputsFailed scene turn step message) (Answers scene assigns turn step) := by
  unfold inputsFailed
  simp only
  split_ifs
  · exact answers_of_record (.refl turn) (goFrom_path hcalm hkeyed _ _)
  · exact answers_of_record (.refl turn) (finish_path hcalm _ _ _)

theorem afterAttempt_answers (fields : RequestFields) (checks : List Check) (passed : Bool) :
    Ensures (afterAttempt scene turn step fields checks passed) (Answers scene assigns turn step) := by
  unfold afterAttempt
  simp only
  split_ifs
  · exact answers_of_record (.refl turn) (continueFrom_path hcalm hkeyed _ _)
  · exact answers_of_record (.refl turn) (Ensures.ok (path_move rfl rfl))
  · refine (Ensures.trivial _).bind fun title _ => ?_
    exact answers_of_record (.refl turn) (goFrom_path hcalm hkeyed _ _)
  · exact answers_of_record (.refl turn) (finish_path hcalm _ _ _)

theorem afterSend_answers (fields : RequestFields) (input : Json) :
    Ensures (afterSend scene turn step fields input) (Answers scene assigns turn step) := by
  unfold afterSend
  split
  · refine (inputsFailed_answers hcalm hkeyed _).mono fun after hafter => hafter.from_path ?_
    exact path_move rfl rfl
  · refine (afterAttempt_answers hcalm hkeyed _ _ _).mono fun after hafter => hafter.from_path ?_
    exact path_move rfl rfl

theorem failOrReroute_answers (summary : String) (details : Details) :
    Ensures (failOrReroute scene turn step summary details) (Answers scene assigns turn step) := by
  unfold failOrReroute
  simp only
  split_ifs
  · refine (Ensures.trivial _).bind fun title _ => ?_
    exact answers_of_record (.refl turn) (goFrom_path hcalm hkeyed _ _)
  · exact answers_of_record (.refl turn) (finish_path hcalm _ _ _)

omit hkeyed in
theorem flowOverBudget_answers (message : String) (sends : Nat) :
    Ensures (flowOverBudget scene turn step message sends) (Answers scene assigns turn step) := by
  unfold flowOverBudget
  exact answers_of_record (.refl turn) (stopForBudget_path hcalm _)

omit hcalm hkeyed in
theorem assignAll_path (values : List (String × Json)) (h : values = [] ∨ assigns)
    (assigned : Record String String) :
    Path scene assigns turn (assignAll scene turn assigned values).1 := by
  induction values generalizing turn assigned with
  | nil => exact .refl turn
  | cons value rest ih =>
      have hassigns : assigns := h.resolve_left (List.cons_ne_nil _ _)
      have hassign : Path scene assigns turn
          (assign scene turn value.1 (asText scene.lib.numerals (some value.2))).1 :=
        assign_path hassigns _ _
      unfold assignAll
      generalize assign scene turn value.1 (asText scene.lib.numerals (some value.2)) = placed
        at hassign ⊢
      obtain ⟨after, result⟩ := placed
      cases result with
      | error message => exact hassign
      | ok placed => exact hassign.trans (ih (.inr hassigns) _)

theorem afterFlow_answers (houtputs : NoOutputs input ∨ assigns) (fields : FlowFields) :
    Ensures (afterFlow scene turn step fields input) (Answers scene assigns turn step) := by
  have hcounted : Path scene assigns turn (countSends turn (sendsOf scene.lib input)) :=
    path_move rfl rfl
  unfold afterFlow
  simp only
  split_ifs
  · exact (flowOverBudget_answers hcalm _ _).mono fun _ h => h.from_path hcounted
  · have hassigned : Path scene assigns turn (assignAll scene
        (countSends turn (sendsOf scene.lib input)) [] (outputsOf input)).1 :=
      hcounted.trans (assignAll_path _ (houtputs.imp_left NoOutputs.own) _)
    generalize assignAll scene (countSends turn (sendsOf scene.lib input)) [] (outputsOf input) =
      assigned at hassigned ⊢
    obtain ⟨now, result⟩ := assigned
    cases result with
    | error problem =>
        exact (failOrReroute_answers hcalm hkeyed _ _).mono fun _ h => h.from_path hassigned
    | ok values => exact answers_of_record hassigned (continueFrom_path hcalm hkeyed _ _)
  · refine (Ensures.trivial _).bind fun title _ => ?_
    exact answers_of_record hcounted (goFrom_path hcalm hkeyed _ _)
  · exact answers_of_record hcounted (finish_path hcalm _ _ _)
  · exact answers_of_record hcounted (finish_path hcalm _ _ _)

/-! ## Parallel steps -/

omit hcalm hkeyed in
theorem keepResponses_path (input : Json) :
    Path scene assigns turn (keepResponses scene turn input) := by
  have hall : ∀ (ids : List String) (now : Turn), Path scene assigns turn now →
      Path scene assigns turn (ids.foldl (keepResponse scene input) now) := by
    intro ids
    induction ids with
    | nil => exact fun now hnow => hnow
    | cons id ids ih =>
        intro now hnow
        refine ih _ (hnow.trans ?_)
        unfold keepResponse
        split
        · exact .refl now
        · split_ifs
          · exact path_move rfl rfl
          · exact .refl now
  exact hall _ turn (.refl turn)

omit hcalm hkeyed in
theorem recordBranches_path (input : Json) (isFailing : Bool) :
    Path scene assigns turn (recordBranches scene turn step input isFailing) ∧
      ∀ branch ∈ step.inner, Recorded (recordBranches scene turn step input isFailing) branch := by
  unfold recordBranches
  induction step.inner generalizing turn with
  | nil => exact ⟨.refl turn, by simp⟩
  | cons branch branches ih =>
      obtain ⟨hpath, hrecorded⟩ := @ih (recordBranch scene input isFailing turn branch)
      refine ⟨(path_record _ _ _).trans hpath, ?_⟩
      intro other hother
      rcases List.mem_cons.1 hother with rfl | hmem
      · exact hpath.recorded (recorded_record _ _ _)
      · exact hrecorded other hmem

omit hcalm hkeyed in
theorem branchOutputs_path (houtputs : NoOutputs input ∨ assigns) (branches : List Step)
    (values : Record String String) :
    Path scene assigns turn (branchOutputs scene turn input values branches).1 := by
  induction branches generalizing turn values with
  | nil => exact .refl turn
  | cons branch rest ih =>
      unfold branchOutputs
      simp only
      split_ifs
      · have hassigned : Path scene assigns turn
            (assignAll scene turn [] (outputsOf (branchInput input branch.head.id))).1 :=
          assignAll_path _ (houtputs.imp_left fun h => h.branches _) _
        generalize assignAll scene turn [] (outputsOf (branchInput input branch.head.id)) = assigned
          at hassigned ⊢
        obtain ⟨now, result⟩ := assigned
        cases result with
        | error message => exact hassigned
        | ok given => exact hassigned.trans (ih _)
      · exact ih _

theorem endParallel_path (houtputs : NoOutputs input ∨ assigns) (sends : Nat) (passed : Bool)
    (checks : List Check) :
    Ensures (endParallel scene turn step input sends passed checks) (Path scene assigns turn) := by
  unfold endParallel
  split
  · exact (flowOverBudget_answers hcalm _ _).mono fun _ h => h.path
  · have hgathered : Path scene assigns turn (branchOutputs scene turn input [] step.inner).1 :=
      branchOutputs_path houtputs _ _
    generalize branchOutputs scene turn input [] step.inner = gathered at hgathered ⊢
    obtain ⟨now, result⟩ := gathered
    cases result with
    | error message =>
        exact (failOrReroute_answers hcalm hkeyed _ _).mono fun _ h => hgathered.trans h.path
    | ok values =>
        simp only
        split_ifs
        · exact (hgathered.trans (path_record _ _ _)).ensures (continueFrom_path hcalm hkeyed _ _)
        · exact (failOrReroute_answers hcalm hkeyed _ _).mono fun _ h => hgathered.trans h.path

theorem settleParallel_path (houtputs : NoOutputs input ∨ assigns) (fields : ParallelFields) :
    Ensures (settleParallel scene turn step fields input) fun after =>
      Path scene assigns turn after ∧ ∀ branch ∈ step.inner, Recorded after branch := by
  unfold settleParallel
  simp only
  generalize hstart : ({ turn with state := _ } : Turn) = start
  have hbegun : Path scene assigns turn start := by
    rw [← hstart]
    exact path_move rfl rfl
  have hkept : Path scene assigns turn (keepResponses scene start input) :=
    hbegun.trans (keepResponses_path input)
  generalize keepResponses scene start input = kept at hkept ⊢
  generalize (!(parallelVerdict scene kept step fields (doneAtOf input)).1 &&
    decide (fields.onFailure = "") || (overBudgetOf step input).isSome) = isFailing
  obtain ⟨hpath, hrecorded⟩ : Path scene assigns kept (recordBranches scene kept step input isFailing) ∧
      ∀ branch ∈ step.inner, Recorded (recordBranches scene kept step input isFailing) branch :=
    recordBranches_path input isFailing
  refine (endParallel_path hcalm hkeyed houtputs _ _ _).mono fun after hafter => ?_
  exact ⟨(hkept.trans hpath).trans hafter, fun branch hbranch => hafter.recorded (hrecorded branch hbranch)⟩

/-! ## Whole turns -/

theorem afterWait_answers (ms : Nat) :
    Ensures (afterWait scene turn step ms) (Answers scene assigns turn step) := by
  unfold afterWait
  exact answers_of_record (.refl turn) (continueFrom_path hcalm hkeyed _ _)

end Answering

/-- A scene that `createScene` makes of a normal flow. -/
structure Made (scene : Scene) : Prop where
  index_eq : scene.index = indexSteps scene.flow.steps
  types_eq : scene.types = declaredTypes scene.flow
  named : Named scene.flow.steps

theorem made_createScene (lib : Library) (raw : Json) (context : Context) :
    Made (createScene lib (normalizeFlow lib.numerals raw) context) :=
  ⟨rfl, rfl, named_normalizeFlow lib.numerals raw⟩

theorem Made.keyed {scene : Scene} (h : Made scene) : Keyed scene := by
  intro id entry hread
  rw [h.index_eq] at hread
  exact (h.named.read_index_iff.1 hread).2

section Whole

variable {scene : Scene} (hmade : Made scene) {spot : Spot}
  (hspot : spot ∈ trailWalk scene.flow.steps) {state : State} {input : Json}
  (hat : state.atStep = spot.item.head.id)

include hmade hspot hat

/-- A turn goes through what follows the action of the step it is at. -/
theorem advanceTurn_after {Q : Turn → Prop}
    (hafter : Ensures (afterAction scene { state := state } spot.item input) Q)
    (hpath : ∀ now after, Path scene True now after → Q now → Q after) :
    Ensures (advanceTurn scene state input) Q := by
  have hread : scene.index.read state.atStep = some (spot.mapParent lastId) := by
    rw [hat, hmade.index_eq]
    exact hmade.named.read_of_located hspot
  unfold advanceTurn
  simp only [hread]
  refine hafter.bind fun now hnow => ?_
  exact (proceed_path (.inr trivial) hmade.keyed).mono fun after h => hpath now after h hnow

/-- The answer to a request or to a flow is recorded. -/
theorem advanceTurn_recorded
    (hkind : spot.item.head.kind = .request ∨ spot.item.head.kind = .flow) :
    Ensures (advanceTurn scene state input) fun after => Recorded after spot.item := by
  refine advanceTurn_after hmade hspot hat ?_ fun _ _ hpath => hpath.recorded
  unfold afterAction
  split
  · exact (afterSend_answers (.inr trivial) hmade.keyed _ _).mono fun _ h => h.recorded
  · exact (afterFlow_answers (.inr trivial) hmade.keyed (.inr trivial) _).mono fun _ h => h.recorded
  · rename_i hfields
    simp [StepHead.kind, hfields, Fields.kind] at hkind
  · rename_i hfields
    simp [StepHead.kind, hfields, Fields.kind] at hkind
  · exact (afterWait_answers (.inr trivial) hmade.keyed _).mono fun _ h => h.recorded
  · exact (afterWait_answers (.inr trivial) hmade.keyed _).mono fun _ h => h.recorded

/-- The answer to a Parallel step is recorded for each of its branches. -/
theorem advanceTurn_recordsBranches {fields : ParallelFields}
    (hfields : spot.item.head.fields = .parallel fields)
    (hsettled : isTrue (input.field "settled") = true) :
    Ensures (advanceTurn scene state input) fun after =>
      ∀ branch ∈ spot.item.inner, Recorded after branch := by
  refine advanceTurn_after hmade hspot hat ?_ fun _ _ hpath h branch hbranch =>
    hpath.recorded (h branch hbranch)
  unfold afterAction
  rw [hfields]
  simp only [afterParallel, hsettled, if_true]
  exact (settleParallel_path (.inr trivial) hmade.keyed (.inr trivial) _).mono fun _ h => h.2

end Whole

end Gostman.Flows
