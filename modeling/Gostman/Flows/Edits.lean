import Gostman.Flows.Index
import Gostman.Flows.Standing
import Mathlib.Logic.Relation
/-!
# What a turn is made of

Whatever a turn does, it does in a few kinds of edits: it records an event,
moves to another step, opens, advances or leaves loops, writes variables and
sets its action.  Every function of the engine is a path of such edits, so what
all edits keep is kept by every turn.
-/

namespace Gostman.Flows

open Gostman.Lib Gostman.Js

/-- A step that the index of the flow knows under its own id. -/
def Indexed (scene : Scene) (step : Step) : Prop :=
  ∃ entry, scene.index.read step.head.id = some entry ∧ entry.item = step

/-- One edit.  `assigns` says whether variables may be written for another reason
than to count the passes of a Repeat. -/
inductive Edit (scene : Scene) (assigns : Prop) : Turn → Turn → Prop where
  | record {turn : Turn} (step : Step) (status : EventStatus) (details : Details) :
      Edit scene assigns turn (record scene turn step status details)
  | move {turn : Turn} {state : State} {action : Option Action}
      (hframes : state.frames = turn.state.frames) (hlocals : state.locals = turn.state.locals) :
      Edit scene assigns turn { turn with state := state, action := action }
  | place {turn : Turn} {name value : String}
      (h : (scene.types.read name).isSome ∨ name ∈ scene.flow.vars.map Declared.name) :
      Edit scene assigns turn
        { turn with state := { turn.state with locals := turn.state.locals.put name value } }
  | write {turn : Turn} (values : Record String String) (h : assigns) :
      Edit scene assigns turn (write turn values)
  | pass {turn : Turn} {step : Step} {fields : RepeatFields} (value : String)
      (hindexed : Indexed scene step) (hfields : step.head.fields = .repeatStep fields)
      (hopen : step.head.id ∈ turn.state.frames.map Frame.step) :
      Edit scene assigns turn (Flows.write turn [(fields.indexAs, value)])
  | advance {turn : Turn} : Edit scene assigns turn (advanceLast turn)
  | item {turn : Turn} {id : String} {items : List Json} (h : assigns) :
      Edit scene assigns turn (pushFrame turn (.item id items 0))
  | enter {turn : Turn} {step : Step} {fields : RepeatFields} (hindexed : Indexed scene step)
      (hfields : step.head.fields = .repeatStep fields) :
      Edit scene assigns turn (pushFrame
        { turn with loops := turn.loops ++
          [.opened step.head.id fields.indexAs (shadowOf scene turn fields.indexAs)] }
        (.pass step.head.id 0 fields.times (shadowOf scene turn fields.indexAs)))
  | leave {turn after : Turn} {kept : Nat} (h : leaveLoops scene turn kept = .ok after) :
      Edit scene assigns turn after

def Path (scene : Scene) (assigns : Prop) : Turn → Turn → Prop :=
  Relation.ReflTransGen (Edit scene assigns)

/-- A flow that writes no variables but the counts of its Repeats. -/
structure Calm (scene : Scene) : Prop where
  nested : scene.isNested = true
  kinds : ∀ step, Indexed scene step → step.head.kind ≠ .setStep ∧ step.head.kind ≠ .forEach

/-- Every entry of the index stands under the id of its step. -/
def Keyed (scene : Scene) : Prop :=
  ∀ id entry, scene.index.read id = some entry → entry.item.head.id = id

namespace Path

variable {scene : Scene} {assigns : Prop} {first second third : Turn}

theorem refl (turn : Turn) : Path scene assigns turn turn := Relation.ReflTransGen.refl

theorem trans (h : Path scene assigns first second) (h' : Path scene assigns second third) :
    Path scene assigns first third := Relation.ReflTransGen.trans h h'

theorem snoc (h : Path scene assigns first second) (h' : Edit scene assigns second third) :
    Path scene assigns first third := Relation.ReflTransGen.tail h h'

theorem single (h : Edit scene assigns first second) : Path scene assigns first second :=
  Relation.ReflTransGen.single h

theorem ensures {x : Except Fault Turn} (h : Path scene assigns first second)
    (hx : Ensures x (Path scene assigns second)) : Ensures x (Path scene assigns first) :=
  hx.mono fun _ hpath => h.trans hpath

theorem bind {x : Except Fault Turn} {f : Turn → Except Fault Turn}
    (hx : Ensures x (Path scene assigns first))
    (hf : ∀ turn, Path scene assigns first turn → Ensures (f turn) (Path scene assigns first)) :
    Ensures (x >>= f) (Path scene assigns first) :=
  Ensures.bind hx hf

/-- A value that is read on the way changes nothing. -/
theorem reading {α : Type} {x : Except Fault α} {f : α → Except Fault Turn}
    (hf : ∀ value, x = .ok value → Ensures (f value) (Path scene assigns first)) :
    Ensures (x >>= f) (Path scene assigns first) := by
  cases x with
  | error failure => exact Ensures.error
  | ok value => exact hf value rfl

end Path

theorem indexed_of_entryOf {scene : Scene} (hkeyed : Keyed scene) {id : String} {entry : Entry}
    (h : entryOf scene id = .ok entry) : entry.item.head.id = id ∧ Indexed scene entry.item := by
  unfold entryOf at h
  split at h
  · rename_i found hfound
    obtain rfl := Except.ok.inj h
    have hid := hkeyed _ _ hfound
    exact ⟨hid, found, by rw [hid, hfound], rfl⟩
  · cases h

theorem frames_step_advanceLast (turn : Turn) :
    (advanceLast turn).state.frames.map Frame.step = turn.state.frames.map Frame.step := by
  have hstep : ∀ frame : Frame, frame.advance.step = frame.step := fun frame => by
    cases frame <;> rfl
  rcases List.eq_nil_or_concat turn.state.frames with hnil | ⟨outer, frame, hframes⟩
  · simp [advanceLast, hnil]
  · simp [advanceLast, hframes, hstep]

section Paths

variable {scene : Scene} {assigns : Prop} {turn : Turn}

theorem path_record (step : Step) (status : EventStatus) (details : Details) :
    Path scene assigns turn (record scene turn step status details) :=
  .single (.record step status details)

theorem path_move {state : State} {action : Option Action}
    (hframes : state.frames = turn.state.frames) (hlocals : state.locals = turn.state.locals) :
    Path scene assigns turn { turn with state := state, action := action } :=
  .single (.move hframes hlocals)

theorem leaveLoops_path (kept : Nat) :
    Ensures (leaveLoops scene turn kept) (Path scene assigns turn) :=
  fun _ h => .single (.leave h)

theorem leaveLoop_path : Ensures (leaveLoop scene turn) (Path scene assigns turn) :=
  leaveLoops_path _

/-! ## Moving -/

section Moves

variable (hcalm : Calm scene ∨ assigns)

include hcalm

theorem finishWith_path (outcome : Outcome) (message : String) (outputs : Record String String)
    (budget : Bool) :
    Ensures (finishWith scene turn outcome message outputs budget) (Path scene assigns turn) := by
  unfold finishWith
  refine Path.bind (leaveLoops_path 0) fun left hleft => ?_
  have hwritten : Path scene assigns turn (if scene.isNested then left else write left outputs) := by
    split_ifs with hnested
    · exact hleft
    · refine hleft.snoc (.write outputs ?_)
      exact hcalm.resolve_left fun h => hnested h.nested
  exact Ensures.ok (hwritten.trans (path_move rfl rfl))

theorem finish_path (outcome : Outcome) (message : String) (budget : Bool) :
    Ensures (finish scene turn outcome message budget) (Path scene assigns turn) := by
  unfold finish
  cases outcome with
  | failed => exact finishWith_path hcalm _ _ _ _
  | passed =>
      refine Path.reading fun result _ => ?_
      cases result with
      | error failure => exact finishWith_path hcalm _ _ _ _
      | ok outputs => exact finishWith_path hcalm _ _ _ _

omit hcalm in
theorem leaveOutside_path (around : List String) :
    Ensures (leaveOutside scene turn around) (Path scene assigns turn) := by
  unfold leaveOutside
  split
  · exact leaveLoops_path _
  · exact Ensures.ok (.refl turn)

omit hcalm in
theorem enter_path (id : String) : Ensures (enter scene turn id) (Path scene assigns turn) := by
  unfold enter
  refine Path.bind (leaveOutside_path _) fun left hleft => ?_
  exact Ensures.ok (hleft.trans (path_move rfl rfl))

omit hcalm in
theorem startPass_path (loop : Step) : Ensures (startPass turn loop) (Path scene assigns turn) := by
  unfold startPass
  split
  · exact Ensures.error
  · exact Ensures.ok (path_move rfl rfl)

theorem bindItem_path {loop : Step} {names : ForEachFields} (hindexed : Indexed scene loop)
    (hfields : loop.head.fields = .forEach names) (items : List Json) (index : Nat) :
    Ensures (bindItem scene turn loop names items index) (Path scene assigns turn) := by
  have hassigns : assigns := hcalm.resolve_left fun h => by
    have hkind := (h.kinds loop hindexed).2
    simp [StepHead.kind, hfields, Fields.kind] at hkind
  unfold bindItem
  exact ((Path.single (.write _ hassigns)).trans (path_record _ _ _)).ensures (startPass_path _)

omit hcalm in
theorem beginPass_path {loop : Step} {fields : RepeatFields} (hindexed : Indexed scene loop)
    (hfields : loop.head.fields = .repeatStep fields)
    (hopen : loop.head.id ∈ turn.state.frames.map Frame.step) (index count : Nat) :
    Ensures (beginPass scene turn loop fields index count) (Path scene assigns turn) := by
  unfold beginPass
  exact ((Path.single (.pass _ hindexed hfields hopen)).trans (path_record _ _ _)).ensures
    (startPass_path _)

section Navigation

variable {follow : Turn → String → Except Fault Turn}
  (hfollow : ∀ turn id, Ensures (follow turn id) (Path scene assigns turn))

include hfollow

theorem goTo_path (source target : String) :
    Ensures (goTo scene follow turn source target) (Path scene assigns turn) := by
  unfold goTo
  split_ifs
  · exact finish_path hcalm _ _ _
  · exact enter_path _
  · exact hfollow _ _

theorem continueAfter_path (step : Step) (target : String) :
    Ensures (continueAfter scene follow turn step target) (Path scene assigns turn) :=
  goTo_path hcalm hfollow _ _

theorem endOfItem_path {loop : Step} {names : ForEachFields} (hindexed : Indexed scene loop)
    (hfields : loop.head.fields = .forEach names) (items : List Json) (index : Nat) :
    Ensures (endOfItem scene follow turn loop names items index) (Path scene assigns turn) := by
  unfold endOfItem
  refine (Path.single .advance).ensures ?_
  split_ifs
  · exact bindItem_path hcalm hindexed hfields _ _
  · refine Path.bind leaveLoop_path fun left hleft => ?_
    exact hleft.ensures (continueAfter_path hcalm hfollow _ _)

theorem repeatExhausted_path (loop : Step) (fields : RepeatFields) (checks : List Check) :
    Ensures (repeatExhausted scene follow turn loop fields checks) (Path scene assigns turn) := by
  unfold repeatExhausted
  refine Path.bind leaveLoop_path fun left hleft => ?_
  split_ifs
  · refine Path.reading fun title _ => ?_
    exact (hleft.trans (path_record _ _ _)).ensures (goTo_path hcalm hfollow _ _)
  · exact (hleft.trans (path_record _ _ _)).ensures (finish_path hcalm _ _ _)

omit hfollow hcalm in
theorem nextPass_path {loop : Step} {fields : RepeatFields} (hindexed : Indexed scene loop)
    (hfields : loop.head.fields = .repeatStep fields)
    (hopen : loop.head.id ∈ turn.state.frames.map Frame.step) (index count : Nat) :
    Ensures (nextPass scene turn loop fields index count) (Path scene assigns turn) := by
  have hadvanced : loop.head.id ∈ (advanceLast turn).state.frames.map Frame.step := by
    rw [frames_step_advanceLast]
    exact hopen
  unfold nextPass
  refine (Path.single .advance).ensures ?_
  split_ifs
  · exact beginPass_path hindexed hfields hadvanced _ _
  · exact Ensures.ok (path_move rfl rfl)

theorem endOfPass_path {loop : Step} {fields : RepeatFields} (hindexed : Indexed scene loop)
    (hfields : loop.head.fields = .repeatStep fields)
    (hopen : loop.head.id ∈ turn.state.frames.map Frame.step) (index count : Nat) :
    Ensures (endOfPass scene follow turn loop fields index count) (Path scene assigns turn) := by
  unfold endOfPass
  simp only
  split_ifs
  · exact nextPass_path hindexed hfields hopen _ _
  · refine Path.bind leaveLoop_path fun left hleft => ?_
    exact hleft.ensures (continueAfter_path hcalm hfollow _ _)
  · refine Path.bind leaveLoop_path fun left hleft => ?_
    exact (hleft.trans (path_record _ _ _)).ensures (continueAfter_path hcalm hfollow _ _)
  · exact repeatExhausted_path hcalm hfollow _ _ _
  · exact nextPass_path hindexed hfields hopen _ _

theorem nextInLoop_path (hkeyed : Keyed scene) (loopId : String) :
    Ensures (nextInLoop scene follow turn loopId) (Path scene assigns turn) := by
  unfold nextInLoop
  refine Path.reading fun entry hentry => ?_
  obtain ⟨hid, hindexed⟩ := indexed_of_entryOf hkeyed hentry
  cases hlast : turn.state.frames.getLast? with
  | none => exact hfollow _ _
  | some frame =>
      have hmem : frame ∈ turn.state.frames := List.mem_of_getLast? hlast
      simp only
      split_ifs with hstep
      · exact hfollow _ _
      · have hopen : entry.item.head.id ∈ turn.state.frames.map Frame.step := by
          rw [hid, ← not_not.1 hstep]
          exact List.mem_map_of_mem hmem
        cases hfields : entry.item.head.fields <;> cases frame <;>
          first
          | exact endOfItem_path hcalm hfollow hindexed hfields _ _
          | exact endOfPass_path hcalm hfollow hindexed hfields hopen _ _
          | exact Ensures.error

end Navigation

theorem following_path (hkeyed : Keyed scene) (fuel : Nat) (id : String) :
    Ensures (following scene fuel turn id) (Path scene assigns turn) := by
  induction fuel generalizing turn id with
  | zero => exact Ensures.error
  | succ fuel ih =>
      unfold following
      refine Path.reading fun entry _ => ?_
      split
      · exact enter_path _
      · split_ifs
        · exact nextInLoop_path hcalm (fun turn id => ih id) hkeyed _
        · exact finish_path hcalm _ _ _

theorem goFrom_path (hkeyed : Keyed scene) (step : Step) (target : String) :
    Ensures (goFrom scene turn step target) (Path scene assigns turn) :=
  goTo_path hcalm (fun _ _ => following_path hcalm hkeyed _ _) _ _

theorem continueFrom_path (hkeyed : Keyed scene) (step : Step) (target : String) :
    Ensures (continueFrom scene turn step target) (Path scene assigns turn) :=
  continueAfter_path hcalm (fun _ _ => following_path hcalm hkeyed _ _) _ _

/-! ## Steps -/

theorem inputsFailed_path (hkeyed : Keyed scene) (step : Step) (message : String) :
    Ensures (inputsFailed scene turn step message) (Path scene assigns turn) := by
  unfold inputsFailed
  simp only
  split_ifs
  · exact (path_record _ _ _).ensures (goFrom_path hcalm hkeyed _ _)
  · exact (path_record _ _ _).ensures (finish_path hcalm _ _ _)

theorem stopForBudget_path (message : String) :
    Ensures (stopForBudget scene turn message) (Path scene assigns turn) :=
  finish_path hcalm _ _ _

theorem sendAction_path (hkeyed : Keyed scene) (step : Step) (fields : RequestFields) :
    Ensures (sendAction scene turn step fields) (Path scene assigns turn) := by
  unfold sendAction
  refine Path.reading fun result _ => ?_
  cases result with
  | error message => exact inputsFailed_path hcalm hkeyed _ _
  | ok filled =>
      simp only
      split
      · exact stopForBudget_path hcalm _
      · split
        · exact Ensures.error
        · exact Ensures.ok (path_move rfl rfl)

omit hcalm in
theorem assign_path (hassigns : assigns) (name value : String) :
    Path scene assigns turn (assign scene turn name value).1 := by
  unfold assign
  split
  · exact .single (.write _ hassigns)
  · rename_i type htype
    split
    · exact .refl turn
    · exact .single (.place (.inl (by simp [htype])))

omit hcalm in
theorem setValues_path (hassigns : assigns) (written : Record String String)
    (values : List NamedValue) :
    Ensures (setValues scene turn written values) fun result =>
      Path scene assigns turn result.1 := by
  induction values generalizing turn written with
  | nil => exact Ensures.ok (.refl turn)
  | cons value rest ih =>
      unfold setValues
      refine (Ensures.trivial _).bind fun result _ => ?_
      cases result with
      | error message => exact Ensures.ok (.refl turn)
      | ok found =>
          have hassign : Path scene assigns turn
              (assign scene turn value.name (asText scene.lib.numerals found)).1 :=
            assign_path hassigns _ _
          simp only
          generalize assign scene turn value.name (asText scene.lib.numerals found) = placed
            at hassign ⊢
          obtain ⟨after, result⟩ := placed
          cases result with
          | error message => exact Ensures.ok hassign
          | ok placed => exact (ih _).mono fun _ hpath => hassign.trans hpath

theorem runSet_path (hkeyed : Keyed scene) {step : Step} {values : List NamedValue}
    (hindexed : Indexed scene step) (hfields : step.head.fields = .setStep values) :
    Ensures (runSet scene turn step values) (Path scene assigns turn) := by
  have hassigns : assigns := hcalm.resolve_left fun h => by
    have hkind := (h.kinds step hindexed).1
    simp [StepHead.kind, hfields, Fields.kind] at hkind
  unfold runSet
  refine (setValues_path hassigns [] values).bind fun result hresult => ?_
  obtain ⟨after, result⟩ := result
  cases result with
  | error message =>
      exact (hresult.trans (path_record _ _ _)).ensures (finish_path hcalm _ _ _)
  | ok written =>
      exact (hresult.trans (path_record _ _ _)).ensures (continueFrom_path hcalm hkeyed _ _)

theorem runIf_path (hkeyed : Keyed scene) (step : Step) (fields : IfFields) :
    Ensures (runIf scene turn step fields) (Path scene assigns turn) := by
  unfold runIf
  simp only
  refine Path.reading fun title _ => ?_
  exact (path_record _ _ _).ensures (continueFrom_path hcalm hkeyed _ _)

theorem runCases_path (hkeyed : Keyed scene) (step : Step) (fields : SwitchFields) (position : Nat)
    (checks : List Check) (cases : List Case) :
    Ensures (runCases scene turn step fields position checks cases) (Path scene assigns turn) := by
  induction cases generalizing position checks with
  | nil =>
      unfold runCases
      refine Path.reading fun title _ => ?_
      exact (path_record _ _ _).ensures (continueFrom_path hcalm hkeyed _ _)
  | cons entry rest ih =>
      unfold runCases
      simp only
      split_ifs
      · refine Path.reading fun title _ => ?_
        exact (path_record _ _ _).ensures (continueFrom_path hcalm hkeyed _ _)
      · exact ih _ _

theorem runForEach_path (hkeyed : Keyed scene) {step : Step} {fields : ForEachFields}
    (hindexed : Indexed scene step) (hfields : step.head.fields = .forEach fields) :
    Ensures (runForEach scene turn step fields) (Path scene assigns turn) := by
  have hassigns : assigns := hcalm.resolve_left fun h => by
    have hkind := (h.kinds step hindexed).2
    simp [StepHead.kind, hfields, Fields.kind] at hkind
  unfold runForEach
  refine Path.reading fun title _ => ?_
  split
  · exact (path_record _ _ _).ensures (finish_path hcalm _ _ _)
  · exact (path_record _ _ _).ensures (continueFrom_path hcalm hkeyed _ _)
  · exact (Path.single (.item hassigns)).ensures (bindItem_path hcalm hindexed hfields _ _)

omit hcalm in
theorem runRepeat_path {step : Step} {fields : RepeatFields} (hindexed : Indexed scene step)
    (hfields : step.head.fields = .repeatStep fields) :
    Ensures (runRepeat scene turn step fields) (Path scene assigns turn) := by
  unfold runRepeat
  refine (Path.single (.enter hindexed hfields)).ensures ?_
  refine beginPass_path hindexed hfields ?_ _ _
  simp [pushFrame, Frame.step]

theorem runFlow_path (step : Step) (fields : FlowFields) :
    Ensures (runFlow scene turn step fields) (Path scene assigns turn) := by
  unfold runFlow
  split_ifs
  · exact stopForBudget_path hcalm _
  · exact Ensures.ok (path_move rfl rfl)

theorem runParallel_path (hkeyed : Keyed scene) (step : Step) (fields : ParallelFields) :
    Ensures (runParallel scene turn step fields) (Path scene assigns turn) := by
  unfold runParallel
  refine Path.reading fun built _ => ?_
  split
  · exact inputsFailed_path hcalm hkeyed _ _
  · simp only
    split_ifs
    · exact stopForBudget_path hcalm _
    · exact Ensures.ok (path_move rfl rfl)
    · exact Ensures.ok (path_move rfl rfl)

theorem runStep_path (hkeyed : Keyed scene) {step : Step} (hindexed : Indexed scene step) :
    Ensures (runStep scene turn step) (Path scene assigns turn) := by
  unfold runStep
  split
  · exact sendAction_path hcalm hkeyed _ _
  · rename_i hfields
    exact runSet_path hcalm hkeyed hindexed hfields
  · exact runIf_path hcalm hkeyed _ _
  · exact runCases_path hcalm hkeyed _ _ _ _ _
  · rename_i hfields
    exact runForEach_path hcalm hkeyed hindexed hfields
  · rename_i hfields
    exact runRepeat_path hindexed hfields
  · exact runFlow_path hcalm _ _
  · exact runParallel_path hcalm hkeyed _ _
  · exact Ensures.ok (path_move rfl rfl)
  · exact (path_record _ _ _).ensures (finish_path hcalm _ _ _)
  · exact Ensures.error

theorem proceedStep_path (hkeyed : Keyed scene) :
    Ensures (proceedStep scene turn) (Path scene assigns turn) := by
  unfold proceedStep
  split_ifs
  · exact finish_path hcalm _ _ _
  · refine Path.reading fun entry hentry => ?_
    refine Path.ensures ?_ (runStep_path hcalm hkeyed (indexed_of_entryOf hkeyed hentry).2)
    exact path_move rfl rfl

theorem proceed_path (hkeyed : Keyed scene) : Ensures (proceed scene turn) (Path scene assigns turn) := by
  have hrounds : ∀ rounds turn, Ensures (proceedFor scene rounds turn) (Path scene assigns turn) := by
    intro rounds
    induction rounds with
    | zero =>
        intro turn
        unfold proceedFor
        split_ifs
        · exact Ensures.ok (.refl turn)
        · exact Ensures.error
    | succ rounds ih =>
        intro turn
        unfold proceedFor
        split_ifs
        · exact Ensures.ok (.refl turn)
        · refine Path.bind (proceedStep_path hcalm hkeyed) fun next hnext => ?_
          exact hnext.ensures (ih next)
  exact hrounds _ _

end Moves

end Paths

end Gostman.Flows
