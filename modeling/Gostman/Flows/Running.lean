import Gostman.Flows.Moves
/-!
# Running the steps

Every kind of step, run where the turn stands, ends without a fault in a turn
that stands somewhere, and `proceed` ends in a turn with an action.
-/

namespace Gostman.Flows

open Gostman.Lib Gostman.Js

/-! ## Inputs -/

theorem resolvedInputs_yields {ε : Type} (lib : Library)
    {read : String → Source → String → Except ε (Except String (Option Json))}
    {inputs : List (StepInput × Bool)}
    (hread : ∀ input ∈ inputs, ∀ {step source path},
      input.1.value.reading = .response step source path → ∃ found, read step source path = .ok found) :
    ∃ result, resolvedInputs lib read inputs = .ok result := by
  induction inputs with
  | nil => exact ⟨_, rfl⟩
  | cons input rest ih =>
      obtain ⟨input, exact⟩ := input
      obtain ⟨others, hothers⟩ := ih fun other hother => hread other (by simp [hother])
      unfold resolvedInputs
      cases hreading : input.value.reading with
      | template value =>
          simp only [hothers]
          cases others <;> exact ⟨_, rfl⟩
      | response step source path =>
          obtain ⟨found, hfound⟩ := hread (input, exact) (by simp) hreading
          simp only [hfound, hothers]
          cases found with
          | error message => exact ⟨_, rfl⟩
          | ok value => cases others <;> exact ⟨_, rfl⟩

theorem resolveInputs_yields {ε : Type} (lib : Library)
    {read : String → Source → String → Except ε (Except String (Option Json))}
    {inputs : List (StepInput × Bool)}
    (hread : ∀ input ∈ inputs, ∀ {step source path},
      input.1.value.reading = .response step source path → ∃ found, read step source path = .ok found) :
    ∃ result, resolveInputs lib inputs read = .ok result := by
  obtain ⟨resolved, hresolved⟩ := resolvedInputs_yields lib hread
  unfold resolveInputs
  rw [hresolved]
  cases resolved <;> exact ⟨_, rfl⟩

/-- An input whose value is taken from a local variable reads no response. -/
theorem reading_typedInput {scene : Scene} {turn : Turn} {input : StepInput} {step : String}
    {source : Source} {path : String}
    (h : (typedInput scene turn input).1.value.reading = .response step source path) :
    input.value.reading = .response step source path := by
  unfold typedInput at h
  simp only at h
  split at h
  · split_ifs at h
    exact h
  · exact h

section Steps

variable {scene : Scene} (hready : Ready scene) {history : List LoopEvent} {turn : Turn} {spot : Spot}

include hready

theorem fillInputs_yields (turn : Turn) (hspot : spot ∈ trailWalk scene.flow.steps)
    {fields : RequestFields} (hfields : spot.item.head.fields = .request fields) :
    ∃ result, fillInputs scene turn fields = .ok result := by
  apply resolveInputs_yields
  intro input hinput step source path hreading
  obtain ⟨raw, hraw, rfl⟩ := List.mem_map.1 hinput
  obtain ⟨title, htitle⟩ := titleOf_yields
    (hready.input_readable hspot hfields hraw (reading_typedInput hreading))
  unfold readInput
  rw [htitle]
  exact ⟨_, rfl⟩

theorem inputsFailed_moved (hat : LeftAt scene history turn spot) (message : String) :
    Yields (inputsFailed scene turn spot.item message)
      (Moved scene history turn.state.sends turn.state.quiet) := by
  unfold inputsFailed
  simp only
  split_ifs with hne
  · refine goFrom_moved hready (hat.record _ _ _) ?_
    cases honFailure : spot.item.head.fields.onFailure? with
    | none => simp [honFailure] at hne
    | some target => exact isRoute_onFailure honFailure
  · exact finish_moved hready (hat.record _ _ _).sane _ _ _

omit hready in
theorem asking_reached (hat : LeftAt scene history turn spot)
    (hstep : turn.state.atStep = spot.item.head.id) {action : Action} (hasks : Asks spot.item action)
    {sends : Int} (hsends : sends = turn.state.sends + action.direct)
    (hwithin : turn.state.sends ≤ sendLimit scene → sends + action.granted ≤ sendLimit scene) :
    Reached scene history turn.state.sends turn.state.quiet
      { turn with state := { turn.state with sends := sends }, action := some action } where
  sane := hat.sane.congr rfl rfl rfl rfl
  standing := .asking hat.mem hat.inLoops hstep hat.frames_eq hasks rfl
  sends_eq := by simpa [Turn.direct] using hsends
  quiet_eq := rfl
  within := by simpa [Turn.granted] using hwithin

theorem sendAction_reached (hat : LeftAt scene history turn spot)
    (hstep : turn.state.atStep = spot.item.head.id) {fields : RequestFields}
    (hfields : spot.item.head.fields = .request fields) :
    Yields (sendAction scene turn spot.item fields)
      (Reached scene history turn.state.sends turn.state.quiet) := by
  obtain ⟨filled, hfilled⟩ := fillInputs_yields hready turn hat.mem hfields
  obtain ⟨request, hrequest⟩ := hready.request_resolved hat.mem hfields
  unfold sendAction
  simp only [hfilled, hrequest]
  cases filled with
  | error message => exact (inputsFailed_moved hready hat message).mono fun _ h => h.reached
  | ok filled =>
      change Yields (if isOverBudget scene turn = true then _ else _) _
      by_cases hover : isOverBudget scene turn = true
      · rw [if_pos hover]
        exact (finish_moved hready hat.sane _ _ _).mono fun _ h => h.reached
      · rw [if_neg hover]
        simp only [isOverBudget, decide_eq_true_eq, ge_iff_le, not_le] at hover
        refine Yields.ok (asking_reached hat hstep (.send hfields rfl) rfl fun _ => ?_)
        simp only [Action.granted, Action.flows, List.map_nil, List.sum_nil]
        omega

/-! ## Assignments -/

theorem declared_of_types {name : String} {type : VariableType}
    (h : scene.types.read name = some type) : name ∈ scene.flow.vars.map Declared.name := by
  have hkey : name ∈ scene.types.keys := by
    by_contra hnot
    rw [(Record.read_eq_none_iff _ _).2 hnot] at h
    cases h
  rw [hready.types_eq, declaredTypes, Record.ofEntries, Record.mem_keys_overlay] at hkey
  simp only [Record.keys, List.map_nil, List.not_mem_nil, false_or, List.map_map, List.mem_map,
    namedDeclared, List.mem_filter] at hkey
  obtain ⟨declared, ⟨hmem, -⟩, rfl⟩ := hkey
  exact List.mem_map.2 ⟨declared, hmem, rfl⟩

omit hready in
/-- Nothing but variables changes: the step, the frames and the counts stay. -/
def OnlyVariables (before after : Turn) : Prop :=
  after.state.atStep = before.state.atStep ∧ after.state.sends = before.state.sends ∧
    after.state.quiet = before.state.quiet ∧ after.state.attempt = before.state.attempt

omit hready in
theorem OnlyVariables.trans {first second third : Turn} (h : OnlyVariables first second)
    (h' : OnlyVariables second third) : OnlyVariables first third :=
  ⟨h'.1.trans h.1, h'.2.1.trans h.2.1, h'.2.2.1.trans h.2.2.1, h'.2.2.2.trans h.2.2.2⟩

theorem assign_left (hat : LeftAt scene history turn spot) (name value : String) :
    LeftAt scene history (assign scene turn name value).1 spot ∧
      OnlyVariables turn (assign scene turn name value).1 := by
  unfold assign
  cases htype : scene.types.read name with
  | none => exact ⟨{ hat with sane := hat.sane.write _ }, rfl, rfl, rfl, rfl⟩
  | some type =>
      simp only
      cases coerce scene.lib value type with
      | none => exact ⟨hat, rfl, rfl, rfl, rfl⟩
      | some typed =>
          refine ⟨{ hat with sane := ?_ }, rfl, rfl, rfl, rfl⟩
          exact
            { fit :=
                { kinds := hat.sane.fit.kinds
                  log := hat.sane.fit.log
                  locals_nodup := Record.nodup_put hat.sane.fit.locals_nodup _ _
                  locals_declared := by
                    intro other hother
                    rcases Record.mem_keys_put.1 hother with rfl | hmem
                    · exact declared_of_types hready htype
                    · exact hat.sane.fit.locals_declared other hmem }
              bounds := hat.sane.bounds
              writes_nodup := hat.sane.writes_nodup }

theorem assignAll_left (hat : LeftAt scene history turn spot) (assigned : Record String String)
    (values : List (String × Json)) :
    LeftAt scene history (assignAll scene turn assigned values).1 spot ∧
      OnlyVariables turn (assignAll scene turn assigned values).1 := by
  induction values generalizing turn assigned with
  | nil => exact ⟨hat, rfl, rfl, rfl, rfl⟩
  | cons entry rest ih =>
      obtain ⟨name, value⟩ := entry
      have h := assign_left hready hat name (asText scene.lib.numerals (some value))
      unfold assignAll
      generalize assign scene turn name (asText scene.lib.numerals (some value)) = placed at h
      obtain ⟨after, result⟩ := placed
      cases result with
      | error message => exact h
      | ok placed =>
          have hrest := ih h.1 (assigned.put name placed)
          exact ⟨hrest.1, h.2.trans hrest.2⟩

theorem setValues_yields (hat : LeftAt scene history turn spot)
    {fields : List NamedValue} (hfields : spot.item.head.fields = .setStep fields)
    (written : Record String String) {values : List NamedValue} (hsub : values ⊆ fields) :
    Yields (setValues scene turn written values) fun result =>
      LeftAt scene history result.1 spot ∧ OnlyVariables turn result.1 := by
  induction values generalizing turn written with
  | nil => exact Yields.ok ⟨hat, rfl, rfl, rfl, rfl⟩
  | cons value rest ih =>
      obtain ⟨hvalue, hrest⟩ := List.cons_subset.1 hsub
      obtain ⟨read, hread⟩ := setValue_yields turn fun hreading =>
        hready.set_readable hat.mem hfields hvalue hreading
      unfold setValues
      simp only [hread, ok_bind]
      cases read with
      | error message => exact Yields.ok ⟨hat, rfl, rfl, rfl, rfl⟩
      | ok found =>
          have h := assign_left hready hat value.name (asText scene.lib.numerals found)
          simp only
          generalize assign scene turn value.name (asText scene.lib.numerals found) = placed at h
          obtain ⟨after, result⟩ := placed
          cases result with
          | error message => exact Yields.ok h
          | ok placed =>
              refine (ih h.1 (written.put value.name placed) hrest).mono fun result hresult => ?_
              exact ⟨hresult.1, h.2.trans hresult.2⟩

theorem runSet_moved (hat : LeftAt scene history turn spot)
    {values : List NamedValue} (hfields : spot.item.head.fields = .setStep values) :
    Yields (runSet scene turn spot.item values)
      (Moved scene history turn.state.sends turn.state.quiet) := by
  unfold runSet
  refine (setValues_yields hready hat hfields [] (List.Subset.refl values)).bind ?_
  rintro ⟨after, result⟩ ⟨hafter, -, hsends, hquiet, -⟩
  simp only at hsends hquiet
  rw [← hsends, ← hquiet]
  cases result with
  | error message => exact finish_moved hready (hafter.record _ _ _).sane _ _ _
  | ok written => exact continueFrom_moved hready (hafter.record _ _ _) (.inl rfl)

/-! ## Choices -/

theorem nextTitle_yields (hspot : spot ∈ trailWalk scene.flow.steps) {target : String}
    (hroute : IsRoute spot.item target) : ∃ title, nextTitle scene spot.item target = .ok title := by
  unfold nextTitle
  split_ifs with hne
  · exact targetTitle_yields hready hspot hroute hne
  · simp only [entryOf_yields hready hspot]
    simp only [ok_bind, Outline.Spot.mapParent]
    cases hnext : spot.list[spot.position + 1]? with
    | some next =>
        exact titleOf_yields ⟨_, hready.read_index (sibling_mem_trailWalk hspot hnext)⟩
    | none =>
        simp only
        split_ifs with hparent
        · exact ⟨_, rfl⟩
        · have hne : spot.parent ≠ [] := fun h => hparent (by simp [h])
          obtain ⟨outer, houter, -, houterParent, -⟩ := exists_outer hspot hne
          have hlast : lastId spot.parent = outer.item.head.id := by
            simp [houterParent]
          rw [hlast, entryOf_yields hready houter]
          exact ⟨_, rfl⟩

theorem runIf_moved (hat : LeftAt scene history turn spot) {fields : IfFields}
    (hfields : spot.item.head.fields = .ifStep fields) :
    Yields (runIf scene turn spot.item fields)
      (Moved scene history turn.state.sends turn.state.quiet) := by
  unfold runIf
  simp only
  generalize evaluateConditions scene.lib fields.source fields.mode fields.conditions
    (conditionSubject turn fields.step) (variablesOf scene turn) scene.types = result
  have hroute : IsRoute spot.item (if result.passed = true then fields.thenTo else fields.elseTo) := by
    split_ifs
    · exact isRoute_thenTo (by simp [hfields, Fields.thenTo?])
    · exact isRoute_elseTo (by simp [hfields, Fields.elseTo?])
  obtain ⟨title, htitle⟩ := nextTitle_yields hready hat.mem (isRoute_orNext hroute)
  rw [orNext, htitle]
  exact continueFrom_moved hready (hat.record _ _ _) hroute

theorem runCases_moved (hat : LeftAt scene history turn spot) {fields : SwitchFields}
    (hfields : spot.item.head.fields = .switch fields) (position : Nat) (checks : List Check)
    {cases : List Case} (hsub : cases ⊆ fields.cases) :
    Yields (runCases scene turn spot.item fields position checks cases)
      (Moved scene history turn.state.sends turn.state.quiet) := by
  induction cases generalizing position checks with
  | nil =>
      have hroute : IsRoute spot.item fields.elseTo := isRoute_elseTo (by simp [hfields, Fields.elseTo?])
      obtain ⟨title, htitle⟩ := nextTitle_yields hready hat.mem (isRoute_orNext hroute)
      unfold runCases
      rw [orNext, htitle]
      exact continueFrom_moved hready (hat.record _ _ _) hroute
  | cons entry rest ih =>
      obtain ⟨hentry, hrest⟩ := List.cons_subset.1 hsub
      unfold runCases
      simp only
      split_ifs with hpassed
      · have hroute := isRoute_case hfields hentry
        obtain ⟨title, htitle⟩ := nextTitle_yields hready hat.mem (isRoute_orNext hroute)
        rw [orNext, htitle]
        exact continueFrom_moved hready (hat.record _ _ _) hroute
      · exact ih _ _ hrest

/-! ## Loops -/

omit hready in
/-- A new frame of a loop, with the log it needs. -/
theorem pushFrame_inside (hat : LeftAt scene history turn spot) (frame : Frame)
    (hstep : frame.step = spot.item.head.id) (hkind : FrameKind scene.flow frame)
    (hbounds : frame.InBounds) {events : List LoopEvent}
    (hlog : bracket (history ++ (turn.loops ++ events)) =
      some ((openLoop scene.flow frame).toList ++ openLoops scene.flow turn.state.frames)) :
    InsideAt scene history (pushFrame { turn with loops := turn.loops ++ events } frame) spot frame where
  sane :=
    { fit :=
        { kinds := by
            intro other hother
            rcases List.mem_append.1 hother with hmem | hmem
            · exact hat.sane.fit.kinds other hmem
            · exact List.mem_singleton.1 hmem ▸ hkind
          log := by
            simp only [pushFrame, openLoops_snoc]
            exact hlog
          locals_nodup := hat.sane.fit.locals_nodup
          locals_declared := hat.sane.fit.locals_declared }
      bounds := by
        intro other hother
        rcases List.mem_append.1 hother with hmem | hmem
        · exact hat.sane.bounds other hmem
        · exact List.mem_singleton.1 hmem ▸ hbounds
      writes_nodup := hat.sane.writes_nodup }
  mem := hat.mem
  inLoops := hat.inLoops
  frames_eq := ⟨turn.state.frames, rfl, hat.frames_eq⟩
  step_eq := hstep
  action_eq := hat.action_eq

theorem openLoop_of_spot (hspot : spot ∈ trailWalk scene.flow.steps) {frame : Frame}
    (hstep : frame.step = spot.item.head.id) :
    openLoop scene.flow frame = match spot.item.head.fields with
      | .repeatStep fields => some ⟨frame.step, fields.indexAs, frame.shadowed⟩
      | _ => none := by
  rw [openLoop, hstep, ← hready.index_eq, hready.read_index hspot]
  rfl

theorem runForEach_moved (hat : LeftAt scene history turn spot) {fields : ForEachFields}
    (hfields : spot.item.head.fields = .forEach fields) :
    Yields (runForEach scene turn spot.item fields)
      (Moved scene history turn.state.sends turn.state.quiet) := by
  obtain ⟨title, htitle⟩ := titleOf_yields (hready.forEach_readable hat.mem hfields)
  unfold runForEach
  simp only [htitle, ok_bind]
  cases listItems scene.lib (turn.state.responses.read fields.step) fields.path title with
  | error message => exact finish_moved hready (hat.record _ _ _).sane _ _ _
  | ok items =>
      cases items with
      | nil => exact continueFrom_moved hready (hat.record _ _ _) (.inl rfl)
      | cons first rest =>
          have hlog : bracket (history ++ (turn.loops ++ [])) =
              some ((openLoop scene.flow (.item spot.item.head.id (first :: rest) 0)).toList ++
                openLoops scene.flow turn.state.frames) := by
            rw [openLoop_of_spot hready hat.mem rfl, hfields, List.append_nil]
            exact hat.sane.fit.log
          have hin := pushFrame_inside hat (.item spot.item.head.id (first :: rest) 0) rfl
            ⟨spot, hat.mem, rfl, fields, hfields⟩ (Nat.succ_pos _) hlog
          rw [List.append_nil] at hin
          exact bindItem_moved hready hin hfields (first :: rest) 0

theorem runRepeat_moved (hat : LeftAt scene history turn spot) {fields : RepeatFields}
    (hfields : spot.item.head.fields = .repeatStep fields) :
    Yields (runRepeat scene turn spot.item fields)
      (Moved scene history turn.state.sends turn.state.quiet) := by
  let shadowed := shadowOf scene turn fields.indexAs
  have hlog : bracket (history ++ (turn.loops ++ [.opened spot.item.head.id fields.indexAs shadowed])) =
      some ((openLoop scene.flow (.pass spot.item.head.id 0 fields.times shadowed)).toList ++
        openLoops scene.flow turn.state.frames) := by
    rw [openLoop_of_spot hready hat.mem rfl, hfields, ← List.append_assoc, bracket_snoc,
      hat.sane.fit.log]
    rfl
  have hin := pushFrame_inside hat (.pass spot.item.head.id 0 fields.times shadowed) rfl
    ⟨spot, hat.mem, rfl, fields, hfields⟩ (hready.repeat_fields hat.mem hfields).1 hlog
  exact beginPass_moved hready hin hfields 0 fields.times

/-! ## Flows and branches -/

theorem runFlow_reached (hat : LeftAt scene history turn spot)
    (hstep : turn.state.atStep = spot.item.head.id) {fields : FlowFields}
    (hfields : spot.item.head.fields = .flow fields) :
    Yields (runFlow scene turn spot.item fields)
      (Reached scene history turn.state.sends turn.state.quiet) := by
  unfold runFlow
  split_ifs with hover
  · exact (finish_moved hready hat.sane _ _ _).mono fun _ h => h.reached
  · simp only [isOverBudget, decide_eq_true_eq, ge_iff_le, not_le] at hover
    refine Yields.ok ?_
    let action := flowAction scene turn spot.item fields (sendLimit scene - turn.state.sends).toNat
    have hasks : Asks spot.item (.flow action) := .flow hfields rfl
    have hsends : turn.state.sends = turn.state.sends + (Action.flow action).direct := by
      simp [Action.direct]
    have hgranted : ((Action.flow action).granted : Int) = sendLimit scene - turn.state.sends := by
      simp only [Action.granted, Action.flows, List.map_cons, List.map_nil, List.sum_singleton]
      exact Int.toNat_of_nonneg (by omega)
    have h := asking_reached hat hstep hasks hsends fun _ => by
      rw [hgranted]
      omega
    exact h

/-- A branch of a Parallel step is built, unless one of its inputs cannot be
read. -/
theorem branchAction_yields (turn : Turn) (hspot : spot ∈ trailWalk scene.flow.steps)
    (hparallel : spot.item.head.kind = .parallel) {branch : Step} (hbranch : branch ∈ spot.item.inner) :
    Yields (branchAction scene turn branch) fun result =>
      ∀ built, result = .ok built → BranchOf branch built := by
  obtain ⟨position, hposition⟩ := List.mem_iff_getElem?.1 hbranch
  have hopens : opensInner spot.item.head = true := by
    simp [opensInner, hparallel, Kind.isContainer]
  have hget : (innerSteps spot.item)[position]? = some branch := by
    simpa [innerSteps, Outline.shown, hopens] using hposition
  have hmem := inner_mem_trailWalk hspot hget
  have hisBranch := (hready.isBranch_iff hmem).2 ⟨spot, hspot, rfl, hparallel⟩
  unfold branchAction
  rcases hready.branch_kind hmem hisBranch with hkind | hkind
  · obtain ⟨fields, hfields⟩ : ∃ fields, branch.head.fields = .request fields := by
      simp only [StepHead.kind] at hkind
      cases hfields : branch.head.fields <;> simp [hfields, Fields.kind] at hkind
      exact ⟨_, rfl⟩
    obtain ⟨filled, hfilled⟩ := fillInputs_yields hready turn hmem hfields
    obtain ⟨request, hrequest⟩ := hready.request_resolved hmem hfields
    simp only [hfields, hfilled, hrequest]
    cases filled with
    | error message => exact Yields.ok (by simp)
    | ok filled =>
        refine Yields.ok fun built hbuilt => ?_
        obtain rfl := Except.ok.inj hbuilt
        exact ⟨hkind, rfl⟩
  · obtain ⟨fields, hfields⟩ : ∃ fields, branch.head.fields = .flow fields := by
      simp only [StepHead.kind] at hkind
      cases hfields : branch.head.fields <;> simp [hfields, Fields.kind] at hkind
      exact ⟨_, rfl⟩
    simp only [hfields]
    refine Yields.ok fun built hbuilt => ?_
    obtain rfl := Except.ok.inj hbuilt
    exact ⟨hkind, rfl⟩

omit hready in
theorem forall_builtBranches {steps : List Step} {built : List (Except String Branch)}
    (hbuilt : List.Forall₂ (fun step result => ∀ branch, result = .ok branch → BranchOf step branch)
      steps built) {branches : List Branch} (h : builtBranches built = .ok branches) :
    List.Forall₂ BranchOf steps branches := by
  induction hbuilt generalizing branches with
  | nil =>
      obtain rfl := Except.ok.inj h
      exact .nil
  | @cons step result _ _ hresult _ ih =>
      cases result with
      | error message => simp [builtBranches] at h
      | ok branch =>
          unfold builtBranches at h
          cases hothers : builtBranches _ with
          | error message =>
              rw [hothers] at h
              cases h
          | ok others =>
              rw [hothers] at h
              obtain rfl := Except.ok.inj h
              exact .cons (hresult branch rfl) (ih hothers)

omit hready in
/-- The budget handed to the flow branches is what each of them gets, once for
each. -/
theorem granted_branches (branches : List Branch) (share : Nat) :
    (((branches.map (Branch.withSendsLeft share)).filterMap Branch.flow?).map
        FlowAction.sendsLeft).sum =
      (branches.length - (branches.filter Branch.isSend).length) * share := by
  have hle := List.length_filter_le Branch.isSend branches
  induction branches with
  | nil => simp
  | cons branch rest ih =>
      have hrest := List.length_filter_le Branch.isSend rest
      cases branch with
      | send title action =>
          simp only [List.map_cons, Branch.withSendsLeft, List.filterMap_cons, Branch.flow?, ih hrest,
            List.length_cons, List.filter_cons, Branch.isSend]
          simp
      | flow action =>
          simp only [List.map_cons, Branch.withSendsLeft, List.filterMap_cons, Branch.flow?,
            List.sum_cons, ih hrest, List.length_cons, List.filter_cons, Branch.isSend]
          simp only [Bool.false_eq_true, if_false]
          rw [Nat.sub_add_comm hrest, Nat.add_mul, Nat.one_mul, Nat.add_comm]

theorem runParallel_reached (hat : LeftAt scene history turn spot)
    (hstep : turn.state.atStep = spot.item.head.id) {fields : ParallelFields}
    (hfields : spot.item.head.fields = .parallel fields) :
    Yields (runParallel scene turn spot.item fields)
      (Reached scene history turn.state.sends turn.state.quiet) := by
  have hparallel : spot.item.head.kind = .parallel := by simp [StepHead.kind, hfields, Fields.kind]
  unfold runParallel
  refine (Yields.mapM fun branch hbranch =>
    branchAction_yields hready turn hat.mem hparallel hbranch).bind fun built hbuilt => ?_
  cases hbranches : builtBranches built with
  | error message => exact (inputsFailed_moved hready hat message).mono fun _ h => h.reached
  | ok branches =>
      have hforall := forall_builtBranches hbuilt hbranches
      simp only
      generalize hsends : (branches.filter Branch.isSend).length = sends
      by_cases hover : turn.state.sends + sends > sendLimit scene
      · rw [if_pos hover]
        exact (finish_moved hready hat.sane _ _ _).mono fun _ h => h.reached
      · rw [if_neg hover]
        generalize hshare : (if branches.length - sends > 0 then
            (sendLimit scene - (turn.state.sends + sends)).toNat / (branches.length - sends)
          else 0) = share
        refine Yields.ok (asking_reached hat hstep (.parallel hfields ?_) ?_ fun _ => ?_)
        · rw [List.forall₂_map_right_iff]
          refine hforall.imp fun step branch h => ?_
          cases branch <;> exact h
        · have hfilter : ((branches.map (Branch.withSendsLeft share)).filter Branch.isSend).length =
              sends := by
            rw [← hsends, List.filter_map, List.length_map]
            congr 1
            apply List.filter_congr
            intro branch _
            cases branch <;> rfl
          simp [Action.direct, hfilter]
        · simp only [Action.granted, Action.flows, granted_branches, hsends]
          have hmul : (branches.length - sends) * share ≤
              (sendLimit scene - (turn.state.sends + sends)).toNat := by
            rw [← hshare]
            split_ifs
            · exact Nat.mul_div_le _ _
            · simp
          omega

/-! ## Every step -/

theorem runStep_reached (hat : LeftAt scene history turn spot)
    (hstep : turn.state.atStep = spot.item.head.id) :
    Yields (runStep scene turn spot.item)
      (Reached scene history turn.state.sends turn.state.quiet) := by
  unfold runStep
  cases hfields : spot.item.head.fields with
  | request fields => exact sendAction_reached hready hat hstep hfields
  | setStep values => exact (runSet_moved hready hat hfields).mono fun _ h => h.reached
  | ifStep fields => exact (runIf_moved hready hat hfields).mono fun _ h => h.reached
  | switch fields => exact (runCases_moved hready hat hfields 0 [] (List.Subset.refl _)).mono fun _ h => h.reached
  | forEach fields => exact (runForEach_moved hready hat hfields).mono fun _ h => h.reached
  | repeatStep fields => exact (runRepeat_moved hready hat hfields).mono fun _ h => h.reached
  | flow fields => exact runFlow_reached hready hat hstep hfields
  | parallel fields => exact runParallel_reached hready hat hstep hfields
  | delay ms =>
      exact Yields.ok (asking_reached hat hstep (.wait hfields) (by simp [Action.direct])
        (by simp [Action.granted, Action.flows]))
  | endStep fields => exact (finish_moved hready (hat.record _ _ _).sane _ _ _).mono fun _ h => h.reached
  | unknown name =>
      exact absurd (by simp [StepHead.kind, hfields, Fields.kind]) (hready.kind_ne_unknown hat.mem name)

end Steps

/-! ## Until an action -/

def Turn.isDone (turn : Turn) : Prop :=
  ∃ outcome message outputs vars budget,
    turn.action = some (.done outcome message outputs vars budget)

/-- What a whole turn comes to that starts its steps with these counts. -/
structure Turned (scene : Scene) (history : List LoopEvent) (sends : Int) (quiet : Nat)
    (turn : Turn) : Prop where
  sane : Sane scene history turn
  standing : Standing scene.flow turn
  acts : turn.action ≠ none
  sends_eq : turn.state.sends = sends + turn.direct
  quiet_le : quiet ≤ turn.state.quiet
  quiet_max : quiet ≤ maxQuietSteps → turn.state.quiet ≤ maxQuietSteps
  within : sends ≤ sendLimit scene → turn.state.sends + turn.granted ≤ sendLimit scene

theorem isDone_of_finishWith {scene : Scene} {turn after : Turn} {outcome : Outcome}
    {message : String} {outputs : Record String String} {budget : Bool}
    (h : finishWith scene turn outcome message outputs budget = .ok after) : after.isDone := by
  unfold finishWith at h
  cases hleft : leaveLoops scene turn 0 with
  | error fault =>
      rw [hleft] at h
      cases h
  | ok left =>
      rw [hleft] at h
      obtain rfl := Except.ok.inj h
      exact ⟨_, _, _, _, _, rfl⟩

theorem isDone_of_finish {scene : Scene} {turn after : Turn} {outcome : Outcome} {message : String}
    {budget : Bool} (h : finish scene turn outcome message budget = .ok after) : after.isDone := by
  unfold finish at h
  cases outcome with
  | failed => exact isDone_of_finishWith h
  | passed =>
      cases hread : flowOutputs scene turn [] scene.flow.outputs with
      | error fault =>
          simp only [hread] at h
          cases h
      | ok result =>
          simp only [hread] at h
          cases result with
          | error failure => exact isDone_of_finishWith h
          | ok outputs => exact isDone_of_finishWith h

section Proceed

variable {scene : Scene} (hready : Ready scene) {history : List LoopEvent}

include hready

theorem finish_done {turn : Turn} (hsane : Sane scene history turn) (outcome : Outcome)
    (message : String) (budget : Bool) :
    Yields (finish scene turn outcome message budget) fun after =>
      Moved scene history turn.state.sends turn.state.quiet after ∧ after.isDone :=
  (finish_moved hready hsane outcome message budget).mono_eq fun _ heq h => ⟨h, isDone_of_finish heq⟩

theorem proceedStep_reached {turn : Turn} (hsane : Sane scene history turn)
    (hstanding : Standing scene.flow turn) (haction : turn.action = none) :
    Yields (proceedStep scene turn) fun after =>
      (turn.state.quiet < maxQuietSteps ∧
        Reached scene history turn.state.sends (turn.state.quiet + 1) after) ∨
      (maxQuietSteps ≤ turn.state.quiet ∧ after.isDone ∧
        Reached scene history turn.state.sends turn.state.quiet after) := by
  obtain hlanded | ⟨_, _, _, _, _, h⟩ := hstanding
  case asking => simp [haction] at h
  cases hlanded with
  | waiting _ _ _ _ _ h => simp [haction] at h
  | finished _ _ h => simp [haction] at h
  | @running spot hspot hloops hat hframes _ =>
      unfold proceedStep
      split_ifs with hquiet
      · refine (finish_done hready hsane _ _ _).mono ?_
        rintro after ⟨hafter, hdone⟩
        exact .inr ⟨hquiet, hdone, hafter.reached⟩
      · rw [hat, entryOf_yields hready hspot]
        have hleft : LeftAt scene history
            { turn with state := { turn.state with quiet := turn.state.quiet + 1 } } spot :=
          ⟨hsane.congr rfl rfl rfl rfl, hspot, hloops, hframes, haction⟩
        refine (runStep_reached hready hleft hat).mono fun after hafter => ?_
        exact .inl ⟨by omega, hafter⟩

theorem proceedFor_turned (rounds : Nat) {turn : Turn} {sends : Int} {quiet : Nat}
    (hreached : Reached scene history sends quiet turn)
    (hrounds : turn.action = none → 0 < rounds ∧ maxQuietSteps < rounds + quiet) :
    Yields (proceedFor scene rounds turn) fun after =>
      Turned scene history sends quiet after ∧
        (turn.action = none → after.isDone ∨ quiet < after.state.quiet) := by
  induction rounds generalizing turn quiet with
  | zero =>
      have haction : turn.action ≠ none := fun h => absurd (hrounds h).1 (by simp)
      rw [proceedFor, if_pos (Option.isSome_iff_ne_none.2 haction)]
      exact Yields.ok ⟨⟨hreached.sane, hreached.standing, haction, hreached.sends_eq,
        hreached.quiet_eq.ge, fun h => hreached.quiet_eq.trans_le h, hreached.within⟩,
        fun h => absurd h haction⟩
  | succ rounds ih =>
      rw [proceedFor]
      by_cases haction : turn.action = none
      · rw [if_neg (by simp [haction])]
        have hsends : turn.state.sends = sends := by
          simpa [Turn.direct, haction] using hreached.sends_eq
        obtain ⟨-, henough⟩ := hrounds haction
        refine (proceedStep_reached hready hreached.sane hreached.standing haction).bind
          fun next hnext => ?_
        rw [hsends, hreached.quiet_eq] at hnext
        rcases hnext with ⟨hquiet, hnext⟩ | ⟨hquiet, hdone, hnext⟩
        · refine (ih hnext fun _ => ⟨by omega, by omega⟩).mono fun after hafter => ?_
          obtain ⟨hturned, -⟩ := hafter
          have hle := hturned.quiet_le
          exact ⟨{ hturned with
            quiet_le := by omega
            quiet_max := fun _ => hturned.quiet_max (by omega) }, fun _ => .inr (by omega)⟩
        · obtain ⟨outcome, message, outputs, vars, budget, hact⟩ := hdone
          have hsome : next.action ≠ none := by simp [hact]
          refine (ih hnext fun h => absurd h hsome).mono_eq fun after heq hafter => ?_
          have hsame : after = next := by
            cases rounds <;> rw [proceedFor, if_pos (Option.isSome_iff_ne_none.2 hsome)] at heq <;>
              exact (Except.ok.inj heq).symm
          exact ⟨hafter.1, fun _ => .inl ⟨outcome, message, outputs, vars, budget, hsame ▸ hact⟩⟩
      · rw [if_pos (Option.isSome_iff_ne_none.2 haction)]
        exact Yields.ok ⟨⟨hreached.sane, hreached.standing, haction, hreached.sends_eq,
          hreached.quiet_eq.ge, fun h => hreached.quiet_eq.trans_le h, hreached.within⟩,
          fun h => absurd h haction⟩

/-- A turn that has come to a step goes on until it has an action. -/
theorem proceed_turned {turn : Turn} {sends : Int} {quiet : Nat}
    (hreached : Reached scene history sends quiet turn) :
    Yields (proceed scene turn) fun after =>
      Turned scene history sends quiet after ∧
        (turn.action = none → after.isDone ∨ quiet < after.state.quiet) :=
  proceedFor_turned hready (maxQuietSteps + 1) hreached fun _ => ⟨by omega, by omega⟩

end Proceed

end Gostman.Flows
