import Gostman.Flows.Standing
/-!
# Moving through the loops

Every function that moves a turn from step to step ends, without a fault, in a
turn that stands somewhere: `finish`, `enter`, the ends of the loops and
`following`.
-/

namespace Gostman.Flows

open Gostman.Lib Gostman.Js

section Variables

variable {scene : Scene} {turn : Turn}

/-- The value of a variable: a local one first, then a written one, then a
given one that is not forgotten. -/
theorem read_variablesOf (hwrites : turn.writes.keys.Nodup)
    (hlocals : turn.state.locals.keys.Nodup) (name : String) :
    (variablesOf scene turn).read name =
      (turn.state.locals.read name).or ((turn.writes.read name).or
        (if name ∈ turn.forgets then none else scene.given.read name)) := by
  rw [variablesOf, Record.read_overlay _ _ hlocals, Record.read_overlay _ _ hwrites,
    Record.read_without]

@[simp] theorem loops_write (turn : Turn) (values : Record String String) :
    (write turn values).loops = turn.loops := rfl

@[simp] theorem loops_forget (turn : Turn) (name : String) :
    (forget turn name).loops = turn.loops := rfl

theorem nodup_write (hwrites : turn.writes.keys.Nodup) (values : Record String String) :
    (write turn values).writes.keys.Nodup :=
  Record.nodup_overlay hwrites values

theorem nodup_forget (hwrites : turn.writes.keys.Nodup) (name : String) :
    (forget turn name).writes.keys.Nodup :=
  (hwrites.sublist (List.filter_sublist.map Prod.fst))

/-- A written variable that is not a local one has the value written. -/
theorem read_write (hwrites : turn.writes.keys.Nodup) (hlocals : turn.state.locals.keys.Nodup)
    {name : String} (hname : name ∉ turn.state.locals.keys) (value : String) :
    (variablesOf scene (write turn [(name, value)])).read name = some value := by
  rw [read_variablesOf (nodup_write hwrites _) hlocals]
  have hlocal : turn.state.locals.read name = none := (Record.read_eq_none_iff _ _).2 hname
  simp [write, hlocal, Record.overlay_cons]

/-- A forgotten variable that is not a local one is gone. -/
theorem read_forget (hwrites : turn.writes.keys.Nodup) (hlocals : turn.state.locals.keys.Nodup)
    {name : String} (hname : name ∉ turn.state.locals.keys) :
    (variablesOf scene (forget turn name)).read name = none := by
  rw [read_variablesOf (nodup_forget hwrites _) hlocals]
  have hlocal : turn.state.locals.read name = none := (Record.read_eq_none_iff _ _).2 hname
  have hmem : name ∈ (forget turn name).forgets := by
    simp only [forget]
    split_ifs with h
    · exact h
    · simp
  simp [forget, hlocal, Record.read_remove] at hmem ⊢
  simp [hmem]

theorem Sane.write {history : List LoopEvent} (h : Sane scene history turn)
    (values : Record String String) : Sane scene history (write turn values) where
  fit := h.fit
  bounds := h.bounds
  writes_nodup := nodup_write h.writes_nodup values

end Variables

section Moves

variable {scene : Scene} (hready : Ready scene) {history : List LoopEvent} {turn : Turn}

include hready

theorem entryOf_yields {spot : Spot} (hspot : spot ∈ trailWalk scene.flow.steps) :
    entryOf scene spot.item.head.id = .ok (spot.mapParent lastId) := by
  rw [entryOf, hready.read_index hspot]

omit hready in
theorem titleOf_yields {id : String} (h : ∃ entry, scene.index.read id = some entry) :
    ∃ title, titleOf scene id = .ok title := by
  obtain ⟨entry, hentry⟩ := h
  refine ⟨titleOfStep scene entry.item, ?_⟩
  rw [titleOf, entryOf, hentry]
  rfl

/-! ## Leaving loops -/

/-- Closing the loop of a frame puts back the value its index variable had. -/
theorem closeLoop_yields {frame : Frame} (hkind : FrameKind scene.flow frame)
    (hwrites : turn.writes.keys.Nodup) (hlocals : turn.state.locals.keys.Nodup)
    (hdeclared : ∀ name ∈ turn.state.locals.keys, name ∈ scene.flow.vars.map Declared.name) :
    Yields (closeLoop scene turn frame) fun after =>
      after.state = turn.state ∧ after.action = turn.action ∧ after.writes.keys.Nodup ∧
        after.loops = turn.loops ++ (openLoop scene.flow frame).toList.map OpenLoop.closed := by
  obtain ⟨spot, hspot, hid, -⟩ := hkind
  have hread := hready.read_index hspot
  rw [hid] at hread
  have hindex := hread
  rw [hready.index_eq] at hindex
  have hentry : entryOf scene frame.step = .ok (spot.mapParent lastId) := by rw [entryOf, hread]
  unfold closeLoop openLoop
  rw [hindex, hentry]
  simp only [ok_bind, Outline.Spot.mapParent]
  cases hfields : spot.item.head.fields
  case repeatStep fields =>
    have hname : fields.indexAs ∉ turn.state.locals.keys := fun hmem =>
      hready.indexAs_notMem_declared hspot hfields (hdeclared _ hmem)
    cases hshadowed : frame.shadowed with
    | some value =>
        exact Yields.ok ⟨rfl, rfl, nodup_write hwrites _, by
          simp [read_write hwrites hlocals hname, OpenLoop.closed]⟩
    | none =>
        exact Yields.ok ⟨rfl, rfl, nodup_forget hwrites _, by
          simp [read_forget hwrites hlocals hname, OpenLoop.closed]⟩
  all_goals exact Yields.ok ⟨rfl, rfl, hwrites, by simp⟩

/-- Leaving loops closes them, innermost first, and keeps the others. -/
theorem leaveLoops_yields (hfit : Fit scene.flow (history ++ turn.loops) turn.state) (kept : Nat)
    (hbounds : ∀ frame ∈ turn.state.frames.take kept, frame.InBounds)
    (hwrites : turn.writes.keys.Nodup) :
    Yields (leaveLoops scene turn kept) fun after =>
      after.state = { turn.state with frames := turn.state.frames.take kept } ∧
        after.action = turn.action ∧ Sane scene history after := by
  let stays := openLoops scene.flow (turn.state.frames.take kept)
  -- while the frames are closed, the log leaves open what is left of them
  let Inv (rest : List Frame) (now : Turn) : Prop :=
    (∀ frame ∈ rest, FrameKind scene.flow frame) ∧ now.state = turn.state ∧
      now.action = turn.action ∧ now.writes.keys.Nodup ∧
      bracket (history ++ now.loops) = some (rest.filterMap (openLoop scene.flow) ++ stays)
  have hstart : Inv (turn.state.frames.drop kept).reverse turn := by
    refine ⟨fun frame hframe => ?_, rfl, rfl, hwrites, ?_⟩
    · exact hfit.kinds frame (List.mem_of_mem_drop (List.mem_reverse.1 hframe))
    · rw [hfit.log]
      conv_lhs => rw [← List.take_append_drop kept turn.state.frames]
      simp only [stays, openLoops, List.reverse_append, List.filterMap_append]
  have hfold := Yields.foldlM (f := closeLoop scene) hstart fun frame rest now hnow => by
    obtain ⟨hkinds, hstate, haction, hnodup, hlog⟩ := hnow
    refine (closeLoop_yields hready (hkinds frame (by simp)) hnodup
      (by rw [hstate]; exact hfit.locals_nodup)
      (by rw [hstate]; exact hfit.locals_declared)).mono ?_
    rintro after ⟨hstate', haction', hnodup', hloops'⟩
    refine ⟨fun other hother => hkinds other (by simp [hother]), hstate'.trans hstate,
      haction'.trans haction, hnodup', ?_⟩
    cases hopen : openLoop scene.flow frame with
    | none => simpa [hloops', hopen] using hlog
    | some loop =>
        rw [hloops', hopen, ← List.append_assoc]
        simp only [Option.toList_some, List.map_cons, List.map_nil]
        rw [bracket_snoc, hlog]
        simp [hopen]
  unfold leaveLoops
  refine hfold.bind fun now hnow => ?_
  obtain ⟨-, hstate, haction, hnodup, hlog⟩ := hnow
  refine Yields.ok ⟨by simp [hstate], haction, ?_⟩
  simp only [hstate]
  exact
    { fit :=
        { kinds := fun frame hframe => hfit.kinds frame (List.mem_of_mem_take hframe)
          log := by simpa [stays] using hlog
          locals_nodup := hfit.locals_nodup
          locals_declared := hfit.locals_declared }
      bounds := hbounds
      writes_nodup := hnodup }

/-! ## The end of a run -/

omit hready in
theorem setValue_yields (turn : Turn) {value : NamedValue}
    (hreadable : ∀ {step source path}, value.reading = .response step source path →
      ∃ entry, scene.index.read step = some entry) :
    ∃ result, setValue scene turn value = .ok result := by
  unfold setValue
  cases hreading : value.reading with
  | template written => exact ⟨_, rfl⟩
  | response step source path =>
      obtain ⟨title, htitle⟩ := titleOf_yields (hreadable hreading)
      simp only [htitle]
      exact ⟨_, rfl⟩

theorem flowOutputs_yields (turn : Turn) {outputs : List NamedValue} (hsub : outputs ⊆ scene.flow.outputs)
    (values : Record String String) : ∃ result, flowOutputs scene turn values outputs = .ok result := by
  induction outputs generalizing values with
  | nil => exact ⟨_, rfl⟩
  | cons output rest ih =>
      obtain ⟨houtput, hrest⟩ := List.cons_subset.1 hsub
      unfold flowOutputs
      split_ifs with hname
      · exact ih hrest values
      · obtain ⟨result, hresult⟩ := setValue_yields turn fun hreading =>
          hready.output_readable houtput hreading
        rw [hresult]
        cases result with
        | error message => exact ⟨_, rfl⟩
        | ok value => exact ih hrest _

theorem finishWith_moved (hsane : Sane scene history turn) (outcome : Outcome) (message : String)
    (outputs : Record String String) (budget : Bool) :
    Yields (finishWith scene turn outcome message outputs budget)
      (Moved scene history turn.state.sends turn.state.quiet) := by
  unfold finishWith
  refine (leaveLoops_yields hready hsane.fit 0 (by simp) hsane.writes_nodup).bind ?_
  rintro after ⟨hstate, -, hafter⟩
  refine Yields.ok ?_
  generalize hwritten : (if scene.isNested = true then after else write after outputs) = written
  have hsaneWritten : Sane scene history written := by
    rw [← hwritten]
    split_ifs
    · exact hafter
    · exact hafter.write outputs
  have hstateWritten : written.state = { turn.state with frames := [] } := by
    rw [← hwritten]
    split_ifs <;> simp [write, hstate]
  exact
    { sane := hsaneWritten.congr rfl rfl rfl rfl
      landed := .finished rfl (by simp [hstateWritten]) rfl
      sends_eq := by simp [hstateWritten]
      quiet_eq := by simp [hstateWritten] }

theorem finish_moved (hsane : Sane scene history turn) (outcome : Outcome) (message : String)
    (budget : Bool) :
    Yields (finish scene turn outcome message budget)
      (Moved scene history turn.state.sends turn.state.quiet) := by
  unfold finish
  cases outcome with
  | failed => exact finishWith_moved hready hsane _ _ _ _
  | passed =>
      obtain ⟨result, hresult⟩ := flowOutputs_yields hready turn
        (List.Subset.refl scene.flow.outputs) []
      simp only [hresult]
      cases result with
      | error failure => exact finishWith_moved hready hsane _ _ _ _
      | ok outputs => exact finishWith_moved hready hsane _ _ _ _

/-! ## Entering a step -/

omit hready in
/-- The first frame that does not lie around a step is the one after those
that do. -/
theorem findIdx_frames {frames : List Frame} {around rest : List String}
    (hframes : frames.map Frame.step = around ++ rest) (hnodup : (frames.map Frame.step).Nodup) :
    (frames.findIdx? fun frame => frame.step ∉ around) =
      if rest = [] then none else some around.length := by
  have hmap : (frames.findIdx? fun frame => decide (frame.step ∉ around)) =
      (frames.map Frame.step).findIdx? fun step => decide (step ∉ around) := by
    rw [List.findIdx?_map]
    rfl
  rw [hframes] at hnodup
  rw [hmap, hframes, List.findIdx?_append]
  have hnone : around.findIdx? (fun step => decide (step ∉ around)) = none := by
    rw [List.findIdx?_eq_none_iff]
    intro step hstep
    simp [hstep]
  rw [hnone]
  cases rest with
  | nil => simp
  | cons step others =>
      have hstep : step ∉ around := fun hmem =>
        List.disjoint_of_nodup_append hnodup hmem (by simp)
      simp [List.findIdx?_cons, hstep]

/-- Entering a step leaves the loops that are not around it. -/
theorem enter_moved {spot goal : Spot} (hat : LeftAt scene history turn spot)
    (hgoal : goal ∈ trailWalk scene.flow.steps) (hpre : goal.parent <+: spot.parent) :
    Yields (enter scene turn goal.item.head.id)
      (Moved scene history turn.state.sends turn.state.quiet) := by
  obtain ⟨rest, hrest⟩ := hpre
  have hframes : turn.state.frames.map Frame.step = goal.parent ++ rest := by
    rw [hat.frames_eq, hrest]
  have hnodup : (turn.state.frames.map Frame.step).Nodup := by
    rw [hat.frames_eq]
    exact (hready.named.nodup_trail hat.mem).sublist (List.sublist_append_left _ _)
  have htake : (turn.state.frames.take goal.parent.length).map Frame.step = goal.parent := by
    rw [List.map_take, hframes]
    simp
  have hmove : Yields (leaveOutside scene turn goal.parent) fun after =>
      after.state = { turn.state with frames := turn.state.frames.take goal.parent.length } ∧
        after.action = turn.action ∧ Sane scene history after := by
    rw [leaveOutside, findIdx_frames hframes hnodup]
    split_ifs with hnil
    · have hall : turn.state.frames.take goal.parent.length = turn.state.frames := by
        apply List.take_of_length_le
        have h := congrArg List.length hframes
        simp [hnil] at h
        omega
      exact Yields.ok ⟨by rw [hall], rfl, hat.sane⟩
    · exact leaveLoops_yields hready hat.sane.fit _
        (fun frame hframe => hat.sane.bounds frame (List.mem_of_mem_take hframe))
        hat.sane.writes_nodup
  rw [enter, hready.loopsAround_eq hgoal]
  refine hmove.bind ?_
  rintro after ⟨hstate, haction, hsane⟩
  refine Yields.ok ?_
  rw [hat.action_eq] at haction
  exact
    { sane := hsane.congr rfl rfl rfl rfl
      landed := .running hgoal (hat.inLoops.of_outer ⟨rest, hrest⟩) rfl (by simp [hstate, htake])
        haction
      sends_eq := by simp [hstate]
      quiet_eq := by simp [hstate] }

/-! ## Passes of a loop -/

omit hready in
/-- A step directly inside a loop lies in loops only. -/
theorem inLoops_inner {spot goal : Spot} (hnamed : Named scene.flow.steps)
    (hspot : spot ∈ trailWalk scene.flow.steps)
    (hloops : InLoops scene.flow spot) (hkind : spot.item.head.kind ≠ .parallel)
    (hparent : goal.parent = spot.parent ++ [spot.item.head.id]) : InLoops scene.flow goal := by
  intro outer houter hmem
  rw [hparent, List.mem_append, List.mem_singleton] at hmem
  rcases hmem with hmem | hid
  · exact hloops outer houter hmem
  · rw [hnamed.spot_unique houter hspot hid]
    exact hkind

/-- A pass starts at the first step of the loop. -/
theorem startPass_moved {spot : Spot} {frame : Frame} (hin : InsideAt scene history turn spot frame)
    (hopens : opensInner spot.item.head = true) (hkind : spot.item.head.kind ≠ .parallel) :
    Yields (startPass turn spot.item)
      (Moved scene history turn.state.sends turn.state.quiet) := by
  unfold startPass
  cases hinner : spot.item.inner with
  | nil => exact absurd hinner (hready.inner_ne_nil hin.mem hopens)
  | cons first rest =>
      have hshown : innerSteps spot.item = first :: rest := by
        simp [innerSteps, Outline.shown, hopens, hinner]
      have hget : (innerSteps spot.item)[0]? = some first := by simp [hshown]
      have hfirst := inner_mem_trailWalk hin.mem hget
      obtain ⟨outer, hframes, houter⟩ := hin.frames_eq
      exact Yields.ok
        { sane := hin.sane.congr rfl rfl rfl rfl
          landed := .running hfirst (inLoops_inner hready.named hin.mem hin.inLoops hkind rfl) rfl
            (by simp [hframes, houter, hin.step_eq]) hin.action_eq
          sends_eq := rfl
          quiet_eq := rfl }

omit hready in
theorem InsideAt.write {spot : Spot} {frame : Frame} (h : InsideAt scene history turn spot frame)
    (values : Record String String) : InsideAt scene history (write turn values) spot frame :=
  { h with sane := h.sane.write values }

theorem bindItem_moved {spot : Spot} {frame : Frame} {names : ForEachFields}
    (hin : InsideAt scene history turn spot frame)
    (hfields : spot.item.head.fields = .forEach names) (items : List Json) (index : Nat) :
    Yields (bindItem scene turn spot.item names items index)
      (Moved scene history turn.state.sends turn.state.quiet) := by
  have hkind : spot.item.head.kind = .forEach := by simp [StepHead.kind, hfields, Fields.kind]
  exact startPass_moved hready ((hin.write _).record _ _ _)
    (by simp [opensInner, hkind, Kind.isContainer]) (by simp [hkind])

theorem beginPass_moved {spot : Spot} {frame : Frame} {fields : RepeatFields}
    (hin : InsideAt scene history turn spot frame)
    (hfields : spot.item.head.fields = .repeatStep fields) (index count : Nat) :
    Yields (beginPass scene turn spot.item fields index count)
      (Moved scene history turn.state.sends turn.state.quiet) := by
  have hkind : spot.item.head.kind = .repeatStep := by simp [StepHead.kind, hfields, Fields.kind]
  exact startPass_moved hready ((hin.write _).record _ _ _)
    (by simp [opensInner, hkind, Kind.isContainer]) (by simp [hkind])

/-- Leaving the innermost loop keeps the others. -/
theorem leaveLoop_yields (hfit : Fit scene.flow (history ++ turn.loops) turn.state)
    {outer : List Frame} {frame : Frame} (hframes : turn.state.frames = outer ++ [frame])
    (hbounds : ∀ other ∈ outer, other.InBounds) (hwrites : turn.writes.keys.Nodup) :
    Yields (leaveLoop scene turn) fun after =>
      after.state = { turn.state with frames := outer } ∧ after.action = turn.action ∧
        Sane scene history after := by
  have htake : turn.state.frames.take (turn.state.frames.length - 1) = outer := by simp [hframes]
  rw [leaveLoop, ← htake]
  exact leaveLoops_yields hready hfit _ (by rwa [htake]) hwrites

omit hready in
theorem frames_advanceLast {outer : List Frame} {frame : Frame}
    (hframes : turn.state.frames = outer ++ [frame]) :
    (advanceLast turn).state.frames = outer ++ [frame.advance] := by
  simp [advanceLast, hframes]

omit hready in
theorem fit_advanceLast (hfit : Fit scene.flow (history ++ turn.loops) turn.state)
    {outer : List Frame} {frame : Frame} (hframes : turn.state.frames = outer ++ [frame]) :
    Fit scene.flow (history ++ (advanceLast turn).loops) (advanceLast turn).state where
  kinds := by
    rw [frames_advanceLast hframes]
    intro other hother
    rcases List.mem_append.1 hother with hmem | hmem
    · exact hfit.kinds other (by simp [hframes, hmem])
    · obtain rfl := List.mem_singleton.1 hmem
      have h := hfit.kinds frame (by simp [hframes])
      cases frame <;> exact h
  log := by
    rw [frames_advanceLast hframes, openLoops_snoc, openLoop_advance]
    have h := hfit.log
    rwa [hframes, openLoops_snoc] at h
  locals_nodup := hfit.locals_nodup
  locals_declared := hfit.locals_declared

section Inside

variable {spot : Spot} {frame : Frame} (hin : InsideAt scene history turn spot frame)

include hin

/-- Out of its loop, a turn is about to move on from the loop's step. -/
theorem leaveLoop_left :
    Yields (leaveLoop scene turn) fun after => LeftAt scene history after spot ∧
      after.state.sends = turn.state.sends ∧ after.state.quiet = turn.state.quiet := by
  obtain ⟨outer, hframes, houter⟩ := hin.frames_eq
  refine (leaveLoop_yields hready hin.sane.fit hframes
    (fun other hother => hin.sane.bounds other (by simp [hframes, hother]))
    hin.sane.writes_nodup).mono ?_
  rintro after ⟨hstate, haction, hsane⟩
  exact ⟨⟨hsane, hin.mem, hin.inLoops, by simp [hstate, houter], by rw [haction, hin.action_eq]⟩,
    by simp [hstate], by simp [hstate]⟩

/-- The same after the index of the frame went up, in bounds or not. -/
theorem leaveLoop_advanceLast_left :
    Yields (leaveLoop scene (advanceLast turn)) fun after => LeftAt scene history after spot ∧
      after.state.sends = turn.state.sends ∧ after.state.quiet = turn.state.quiet := by
  obtain ⟨outer, hframes, houter⟩ := hin.frames_eq
  refine (leaveLoop_yields hready (fit_advanceLast hin.sane.fit hframes) (frames_advanceLast hframes)
    (fun other hother => hin.sane.bounds other (by simp [hframes, hother]))
    hin.sane.writes_nodup).mono ?_
  rintro after ⟨hstate, haction, hsane⟩
  exact ⟨⟨hsane, hin.mem, hin.inLoops, by simp [hstate, houter],
    by rw [haction]; exact hin.action_eq⟩, by simp [hstate, advanceLast], by simp [hstate, advanceLast]⟩

omit hready in
theorem insideAt_advanceLast (hbounds : frame.advance.InBounds) :
    InsideAt scene history (advanceLast turn) spot frame.advance := by
  obtain ⟨outer, hframes, houter⟩ := hin.frames_eq
  exact
    { sane :=
        { fit := fit_advanceLast hin.sane.fit hframes
          bounds := by
            rw [frames_advanceLast hframes]
            intro other hother
            rcases List.mem_append.1 hother with hmem | hmem
            · exact hin.sane.bounds other (by simp [hframes, hmem])
            · obtain rfl := List.mem_singleton.1 hmem
              exact hbounds
          writes_nodup := hin.sane.writes_nodup }
      mem := hin.mem
      inLoops := hin.inLoops
      frames_eq := ⟨outer, frames_advanceLast hframes, houter⟩
      step_eq := by
        rw [← hin.step_eq]
        cases frame <;> rfl
      action_eq := hin.action_eq }

end Inside

/-! ## Targets -/

/-- A text that may stand for a target of a step: nothing, or one of its
routes. -/
def IsRoute (step : Step) (target : String) : Prop :=
  target = "" ∨ ∃ field, (field, target) ∈ routesOf step

omit hready in
theorem isRoute_next (step : Step) : IsRoute step step.head.next :=
  .inr ⟨.next, by simp [routesOf, fieldTargets]⟩

omit hready in
theorem isRoute_onFailure {step : Step} {target : String}
    (h : step.head.fields.onFailure? = some target) : IsRoute step target :=
  .inr ⟨.onFailure, by simp [routesOf, fieldTargets, h]⟩

omit hready in
theorem isRoute_thenTo {step : Step} {target : String}
    (h : step.head.fields.thenTo? = some target) : IsRoute step target :=
  .inr ⟨.thenTo, by simp [routesOf, fieldTargets, h]⟩

omit hready in
theorem isRoute_elseTo {step : Step} {target : String}
    (h : step.head.fields.elseTo? = some target) : IsRoute step target :=
  .inr ⟨.elseTo, by simp [routesOf, fieldTargets, h]⟩

omit hready in
theorem isRoute_case {step : Step} {fields : SwitchFields}
    (hfields : step.head.fields = .switch fields) {entry : Case} (hentry : entry ∈ fields.cases) :
    IsRoute step entry.target := by
  obtain ⟨position, hposition, rfl⟩ := List.getElem_of_mem hentry
  refine .inr ⟨.caseAt position, ?_⟩
  have h : (TargetField.caseAt position, fields.cases[position].target) ∈ caseTargets step := by
    simp only [caseTargets, hfields, List.mem_mapIdx]
    exact ⟨position, hposition, rfl⟩
  simp [routesOf, h]

omit hready in
theorem isRoute_orNext {step : Step} {target : String} (h : IsRoute step target) :
    IsRoute step (if target = "" then step.head.next else target) := by
  split_ifs
  · exact isRoute_next step
  · exact h

theorem targetTitle_yields {spot : Spot} (hspot : spot ∈ trailWalk scene.flow.steps)
    {target : String} (hroute : IsRoute spot.item target) (hne : target ≠ "") :
    ∃ title, targetTitle scene target = .ok title := by
  unfold targetTitle
  split_ifs with hend
  · exact ⟨_, rfl⟩
  · obtain ⟨field, hfield⟩ := hroute.resolve_left hne
    obtain ⟨goal, hgoal, rfl, -⟩ := hready.target_located hspot hfield hne hend
    exact titleOf_yields ⟨_, hready.read_index hgoal⟩

/-! ## The ends of the loops -/

section Navigation

variable {spot : Spot} {follow : Turn → String → Except Fault Turn}
  (hfollow : ∀ turn, LeftAt scene history turn spot →
    Yields (follow turn spot.item.head.id) (Moved scene history turn.state.sends turn.state.quiet))

include hfollow

theorem goTo_moved (hat : LeftAt scene history turn spot) {target : String}
    (hroute : IsRoute spot.item target) :
    Yields (goTo scene follow turn spot.item.head.id target)
      (Moved scene history turn.state.sends turn.state.quiet) := by
  unfold goTo
  split_ifs with hend hne
  · exact finish_moved hready hat.sane _ _ _
  · obtain ⟨field, hfield⟩ := hroute.resolve_left hne
    obtain ⟨goal, hgoal, rfl, hpre⟩ := hready.target_located hat.mem hfield hne hend
    exact enter_moved hready hat hgoal hpre
  · exact hfollow turn hat

theorem continueAfter_moved (hat : LeftAt scene history turn spot) {target : String}
    (hroute : IsRoute spot.item target) :
    Yields (continueAfter scene follow turn spot.item target)
      (Moved scene history turn.state.sends turn.state.quiet) :=
  goTo_moved hready hfollow hat (isRoute_orNext hroute)

theorem endOfItem_moved {items : List Json} {index : Nat} {names : ForEachFields}
    (hin : InsideAt scene history turn spot (.item spot.item.head.id items index))
    (hfields : spot.item.head.fields = .forEach names) :
    Yields (endOfItem scene follow turn spot.item names items index)
      (Moved scene history turn.state.sends turn.state.quiet) := by
  unfold endOfItem
  split_ifs with hlast
  · exact bindItem_moved hready (insideAt_advanceLast hin hlast) hfields items (index + 1)
  · refine (leaveLoop_advanceLast_left hready hin).bind ?_
    rintro after ⟨hat, hsends, hquiet⟩
    rw [← hsends, ← hquiet]
    exact continueAfter_moved hready hfollow hat (.inl rfl)

theorem repeatExhausted_moved {frame : Frame} {fields : RepeatFields}
    (hin : InsideAt scene history turn spot frame)
    (hfields : spot.item.head.fields = .repeatStep fields) (checks : List Check) :
    Yields (repeatExhausted scene follow turn spot.item fields checks)
      (Moved scene history turn.state.sends turn.state.quiet) := by
  unfold repeatExhausted
  refine (leaveLoop_left hready hin).bind ?_
  rintro after ⟨hat, hsends, hquiet⟩
  rw [← hsends, ← hquiet]
  have hroute : IsRoute spot.item fields.onFailure := isRoute_onFailure (by simp [hfields, Fields.onFailure?])
  split_ifs with hne
  · obtain ⟨title, htitle⟩ := targetTitle_yields hready hat.mem hroute hne
    simp only [htitle]
    exact goTo_moved hready hfollow (hat.record _ _ _) hroute
  · exact finish_moved hready (hat.record _ _ _).sane _ _ _

omit hfollow in
theorem nextPass_moved {index count : Nat} {shadowed : Option String} {fields : RepeatFields}
    (hin : InsideAt scene history turn spot (.pass spot.item.head.id index count shadowed))
    (hfields : spot.item.head.fields = .repeatStep fields) (hbounds : index + 1 < count) :
    Yields (nextPass scene turn spot.item fields index count)
      (Moved scene history turn.state.sends turn.state.quiet) := by
  have hnext := insideAt_advanceLast hin hbounds
  unfold nextPass
  split_ifs with hdelay
  · exact beginPass_moved hready hnext hfields (index + 1) count
  · obtain ⟨outer, hframes, houter⟩ := hnext.frames_eq
    exact Yields.ok
      { sane := hnext.sane.congr rfl rfl rfl rfl
        landed := .waiting hin.mem hin.inLoops rfl
          (by simp [hframes, houter, Frame.advance, Frame.step]) hfields rfl
        sends_eq := rfl
        quiet_eq := rfl }

theorem endOfPass_moved {index count : Nat} {shadowed : Option String} {fields : RepeatFields}
    (hin : InsideAt scene history turn spot (.pass spot.item.head.id index count shadowed))
    (hfields : spot.item.head.fields = .repeatStep fields) :
    Yields (endOfPass scene follow turn spot.item fields index count)
      (Moved scene history turn.state.sends turn.state.quiet) := by
  unfold endOfPass
  simp only [ge_iff_le, Bool.not_eq_eq_eq_not, Bool.not_true, decide_eq_false_iff_not, not_le]
  split_ifs with hactive hlast hpassed hlast
  · exact nextPass_moved hready hin hfields hlast
  · refine (leaveLoop_left hready hin).bind ?_
    rintro after ⟨hat, hsends, hquiet⟩
    rw [← hsends, ← hquiet]
    exact continueAfter_moved hready hfollow hat (.inl rfl)
  · refine (leaveLoop_left hready hin).bind ?_
    rintro after ⟨hat, hsends, hquiet⟩
    rw [← hsends, ← hquiet]
    exact continueAfter_moved hready hfollow (hat.record _ _ _) (.inl rfl)
  · exact repeatExhausted_moved hready hfollow hin hfields _
  · exact nextPass_moved hready hin hfields (by simpa using hlast)

theorem nextInLoop_moved {frame : Frame} (hin : InsideAt scene history turn spot frame) :
    Yields (nextInLoop scene follow turn spot.item.head.id)
      (Moved scene history turn.state.sends turn.state.quiet) := by
  obtain ⟨outer, hframes, houter⟩ := hin.frames_eq
  have hlast : turn.state.frames.getLast? = some frame := by simp [hframes]
  unfold nextInLoop
  simp only [entryOf_yields hready hin.mem, hlast]
  -- the frame is of the kind of the loop it is named after
  obtain ⟨loop, hloop, hid, hkind⟩ := hin.sane.fit.kinds frame (by simp [hframes])
  obtain rfl := hready.named.spot_unique hloop hin.mem (hid.trans hin.step_eq)
  cases frame with
  | item step items index =>
      obtain ⟨names, hfields⟩ := hkind
      obtain rfl : step = loop.item.head.id := hin.step_eq
      have h := endOfItem_moved hready hfollow hin hfields
      simpa [bind, Except.bind, Outline.Spot.mapParent, Frame.step, hfields] using h
  | pass step index count shadowed =>
      obtain ⟨fields, hfields⟩ := hkind
      obtain rfl : step = loop.item.head.id := hin.step_eq
      have h := endOfPass_moved hready hfollow hin hfields
      simpa [bind, Except.bind, Outline.Spot.mapParent, Frame.step, hfields] using h

end Navigation

/-- Following a step ends at the step after it, in the next pass of the loop
around it or at the end. -/
theorem following_moved {spot : Spot} (fuel : Nat) (hfuel : spot.parent.length < fuel)
    (hat : LeftAt scene history turn spot) :
    Yields (following scene fuel turn spot.item.head.id)
      (Moved scene history turn.state.sends turn.state.quiet) := by
  -- each call inside is for the step around, which lies one level less deep
  induction fuel generalizing spot turn with
  | zero => omega
  | succ fuel ih =>
      unfold following
      simp only [entryOf_yields hready hat.mem]
      simp only [ok_bind, Outline.Spot.mapParent]
      cases hnext : spot.list[spot.position + 1]? with
      | some next =>
          have hsibling := sibling_mem_trailWalk hat.mem hnext
          have h := enter_moved hready hat hsibling (List.prefix_refl _)
          exact h
      | none =>
          simp only
          split_ifs with hparent
          · have hne : spot.parent ≠ [] := fun h => hparent (by simp [h])
            obtain ⟨outer, houter, -, houterParent, -⟩ := exists_outer hat.mem hne
            rw [houterParent, lastId_snoc]
            have hframes := hat.frames_eq
            rw [houterParent, List.map_eq_append_iff] at hframes
            obtain ⟨kept, last, hsplit, hkept, hlastMap⟩ := hframes
            obtain ⟨frame, rfl, hframe⟩ := List.map_eq_singleton_iff.1 hlastMap
            have hin : InsideAt scene history turn outer frame :=
              { sane := hat.sane
                mem := houter
                inLoops := hat.inLoops.of_outer (by rw [houterParent]; exact List.prefix_append _ _)
                frames_eq := ⟨kept, hsplit, hkept⟩
                step_eq := hframe
                action_eq := hat.action_eq }
            refine nextInLoop_moved hready (fun now hnow => ih ?_ hnow) hin
            simp only [houterParent, List.length_append, List.length_cons, List.length_nil] at hfuel
            omega
          · exact finish_moved hready hat.sane _ _ _

theorem follow_moved {spot : Spot} (hat : LeftAt scene history turn spot) :
    Yields (follow scene turn spot.item.head.id)
      (Moved scene history turn.state.sends turn.state.quiet) := by
  refine following_moved hready _ ?_ hat
  have hlength : scene.index.length = (trailWalk scene.flow.steps).length := by
    rw [hready.index_eq, hready.named.indexSteps_eq, walkSteps_eq]
    simp
  have h := Outline.trail_length_lt hat.mem
  rw [hlength]
  change spot.parent.length < (trailWalk scene.flow.steps).length at h
  omega

/-- A turn goes from a step to any of its routes. -/
theorem goFrom_moved {spot : Spot} (hat : LeftAt scene history turn spot) {target : String}
    (hroute : IsRoute spot.item target) :
    Yields (goFrom scene turn spot.item target)
      (Moved scene history turn.state.sends turn.state.quiet) :=
  goTo_moved hready (fun _ h => follow_moved hready h) hat hroute

theorem continueFrom_moved {spot : Spot} (hat : LeftAt scene history turn spot) {target : String}
    (hroute : IsRoute spot.item target) :
    Yields (continueFrom scene turn spot.item target)
      (Moved scene history turn.state.sends turn.state.quiet) :=
  continueAfter_moved hready (fun _ h => follow_moved hready h) hat hroute

end Moves

end Gostman.Flows
