import Gostman.Flows.Runs
/-!
# What a run asks and what it is told

The sends of a run, counted over a whole exchange with the host: those an
action makes itself, those the flows it runs report, and the one a request that
could not be filled gives back.  The count of the state follows from them.
-/

namespace Gostman.Flows

open Gostman.Lib Gostman.Js

def Action.isParallel : Action → Bool
  | parallel _ _ _ _ => true
  | _ => false

/-- The flows an action runs, each with the sends the host reports for it. -/
def Action.reports (lib : Library) (input : Json) : Action → List (FlowAction × Nat)
  | flow action => [(action, sendsOf lib input)]
  | parallel _ _ _ branches => (branches.filterMap Branch.flow?).map fun action =>
      (action, sendsOf lib (branchInput input action.step))
  | _ => []

def Action.reported (lib : Library) (input : Json) (asked : Action) : Nat :=
  ((asked.reports lib input).map Prod.snd).sum

/-- The send that is given back where the request could not be filled. -/
def Action.returned (input : Json) : Action → Nat
  | send _ => if isUnfilled input then 1 else 0
  | _ => 0

/-- The action the host still has to answer: a turn that only says whether to
stop a Parallel step leaves that step running. -/
def Turn.pending (asked : Action) (turn : Turn) : Action :=
  match turn.action with
  | some (.parallelStop _ _) | none => asked
  | some action => action

inductive Awaits (flow : Flow) (state : State) : Action → Prop where
  | asking {spot : Spot} {action : Action} (hspot : spot ∈ trailWalk flow.steps)
      (hat : state.atStep = spot.item.head.id) (hasks : Asks spot.item action) :
      Awaits flow state action
  | waiting {spot : Spot} {fields : RepeatFields} (hspot : spot ∈ trailWalk flow.steps)
      (hat : state.atStep = spot.item.head.id)
      (hfields : spot.item.head.fields = .repeatStep fields) :
      Awaits flow state (.wait spot.item.head.id fields.delayMs)
  | finished {outcome : Outcome} {message : String} {outputs vars : Record String String}
      {budget : Bool} (hat : state.atStep = "") :
      Awaits flow state (.done outcome message outputs vars budget)

theorem Turn.direct_of_action {turn : Turn} {action : Action} (h : turn.action = some action) :
    turn.direct = action.direct := by
  simp [Turn.direct, h]

theorem Turn.granted_of_action {turn : Turn} {action : Action} (h : turn.action = some action) :
    turn.granted = action.granted := by
  simp [Turn.granted, h]

theorem Action.map_fst_reports (lib : Library) (input : Json) (asked : Action) :
    (asked.reports lib input).map Prod.fst = asked.flows := by
  cases asked <;> simp [Action.reports, Action.flows, Function.comp_def]

theorem branchSends_eq (lib : Library) (input : Json) {steps : List Step} {branches : List Branch}
    (h : List.Forall₂ BranchOf steps branches) :
    (steps.map fun branch =>
      if branch.head.kind = .flow then sendsOf lib (branchInput input branch.head.id) else 0).sum =
      ((branches.filterMap Branch.flow?).map fun action =>
        sendsOf lib (branchInput input action.step)).sum := by
  induction h with
  | nil => rfl
  | @cons step branch steps branches hbranch _ ih =>
      rw [List.map_cons, List.sum_cons, ih]
      cases branch with
      | send title action =>
          obtain ⟨hkind, -⟩ := hbranch
          simp [hkind, List.filterMap_cons, Branch.flow?]
      | flow action =>
          obtain ⟨hkind, hstep⟩ := hbranch
          simp [hkind, hstep, Branch.flow?]

/-- Where a turn has come to rest, its step has asked its action. -/
theorem Turned.awaits {scene : Scene} {history : List LoopEvent} {sends : Int} {quiet : Nat}
    {turn : Turn} {action : Action} (h : Turned scene history sends quiet turn)
    (haction : turn.action = some action) : Awaits scene.flow turn.state action := by
  obtain hlanded | ⟨hspot, -, hat, -, hasks, hasked⟩ := h.standing
  · cases hlanded with
    | running _ _ _ _ hnone => exact absurd hnone h.acts
    | waiting hspot _ hat _ hfields hwait =>
        obtain rfl := Option.some.inj (haction.symm.trans hwait)
        exact .waiting hspot hat hfields
    | finished hat _ hdone =>
        obtain rfl := Option.some.inj (haction.symm.trans hdone)
        exact .finished hat
  · obtain rfl := Option.some.inj (haction.symm.trans hasked)
    exact .asking hspot hat hasks

section Counts

variable {scene : Scene} (hready : Ready scene) {state : State} {asked : Action}
  (hawaits : Awaits scene.flow state asked)

include hready hawaits

theorem Awaits.restsAt_parallel : RestsAt scene .parallel state ↔ asked.isParallel = true := by
  cases hawaits with
  | asking hspot hat hasks =>
      rw [restsAt_iff hready hspot hat]
      cases hasks <;> simp_all [StepHead.kind, Fields.kind, Action.isParallel]
  | waiting hspot hat hfields =>
      rw [restsAt_iff hready hspot hat]
      simp [StepHead.kind, hfields, Fields.kind, Action.isParallel]
  | finished hat =>
      have hread : scene.index.read state.atStep = none := by
        rw [hat, hready.index_eq]
        exact hready.named.read_empty
      simp [RestsAt, hread, Action.isParallel]

/-- The sends after an answer: the flows have reported theirs, and a request
that could not be filled has given its send back. -/
theorem Awaits.answered_sends {input : Json}
    (hsettled : RestsAt scene .parallel state → isTrue (input.field "settled") = true) :
    (answeredAt scene state input).1 + asked.returned input =
      state.sends + asked.reported scene.lib input := by
  rw [hawaits.restsAt_parallel hready] at hsettled
  cases hawaits with
  | asking hspot hat hasks =>
      have hread := hready.read_index hspot
      simp only [answeredAt, hat, hread, Outline.Spot.mapParent]
      cases hasks with
      | send hfields _ =>
          cases hunfilled : isUnfilled input <;>
            simp [answered, hfields, hunfilled, Action.returned, Action.reported, Action.reports]
      | wait hfields =>
          simp [answered, hfields, Action.returned, Action.reported, Action.reports]
      | flow hfields _ =>
          simp [answered, hfields, Action.returned, Action.reported, Action.reports]
      | parallel hfields hbranches =>
          have hsum := branchSends_eq scene.lib input hbranches
          have hdone := hsettled rfl
          simp [answered, hfields, hdone, Action.returned, Action.reported, Action.reports,
            branchSends, hsum, Function.comp_def]
  | waiting hspot hat hfields =>
      simp [answeredAt, hat, hready.read_index hspot, Outline.Spot.mapParent, answered, hfields,
        Action.returned, Action.reported, Action.reports]
  | finished hat =>
      have hread : scene.index.read state.atStep = none := by
        rw [hat, hready.index_eq]
        exact hready.named.read_empty
      simp [answeredAt, hread, Action.returned, Action.reported, Action.reports]

end Counts

end Gostman.Flows
