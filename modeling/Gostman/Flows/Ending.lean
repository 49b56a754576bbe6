import Gostman.Flows.Budget
/-!
# Runs that end

What brings a run to its end: the sends it may still make, and the steps it may
still take without one.  Every turn uses up some of the two, but for the turn
that settles a Parallel step in which nothing was sent: it sets the count of
quiet steps back and pays for it with nothing.
-/

namespace Gostman.Flows

open Gostman.Lib Gostman.Js

/-- A run followed turn by turn without end: a run that is done goes on being
done. -/
structure Course (world : World) (raw : Json) (sendsLeft : Option Nat) where
  vars : Nat → Record String String
  input : Nat → Json
  turn : Nat → Turn
  problems : List Problem
  begins : flowBegin world.lib raw ⟨world.requests, world.flows, vars 0, sendsLeft⟩ =
    .ok (turn 0, problems)
  advances : ∀ n, flowAdvance world.lib raw (turn n).state (input n)
    ⟨world.requests, world.flows, vars (n + 1), sendsLeft⟩ = .ok (turn (n + 1))

namespace Course

variable {world : World} {raw : Json} {sendsLeft : Option Nat}
  (course : Course world raw sendsLeft)

def asked : Nat → Action
  | 0 => (course.turn 0).pending (.wait "" 0)
  | n + 1 => (course.turn (n + 1)).pending (asked n)

/-- What the host promises: it settles every Parallel step in the end, and it
reports no more sends for a flow than that flow was given. -/
structure Hosted : Prop where
  settles : ∀ n, (course.asked n).isParallel = true →
    ∃ m ≥ n, isTrue ((course.input m).field "settled") = true
  reports : ∀ n, (course.asked n).Settles (course.input n) →
    ∀ report ∈ (course.asked n).reports world.lib (course.input n), report.2 ≤ report.1.sendsLeft

/-- The answer settles a Parallel step in which nothing was sent: it has no
branch that sends a request, and no send is reported for its flows. -/
def EmptySettle (n : Nat) : Prop :=
  (course.asked n).isParallel = true ∧ isTrue ((course.input n).field "settled") = true ∧
    (course.asked n).direct = 0 ∧ (course.asked n).reported world.lib (course.input n) = 0

/-- Whether a state is at a Repeat, between two of its passes. -/
def isAtRepeat (index : Record String Entry) (state : State) : Bool :=
  match index.read state.atStep with
  | some entry => entry.item.head.kind = .repeatStep
  | none => false

/-- What is left of a run after a turn: the sends it may still make, and the
steps it may take without one.  A pause of a Repeat takes half a step. -/
def stepsLeft (n : Nat) : Nat :=
  let state := (course.turn n).state
  let spent := state.sends - (course.asked n).direct
  2 * ((world.budget raw sendsLeft - spent).toNat * (maxQuietSteps + 1) +
      (maxQuietSteps - state.quiet)) +
    if isAtRepeat (indexSteps (world.flowOf raw).steps) state then 0 else 1

end Course

theorem isAtRepeat_iff {scene : Scene} {state : State} :
    Course.isAtRepeat scene.index state = true ↔ RestsAt scene .repeatStep state := by
  unfold Course.isAtRepeat RestsAt
  cases scene.index.read state.atStep <;> simp

/-! ## One turn -/

structure Counted (limit : Nat) (flow : Flow) (turn : Turn) (asked : Action) : Prop where
  awaits : Awaits flow turn.state asked
  quiet_le : turn.state.quiet ≤ maxQuietSteps
  sends_le : turn.state.sends + asked.granted ≤ limit

/-- Sends that are reported within what was given stay within all that was
given. -/
theorem reported_le_granted {lib : Library} {asked : Action} {input : Json}
    (h : ∀ report ∈ asked.reports lib input, report.2 ≤ report.1.sendsLeft) :
    asked.reported lib input ≤ asked.granted := by
  unfold Action.reported Action.granted
  rw [← Action.map_fst_reports lib input]
  generalize asked.reports lib input = reports at h
  induction reports with
  | nil => simp
  | cons report rest ih =>
      have hrest := ih fun other hother => h other (by simp [hother])
      have hone := h report (by simp)
      simp only [List.map_cons, List.sum_cons]
      omega

theorem Turned.pending_eq {scene : Scene} {history : List LoopEvent} {sends : Int} {quiet : Nat}
    {turn : Turn} (h : Turned scene history sends quiet turn) (asked : Action) :
    turn.action = some (turn.pending asked) := by
  obtain hlanded | ⟨-, -, -, -, hasks, haction⟩ := h.standing
  · cases hlanded with
    | running _ _ _ _ hnone => exact absurd hnone h.acts
    | waiting _ _ _ _ _ haction => simp [Turn.pending, haction]
    | finished _ _ haction => simp [Turn.pending, haction]
  · rw [haction]
    cases hasks <;> simp [Turn.pending, haction]

theorem Action.returned_le (asked : Action) (input : Json) : asked.returned input ≤ asked.direct := by
  cases asked with
  | send action =>
      simp only [Action.returned, Action.direct]
      split_ifs <;> omega
  | _ => exact Nat.zero_le _

theorem Action.returned_of_isParallel {asked : Action} (h : asked.isParallel = true)
    (input : Json) : asked.returned input = 0 := by
  cases asked <;> simp_all [Action.isParallel, Action.returned]

/-- Where an action comes to nothing, an answer leaves the count of quiet steps
as it is. -/
theorem Awaits.answered_quiet {scene : Scene} (hready : Ready scene) {state : State}
    {asked : Action} (hawaits : Awaits scene.flow state asked) (input : Json)
    (hquiet : state.quiet ≤ maxQuietSteps) :
    (answeredAt scene state input).2 ≤ maxQuietSteps ∧
      (asked.isParallel = false →
        asked.direct + asked.reported scene.lib input = asked.returned input →
        (answeredAt scene state input).2 = state.quiet) := by
  cases hawaits with
  | asking hspot hat hasks =>
      simp only [answeredAt, hat, hready.read_index hspot, Outline.Spot.mapParent]
      cases hasks with
      | send hfields _ =>
          cases hunfilled : isUnfilled input <;>
            simp [answered, hfields, hunfilled, hquiet, Action.returned, Action.reported,
              Action.reports, Action.direct]
      | wait hfields => simp [answered, hfields, hquiet]
      | flow hfields _ =>
          simp only [answered, hfields, Action.returned, Action.reported, Action.reports,
            Action.direct]
          split_ifs with hsends
          · simp only [List.map_cons, List.map_nil, List.sum_cons, List.sum_nil]
            exact ⟨Nat.zero_le _, by omega⟩
          · exact ⟨hquiet, fun _ _ => rfl⟩
      | parallel hfields hbranches =>
          simp only [answered, hfields, Action.isParallel]
          split_ifs <;> simp [hquiet]
  | waiting hspot hat hfields =>
      simp [answeredAt, hat, hready.read_index hspot, Outline.Spot.mapParent, answered, hfields,
        hquiet]
  | finished hat =>
      have hread : scene.index.read state.atStep = none := by
        rw [hat, hready.index_eq]
        exact hready.named.read_empty
      simp [answeredAt, hread, hquiet]

namespace Course

variable {world : World} {raw : Json} {sendsLeft : Option Nat}
  (hvalid : world.problems raw = []) (course : Course world raw sendsLeft)

theorem run (n : Nat) :
    ∃ log, Run world.lib raw world.requests world.flows log (course.turn n) := by
  induction n with
  | zero =>
      have hrun := Run.begin course.begins
      exact ⟨_, hrun⟩
  | succ n ih =>
      obtain ⟨log, hlog⟩ := ih
      have hnext := Run.advance hlog (course.advances n)
      exact ⟨_, hnext⟩

/-- What the turn after this one is: it only says whether to stop a Parallel
step, or it has taken the answer and gone on. -/
inductive Next (n : Nat) : Prop where
  | peeked (hsettles : ¬(course.asked n).Settles (course.input n))
      (hstate : (course.turn (n + 1)).state = (course.turn n).state)
      (hasked : course.asked (n + 1) = course.asked n)
  | answered {history : List LoopEvent} (hsettles : (course.asked n).Settles (course.input n))
      (hturned : Turned (world.scene raw (course.vars (n + 1)) sendsLeft) history
        (answeredAt (world.scene raw (course.vars (n + 1)) sendsLeft) (course.turn n).state
          (course.input n)).1
        (answeredAt (world.scene raw (course.vars (n + 1)) sendsLeft) (course.turn n).state
          (course.input n)).2 (course.turn (n + 1)))
      (hprogress : Progress (world.scene raw (course.vars (n + 1)) sendsLeft)
        (course.turn n).state (course.input n) (course.turn (n + 1)))
      (haction : (course.turn (n + 1)).action = some (course.asked (n + 1)))

include hvalid

theorem ready (n : Nat) : Ready (world.scene raw (course.vars n) sendsLeft) :=
  ready_createScene _ hvalid

theorem next {n : Nat}
    (hawaits : Awaits (world.flowOf raw) (course.turn n).state (course.asked n)) :
    course.Next n := by
  have hready := course.ready hvalid (n + 1)
  obtain ⟨log, hlog⟩ := course.run n
  obtain ⟨hfit, hresting, hplaced⟩ := run_rests hvalid hlog
  have hrests := Awaits.restsAt_parallel hready hawaits
  rcases (advanceTurn_turned hready hfit hplaced.bounds hresting (course.input n)).result
    (course.advances n) with ⟨hturned, hprogress, hsettled⟩ | hpeeked
  · rw [hrests] at hsettled
    exact .answered hsettled hturned hprogress (hturned.pending_eq _)
  · obtain ⟨stop, hnext⟩ := hpeeked.after_eq
    refine .peeked (fun hsettles => ?_) (by rw [hnext]) ?_
    · have hsettled := hsettles (hrests.1 hpeeked.rests)
      rw [hpeeked.unsettled] at hsettled
      cases hsettled
    · simp [asked, Turn.pending, hnext]

theorem counted (hhost : course.Hosted) (n : Nat) :
    Counted (world.budget raw sendsLeft) (world.flowOf raw) (course.turn n) (course.asked n) := by
  induction n with
  | zero =>
      have hturned : Turned (world.scene raw (course.vars 0) sendsLeft) [] 0 0 (course.turn 0) :=
        (beginTurn_turned (course.ready hvalid 0)).result course.begins
      have haction : (course.turn 0).action = some (course.asked 0) := hturned.pending_eq _
      have hwithin := hturned.within (by omega)
      rw [Turn.granted_of_action haction] at hwithin
      exact ⟨hturned.awaits haction, hturned.quiet_max (Nat.zero_le _), hwithin⟩
  | succ n ih =>
      cases course.next hvalid ih.awaits with
      | peeked _ hstate hasked =>
          rw [hasked]
          exact ⟨by rw [hstate]; exact ih.awaits, by rw [hstate]; exact ih.quiet_le,
            by rw [hstate]; exact ih.sends_le⟩
      | answered hsettles hturned _ haction =>
          have hready := course.ready hvalid (n + 1)
          have hrests := Awaits.restsAt_parallel hready ih.awaits
          have hcount := Awaits.answered_sends hready ih.awaits fun h => hsettles (hrests.1 h)
          have hreported := reported_le_granted (hhost.reports n hsettles)
          have hsends := ih.sends_le
          have hwithin := hturned.within
          rw [Turn.granted_of_action haction] at hwithin
          refine ⟨hturned.awaits haction, ?_, hwithin ?_⟩
          · exact hturned.quiet_max (Awaits.answered_quiet hready ih.awaits _ ih.quiet_le).1
          · change _ ≤ (world.budget raw sendsLeft : Int)
            change _ + _ = _ + ((course.asked n).reported world.lib (course.input n) : Int) at hcount
            omega

omit hvalid in
/-- Fewer sends to make weigh more than any steps without one. -/
theorem stepsLeft_lt_of_left_lt {n : Nat}
    (h : (world.budget raw sendsLeft -
        ((course.turn (n + 1)).state.sends - (course.asked (n + 1)).direct)).toNat <
      (world.budget raw sendsLeft -
        ((course.turn n).state.sends - (course.asked n).direct)).toNat) :
    course.stepsLeft (n + 1) < course.stepsLeft n := by
  have hmul := Nat.mul_le_mul_right (maxQuietSteps + 1) (Nat.succ_le_of_lt h)
  rw [Nat.succ_mul] at hmul
  unfold stepsLeft
  simp only
  split_ifs <;> omega

/-- A turn that takes an answer ends the run or uses up some of what is left,
unless it settles a Parallel step in which nothing was sent. -/
theorem stepsLeft_lt (hhost : course.Hosted) {n : Nat}
    (hsettles : (course.asked n).Settles (course.input n)) (hempty : ¬course.EmptySettle n) :
    (course.turn (n + 1)).isDone ∨ course.stepsLeft (n + 1) < course.stepsLeft n := by
  have hcounted := course.counted hvalid hhost n
  have hcounted' := course.counted hvalid hhost (n + 1)
  have hready := course.ready hvalid (n + 1)
  cases course.next hvalid hcounted.awaits with
  | peeked hnot _ _ => exact absurd hsettles hnot
  | answered _ hturned hprogress haction =>
      have hrests := Awaits.restsAt_parallel hready hcounted.awaits
      have hcount := Awaits.answered_sends hready hcounted.awaits fun h => hsettles (hrests.1 h)
      have hquiet :=
        (Awaits.answered_quiet hready hcounted.awaits (course.input n) hcounted.quiet_le).2
      have hsends := hturned.sends_eq
      rw [Turn.direct_of_action haction] at hsends
      have hle := hturned.quiet_le
      have hlib : (world.scene raw (course.vars (n + 1)) sendsLeft).lib = world.lib := rfl
      rw [hlib] at hcount hquiet
      have hlimit := hcounted.sends_le
      have hlimit' := hcounted'.sends_le
      have hmax := hcounted'.quiet_le
      have hreturned := Action.returned_le (course.asked n) (course.input n)
      -- either the sends that are spent go up, or the count of quiet steps stays
      rcases Nat.lt_or_ge ((course.asked n).returned (course.input n))
        ((course.asked n).direct + (course.asked n).reported world.lib (course.input n)) with
        hspent | hkept
      · exact .inr (course.stepsLeft_lt_of_left_lt (by omega))
      · have hparallel : (course.asked n).isParallel = false := by
          by_contra h
          simp only [Bool.not_eq_false] at h
          have hnone := Action.returned_of_isParallel h (course.input n)
          exact hempty ⟨h, hsettles h, by omega, by omega⟩
        have hsame := hquiet hparallel (by omega)
        have hspent : (course.turn (n + 1)).state.sends - (course.asked (n + 1)).direct =
            (course.turn n).state.sends - (course.asked n).direct := by omega
        cases hprogress with
        | done hdone => exact .inl hdone
        | ran hran =>
            right
            rw [hsame] at hran
            unfold stepsLeft
            simp only [hspent]
            split_ifs <;> omega
        | paused hnot hpaused =>
            right
            have hrepeat := isAtRepeat_iff.2 hpaused
            have hrepeat' := mt isAtRepeat_iff.1 hnot
            change isAtRepeat (indexSteps (world.flowOf raw).steps) _ = true at hrepeat
            change ¬isAtRepeat (indexSteps (world.flowOf raw).steps) _ = true at hrepeat'
            unfold stepsLeft
            simp only [hspent, hrepeat, hrepeat', if_true, Bool.false_eq_true, if_false]
            omega

/-! ## Whole runs -/

/-- From a Parallel step on, a run comes to the turn that settles it: it is done
there or some of what was left is used up. -/
theorem settled_lt (hhost : course.Hosted) {first : Nat}
    (hempty : ∀ n ≥ first, ¬course.EmptySettle n) (gap : Nat) {n : Nat} (hfirst : first ≤ n)
    (hsettled : (course.asked n).isParallel = true →
      isTrue ((course.input (n + gap)).field "settled") = true) :
    ∃ m > n, (course.turn m).isDone ∨ course.stepsLeft m < course.stepsLeft n := by
  induction gap generalizing n with
  | zero =>
      exact ⟨n + 1, by omega, course.stepsLeft_lt hvalid hhost hsettled (hempty n hfirst)⟩
  | succ gap ih =>
      by_cases hnow : (course.asked n).Settles (course.input n)
      · exact ⟨n + 1, by omega, course.stepsLeft_lt hvalid hhost hnow (hempty n hfirst)⟩
      · cases course.next hvalid (course.counted hvalid hhost n).awaits with
        | answered hsettles _ _ _ => exact absurd hsettles hnow
        | peeked _ hstate hasked =>
            have hsame : course.stepsLeft (n + 1) = course.stepsLeft n := by
              simp [stepsLeft, hstate, hasked]
            obtain ⟨m, hm, hless⟩ := ih (n := n + 1) (by omega) (by
              rw [hasked, Nat.add_assoc, Nat.add_comm 1 gap]
              exact hsettled)
            rw [hsame] at hless
            exact ⟨m, by omega, hless⟩

/-- A run that settles no empty Parallel step from some turn on comes to its
end. -/
theorem ends_of_no_emptySettle (hhost : course.Hosted) {first : Nat}
    (hempty : ∀ n ≥ first, ¬course.EmptySettle n) : ∃ n, (course.turn n).isDone := by
  -- by induction on what is left after a turn
  have hall : ∀ left n, first ≤ n → course.stepsLeft n = left →
      ∃ m, (course.turn m).isDone := by
    intro left
    induction left using Nat.strong_induction_on with
    | _ left ih =>
        rintro n hfirst rfl
        obtain ⟨gap, hgap⟩ : ∃ gap, (course.asked n).isParallel = true →
            isTrue ((course.input (n + gap)).field "settled") = true := by
          by_cases hparallel : (course.asked n).isParallel = true
          · obtain ⟨m, hm, hsettled⟩ := hhost.settles n hparallel
            exact ⟨m - n, fun _ => by rwa [Nat.add_sub_cancel' hm]⟩
          · exact ⟨0, fun h => absurd h hparallel⟩
        obtain ⟨m, hm, hdone | hless⟩ := course.settled_lt hvalid hhost hempty gap hfirst hgap
        · exact ⟨m, hdone⟩
        · exact ih _ hless m (by omega) rfl
  exact hall _ first (Nat.le_refl _) rfl

theorem asked_isDone_succ (hhost : course.Hosted) {n : Nat} (h : (course.asked n).isDone = true) :
    (course.asked (n + 1)).isDone = true := by
  have hawaits := (course.counted hvalid hhost n).awaits
  have hready := course.ready hvalid (n + 1)
  have hat : (course.turn n).state.atStep = "" := by
    generalize course.asked n = asked at h hawaits
    cases hawaits with
    | asking _ _ hasks => cases hasks <;> simp [Action.isDone] at h
    | waiting _ _ _ => simp [Action.isDone] at h
    | finished hat => exact hat
  have hread : (world.scene raw (course.vars (n + 1)) sendsLeft).index.read "" = none := by
    rw [hready.index_eq]
    exact hready.named.read_empty
  have hnext : advanceTurn (world.scene raw (course.vars (n + 1)) sendsLeft) (course.turn n).state
      (course.input n) = .ok (course.turn (n + 1)) := course.advances n
  unfold advanceTurn at hnext
  rw [hat] at hnext
  simp only [hread, bind, Except.bind] at hnext
  split at hnext
  · cases hnext
  · obtain ⟨_, _, _, _, _, haction⟩ := isDone_of_finish ‹_›
    rw [proceed_of_action (by simp [haction]), Except.ok.injEq] at hnext
    rw [hnext] at haction
    simp [asked, Turn.pending, haction, Action.isDone]

omit hvalid in
theorem asked_isDone_of_isDone {n : Nat} (h : (course.turn n).isDone) :
    (course.asked n).isDone = true := by
  obtain ⟨_, _, _, _, _, haction⟩ := h
  cases n <;> simp [asked, Turn.pending, haction, Action.isDone]

/-- A run comes to its end exactly when, from some turn on, no Parallel step in
which nothing was sent is settled.  A turn that settles none ends the run or
uses up some of what is left. -/
theorem ends_iff (hhost : course.Hosted) :
    ((∃ n, (course.turn n).isDone) ↔ ∃ first, ∀ n ≥ first, ¬course.EmptySettle n) ∧
      ∀ n, (course.asked n).Settles (course.input n) → ¬course.EmptySettle n →
        (course.turn (n + 1)).isDone ∨ course.stepsLeft (n + 1) < course.stepsLeft n := by
  refine ⟨⟨?_, ?_⟩, fun n hsettles hempty => course.stepsLeft_lt hvalid hhost hsettles hempty⟩
  · rintro ⟨first, hdone⟩
    have hstays : ∀ n ≥ first, (course.asked n).isDone = true := by
      intro n hn
      induction n, hn using Nat.le_induction with
      | base => exact course.asked_isDone_of_isDone hdone
      | succ n _ ih => exact course.asked_isDone_succ hvalid hhost ih
    refine ⟨first, fun n hn hempty => ?_⟩
    have hparallel := hempty.1
    rw [(Action.flows_of_isDone (hstays n hn)).2.2.2] at hparallel
    cases hparallel
  · rintro ⟨first, hempty⟩
    exact course.ends_of_no_emptySettle hvalid hhost hempty

end Course

/-! ## Runs with given answers -/

def turnOf (result : Except Fault Turn) : Turn :=
  match result with
  | .ok turn => turn
  | .error _ => { state := {} }

namespace Course

variable (world : World) (raw : Json) (sendsLeft : Option Nat)
  (vars : Nat → Record String String) (input : Nat → Json)

/-- The first turn of a run and the problems it reports. -/
def started : Turn × List Problem :=
  match flowBegin world.lib raw ⟨world.requests, world.flows, vars 0, sendsLeft⟩ with
  | .ok result => result
  | .error _ => ({ state := {} }, [])

/-- The turns of a run in which the host gives these answers. -/
def turns : Nat → Turn
  | 0 => (started world raw sendsLeft vars).1
  | n + 1 => turnOf (flowAdvance world.lib raw (turns n).state (input n)
      ⟨world.requests, world.flows, vars (n + 1), sendsLeft⟩)

variable {world raw}

variable {vars input} in
/-- A turn that its answers leave as it is comes again and again. -/
theorem turns_steady {first : Nat}
    (h : ∀ n, turnOf (flowAdvance world.lib raw (turns world raw sendsLeft vars input first).state (input (first + n))
      ⟨world.requests, world.flows, vars (first + n + 1), sendsLeft⟩) = turns world raw sendsLeft vars input first)
    (n : Nat) : turns world raw sendsLeft vars input (first + n) = turns world raw sendsLeft vars input first := by
  induction n with
  | zero => rfl
  | succ n ih => rw [← Nat.add_assoc, turns, ih, h]

variable (hvalid : world.problems raw = [])

include hvalid

theorem started_eq :
    flowBegin world.lib raw ⟨world.requests, world.flows, vars 0, sendsLeft⟩ =
      .ok (started world raw sendsLeft vars) := by
  have hready := ready_createScene ⟨world.requests, world.flows, vars 0, sendsLeft⟩ hvalid
  obtain ⟨result, hbegin, -⟩ := beginTurn_turned hready
  change flowBegin _ _ _ = _ at hbegin
  simp only [started, hbegin]

theorem turns_succ {n : Nat} {log : List LoopEvent}
    (hrun : Run world.lib raw world.requests world.flows log
      (turns world raw sendsLeft vars input n)) :
    flowAdvance world.lib raw (turns world raw sendsLeft vars input n).state (input n)
      ⟨world.requests, world.flows, vars (n + 1), sendsLeft⟩ =
      .ok (turns world raw sendsLeft vars input (n + 1)) := by
  have hready := ready_createScene ⟨world.requests, world.flows, vars (n + 1), sendsLeft⟩ hvalid
  obtain ⟨hfit, hresting, hplaced⟩ := run_rests hvalid hrun
  obtain ⟨next, hnext, -⟩ := advanceTurn_turned hready hfit hplaced.bounds hresting (input n)
  change flowAdvance _ _ _ _ _ = _ at hnext
  simp only [turns, hnext, turnOf]

theorem run_turns (n : Nat) :
    ∃ log, Run world.lib raw world.requests world.flows log
      (turns world raw sendsLeft vars input n) := by
  induction n with
  | zero => exact ⟨_, .begin (started_eq sendsLeft vars hvalid)⟩
  | succ n ih =>
      obtain ⟨log, hlog⟩ := ih
      exact ⟨_, .advance hlog (turns_succ sendsLeft vars input hvalid hlog)⟩

omit hvalid in
/-- Whatever the host answers, a flow without problems has a run with these
answers. -/
def answered (hvalid : world.problems raw = []) : Course world raw sendsLeft where
  vars := vars
  input := input
  turn := turns world raw sendsLeft vars input
  problems := (started world raw sendsLeft vars).2
  begins := started_eq sendsLeft vars hvalid
  advances := fun n =>
    let ⟨_, hlog⟩ := run_turns sendsLeft vars input hvalid n
    turns_succ sendsLeft vars input hvalid hlog

end Course

/-! ## A run that never ends, and one that does -/

def silentFlow : StoredFlow where
  raw := .obj [("id", .str "g"), ("name", .str "Nothing to send"),
    ("steps", .arr [.obj [("id", .str "stop"), ("kind", .str "end")]])]
  id := "g"
  name := "Nothing to send"
  id_eq := rfl
  name_eq := rfl

def silentWorld : World := ⟨plainLibrary, [], [silentFlow]⟩

/-- A Parallel step that runs the silent flow and goes to itself. -/
def roundaboutFlow : Json :=
  .obj [("id", .str "f"), ("name", .str "Round and round"),
    ("steps", .arr [.obj [("id", .str "both"), ("kind", .str "parallel"), ("next", .str "both"),
      ("steps", .arr [.obj [("id", .str "call"), ("kind", .str "flow"), ("flowId", .str "g")]])]])]

/-- What the host answers once the silent flow has passed. -/
def silentAnswer : Json :=
  .obj [("settled", .bool true), ("order", .arr [.str "call"]),
    ("branches", .obj [("call", .obj [("state", .str "passed")])])]

/-- The first turn of a flow of `silentWorld`. -/
def silentBegin (raw : Json) : Turn :=
  turnOf ((flowBegin plainLibrary raw ⟨[], [silentFlow], [], none⟩).map Prod.fst)

def silentAdvance (raw : Json) : Turn :=
  turnOf (flowAdvance plainLibrary raw (silentBegin raw).state silentAnswer
    ⟨[], [silentFlow], [], none⟩)

/-- A run whose turns all leave the state of the first one. -/
def steadyCourse (raw : Json)
    (hbegin : flowBegin plainLibrary raw ⟨[], [silentFlow], [], none⟩ = .ok (silentBegin raw, []))
    (hadvance : flowAdvance plainLibrary raw (silentBegin raw).state silentAnswer
      ⟨[], [silentFlow], [], none⟩ = .ok (silentAdvance raw))
    (hsteady : (silentAdvance raw).state = (silentBegin raw).state) :
    Course silentWorld raw none where
  vars := fun _ => []
  input := fun _ => silentAnswer
  turn := fun n => if n = 0 then silentBegin raw else silentAdvance raw
  problems := []
  begins := hbegin
  advances := fun n => by
    have hstate : (if n = 0 then silentBegin raw else silentAdvance raw).state =
        (silentBegin raw).state := by
      split_ifs
      · rfl
      · exact hsteady
    rw [hstate]
    exact hadvance

def roundaboutCourse : Course silentWorld roundaboutFlow none :=
  steadyCourse roundaboutFlow rfl rfl rfl

def roundaboutAction : Action :=
  .parallel "both" "Parallel" 0 [.flow ⟨"call", "g", "Nothing to send", [], 1000⟩]

theorem asked_roundaboutCourse (n : Nat) : roundaboutCourse.asked n = roundaboutAction := by
  cases n <;> rfl

theorem hosted_roundaboutCourse : roundaboutCourse.Hosted where
  settles := fun n _ => ⟨n, Nat.le_refl n, rfl⟩
  reports := fun n _ => by
    rw [asked_roundaboutCourse]
    intro report hreport
    obtain rfl := List.mem_singleton.1 hreport
    exact Nat.zero_le _

/-- A flow without problems, whose host settles every Parallel step and reports
no send for a flow that made none, runs for ever. -/
theorem roundabout_never_ends :
    silentWorld.problems roundaboutFlow = [] ∧ roundaboutCourse.Hosted ∧
      ∀ n, ¬(roundaboutCourse.turn n).isDone := by
  refine ⟨by decide +kernel, hosted_roundaboutCourse, fun n hdone => ?_⟩
  have h := roundaboutCourse.asked_isDone_of_isDone hdone
  rw [asked_roundaboutCourse] at h
  cases h

/-- A request, a flow that sends one more, and a Parallel step that does both
and goes back: the sends come to an end in the second round. -/
def ringFlow : Json :=
  .obj [("id", .str "f"), ("name", .str "Ring"), ("maxSends", .num 5),
    ("steps", .arr [.obj [("id", .str "ask"), ("requestId", .str "r")],
      .obj [("id", .str "call"), ("kind", .str "flow"), ("flowId", .str "g")],
      .obj [("id", .str "both"), ("kind", .str "parallel"), ("next", .str "ask"),
        ("steps", .arr [.obj [("id", .str "left"), ("requestId", .str "r")],
          .obj [("id", .str "right"), ("kind", .str "flow"), ("flowId", .str "g")]])]])]

/-- What the host answers: the request is sent, the inner flow passes with one
send, and the two branches settle with a send each. -/
def ringAnswer : Nat → Json
  | 0 | 3 => .obj [("response", .obj [])]
  | 1 => .obj [("state", .str "passed"), ("outcome", .str "passed"), ("sends", .num 1)]
  | 2 => .obj [("settled", .bool true), ("order", .arr [.str "left", .str "right"]),
      ("branches", .obj [
        ("left", .obj [("state", .str "passed"), ("response", .obj [])]),
        ("right", .obj [("state", .str "passed"), ("outcome", .str "passed"), ("sends", .num 1)])])]
  | _ => .obj []

theorem problems_ringFlow : nestedWorld.problems ringFlow = [] := by decide +kernel

def ringCourse : Course nestedWorld ringFlow none :=
  .answered none (fun _ => []) ringAnswer problems_ringFlow

theorem steady_ringCourse (n : Nat) : ringCourse.turn (5 + n) = ringCourse.turn 5 := by
  have hsteady : ∀ n, turnOf (flowAdvance nestedWorld.lib ringFlow
      (Course.turns nestedWorld ringFlow none (fun _ => []) ringAnswer 5).state (ringAnswer (5 + n))
        ⟨nestedWorld.requests, nestedWorld.flows, [], none⟩) =
      Course.turns nestedWorld ringFlow none (fun _ => []) ringAnswer 5 := by
    intro n
    have hanswer : ringAnswer (5 + n) = .obj [] := by rw [Nat.add_comm]; rfl
    rw [hanswer]
    rfl
  exact Course.turns_steady none hsteady n

inductive RingAsks : Nat → Action → Prop where
  | ask : RingAsks 0 (.send (pingAction "ask"))
  | call : RingAsks 1 (.flow ⟨"call", "g", "Inner", [], 4⟩)
  | both : RingAsks 2 (.parallel "both" "Parallel" 0
      [.send "Ping" (pingAction "left"), .flow ⟨"right", "g", "Inner", [], 2⟩])
  | again : RingAsks 3 (.send (pingAction "ask"))
  | nothing (n : Nat) {action : Action} (hdone : action.isDone = true) : RingAsks (n + 4) action

theorem ringCourse_asks (n : Nat) : RingAsks n (ringCourse.asked n) := by
  match n with
  | 0 => exact .ask
  | 1 => exact .call
  | 2 => exact .both
  | 3 => exact .again
  | 4 => exact .nothing 0 rfl
  | n + 5 =>
      refine .nothing (n + 1) ?_
      change ((ringCourse.turn (n + 5)).pending (ringCourse.asked (n + 4))).isDone = true
      rw [Nat.add_comm n 5, steady_ringCourse]
      rfl

theorem hosted_ringCourse : ringCourse.Hosted where
  settles := by
    intro n hparallel
    have hasks := ringCourse_asks n
    generalize ringCourse.asked n = asked at hasks hparallel
    cases hasks with
    | ask | call | again => simp [Action.isParallel] at hparallel
    | both => exact ⟨2, Nat.le_refl 2, rfl⟩
    | nothing n hdone => simp [(Action.flows_of_isDone hdone).2.2.2] at hparallel
  reports := by
    intro n _ report hreport
    have hasks := ringCourse_asks n
    generalize ringCourse.asked n = asked at hasks hreport
    cases hasks with
    | ask | again => simp [Action.reports] at hreport
    | call | both =>
        obtain rfl := List.mem_singleton.1 hreport
        decide
    | nothing n hdone =>
        have hflows := (Action.flows_of_isDone hdone).1
        rw [← Action.map_fst_reports nestedWorld.lib (ringCourse.input (n + 4)),
          List.map_eq_nil_iff] at hflows
        simp [hflows] at hreport

/-- The branch of the Parallel step sends the request itself. -/
theorem not_emptySettle_ringCourse (n : Nat) : ¬ringCourse.EmptySettle n := by
  rintro ⟨hparallel, -, hdirect, -⟩
  have hasks := ringCourse_asks n
  generalize ringCourse.asked n = asked at hasks hparallel hdirect
  cases hasks with
  | ask | call | again => simp [Action.isParallel] at hparallel
  | both => simp [Action.direct, Branch.isSend] at hdirect
  | nothing n hdone => simp [(Action.flows_of_isDone hdone).2.2.2] at hparallel

theorem ends_iff_ring :
    (∃ n, (ringCourse.turn n).isDone) ∧
      ∀ n, (ringCourse.asked n).Settles (ringCourse.input n) →
        (ringCourse.turn (n + 1)).isDone ∨ ringCourse.stepsLeft (n + 1) < ringCourse.stepsLeft n := by
  obtain ⟨hends, hless⟩ := Course.ends_iff problems_ringFlow ringCourse hosted_ringCourse
  exact ⟨hends.2 ⟨0, fun n _ => not_emptySettle_ringCourse n⟩,
    fun n hsettles => hless n hsettles (not_emptySettle_ringCourse n)⟩

end Gostman.Flows
