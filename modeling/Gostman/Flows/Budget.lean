import Gostman.Flows.Asked
/-!
# The send budget of a tree of calls

A flow may call flows that call others.  Each call is a run of its own, under
the budget its action carries, and what it has spent goes back to the caller.
However a budget is split, handed down and given back, the sends of a whole tree
of calls stay within the budget of its root.
-/

namespace Gostman.Flows

open Gostman.Lib Gostman.Js

structure World where
  lib : Library
  requests : List SavedRequest
  flows : List StoredFlow

def World.flowOf (world : World) (raw : Json) : Flow := normalizeFlow world.lib.numerals raw

/-- What `validateFlow` finds in a flow. -/
def World.problems (world : World) (raw : Json) : List Problem :=
  validateFlow world.lib (world.flowOf raw) world.requests world.flows

def World.scene (world : World) (raw : Json) (vars : Record String String)
    (sendsLeft : Option Nat) : Scene :=
  createScene world.lib (world.flowOf raw) ⟨world.requests, world.flows, vars, sendsLeft⟩

/-- The sends a flow may make that is given `sendsLeft`. -/
def World.budget (world : World) (raw : Json) (sendsLeft : Option Nat) : Nat :=
  min (world.flowOf raw).maxSends (sendsLeft.getD maxSendsCap)

def Action.isDone : Action → Bool
  | done _ _ _ _ _ => true
  | _ => false

/-- The answer is to the whole action, and not only to some branches of a
Parallel step. -/
def Action.Settles (asked : Action) (input : Json) : Prop :=
  asked.isParallel = true → isTrue (input.field "settled") = true

section Calls

/- What a call may come to: the sends that are reported for it, and those that
were made in it. -/
variable (Call : FlowAction → Nat → Nat → Prop)

/-- The sends made for an action that the host has answered: its own, and those
of the flows it ran.  A request that could not be filled was not sent. -/
def Performed (lib : Library) (asked : Action) (input : Json) (spent : Nat) : Prop :=
  ∃ own sents, own + asked.returned input ≤ asked.direct ∧
    List.Forall₂ (fun report sent => Call report.1 report.2 sent) (asked.reports lib input) sents ∧
    spent = own + sents.sum

/-- The sends made so far for an action the host still performs. -/
def Underway (asked : Action) (spent : Nat) : Prop :=
  ∃ own sents, own ≤ asked.direct ∧
    List.Forall₂ (fun action sent => ∃ reported, Call action reported sent) asked.flows sents ∧
    spent = own + sents.sum

/-- A run under a budget up to its last turn: the action the host has to answer
next, and the sends made for the actions it has answered. -/
inductive Spending (world : World) (raw : Json) (sendsLeft : Option Nat) :
    Turn → Action → Nat → Prop where
  | begin {vars : Record String String} {turn : Turn} {problems : List Problem} {asked : Action}
      (h : flowBegin world.lib raw ⟨world.requests, world.flows, vars, sendsLeft⟩ =
        .ok (turn, problems))
      (hasked : turn.action = some asked) : Spending world raw sendsLeft turn asked 0
  | peek {vars : Record String String} {turn next : Turn} {asked : Action} {input : Json}
      {sent : Nat} (hrun : Spending world raw sendsLeft turn asked sent)
      (hsettles : ¬asked.Settles input)
      (h : flowAdvance world.lib raw turn.state input
        ⟨world.requests, world.flows, vars, sendsLeft⟩ = .ok next) :
      Spending world raw sendsLeft next asked sent
  | answer {vars : Record String String} {turn next : Turn} {asked asked' : Action} {input : Json}
      {sent spent : Nat} (hrun : Spending world raw sendsLeft turn asked sent)
      (hgoes : asked.isDone = false) (hsettles : asked.Settles input)
      (hperformed : Performed Call world.lib asked input spent)
      (h : flowAdvance world.lib raw turn.state input
        ⟨world.requests, world.flows, vars, sendsLeft⟩ = .ok next)
      (hasked : next.action = some asked') :
      Spending world raw sendsLeft next asked' (sent + spent)

end Calls

/-- What a call comes to, with at most so many calls inside each other: it never
ran, or it is a run of the flow it names, ended or stopped by the host.  The
host reports the count the run has kept, or the sends it has seen. -/
def Called (world : World) : Nat → FlowAction → Nat → Nat → Prop
  | 0, _, reported, sent => reported = 0 ∧ sent = 0
  | depth + 1, action, reported, sent =>
      (reported = 0 ∧ sent = 0) ∨
      ∃ flow ∈ world.flows, flow.id = action.flowId ∧ ∃ turn asked spent under,
        Spending (Called world depth) world flow.raw (some action.sendsLeft) turn asked spent ∧
        Underway (Called world depth) asked under ∧ sent = spent + under ∧
        ((asked.flows = [] ∧ turn.state.sends = reported) ∨ reported = sent)

/-! ## Bounds of single actions -/

/-- A call makes no more sends than are reported for it, and no more are
reported than it was given. -/
def Bounded (Call : FlowAction → Nat → Nat → Prop) : Prop :=
  ∀ action reported sent, Call action reported sent → sent ≤ reported ∧ reported ≤ action.sendsLeft

theorem reports_bounds {Call : FlowAction → Nat → Nat → Prop} (hbounded : Bounded Call)
    {reports : List (FlowAction × Nat)} {sents : List Nat}
    (h : List.Forall₂ (fun report sent => Call report.1 report.2 sent) reports sents) :
    sents.sum ≤ (reports.map Prod.snd).sum ∧
      (reports.map Prod.snd).sum ≤ ((reports.map Prod.fst).map FlowAction.sendsLeft).sum := by
  induction h with
  | nil => simp
  | cons hcall _ ih =>
      have hone := hbounded _ _ _ hcall
      simp only [List.sum_cons, List.map_cons]
      omega

theorem Performed.bounds {Call : FlowAction → Nat → Nat → Prop} (hbounded : Bounded Call)
    {lib : Library} {asked : Action} {input : Json} {spent : Nat}
    (h : Performed Call lib asked input spent) :
    spent + asked.returned input ≤ asked.direct + asked.reported lib input ∧
      asked.reported lib input ≤ asked.granted := by
  obtain ⟨own, sents, hown, hcalls, rfl⟩ := h
  obtain ⟨hsents, hreported⟩ := reports_bounds hbounded hcalls
  rw [Action.map_fst_reports] at hreported
  unfold Action.reported Action.granted
  omega

theorem Underway.bounds {Call : FlowAction → Nat → Nat → Prop} (hbounded : Bounded Call)
    {asked : Action} {spent : Nat} (h : Underway Call asked spent) :
    spent ≤ asked.direct + asked.granted := by
  obtain ⟨own, sents, hown, hcalls, rfl⟩ := h
  have hsents : sents.sum ≤ (asked.flows.map FlowAction.sendsLeft).sum := by
    clear hown
    generalize asked.flows = flows at hcalls
    induction hcalls with
    | nil => simp
    | cons hcall _ ih =>
        obtain ⟨reported, hcall⟩ := hcall
        have hone := hbounded _ _ _ hcall
        simp only [List.sum_cons, List.map_cons]
        omega
  unfold Action.granted
  omega

/-! ## Runs of flows with problems -/

/-- A run that ends before its first step has opened no loop. -/
theorem finish_fresh (scene : Scene) (message : String) :
    Yields (finish scene { state := {} } .failed message false) fun after =>
      after.state.sends = 0 ∧ after.isDone := by
  refine ⟨_, rfl, ?_, _, _, _, _, _, rfl⟩
  simp only
  split_ifs <;> rfl

/-- A flow with problems ends in its first turn, before any send. -/
theorem begin_of_problems {lib : Library} {raw : Json} (context : Context) {turn : Turn}
    {problems : List Problem}
    (hproblems : validateFlow lib (normalizeFlow lib.numerals raw) context.requests
      context.flows ≠ [])
    (h : flowBegin lib raw context = .ok (turn, problems)) :
    turn.state.sends = 0 ∧ turn.isDone := by
  have hlength := List.length_pos_iff.2 hproblems
  unfold flowBegin beginTurn at h
  simp only [createScene, gt_iff_lt, hlength, if_true] at h
  split at h
  · cases h
  · obtain ⟨after, hafter, hsends, hdone⟩ := finish_fresh
      (createScene lib (normalizeFlow lib.numerals raw) context) ‹String›
    simp only [createScene] at hafter
    have haction : after.action ≠ none := by
      obtain ⟨_, _, _, _, _, haction⟩ := hdone
      simp [haction]
    simp only [hafter, bind, Except.bind, proceed_of_action haction] at h
    obtain ⟨rfl, -⟩ := Prod.mk.inj (Except.ok.inj h)
    exact ⟨hsends, hdone⟩

theorem Turn.isDone.asked {turn : Turn} {asked : Action} (hdone : turn.isDone)
    (hasked : turn.action = some asked) : asked.isDone = true := by
  obtain ⟨_, _, _, _, _, haction⟩ := hdone
  obtain rfl := Option.some.inj (hasked.symm.trans haction)
  rfl

theorem Action.flows_of_isDone {asked : Action} (h : asked.isDone = true) :
    asked.flows = [] ∧ asked.direct = 0 ∧ asked.granted = 0 ∧ asked.isParallel = false := by
  cases asked <;>
    simp_all [Action.isDone, Action.flows, Action.direct, Action.granted, Action.isParallel]

/-! ## Whole runs -/

/-- The counts of a run: what was sent, with what the action under way sends
itself, is within what the state has counted, and that, with what the action
hands on, is within the budget. -/
structure WithinBudget (limit : Nat) (turn : Turn) (asked : Action) (sent : Nat) : Prop where
  sent_le : sent + asked.direct ≤ turn.state.sends
  sends_le : turn.state.sends + asked.granted ≤ limit

section Runs

variable {Call : FlowAction → Nat → Nat → Prop} (hbounded : Bounded Call) {world : World}
  {raw : Json} {sendsLeft : Option Nat} {turn : Turn} {asked : Action} {sent : Nat}

omit hbounded in
theorem Spending.run (h : Spending Call world raw sendsLeft turn asked sent) :
    ∃ log, Run world.lib raw world.requests world.flows log turn := by
  induction h with
  | begin h _ => exact ⟨_, .begin h⟩
  | peek _ _ h ih =>
      obtain ⟨log, hlog⟩ := ih
      have hnext := Run.advance hlog h
      exact ⟨_, hnext⟩
  | answer _ _ _ _ h _ ih =>
      obtain ⟨log, hlog⟩ := ih
      have hnext := Run.advance hlog h
      exact ⟨_, hnext⟩

omit hbounded in
/-- A run of a flow with problems is its first turn. -/
theorem Spending.of_problems
    (hproblems : world.problems raw ≠ [])
    (h : Spending Call world raw sendsLeft turn asked sent) :
    sent = 0 ∧ turn.state.sends = 0 ∧ asked.isDone = true := by
  induction h with
  | @begin vars turn problems asked h hasked =>
      obtain ⟨hsends, hdone⟩ :=
        begin_of_problems ⟨world.requests, world.flows, vars, sendsLeft⟩ hproblems h
      exact ⟨rfl, hsends, hdone.asked hasked⟩
  | peek _ hsettles _ ih =>
      obtain ⟨-, -, hdone⟩ := ih
      have hparallel := (Action.flows_of_isDone hdone).2.2.2
      simp [Action.Settles, hparallel] at hsettles
  | answer _ hgoes _ _ _ _ ih =>
      rw [ih.2.2] at hgoes
      cases hgoes

include hbounded

/-- Every turn of a run keeps the counts within the budget. -/
theorem Spending.within (hvalid : world.problems raw = [])
    (h : Spending Call world raw sendsLeft turn asked sent) :
    Awaits (world.flowOf raw) turn.state asked ∧
      WithinBudget (world.budget raw sendsLeft) turn asked sent := by
  induction h with
  | @begin vars turn problems asked h hasked =>
      have hready : Ready (world.scene raw vars sendsLeft) := ready_createScene _ hvalid
      have hturned : Turned (world.scene raw vars sendsLeft) [] 0 0 turn :=
        (beginTurn_turned hready).result h
      refine ⟨hturned.awaits hasked, ?_, ?_⟩
      · have hsends := hturned.sends_eq
        rw [Turn.direct_of_action hasked] at hsends
        omega
      · have hwithin := hturned.within (by omega)
        rw [Turn.granted_of_action hasked] at hwithin
        exact hwithin
  | @peek vars turn next asked input sent hrun hsettles h ih =>
      obtain ⟨hawaits, hwithin⟩ := ih
      have hready : Ready (world.scene raw vars sendsLeft) := ready_createScene _ hvalid
      obtain ⟨log, hlog⟩ := hrun.run
      obtain ⟨hfit, hresting, hplaced⟩ := run_rests hvalid hlog
      rcases (advanceTurn_turned hready hfit hplaced.bounds hresting input).result h with
        ⟨-, -, hsettled⟩ | hpeeked
      · rw [Awaits.restsAt_parallel hready hawaits] at hsettled
        exact absurd hsettled hsettles
      · obtain ⟨stop, rfl⟩ := hpeeked.after_eq
        exact ⟨hawaits, hwithin.sent_le, hwithin.sends_le⟩
  | @answer vars turn next asked asked' input sent spent hrun _ hsettles hperformed h hasked ih =>
      obtain ⟨hawaits, hwithin⟩ := ih
      have hready : Ready (world.scene raw vars sendsLeft) := ready_createScene _ hvalid
      obtain ⟨log, hlog⟩ := hrun.run
      obtain ⟨hfit, hresting, hplaced⟩ := run_rests hvalid hlog
      have hsettled : RestsAt (world.scene raw vars sendsLeft) .parallel turn.state →
          isTrue (input.field "settled") = true :=
        fun hrests => hsettles ((Awaits.restsAt_parallel hready hawaits).1 hrests)
      rcases (advanceTurn_turned hready hfit hplaced.bounds hresting input).result h with
        ⟨hturned, -, -⟩ | hpeeked
      · obtain ⟨hspent, hreported⟩ := hperformed.bounds hbounded
        have hcount := Awaits.answered_sends hready hawaits hsettled
        have hsends := hturned.sends_eq
        rw [Turn.direct_of_action hasked] at hsends
        have hsent := hwithin.sent_le
        have hlimit := hwithin.sends_le
        have hleft := hturned.within
        rw [Turn.granted_of_action hasked] at hleft
        have hbudget : sendLimit (world.scene raw vars sendsLeft) = world.budget raw sendsLeft := rfl
        have hlib : (world.scene raw vars sendsLeft).lib = world.lib := rfl
        rw [hbudget] at hleft
        rw [hlib] at hcount
        exact ⟨hturned.awaits hasked, by push_cast; omega, hleft (by omega)⟩
      · have hunsettled := hpeeked.unsettled
        rw [hsettled hpeeked.rests] at hunsettled
        cases hunsettled

/-- A call of a flow stays within what its action carries. -/
theorem Spending.call_bounds {left : Nat} (h : Spending Call world raw (some left) turn asked sent)
    {under reported : Nat} (hunder : Underway Call asked under)
    (hreported : (asked.flows = [] ∧ turn.state.sends = reported) ∨ reported = sent + under) :
    sent + under ≤ reported ∧ reported ≤ left := by
  have hspent := hunder.bounds hbounded
  by_cases hvalid : world.problems raw = []
  · obtain ⟨-, hsent, hsends⟩ := h.within hbounded hvalid
    have hleft : world.budget raw (some left) ≤ left := Nat.min_le_right _ _
    rcases hreported with ⟨hflows, hcount⟩ | rfl
    · have hgranted : asked.granted = 0 := by simp [Action.granted, hflows]
      omega
    · omega
  · obtain ⟨rfl, hsends, hdone⟩ := h.of_problems hvalid
    obtain ⟨-, hdirect, hgranted, -⟩ := Action.flows_of_isDone hdone
    omega

end Runs

/-- Every call stays within what its action carries, however deep the calls
inside it go. -/
theorem called_bounded (world : World) (depth : Nat) : Bounded (Called world depth) := by
  induction depth with
  | zero =>
      rintro action reported sent ⟨rfl, rfl⟩
      simp
  | succ depth ih =>
      rintro action reported sent (⟨rfl, rfl⟩ | ⟨flow, -, -, turn, asked, spent, under, hrun, hunder,
        rfl, hreported⟩)
      · simp
      · exact hrun.call_bounds ih hunder hreported

/-- The sends of a flow, of its retries and branches and of all the flows it
calls, those under way included, never exceed its budget, and neither does the
count its state keeps. -/
theorem sends_within_budget {world : World} {raw : Json} {sendsLeft : Option Nat} {depth : Nat}
    {turn : Turn} {asked : Action} {sent under : Nat}
    (hvalid : validateFlow world.lib (normalizeFlow world.lib.numerals raw) world.requests
      world.flows = [])
    (hrun : Spending (Called world depth) world raw sendsLeft turn asked sent)
    (hunder : Underway (Called world depth) asked under) :
    sent + under ≤ min (normalizeFlow world.lib.numerals raw).maxSends
        (sendsLeft.getD maxSendsCap) ∧
      0 ≤ turn.state.sends ∧
      turn.state.sends ≤ min (normalizeFlow world.lib.numerals raw).maxSends
        (sendsLeft.getD maxSendsCap) := by
  have hbounded := called_bounded world depth
  obtain ⟨-, hsent, hsends⟩ := hrun.within hbounded hvalid
  have hspent := hunder.bounds hbounded
  change sent + under ≤ world.budget raw sendsLeft ∧ 0 ≤ turn.state.sends ∧
    turn.state.sends ≤ (world.budget raw sendsLeft : Int)
  omega

def innerFlow : StoredFlow where
  raw := .obj [("id", .str "g"), ("name", .str "Inner"),
    ("steps", .arr [.obj [("id", .str "once"), ("requestId", .str "r")]])]
  id := "g"
  name := "Inner"
  id_eq := rfl
  name_eq := rfl

def nestedWorld : World where
  lib := plainLibrary
  requests := [{ id := "r", path := "Ping", name := "Ping", bodyType := "none" }]
  flows := [innerFlow]

/-- A flow that may make two sends: it sends the request and runs the inner
flow. -/
def outerFlow : Json :=
  .obj [("id", .str "f"), ("name", .str "Outer"), ("maxSends", .num 2),
    ("steps", .arr [.obj [("id", .str "first"), ("requestId", .str "r")],
      .obj [("id", .str "call"), ("kind", .str "flow"), ("flowId", .str "g")]])]

/-- The first turn of the outer flow, the turn after its request was answered,
and the first turn of the flow it runs. -/
def outerRun : Except Fault (Turn × Turn × Turn) := do
  let (first, _) ← flowBegin plainLibrary outerFlow
    ⟨nestedWorld.requests, nestedWorld.flows, [], none⟩
  let second ← flowAdvance plainLibrary outerFlow first.state (.obj [("response", .obj [])])
    ⟨nestedWorld.requests, nestedWorld.flows, [], none⟩
  let (inner, _) ← flowBegin plainLibrary innerFlow.raw
    ⟨nestedWorld.requests, nestedWorld.flows, [], some 1⟩
  return (first, second, inner)

def pingAction (step : String) : SendAction :=
  { step := step, requestId := "r", attempt := 1, attempts := 1, delayMs := 0, vars := [],
    inputs := [] }

/-- The action that runs the inner flow with the one send that is left. -/
def innerAction : FlowAction :=
  { step := "call", flowId := "g", title := "Inner", vars := [], sendsLeft := 1 }

theorem spending_outer {first second inner : Turn} (h : outerRun = .ok (first, second, inner)) :
    Spending (Called nestedWorld 1) nestedWorld outerFlow none second (.flow innerAction) 1 ∧
      Underway (Called nestedWorld 1) (.flow innerAction) 1 := by
  have hactions : outerRun.map (fun turns =>
      (turns.1.action, turns.2.1.action, turns.2.2.action)) =
      .ok (some (.send (pingAction "first")), some (.flow innerAction),
        some (.send (pingAction "once"))) := rfl
  rw [h] at hactions
  obtain ⟨hfirst, hsecond, hinner⟩ : first.action = some (.send (pingAction "first")) ∧
      second.action = some (.flow innerAction) ∧
      inner.action = some (.send (pingAction "once")) := by
    simpa [Except.map] using hactions
  unfold outerRun at h
  simp only [bind, Except.bind] at h
  split at h
  · cases h
  · rename_i begun hbegun
    split at h
    · cases h
    · rename_i next hnext
      split at h
      · cases h
      · rename_i called hcalled
        obtain ⟨rfl, rfl, rfl⟩ : begun.1 = first ∧ next = second ∧ called.1 = inner := by
          simpa [pure, Except.pure] using h
        constructor
        · have hbegin : Spending (Called nestedWorld 1) nestedWorld outerFlow none begun.1
              (.send (pingAction "first")) 0 := .begin hbegun hfirst
          have hperformed : Performed (Called nestedWorld 1) plainLibrary
              (.send (pingAction "first")) (.obj [("response", .obj [])]) 1 :=
            ⟨1, [], by decide, .nil, rfl⟩
          have hnext := Spending.answer hbegin rfl
            (by simp [Action.Settles, Action.isParallel]) hperformed hnext hsecond
          exact hnext
        · have hcall : Called nestedWorld 1 innerAction 1 1 :=
            .inr ⟨innerFlow, by simp [nestedWorld], rfl, called.1, _, 0, 1, .begin hcalled hinner,
              ⟨1, [], by decide, .nil, rfl⟩, rfl, .inr rfl⟩
          exact ⟨0, [1], by decide, .cons ⟨1, hcall⟩ .nil, rfl⟩

theorem sends_within_budget_outer :
    ∃ first second inner, outerRun = .ok (first, second, inner) ∧
      1 + 1 ≤ min 2 maxSendsCap ∧ 0 ≤ second.state.sends ∧
      second.state.sends ≤ min 2 maxSendsCap := by
  obtain ⟨⟨first, second, inner⟩, h⟩ : ∃ turns, outerRun = .ok turns := ⟨_, rfl⟩
  obtain ⟨hrun, hunder⟩ := spending_outer h
  exact ⟨first, second, inner, h, sends_within_budget (by decide +kernel) hrun hunder⟩

end Gostman.Flows
