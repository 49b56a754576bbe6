import Gostman.Flows.Runs
/-!
# Repeats leave their index variable as they found it

The log of a run pairs the opening of every Repeat with its closing.  Whichever
way a turn leaves a Repeat, the variable it counts in has the value it had just
before, and is gone where it was not there.
-/

namespace Gostman.Flows

open Gostman.Lib Gostman.Js

/-- The variables a host gives to the next turn: those it gave to this one
without what the turn forgets, overlaid with what it writes. -/
def handOver (vars : Record String String) (turn : Turn) : Record String String :=
  (vars.without turn.forgets).overlay turn.writes

/-- A run whose host hands the variables on from turn to turn, with those the
next turn is given. -/
inductive HostRun (lib : Library) (raw : Json) (requests : List SavedRequest)
    (flows : List StoredFlow) : Record String String → List LoopEvent → Turn → Prop where
  | begin {vars : Record String String} {sendsLeft : Option Nat} {turn : Turn}
      {problems : List Problem}
      (h : flowBegin lib raw ⟨requests, flows, vars, sendsLeft⟩ = .ok (turn, problems)) :
      HostRun lib raw requests flows (handOver vars turn) turn.loops turn
  | advance {log : List LoopEvent} {turn next : Turn} {input : Json} {vars : Record String String}
      {sendsLeft : Option Nat} (hrun : HostRun lib raw requests flows vars log turn)
      (h : flowAdvance lib raw turn.state input ⟨requests, flows, vars, sendsLeft⟩ = .ok next) :
      HostRun lib raw requests flows (handOver vars next) (log ++ next.loops) next

theorem HostRun.run {lib : Library} {raw : Json} {requests : List SavedRequest}
    {flows : List StoredFlow} {vars : Record String String} {log : List LoopEvent} {turn : Turn}
    (h : HostRun lib raw requests flows vars log turn) : Run lib raw requests flows log turn := by
  induction h with
  | begin h => exact .begin h
  | advance _ h ih => exact .advance ih h

/-! ## Pairs in a log -/

/-- What is open below does not matter to a log that closes only what it
opens. -/
theorem foldlM_bracketStep_append {events : List LoopEvent} {stack result below : List OpenLoop}
    (h : events.foldlM bracketStep stack = some result) :
    events.foldlM bracketStep (stack ++ below) = some (result ++ below) := by
  induction events generalizing stack with
  | nil =>
      obtain rfl := Option.some.inj h
      rfl
  | cons event rest ih =>
      rw [List.foldlM_cons] at h ⊢
      obtain ⟨next, hnext, hrest⟩ := Option.bind_eq_some_iff.1 h
      have hstep : bracketStep (stack ++ below) event = some (next ++ below) := by
        cases event with
        | opened step name before =>
            obtain rfl := Option.some.inj hnext
            rfl
        | closed step name after =>
            cases stack with
            | nil => cases hnext
            | cons loop others =>
                simp only [bracketStep, List.cons_append] at hnext ⊢
                split_ifs at hnext ⊢ with hloop
                obtain rfl := Option.some.inj hnext
                rfl
      rw [hstep]
      exact ih hrest

/-- An opening and a closing with nothing left open between them belong
together, and carry the same value. -/
theorem bracket_pair {before during after : List LoopEvent} {step name step' name' : String}
    {value value' : Option String} {stack : List OpenLoop}
    (h : bracket (before ++ .opened step name value :: (during ++ .closed step' name' value' :: after)) =
      some stack) (hduring : bracket during = some []) :
    step' = step ∧ name' = name ∧ value' = value := by
  rw [bracket, List.foldlM_append] at h
  obtain ⟨outer, -, h⟩ := Option.bind_eq_some_iff.1 h
  rw [List.foldlM_cons] at h
  change (during ++ _).foldlM bracketStep ([⟨step, name, value⟩] ++ outer) = some stack at h
  rw [List.foldlM_append] at h
  have hmiddle : during.foldlM bracketStep ([] ++ (⟨step, name, value⟩ :: outer)) =
      some ([] ++ (⟨step, name, value⟩ :: outer)) := foldlM_bracketStep_append hduring
  simp only [List.nil_append] at hmiddle
  rw [List.singleton_append, hmiddle] at h
  change (LoopEvent.closed step' name' value' :: after).foldlM bracketStep
    (⟨step, name, value⟩ :: outer) = some stack at h
  rw [List.foldlM_cons] at h
  obtain ⟨next, hnext, -⟩ := Option.bind_eq_some_iff.1 h
  simp only [bracketStep] at hnext
  split_ifs at hnext with heq
  simp only [OpenLoop.mk.injEq] at heq
  exact ⟨heq.1.symm, heq.2.1.symm, heq.2.2.symm⟩

/-- In every run, a Repeat that closes gives its index variable the value it had
just before the Repeat opened, or takes it away where it was not there.  The
Repeats that are open are those of the frames, and a run that is done has closed
them all. -/
theorem repeat_restores_index {lib : Library} {raw : Json} {requests : List SavedRequest}
    {flows : List StoredFlow} {vars : Record String String} {log : List LoopEvent} {turn : Turn}
    (hvalid : validateFlow lib (normalizeFlow lib.numerals raw) requests flows = [])
    (hrun : HostRun lib raw requests flows vars log turn) :
    bracket log = some (openLoops (normalizeFlow lib.numerals raw) turn.state.frames) ∧
      (turn.isDone → bracket log = some []) ∧
      ∀ before during after step name value step' name' value',
        log = before ++ .opened step name value :: (during ++ .closed step' name' value' :: after) →
        bracket during = some [] → step' = step ∧ name' = name ∧ value' = value := by
  obtain ⟨hfit, -, hplaced⟩ := run_rests hvalid hrun.run
  refine ⟨hfit.log, fun hdone => ?_, ?_⟩
  · rw [hfit.log, hplaced.at_end hdone]
    rfl
  · intro before during after step name value step' name' value' hlog hduring
    have h := hfit.log
    rw [hlog] at h
    exact bracket_pair h hduring

/-- The turns of a run of `roundsFlow` whose host holds a variable `n`, with what
it gives to each. -/
def roundsRun : Except Fault (Turn × Turn × Turn) := do
  let given : Record String String := [("n", "before")]
  let (first, _) ← flowBegin plainLibrary roundsFlow ⟨[], [], given, none⟩
  let given := handOver given first
  let second ← flowAdvance plainLibrary roundsFlow first.state .null ⟨[], [], given, none⟩
  let given := handOver given second
  let third ← flowAdvance plainLibrary roundsFlow second.state .null ⟨[], [], given, none⟩
  return (first, second, third)

theorem hostRun_rounds {first second third : Turn} (h : roundsRun = .ok (first, second, third)) :
    ∃ vars, HostRun plainLibrary roundsFlow [] [] vars
      (first.loops ++ second.loops ++ third.loops) third := by
  unfold roundsRun at h
  simp only [bind, Except.bind] at h
  split at h
  · cases h
  · rename_i begun hbegun
    split at h
    · cases h
    · rename_i next hnext
      split at h
      · cases h
      · rename_i last hlast
        obtain ⟨rfl, rfl, rfl⟩ : begun.1 = first ∧ next = second ∧ last = third := by
          simpa [pure, Except.pure] using h
        have hrun := HostRun.advance (HostRun.advance (HostRun.begin hbegun) hnext) hlast
        exact ⟨_, hrun⟩

theorem repeat_restores_index_rounds :
    ∃ first second third, roundsRun = .ok (first, second, third) ∧
      first.loops = [.opened "rounds" "n" (some "before")] ∧
      third.loops = [.closed "rounds" "n" (some "before")] ∧
      bracket (first.loops ++ second.loops ++ third.loops) = some [] := by
  obtain ⟨⟨first, second, third⟩, h⟩ : ∃ turns, roundsRun = .ok turns := ⟨_, rfl⟩
  have hfirst : roundsRun.map (fun turns => turns.1.loops) =
      .ok [.opened "rounds" "n" (some "before")] := rfl
  have hthird : roundsRun.map (fun turns => turns.2.2.loops) =
      .ok [.closed "rounds" "n" (some "before")] := rfl
  have hdone : roundsRun.map (fun turns => turns.2.2.action) =
      .ok (some (.done .passed "An End step stopped the flow." [] [] false)) := rfl
  rw [h] at hfirst hthird hdone
  obtain ⟨vars, hrun⟩ := hostRun_rounds h
  exact ⟨first, second, third, h, Except.ok.inj hfirst, Except.ok.inj hthird,
    (repeat_restores_index (by decide +kernel) hrun).2.1 ⟨_, _, _, _, _, Except.ok.inj hdone⟩⟩

end Gostman.Flows
