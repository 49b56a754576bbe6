import Gostman.Runner.Drive
import Mathlib.Data.Multiset.AddSub
import Mathlib.Algebra.Order.Group.Multiset
import Mathlib.Tactic.Abel
/-!
# Where the results of a flow run are

Every result of `send` is in one place at a time: pending in its run, among the
notes a branch holds back, with a branch that is done, or in the ledger.  Here
are these places as multisets, with what the functions of the runner move
between them, and the sends counted along the tree of runs in the same way.
-/

namespace Gostman.Runner

open Gostman.Lib Gostman.Js
open Gostman.Flows (Action Branch FlowAction SendAction StoredFlow)

/-! ## What is where -/

/-- The part of a result that nothing changes after `send`: `settle` and `stopped`
set the rest. -/
def Result.core (result : Result) : Result :=
  { result with failed := false, tests := [], handled := "" }

def cores (results : List Result) : Multiset Result := (results.map Result.core : List Result)

@[simp] theorem cores_nil : cores [] = 0 := rfl

@[simp] theorem cores_append (first second : List Result) :
    cores (first ++ second) = cores first + cores second := by
  simp [cores]

theorem cores_cons (result : Result) (results : List Result) :
    cores (result :: results) = cores [result] + cores results :=
  cores_append [result] results

theorem cores_perm {first second : List Result} (h : first.Perm second) :
    cores first = cores second :=
  Multiset.coe_eq_coe.2 (h.map _)

def FlowNote.results : FlowNote → List Result
  | .event _ => []
  | .result found => [found]

def noted (notes : List FlowNote) : Multiset Result := cores (notes.flatMap FlowNote.results)

def Sink.noted : Sink → Multiset Result
  | held notes => Runner.noted notes
  | ledger results _ => cores results

def FlowRun.waiting (run : FlowRun) : Multiset Result := cores (run.pending.map Prod.snd)

def BranchDone.carried (done : BranchDone) : Multiset Result :=
  cores done.result.toList + noted done.held

mutual

def Task.heldBelow : Task → Multiset Result
  | .calling _ _ child task => child.waiting + task.heldBelow
  | .gathering _ _ lanes => lanesHeld lanes
  | _ => 0

def Lane.held : Lane → Multiset Result
  | .calling _ _ notes child task => noted notes + child.waiting + task.heldBelow
  | .closing done => done.carried
  | .finished done => done.carried
  | _ => 0

def lanesHeld : List Lane → Multiset Result
  | [] => 0
  | lane :: lanes => lane.held + lanesHeld lanes

end

mutual

def Task.sendsBelow : Task → Nat
  | .calling _ _ child task => child.sends + task.sendsBelow
  | .gathering _ _ lanes => lanesSends lanes
  | _ => 0

def Lane.sends : Lane → Nat
  | .waiting _ => 0
  | .sending _ runner => runner.sends
  | .calling _ runner _ child task => runner.sends + child.sends + task.sendsBelow
  | .closing done => done.sends
  | .finished done => done.sends

def lanesSends : List Lane → Nat
  | [] => 0
  | lane :: lanes => lane.sends + lanesSends lanes

end

namespace Config

/-- The results in the places of a run and of those below it. -/
def held (config : Config) : Multiset Result :=
  config.sink.noted + config.run.waiting + config.task.heldBelow

def sends (config : Config) : Nat := config.run.sends + config.task.sendsBelow

end Config

theorem lanesHeld_append (before after : List Lane) :
    lanesHeld (before ++ after) = lanesHeld before + lanesHeld after := by
  induction before with
  | nil => simp [lanesHeld]
  | cons lane before ih =>
      rw [List.cons_append, lanesHeld, ih, lanesHeld]
      abel

theorem lanesSends_append (before after : List Lane) :
    lanesSends (before ++ after) = lanesSends before + lanesSends after := by
  induction before with
  | nil => simp [lanesSends]
  | cons lane before ih =>
      rw [List.cons_append, lanesSends, ih, lanesSends]
      omega

theorem lanes_waiting (branches : List Branch) :
    lanesHeld (branches.map .waiting) = 0 ∧ lanesSends (branches.map .waiting) = 0 := by
  induction branches with
  | nil => simp [lanesHeld, lanesSends]
  | cons branch branches ih =>
      simp [lanesHeld, lanesSends, Lane.held, Lane.sends, ih.1, ih.2]

/-! ## Notes and results -/

@[simp] theorem Sink.noted_notify (sink : Sink) (event : FlowEvent) :
    (sink.notify event).noted = sink.noted := by
  cases sink <;> simp [notify, noted, Runner.noted, FlowNote.results]

@[simp] theorem Sink.noted_record (sink : Sink) (result : Result) :
    (sink.record result).noted = sink.noted + cores [result] := by
  cases sink <;> simp [record, noted, Runner.noted, FlowNote.results]

theorem noted_recordAll (sink : Sink) (results : List Result) :
    (results.foldl (fun sink result => sink.record result) sink).noted =
      sink.noted + cores results := by
  induction results generalizing sink with
  | nil => simp
  | cons result results ih =>
      rw [List.foldl_cons, ih, Sink.noted_record, cores_cons result results]
      abel

theorem noted_replay (sink : Sink) (notes : List FlowNote) :
    (FlowRun.replay sink notes).noted = sink.noted + noted notes := by
  induction notes generalizing sink with
  | nil => simp [FlowRun.replay, noted]
  | cons note notes ih =>
      cases note with
      | event event => simp [FlowRun.replay, ih, noted, FlowNote.results]
      | result result =>
          rw [FlowRun.replay, ih, Sink.noted_record]
          simp only [noted, List.flatMap_cons, FlowNote.results, cores_append]
          abel

def Sink.isLedger : Sink → Bool
  | held _ => false
  | ledger _ _ => true

@[simp] theorem Sink.isLedger_notify (sink : Sink) (event : FlowEvent) :
    (sink.notify event).isLedger = sink.isLedger := by
  cases sink <;> rfl

@[simp] theorem Sink.isLedger_record (sink : Sink) (result : Result) :
    (sink.record result).isLedger = sink.isLedger := by
  cases sink <;> rfl

theorem isLedger_recordAll (sink : Sink) (results : List Result) :
    (results.foldl (fun sink result => sink.record result) sink).isLedger = sink.isLedger := by
  induction results generalizing sink with
  | nil => rfl
  | cons result results ih => rw [List.foldl_cons, ih, Sink.isLedger_record]

theorem isLedger_replay (sink : Sink) (notes : List FlowNote) :
    (FlowRun.replay sink notes).isLedger = sink.isLedger := by
  induction notes generalizing sink with
  | nil => rfl
  | cons note notes ih => cases note <;> simp [FlowRun.replay, ih]

theorem core_settled (event : FlowEvent) (result : Result) :
    (FlowRun.settled event result).core = result.core := by
  have hchecks : ∀ (checks : List Flows.Check) (start : Result),
      (checks.foldl (fun result check =>
        { result with
          tests := result.tests ++ [check]
          failed := result.failed || (!check.passed && result.handled = "") }) start).core =
        start.core := by
    intro checks
    induction checks with
    | nil => intro start; rfl
    | cons check checks ih =>
        intro start
        rw [List.foldl_cons, ih]
        rfl
  unfold FlowRun.settled
  rw [hchecks]
  split_ifs <;> rfl

theorem cores_settled (event : FlowEvent) (result : Result) :
    cores [FlowRun.settled event result] = cores [result] := by
  simp [cores, core_settled]

/-- What is removed from a record with distinct keys is one entry. -/
theorem cores_remove {pending : Record String Result} (hnodup : pending.keys.Nodup) {step : String}
    {result : Result} (hread : pending.read step = some result) :
    cores (pending.map Prod.snd) =
      cores [result] + cores ((pending.remove step).map Prod.snd) := by
  induction pending with
  | nil => simp at hread
  | cons entry rest ih =>
      obtain ⟨name, value⟩ := entry
      simp only [Record.keys, List.map_cons, List.nodup_cons] at hnodup
      rw [Record.read_cons] at hread
      split_ifs at hread with hname
      · subst hname
        obtain rfl := Option.some.inj hread
        have hrest : Record.remove rest name = rest := by
          refine List.filter_eq_self.2 fun entry hmem => ?_
          have hne : entry.1 ≠ name := fun heq => hnodup.1 (List.mem_map.2 ⟨entry, hmem, heq⟩)
          simpa using hne
        have hremove : Record.remove ((name, value) :: rest) name = Record.remove rest name := by
          simp [Record.remove]
        rw [hremove, hrest, List.map_cons, cores_cons]
      · have hremove : Record.remove ((name, value) :: rest) step =
            (name, value) :: Record.remove rest step := by
          simp [Record.remove, hname]
        rw [hremove, List.map_cons, List.map_cons, cores_cons, ih hnodup.2 hread,
          cores_cons value (List.map Prod.snd (Record.remove rest step))]
        abel

theorem cores_put {pending : Record String Result} {step : String} (hfresh : step ∉ pending.keys)
    (result : Result) :
    cores ((pending.put step result).map Prod.snd) =
      cores (pending.map Prod.snd) + cores [result] := by
  rw [Record.keys_put_of_notMem _ _ _ hfresh]
  simp

theorem keys_remove {α : Type} {record : Record String α} {step key : String} :
    key ∈ (record.remove step).keys ↔ key ≠ step ∧ key ∈ record.keys := by
  simp only [Record.keys, Record.remove, List.mem_map, List.mem_filter]
  constructor
  · rintro ⟨entry, ⟨hmem, hne⟩, rfl⟩
    exact ⟨by simpa using hne, entry, hmem, rfl⟩
  · rintro ⟨hne, entry, hmem, rfl⟩
    exact ⟨entry, ⟨hmem, by simpa using hne⟩, rfl⟩

theorem nodup_remove {α : Type} {record : Record String α} (hnodup : record.keys.Nodup)
    (step : String) : (record.remove step).keys.Nodup :=
  hnodup.sublist (List.filter_sublist.map _)

/-! ## What the functions of a run move -/

def FlowRun.Clear (run : FlowRun) : Prop := run.pending = [] ∧ run.nested = []

theorem FlowRun.Clear.waiting_eq {run : FlowRun} (h : run.Clear) : run.waiting = 0 := by
  rw [FlowRun.waiting, h.1]
  rfl

/-- One event of `absorb`: the results move to the sink, and only what the event is
about is taken out. -/
structure Absorbed (sink : Sink) (run : FlowRun) (event : FlowEvent) (sink' : Sink)
    (run' : FlowRun) : Prop where
  conserved : sink'.noted + run'.waiting = sink.noted + run.waiting
  flow_eq : run'.flow = run.flow
  sends_eq : run'.sends = run.sends
  ledger : sink'.isLedger = sink.isLedger
  nodup : run'.pending.keys.Nodup
  pending : ∀ key ∈ run'.pending.keys,
    key ∈ run.pending.keys ∧ ¬(event.step = key ∧ event.kind = .request)
  nested : ∀ key ∈ run'.nested.keys,
    key ∈ run.nested.keys ∧ ¬(event.step = key ∧ event.kind = .flow)

theorem completed_step (run : FlowRun) (event : FlowEvent) :
    (run.completed event).step = event.step ∧ (run.completed event).kind = event.kind := by
  unfold FlowRun.completed
  simp only
  split
  · split_ifs <;> exact ⟨rfl, rfl⟩
  · exact ⟨rfl, rfl⟩

/-- Either the event settles a pending result, or it goes on as it is. -/
theorem absorbOne_cases (sink : Sink) (run : FlowRun) (event : FlowEvent) :
    (∃ result, run.pending.read event.step = some result ∧ event.kind = .request ∧
      (run.absorbOne sink event).1 =
        sink.record (FlowRun.settled (run.completed event) result) ∧
      (run.absorbOne sink event).2.pending = run.pending.remove event.step) ∨
    ((run.pending.read event.step = none ∨ event.kind ≠ .request) ∧
      (run.absorbOne sink event).1 = sink.notify (run.completed event) ∧
      (run.absorbOne sink event).2.pending = run.pending) := by
  obtain ⟨hstep, hkind⟩ := completed_step run event
  unfold FlowRun.absorbOne
  simp only [hstep, hkind]
  split
  · rename_i result hread
    by_cases hrequest : event.kind = .request
    · rw [if_pos hrequest]
      exact .inl ⟨result, hread, hrequest, rfl, rfl⟩
    · rw [if_neg hrequest]
      exact .inr ⟨.inr hrequest, rfl, rfl⟩
  · rename_i hread
    exact .inr ⟨.inl hread, rfl, rfl⟩

theorem absorbOne_kept (sink : Sink) (run : FlowRun) (event : FlowEvent) :
    (run.absorbOne sink event).2.flow = run.flow ∧
      (run.absorbOne sink event).2.sends = run.sends ∧
      (run.absorbOne sink event).2.nested =
        if event.kind = .flow then run.nested.remove event.step else run.nested := by
  obtain ⟨hstep, hkind⟩ := completed_step run event
  unfold FlowRun.absorbOne
  simp only [hstep, hkind]
  split
  · split_ifs <;> exact ⟨rfl, rfl, rfl⟩
  · exact ⟨rfl, rfl, rfl⟩

theorem absorbOne_absorbed {run : FlowRun} (hnodup : run.pending.keys.Nodup) (sink : Sink)
    (event : FlowEvent) :
    Absorbed sink run event (run.absorbOne sink event).1 (run.absorbOne sink event).2 := by
  obtain ⟨hflow, hsends, hnested⟩ := absorbOne_kept sink run event
  have hnestedKeys : ∀ key ∈ (run.absorbOne sink event).2.nested.keys,
      key ∈ run.nested.keys ∧ ¬(event.step = key ∧ event.kind = .flow) := by
    intro key hkey
    rw [hnested] at hkey
    split_ifs at hkey with hkind
    · obtain ⟨hne, hmem⟩ := keys_remove.1 hkey
      exact ⟨hmem, fun h => hne h.1.symm⟩
    · exact ⟨hkey, fun h => hkind h.2⟩
  obtain ⟨result, hread, hkind, hsink, hpending⟩ | ⟨hnone, hsink, hpending⟩ :=
    absorbOne_cases sink run event
  · refine ⟨?_, hflow, hsends, by simp [hsink], ?_, ?_, hnestedKeys⟩
    · rw [hsink, Sink.noted_record, cores_settled, FlowRun.waiting, FlowRun.waiting, hpending,
        cores_remove hnodup hread]
      abel
    · rw [hpending]
      exact nodup_remove hnodup _
    · intro key hkey
      rw [hpending] at hkey
      obtain ⟨hne, hmem⟩ := keys_remove.1 hkey
      exact ⟨hmem, fun h => hne h.1.symm⟩
  · refine ⟨?_, hflow, hsends, by simp [hsink], ?_, ?_, hnestedKeys⟩
    · rw [hsink, Sink.noted_notify, FlowRun.waiting, FlowRun.waiting, hpending]
    · rw [hpending]
      exact hnodup
    · intro key hkey
      rw [hpending] at hkey
      refine ⟨hkey, fun h => ?_⟩
      rcases hnone with hnone | hkind
      · rw [h.1] at hnone
        exact (Record.read_eq_none_iff _ _).1 hnone hkey
      · exact hkind h.2

/-- `absorb` leaves nothing that one of the events is about. -/
structure AbsorbedAll (sink : Sink) (run : FlowRun) (events : List FlowEvent) (sink' : Sink)
    (run' : FlowRun) : Prop where
  conserved : sink'.noted + run'.waiting = sink.noted + run.waiting
  flow_eq : run'.flow = run.flow
  sends_eq : run'.sends = run.sends
  ledger : sink'.isLedger = sink.isLedger
  pending : ∀ key ∈ run'.pending.keys, key ∈ run.pending.keys ∧
    ∀ event ∈ events, ¬(event.step = key ∧ event.kind = .request)
  nested : ∀ key ∈ run'.nested.keys, key ∈ run.nested.keys ∧
    ∀ event ∈ events, ¬(event.step = key ∧ event.kind = .flow)

theorem absorb_absorbed {run : FlowRun} (hnodup : run.pending.keys.Nodup) (sink : Sink)
    (events : List FlowEvent) :
    AbsorbedAll sink run events (run.absorb sink events).1 (run.absorb sink events).2 := by
  induction events generalizing sink run with
  | nil => exact ⟨rfl, rfl, rfl, rfl, fun key h => ⟨h, by simp⟩, fun key h => ⟨h, by simp⟩⟩
  | cons event events ih =>
      have hone := absorbOne_absorbed hnodup sink event
      have hrest := ih hone.nodup (run.absorbOne sink event).1
      refine ⟨hrest.conserved.trans hone.conserved, hrest.flow_eq.trans hone.flow_eq,
        hrest.sends_eq.trans hone.sends_eq, hrest.ledger.trans hone.ledger, ?_, ?_⟩
      · intro key hkey
        obtain ⟨hmem, hothers⟩ := hrest.pending key hkey
        obtain ⟨hkept, hevent⟩ := hone.pending key hmem
        exact ⟨hkept, List.forall_mem_cons.2 ⟨hevent, hothers⟩⟩
      · intro key hkey
        obtain ⟨hmem, hothers⟩ := hrest.nested key hkey
        obtain ⟨hkept, hevent⟩ := hone.nested key hmem
        exact ⟨hkept, List.forall_mem_cons.2 ⟨hevent, hothers⟩⟩

/-- Reading a record without repeated keys at its sorted keys gives its values. -/
theorem filterMap_sortedKeys {α : Type} {record : Record String α} (hnodup : record.keys.Nodup) :
    ((FlowRun.sortedKeys record).filterMap record.read).Perm (record.map Prod.snd) := by
  have hsorted : (FlowRun.sortedKeys record).Perm record.keys := List.mergeSort_perm _ _
  refine (hsorted.filterMap _).trans (List.Perm.of_eq ?_)
  rw [Record.keys, List.filterMap_map]
  have hread : record.filterMap (record.read ∘ Prod.fst) =
      record.filterMap fun entry => some entry.2 :=
    List.filterMap_congr fun entry hmem => Record.read_of_mem hnodup hmem
  rw [hread, List.filterMap_eq_map']

/-- Everything pending goes to the sink and the run ends clear. -/
structure Flushed (sink : Sink) (run : FlowRun) (sink' : Sink) (run' : FlowRun) : Prop where
  conserved : sink'.noted = sink.noted + run.waiting
  clear : run'.Clear
  sends_eq : run'.sends = run.sends
  ledger : sink'.isLedger = sink.isLedger

theorem halt_flushed {run : FlowRun} (hnodup : run.pending.keys.Nodup) (sink : Sink)
    (message : String) :
    Flushed sink run (run.halt sink message).1 (run.halt sink message).2.1 := by
  refine ⟨?_, ⟨rfl, rfl⟩, rfl, isLedger_recordAll _ _⟩
  change (((FlowRun.sortedKeys run.pending).filterMap run.pending.read).foldl
    (fun sink result => sink.record result) sink).noted = _
  rw [noted_recordAll, cores_perm (filterMap_sortedKeys hnodup), FlowRun.waiting]

theorem stopped_flushed {run : FlowRun} (hnodup : run.pending.keys.Nodup) (sink : Sink) :
    Flushed sink run (run.stopped sink).1 (run.stopped sink).2.1 := by
  unfold FlowRun.stopped
  simp only
  split_ifs with hconcurrent
  · -- The results of a concurrent run are marked first, which keeps their cores.
    set marked : FlowRun := { run with pending := run.pending.map fun entry =>
      (entry.1, { entry.2 with handled := branchStopped }) } with hmarked
    have hkeys : marked.pending.keys = run.pending.keys := by
      simp [hmarked, Record.keys, Function.comp_def]
    have hwaiting : marked.waiting = run.waiting := by
      simp [hmarked, FlowRun.waiting, cores, Function.comp_def, Result.core]
    have h := halt_flushed (hkeys ▸ hnodup) sink flowStopped
    exact ⟨hwaiting ▸ h.conserved, h.clear, h.sends_eq, h.ledger⟩
  · exact halt_flushed hnodup sink flowStopped

/-- A branch that is kept: what it carried is pending in the run or in its sink. -/
structure KeptBranch (sink : Sink) (run : FlowRun) (done : BranchDone) (sink' : Sink)
    (run' : FlowRun) : Prop where
  conserved : sink'.noted + run'.waiting = sink.noted + run.waiting + done.carried
  flow_eq : run'.flow = run.flow
  sends_eq : run'.sends = run.sends + done.sends
  ledger : sink'.isLedger = sink.isLedger
  nodup : run'.pending.keys.Nodup
  pending : ∀ key ∈ run'.pending.keys, key ∈ run.pending.keys ∨
    (key = done.step ∧ done.result.isSome)
  nested : ∀ key ∈ run'.nested.keys, key ∈ run.nested.keys ∨
    (key = done.step ∧ done.nested.isSome)

theorem keepBranch_kept {run : FlowRun} {done : BranchDone} (hnodup : run.pending.keys.Nodup)
    (hfresh : done.step ∉ run.pending.keys) (sink : Sink) :
    KeptBranch sink run done (run.keepBranch sink done).1 (run.keepBranch sink done).2 := by
  obtain ⟨step, input, result, nested, sends, held⟩ := done
  have hsink : (run.keepBranch sink ⟨step, input, result, nested, sends, held⟩).1.noted =
      sink.noted + noted held := noted_replay sink held
  have hpending : (run.keepBranch sink ⟨step, input, result, nested, sends, held⟩).2.pending =
      result.elim run.pending (run.pending.put step) := by
    cases result <;> cases nested <;> rfl
  have hnested : (run.keepBranch sink ⟨step, input, result, nested, sends, held⟩).2.nested =
      nested.elim run.nested (run.nested.put step) := by
    cases result <;> cases nested <;> rfl
  refine ⟨?_, ?_, ?_, isLedger_replay sink held, ?_, ?_, ?_⟩
  · rw [hsink, FlowRun.waiting, FlowRun.waiting, hpending, BranchDone.carried]
    cases result with
    | none => simp only [Option.elim, Option.toList, cores_nil]; abel
    | some result =>
        simp only [Option.elim, Option.toList]
        rw [cores_put hfresh]
        abel
  · cases result <;> cases nested <;> rfl
  · cases result <;> cases nested <;> rfl
  · rw [hpending]
    cases result with
    | none => exact hnodup
    | some result => exact Record.nodup_put hnodup _ _
  · intro key hkey
    rw [hpending] at hkey
    cases result with
    | none => exact .inl hkey
    | some result => exact (Record.mem_keys_put.1 hkey).symm.imp_right fun h => ⟨h, rfl⟩
  · intro key hkey
    rw [hnested] at hkey
    cases nested with
    | none => exact .inl hkey
    | some nested => exact (Record.mem_keys_put.1 hkey).symm.imp_right fun h => ⟨h, rfl⟩

end Gostman.Runner
