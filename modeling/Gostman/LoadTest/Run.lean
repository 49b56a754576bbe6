import Gostman.LoadTest.Histogram
import Gostman.Lib.Record
import Mathlib.Data.List.Induction
/-!
# A load test (`loadtest/run.go`, `loadtest/collector.go`)

Workers send one request after the other.  They share a counter of what was issued
and a collector of what came back, which has a mutex.
-/

namespace Gostman.LoadTest

open Gostman.Lib

def MaxErrorSamples : Nat := 10

/-! ## Collecting -/

structure Response where
  error : String
  body : String
  statusCode : Int
  status : String
  size : Nat

structure Sample where
  latency : Nat
  outcome : Response

structure Collector where
  failureStatus : Int
  latencies : Histogram
  statusCodes : Record Int Nat
  networkErrors : Nat
  statusFailures : Nat
  bytes : Nat
  messages : List String

namespace Collector

variable (lib : Library)

def new (failureStatus : Int) : Collector :=
  ⟨failureStatus, newLatencyHistogram lib, [], 0, 0, 0, []⟩

def keepMessage (messages : List String) (message : String) : List String :=
  if message ∈ messages ∨ messages.length ≥ MaxErrorSamples then messages else messages ++ [message]

def record (c : Collector) (measured : Sample) : Collector :=
  let c := { c with latencies := c.latencies.record lib measured.latency }
  let response := measured.outcome
  if response.error ≠ "" then
    { c with
      networkErrors := c.networkErrors + 1
      messages := keepMessage c.messages (response.error ++ ": " ++ response.body) }
  else
    let c := { c with
      statusCodes := c.statusCodes.put response.statusCode ((c.statusCodes.read response.statusCode).getD 0 + 1)
      bytes := c.bytes + response.size }
    if response.statusCode ≥ c.failureStatus then
      { c with
        statusFailures := c.statusFailures + 1
        messages := keepMessage c.messages ("HTTP " ++ response.status) }
    else c

/-- `Report`, without what is computed in floating point from it. -/
structure Report where
  total : Nat
  succeeded : Int
  failed : Nat
  networkErrors : Nat
  statusFailures : Nat
  statusCodes : Record Int Nat
  bytesReceived : Nat
  errorSamples : List String
  distribution : List Histogram.Bin
  stopped : Bool

def report (c : Collector) (stopped : Bool) : Report where
  total := c.latencies.total
  succeeded := c.latencies.total - (c.networkErrors + c.statusFailures)
  failed := c.networkErrors + c.statusFailures
  networkErrors := c.networkErrors
  statusFailures := c.statusFailures
  statusCodes := c.statusCodes
  bytesReceived := c.bytes
  errorSamples := c.messages
  distribution := c.latencies.bins lib DistributionBins
  stopped

end Collector

/-! ## Workers -/

structure Config where
  concurrency : Nat
  requests : Nat
  failureStatus : Int
  concurrency_pos : 0 < concurrency

def Config.workers (config : Config) : Nat :=
  if config.requests > 0 then min config.concurrency config.requests else config.concurrency

/-- Where a worker is in `work` or `workStaged`. -/
inductive Worker where
  /-- In the ramp, or waiting for its stage or for the pacer. -/
  | waiting
  /-- In `claim`, past the pacer. -/
  | paced
  | sending
  /-- In `send`, with what is to be recorded. -/
  | answered (measured : Sample)
  | stopped

/-- What the workers share.  `samples` are those that were recorded. -/
structure Running where
  /-- `issuing.Err() != nil` -/
  isIssuingOver : Bool
  /-- `sending.Err() != nil` -/
  isSendingOver : Bool
  issued : Nat
  workers : List Worker
  collected : Collector
  samples : List Sample
  /-- How many requests were sent, and of how many nothing was recorded. -/
  sent : Nat
  abandoned : Nat

inductive Move where
  /-- The time is over. -/
  | expire
  /-- The run is cancelled. -/
  | cancel
  /-- A wait ends because the time is over. -/
  | giveUp (worker : Nat)
  /-- The pacer lets a worker go on, which may also happen after the end. -/
  | pace (worker : Nat)
  | issue (worker : Nat)
  | answer (worker : Nat) (measured : Sample)
  | finish (worker : Nat)

namespace Running

def setWorker (s : Running) (worker : Nat) (place : Worker) : Running :=
  { s with workers := s.workers.set worker place }

section

variable (s : Running) (worker : Nat) (place : Worker)

@[simp] theorem setWorker_issued : (s.setWorker worker place).issued = s.issued := rfl

@[simp] theorem setWorker_samples : (s.setWorker worker place).samples = s.samples := rfl

@[simp] theorem setWorker_sent : (s.setWorker worker place).sent = s.sent := rfl

@[simp] theorem setWorker_abandoned : (s.setWorker worker place).abandoned = s.abandoned := rfl

end

def step (lib : Library) (config : Config) (s : Running) : Move → Option Running
  | .expire => some { s with isIssuingOver := true }
  | .cancel => some { s with isIssuingOver := true, isSendingOver := true }
  | .giveUp worker =>
      match s.workers[worker]? with
      | some .waiting => if s.isIssuingOver then some (s.setWorker worker .stopped) else none
      | _ => none
  | .pace worker =>
      match s.workers[worker]? with
      | some .waiting => some (s.setWorker worker .paced)
      | _ => none
  | .issue worker =>
      match s.workers[worker]? with
      | some .paced =>
          if config.requests = 0 then some { s.setWorker worker .sending with sent := s.sent + 1 }
          else if s.issued + 1 ≤ config.requests then
            some { s.setWorker worker .sending with issued := s.issued + 1, sent := s.sent + 1 }
          else some { s.setWorker worker .stopped with issued := s.issued + 1 }
      | _ => none
  | .answer worker measured =>
      match s.workers[worker]? with
      | some .sending =>
          if s.isSendingOver then some { s.setWorker worker .waiting with abandoned := s.abandoned + 1 }
          else some (s.setWorker worker (.answered measured))
      | _ => none
  | .finish worker =>
      match s.workers[worker]? with
      | some (.answered measured) =>
          some { s.setWorker worker .waiting with
            collected := s.collected.record lib measured
            samples := s.samples ++ [measured] }
      | _ => none

def start (lib : Library) (config : Config) : Running where
  isIssuingOver := false
  isSendingOver := false
  issued := 0
  workers := List.replicate config.workers .waiting
  collected := .new lib config.failureStatus
  samples := []
  sent := 0
  abandoned := 0

inductive Reached (lib : Library) (config : Config) : Running → Prop where
  | start : Reached lib config (start lib config)
  | step {s s' : Running} (move : Move) : Reached lib config s → s.step lib config move = some s' → Reached lib config s'

end Running

/-! ## What is collected -/

namespace Response

def isNetworkError (response : Response) : Bool :=
  response.error ≠ ""

def isStatusFailure (failureStatus : Int) (response : Response) : Bool :=
  response.error = "" ∧ response.statusCode ≥ failureStatus

def isSuccess (failureStatus : Int) (response : Response) : Bool :=
  response.error = "" ∧ response.statusCode < failureStatus

def hasStatus (code : Int) (response : Response) : Bool :=
  response.error = "" ∧ response.statusCode = code

def failure (failureStatus : Int) (response : Response) : Option String :=
  if response.error ≠ "" then some (response.error ++ ": " ++ response.body)
  else if response.statusCode ≥ failureStatus then some ("HTTP " ++ response.status)
  else none

end Response

structure Accounts (failureStatus : Int) (outcomes : List Response) (c : Collector) : Prop where
  limit : c.failureStatus = failureStatus
  networkErrors : c.networkErrors = outcomes.countP Response.isNetworkError
  statusFailures : c.statusFailures = outcomes.countP (Response.isStatusFailure failureStatus)
  statusCodes : ∀ code, (c.statusCodes.read code).getD 0 = outcomes.countP (Response.hasStatus code)
  all : (c.statusCodes.map Prod.snd).sum + c.networkErrors = outcomes.length
  messages : c.messages = (outcomes.filterMap (Response.failure failureStatus)).foldl Collector.keepMessage []

theorem sum_put (record : Record Int Nat) (key : Int) (value : Nat) :
    ((record.put key value).map Prod.snd).sum + (record.read key).getD 0 = (record.map Prod.snd).sum + value := by
  induction record with
  | nil => simp [Record.put]
  | cons entry rest ih =>
    obtain ⟨name, old⟩ := entry
    rw [Record.put, Record.read_cons]
    split_ifs with hname
    · simp only [List.map_cons, List.sum_cons, Option.getD_some]
      omega
    · simp only [List.map_cons, List.sum_cons]
      omega

namespace Collector

variable {lib : Library} (c : Collector) (measured : Sample)

theorem record_limit : (c.record lib measured).failureStatus = c.failureStatus := by
  simp only [record]
  split_ifs <;> rfl

theorem record_latencies : (c.record lib measured).latencies = c.latencies.record lib measured.latency := by
  simp only [record]
  split_ifs <;> rfl

theorem record_networkErrors : (c.record lib measured).networkErrors =
    c.networkErrors + if measured.outcome.isNetworkError then 1 else 0 := by
  simp only [record, Response.isNetworkError]
  split_ifs <;> simp_all

theorem record_statusFailures : (c.record lib measured).statusFailures =
    c.statusFailures + if measured.outcome.isStatusFailure c.failureStatus then 1 else 0 := by
  simp only [record, Response.isStatusFailure]
  split_ifs <;> simp_all
  omega

theorem record_statusCodes : (c.record lib measured).statusCodes =
    if measured.outcome.isNetworkError then c.statusCodes
    else c.statusCodes.put measured.outcome.statusCode ((c.statusCodes.read measured.outcome.statusCode).getD 0 + 1) := by
  simp only [record, Response.isNetworkError]
  split_ifs <;> simp_all

theorem record_messages : (c.record lib measured).messages =
    (measured.outcome.failure c.failureStatus).toList.foldl keepMessage c.messages := by
  simp only [record, Response.failure]
  split_ifs <;> rfl

end Collector

theorem Accounts.record {lib : Library} {failureStatus : Int} {outcomes : List Response} {c : Collector}
    (h : Accounts failureStatus outcomes c) (measured : Sample) :
    Accounts failureStatus (outcomes ++ [measured.outcome]) (c.record lib measured) := by
  have hcount (p : Response → Bool) :
      (outcomes ++ [measured.outcome]).countP p = outcomes.countP p + if p measured.outcome then 1 else 0 := by
    rw [List.countP_append, List.countP_singleton]
  refine ⟨?_, ?_, ?_, ?_, ?_, ?_⟩
  · rw [Collector.record_limit, h.limit]
  · rw [Collector.record_networkErrors, h.networkErrors, hcount]
  · rw [Collector.record_statusFailures, h.statusFailures, h.limit, hcount]
  · intro code
    rw [Collector.record_statusCodes, hcount, ← h.statusCodes]
    unfold Response.isNetworkError Response.hasStatus
    by_cases herror : measured.outcome.error = ""
    · by_cases hcode : measured.outcome.statusCode = code
      · simp [herror, hcode]
      · simp [herror, hcode, Record.read_put, Ne.symm hcode]
    · simp [herror]
  · have hall := h.all
    have hsum := sum_put c.statusCodes measured.outcome.statusCode
      ((c.statusCodes.read measured.outcome.statusCode).getD 0 + 1)
    rw [Collector.record_statusCodes, Collector.record_networkErrors, List.length_append, List.length_singleton]
    split_ifs <;> omega
  · rw [Collector.record_messages, h.messages, h.limit, List.filterMap_append, List.foldl_append]
    cases hmessage : measured.outcome.failure failureStatus <;> simp [hmessage]

/-- What is kept of failures: the first few that differ. -/
theorem keepMessage_foldl (messages : List String) :
    (messages.foldl Collector.keepMessage []).Nodup ∧ (messages.foldl Collector.keepMessage []).length ≤ MaxErrorSamples ∧
      (∀ message ∈ messages.foldl Collector.keepMessage [], message ∈ messages) ∧
      ((messages.foldl Collector.keepMessage []).length < MaxErrorSamples →
        ∀ message ∈ messages, message ∈ messages.foldl Collector.keepMessage []) := by
  induction messages using List.reverseRecOn with
  | nil => simp
  | append_singleton messages last ih =>
    obtain ⟨hnodup, hlength, hmem, hall⟩ := ih
    rw [List.foldl_append, List.foldl_cons, List.foldl_nil]
    generalize messages.foldl Collector.keepMessage [] = kept at *
    unfold Collector.keepMessage
    split_ifs with hkept
    · refine ⟨hnodup, hlength, fun message hin => List.mem_append_left _ (hmem message hin), ?_⟩
      intro hshort message hin
      obtain hin | hin := List.mem_append.1 hin
      · exact hall hshort message hin
      · rw [List.mem_singleton.1 hin]
        exact hkept.resolve_right (Nat.not_le_of_lt hshort)
    · obtain ⟨hnew, hshort⟩ := not_or.1 hkept
      refine ⟨?_, ?_, ?_, ?_⟩
      · rw [← List.concat_eq_append]
        exact hnodup.concat hnew
      · rw [List.length_append, List.length_singleton]
        omega
      · intro message hin
        obtain hin | hin := List.mem_append.1 hin
        · exact List.mem_append_left _ (hmem message hin)
        · exact List.mem_append_right _ hin
      · intro _ message hin
        obtain hin | hin := List.mem_append.1 hin
        · exact List.mem_append_left _ (hall (Nat.lt_of_not_le hshort) message hin)
        · exact List.mem_append_right _ hin

theorem foldl_accounts (lib : Library) (failureStatus : Int) (samples : List Sample) :
    Accounts failureStatus (samples.map Sample.outcome) (samples.foldl (Collector.record lib) (.new lib failureStatus)) ∧
      (samples.foldl (Collector.record lib) (.new lib failureStatus)).latencies = histogramOf lib (samples.map Sample.latency) := by
  induction samples using List.reverseRecOn with
  | nil => exact ⟨⟨rfl, rfl, rfl, fun _ => rfl, rfl, rfl⟩, rfl⟩
  | append_singleton samples last ih =>
    obtain ⟨haccounts, hlatencies⟩ := ih
    rw [List.foldl_append, List.map_append, List.map_append]
    refine ⟨haccounts.record last, ?_⟩
    rw [List.foldl_cons, List.foldl_nil, Collector.record_latencies, hlatencies, histogramOf, histogramOf,
      List.foldl_append]
    rfl

theorem countP_kinds (failureStatus : Int) (outcomes : List Response) :
    outcomes.countP Response.isNetworkError + outcomes.countP (Response.isStatusFailure failureStatus) +
      outcomes.countP (Response.isSuccess failureStatus) = outcomes.length := by
  induction outcomes with
  | nil => rfl
  | cons outcome rest ih =>
    have hone : (if outcome.isNetworkError then 1 else 0) + (if outcome.isStatusFailure failureStatus then 1 else 0) +
        (if outcome.isSuccess failureStatus then 1 else 0) = 1 := by
      unfold Response.isNetworkError Response.isStatusFailure Response.isSuccess
      by_cases herror : outcome.error = ""
      · by_cases hstatus : outcome.statusCode ≥ failureStatus
        · simp [herror, hstatus]
        · simp [herror, not_le.1 hstatus]
      · simp [herror]
    rw [List.countP_cons, List.countP_cons, List.countP_cons, List.length_cons]
    omega

/-- A report counts every sample once: as a success, as a failure of the network or as
a failing status.  The samples of errors are the first few that differ. -/
theorem report_accounts (lib : Library) (failureStatus : Int) (samples : List Sample) (stopped : Bool) :
    let outcomes := samples.map Sample.outcome
    let report := (samples.foldl (Collector.record lib) (.new lib failureStatus)).report lib stopped
    report.total = samples.length ∧ report.failed = report.networkErrors + report.statusFailures ∧
      report.succeeded = outcomes.countP (Response.isSuccess failureStatus) ∧
      report.networkErrors = outcomes.countP Response.isNetworkError ∧
      report.statusFailures = outcomes.countP (Response.isStatusFailure failureStatus) ∧
      (∀ code, (report.statusCodes.read code).getD 0 = outcomes.countP (Response.hasStatus code)) ∧
      (report.statusCodes.map Prod.snd).sum + report.networkErrors = report.total ∧
      report.errorSamples.Nodup ∧ report.errorSamples.length ≤ MaxErrorSamples ∧
      (∀ message ∈ report.errorSamples, ∃ outcome ∈ outcomes, outcome.failure failureStatus = some message) ∧
      (report.errorSamples.length < MaxErrorSamples →
        ∀ outcome ∈ outcomes, ∀ message, outcome.failure failureStatus = some message → message ∈ report.errorSamples) := by
  obtain ⟨haccounts, hlatencies⟩ := foldl_accounts lib failureStatus samples
  have htotal : (samples.foldl (Collector.record lib) (.new lib failureStatus)).latencies.total = samples.length := by
    rw [hlatencies, (histogramOf_counts _).total, List.length_map]
  obtain ⟨hnodup, hshort, hmem, hall⟩ :=
    keepMessage_foldl ((samples.map Sample.outcome).filterMap (Response.failure failureStatus))
  rw [← haccounts.messages] at hnodup hshort hmem hall
  refine ⟨htotal, rfl, ?_, haccounts.networkErrors, haccounts.statusFailures, haccounts.statusCodes, ?_, hnodup, hshort, ?_, ?_⟩
  · have hkinds := countP_kinds failureStatus (samples.map Sample.outcome)
    rw [← haccounts.networkErrors, ← haccounts.statusFailures, List.length_map, ← htotal] at hkinds
    simp only [Collector.report]
    omega
  · exact haccounts.all.trans ((List.length_map _).trans htotal.symm)
  · exact fun message hin => List.mem_filterMap.1 (hmem message hin)
  · exact fun hlt outcome houtcome message hmessage => hall hlt message (List.mem_filterMap.2 ⟨outcome, houtcome, hmessage⟩)

/-! ## What is sent -/

/-- A worker with a request that is neither recorded nor abandoned. -/
def Worker.isBusy : Worker → Bool
  | .sending | .answered _ => true
  | _ => false

namespace Running

variable {lib : Library} {config : Config} {s : Running}

structure Books (lib : Library) (config : Config) (s : Running) : Prop where
  collected : s.collected = s.samples.foldl (Collector.record lib) (.new lib config.failureStatus)
  places : s.workers.length = config.workers
  sent : s.sent = s.samples.length + s.abandoned + s.workers.countP Worker.isBusy
  issued : 0 < config.requests → s.sent = min s.issued config.requests
  abandoned : 0 < s.abandoned → s.isSendingOver = true
  expired : s.isSendingOver = true → s.isIssuingOver = true
  stopped : .stopped ∈ s.workers → s.isIssuingOver = true ∨ 0 < config.requests ∧ config.requests < s.issued

theorem countP_worker {worker : Nat} {old : Worker} (hold : s.workers[worker]? = some old) (place : Worker) :
    (s.setWorker worker place).workers.countP Worker.isBusy + (if old.isBusy then 1 else 0) =
      s.workers.countP Worker.isBusy + if place.isBusy then 1 else 0 := by
  obtain ⟨hlt, hget⟩ := List.getElem?_eq_some_iff.1 hold
  have hmem : old ∈ s.workers := hget ▸ List.getElem_mem hlt
  change (s.workers.set worker place).countP Worker.isBusy + _ = _
  rw [List.countP_set hlt, hget]
  have hpos : old.isBusy = true → 0 < s.workers.countP Worker.isBusy := fun hbusy =>
    List.countP_pos_iff.2 ⟨old, hmem, hbusy⟩
  by_cases hbusy : old.isBusy = true
  · have hbusy_pos := hpos hbusy
    rw [if_pos hbusy]
    omega
  · rw [if_neg hbusy]
    omega

theorem stopped_set {worker : Nat} {place : Worker} (hplace : place ≠ .stopped)
    (hmem : .stopped ∈ (s.setWorker worker place).workers) : .stopped ∈ s.workers :=
  (List.mem_or_eq_of_mem_set hmem).resolve_right (Ne.symm hplace)

/-- A worker that goes elsewhere with nothing in hand, or with the same request. -/
theorem Books.setWorker (h : Books lib config s) {worker : Nat} {old place : Worker} (hold : s.workers[worker]? = some old)
    (hbusy : old.isBusy = place.isBusy)
    (hstopped : place = .stopped → s.isIssuingOver = true ∨ 0 < config.requests ∧ config.requests < s.issued) :
    Books lib config (s.setWorker worker place) := by
  have hcount := countP_worker hold place
  rw [hbusy] at hcount
  have hsame := Nat.add_right_cancel hcount
  refine ⟨h.collected, (List.length_set ..).trans h.places, ?_, h.issued, h.abandoned, h.expired, ?_⟩
  · rw [hsame]
    exact h.sent
  · intro hmem
    by_cases hplace : place = .stopped
    · exact hstopped hplace
    · exact h.stopped (stopped_set hplace hmem)

theorem Books.step (h : Books lib config s) {move : Move} {s' : Running} (hstep : s.step lib config move = some s') :
    Books lib config s' := by
  have hplaces (worker : Nat) (place : Worker) : (s.setWorker worker place).workers.length = config.workers :=
    (List.length_set ..).trans h.places
  have hsent := h.sent
  cases move with
  | expire =>
    obtain rfl := Option.some.inj hstep
    exact ⟨h.collected, h.places, h.sent, h.issued, h.abandoned, fun _ => rfl, fun _ => .inl rfl⟩
  | cancel =>
    obtain rfl := Option.some.inj hstep
    exact ⟨h.collected, h.places, h.sent, h.issued, fun _ => rfl, fun _ => rfl, fun _ => .inl rfl⟩
  | giveUp worker =>
    simp only [Running.step] at hstep
    split at hstep
    · rename_i hplace
      split_ifs at hstep with hover
      obtain rfl := Option.some.inj hstep
      exact h.setWorker hplace rfl fun _ => .inl hover
    · cases hstep
  | pace worker =>
    simp only [Running.step] at hstep
    split at hstep
    · rename_i hplace
      obtain rfl := Option.some.inj hstep
      exact h.setWorker hplace rfl (by nofun)
    · cases hstep
  | issue worker =>
    simp only [Running.step] at hstep
    split at hstep
    · rename_i hplace
      have hsending := countP_worker hplace .sending
      have hstopped := countP_worker hplace .stopped
      simp only [Worker.isBusy, Bool.false_eq_true, if_false, if_true, Nat.add_zero] at hsending hstopped
      split_ifs at hstep with hunlimited hfits
      · obtain rfl := Option.some.inj hstep
        refine ⟨h.collected, hplaces _ _, ?_, ?_, h.abandoned, h.expired, fun hmem => h.stopped (stopped_set (by nofun) hmem)⟩
        · simp only [hsending, setWorker_samples, setWorker_abandoned]
          omega
        · omega
      · obtain rfl := Option.some.inj hstep
        refine ⟨h.collected, hplaces _ _, ?_, ?_, h.abandoned, h.expired, ?_⟩
        · simp only [hsending, setWorker_samples, setWorker_abandoned]
          omega
        · intro hpos
          have hissued := h.issued hpos
          change s.sent + 1 = min (s.issued + 1) config.requests
          omega
        · intro hmem
          obtain hover | ⟨hpos, hlt⟩ := h.stopped (stopped_set (by nofun) hmem)
          · exact .inl hover
          · exact .inr ⟨hpos, Nat.lt_succ_of_lt hlt⟩
      · obtain rfl := Option.some.inj hstep
        refine ⟨h.collected, hplaces _ _, ?_, ?_, h.abandoned, h.expired, fun _ => .inr ⟨?_, ?_⟩⟩
        · simp only [hstopped]
          exact h.sent
        · intro hpos
          have hissued := h.issued hpos
          simp only [setWorker_sent]
          omega
        · exact Nat.pos_of_ne_zero hunlimited
        · exact Nat.lt_of_not_le hfits
    · cases hstep
  | answer worker measured =>
    simp only [Running.step] at hstep
    split at hstep
    · rename_i hplace
      have hwaiting := countP_worker hplace .waiting
      simp only [Worker.isBusy, Bool.false_eq_true, if_false, if_true, Nat.add_zero] at hwaiting
      split_ifs at hstep with hover
      · obtain rfl := Option.some.inj hstep
        refine ⟨h.collected, hplaces _ _, ?_, h.issued, fun _ => hover, h.expired,
          fun hmem => h.stopped (stopped_set (by nofun) hmem)⟩
        simp only [setWorker_samples, setWorker_sent]
        omega
      · obtain rfl := Option.some.inj hstep
        exact h.setWorker hplace rfl (by nofun)
    · cases hstep
  | finish worker =>
    simp only [Running.step] at hstep
    split at hstep
    · rename_i measured hplace
      have hwaiting := countP_worker hplace .waiting
      simp only [Worker.isBusy, Bool.false_eq_true, if_false, if_true, Nat.add_zero] at hwaiting
      obtain rfl := Option.some.inj hstep
      refine ⟨?_, hplaces _ _, ?_, h.issued, h.abandoned, h.expired, fun hmem => h.stopped (stopped_set (by nofun) hmem)⟩
      · simp only [List.foldl_append, List.foldl_cons, List.foldl_nil, ← h.collected]
      · simp only [List.length_append, List.length_singleton, setWorker_sent, setWorker_abandoned]
        omega
    · cases hstep

theorem Reached.books (h : Reached lib config s) : Books lib config s := by
  induction h with
  | start =>
    have hidle : (Running.start lib config).workers.countP Worker.isBusy = 0 :=
      List.countP_eq_zero.2 fun worker hworker => by simp [(List.mem_replicate.1 hworker).2, Worker.isBusy]
    refine ⟨rfl, List.length_replicate, by rw [hidle]; rfl, fun _ => (Nat.zero_min _).symm, nofun, nofun, ?_⟩
    intro hstopped
    exact nomatch (List.mem_replicate.1 hstopped).2
  | step move _ hstep ih => exact ih.step hstep

/-- A run with a number of requests never sends more, and records what it has sent
unless it is cancelled.  When all workers have stopped, and neither the time was over
nor the run cancelled, its report counts exactly that number. -/
theorem run_requests (h : Reached lib config s) :
    let total := (s.collected.report lib s.isSendingOver).total
    total ≤ s.sent ∧ (0 < config.requests → s.sent ≤ config.requests) ∧
      (s.isSendingOver = false → s.sent = total + s.workers.countP Worker.isBusy) ∧
      ((∀ worker ∈ s.workers, worker = .stopped) → s.isIssuingOver = false → total = config.requests) := by
  have hbooks := h.books
  have htotal : (s.collected.report lib s.isSendingOver).total = s.samples.length := by
    change s.collected.latencies.total = _
    rw [hbooks.collected, (foldl_accounts lib config.failureStatus s.samples).2, (histogramOf_counts _).total,
      List.length_map]
  have hsent := hbooks.sent
  simp only
  rw [htotal]
  have habandoned (hsending : s.isSendingOver = false) : s.abandoned = 0 := by
    by_contra hne
    exact Bool.false_ne_true (hsending.symm.trans (hbooks.abandoned (Nat.pos_of_ne_zero hne)))
  refine ⟨by omega, ?_, ?_, ?_⟩
  · intro hpos
    rw [hbooks.issued hpos]
    exact min_le_right _ _
  · intro hsending
    rw [habandoned hsending] at hsent
    omega
  · intro hall hissuing
    have hsending : s.isSendingOver = false := by
      by_contra hne
      exact Bool.false_ne_true (hissuing.symm.trans (hbooks.expired (eq_true_of_ne_false hne)))
    have hworkers : 0 < s.workers.length := by
      rw [hbooks.places]
      have hpos := config.concurrency_pos
      unfold Config.workers
      split_ifs <;> omega
    obtain ⟨worker, hworker⟩ := List.exists_mem_of_length_pos hworkers
    have hidle : s.workers.countP Worker.isBusy = 0 :=
      List.countP_eq_zero.2 fun worker hworker => by simp [hall worker hworker, Worker.isBusy]
    have hstopped := hbooks.stopped (hall worker hworker ▸ hworker)
    rw [hissuing] at hstopped
    obtain ⟨hpos, hlt⟩ := hstopped.resolve_left Bool.false_ne_true
    have hissued := hbooks.issued hpos
    have hnone := habandoned hsending
    omega

def twoWorkers : Config :=
  ⟨2, 3, 500, Nat.two_pos⟩

/-- Two workers send three requests: the second request is still in flight when the
first worker sends the third. -/
theorem two_workers_requests :
    ∃ s, Reached exactly twoWorkers s ∧ (s.collected.report exactly s.isSendingOver).total = twoWorkers.requests := by
  have hsent := ((((Reached.start : Reached exactly twoWorkers _).step (.pace 0) rfl).step (.pace 1) rfl).step
    (.issue 1) rfl).step (.issue 0) rfl
  have hagain := (((hsent.step (.answer 0 ⟨1000000, ⟨"", "", 200, "200 OK", 2⟩⟩) rfl).step (.finish 0) rfl).step
    (.pace 0) rfl).step (.issue 0) rfl
  have hfirst := (((hagain.step (.answer 1 ⟨2000000, ⟨"", "", 503, "503 Service Unavailable", 0⟩⟩) rfl).step
    (.finish 1) rfl).step (.pace 1) rfl).step (.issue 1) rfl
  have hstopped := (((hfirst.step (.answer 0 ⟨3000000, ⟨"refused", "", 0, "", 0⟩⟩) rfl).step (.finish 0) rfl).step
    (.pace 0) rfl).step (.issue 0) rfl
  refine ⟨_, hstopped, (run_requests hstopped).2.2.2 ?_ rfl⟩
  intro worker hworker
  have hboth : worker ∈ [Worker.stopped, Worker.stopped] := hworker
  simpa using hboth

end Running

end Gostman.LoadTest
