import Gostman.Stream.Delivered
/-!
# Batches of messages (`engine/stream_batch.go`, `lib/sseSessions.js`)

Messages are collected and passed on in batches: when there are enough of them, when
a timer fires, and at the end.  Each batch is applied to the session of its stream,
which keeps the last events and counts all of them.
-/

namespace Gostman.Stream

open Gostman.Lib

def batchLimit : Nat := 256
@[irreducible]
def EVENT_LIMIT : Nat := 5000

/-! ## The batcher -/

/-- `batcher`.  `hasTimer` is whether `timer` is set, and `emitted` what `emit` was
called with. -/
structure Batcher (μ : Type) where
  pending : List μ
  hasTimer : Bool
  emitted : List (List μ)

namespace Batcher

variable {μ : Type}

def zero : Batcher μ :=
  ⟨[], false, []⟩

def flushLocked (b : Batcher μ) : Batcher μ :=
  if b.pending = [] then { b with hasTimer := false }
  else ⟨[], false, b.emitted ++ [b.pending]⟩

def add (b : Batcher μ) (message : μ) : Batcher μ :=
  let b := { b with pending := b.pending ++ [message] }
  if b.pending.length ≥ batchLimit then flushLocked b else { b with hasTimer := true }

/-- What is done under the mutex.  A timer that was stopped too late still flushes. -/
inductive Call (μ : Type) where
  | add (message : μ)
  | flush

def call (b : Batcher μ) : Call μ → Batcher μ
  | .add message => b.add message
  | .flush => b.flushLocked

def added (calls : List (Call μ)) : List μ :=
  calls.filterMap fun
    | .add message => some message
    | .flush => none

/-- What was added is emitted or pending, in order.  No batch is empty or too long, and
where something is pending a timer is set. -/
structure Keeps (calls : List (Call μ)) (b : Batcher μ) : Prop where
  all : b.emitted.flatten ++ b.pending = added calls
  batches : ∀ batch ∈ b.emitted, batch ≠ [] ∧ batch.length ≤ batchLimit
  short : b.pending.length < batchLimit
  timer : b.pending ≠ [] → b.hasTimer = true

variable {calls : List (Call μ)} {b : Batcher μ}

theorem flushLocked_flatten (b : Batcher μ) :
    (flushLocked b).emitted.flatten ++ (flushLocked b).pending = b.emitted.flatten ++ b.pending := by
  unfold flushLocked
  split_ifs with hpending
  · rfl
  · simp

theorem flushLocked_pending (b : Batcher μ) : (flushLocked b).pending = [] := by
  unfold flushLocked
  split_ifs with hpending
  · exact hpending
  · rfl

theorem flushLocked_batches {b : Batcher μ} (hbatches : ∀ batch ∈ b.emitted, batch ≠ [] ∧ batch.length ≤ batchLimit)
    (hpending : b.pending.length ≤ batchLimit) :
    ∀ batch ∈ (flushLocked b).emitted, batch ≠ [] ∧ batch.length ≤ batchLimit := by
  unfold flushLocked
  split_ifs with hempty
  · exact hbatches
  · intro batch hbatch
    rw [List.mem_append, List.mem_singleton] at hbatch
    obtain hbatch | rfl := hbatch
    · exact hbatches batch hbatch
    · exact ⟨hempty, hpending⟩

theorem Keeps.call (h : Keeps calls b) (next : Call μ) : Keeps (calls ++ [next]) (b.call next) := by
  have hadded : added (calls ++ [next]) = added calls ++ added [next] := List.filterMap_append
  have hflushed {b : Batcher μ} (hall : b.emitted.flatten ++ b.pending = added (calls ++ [next]))
      (hbatches : ∀ batch ∈ b.emitted, batch ≠ [] ∧ batch.length ≤ batchLimit) (hpending : b.pending.length ≤ batchLimit) :
      Keeps (calls ++ [next]) (flushLocked b) := by
    refine ⟨(flushLocked_flatten b).trans hall, flushLocked_batches hbatches hpending, ?_, ?_⟩
    · rw [flushLocked_pending]
      exact Nat.zero_lt_succ _
    · intro hne
      exact absurd (flushLocked_pending b) hne
  cases next with
  | flush =>
    refine hflushed ?_ h.batches h.short.le
    rw [h.all, hadded]
    simp [added]
  | add message =>
    have hall : b.emitted.flatten ++ (b.pending ++ [message]) = added (calls ++ [.add message]) := by
      rw [← List.append_assoc, h.all, hadded]
      rfl
    have hlength : (b.pending ++ [message]).length = b.pending.length + 1 := by simp
    have hshort := h.short
    simp only [Batcher.call, add]
    split_ifs with hfull
    · exact hflushed hall h.batches (by simp only; omega)
    · exact ⟨hall, h.batches, by simp only; omega, fun _ => rfl⟩

theorem keeps_run (calls : List (Call μ)) : Keeps calls (calls.foldl Batcher.call zero) := by
  have hgo (before after : List (Call μ)) (b : Batcher μ) (h : Keeps before b) :
      Keeps (before ++ after) (after.foldl Batcher.call b) := by
    induction after generalizing before b with
    | nil => rwa [List.append_nil]
    | cons next after ih =>
      have hnext := ih (before ++ [next]) (b.call next) (h.call next)
      rwa [List.append_assoc] at hnext
  exact hgo [] calls zero ⟨rfl, by simp [zero], Nat.zero_lt_succ _, by simp [zero]⟩

end Batcher

/-! ## The session -/

inductive Status where
  | connecting
  | opened
  | reconnecting
  | ended
deriving DecidableEq

/-- A session, without the limit it was begun with and the counts by type. -/
structure Session where
  status : Status
  events : List (Nat × Event)
  dropped : Nat
  total : Nat
  attempt : Nat
  retryMs : Nat
  endReason : Option EndReason
  endDetail : String

def freshSession : Session :=
  ⟨.connecting, [], 0, 0, 0, 0, none, ""⟩

def addEvents (session : Session) (events : List (Nat × Event)) : Session :=
  let combined := session.events ++ events
  let overflow := combined.length - EVENT_LIMIT
  { session with
    events := combined.drop overflow
    dropped := session.dropped + overflow
    total := session.total + events.length }

variable {ρ : Type}

def reduce (session : Session) : StreamMessage ρ → Session
  | .opened _ => { session with status := .opened, retryMs := 0 }
  | .wait retryMs attempt => { session with status := .reconnecting, retryMs, attempt }
  | .ended reason detail => { session with status := .ended, endReason := some reason, endDetail := detail }
  | .event _ _ => session

def eventsOf (messages : List (StreamMessage ρ)) : List (Nat × Event) :=
  messages.filterMap fun
    | .event index event => some (index, event)
    | _ => none

def applyMessages (session : Session) (messages : List (StreamMessage ρ)) : Session :=
  let events := eventsOf messages
  let withEvents := if events.length > 0 then addEvents session events else session
  messages.foldl reduce withEvents

theorem addEvents_append (session : Session) (first second : List (Nat × Event)) :
    addEvents (addEvents session first) second = addEvents session (first ++ second) := by
  unfold addEvents
  simp only [Session.mk.injEq, true_and, and_true]
  refine ⟨?_, ?_, ?_⟩
  · rw [← List.append_assoc]
    generalize session.events ++ first = combined
    rw [← List.drop_append_of_le_length (Nat.sub_le _ _), List.drop_drop]
    congr 1
    simp only [List.length_append, List.length_drop]
    omega
  · simp only [List.length_append, List.length_drop]
    omega
  · rw [List.length_append, Nat.add_assoc]

def addAll (session : Session) (events : List (Nat × Event)) : Session :=
  if events.length > 0 then addEvents session events else session

theorem addAll_nil (session : Session) : addAll session [] = session :=
  if_neg (Nat.lt_irrefl 0)

theorem addAll_of_ne (session : Session) {events : List (Nat × Event)} (h : events ≠ []) :
    addAll session events = addEvents session events :=
  if_pos (List.length_pos_iff.2 h)

theorem addAll_append (session : Session) (first second : List (Nat × Event)) :
    addAll (addAll session first) second = addAll session (first ++ second) := by
  by_cases hfirst : first = []
  · rw [hfirst, addAll_nil, List.nil_append]
  by_cases hsecond : second = []
  · rw [hsecond, addAll_nil, List.append_nil]
  have happend : first ++ second ≠ [] := by simp [hfirst]
  rw [addAll_of_ne _ hfirst, addAll_of_ne _ hsecond, addAll_of_ne _ happend, addEvents_append]

/-- Events and the state of the connection do not meet. -/
theorem reduce_addAll (session : Session) (events : List (Nat × Event)) (messages : List (StreamMessage ρ)) :
    messages.foldl reduce (addAll session events) = addAll (messages.foldl reduce session) events := by
  induction messages generalizing session with
  | nil => rfl
  | cons message rest ih =>
    rw [List.foldl_cons, List.foldl_cons, ← ih]
    congr 1
    unfold addAll
    split_ifs
    · cases message <;> rfl
    · rfl

theorem applyMessages_append (session : Session) (first second : List (StreamMessage ρ)) :
    applyMessages (applyMessages session first) second = applyMessages session (first ++ second) := by
  have hevents : eventsOf (first ++ second) = eventsOf first ++ eventsOf second := List.filterMap_append
  change second.foldl reduce (addAll (first.foldl reduce (addAll session (eventsOf first))) (eventsOf second)) =
    (first ++ second).foldl reduce (addAll session (eventsOf (first ++ second)))
  rw [hevents, ← addAll_append, List.foldl_append, reduce_addAll _ _ first, reduce_addAll _ _ first,
    reduce_addAll _ _ first]

theorem applyMessages_batches (session : Session) (batches : List (List (StreamMessage ρ))) :
    batches.foldl applyMessages session = applyMessages session batches.flatten := by
  induction batches generalizing session with
  | nil => rfl
  | cons batch rest ih => rw [List.foldl_cons, ih, List.flatten_cons, applyMessages_append]

theorem reduce_events (session : Session) (messages : List (StreamMessage ρ)) :
    (messages.foldl reduce session).events = session.events ∧ (messages.foldl reduce session).dropped = session.dropped ∧
      (messages.foldl reduce session).total = session.total := by
  induction messages generalizing session with
  | nil => exact ⟨rfl, rfl, rfl⟩
  | cons message rest ih =>
    obtain ⟨hevents, hdropped, htotal⟩ := ih (reduce session message)
    rw [List.foldl_cons, hevents, hdropped, htotal]
    cases message <;> exact ⟨rfl, rfl, rfl⟩

/-- A fresh session gets the last events, and counts them all. -/
theorem applyMessages_fresh (messages : List (StreamMessage ρ)) :
    (applyMessages freshSession messages).events = (eventsOf messages).drop ((eventsOf messages).length - EVENT_LIMIT) ∧
      (applyMessages freshSession messages).dropped = (eventsOf messages).length - EVENT_LIMIT ∧
      (applyMessages freshSession messages).total = (eventsOf messages).length := by
  obtain ⟨hevents, hdropped, htotal⟩ := reduce_events (addAll freshSession (eventsOf messages)) messages
  change (messages.foldl reduce (addAll freshSession (eventsOf messages))).events = _ ∧
    (messages.foldl reduce (addAll freshSession (eventsOf messages))).dropped = _ ∧
    (messages.foldl reduce (addAll freshSession (eventsOf messages))).total = _
  rw [hevents, hdropped, htotal]
  by_cases hempty : eventsOf messages = []
  · rw [hempty, addAll_nil]
    exact ⟨List.drop_nil.symm, (Nat.zero_sub _).symm, rfl⟩
  · rw [addAll_of_ne _ hempty]
    exact ⟨rfl, Nat.zero_add _, Nat.zero_add _⟩

theorem eventsOf_index (messages : List (StreamMessage ρ)) :
    (eventsOf messages).map Prod.fst = messages.filterMap StreamMessage.index? := by
  induction messages with
  | nil => rfl
  | cons message rest ih =>
    cases message with
    | event index event => exact congrArg (index :: ·) ih
    | opened response => exact ih
    | wait retryMs attempt => exact ih
    | ended reason detail => exact ih

/-- The session of a stream once its batches are applied.  `Stream` flushes when it
returns. -/
def sessionOf (calls : List (Batcher.Call (StreamMessage ρ))) : Session :=
  ((calls ++ [Batcher.Call.flush]).foldl Batcher.call .zero).emitted.foldl applyMessages freshSession

/-- After the last flush everything was emitted. -/
theorem Batcher.emitted_flatten {μ : Type} (calls : List (Call μ)) :
    ((calls ++ [Call.flush]).foldl Batcher.call zero).emitted.flatten = added calls := by
  have hkeeps := keeps_run (calls ++ [Call.flush])
  have hpending : ((calls ++ [Call.flush]).foldl Batcher.call zero).pending = [] := by
    rw [List.foldl_append]
    exact flushLocked_pending _
  have hall := hkeeps.all
  rw [hpending, List.append_nil] at hall
  rw [hall, added, List.filterMap_append]
  exact List.append_nil _

/-- However the timer cuts the messages of a stream, its session ends, has counted all
events of the stream and those that were dropped, and holds just the last ones, which
are numbered one after the other. -/
theorem sessionOf_run (limits : Limits) (streamReconnect : Bool) (env : Nat → Again ρ) (response : ρ) (body : Body)
    {calls : List (Batcher.Call (StreamMessage ρ))} (hcalls : Batcher.added calls = run limits streamReconnect env response body) :
    let events := eventsOf (run limits streamReconnect env response body)
    (sessionOf calls).status = .ended ∧ (sessionOf calls).total = events.length ∧ events.length ≤ limits.maxEvents ∧
      (sessionOf calls).dropped = events.length - EVENT_LIMIT ∧
      (sessionOf calls).events = events.drop (events.length - EVENT_LIMIT) ∧
      (sessionOf calls).events.map Prod.fst =
        List.range' ((sessionOf calls).dropped + 1) ((sessionOf calls).total - (sessionOf calls).dropped) := by
  obtain ⟨s, told, reason, detail, htidy, -, -, hrun⟩ := run_tidy limits streamReconnect env response body
  have hsession : sessionOf calls = applyMessages freshSession (s.out ++ [.ended reason detail]) := by
    rw [sessionOf, applyMessages_batches, Batcher.emitted_flatten, hcalls, hrun]
  have hindex : (eventsOf (s.out ++ [.ended reason detail])).map Prod.fst = List.range' 1 s.events := by
    rw [eventsOf_index, List.filterMap_append, htidy.numbered]
    exact List.append_nil _
  have hlength : (eventsOf (s.out ++ [.ended reason detail])).length = s.events := by
    rw [← List.length_map, hindex, List.length_range']
  obtain ⟨hevents, hdropped, htotal⟩ := applyMessages_fresh (s.out ++ [.ended reason detail])
  rw [← hrun] at hsession hlength hindex hevents hdropped htotal
  simp only
  rw [hsession, hdropped, htotal, hevents]
  refine ⟨?_, rfl, hlength.trans_le htidy.limit, rfl, rfl, ?_⟩
  · rw [hrun, applyMessages, List.foldl_append]
    rfl
  · rw [List.map_drop, hindex, hlength, List.drop_range', Nat.mul_one, Nat.add_comm]

def letterMessages : List (StreamMessage Unit) :=
  run tenEvents false (fun _ => ⟨false, none, .plain ""⟩) () ⟨[letterBytes, letterBytes], .eof, .alive⟩

/-- Two events, with a flush after every message. -/
theorem letter_session :
    let session := sessionOf (letterMessages.flatMap fun message => [.add message, .flush])
    session.status = .ended ∧ session.total = 2 ∧ session.dropped = 0 ∧
      session.events = eventsOf letterMessages ∧ session.events.map Prod.fst = [1, 2] := by
  have hcalls : Batcher.added (letterMessages.flatMap fun message => [.add message, .flush]) = letterMessages := by
    induction letterMessages with
    | nil => rfl
    | cons message rest ih => exact congrArg (message :: ·) ih
  have htwo : (eventsOf letterMessages).length = 2 := by decide +kernel
  obtain ⟨hended, htotal, -, hdropped, hevents, hnumbered⟩ :=
    sessionOf_run tenEvents false (fun _ => ⟨false, none, .plain ""⟩) () ⟨[letterBytes, letterBytes], .eof, .alive⟩ hcalls
  have hfew : 2 - EVENT_LIMIT = 0 := by decide +kernel
  rw [← letterMessages, htwo] at htotal hdropped hevents
  rw [hfew] at hdropped hevents
  refine ⟨hended, htotal, hdropped, hevents, ?_⟩
  rw [hnumbered, hdropped, htotal]
  rfl

end Gostman.Stream
