import Gostman.Stream.Parser
import Mathlib.Data.List.Range
/-!
# Reading an event stream (`engine/stream.go`)

The body of a response comes in chunks.  Events are numbered and passed on until a
limit is reached or the connection ends, and then it may be dialled again.  The
parser keeps its state from one connection to the next.
-/

namespace Gostman.Stream

open Gostman.Lib

def eventOverheadBytes : Nat := 96
def maxReconnects : Nat := 25
def defaultStreamEvents : Nat := 10000
def maxStreamEvents : Nat := 100000

def defaultRetry : Nat := 3000
def minRetry : Nat := 100

inductive EndReason where
  | closed
  | cancelled
  | maxEvents
  | maxBytes
  | maxDuration
  | failed
deriving DecidableEq

inductive StreamMessage (ρ : Type) where
  | opened (response : ρ)
  | event (index : Nat) (event : Event)
  | wait (retryMs attempt : Nat)
  | ended (reason : EndReason) (detail : String)

def eventLimit (streamMaxEvents : Int) : Nat :=
  if streamMaxEvents ≤ 0 then defaultStreamEvents else min streamMaxEvents.toNat maxStreamEvents

structure Limits where
  maxEvents : Nat
  maxBytes : Nat
  /-- `MinStreamRetry` of the policy, in milliseconds. -/
  minStreamRetry : Nat
  maxEvents_pos : 0 < maxEvents

structure Streaming (ρ : Type) where
  parser : EventParser
  events : Nat
  bytes : Nat
  emitted : Nat
  attempt : Nat
  out : List (StreamMessage ρ)

def Streaming.zero {ρ : Type} : Streaming ρ :=
  ⟨.zero, 0, 0, 0, 0, []⟩

variable {ρ : Type} (limits : Limits)

/-- What an event counts towards the limit of what is emitted. -/
def eventSize (event : Event) : Nat :=
  event.type.length + event.id.length + event.data.length + eventOverheadBytes

def announce : List Event → Streaming ρ → Option EndReason × Streaming ρ
  | [], s => (none, s)
  | event :: rest, s =>
      let s := { s with
        events := s.events + 1
        emitted := s.emitted + eventSize event
        out := s.out ++ [.event (s.events + 1) event] }
      if s.events ≥ limits.maxEvents then (some .maxEvents, s)
      else if s.emitted > limits.maxBytes then (some .maxBytes, s)
      else announce rest s

def accept (s : Streaming ρ) (chunk : Bytes) : Option EndReason × Streaming ρ :=
  let room := limits.maxBytes - s.bytes
  let capped := chunk.length > room
  let taken := chunk.take room
  let (events, parser) := feed s.parser taken
  match announce limits events { s with bytes := s.bytes + taken.length, parser } with
  | (some reason, s) => (some reason, s)
  | (none, s) => (if capped then some .maxBytes else none, s)

/-! ## Connections -/

inductive Ctx where
  | alive
  | deadlineExceeded
  | canceled

inductive ReadError where
  /-- `io.EOF` -/
  | eof
  | other (text : String)

def endReason (ctx : Ctx) : ReadError → EndReason × String
  | .eof => (.closed, "")
  | .other text =>
      match ctx with
      | .deadlineExceeded => (.maxDuration, "")
      | .canceled => (.cancelled, "")
      | .alive => (.failed, text)

structure Body where
  chunks : List Bytes
  error : ReadError
  ctx : Ctx

/-- The loop of `read`, up to the end of the chunks. -/
def readChunks : List Bytes → Streaming ρ → Option EndReason × Streaming ρ
  | [], s => (none, s)
  | chunk :: rest, s =>
      match accept limits s chunk with
      | (some reason, s) => (some reason, s)
      | (none, s) => readChunks rest s

def read (s : Streaming ρ) (opened : ρ) (body : Body) : (EndReason × String) × Streaming ρ :=
  match readChunks limits body.chunks { s with out := s.out ++ [.opened opened] } with
  | (some reason, s) => ((reason, ""), s)
  | (none, s) => (endReason body.ctx body.error, s)

inductive Dial (ρ : Type) where
  | failure (body : String) (ctx : Ctx)
  /-- A response that does not carry events. -/
  | plain (status : String)
  | stream (response : ρ) (body : Body)

structure Again (ρ : Type) where
  /-- `ctx.Err() == nil` -/
  isAlive : Bool
  /-- The error of the context when the pause is broken off. -/
  interrupted : Option Ctx
  dial : Dial ρ

def shouldReconnect (streamReconnect : Bool) (again : Again ρ) (reason : EndReason) : Bool :=
  streamReconnect && again.isAlive && (reason = .closed || reason = .failed)

def announceWait (s : Streaming ρ) : Streaming ρ :=
  let delay := if s.parser.retryMs > 0 then s.parser.retryMs else defaultRetry
  let delay := max (max delay minRetry) limits.minStreamRetry
  { s with attempt := s.attempt + 1, out := s.out ++ [.wait delay (s.attempt + 1)] }

def tooManyReconnects : String := "the server closed the stream too many times"

/-- The loop of `run`, with the reconnections left. -/
def reconnect (streamReconnect : Bool) (env : Nat → Again ρ) :
    Nat → EndReason × String → Streaming ρ → (EndReason × String) × Streaming ρ
  | left, ended, s =>
      if shouldReconnect streamReconnect (env s.attempt) ended.1 then
        match left with
        | 0 => ((.failed, tooManyReconnects), s)
        | left + 1 =>
            let again := env s.attempt
            let s := announceWait limits s
            match again.interrupted with
            | some ctx => (endReason ctx (.other ""), s)
            | none =>
                match again.dial with
                | .failure body ctx => (endReason ctx (.other body), s)
                | .plain status => ((.failed, status), s)
                | .stream response body =>
                    let (ended, s) := read limits s response body
                    reconnect streamReconnect env left ended s
      else (ended, s)

/-- `run`, once a first response carries events: all messages. -/
def run (streamReconnect : Bool) (env : Nat → Again ρ) (response : ρ) (body : Body) : List (StreamMessage ρ) :=
  let (ended, s) := read limits .zero response body
  let (ended, s) := reconnect limits streamReconnect env maxReconnects ended s
  s.out ++ [.ended ended.1 ended.2]

end Gostman.Stream
