import Gostman.Lib.Record
import Mathlib.Data.List.Sort
import Mathlib.Data.Int.Notation
import Mathlib.Logic.Function.Basic
/-!
# Held exchanges (`capture/hold.go`)

A breakpoint holds a request or a response until somebody releases it, the time is
over or the client is gone.  Each exchange and each release runs on its own.  What
they share is the map of what is held, behind a mutex, and a channel for each held
exchange, which has room for one decision and outlives the entry of the map.
-/

namespace Gostman.Capture

open Gostman.Lib

def maxHeld : Nat := 25
def maxMethodLength : Nat := 32

inductive Phase where
  | request
  | response
deriving DecidableEq

structure Held where
  id : Nat
  phase : Phase
  rule : String
  method : String
  url : String
  status : Int
  headers : List (String × String)
  body : String
  bodyEncoding : String
deriving DecidableEq

structure Decision where
  drop : Bool := false
  method : String := ""
  url : String := ""
  status : Int := 0
  headers : List (String × String) := []
  body : String := ""
  bodyEncoding : String := ""
deriving DecidableEq

inductive Verdict where
  | edited
  | timedOut
  | dropped
  | skipped
deriving DecidableEq

/-! ## Checking a decision -/

structure Library where
  /-- Whether `base64.StdEncoding.DecodeString` succeeds. -/
  isBase64 : String → Bool
  /-- `url.Parse` of the trimmed text: the scheme and the host. -/
  parse : String → Option (String × String)

inductive Refusal where
  /-- "that exchange is no longer held" -/
  | notHeld
  /-- "that exchange was already released" -/
  | alreadyReleased
  /-- "the body is not valid base64" -/
  | body
  /-- "the status must be between 100 and 599" -/
  | status
  /-- "%q is not a valid method" -/
  | method (text : String)
  /-- "the upstream must be an http or https URL, got %q" -/
  | upstream (text : String)
deriving DecidableEq

def isMethodToken (method : String) : Bool :=
  method.utf8ByteSize ≤ maxMethodLength && method.toList.all Char.isAlpha

def isUpstream (lib : Library) (raw : String) : Bool :=
  match lib.parse raw with
  | none => false
  | some (scheme, host) => host ≠ "" && (scheme = "http" || scheme = "https")

def Decision.check (lib : Library) (d : Decision) (phase : Phase) : Except Refusal Unit :=
  if d.drop then .ok ()
  else if d.bodyEncoding = "base64" ∧ ¬ lib.isBase64 d.body then .error .body
  else
    match phase with
    | .response => if d.status ≠ 0 ∧ (d.status < 100 ∨ d.status > 599) then .error .status else .ok ()
    | .request =>
        if d.method ≠ "" ∧ ¬ isMethodToken d.method then .error (.method d.method)
        else if d.url ≠ "" ∧ ¬ isUpstream lib d.url then .error (.upstream d.url)
        else .ok ()

/-! ## What is held -/

structure Holds where
  last : Nat := 0
  pending : Record Nat Held := []

namespace Holds

def enter (h : Holds) (held : Held) : Option (Held × Holds) :=
  if h.pending.length ≥ maxHeld then none
  else
    let entered := { held with id := h.last + 1 }
    some (entered, { last := h.last + 1, pending := h.pending.put (h.last + 1) entered })

def leave (h : Holds) (id : Nat) : Holds :=
  { h with pending := h.pending.remove id }

def list (h : Holds) : List Held :=
  (h.pending.map Prod.snd).insertionSort fun a b => a.id ≤ b.id

end Holds

/-! ## Exchanges and releases -/

/-- What `hold` returns, and the release whose decision it took. -/
structure Outcome where
  decision : Decision
  verdict : Verdict
  sender : Option Nat
deriving DecidableEq

inductive Holder where
  | ready (held : Held)
  /-- The breakpoint is skipped, since too much is held. -/
  | skipped
  | entered (held : Held)
  /-- `hooks.Held` was called, and `select` waits. -/
  | waiting (held : Held)
  | chosen (held : Held) (outcome : Outcome)
  /-- `hooks.Settled` was called. -/
  | told (held : Held) (outcome : Outcome)
  | returned (held : Held) (outcome : Outcome)

inductive Releaser where
  | ready (id : Nat) (decision : Decision)
  /-- It found what is held, and has left the mutex. -/
  | found (held : Held) (decision : Decision)
  | done (id : Nat) (decision : Decision) (result : Except Refusal Unit)

/-- A call of `hooks.Held` or `hooks.Settled`. -/
inductive Report where
  | held (id : Nat)
  | settled (id : Nat)
deriving DecidableEq

structure State where
  holds : Holds
  /-- The channels: the decision in it, and who sent it. -/
  answers : Nat → Option (Nat × Decision)
  holders : Nat → Holder
  releasers : Nat → Releaser
  reports : List Report

inductive Move where
  | enter (caller : Nat)
  | report (caller : Nat)
  | receive (caller : Nat)
  /-- `timer.C` -/
  | timeOut (caller : Nat)
  /-- `ctx.Done()` -/
  | cancel (caller : Nat)
  | settled (caller : Nat)
  | leave (caller : Nat)
  | find (releaser : Nat)
  | send (releaser : Nat)

namespace State

def setHolder (s : State) (caller : Nat) (holder : Holder) : State :=
  { s with holders := Function.update s.holders caller holder }

def setReleaser (s : State) (releaser : Nat) (place : Releaser) : State :=
  { s with releasers := Function.update s.releasers releaser place }

def setAnswer (s : State) (id : Nat) (answer : Option (Nat × Decision)) : State :=
  { s with answers := Function.update s.answers id answer }

def step (lib : Library) (s : State) : Move → Option State
  | .enter caller =>
      match s.holders caller with
      | .ready held =>
          match s.holds.enter held with
          | none => some (s.setHolder caller .skipped)
          | some (held, holds) => some { s.setHolder caller (.entered held) with holds }
      | _ => none
  | .report caller =>
      match s.holders caller with
      | .entered held => some { s.setHolder caller (.waiting held) with reports := s.reports ++ [.held held.id] }
      | _ => none
  | .receive caller =>
      match s.holders caller with
      | .waiting held =>
          match s.answers held.id with
          | none => none
          | some (sender, decision) =>
              let verdict := if decision.drop then .dropped else .edited
              some ((s.setAnswer held.id none).setHolder caller (.chosen held ⟨decision, verdict, some sender⟩))
      | _ => none
  | .timeOut caller =>
      match s.holders caller with
      | .waiting held => some (s.setHolder caller (.chosen held ⟨{}, .timedOut, none⟩))
      | _ => none
  | .cancel caller =>
      match s.holders caller with
      | .waiting held => some (s.setHolder caller (.chosen held ⟨{}, .dropped, none⟩))
      | _ => none
  | .settled caller =>
      match s.holders caller with
      | .chosen held outcome =>
          some { s.setHolder caller (.told held outcome) with reports := s.reports ++ [.settled held.id] }
      | _ => none
  | .leave caller =>
      match s.holders caller with
      | .told held outcome => some { s.setHolder caller (.returned held outcome) with holds := s.holds.leave held.id }
      | _ => none
  | .find releaser =>
      match s.releasers releaser with
      | .ready id decision =>
          match s.holds.pending.read id with
          | none => some (s.setReleaser releaser (.done id decision (.error .notHeld)))
          | some held => some (s.setReleaser releaser (.found held decision))
      | _ => none
  | .send releaser =>
      match s.releasers releaser with
      | .found held decision =>
          match decision.check lib held.phase with
          | .error refusal => some (s.setReleaser releaser (.done held.id decision (.error refusal)))
          | .ok _ =>
              match s.answers held.id with
              | some _ => some (s.setReleaser releaser (.done held.id decision (.error .alreadyReleased)))
              | none =>
                  some ((s.setAnswer held.id (some (releaser, decision))).setReleaser releaser
                    (.done held.id decision (.ok ())))
      | _ => none

def start (exchanges : Nat → Held) (releases : Nat → Nat × Decision) : State where
  holds := {}
  answers _ := none
  holders caller := .ready (exchanges caller)
  releasers releaser := .ready (releases releaser).1 (releases releaser).2
  reports := []

/-- What the exchanges and releases can come to, in any order of their steps. -/
inductive Reached (lib : Library) (exchanges : Nat → Held) (releases : Nat → Nat × Decision) : State → Prop where
  | start : Reached lib exchanges releases (start exchanges releases)
  | step {s s' : State} (move : Move) : Reached lib exchanges releases s → s.step lib move = some s' →
      Reached lib exchanges releases s'

end State

end Gostman.Capture
