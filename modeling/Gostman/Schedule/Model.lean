import Gostman.Lib.Record
import Mathlib.Logic.Function.Basic
import Mathlib.Logic.Relation
/-!
# Running a collection (`runner/schedule.go`, `runner/flow.go`)

The requests of a run are cut into units, one for each pass over the plan or
one for each request, and workers take the units of one iteration after
another from a queue.  Which worker moves next is open, and so is when the
context is cancelled.
-/

namespace Gostman.Schedule

open Gostman.Lib

/-! ## Requests and results -/

structure Request where
  id : String
  name : String
  folderId : String

inductive FlowAction where
  | none
  | next
  | skip
  | stop
  | finish
deriving DecidableEq

structure Flow where
  action : FlowAction
  target : String := ""

/-- A result, with the fields the schedule does not look at as `rest`. -/
structure Result (ρ : Type) where
  id : String
  name : String
  folder : String
  skipped : String := ""
  error : String := ""
  failed : Bool := false
  iteration : Nat := 0
  flow : Flow := ⟨.none, ""⟩
  rest : ρ

def Result.flag {ρ : Type} (result : Result ρ) (message : String) : Result ρ :=
  { result with
    error := (if result.error = "" then "" else result.error ++ "\n") ++ message
    failed := true }

structure Options where
  /-- The number of rows of `Data`. -/
  rows : Nat := 0
  iterations : Int := 0
  parallel : Int := 0
  bail : Bool := false

def Options.iterationCount (o : Options) : Nat :=
  let count := if o.rows = 0 then 1 else o.rows
  if o.iterations > 0 ∧ (o.rows = 0 ∨ o.iterations < o.rows) then o.iterations.toNat else count

def Options.isIterating (o : Options) : Bool :=
  o.rows > 0 || o.iterations > 1

/-- What a run is given, and what its surroundings come to. -/
structure Setting (ρ : Type) where
  requests : List Request
  folderNames : Record String String := []
  options : Options
  /-- `FlowSteps` of the sandbox. -/
  repeats : Nat
  /-- `%q`. -/
  quoted : String → String
  /-- The rest of `identify`. -/
  plain : Request → ρ
  /-- What the attempt of a request comes to, by its iteration, its index and
  how many its unit has sent with it. -/
  attempt : Nat → Nat → Nat → Result ρ
  /-- Whether the context may be cancelled. -/
  cancellable : Bool

/-! ## Units -/

structure WorkUnit where
  iteration : Nat
  indexes : List Nat

def addUnit (planned : List WorkUnit × List (List Nat)) (iteration : Nat) (indexes : List Nat) :
    List WorkUnit × List (List Nat) :=
  (planned.1 ++ [⟨iteration, indexes⟩], planned.2.modify iteration (· ++ [planned.1.length]))

/-- The units, and for each iteration the positions of its units. -/
def planUnits (iterations requests : Nat) (parallel : Int) : List WorkUnit × List (List Nat) :=
  (List.range iterations).foldl
    (fun planned iteration =>
      if parallel ≤ 1 then addUnit planned iteration (List.range requests)
      else
        (List.range requests).foldl (fun planned index => addUnit planned iteration [index]) planned)
    ([], List.replicate iterations [])

section

variable {ρ : Type} (setting : Setting ρ)

namespace Setting

def units : List WorkUnit :=
  (planUnits setting.options.iterationCount setting.requests.length setting.options.parallel).1

def waves : List (List Nat) :=
  (planUnits setting.options.iterationCount setting.requests.length setting.options.parallel).2

def unitAt (position : Nat) : WorkUnit :=
  setting.units.getD position ⟨0, []⟩

def iterationNumber (current : WorkUnit) : Nat :=
  if setting.options.isIterating then current.iteration + 1 else 0

def folderOf (request : Request) : String :=
  (setting.folderNames.read request.folderId).getD ""

def identify (request : Request) : Result ρ :=
  { id := request.id, name := request.name, folder := setting.folderOf request
    rest := setting.plain request }

/-! ## What a script asked for -/

def passedOver (flow : Flow) (name : String) (iteration : Nat) : String :=
  match flow.action with
  | .next =>
      "Not run because a script in " ++ setting.quoted name ++ " continued the run with " ++
        setting.quoted flow.target ++ "."
  | .finish =>
      if iteration > 0 then
        "Not run because a script in " ++ setting.quoted name ++ " ended iteration " ++
          toString iteration ++ "."
      else "Not run because a script in " ++ setting.quoted name ++ " stopped the run."
  | .stop => "Not run because a script in " ++ setting.quoted name ++ " stopped the run."
  | .none | .skip => ""

def selects (target : String) (request : Request) : Bool :=
  let folder := setting.folderOf request
  let qualified := if folder = "" then request.name else folder ++ "/" ++ request.name
  target = request.id || target = request.name || target = qualified

def locate (current : WorkUnit) (target : String) : Except String Nat :=
  match current.indexes.findIdx? fun index => (setting.requests[index]?).any (setting.selects target) with
  | some cursor => .ok cursor
  | none =>
      if setting.requests.any (setting.selects target) then
        .error ("The script asked to continue with " ++ setting.quoted target ++
          ", but requests run in parallel so the order cannot be changed.")
      else
        .error ("The script asked to continue with " ++ setting.quoted target ++
          ", but no request in this run has that name.")

end Setting

/-- What `follow` gives, and what it stores. -/
structure Following where
  cursor : Nat
  problem : String := ""
  halts : Bool := false
  ends : Bool := false

def Setting.endlessJumps (name target : String) (sent planned : Nat) : String :=
  "The script in " ++ setting.quoted name ++ " kept continuing the run with " ++
    setting.quoted target ++ ", so the run was stopped after " ++ toString sent ++
    " requests. A pass may send at most " ++ toString setting.repeats ++
    " more requests than the " ++ toString planned ++
    " it holds; give the loop a way to end, such as a retry count."

def Setting.follow (current : WorkUnit) (cursor : Nat) (outcome : Flow) (name : String) (sent : Nat) :
    Following :=
  let planned := current.indexes.length
  match outcome.action with
  | .stop => { cursor := planned, halts := true }
  | .finish => { cursor := planned, ends := true }
  | .next =>
      if sent ≥ planned + setting.repeats then
        { cursor := planned, halts := true
          problem := setting.endlessJumps name outcome.target sent planned }
      else
        match setting.locate current outcome.target with
        | .error problem => { cursor := planned, halts := true, problem }
        | .ok target => { cursor := target }
  | .none | .skip => { cursor := cursor + 1 }

/-! ## Progress through a unit -/

structure Progress where
  attempted : List Bool
  passed : List String

def newProgress (size : Nat) : Progress :=
  ⟨List.replicate size false, List.replicate size ""⟩

def Progress.note (progress : Progress) (cursor following : Nat) (reason : String) : Progress where
  attempted := progress.attempted.set cursor true
  passed :=
    if reason = "" then progress.passed
    else progress.passed.mapIdx fun skipped old =>
      if cursor < skipped ∧ skipped < following ∧ old = "" then reason else old

/-- The places in a unit that are recorded as passed over. -/
def Progress.left (progress : Progress) (size : Nat) : List Nat :=
  (List.range size).filter fun cursor =>
    !progress.attempted.getD cursor false && progress.passed.getD cursor "" != ""

def Setting.passedResults (current : WorkUnit) (progress : Progress) : List (Result ρ) :=
  (progress.left current.indexes.length).filterMap fun cursor => do
    let index ← current.indexes[cursor]?
    let request ← setting.requests[index]?
    return { setting.identify request with
      skipped := progress.passed.getD cursor ""
      iteration := setting.iterationNumber current }

/-! ## Workers -/

inductive Event where
  | started (position cursor : Nat)
  | recorded (position cursor : Nat)
  | passed (position cursor : Nat)
deriving DecidableEq

inductive Worker (ρ : Type) where
  /-- At the head of the loop over the queue. -/
  | idle
  | took (position : Nat)
  /-- At the head of the loop over a unit. -/
  | running (position cursor sent : Nat) (progress : Progress)
  | sending (position cursor sent : Nat) (progress : Progress)
  /-- Before `record`. -/
  | followed (position cursor following sent : Nat) (progress : Progress) (result : Result ρ)
  | recorded (position following sent : Nat) (progress : Progress) (result : Result ρ)
  /-- After the pause. -/
  | paused (position following sent : Nat) (progress : Progress)
  /-- Before `recordPassedOver`. -/
  | passing (position : Nat) (progress : Progress)
  | done

structure Shared (ρ : Type) where
  queue : List Nat := []
  outputs : Nat → List (Result ρ) := fun _ => []
  halted : Bool := false
  ended : List Nat := []
  cancelled : Bool := false
  log : List Event := []

def Shared.record (s : Shared ρ) (position : Nat) (results : List (Result ρ)) (events : List Event) :
    Shared ρ :=
  { s with
    outputs := Function.update s.outputs position (s.outputs position ++ results)
    log := s.log ++ events }

/-- What an attempt comes to, as `work` completes it. -/
def Setting.attempted (position cursor sent : Nat) (progress : Progress) :
    Following × Progress × Result ρ :=
  let current := setting.unitAt position
  let index := current.indexes.getD cursor 0
  let name := ((setting.requests[index]?).map (·.name)).getD ""
  let result := { setting.attempt current.iteration index (sent + 1) with
    iteration := setting.iterationNumber current }
  let following := setting.follow current cursor result.flow name (sent + 1)
  let reason := setting.passedOver result.flow name result.iteration
  if following.problem ≠ "" then
    (following, progress.note cursor following.cursor "", result.flag following.problem)
  else (following, progress.note cursor following.cursor reason, result)

inductive WorkerStep : Worker ρ → Shared ρ → Worker ρ → Shared ρ → Prop
  | take {s : Shared ρ} {position rest} (h : s.queue = position :: rest) :
      WorkerStep .idle s (.took position) { s with queue := rest }
  | leave {s : Shared ρ} (h : s.queue = []) : WorkerStep .idle s .done s
  | skip {s : Shared ρ} {position}
      (h : s.halted ∨ s.cancelled ∨ (setting.unitAt position).iteration ∈ s.ended) :
      WorkerStep (.took position) s .idle s
  | begin {s : Shared ρ} {position}
      (h : ¬ (s.halted ∨ s.cancelled ∨ (setting.unitAt position).iteration ∈ s.ended)) :
      WorkerStep (.took position) s
        (.running position 0 0 (newProgress (setting.unitAt position).indexes.length)) s
  | start {s : Shared ρ} {position cursor sent progress}
      (h : cursor < (setting.unitAt position).indexes.length) :
      WorkerStep (.running position cursor sent progress) s (.sending position cursor sent progress)
        { s with log := s.log ++ [.started position cursor] }
  | through {s : Shared ρ} {position cursor sent progress}
      (h : ¬ cursor < (setting.unitAt position).indexes.length) :
      WorkerStep (.running position cursor sent progress) s (.passing position progress) s
  | attempt {s : Shared ρ} {position cursor sent progress following noted result}
      (h : setting.attempted position cursor sent progress = (following, noted, result)) :
      WorkerStep (.sending position cursor sent progress) s
        (.followed position cursor following.cursor (sent + 1) noted result)
        { s with
          halted := s.halted || following.halts
          ended := if following.ends then (setting.unitAt position).iteration :: s.ended else s.ended }
  | record {s : Shared ρ} {position cursor following sent progress result} :
      WorkerStep (.followed position cursor following sent progress result) s
        (.recorded position following sent progress result)
        (s.record position [result] [.recorded position cursor])
  | quit {s : Shared ρ} {position following sent progress result} (h : s.cancelled) :
      WorkerStep (.recorded position following sent progress result) s .done s
  | bail {s : Shared ρ} {position following sent progress result} (h : ¬ s.cancelled)
      (hbail : setting.options.bail ∧ result.failed) :
      WorkerStep (.recorded position following sent progress result) s (.passing position progress)
        { s with halted := true }
  | pause {s : Shared ρ} {position following sent progress result} (h : ¬ s.cancelled)
      (hbail : ¬ (setting.options.bail ∧ result.failed)) :
      WorkerStep (.recorded position following sent progress result) s
        (.paused position following sent progress) s
  | stop {s : Shared ρ} {position following sent progress} (h : s.cancelled ∨ s.halted) :
      WorkerStep (.paused position following sent progress) s (.passing position progress) s
  | goOn {s : Shared ρ} {position following sent progress} (h : ¬ (s.cancelled ∨ s.halted)) :
      WorkerStep (.paused position following sent progress) s
        (.running position following sent progress) s
  | pass {s : Shared ρ} {position progress} :
      WorkerStep (.passing position progress) s .idle
        (s.record position (setting.passedResults (setting.unitAt position) progress)
          ((progress.left (setting.unitAt position).indexes.length).map (.passed position)))

/-! ## The run -/

inductive Phase (ρ : Type) where
  /-- Before the wave of an iteration. -/
  | between (iteration : Nat)
  /-- In `perform`. -/
  | performing (iteration : Nat) (workers : List (Worker ρ))
  | finished

structure State (ρ : Type) where
  phase : Phase ρ := .between 0
  shared : Shared ρ := {}

/-- How many workers `crew` gives at most. -/
def Setting.wanted : Nat :=
  min (max setting.options.parallel 1).toNat (max setting.requests.length 1)

/-- One step of `runAll` with a crew of this many workers. -/
inductive Step (crew : Nat) : State ρ → State ρ → Prop
  | perform {s : Shared ρ} {iteration wave} (hwave : setting.waves[iteration]? = some wave)
      (h : ¬ (s.halted ∨ s.cancelled)) :
      Step crew ⟨.between iteration, s⟩
        ⟨.performing iteration (List.replicate (min crew (max wave.length 1)) .idle),
          { s with queue := wave }⟩
  | finish {s : Shared ρ} {iteration}
      (h : setting.waves.length ≤ iteration ∨ s.halted ∨ s.cancelled) :
      Step crew ⟨.between iteration, s⟩ ⟨.finished, s⟩
  | work {s s' : Shared ρ} {iteration before worker worker' after}
      (h : WorkerStep setting worker s worker' s') :
      Step crew ⟨.performing iteration (before ++ worker :: after), s⟩
        ⟨.performing iteration (before ++ worker' :: after), s'⟩
  | wait {s : Shared ρ} {iteration workers} (h : ∀ worker ∈ workers, worker = .done) :
      Step crew ⟨.performing iteration workers, s⟩ ⟨.between (iteration + 1), s⟩
  | cancel {s : Shared ρ} {phase} (h : setting.cancellable = true) :
      Step crew ⟨phase, s⟩ ⟨phase, { s with cancelled := true }⟩

def Reachable (crew : Nat) (state : State ρ) : Prop :=
  Relation.ReflTransGen (Step setting crew) {} state

def State.results (state : State ρ) : List (Result ρ) :=
  (List.range setting.units.length).flatMap state.shared.outputs

end

end Gostman.Schedule
