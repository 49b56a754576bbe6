import Gostman.Go.Text
import Gostman.Lib.Record
/-!
# Data rows (`runner/values.go`, `runner/data.go`)

Before each iteration of a run the session takes back what the row before gave
and gets the values of the next row.  Scripts write to the same session, so
what is taken back is told from what a script wrote by its bytes.
-/

namespace Gostman.Runner.Rows

open Gostman.Lib

/-! ## Variables -/

/-- The JSON text of a value, `json.RawMessage`. -/
abbrev Raw := String

structure Variables where
  entries : Record String Raw
  distinct : entries.keys.Nodup

namespace Variables

/-- The map without names, which `nil` reads as too. -/
def empty : Variables := ⟨[], List.nodup_nil⟩

def find (v : Variables) (name : String) : Option Raw :=
  v.entries.read name

def put (v : Variables) (name : String) (value : Raw) : Variables :=
  ⟨v.entries.put name value, Record.nodup_put v.distinct name value⟩

def delete (v : Variables) (name : String) : Variables :=
  ⟨v.entries.remove name, v.distinct.sublist (List.filter_sublist.map Prod.fst)⟩

/-- `for name, value := range row`.  The names of a map are distinct, so the
order in which Go takes them makes no difference to what is read. -/
def each (row v : Variables) (body : Variables → String → Raw → Variables) : Variables :=
  row.entries.foldl (fun result entry => body result entry.1 entry.2) v

end Variables

def isNull (value : Raw) : Bool :=
  Go.trimSpace value == "null"

namespace Variables

def merge (v additions : Variables) : Variables :=
  additions.each v fun result name value => result.put name value

def layered (scope : Variables) : Variables :=
  empty.merge scope

def change (v changes : Variables) : Variables :=
  changes.each v fun result name value =>
    if isNull value then result.delete name else result.put name value

def withValues (v : Variables) : Variables :=
  v.each empty fun kept name value => if isNull value then kept else kept.put name value

def forget (v changes : Variables) : Variables :=
  changes.each v fun result name _ => result.delete name

/-- `withdraw`: a value that is still the one the row gave goes back to the one
from before. -/
def withdraw (v row before : Variables) : Variables :=
  row.each v fun result name value =>
    match result.find name with
    | none => result
    | some current =>
        if current ≠ value then result
        else
          match before.find name with
          | some earlier => result.put name earlier
          | none => result.delete name

end Variables

/-! ## The session during a run -/

/-- `scopedWrites`: what a script wrote to the session and to the other scopes. -/
structure ScopedWrites where
  session : Variables
  others : List Variables := []

def write (session : Variables) (writes : ScopedWrites) : Variables :=
  (writes.others.foldl (fun result changes => result.forget changes.withValues) session).change
    writes.session

/-- The session and the variable `given` of `giver`. -/
structure State where
  session : Variables
  given : Variables

inductive Event where
  | give (next : Variables)
  | write (writes : ScopedWrites)

/-- The function `giver` returns, and `values.write`. -/
def State.step (before : Variables) (state : State) : Event → State
  | .give next => ⟨(state.session.withdraw state.given before).merge next, next⟩
  | .write writes => ⟨Rows.write state.session writes, state.given⟩

/-- `giver`: the session is copied, and no row has been given. -/
def started (session : Variables) : State :=
  ⟨session, .empty⟩

def after (session : Variables) (events : List Event) : State :=
  events.foldl (State.step session.layered) (started session)

/-! ## The run -/

structure Options where
  data : List Variables := []
  iterations : Int := 0

def Options.iterationCount (options : Options) : Int :=
  let count : Int := if options.data.length = 0 then 1 else options.data.length
  if 0 < options.iterations ∧ (options.data.length = 0 ∨ options.iterations < options.data.length) then
    options.iterations
  else count

def Options.isIterating (options : Options) : Bool :=
  0 < options.data.length || 1 < options.iterations

def iterationName : String := "iteration"
def iterationCountName : String := "iterationCount"

def Options.givenFor (options : Options) (iteration : Nat) : Variables :=
  if options.isIterating then
    let given := match options.data[iteration]? with
      | some row => Variables.empty.merge row
      | none => .empty
    (given.put iterationName (toString (iteration + 1))).put iterationCountName
      (toString options.iterationCount)
  else .empty

/-- The iterations from a number on, with what the scripts write in each. -/
def Options.iterationsFrom (options : Options) : Nat → List (List ScopedWrites) → List Event
  | _, [] => []
  | iteration, writes :: rest =>
      .give (options.givenFor iteration) :: writes.map .write ++ options.iterationsFrom (iteration + 1) rest

/-- `runAll`: the iterations it gets to, and the last `give(nil)`. -/
def Options.runAll (options : Options) (written : List (List ScopedWrites)) : List Event :=
  options.iterationsFrom 0 written ++ [.give .empty]

/-! ## What a run must keep -/

/-- The write changes the name in the session: it sets or deletes it there, or
sets it in another scope. -/
def ScopedWrites.Touches (writes : ScopedWrites) (name : String) : Prop :=
  (writes.session.find name).isSome ∨ ∃ changes ∈ writes.others, (changes.withValues.find name).isSome

def ScopedWrites.Sets (writes : ScopedWrites) (name : String) (value : Raw) : Prop :=
  writes.session.find name = some value ∧ isNull value = false

/-- A row that gives the name, or a write that changes it. -/
def Event.Touches (name : String) : Event → Prop
  | .give next => (next.find name).isSome
  | .write writes => writes.Touches name

/-- What an iteration is given for a name: the value of its row, or one of the
two numbers that every iteration has. -/
def Options.rowValue (options : Options) (iteration : Nat) (name : String) : Option Raw :=
  if options.isIterating then
    if name = iterationCountName then some (toString options.iterationCount)
    else if name = iterationName then some (toString (iteration + 1))
    else options.data[iteration]?.bind (·.find name)
  else none

/-- The session in an iteration, after some of its writes. -/
def Options.during (options : Options) (session : Variables) (written : List (List ScopedWrites))
    (iteration writes : Nat) : Variables :=
  (after session (options.iterationsFrom 0 (written.take iteration) ++
    .give (options.givenFor iteration) :: ((written.getD iteration []).take writes).map .write)).session

/-- No row leaks into another iteration, and no write is lost. -/
structure Options.KeepsApart (options : Options) (session : Variables)
    (written : List (List ScopedWrites)) : Prop where
  given : ∀ name, (∀ iteration ∈ written, ∀ writes ∈ iteration, ¬writes.Touches name) →
    ∀ iteration < written.length, ∀ writes,
      (options.during session written iteration writes).find name =
        (options.rowValue iteration name).or (session.find name)
  restored : ∀ name, (∀ iteration ∈ written, ∀ writes ∈ iteration, ¬writes.Touches name) →
    (after session (options.runAll written)).session.find name = session.find name
  stays : ∀ done writes quiet name value, done ++ .write writes :: quiet <+: options.runAll written →
    writes.Sets name value → (∀ event ∈ quiet, ¬event.Touches name) →
    (after session (done ++ .write writes :: quiet)).session.find name = some value

def latest (events : List Event) : Variables :=
  events.foldl (fun row event => match event with | .give next => next | .write _ => row) .empty

/-- A script that leaves in a name the very value that the row of its iteration
gave is followed by a row that gives the name too, or wrote what was there
before the run. -/
def Options.Unrepeated (options : Options) (session : Variables)
    (written : List (List ScopedWrites)) : Prop :=
  ∀ done writes (quiet : List ScopedWrites) next name value,
    done ++ .write writes :: quiet.map .write ++ [.give next] <+: options.runAll written →
    writes.Sets name value → (∀ later ∈ quiet, ¬later.Touches name) →
    (latest done).find name = some value →
    (next.find name).isSome ∨ session.find name = some value

/-! ## What the loops do -/

namespace Variables

variable (v row before : Variables) (name other : String) (value : Raw)

@[simp] theorem find_empty : empty.find name = none := rfl

@[simp] theorem find_put : (v.put name value).find other = if other = name then some value else v.find other :=
  Record.read_put v.entries name other value

@[simp] theorem find_delete : (v.delete name).find other = if other = name then none else v.find other :=
  Record.read_remove v.entries name other

/-- A loop over a map, when its body changes what is read under its own name
only. -/
theorem find_each {b : Variables → String → Raw → Variables} (effect : Raw → Option Raw → Option Raw)
    (hself : ∀ v value, (b v name value).find name = effect value (v.find name))
    (hother : ∀ v other value, other ≠ name → (b v other value).find name = v.find name) :
    (row.each v b).find name = match row.find name with
      | some value => effect value (v.find name)
      | none => v.find name := by
  obtain ⟨entries, hdistinct⟩ := row
  simp only [each, find]
  induction entries generalizing v with
  | nil => rfl
  | cons entry rest ih =>
      obtain ⟨key, first⟩ := entry
      simp only [Record.keys, List.map_cons, List.nodup_cons] at hdistinct
      have hloop := ih (b v key first) hdistinct.2
      rw [List.foldl_cons, hloop, Record.read_cons]
      by_cases hkey : key = name
      · subst hkey
        rw [(Record.read_eq_none_iff rest key).2 hdistinct.1, if_pos rfl]
        exact hself v first
      · have hkept := hother v key first hkey
        simp only [find] at hkept
        rw [if_neg hkey, hkept]

theorem find_merge : (v.merge row).find name = (row.find name).or (v.find name) := by
  have h := find_each v row name (fun value _ => some value)
    (b := fun result name value => result.put name value)
    (fun v value => by simp) (fun v other value hne => by simp [hne.symm])
  rw [merge, h]
  cases row.find name <;> rfl

theorem find_layered : v.layered.find name = v.find name := by
  rw [layered, find_merge, find_empty, Option.or_none]

theorem find_change : (v.change row).find name = match row.find name with
    | some value => if isNull value then none else some value
    | none => v.find name := by
  refine find_each v row name (fun value _ => if isNull value then none else some value) ?_ ?_
  · intro v value
    split_ifs <;> simp
  · intro v other value hne
    split_ifs <;> simp [hne.symm]

theorem find_forget : (v.forget row).find name = if (row.find name).isSome then none else v.find name := by
  have h := find_each v row name (fun _ _ => none) (b := fun result name _ => result.delete name)
    (fun v value => by simp) (fun v other value hne => by simp [hne.symm])
  rw [forget, h]
  cases row.find name <;> rfl

theorem find_withdraw : (v.withdraw row before).find name =
    if (row.find name).isSome ∧ v.find name = row.find name then before.find name else v.find name := by
  have h := find_each v row name
    (fun value current => if current = some value then before.find name else current)
    (b := fun result name value =>
      match result.find name with
      | none => result
      | some current =>
          if current ≠ value then result
          else
            match before.find name with
            | some earlier => result.put name earlier
            | none => result.delete name) ?_ ?_
  · rw [withdraw, h]
    cases row.find name <;> simp
  · intro v value
    cases hcurrent : v.find name with
    | none => simp [hcurrent]
    | some current =>
        by_cases hsame : current = value
        · cases hbefore : before.find name <;> simp [hsame]
        · simp [hsame, hcurrent]
  · intro v other value hne
    cases v.find other with
    | none => rfl
    | some current =>
        by_cases hsame : current = value
        · cases before.find other <;> simp [hsame, hne.symm]
        · simp [hsame]

end Variables

/-! ## One event -/

variable {session before : Variables} {name : String} {value : Raw}

theorem find_write_of_not_touches {writes : ScopedWrites} (h : ¬writes.Touches name) :
    (write session writes).find name = session.find name := by
  have hsession : writes.session.find name = none := by
    by_contra hsome
    exact h (.inl (Option.isSome_iff_ne_none.2 hsome))
  have hothers : ∀ changes ∈ writes.others, ¬(changes.withValues.find name).isSome :=
    fun changes hmem hsome => h (.inr ⟨changes, hmem, hsome⟩)
  rw [write, Variables.find_change, hsession]
  clear h hsession
  generalize writes.others = others at hothers
  induction others generalizing session with
  | nil => rfl
  | cons changes rest ih =>
      rw [List.foldl_cons, ih fun other hmem => hothers other (List.mem_cons_of_mem _ hmem),
        Variables.find_forget, if_neg (hothers changes List.mem_cons_self)]

theorem find_write_of_sets {writes : ScopedWrites} (h : writes.Sets name value) :
    (write session writes).find name = some value := by
  rw [write, Variables.find_change, h.1]
  simp [h.2]

theorem find_step_write {state : State} {writes : ScopedWrites} (h : ¬writes.Touches name) :
    (state.step before (.write writes)).session.find name = state.session.find name :=
  find_write_of_not_touches h

/-- What giving a row does to a name that still has the value of the row before. -/
theorem find_step_give (state : State) (next : Variables) :
    (state.step before (.give next)).session.find name = (next.find name).or
      (if (state.given.find name).isSome ∧ state.session.find name = state.given.find name then
        before.find name else state.session.find name) := by
  rw [State.step, Variables.find_merge, Variables.find_withdraw]

theorem after_append (session : Variables) (events later : List Event) :
    after session (events ++ later) = later.foldl (State.step session.layered) (after session events) := by
  rw [after, List.foldl_append, after]

theorem after_snoc (session : Variables) (events : List Event) (event : Event) :
    after session (events ++ [event]) = (after session events).step session.layered event := by
  rw [after_append, List.foldl_cons, List.foldl_nil]

theorem latest_snoc_give (events : List Event) (next : Variables) : latest (events ++ [.give next]) = next := by
  rw [latest, List.foldl_append, List.foldl_cons, List.foldl_nil]

theorem latest_snoc_write (events : List Event) (writes : ScopedWrites) :
    latest (events ++ [.write writes]) = latest events := by
  rw [latest, List.foldl_append, List.foldl_cons, List.foldl_nil, latest]

theorem latest_writes (events : List Event) (writes : List ScopedWrites) :
    latest (events ++ writes.map .write) = latest events := by
  induction writes using List.reverseRecOn with
  | nil => simp
  | append_singleton rest last ih =>
      rw [List.map_append, List.map_singleton, ← List.append_assoc, latest_snoc_write, ih]

theorem given_after (session : Variables) (events : List Event) :
    (after session events).given = latest events := by
  induction events using List.reverseRecOn with
  | nil => rfl
  | append_singleton rest last ih =>
      rw [after_snoc]
      cases last with
      | give next => rw [latest_snoc_give, State.step]
      | write writes => rw [latest_snoc_write, State.step, ih]

/-! ## Names no script writes -/

/-- While no script changes a name, it has the value of the row given last, or
the one from before the run. -/
theorem find_after_of_unwritten {events : List Event} (h : ∀ writes, .write writes ∈ events → ¬writes.Touches name) :
    (after session events).session.find name = ((latest events).find name).or (session.find name) := by
  induction events using List.reverseRecOn with
  | nil => rfl
  | append_singleton rest last ih =>
      have hrest := ih fun writes hmem => h writes (List.mem_append_left _ hmem)
      rw [after_snoc]
      cases last with
      | write writes =>
          rw [find_step_write (h writes (List.mem_append_right _ List.mem_cons_self)), hrest, latest_snoc_write]
      | give next =>
          rw [find_step_give, latest_snoc_give, given_after, hrest, Variables.find_layered]
          cases hlatest : (latest rest).find name <;> simp

/-! ## Values a script wrote -/

/-- A value stays as long as no event touches its name, unless a row is taken
back that gave the same value. -/
theorem find_step_of_not_touches {state : State} {event : Event} (hevent : ¬event.Touches name)
    (hvalue : state.session.find name = some value)
    (hback : ∀ next, event = .give next → state.given.find name = some value → before.find name = some value) :
    (state.step before event).session.find name = some value := by
  cases event with
  | write writes => rw [find_step_write hevent, hvalue]
  | give next =>
      have hnext : next.find name = none := by
        simpa [Event.Touches] using hevent
      rw [find_step_give, hnext, Option.none_or, hvalue]
      split_ifs with hsame
      · exact hback next rfl hsame.2.symm
      · rfl

/-- The row given last was given before some events, or is one of them. -/
theorem latest_append (done quiet : List Event) :
    (∃ writes : List ScopedWrites, quiet = writes.map .write) ∨ .give (latest (done ++ quiet)) ∈ quiet := by
  induction quiet using List.reverseRecOn with
  | nil => exact .inl ⟨[], rfl⟩
  | append_singleton rest last ih =>
      rw [← List.append_assoc]
      cases last with
      | give next =>
          rw [latest_snoc_give]
          exact .inr (List.mem_append_right _ List.mem_cons_self)
      | write writes =>
          rw [latest_snoc_write]
          rcases ih with ⟨earlier, rfl⟩ | hmem
          · exact .inl ⟨earlier ++ [writes], by simp⟩
          · exact .inr (List.mem_append_left _ hmem)

variable {options : Options} {written : List (List ScopedWrites)}

theorem stays_of_unrepeated (h : options.Unrepeated session written) {done quiet : List Event}
    {writes : ScopedWrites} (hstarts : done ++ .write writes :: quiet <+: options.runAll written)
    (hsets : writes.Sets name value) (hquiet : ∀ event ∈ quiet, ¬event.Touches name) :
    (after session (done ++ .write writes :: quiet)).session.find name = some value := by
  induction quiet using List.reverseRecOn with
  | nil => rw [after_snoc]; exact find_write_of_sets hsets
  | append_singleton rest last ih =>
      have hsplit : done ++ .write writes :: (rest ++ [last]) = (done ++ .write writes :: rest) ++ [last] := by
        simp
      have hrest := ih ((List.prefix_append _ _).trans (hsplit ▸ hstarts))
        fun event hmem => hquiet event (List.mem_append_left _ hmem)
      have hlast := hquiet last (List.mem_append_right _ List.mem_cons_self)
      rw [hsplit, after_snoc]
      apply find_step_of_not_touches hlast hrest
      rintro next rfl hgiven
      rw [given_after] at hgiven
      rw [Variables.find_layered]
      have hnext : ¬(next.find name).isSome := hlast
      rcases latest_append (done ++ [.write writes]) rest with ⟨later, rfl⟩ | hmem
      · -- The row to be taken back is the one of the iteration the script ran in.
        have hlatest : latest (done ++ .write writes :: later.map .write) = latest done := by
          rw [← latest_writes done (writes :: later), List.map_cons]
        refine (h done writes later next name value ?_ hsets ?_ (hlatest ▸ hgiven)).resolve_left hnext
        · simpa using hstarts
        · exact fun other hmem => hquiet (.write other) (by simp [hmem])
      · -- It was given since, without the name.
        have hrow := hquiet _ (List.mem_append_left _ hmem)
        have hsome : ((latest (done ++ .write writes :: rest)).find name).isSome := by simp [hgiven]
        simp only [Event.Touches, List.append_assoc, List.singleton_append] at hrow
        exact absurd hsome hrow

theorem unrepeated_of_stays (h : options.KeepsApart session written) :
    options.Unrepeated session written := by
  intro done writes quiet next name value hstarts hsets hquiet hrow
  by_cases hnext : (next.find name).isSome
  · exact .inl hnext
  right
  have hwrites : ∀ event ∈ quiet.map Event.write, ¬event.Touches name := by
    intro event hmem
    obtain ⟨later, hlater, rfl⟩ := List.mem_map.1 hmem
    exact hquiet later hlater
  have hbefore := h.stays done writes (quiet.map .write) name value
    ((List.prefix_append _ _).trans hstarts) hsets hwrites
  have hafter := h.stays done writes (quiet.map .write ++ [.give next]) name value
    (by simpa using hstarts) hsets (by
      intro event hmem
      rcases List.mem_append.1 hmem with hin | hin
      · exact hwrites event hin
      · rw [List.mem_singleton.1 hin]
        exact hnext)
  have hlatest : latest (done ++ .write writes :: quiet.map .write) = latest done := by
    rw [← latest_writes done (writes :: quiet), List.map_cons]
  have hsplit : done ++ .write writes :: (quiet.map .write ++ [.give next]) =
      (done ++ .write writes :: quiet.map .write) ++ [.give next] := by
    simp
  have hnone : next.find name = none := by simpa using hnext
  rw [hsplit, after_snoc, find_step_give, given_after, hlatest, hrow, hbefore, hnone,
    Variables.find_layered] at hafter
  simpa using hafter

/-! ## The run as a whole -/

theorem find_givenFor (iteration : Nat) (name : String) :
    (options.givenFor iteration).find name = options.rowValue iteration name := by
  unfold Options.givenFor Options.rowValue
  split_ifs with hiterating hcount hnumber
  · simp [hcount]
  · simp [hnumber, iterationName, iterationCountName]
  · simp only [Variables.find_put, hcount, hnumber, if_false]
    cases options.data[iteration]? with
    | none => rfl
    | some row => simp [Variables.find_merge]
  · rfl

/-- The writes among the events of the iterations are the scripts'. -/
theorem mem_iterationsFrom {writes : ScopedWrites} {start : Nat}
    (h : .write writes ∈ options.iterationsFrom start written) :
    ∃ iteration ∈ written, writes ∈ iteration := by
  induction written generalizing start with
  | nil => simp [Options.iterationsFrom] at h
  | cons first rest ih =>
      simp only [Options.iterationsFrom, List.cons_append, List.mem_cons, List.mem_append, List.mem_map,
        reduceCtorEq, Event.write.injEq, exists_eq_right, false_or] at h
      rcases h with hfirst | hrest
      · exact ⟨first, List.mem_cons_self, hfirst⟩
      · obtain ⟨iteration, hmem, hwrites⟩ := ih hrest
        exact ⟨iteration, List.mem_cons_of_mem _ hmem, hwrites⟩

theorem find_during (h : ∀ iteration ∈ written, ∀ writes ∈ iteration, ¬writes.Touches name)
    (iteration count : Nat) :
    (options.during session written iteration count).find name =
      (options.rowValue iteration name).or (session.find name) := by
  rw [Options.during, find_after_of_unwritten]
  · rw [List.append_cons, latest_writes, latest_snoc_give, find_givenFor]
  · intro writes hmem
    rw [List.mem_append, List.mem_cons, List.mem_map] at hmem
    rcases hmem with hdone | hgive | ⟨other, hother, heq⟩
    · obtain ⟨earlier, htake, hwrites⟩ := mem_iterationsFrom hdone
      exact h earlier (List.mem_of_mem_take htake) writes hwrites
    · cases hgive
    · cases heq
      have hin := List.mem_of_mem_take hother
      rw [List.getD_eq_getElem?_getD] at hin
      cases hget : written[iteration]? with
      | none => simp [hget] at hin
      | some current =>
          rw [hget, Option.getD_some] at hin
          exact h current (List.mem_of_getElem? hget) writes hin

theorem find_runAll (h : ∀ iteration ∈ written, ∀ writes ∈ iteration, ¬writes.Touches name) :
    (after session (options.runAll written)).session.find name = session.find name := by
  rw [Options.runAll, find_after_of_unwritten, latest_snoc_give, Variables.find_empty, Option.none_or]
  intro writes hmem
  rcases List.mem_append.1 hmem with hdone | hlast
  · obtain ⟨iteration, hin, hwrites⟩ := mem_iterationsFrom hdone
    exact h iteration hin writes hwrites
  · cases List.mem_singleton.1 hlast

/-- A run keeps its rows and the values of its scripts apart exactly when no
script leaves in a name the value its row gave, unless the next row gives the
name again or the value was there before. -/
theorem keepsApart_iff_unrepeated (options : Options) (session : Variables)
    (written : List (List ScopedWrites)) :
    options.KeepsApart session written ↔ options.Unrepeated session written := by
  constructor
  · exact unrepeated_of_stays
  · intro h
    refine ⟨?_, ?_, ?_⟩
    · intro name hunwritten iteration _ writes
      exact find_during hunwritten iteration writes
    · intro name hunwritten
      exact find_runAll hunwritten
    · intro done writes quiet name value hstarts hsets hquiet
      exact stays_of_unrepeated h hstarts hsets hquiet

/-- One row gives `token`, and a script that renews the token gets the same one:
after the run it is gone. -/
def renewed : ScopedWrites where
  session := ⟨[("token", "\"t1\"")], by decide⟩

def oneRow : Options where
  data := [⟨[("token", "\"t1\"")], by decide⟩]

theorem renewed_not_kept : ¬oneRow.KeepsApart .empty [[renewed]] := by
  intro h
  have hkept := h.stays [.give (oneRow.givenFor 0)] renewed [.give .empty] "token" "\"t1\""
    (List.prefix_rfl) ⟨rfl, by decide +kernel⟩ (by
      intro event hmem
      rw [List.mem_singleton.1 hmem]
      exact Bool.false_ne_true)
  have hgone : (after .empty (oneRow.runAll [[renewed]])).session.find "token" = none := by decide +kernel
  have hsame : [.give (oneRow.givenFor 0)] ++ Event.write renewed :: [.give .empty] =
      oneRow.runAll [[renewed]] := rfl
  rw [hsame, hgone] at hkept
  cases hkept

end Gostman.Runner.Rows
