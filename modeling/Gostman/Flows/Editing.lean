import Gostman.Flows.Model
/-!
# Editing a flow

`flows/edit.js`: removing, copying and renaming a step, with the walks of
`flows/model.js` that they change the other steps by.
-/

namespace Gostman.Flows

open Gostman.Lib Gostman.Js

/-! ## Changing every step -/

mutual

/-- `mapSteps`, for a change that leaves the inner steps alone. -/
def mapSteps (change : StepHead → StepHead) : List Step → List Step
  | [] => []
  | step :: rest => mapStep change step :: mapSteps change rest

def mapStep (change : StepHead → StepHead) : Step → Step
  | .node head inner =>
      .node (change head) (if (change head).kind.isContainer then mapSteps change inner else inner)

end

def Fields.retargeted (change : String → String) : Fields → Fields
  | .request fields => .request { fields with onFailure := change fields.onFailure }
  | .setStep values => .setStep values
  | .ifStep fields => .ifStep { fields with thenTo := change fields.thenTo, elseTo := change fields.elseTo }
  | .switch fields => .switch
      { fields with
        cases := fields.cases.map fun entry => { entry with target := change entry.target }
        elseTo := change fields.elseTo }
  | .forEach fields => .forEach fields
  | .repeatStep fields => .repeatStep { fields with onFailure := change fields.onFailure }
  | .parallel fields => .parallel { fields with onFailure := change fields.onFailure }
  | .flow fields => .flow { fields with onFailure := change fields.onFailure }
  | .delay ms => .delay ms
  | .endStep fields => .endStep fields
  | .unknown kind => .unknown kind

def StepHead.retargeted (head : StepHead) (change : String → String) : StepHead :=
  { head with fields := head.fields.retargeted change, next := change head.next }

def NamedValue.rewired (change : String → String) (value : NamedValue) : NamedValue :=
  match value.reading with
  | .template _ => value
  | .response step source path =>
      if step = "" then value else { value with reading := .response (change step) source path }

/-- `rewiredReads`, on the step that a step reads from. -/
def rewiredRead (change : String → String) (step : String) : String :=
  if step = "" then step else change step

/-- `rewiredReads`, on the fields of a kind. -/
def Fields.rewired (change : String → String) : Fields → Fields
  | .request fields => .request
      { fields with inputs := fields.inputs.map fun input => { input with value := input.value.rewired change } }
  | .setStep values => .setStep (values.map (NamedValue.rewired change))
  | .ifStep fields => .ifStep { fields with step := rewiredRead change fields.step }
  | .switch fields => .switch { fields with step := rewiredRead change fields.step }
  | .forEach fields => .forEach { fields with step := rewiredRead change fields.step }
  | .repeatStep fields => .repeatStep { fields with step := rewiredRead change fields.step }
  | .parallel fields => .parallel fields
  | .flow fields => .flow fields
  | .delay ms => .delay ms
  | .endStep fields => .endStep fields
  | .unknown kind => .unknown kind

def StepHead.rewired (head : StepHead) (change : String → String) : StepHead :=
  { head with fields := head.fields.rewired change }

/-! ## Changing one list -/

mutual

/-- The walk of `changeList` to the step whose list it changes.  `mapSteps` goes
on below that step, where it finds no other step of that id to change. -/
def changeSteps (parent : String) (change : List Step → List Step) : List Step → List Step
  | [] => []
  | step :: rest => changeStep parent change step :: changeSteps parent change rest

def changeStep (parent : String) (change : List Step → List Step) : Step → Step
  | .node head inner =>
      if head.id = parent then .node head (change inner)
      else .node head (if head.kind.isContainer then changeSteps parent change inner else inner)

end

def changeList (flow : Flow) (parent : String) (change : List Step → List Step) : Flow :=
  if parent = "" then { flow with steps := change flow.steps }
  else { flow with steps := changeSteps parent change flow.steps }

def insertInto (list : List Step) (position : Nat) (step : Step) : List Step :=
  list.take position ++ step :: list.drop position

def insertStep (flow : Flow) (parent : String) (position : Nat) (step : Step) : Flow :=
  changeList flow parent fun list => insertInto list position step

/-! ## Removing a step -/

def idsWithin (step : Step) : List String :=
  step.head.id :: allStepIds (innerSteps step)

def towards (removed : List String) (continuation : String) (head : StepHead) : StepHead :=
  head.retargeted fun target => if target ∈ removed then continuation else target

def successorOf (entry : Entry) : String :=
  match entry.list[entry.position + 1]? with
  | some step =>
      if step.head.id ≠ "" then step.head.id else if entry.parent = "" then endTarget else ""
  | none => if entry.parent = "" then endTarget else ""

def continuationOf (entry : Entry) (removed : List String) : String :=
  if entry.item.head.next ≠ "" ∧ entry.item.head.next ∉ removed then entry.item.head.next
  else successorOf entry

def removeStep (flow : Flow) (id : String) : Flow :=
  match (indexSteps flow.steps).read id with
  | none => flow
  | some entry =>
      let removed := idsWithin entry.item
      let shortened := changeList flow entry.parent fun list => list.filter fun step => step.head.id ≠ id
      { shortened with steps := mapSteps (towards removed (continuationOf entry removed)) shortened.steps }

/-! ## Copying a step -/

mutual

def copyWithIds (taken : List String) : Step → Step × List String
  | .node head inner =>
      let id := uniqueId head.id taken
      if head.kind.isContainer then
        let copies := copyEach (taken ++ [id]) inner
        (.node { head with id := id } copies.1, copies.2)
      else (.node { head with id := id } inner, taken ++ [id])

def copyEach (taken : List String) : List Step → List Step × List String
  | [] => ([], taken)
  | step :: rest =>
      let copy := copyWithIds taken step
      let others := copyEach copy.2 rest
      (copy.1 :: others.1, others.2)

end

def duplicateStep (flow : Flow) (id : String) : Flow × String :=
  match (indexSteps flow.steps).read id with
  | none => (flow, id)
  | some entry =>
      let copy := (copyWithIds (allStepIds flow.steps) entry.item).1
      (insertStep flow entry.parent (entry.position + 1) copy, copy.head.id)

/-! ## Renaming a step -/

structure Casing where
  toLowerCase : String → String
  toUpperCase : Char → String

/-- The first `count` UTF-16 units of a text, without a character that they
would end inside of. -/
def firstUnits : Nat → List Char → List Char
  | _, [] => []
  | count, character :: rest =>
      let units := if character.toNat < 0x10000 then 1 else 2
      if count < units then [] else character :: firstUnits (count - units) rest

def slugOf (casing : Casing) (name fallback : String) : String :=
  let characters := (casing.toLowerCase name).toList
  let kept := characters.map fun character =>
    if casing.toUpperCase character ≠ character.toString ∨ ('0' ≤ character ∧ character ≤ '9') then character else '-'
  let words := (kept.splitOn '-').filter fun word => word ≠ []
  let slug := String.ofList (firstUnits 40 (List.intercalate ['-'] words))
  if slug ≠ "" then slug else fallback

def renamedId (source target id : String) : String :=
  if id = source then target else id

def renamedReferences (source target : String) (head : StepHead) : StepHead :=
  let renamed := renamedId source target
  (({ head with id := renamed head.id }).retargeted renamed).rewired renamed

/-- The id that `renameStep` gives the step. -/
def wantedId (casing : Casing) (flow : Flow) (source wanted : String) : String :=
  uniqueId (slugOf casing wanted source) ((allStepIds flow.steps).filter fun id => id ≠ source)

def renameStep (casing : Casing) (flow : Flow) (source wanted : String) : Flow × String :=
  let target := wantedId casing flow source wanted
  if target = source then (flow, source)
  else ({ flow with steps := mapSteps (renamedReferences source target) flow.steps }, target)

end Gostman.Flows
