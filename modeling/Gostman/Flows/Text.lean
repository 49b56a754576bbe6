import Gostman.Flows.Model
/-!
# The texts of the flow modules

`flowsText.js`: every message the validator and the engine make, by its key
and its arguments.  The locale that words them is a parameter of the model, as
are the functions outside the flow modules that read a response, fill a
template or judge a check.
-/

namespace Gostman.Flows

open Gostman.Lib Gostman.Js

/-- The fields of `FLOW_FIELD_TEXT` a target problem names. -/
inductive FieldText where
  | caseOf (label : String)
  | otherwise
  | field (field : TargetField)

/-- The keys of `FLOW_ENGINE_TEXT`, with their arguments, and the label of a
kind. -/
inductive FlowText where
  | noSteps
  | unknownKind (kind : String)
  | noRequest
  | missingRequest (reference : String)
  | unknownTarget (field : String) (target : String)
  | intoLoop (field : String) (target : String)
  | intoBranch (field : String) (target : String)
  | noName
  | noValueStep (name : String)
  | noSource (name : String)
  | notRequestStep (target : String)
  | noConditions
  | noList
  | noPath
  | emptyLoop
  | emptyRepeat
  | noCases
  | caseNoConditions (label : String)
  | noFlow
  | missingFlow (reference : String)
  | flowCycle (name : String)
  | flowTooDeep (levels : Nat)
  | unknownInput (target : String)
  | noInputName
  | notEarlierStep (target : String)
  | siblingBranch (target : String)
  | inputBadPath (name : String)
  | inputNotJson (name : String)
  | inputNotForm (name : String)
  | noVariableName
  | variableTwice (name : String)
  | variablesLoop (names : List String)
  | loopHidesVariable (name : String)
  | groupsTooDeep (levels : Nat)
  | emptyParallel
  | branchKind
  | branchJump
  | branchRetry
  | problem (title message : String)
  | cannotRun (count : Nat)
  | notRunYet (title : String)
  | nothingFound (path title : String)
  | noHeader (name title : String)
  | notAList (path title : String)
  | budget (sends cap : Nat)
  | budgetOf (name : String) (sends cap : Nat)
  | budgetAbove
  | endless (count : Nat)
  | passed
  | failedAt (title : String)
  | setFailed (title : String)
  | ended (outcome : Outcome)
  | attemptPassed (attempt attempts : Nat)
  | attemptFailed (attempt attempts : Nat)
  | retrying (attempt attempts : Nat)
  | rerouted (target : String)
  | branch (branch target : String)
  | branchThen
  | branchElse
  | endOfFlow
  | nextItem
  | nextPass
  | iteration (index count : Nat)
  | pass (index count : Nat)
  | untilMet (passes : Nat)
  | untilNever (times : Nat)
  | untilNeverRerouted (times : Nat) (target : String)
  | repeatFailed (title : String) (times : Nat)
  | caseName (position : Nat)
  | caseCheck (label name : String)
  | noCaseMatched
  | flowPassed (sends : Nat)
  | emptyList
  | waited (ms : Nat)
  | untilCheck (name : String)
  | milliseconds (ms : Int)
  | inputsFailed (title : String)
  | inGroup (mode : Match) (name : String)
  | typeName (type : VariableType)
  | notOfType (name type value : String)
  | outputFailed (name message : String)
  | inputMissing (name : String)
  | wrote (names : List String)
  | branchInputs (title message : String)
  | branchState (state : String)
  | branchFact (title timing : String)
  | branchTook (state duration : String)
  | branchPassed
  | branchFailed
  | branchCancelled
  | branchTimedOut
  | parallelPassed (passed count : Nat) (duration : String)
  | parallelFailed (passed count : Nat)
  | parallelTimedOut (duration : String)
  | kindLabel (kind : Kind)
  | fieldText (field : FieldText)

structure Check where
  name : String
  passed : Bool
  message : String
  resolvedName : Option String

/-- What the flow modules take from elsewhere: the locale, the number
conversions of the runtime, `toLowerCase`, the placeholders of a template, the
JSON readers of `jsonPath.js` and `exactJson.js`, the checks of
`scripting/assertions.js` and `responseSubject` of `scripting/subjects.js`. -/
structure Library where
  say : FlowText → String
  numerals : Numerals
  toLowerCase : String → String
  /-- `substitutePlaceholders(template, variableMap(variables))`. -/
  fillTemplate : String → Record String String → String
  placeholderNames : String → List String
  /-- `queryJson`, with the message it throws. -/
  queryJson : String → Option Json → Except String (Option Json)
  /-- `parseJSON(text, text)`. -/
  parseJson : String → Json
  /-- `stringifyExact(parseExact(text))`, `none` where that throws. -/
  exactJson : String → Option String
  /-- `isJsonNumber(text) && Number.isFinite(Number(text))`. -/
  isFiniteNumber : String → Bool
  /-- `bodyPath(name) !== null`. -/
  isBodyPath : String → Bool
  titleOf : Assertion → String
  evaluateAssertionList : List Assertion → Json → Record String String → List Check
  responseSubject : Json → Json

end Gostman.Flows
