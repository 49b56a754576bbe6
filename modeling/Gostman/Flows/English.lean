import Gostman.Flows.Text
/-!
# The English texts

`locales/en/flows.json`, the part of it the validator and the engine word their
messages with, and a library around it.
-/

namespace Gostman.Flows

open Gostman.Lib Gostman.Js

/-- A count as English writes it, in groups of three digits. -/
def grouped (count : Nat) : String :=
  let digits := (Nat.toDigits 10 count).reverse
  String.ofList (digits.mapIdx fun position digit =>
    if position > 0 ∧ position % 3 = 0 then [digit, ','] else [digit]).flatten.reverse

def plural (count : Nat) (one other : String) : String := if count = 1 then one else other

def conjunction : List String → String
  | [] => ""
  | [name] => name
  | [first, second] => first ++ " and " ++ second
  | names => ", ".intercalate names.dropLast ++ ", and " ++ names.getLastD ""

def typeNames : VariableType → String
  | .string => "text"
  | .number => "a number"
  | .boolean => "true or false"
  | .json => "JSON"

/-- `flowEngine.branchStates`, with the state itself where it has no word. -/
def branchStates (state : String) : String :=
  match state with
  | "running" => "still running"
  | "passed" => "passed"
  | "failed" => "failed"
  | "cancelled" => "stopped"
  | _ => state

def kindLabels : Kind → String
  | .request => "Send request"
  | .setStep => "Set variables"
  | .ifStep => "If"
  | .switch => "Switch"
  | .forEach => "For each"
  | .repeatStep => "Repeat"
  | .parallel => "Parallel"
  | .flow => "Run flow"
  | .delay => "Wait"
  | .endStep => "End"
  | .unknown _ => "Unknown step"

def fieldTexts : FieldText → String
  | .caseOf label => "When \"" ++ label ++ "\" matches, go to"
  | .otherwise => "When no case matches, go to"
  | .field .next => "Then go to"
  | .field .onFailure => "When it fails, go to"
  | .field .thenTo => "When true, go to"
  | .field .elseTo => "When false, go to"
  | .field (.caseAt _) => ""

def english : FlowText → String
  | .noSteps => "The flow has no steps. Add one to run it."
  | .unknownKind kind =>
      "\"" ++ kind ++ "\" is not a kind of step. Use request, set, if, switch, forEach, " ++
        "repeat, flow, delay or end."
  | .noRequest => "Choose the saved request this step sends."
  | .missingRequest reference =>
      "No saved request matches \"" ++ reference ++ "\". Choose it again."
  | .unknownTarget field target =>
      field ++ " \"" ++ target ++ "\", which is not a step of this flow."
  | .intoLoop field target =>
      field ++ " \"" ++ target ++
        "\", a step inside a For each that this step is not part of. Go to the For " ++
        "each step instead."
  | .intoBranch field target =>
      field ++ " \"" ++ target ++ "\", a step inside a Parallel. Go to the Parallel step instead."
  | .noName => "Every value needs a variable name."
  | .noValueStep name => "Choose the Send request step that \"" ++ name ++ "\" comes from."
  | .noSource name =>
      "Give the JSONPath of \"" ++ name ++ "\" in the response, for example $.token."
  | .notRequestStep target => "\"" ++ target ++ "\" is not a Send request step of this flow."
  | .noConditions => "Add at least one condition."
  | .noList => "Choose the Send request step whose response holds the list."
  | .noPath => "Give the JSONPath of the list, for example $.items."
  | .emptyLoop => "Add the steps to repeat inside For each."
  | .emptyRepeat => "Add the steps to repeat inside Repeat."
  | .noCases => "Add at least one case."
  | .caseNoConditions label => "Add at least one condition to the case \"" ++ label ++ "\"."
  | .noFlow => "Choose the saved flow this step runs."
  | .missingFlow reference => "No saved flow matches \"" ++ reference ++ "\". Choose it again."
  | .flowCycle name =>
      "Running \"" ++ name ++
        "\" from here comes back to a flow that is already running. A flow cannot run " ++
        "itself, directly or through other flows."
  | .flowTooDeep levels =>
      "Flows run from this step go more than " ++ toString levels ++
        " levels deep. Run fewer flows inside each other."
  | .unknownInput target =>
      "\"" ++ target ++
        "\" is not a place for a value. Use header, query, body, form or variable."
  | .noInputName =>
      "Every value for this send needs a name: a header, a query parameter, a " ++
        "JSONPath into the body, a form field or a variable."
  | .notEarlierStep target =>
      "\"" ++ target ++ "\" does not run before this step, so its response cannot be used here."
  | .siblingBranch target =>
      "\"" ++ target ++
        "\" runs at the same time as this step, so its response cannot be used here."
  | .inputBadPath name =>
      "\"" ++ name ++ "\" is not a body path this step can write. Write it as $.customer.id, " ++
        "$.items[0].id or $['a name']."
  | .inputNotJson name =>
      "\"" ++ name ++ "\" sets a field of the JSON body, but the request's body is not JSON."
  | .inputNotForm name =>
      "\"" ++ name ++ "\" sets a form field, but the request's body is not a form."
  | .noVariableName => "A flow variable has no name. Name it, or remove the row."
  | .variableTwice name => "Two flow variables are called " ++ name ++ ". Rename or remove one."
  | .variablesLoop names =>
      "The starting values of " ++ conjunction names ++
        " refer to each other, so none of them can be worked out. Give one of them a " ++
        "value that does not use the others."
  | .loopHidesVariable name =>
      name ++ " is also a flow variable, so the loop cannot use that name. Rename one of them."
  | .groupsTooDeep levels =>
      "Groups go at most " ++ toString levels ++
        " levels deep. Move the deepest conditions up a level."
  | .emptyParallel => "Add the requests or flows to run inside Parallel."
  | .branchKind => "Only Send request and Run flow steps can run inside Parallel."
  | .branchJump =>
      "A step inside Parallel cannot go to another step; set the paths on the " ++
        "Parallel step."
  | .branchRetry =>
      "A step inside Parallel is sent once; to try it again, put it in a flow and " ++
        "run that flow here."
  | .problem title message => title ++ ": " ++ message
  | .cannotRun count =>
      "The flow cannot run until " ++ grouped count ++ " " ++ plural count "problem" "problems" ++
        " " ++ plural count "is" "are" ++ " fixed."
  | .notRunYet title => title ++ " has not sent its request yet, so its response cannot be used."
  | .nothingFound path title =>
      "Nothing was found at " ++ path ++ " in the response of " ++ title ++ "."
  | .noHeader name title => "The response of " ++ title ++ " has no " ++ name ++ " header."
  | .notAList path title => path ++ " in the response of " ++ title ++ " is not a list."
  | .budget sends cap =>
      "The flow reached its limit of " ++ grouped sends ++ " " ++
        plural sends "request" "requests" ++
        " and was stopped. Give loops a way to end, or raise the limit in the flow " ++
        "settings (at most " ++ toString cap ++ ")."
  | .budgetOf name sends cap =>
      "The flow \"" ++ name ++ "\" reached its limit of " ++ grouped sends ++ " " ++
        plural sends "request" "requests" ++
        ", so the run was stopped. Give its loops a way to end, or raise the limit in " ++
        "the settings of \"" ++ name ++ "\" (at most " ++ toString cap ++ ")."
  | .budgetAbove =>
      "The run reached the request limit of a flow that runs this one, so it was stopped."
  | .endless count =>
      "The flow went through " ++ grouped count ++ " " ++ plural count "step" "steps" ++
        " without sending a request and was stopped. Check where its steps go next."
  | .passed => "The flow reached its end."
  | .failedAt title => title ++ " failed and has no step to go to when it fails."
  | .setFailed title => title ++ " could not set its values."
  | .ended outcome =>
      if outcome = .failed then "An End step stopped the flow as failed."
      else "An End step stopped the flow."
  | .attemptPassed attempt attempts =>
      if attempts > 1 then
        "Passed on attempt " ++ toString attempt ++ " of " ++ toString attempts ++ "."
      else "Passed."
  | .attemptFailed attempt attempts =>
      if attempts > 1 then
        "Failed on the last attempt (" ++ toString attempt ++ " of " ++ toString attempts ++ ")."
      else "Failed."
  | .retrying attempt attempts =>
      "Attempt " ++ toString attempt ++ " of " ++ toString attempts ++ " failed; trying again."
  | .rerouted target => "Failed; going to " ++ target ++ "."
  | .branch branch target => branch ++ ", going to " ++ target ++ "."
  | .branchThen => "True"
  | .branchElse => "False"
  | .endOfFlow => "the end of the flow"
  | .nextItem => "the next item"
  | .nextPass => "the next pass"
  | .iteration index count => "Item " ++ toString (index + 1) ++ " of " ++ grouped count ++ "."
  | .pass index count => "Pass " ++ toString (index + 1) ++ " of " ++ grouped count ++ "."
  | .untilMet count =>
      "The condition passed after " ++ grouped count ++ " " ++ plural count "pass" "passes" ++ "."
  | .untilNever count =>
      "The condition did not pass in " ++ grouped count ++ " " ++ plural count "pass" "passes" ++
        "."
  | .untilNeverRerouted count target =>
      "The condition did not pass in " ++ grouped count ++ " " ++ plural count "pass" "passes" ++
        "; going to " ++ target ++ "."
  | .repeatFailed title count =>
      title ++ " ran " ++ grouped count ++ " " ++ plural count "time" "times" ++
        " without its condition passing and has no step to go to when it fails."
  | .caseName position => "Case " ++ toString (position + 1)
  | .caseCheck label name => label ++ ": " ++ name
  | .noCaseMatched => "No case matched"
  | .flowPassed count =>
      "Passed; " ++ grouped count ++ " " ++ plural count "request" "requests" ++ " sent."
  | .emptyList => "The list is empty, so its steps were skipped."
  | .waited ms => "Waited " ++ toString ms ++ " ms" ++ "."
  | .untilCheck name => "until " ++ name
  | .milliseconds ms => toString ms ++ " ms"
  | .inputsFailed title => title ++ " could not fill in its values for this send."
  | .inGroup mode name => if mode = .any then "any of: " ++ name else "all of: " ++ name
  | .typeName type => typeNames type
  | .notOfType name type value =>
      name ++ " should be " ++ type ++ ", but got \"" ++ value ++
        "\". Change the value, or the type of " ++ name ++ " in the flow settings."
  | .outputFailed name message =>
      "The flow passed, but its output " ++ name ++ " could not be filled in: " ++ message
  | .inputMissing name =>
      "This flow needs a value for " ++ name ++
        ". Give it in the Run flow step, with --var name=value, or in the active " ++
        "environment."
  | .wrote names => ", ".intercalate names
  | .branchInputs title message => title ++ ": " ++ message
  | .branchState state => branchStates state
  | .branchFact title timing => title ++ " " ++ timing
  | .branchTook state duration => state ++ " in " ++ duration
  | .branchPassed => "Passed."
  | .branchFailed => "Failed."
  | .branchCancelled => "Stopped, because the Parallel step was already done."
  | .branchTimedOut => "Stopped, because the Parallel step ran out of time."
  | .parallelPassed passed count duration =>
      toString passed ++ " of " ++ grouped count ++ " passed; done in " ++ duration ++ "."
  | .parallelFailed passed count =>
      toString passed ++ " of " ++ grouped count ++ " passed, but Done when never became true."
  | .parallelTimedOut duration =>
      "Still not done after " ++ duration ++ ", so the steps still running were stopped."
  | .kindLabel kind => kindLabels kind
  | .fieldText field => fieldTexts field

/-- A library in English for flows whose texts hold no placeholders and that
read nothing from their responses but the whole of them. -/
def plainLibrary : Library where
  say := english
  numerals :=
    { text := fun value => toString value.num
      ofText := fun text => text.toNat?.map fun number => (number : ℚ) }
  toLowerCase := String.toLower
  fillTemplate := fun template _ => template
  placeholderNames := fun _ => []
  queryJson := fun _ value => .ok value
  parseJson := .str
  exactJson := some
  isFiniteNumber := fun text => text.toNat?.isSome
  isBodyPath := fun _ => true
  titleOf := Assertion.expression
  evaluateAssertionList := fun _ _ _ => []
  responseSubject := id

end Gostman.Flows
