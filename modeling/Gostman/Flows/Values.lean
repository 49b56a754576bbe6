import Gostman.Flows.Text
/-!
# Values, conditions and inputs at run time

`flows/values.js`, the rest of `flows/declared.js` and `resolveInputs` of
`flows/inputs.js`: how a step reads a response, judges its conditions, coerces
a declared variable and fills the inputs of a send.

A result that is `{ ok, value }` or `{ ok, message }` in the source is an
`Except String`.  Members a JavaScript object inherits are not read.
-/

namespace Gostman.Flows

open Gostman.Lib Gostman.Js

variable (lib : Library)

/-! ## Declared variables -/

/-- `coerce`: the text of a value of a type, `none` where it is not of it. -/
def coerce (written : String) : VariableType → Option String
  | .string => some written
  | .number =>
      let trimmed := trim written
      if lib.isFiniteNumber trimmed then some trimmed else none
  | .boolean =>
      let lowered := lib.toLowerCase (trim written)
      if lowered = "true" ∨ lowered = "false" then some lowered else none
  | .json => lib.exactJson written

def namedDeclared (flow : Flow) : List Declared :=
  flow.vars.filter fun declared => declared.name ≠ ""

def declaredTypes (flow : Flow) : Record String VariableType :=
  Record.ofEntries ((namedDeclared flow).map fun declared => (declared.name, declared.type))

/-- The loop of `declarationOrder`.  Each round takes out at least one of the
variables still waiting, so as many rounds as there are variables are enough. -/
def declarationRounds (isFixed : Declared → Bool) :
    Nat → Record String Declared → List Declared → List Declared × List String
  | 0, waiting, order => (order, waiting.keys)
  | rounds + 1, waiting, order =>
      let waitsFor (entry : Declared) : Bool :=
        !isFixed entry && (lib.placeholderNames entry.value).any fun name =>
          name ≠ entry.name && waiting.has name
      let ready := (waiting.map Prod.snd).filter fun entry => !waitsFor entry
      if waiting.isEmpty then (order, [])
      else if ready.isEmpty then (order, waiting.keys)
      else declarationRounds isFixed rounds (waiting.without (ready.map Declared.name)) (order ++ ready)

/-- `declarationOrder`: the order in which the variables can be given their
values, and the names of those that wait for each other. -/
def declarationOrder (declared : List Declared) (isFixed : Declared → Bool) :
    List Declared × List String :=
  let waiting := Record.ofEntries (declared.map fun entry => (entry.name, entry))
  declarationRounds lib isFixed waiting.length waiting []

def typedValue (written : String) (type : Option VariableType) : Json :=
  if type = some .string then .str written else lib.parseJson written

/-! ## Reading a response -/

def subjectOf (response : Option Json) : Json :=
  match response with
  | some (.obj fields) =>
      lib.responseSubject (.obj (Record.overlay [("headers", .arr []), ("body", .str "")] fields))
  | _ => .obj []

def jsonPathOf (path : String) : String :=
  if path.startsWith "$" then path else "$." ++ path

def readBody (subject : Json) (path title : String) : Except String (Option Json) :=
  match lib.queryJson (jsonPathOf path) (subject.field "body") with
  | .ok none => .error (lib.say (.nothingFound path title))
  | .ok found => .ok found
  | .error message => .error message

def readHeader (subject : Json) (name title : String) : Except String (Option Json) :=
  match (subject.field "headers").bind fun headers => headers.field (lib.toLowerCase name) with
  | none => .error (lib.say (.noHeader name title))
  | found => .ok found

def readResponse (subject : Option Json) (source : Source) (path title : String) :
    Except String (Option Json) :=
  match subject, source with
  | none, _ => .error (lib.say (.notRunYet title))
  | some subject, .status => .ok (subject.field "status")
  | some subject, .header => readHeader lib subject path title
  | some subject, .body => readBody lib subject path title

def listItems (subject : Option Json) (path title : String) : Except String (List Json) :=
  match readResponse lib subject .body path title with
  | .error message => .error message
  | .ok (some (.arr items)) => .ok items
  | .ok _ => .error (lib.say (.notAList path title))

def itemValues (item : Option Json) (index : Nat) (names : ForEachFields) : Record String String :=
  let values := Record.ofEntries
    [(names.itemAs, asText lib.numerals item), (names.indexAs, toString index)]
  match item with
  | some (.obj fields) =>
      values.overlay (fields.map fun entry =>
        (names.itemAs ++ "." ++ entry.1, asText lib.numerals (some entry.2)))
  | _ => values

/-! ## Conditions -/

def typedVariables (vars : Record String String) (types : Record String VariableType) : Obj :=
  vars.map fun entry => (entry.1, typedValue lib entry.2 (types.read entry.1))

def quotedName (name : String) : String :=
  let escape (c : Char) : List Char := if c = '\\' ∨ c = '\'' then ['\\', c] else [c]
  String.ofList ('\'' :: name.toList.flatMap escape ++ ['\''])

def asVariableCheck (condition : Assertion) : Assertion :=
  { condition with expression := "res.body[" ++ quotedName (trim condition.expression) ++ "]" }

def variableChecks (conditions : List Assertion) (vars : Record String String)
    (types : Record String VariableType) : List Check :=
  let active := conditions.filter isActiveAssertion
  let subject := Json.obj [("body", .obj (typedVariables lib vars types))]
  let results := lib.evaluateAssertionList (active.map asVariableCheck) subject vars
  results.mapIdx fun position result =>
    { name := ((active[position]?).map lib.titleOf).getD ""
      passed := result.passed
      message := result.message
      resolvedName := none }

def leafChecks (source : ConditionSource) (leaves : List Assertion) (subject : Option Json)
    (vars : Record String String) (types : Record String VariableType) : List Check :=
  match source with
  | .vars => variableChecks lib leaves vars types
  | .response => lib.evaluateAssertionList leaves (subject.getD (.obj [])) vars

structure Judged where
  mode : Match
  counted : Bool
  passed : Bool
  checks : List Check

def inGroup (mode : Match) (check : Check) : Check :=
  { check with name := lib.say (.inGroup mode check.name) }

/-- `judge`, from the checks of the own conditions and the judged groups. -/
def judgedBy (mode : Match) (own : List Check) (groups : List Judged) : Judged :=
  let counted := groups.filter Judged.counted
  let verdicts := own.map Check.passed ++ counted.map Judged.passed
  let passed := match mode with
    | .any => verdicts.any id
    | .all => verdicts.all id
  { mode := mode
    counted := verdicts.length > 0
    passed := verdicts.length > 0 && passed
    checks := own ++ counted.flatMap fun group => group.checks.map (inGroup lib group.mode) }

def ownChecks (items : List Condition) : List Assertion :=
  items.filterMap fun
    | .check assertion => some assertion
    | .group _ _ => none

mutual

def judgeGroups (read : List Assertion → List Check) : List Condition → List Judged
  | [] => []
  | item :: rest => judgeGroup read item ++ judgeGroups read rest

def judgeGroup (read : List Assertion → List Check) : Condition → List Judged
  | .check _ => []
  | .group mode conditions =>
      [judgedBy lib mode (read (ownChecks conditions)) (judgeGroups read conditions)]

end

def judge (mode : Match) (items : List Condition) (read : List Assertion → List Check) : Judged :=
  judgedBy lib mode (read (ownChecks items)) (judgeGroups lib read items)

def evaluateConditions (source : ConditionSource) (mode : Match) (conditions : List Condition)
    (subject : Option Json) (vars : Record String String) (types : Record String VariableType) :
    Judged :=
  judge lib mode conditions fun leaves => leafChecks lib source leaves subject vars types

/-! ## Inputs of a send -/

structure FilledInput where
  target : String
  name : String
  value : Option Json
  exact : Bool

structure Filled where
  inputs : List FilledInput
  vars : Record String String

def inputTargets : List String := ["header", "query", "body", "form", "variable"]

def acceptsBody (bodyType : String) : Bool := bodyType = "" || bodyType = "json"

def acceptsForm (bodyType : String) : Bool := bodyType = "form" || bodyType = "multipart"

/-- The loop of `resolveInputs`.  An input comes with its `exact` mark; `read`
reads a response and may itself fail. -/
def resolvedInputs {ε : Type}
    (read : String → Source → String → Except ε (Except String (Option Json))) :
    List (StepInput × Bool) → Except ε (Except String (List FilledInput))
  | [] => .ok (.ok [])
  | (input, exact) :: rest => do
      let found ← match input.value.reading with
        | .template value => pure (.ok (some (.str value)))
        | .response step source path => read step source path
      match found with
      | .error message => return .error message
      | .ok value =>
          let resolved := if input.target = "body" then value
            else some (.str (asText lib.numerals value))
          match ← resolvedInputs read rest with
          | .error message => return .error message
          | .ok others =>
              return .ok (⟨input.target, input.value.name, resolved, exact⟩ :: others)

def resolveInputs {ε : Type} (inputs : List (StepInput × Bool))
    (read : String → Source → String → Except ε (Except String (Option Json))) :
    Except ε (Except String Filled) := do
  match ← resolvedInputs lib read inputs with
  | .error message => return .error message
  | .ok resolved =>
      let isVariable (input : FilledInput) : Bool := input.target = "variable"
      return .ok
        { inputs := resolved.filter fun input => !isVariable input
          vars := Record.ofEntries ((resolved.filter isVariable).map fun input =>
            (input.name, asText lib.numerals input.value)) }

end Gostman.Flows
