import Gostman.Flows.Model
/-!
# A normal flow as a value

The object `normalizeFlow` returns, property by property.  The other modules
of the model read a normal flow through its Lean structures; `validateFlow`
and `compactFlow` also hand it on as a value.
-/

namespace Gostman.Flows

open Gostman.Lib Gostman.Js

def textObj (values : Record String String) : Json :=
  .obj (values.map fun entry => (entry.1, .str entry.2))

def Match.text : Match → String
  | all => "all"
  | any => "any"

def Source.text : Source → String
  | body => "body"
  | header => "header"
  | status => "status"

def ConditionSource.text : ConditionSource → String
  | response => "response"
  | vars => "variables"

def VariableType.text : VariableType → String
  | string => "string"
  | number => "number"
  | boolean => "boolean"
  | json => "json"

def Outcome.text : Outcome → String
  | passed => "passed"
  | failed => "failed"

def Assertion.toJson (assertion : Assertion) : Json :=
  .obj [("expression", .str assertion.expression), ("operator", .str assertion.operator),
    ("value", .str assertion.value), ("enabled", .bool assertion.enabled)]

mutual

def Condition.toJson : Condition → Json
  | .check assertion => assertion.toJson
  | .group mode conditions =>
      .obj [("match", .str mode.text), ("conditions", .arr (conditionItems conditions))]

def conditionItems : List Condition → List Json
  | [] => []
  | condition :: rest => condition.toJson :: conditionItems rest

end

def Retry.toJson (retry : Retry) : Json :=
  .obj [("times", .num retry.times), ("delayMs", .num retry.delayMs),
    ("until", .arr (retry.til.map Assertion.toJson))]

def NamedValue.entries (value : NamedValue) : Obj :=
  ("name", .str value.name) :: match value.reading with
    | .template written => [("value", .str written)]
    | .response step source path =>
        [("step", .str step), ("source", .str source.text), ("path", .str path)]

def NamedValue.toJson (value : NamedValue) : Json := .obj value.entries

def StepInput.toJson (input : StepInput) : Json :=
  .obj (("target", .str input.target) :: input.value.entries)

def Case.toJson (entry : Case) : Json :=
  .obj [("label", .str entry.label), ("match", .str entry.mode.text),
    ("conditions", .arr (conditionItems entry.conditions)), ("target", .str entry.target)]

/-- The properties a kind adds to a step, its inner steps aside. -/
def Fields.entries : Fields → Obj
  | .request fields =>
      [("request", .str fields.request), ("requestId", .str fields.requestId),
        ("variables", textObj fields.vars), ("inputs", .arr (fields.inputs.map StepInput.toJson)),
        ("retry", fields.retry.toJson), ("onFailure", .str fields.onFailure)]
  | .setStep values => [("values", .arr (values.map NamedValue.toJson))]
  | .ifStep fields =>
      [("source", .str fields.source.text), ("step", .str fields.step),
        ("match", .str fields.mode.text), ("conditions", .arr (conditionItems fields.conditions)),
        ("then", .str fields.thenTo), ("else", .str fields.elseTo)]
  | .switch fields =>
      [("source", .str fields.source.text), ("step", .str fields.step),
        ("cases", .arr (fields.cases.map Case.toJson)), ("else", .str fields.elseTo)]
  | .forEach fields =>
      [("step", .str fields.step), ("path", .str fields.path), ("as", .str fields.itemAs),
        ("indexAs", .str fields.indexAs)]
  | .repeatStep fields =>
      [("times", .num fields.times), ("delayMs", .num fields.delayMs),
        ("indexAs", .str fields.indexAs), ("source", .str fields.source.text),
        ("step", .str fields.step), ("match", .str fields.mode.text),
        ("until", .arr (conditionItems fields.til)), ("onFailure", .str fields.onFailure)]
  | .parallel fields =>
      [("match", .str fields.mode.text), ("until", .arr (conditionItems fields.til)),
        ("timeoutMs", .num fields.timeoutMs), ("onFailure", .str fields.onFailure)]
  | .flow fields =>
      [("flow", .str fields.flow), ("flowId", .str fields.flowId),
        ("variables", textObj fields.vars), ("onFailure", .str fields.onFailure)]
  | .delay ms => [("ms", .num ms)]
  | .endStep fields => [("outcome", .str fields.outcome.text), ("message", .str fields.message)]
  | .unknown _ => []

/-- The properties of a step, from the values of its inner steps. -/
def StepHead.toJson (head : StepHead) (inner : List Json) : Json :=
  .obj ([("id", .str head.id), ("kind", .str head.kind.text), ("label", .str head.label),
      ("note", .str head.note)] ++ head.fields.entries ++
    (if head.kind.isContainer then [("steps", .arr inner)] else []) ++ [("next", .str head.next)])

mutual

def stepJson : Step → Json
  | .node head inner => head.toJson (stepItems inner)

def stepItems : List Step → List Json
  | [] => []
  | step :: rest => stepJson step :: stepItems rest

end

def Declared.toJson (declared : Declared) : Json :=
  .obj ([("name", .str declared.name), ("type", .str declared.type.text),
      ("value", .str declared.value)] ++
    (if declared.input then [("input", .bool true)] else []) ++
    (if declared.required then [("required", .bool true)] else []))

def Flow.toJson (flow : Flow) : Json :=
  .obj [("id", .str flow.id), ("name", .str flow.name), ("description", .str flow.description),
    ("maxSends", .num flow.maxSends), ("variables", .arr (flow.vars.map Declared.toJson)),
    ("outputs", .arr (flow.outputs.map NamedValue.toJson)), ("steps", .arr (stepItems flow.steps))]

/-- A flow as the workspace holds it: a value with its `id` and its `name`,
which are texts. -/
structure StoredFlow where
  raw : Json
  id : String
  name : String
  id_eq : raw.field "id" = some (.str id)
  name_eq : raw.field "name" = some (.str name)

/-- A normal flow put in the place of the one the workspace holds. -/
def Flow.stored (flow : Flow) : StoredFlow where
  raw := flow.toJson
  id := flow.id
  name := flow.name
  id_eq := rfl
  name_eq := rfl

end Gostman.Flows
