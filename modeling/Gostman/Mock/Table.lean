import Gostman.Mock.Pattern
import Gostman.Placeholders.Settled
import Mathlib.Data.Char
import Mathlib.Data.List.Lex
import Mathlib.Data.List.Sort
import Mathlib.Order.Lex
/-!
# The table of the mock server (`mock/plan.go`, `mock/config.go`, `mock/example.go`)

The requests of a collection become routes.  A request is served when it has an
example that can be answered with and no other request has taken its method and
path.  The served routes are sorted, and a request gets the first that matches.

The saved examples of a request and the type of each path parameter are taken
as read.  Rules and settings do not take part in routing.
-/

namespace Gostman.Mock

open Gostman.Lib
open Gostman.Placeholders (Text Substitution Generators)

/-! ## Behaviour -/

inductive FaultKind where
  | none
  | status
  | reset
  | empty
  | unknown (kind : Text)
  deriving DecidableEq

structure Fault where
  percent : Int := 0
  kind : FaultKind := .none
  status : Int := 0
  deriving DecidableEq

structure Behavior where
  delayMs : Int := 0
  delayMaxMs : Int := 0
  slowBodyMs : Int := 0
  fault : Fault := {}
  deriving DecidableEq

/-- What `validate` finds wrong with a behaviour. -/
inductive Invalid where
  | delays
  | longestDelay
  | faultRate
  | faultKind (kind : Text)
  | faultStatus
  deriving DecidableEq

def highestDelayMs : Int := 60000
def highestPercent : Int := 100
def lowestStatus : Int := 200
def highestStatus : Int := 599

def Fault.validate (fault : Fault) : Option Invalid :=
  if fault.percent < 0 ∨ highestPercent < fault.percent then some .faultRate
  else
    match fault.kind with
    | .unknown kind => some (.faultKind kind)
    | _ =>
        if fault.status ≠ 0 ∧ (fault.status < 400 ∨ highestStatus < fault.status) then some .faultStatus
        else none

def Behavior.validate (behavior : Behavior) : Option Invalid :=
  if ∃ value ∈ [behavior.delayMs, behavior.delayMaxMs, behavior.slowBodyMs],
      value < 0 ∨ highestDelayMs < value then some .delays
  else if behavior.delayMaxMs ≠ 0 ∧ behavior.delayMaxMs < behavior.delayMs then some .longestDelay
  else behavior.fault.validate

/-! ## Examples -/

structure Header where
  key : Text
  value : Text
  deriving DecidableEq

structure Example where
  id : Text := []
  name : Text := []
  status : Int := 0
  headers : List Header := []
  body : Text := []
  bodyEncoding : Text := []
  contentType : Text := []
  isDefault : Bool := false
  deriving DecidableEq

structure Answer where
  status : Int
  headers : List Header
  body : Bytes
  binary : Bool
  deriving DecidableEq

def encodingBase64 : Text := "base64".toList
def headerContentType : Text := "Content-Type".toList

def unservedHeaders : List Text :=
  ["Connection", "Content-Length", "Date", "Keep-Alive", "Authorization", "Proxy-Authenticate",
    "Set-Cookie", "Proxy-Authorization", "Proxy-Connection", "Te", "Trailer", "Transfer-Encoding",
    "Upgrade", "Www-Authenticate"].map String.toList

def selectExample (examples : List Example) (selectedID : Text) : Option Example :=
  match examples with
  | [] => none
  | first :: _ =>
      let selected := if selectedID ≠ [] then examples.find? (·.id = selectedID) else none
      match selected with
      | some found => some found
      | none => some ((examples.find? (·.isDefault)).getD first)

def servedStatus (status : Int) : Int :=
  if status < lowestStatus ∨ highestStatus < status then 200 else status

section Answers

variable (lib : Library)

def servedHeaders (stored : List Header) : List Header :=
  stored.filterMap fun header =>
    let name := lib.canonicalHeaderKey (Placeholders.trimSpace header.key)
    if name = [] ∨ name ∈ unservedHeaders then none else some ⟨name, header.value⟩

def hasHeader (headers : List Header) (name : Text) : Bool :=
  headers.any (·.key = name)

def exampleBody (shown : Example) : Option Bytes :=
  if shown.bodyEncoding ≠ encodingBase64 then some (encode shown.body) else lib.decodeBase64 shown.body

def answerFrom (shown : Example) : Option Answer :=
  (exampleBody lib shown).map fun body =>
    let headers := servedHeaders lib shown.headers
    let headers :=
      if shown.contentType ≠ [] ∧ hasHeader headers headerContentType = false then
        headers ++ [⟨headerContentType, shown.contentType⟩]
      else headers
    ⟨servedStatus shown.status, headers, body, shown.bodyEncoding = encodingBase64⟩

end Answers

/-! ## Sources and routes -/

structure Source where
  id : Text := []
  name : Text := []
  method : Text := []
  url : Text := []
  examples : List Example := []
  exampleID : Text := []
  path : Text := []
  types : Record Text Kind := []
  disabled : Bool := false
  behavior : Behavior := {}
  deriving DecidableEq

inductive Reason where
  | disabled
  | noExample
  | exampleBodyInvalid (name : Text)
  | conflict (method : Text) (path : Bytes) (owner : Text)
  | graphqlNotServed
  | grpcNotServed
  | mcpNotServed
  | webSocketNotServed
  deriving DecidableEq

inductive RouteState where
  | served
  | noExample
  | conflict
  | skipped
  | disabled
  deriving DecidableEq

structure Route where
  requestID : Text
  name : Text
  method : Text
  path : Bytes := []
  state : RouteState := .served
  reason : Option Reason := none
  exampleID : Text := []
  exampleName : Text := []
  deriving DecidableEq

def Route.withReason (route : Route) (state : RouteState) (reason : Reason) : Route :=
  { route with state := state, reason := some reason }

def Route.withState (route : Route) (state : RouteState) : Route :=
  { route with state := state }

structure ServedExample where
  id : Text
  name : Text
  status : Int
  answer : Answer
  deriving DecidableEq

structure ServedRoute where
  name : Text
  method : Text
  shape : Pattern
  answer : Option Answer := none
  examples : List ServedExample := []
  behavior : Behavior := {}
  deriving DecidableEq

structure Table where
  routes : List Route := []
  served : List ServedRoute := []
  unanswered : List ServedRoute := []
  owners : Record Bytes Text := []

section Building

variable (lib : Library)

def methodOf (source : Source) : Text :=
  let method := lib.toUpper (Placeholders.trimSpace source.method)
  if method = [] then "GET".toList else method

def isSocketAddress (address : Text) : Bool :=
  let lowered := lib.toLower (Placeholders.trimSpace address)
  "ws://".toList <+: lowered || "wss://".toList <+: lowered

def unservedReason (method address : Text) : Option Reason :=
  if method = "GRAPHQL".toList then some .graphqlNotServed
  else if method = "GRPC".toList then some .grpcNotServed
  else if method = "MCP".toList then some .mcpNotServed
  else if isSocketAddress lib address then some .webSocketNotServed
  else none

def shapeOf (source : Source) : Pattern :=
  if source.path ≠ [] then templatePattern source.path source.types else routePattern source.url

def servedExamples (examples : List Example) : List ServedExample :=
  examples.filterMap fun shown =>
    (answerFrom lib shown).map fun reply => ⟨shown.id, shown.name, shown.status, reply⟩

def routeKey (method : Text) (shape : Pattern) : Bytes :=
  encode method ++ 0x20 :: key shape

def Table.admit (t : Table) (source : Source) (address : Text) : Except Invalid (Route × Table) :=
  let route : Route := { requestID := source.id, name := source.name, method := methodOf lib source }
  match unservedReason lib route.method address with
  | some reason => .ok (route.withReason .skipped reason, t)
  | none =>
      let shape := shapeOf source
      let route := { route with path := string shape }
      if source.disabled then .ok (route.withReason .disabled .disabled, t)
      else
        match source.behavior.validate with
        | some invalid => .error invalid
        | none =>
            match selectExample source.examples source.exampleID with
            | none =>
                .ok (route.withReason .noExample .noExample,
                  { t with unanswered := t.unanswered ++ [⟨source.name, route.method, shape, none, [], {}⟩] })
            | some shown =>
                let route := { route with exampleID := shown.id, exampleName := shown.name }
                match answerFrom lib shown with
                | none => .ok (route.withReason .skipped (.exampleBodyInvalid shown.name), t)
                | some served =>
                    let taken := routeKey route.method shape
                    match t.owners.read taken with
                    | some owner =>
                        .ok (route.withReason .conflict (.conflict route.method route.path owner), t)
                    | none =>
                        .ok (route.withState .served,
                          { t with
                            owners := t.owners.put taken source.name
                            served := t.served ++ [⟨source.name, route.method, shape, some served,
                              servedExamples lib source.examples, source.behavior⟩] })

/-! ## The whole table -/

structure RouteOptions where
  disabled : Bool := false
  behavior : Behavior := {}

structure Config where
  behavior : Behavior := {}
  spec : List Source := []
  routes : Record Text RouteOptions := []
  selections : Record Text Text := []
  /-- What `compileRules` finds wrong with the rules. -/
  rules : Option String := none

def Config.apply (config : Config) (source : Source) : Source :=
  let chosen := (config.selections.read source.id).getD []
  let source := if chosen ≠ [] then { source with exampleID := chosen } else source
  let options := (config.routes.read source.id).getD {}
  { source with disabled := options.disabled, behavior := options.behavior }

def Config.compose (config : Config) (sources : List Source) : List Source :=
  (sources ++ config.spec).map config.apply

inductive Failure where
  | settings (invalid : Invalid)
  | tooMany (count : Nat)
  | variablesInvalid (message : String)
  | rules (message : String)
  | source (name : Text) (invalid : Invalid)
  | filesHTTPOnly
  | tooLargeExpanded
  | variablesTooDeep

def maxRoutes : Nat := 10000

def expansionFailure (s : Substitution) : Option Failure :=
  if s.failed then some .filesHTTPOnly
  else if s.exceeded then some .tooLargeExpanded
  else if s.overworked then some .variablesTooDeep
  else none

variable (generators : Generators)

def admitAll : List Source → Table → Substitution → Except Failure (Table × Substitution)
  | [], t, s => .ok (t, s)
  | source :: rest, t, s =>
      let (address, s) := s.apply generators source.url
      match t.admit lib source address with
      | .error invalid => .error (.source source.name invalid)
      | .ok (route, t) => admitAll rest { t with routes := t.routes ++ [route] } s

def byRank (served : List ServedRoute) : List ServedRoute :=
  served.insertionSort fun a b => rank a.shape ≤ rank b.shape

/-- `buildTable`, with the variables as `NewExpansion` reads them. -/
def buildTable (config : Config) (values : Except String (Text → Option Text)) (sources : List Source) :
    Except Failure Table :=
  match config.behavior.validate with
  | some invalid => .error (.settings invalid)
  | none =>
      let composed := config.compose sources
      if maxRoutes < composed.length then .error (.tooMany composed.length)
      else
        match values with
        | .error message => .error (.variablesInvalid message)
        | .ok values =>
            match config.rules with
            | some message => .error (.rules message)
            | none =>
                match admitAll lib generators composed {} (Placeholders.newExpansion values) with
                | .error failure => .error failure
                | .ok (t, s) =>
                    match expansionFailure s with
                    | some failure => .error failure
                    | none => .ok { t with served := byRank t.served }

end Building

/-! ## Finding a route -/

section Finding

variable (lib : Library)

def matchRoute (method : Text) (parts : List Bytes) : List ServedRoute → Option (ServedRoute × Params)
  | [] => none
  | candidate :: routes =>
      if candidate.method ≠ method then matchRoute method parts routes
      else
        match matchParts lib candidate.shape parts with
        | some params => some (candidate, params)
        | none => matchRoute method parts routes

def Table.find (t : Table) (method : Text) (parts : List Bytes) : Option (ServedRoute × Params) :=
  matchRoute lib method parts t.served

end Finding

end Gostman.Mock
