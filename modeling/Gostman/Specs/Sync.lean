import Gostman.Js.Value
import Gostman.Lib.Utf16
import Mathlib.Data.Nat.Digits.Defs
/-!
# Updates from a spec (`lib/specSync.js`, `lib/specActions.js`)

A folder that was imported from a spec has a link: for every operation of the
spec the request made from it, and what the operation and the request were
then.  `diffSpec` compares the link with the operations of today, and `apply`
carries out what the user picks of the plan.
-/

namespace Gostman.Specs

open Gostman.Lib Gostman.Js

/-! ## Requests and their fingerprints -/

inductive SpecField where
  | name | description | method | url | headers | queryParams | body | bodyType
  deriving DecidableEq

def specFields : List SpecField :=
  [.name, .description, .method, .url, .headers, .queryParams, .body, .bodyType]

inductive AuthField where
  | type | token | username | password | key | value | in
  deriving DecidableEq

def authFields : List AuthField :=
  [.type, .token, .username, .password, .key, .value, .in]

/-- What the synchronisation reads and writes of a request. -/
structure Request where
  id : String
  text : SpecField → String
  auth : AuthField → String
  vars : String

structure Operation where
  key : String
  hash : String
  operationId : String
  deriving DecidableEq

/-- The other modules: `normalizeRequest`, which keeps the id, and
`withoutActiveContent`. -/
structure Desk where
  numerals : Numerals
  normalizeRequest : Request → Request
  id_normalizeRequest : ∀ request, (normalizeRequest request).id = request.id
  withoutActiveContent : Request → Request
  id_withoutActiveContent : ∀ request, (withoutActiveContent request).id = request.id

def hashBase : Nat := 36
def fnvOffset : UInt32 := 0x811c9dc5
def fnvPrime : UInt32 := 0x01000193

def inHashBase (hash : UInt32) : String :=
  let digits := (Nat.digits hashBase hash.toNat).reverse
  if digits = [] then "0"
  else String.ofList (digits.map fun digit => "0123456789abcdefghijklmnopqrstuvwxyz".toList.getD digit '0')

def hashText (text : String) : String :=
  inHashBase ((utf16 text.toList).foldl (fun hash unit => (hash ^^^ unit.toUInt32) * fnvPrime) fnvOffset)

section Fingerprints

variable (desk : Desk)

def fingerprintOf (normalized : Request) (extra : List String) : String :=
  let fields := specFields.map fun field => Json.str (normalized.text field)
  let auth := authFields.map fun field => Json.str (normalized.auth field)
  hashText (stringify desk.numerals (.arr ([.arr fields, .arr auth] ++ extra.map Json.str)))

def requestFingerprint (request : Request) : String :=
  let normalized := desk.normalizeRequest request
  fingerprintOf desk normalized [normalized.vars]

/-! ## Links -/

/-- An entry of a link, as `readEntry` reads it. -/
structure Entry where
  requestId : String
  specHash : String
  localHash : String
  operationId : String

def linkEntry (requestId specHash : String) (request : Request) (operationId : String) : Entry :=
  ⟨requestId, specHash, requestFingerprint desk request, operationId⟩

structure Link where
  ops : Record String Entry
  distinct : ops.keys.Nodup

def Link.delete (link : Link) (key : String) : Link where
  ops := link.ops.remove key
  distinct := link.distinct.sublist (List.filter_sublist.map Prod.fst)

def Link.set (link : Link) (key : String) (entry : Entry) : Link where
  ops := link.ops.put key entry
  distinct := Record.nodup_put link.distinct key entry

def requestsById (requests : List Request) : Record String Request :=
  Record.ofEntries (requests.map fun request => (request.id, request))

/-! ## Plans -/

structure Known where
  key : String
  entry : Entry
  request : Request

structure Change where
  key : String
  newKey : String
  operation : Option Operation
  requestId : String
  method : String
  name : String
  edited : Bool

structure Plan where
  added : List Operation
  changed : List Change
  removed : List Change
  unchanged : Nat

def knownOf (link : Link) (requests : List Request) : List Known :=
  link.ops.filterMap fun (key, entry) =>
    ((requestsById requests).read entry.requestId).map fun request => ⟨key, entry, request⟩

def describe (known : Known) (newKey : String) (operation : Option Operation) : Change where
  key := known.key
  newKey := newKey
  operation := operation
  requestId := known.entry.requestId
  method := known.request.text .method
  name := known.request.text .name
  edited := requestFingerprint desk known.request ≠ known.entry.localHash

/-- What the first loop of `diffSpec` collects. -/
structure Sorted where
  changed : List Change
  gone : List Known
  unchanged : Nat

def Sorted.add (current : Record String Operation) (sorted : Sorted) (known : Known) : Sorted :=
  match current.read known.key with
  | none => { sorted with gone := sorted.gone ++ [known] }
  | some operation =>
      if operation.hash = known.entry.specHash then { sorted with unchanged := sorted.unchanged + 1 }
      else { sorted with changed := sorted.changed ++ [describe desk known known.key (some operation)] }

/-- What the second loop of `diffSpec` collects. -/
structure Rematched where
  moved : List String
  changed : List Change
  removed : List Change

/-- One gone entry, by its operation id among the fresh operations. -/
def Rematched.add (freshByOperationId : Record String Operation) (rematched : Rematched) (known : Known) : Rematched :=
  let target := if known.entry.operationId = "" then none else freshByOperationId.read known.entry.operationId
  match target with
  | none => { rematched with removed := rematched.removed ++ [describe desk known "" none] }
  | some operation =>
      if operation.key ∈ rematched.moved then
        { rematched with removed := rematched.removed ++ [describe desk known "" none] }
      else
        { rematched with
          moved := rematched.moved ++ [operation.key]
          changed := rematched.changed ++ [describe desk known operation.key (some operation)] }

def currentOf (operations : List Operation) : Record String Operation :=
  Record.ofEntries (operations.map fun operation => (operation.key, operation))

def freshOf (link : Link) (operations : List Operation) : List Operation :=
  operations.filter fun operation => operation.key ∉ link.ops.keys

def freshByOperationId (link : Link) (operations : List Operation) : Record String Operation :=
  Record.ofEntries (((freshOf link operations).filter (·.operationId ≠ "")).map
    fun operation => (operation.operationId, operation))

def sortedOf (link : Link) (operations : List Operation) (requests : List Request) : Sorted :=
  (knownOf link requests).foldl (Sorted.add desk (currentOf operations)) ⟨[], [], 0⟩

def rematchedOf (link : Link) (operations : List Operation) (sorted : Sorted) : Rematched :=
  sorted.gone.foldl (Rematched.add desk (freshByOperationId link operations)) ⟨[], sorted.changed, []⟩

def diffSpec (link : Link) (operations : List Operation) (requests : List Request) : Plan :=
  let sorted := sortedOf desk link operations requests
  let rematched := rematchedOf desk link operations sorted
  { added := (freshOf link operations).filter (·.key ∉ rematched.moved)
    changed := rematched.changed
    removed := rematched.removed
    unchanged := sorted.unchanged }

def isEmptyPlan (plan : Plan) : Bool :=
  plan.added.length + plan.changed.length + plan.removed.length = 0

def selectedChanges (plan : Plan) (selected : List String) : Plan :=
  { plan with
    added := plan.added.filter (·.key ∈ selected)
    changed := plan.changed.filter (·.key ∈ selected)
    removed := plan.removed.filter (·.key ∈ selected) }

/-! ## Carrying out a plan -/

/-- What the backend makes when a plan is carried out: a request for each
operation, and ids for requests that have none.  The ids it draws are not those
of the link. -/
structure Drawn (link : Link) where
  request : Operation → Request
  request_fresh : ∀ operation entry, entry ∈ link.ops → entry.2.requestId ≠ (request operation).id
  uuid : Nat → String
  uuid_fresh : ∀ index entry, entry ∈ link.ops → entry.2.requestId ≠ uuid index

/-- `backend.saveRequests`, which gives an id to the requests without one. -/
def saveRequests (uuid : Nat → String) (requests : List Request) : List Request :=
  requests.mapIdx fun index request => { request with id := if request.id = "" then uuid index else request.id }

def upsertRequests (requests saved : List Request) : List Request :=
  ((requestsById requests).overlay (saved.map fun request => (request.id, desk.normalizeRequest request))).map Prod.snd

/-- The link and the requests of the store, while a plan is carried out. -/
structure Applied where
  link : Link
  requests : List Request

def removeRequests (items : List Change) (state : Applied) : Applied :=
  let ids := items.map (·.requestId)
  { link := items.foldl (fun link item => link.delete item.key) state.link
    requests := state.requests.filter (·.id ∉ ids) }

/-- The request of a change, with the fields of the spec replaced. -/
def rewrittenOf (requests : List Request) (item : Change) (request : Request) : Request :=
  let current := requests.find? (·.id = item.requestId)
  desk.normalizeRequest { request with id := (current.map (·.id)).getD "" }

/-- `generated.get(key)` for each of the keys, which fails where one is
missing. -/
def generatedFor (generated : Record String (Operation × Request)) (keys : List String) :
    Option (List (Operation × Request)) :=
  keys.mapM generated.read

/-- A change and the operation and request it was saved with. -/
def Link.move (link : Link) (saved : Change × Operation × Request) : Link :=
  (link.delete saved.1.key).set saved.2.1.key
    (linkEntry desk saved.2.2.id saved.2.1.hash saved.2.2 saved.2.1.operationId)

def updateRequests (uuid : Nat → String) (items : List Change) (generated : Record String (Operation × Request))
    (state : Applied) : Option Applied := do
  let found ← generatedFor generated (items.map (·.newKey))
  if items = [] then return state
  let saved := saveRequests uuid ((items.zip found).map fun (item, entry) => rewrittenOf desk state.requests item entry.2)
  return { link := (items.zip ((found.map Prod.fst).zip saved)).foldl (Link.move desk) state.link
           requests := upsertRequests desk state.requests saved }

/-- An added operation and the request it was saved with. -/
def Link.add (link : Link) (saved : Operation × Request) : Link :=
  link.set saved.1.key (linkEntry desk saved.2.id saved.1.hash saved.2 saved.1.operationId)

def addRequests (uuid : Nat → String) (operations : List Operation)
    (generated : Record String (Operation × Request)) (state : Applied) : Option Applied := do
  let found ← generatedFor generated (operations.map (·.key))
  if operations = [] then return state
  let saved := saveRequests uuid (found.map fun entry => desk.normalizeRequest entry.2)
  return { link := (operations.zip saved).foldl (Link.add desk) state.link
           requests := upsertRequests desk state.requests saved }

/-- `client.requestsFor` at a spec of these operations, with the pages put
together: the operations of the keys, in the order of the keys. -/
def operationsFor (operations : List Operation) (keys : List String) : List Operation :=
  keys.filterMap (currentOf operations).read

/-- The map `generated`: the operations of the keys and the requests made from
them. -/
def generatedOf (operations : List Operation) (made : Operation → Request) (keys : List String) :
    Record String (Operation × Request) :=
  Record.ofEntries ((operationsFor operations keys).map fun operation => (operation.key, operation, made operation))

/-- `apply`: remove, update, add.  `none` where a key is not generated. -/
def apply (link : Link) (drawn : Drawn link) (operations : List Operation) (requests : List Request) (plan : Plan)
    (selected : List String) : Option Applied := do
  let picks := selectedChanges plan selected
  let keys := picks.added.map (·.key) ++ picks.changed.map (·.newKey)
  let generated := generatedOf operations (fun operation => desk.withoutActiveContent (drawn.request operation)) keys
  let updated ← updateRequests desk drawn.uuid picks.changed generated (removeRequests picks.removed ⟨link, requests⟩)
  addRequests desk (fun index => drawn.uuid (picks.changed.length + index)) picks.added generated updated

end Fingerprints

end Gostman.Specs
