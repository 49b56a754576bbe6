import Gostman.Openapi.Value
/-!
# Comparing schemas (`openapi/diff/schema.go`)

The keywords of a schema and of all it is composed of are gathered in a view,
and two views are compared keyword by keyword.  All of it draws on one budget
of visits.
-/

namespace Gostman.Openapi

open Gostman.Lib

def maxVisits : Nat := 20000

def checkEvery : Nat := 256

inductive Direction where
  | asRequest
  | asResponse
deriving DecidableEq

inductive Severity where
  | breaking
  | nonBreaking
  | informational
deriving DecidableEq

/-! ## The budget -/

structure Budget where
  visits : Nat := 0
  exhausted : Bool := false
  cut : Bool := false
  /-- At what depth two references were compared. -/
  compared : Record (String × String × Direction) Nat := []

/-- What a comparison works on; `cancelled` tells whether the context is done
at a visit. -/
structure Resolver where
  old : Value
  new : Value
  cancelled : Nat → Bool

namespace Budget

def spend (cancelled : Nat → Bool) (b : Budget) : Bool × Budget :=
  if b.exhausted then (false, b)
  else
    let visits := b.visits + 1
    let exhausted := maxVisits < visits || visits % checkEvery == 0 && cancelled visits
    (!exhausted, { b with visits, exhausted })

def incomplete (b : Budget) : Bool :=
  b.exhausted || b.cut

def firstVisit (b : Budget) (oldSchema newSchema : Value) (way : Direction) (depth : Nat) : Bool × Budget :=
  let oldRef := (oldSchema.field "$ref").textOf
  let newRef := (newSchema.field "$ref").textOf
  if oldRef = "" ∨ newRef = "" then (true, b)
  else
    match b.compared.read (oldRef, newRef, way) with
    | some earlier =>
        if earlier ≤ depth then (false, b)
        else (true, { b with compared := b.compared.put (oldRef, newRef, way) depth })
    | none => (true, { b with compared := b.compared.put (oldRef, newRef, way) depth })

end Budget

/-! ## Views -/

structure View where
  types : List String := []
  nullable : Bool := false
  enum : List String := []
  hasEnum : Bool := false
  properties : Fields := []
  required : List String := []
  items : Value := .null
  numbers : Record String Number := []
  format : String := ""
  pattern : String := ""
  composed : Record String Nat := []
  merged : List String := []

def numericLimits : List String :=
  ["minimum", "maximum", "minLength", "maxLength", "minItems", "maxItems", "minProperties",
    "maxProperties"]

def appendOnce (items : List String) (item : String) : List String :=
  if item ∈ items then items else items ++ [item]

namespace View

def addTypes (view : View) : Value → View
  | .text name => { view with types := appendOnce view.types name }
  | .list items =>
      items.foldl (fun view item =>
        if item.textOf = "null" then { view with nullable := true }
        else { view with types := appendOnce view.types item.textOf }) view
  | _ => view

def addEnum (view : View) : Value → View
  | .list values =>
      { view with hasEnum := true, enum := (values.map sprint).foldl appendOnce view.enum }
  | _ => view

/-- What `collect` takes from an object before the parts of `allOf`. -/
def gather (object : Fields) (view : View) : View :=
  let view := view.addTypes (Value.lookup object "type")
  let view := { view with nullable := view.nullable || (Value.lookup object "nullable").isTrue }
  let view := view.addEnum (Value.lookup object "enum")
  let properties := ((Value.lookup object "properties").objectOf).getD []
  let numbers := numericLimits.foldl (fun numbers limit =>
    match (Value.lookup object limit).numberOf with
    | some number => numbers.put limit number
    | none => numbers) view.numbers
  let format := (Value.lookup object "format").textOf
  let pattern := (Value.lookup object "pattern").textOf
  { view with
    properties := view.properties ++ properties
    required := view.required ++ (Value.lookup object "required").listOf.map Value.textOf
    items := if view.items.isNil then Value.lookup object "items" else view.items
    numbers
    format := if format = "" then view.format else format
    pattern := if pattern = "" then view.pattern else pattern }

/-- What `collect` does after the parts of `allOf`. -/
def compose (object : Fields) (view : View) : View :=
  { view with
    composed := ["oneOf", "anyOf"].foldl (fun composed keyword =>
      let parts := (Value.lookup object keyword).listOf
      if parts.length > 0 then composed.put keyword parts.length else composed) view.composed
    types := if view.types = [] ∧ view.properties ≠ [] then ["object"] else view.types }

def merge (view : View) (reference : String) : View :=
  if reference = "" then view else { view with merged := reference :: view.merged }

end View

/-- `collect`, with so many levels left before it is too deep. -/
def collect (cancelled : Nat → Bool) (root : Value) : Nat → Value → View × Budget → View × Budget
  | levels, schema, (view, b) =>
      let reference := (schema.field "$ref").textOf
      if reference ≠ "" ∧ reference ∈ view.merged then (view, b)
      else
        match (resolve root schema).objectOf with
        | none => (view.merge reference, b)
        | some object =>
            match levels with
            | 0 => (view.merge reference, { b with cut := true })
            | levels + 1 =>
                match b.spend cancelled with
                | (false, b) => (view.merge reference, b)
                | (true, b) =>
                    let (view, b) := (Value.lookup object "allOf").listOf.foldl
                      (fun state part => collect cancelled root levels part state)
                      ((view.merge reference).gather object, b)
                    (view.compose object, b)

def view (cancelled : Nat → Bool) (root schema : Value) (b : Budget) : View × Budget :=
  let (view, b) := collect cancelled root (maxSchemaDepth + 1) schema ({}, b)
  ({ view with types := view.types.insertionSort (· ≤ ·) }, b)

/-! ## Reports -/

inductive Message where
  | typeWidened (types : List String)
  | typeNarrowed (types : List String)
  | typeChanged (old new : List String)
  | nullRejected
  | nullReturned
  | nullabilityChanged
  | enumLimited
  | enumLimitRemoved
  | enumRemoved (values : List String)
  | enumAdded (values : List String)
  | limitChanged (limit : String) (old new : String)
  | formatChanged (old new : String)
  | patternChanged
  | compositionChanged (keyword : String) (count was : Nat)
  | propertyRemoved
  | propertyNowRequired
  | propertyNotAlwaysPresent
  | requiredChanged
  | requiredPropertyAdded
  | propertyAdded
  | versionChanged (old new : String)
  | serversChanged
  | operationAdded
  | operationRemoved
  | pathRemoved
  | operationDeprecated
  | parameterRemoved
  | parameterNowRequired
  | parameterNoLongerRequired
  | requiredParameterAdded
  | optionalParameterAdded
  | requiredBodyAdded
  | optionalBodyAdded
  | bodyRemoved
  | bodyNowRequired
  | contentTypeNotAccepted
  | contentTypeAdded
  | contentTypeNotReturned
  | responseRemoved
  | responseAdded
  | authNotRequired
  | authRequired (alternatives : List String)
  | authAlternativeAdded (alternatives : List String)
  | authChanged (old new : List String)
  | schemeRemoved
  | schemeTypeChanged
  | schemeAdded

structure Reported where
  severity : Severity
  place : String
  message : Message

def difference (first second : List String) : List String :=
  first.filter (· ∉ second)

def Direction.pick (way : Direction) (request response : Severity) : Severity :=
  match way with
  | .asRequest => request
  | .asResponse => response

def compareTypeNames (before after : View) (way : Direction) (place : String) : List Reported :=
  if before.types ≠ [] ∧ after.types ≠ [] ∧ before.types ≠ after.types then
    let removed := difference before.types after.types
    let added := difference after.types before.types
    match way with
    | .asRequest =>
        if removed = [] then [⟨.nonBreaking, place, .typeWidened after.types⟩]
        else [⟨.breaking, place, .typeChanged before.types after.types⟩]
    | .asResponse =>
        if added = [] then [⟨.nonBreaking, place, .typeNarrowed after.types⟩]
        else [⟨.breaking, place, .typeChanged before.types after.types⟩]
  else []

def compareNullable (before after : View) (way : Direction) (place : String) : List Reported :=
  if before.nullable ∧ ¬ after.nullable ∧ way = .asRequest then [⟨.breaking, place, .nullRejected⟩]
  else if ¬ before.nullable ∧ after.nullable ∧ way = .asResponse then
    [⟨.breaking, place, .nullReturned⟩]
  else if before.nullable ≠ after.nullable then [⟨.nonBreaking, place, .nullabilityChanged⟩]
  else []

def compareTypes (before after : View) (way : Direction) (place : String) : List Reported :=
  compareTypeNames before after way place ++ compareNullable before after way place

def compareEnums (before after : View) (way : Direction) (place : String) : List Reported :=
  if ¬ before.hasEnum ∧ after.hasEnum then
    [⟨way.pick .breaking .nonBreaking, place, .enumLimited⟩]
  else if before.hasEnum ∧ ¬ after.hasEnum then
    [⟨way.pick .nonBreaking .breaking, place, .enumLimitRemoved⟩]
  else
    let removed := difference before.enum after.enum
    let added := difference after.enum before.enum
    (if removed ≠ [] then [⟨way.pick .breaking .nonBreaking, place, .enumRemoved removed⟩] else []) ++
      if added ≠ [] then [⟨way.pick .nonBreaking .informational, place, .enumAdded added⟩] else []

/-! ### Limits -/

def sameNumber : Number → Number → Bool
  | .finite first, .finite second => first = second
  | .infinite first, .infinite second => first = second
  | _, _ => false

def lessNumber : Number → Number → Bool
  | .finite first, .finite second => first < second
  | .finite _, .infinite negative => !negative
  | .infinite negative, .finite _ => negative
  | .infinite first, .infinite second => first && !second
  | .nan, _ | _, .nan => false

def isLower (limit : String) : Bool :=
  limit ∈ ["minimum", "minLength", "minItems", "minProperties"]

def limitText : Option Number → String
  | none => "-"
  | some value => floatText value

/-- Whether `first` lets less through than `second`. -/
def isTighter (limit : String) (first second : Option Number) : Bool :=
  match first, second with
  | none, _ => false
  | some _, none => true
  | some first, some second =>
      if isLower limit then lessNumber second first else lessNumber first second

def sameLimit : Option Number → Option Number → Bool
  | none, none => true
  | some first, some second => sameNumber first second
  | _, _ => false

def compareLimit (before after : View) (way : Direction) (place limit : String) : List Reported :=
  let old := before.numbers.read limit
  let new := after.numbers.read limit
  if sameLimit old new then []
  else
    let worse := way = .asRequest ∧ isTighter limit new old ∨ way = .asResponse ∧ isTighter limit old new
    [⟨if worse then .breaking else .nonBreaking, place,
      .limitChanged limit (limitText old) (limitText new)⟩]

def compareLimits (before after : View) (way : Direction) (place : String) : List Reported :=
  numericLimits.flatMap (compareLimit before after way place)

/-! ### Properties -/

def valueOrNone (value : String) : String :=
  if value = "" then "-" else value

def compareFormats (before after : View) (place : String) : List Reported :=
  if before.format ≠ after.format ∧ before.format ≠ "" then
    [⟨.breaking, place, .formatChanged before.format (valueOrNone after.format)⟩]
  else []

def comparePatterns (before after : View) (place : String) : List Reported :=
  if before.pattern ≠ after.pattern ∧ (before.pattern ≠ "" ∨ after.pattern ≠ "") then
    [⟨.informational, place, .patternChanged⟩]
  else []

def View.composedOf (view : View) (keyword : String) : Nat :=
  (view.composed.read keyword).getD 0

def compareComposed (before after : View) (place : String) : List Reported :=
  ["oneOf", "anyOf"].flatMap fun keyword =>
    if before.composedOf keyword ≠ after.composedOf keyword then
      [⟨.informational, place,
        .compositionChanged keyword (after.composedOf keyword) (before.composedOf keyword)⟩]
    else []

abbrev Comparing := Value → Value → String → Budget → List Reported × Budget

/-- What became of the need for a property that is still there. -/
def compareRequired (before after : View) (way : Direction) (place name : String) : List Reported :=
  let was : Bool := name ∈ before.required
  let is : Bool := name ∈ after.required
  if !was && is && way = .asRequest then [⟨.breaking, place, .propertyNowRequired⟩]
  else if was && !is && way = .asResponse then [⟨.breaking, place, .propertyNotAlwaysPresent⟩]
  else if was != is then [⟨.nonBreaking, place, .requiredChanged⟩]
  else []

def compareProperty (compare : Comparing) (before after : View) (way : Direction) (place name : String)
    (b : Budget) : List Reported × Budget :=
  let place := place ++ "." ++ name
  match after.properties.read name with
  | none => ([⟨way.pick .nonBreaking .breaking, place, .propertyRemoved⟩], b)
  | some next =>
      let (reports, b) := compare (Value.lookup before.properties name) next place b
      (reports ++ compareRequired before after way place name, b)

def addedProperties (before after : View) (way : Direction) (place : String) : List Reported :=
  ((sortedKeys after.properties).filter fun name => !before.properties.has name).map fun name =>
    if way = .asRequest ∧ name ∈ after.required then
      ⟨.breaking, place ++ "." ++ name, .requiredPropertyAdded⟩
    else ⟨.nonBreaking, place ++ "." ++ name, .propertyAdded⟩

def compareProperties (compare : Comparing) (before after : View) (way : Direction) (place : String)
    (b : Budget) : List Reported × Budget :=
  let (reports, b) := (sortedKeys before.properties).foldl (fun (reports, b) name =>
    let (found, b) := compareProperty compare before after way place name b
    (reports ++ found, b)) ([], b)
  (reports ++ addedProperties before after way place, b)

def compareItems (compare : Comparing) (before after : View) (place : String) (b : Budget) :
    List Reported × Budget :=
  if before.items.isNil || after.items.isNil then ([], b)
  else compare before.items after.items (place ++ "[]") b

/-- The keywords that are compared in the views themselves. -/
def compareViews (before after : View) (way : Direction) (place : String) : List Reported :=
  compareTypes before after way place ++ compareEnums before after way place ++
    compareLimits before after way place ++ compareFormats before after place ++
    comparePatterns before after place ++ compareComposed before after place

/-- `compareSchemas`, with so many levels left before it is too deep. -/
def compareSchemas (r : Resolver) (way : Direction) : Nat → Comparing
  | 0, _, _, _, b => ([], { b with cut := true })
  | levels + 1, oldSchema, newSchema, place, b =>
      match b.spend r.cancelled with
      | (false, b) => ([], b)
      | (true, b) =>
          match b.firstVisit oldSchema newSchema way (maxSchemaDepth - levels) with
          | (false, b) => ([], b)
          | (true, b) =>
              let (before, b) := view r.cancelled r.old oldSchema b
              let (after, b) := view r.cancelled r.new newSchema b
              let (properties, b) :=
                compareProperties (compareSchemas r way levels) before after way place b
              let (items, b) := compareItems (compareSchemas r way levels) before after place b
              (compareViews before after way place ++ properties ++ items, b)

def schemas (r : Resolver) (oldSchema newSchema : Value) (way : Direction) (place : String) (b : Budget) :
    List Reported × Budget :=
  compareSchemas r way (maxSchemaDepth + 1) oldSchema newSchema place b

end Gostman.Openapi
