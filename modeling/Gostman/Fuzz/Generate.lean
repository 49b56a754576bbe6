import Gostman.Fuzz.Schema
import Gostman.Lib.Fuel
/-!
# Values and mutations (`fuzz/schema.go`)

`valid` makes a value from a schema, `mutations` makes wrong and unusual ones.
Both go down into items and properties, to `maxDepth` and no further.
-/

namespace Gostman.Fuzz

open Gostman.Lib Gostman.Openapi

/-- `math/rand`, with the state of the source: `Intn` and `Float64`. -/
structure Random (σ : Type) where
  intn : Nat → σ → Nat × σ
  intn_lt : ∀ n state, 0 < n → (intn n state).1 < n
  /-- As a multiple of the smallest double. -/
  float64 : σ → Int × σ
  float64_nonneg : ∀ state, 0 ≤ (float64 state).1
  float64_lt : ∀ state, (float64 state).1 < one
  float64_isDouble : ∀ state, IsDouble (float64 state).1

def Random.zero : Random Unit where
  intn _ state := (0, state)
  intn_lt _ _ h := h
  float64 state := (0, state)
  float64_nonneg _ := Int.le_refl 0
  float64_lt _ := Int.natCast_pos.2 (by decide +kernel)
  float64_isDouble _ := .inl (Nat.two_pow_pos 52)

/-- What ends a run of the generator early: the slice `base[:most]` with a bound below
zero. -/
inductive Panic where
  | sliceBounds
  deriving DecidableEq

/-! ## Kinds -/

def kindOfValue : Value → String
  | .bool _ => "boolean"
  | .float _ => "number"
  | .int value => if value < 2 ^ 63 then "number" else "string"
  | _ => "string"

/-- The end of `kindOf`, where no type says it. -/
def kindOfFields (schema : Fields) : String :=
  if !(Value.lookup schema "properties").isNil then "object"
  else if !(Value.lookup schema "items").isNil then "array"
  else
    match list (Value.lookup schema "enum") with
    | first :: _ => kindOfValue first
    | [] => "string"

def kindOf (schema : Fields) : String :=
  match Value.lookup schema "type" with
  | .text declared => declared
  | .list candidates => ((candidates.map text).find? (· ≠ "null")).getD (kindOfFields schema)
  | _ => kindOfFields schema

/-! ## Numbers and texts -/

def step (integer : Bool) : Number :=
  if integer then .finite one else .finite (one / 2 : Nat)

def bounds (schema : Fields) : Number × Number :=
  let low := (number (Value.lookup schema "exclusiveMinimum")).or (number (Value.lookup schema "minimum"))
  let high := (number (Value.lookup schema "exclusiveMaximum")).or (number (Value.lookup schema "maximum"))
  match low, high with
  | none, none => (.ofNat 0, .ofNat 100)
  | none, some high => ((Number.ofNat 0).min high, high)
  | some low, none => (low, (Number.ofNat 100).max low)
  | some low, some high => (low, high)

def exclusive (schema : Fields) (keyword limit : String) : Bool :=
  match Value.lookup schema keyword with
  | .bool flag => flag && !(Value.lookup schema limit).isNil
  | value => (number value).isSome

def numberOf {σ : Type} (random : Random σ) (schema : Fields) (state : σ) : Value × σ :=
  let integer := kindOf schema = "integer"
  let (low, high) := bounds schema
  let low := if exclusive schema "exclusiveMinimum" "minimum" then low.add (step integer) else low
  let high := if exclusive schema "exclusiveMaximum" "maximum" then high.sub (step integer) else high
  let high := if high.less low then low else high
  let (drawn, state) := random.float64 state
  let value := low.add ((Number.finite drawn).mul ((high.min (low.add (.ofNat 1000))).sub low))
  (.float (if integer then value.round else value), state)

def padded (base : List Char) (least most : Int) : Except Panic String :=
  let long := base ++ List.replicate (least.toNat - base.length) 'x'
  if most < long.length then
    if most < 0 then throw .sliceBounds else return String.ofList (long.take most.toNat)
  else return String.ofList long

def textOf (schema : Fields) : Except Panic String :=
  match Record.read sampleFormats (text (Value.lookup schema "format")) with
  | some sample => return sample
  | none =>
      let least := (clamp (Value.lookup schema "minLength") (.ofNat 0) (.ofNat maxTextLength)).whole
      let most := (clamp (Value.lookup schema "maxLength") (.ofNat (max least 8)) (.ofNat maxTextLength)).whole
      padded "sample".toList least most

def itemCount (schema : Fields) : Nat :=
  let count := (clamp (Value.lookup schema "minItems") (.ofNat 1) (.ofNat maxItems)).whole
  match number (Value.lookup schema "maxItems") with
  | some limit => ((Number.ofNat count).min (limit.max (.ofNat 0))).whole
  | none => count

/-! ## `valid` -/

section Valid

variable {σ : Type} (targets : Targets) (random : Random σ) (fuel : Nat)

/-- `flatten`, inside a computation that draws. -/
def flattened (schema : Fields) : Deep σ Panic Fields :=
  fun state => .mk ((flatten targets fuel schema).map fun flat => .ok (flat, state))

def drawn {α : Type} (draw : σ → α × σ) : Deep σ Panic α :=
  fun state => .mk (some (.ok (draw state)))

def checked {α : Type} (result : Except Panic α) : Deep σ Panic α :=
  fun state => .mk (some (result.map (·, state)))

/-- The names that are required and not there yet, with a text. -/
def requireNames (out : Fields) (names : List Value) : Fields :=
  names.foldl (fun out name =>
    if !Record.has out (text name) && text name ≠ "" then Record.put out (text name) (.text "sample") else out) out

def array (make : Fields → Deep σ Panic Value) (schema : Fields) : Deep σ Panic Value := do
  let items ← (List.replicate (itemCount schema) (object (Value.lookup schema "items"))).mapM make
  return .list items

def property (make : Fields → Deep σ Panic Value) (properties : Fields) (out : Fields) (name : String) :
    Deep σ Panic Fields := do
  let property ← flattened targets fuel (object (Value.lookup properties name))
  if (Value.lookup property "readOnly").isTrue then return out
  let value ← make property
  return out.put name value

/-- `object`, where the properties are made by the function. -/
def objectOf (make : Fields → Deep σ Panic Value) (schema : Fields) : Deep σ Panic Value := do
  let properties := object (Value.lookup schema "properties")
  let out ← (sortedKeys properties).foldlM (property targets fuel make properties) []
  return .object (requireNames out (list (Value.lookup schema "required")))

/-- `valid`, with so many levels left; below them all is nil. -/
def validTo : Nat → Fields → Deep σ Panic Value
  | 0, schema => do
      let _ ← flattened targets fuel schema
      return .null
  | left + 1, schema => do
      let schema ← flattened targets fuel schema
      match list (Value.lookup schema "enum") with
      | first :: rest => do
          let index ← drawn (random.intn (rest.length + 1))
          return (first :: rest).getD index .null
      | [] =>
        match Record.read schema "const" with
        | some constant => return constant
        | none =>
            let kind := kindOf schema
            if kind = "integer" ∨ kind = "number" then drawn (numberOf random schema)
            else if kind = "boolean" then do
              let index ← drawn (random.intn 2)
              return .bool (index = 0)
            else if kind = "array" then array (validTo left) schema
            else if kind = "object" then objectOf targets fuel (validTo left) schema
            else return .text (← checked (textOf schema))

def valid (schema : Fields) (depth : Nat) : Deep σ Panic Value :=
  validTo targets random fuel (maxDepth + 1 - depth) schema

/-! ## `mutations` -/

def wrongValue (kind : String) : Option Value :=
  Record.read [("string", .int 12345), ("integer", .text "not a number"), ("number", .text "not a number"),
    ("boolean", .text "maybe"), ("array", .text "not an array"), ("object", .list [])] kind

def typeMutations (schema : Fields) : List Mutation :=
  (if (Value.lookup schema "nullable").isTrue then [] else [⟨"null", .invalid, .null⟩]) ++
    match wrongValue (kindOf schema) with
    | some value => [⟨"wrong type", .invalid, value⟩]
    | none => []

/-- The texts of a length and of the one that breaks it. -/
def lengthMutations (within beyond : String) (length other : Int) : Except Panic (List Mutation) := do
  let fitting ← padded [] length length
  let breaking ← padded [] other other
  return [⟨within, .boundary, .text fitting⟩, ⟨beyond, .invalid, .text breaking⟩]

/-- What `textMutations` finds for `minLength`. -/
def shortestMutations (schema : Fields) : Except Panic (List Mutation) :=
  match number (Value.lookup schema "minLength") with
  | some least =>
      if (Number.ofNat 0).less least && !(Number.ofNat maxTextLength).less least then
        lengthMutations "minLength" "below minLength" least.whole (least.whole - 1)
      else return []
  | none => return []

/-- What `textMutations` finds for `maxLength`. -/
def longestMutations (schema : Fields) : Except Panic (List Mutation) :=
  match number (Value.lookup schema "maxLength") with
  | some most =>
      if !most.less (.ofNat 0) && most.less (.ofNat maxTextLength) then
        lengthMutations "maxLength" "above maxLength" most.whole (most.whole + 1)
      else return []
  | none => return []

def textMutations (schema : Fields) : Except Panic (List Mutation) := do
  let shortest ← shortestMutations schema
  let longest ← longestMutations schema
  let format := text (Value.lookup schema "format")
  return [⟨"empty string", .boundary, .text ""⟩,
      ⟨"very long string", .boundary, .text (String.ofList (List.replicate longText 'a'))⟩,
      ⟨"unicode string", .boundary, .text (String.ofList ['\u202e', '\u2603', Char.ofNat 0x1F600, Char.ofNat 0])⟩] ++
    shortest ++ longest ++
    if (Record.read sampleFormats format).getD "" ≠ "" then
      [⟨"malformed " ++ format, .invalid, .text ("not-a-" ++ format)⟩]
    else []

def numberMutations (schema : Fields) : List Mutation :=
  let integer := kindOf schema = "integer"
  [⟨"zero", .boundary, .int 0⟩, ⟨"negative one", .boundary, .int (-1)⟩,
    ⟨"int32 maximum", .boundary, .int (2 ^ 31 - 1)⟩, ⟨"int64 maximum", .boundary, .int (2 ^ 63 - 1)⟩] ++
  (match number (Value.lookup schema "minimum") with
    | some low => [⟨"minimum", .boundary, .float low⟩, ⟨"below minimum", .invalid, .float (low.sub (step integer))⟩]
    | none => []) ++
  (match number (Value.lookup schema "maximum") with
    | some high => [⟨"maximum", .boundary, .float high⟩, ⟨"above maximum", .invalid, .float (high.add (step integer))⟩]
    | none => []) ++
  (if integer then [⟨"fraction for an integer", .invalid, .float (.finite (one + one / 2 : Nat))⟩] else [])

def ofItem (inner : Mutation) : Mutation :=
  ⟨"item: " ++ inner.label, inner.kind, .list [inner.value]⟩

def aboveMaxItems (make : Fields → Deep σ Panic Value) (schema : Fields) : Deep σ Panic (List Mutation) :=
  match number (Value.lookup schema "maxItems") with
  | some most =>
      if !most.less (.ofNat 0) && most.less (.ofNat maxItems) then do
        let item ← make (object (Value.lookup schema "items"))
        return [⟨"above maxItems", .invalid, .list (List.replicate (most.whole + 1) item)⟩]
      else return []
  | none => return []

def belowMinItems (schema : Fields) : List Mutation :=
  match number (Value.lookup schema "minItems") with
  | some least =>
      if !least.less (.ofNat 1) && !(Number.ofNat maxItems).less least then
        [⟨"below minItems", .invalid, .list (List.replicate (least.whole - 1) .null)⟩]
      else []
  | none => []

/-- `arrayMutations`, where `make` and `mutate` go one level down. -/
def arrayMutations (make : Fields → Deep σ Panic Value) (mutate : Fields → Deep σ Panic (List Mutation))
    (schema : Fields) : Deep σ Panic (List Mutation) := do
  let above ← aboveMaxItems make schema
  let inner ← mutate (object (Value.lookup schema "items"))
  return ⟨"empty array", .boundary, .list []⟩ :: (belowMinItems schema ++ above ++ inner.map ofItem)

def ofProperty (base : Fields) (name : String) (inner : Mutation) : Mutation :=
  ⟨name ++ ": " ++ inner.label, inner.kind, .object (withEntry base name inner.value)⟩

def missingRequired (base schema : Fields) : List Mutation :=
  (list (Value.lookup schema "required")).map fun name =>
    ⟨"missing " ++ text name, .invalid, .object (without base (text name))⟩

def unexpectedProperty (base schema : Fields) : List Mutation :=
  match Value.lookup schema "additionalProperties" with
  | .bool false => [⟨"unexpected property", .invalid, .object (withEntry base "__unexpected" (.int 1))⟩]
  | _ => []

/-- `objectMutations`, where `make` stays on the level and `mutate` goes down. -/
def objectMutations (make : Fields → Deep σ Panic Value) (mutate : Fields → Deep σ Panic (List Mutation))
    (schema : Fields) : Deep σ Panic (List Mutation) := do
  let base ← make schema
  let properties := object (Value.lookup schema "properties")
  let inner ← (sortedKeys properties).mapM fun name => do
    let found ← mutate (object (Value.lookup properties name))
    return found.map (ofProperty (object base) name)
  return inner.flatten ++ missingRequired (object base) schema ++ unexpectedProperty (object base) schema

def kindMutations (makeInner make : Fields → Deep σ Panic Value)
    (mutate : Fields → Deep σ Panic (List Mutation)) (schema : Fields) : Deep σ Panic (List Mutation) :=
  let kind := kindOf schema
  if kind = "integer" ∨ kind = "number" then return numberMutations schema
  else if kind = "array" then arrayMutations makeInner mutate schema
  else if kind = "object" then objectMutations make mutate schema
  else if kind = "string" then checked (textMutations schema)
  else return []

def outsideEnum (schema : Fields) : List Mutation :=
  if list (Value.lookup schema "enum") ≠ [] then [⟨"value outside the enum", .invalid, .text "__not_in_enum__"⟩] else []

/-- `mutations`, with so many levels left. -/
def mutationsTo : Nat → Fields → Deep σ Panic (List Mutation)
  | 0, schema => do
      let _ ← flattened targets fuel schema
      return []
  | left + 1, schema => do
      let schema ← flattened targets fuel schema
      let found ← kindMutations (validTo targets random fuel left) (validTo targets random fuel (left + 1))
        (mutationsTo left) schema
      return outsideEnum schema ++ found ++ typeMutations schema

def mutations (schema : Fields) (depth : Nat) : Deep σ Panic (List Mutation) :=
  mutationsTo targets random fuel (maxDepth + 1 - depth) schema

end Valid

end Gostman.Fuzz
