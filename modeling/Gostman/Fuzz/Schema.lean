import Gostman.Lib.Doubles
import Gostman.Openapi.Value
/-!
# Inputs made from schemas (`fuzz/schema.go`)

For the schema of a parameter or a body the fuzzer makes a value that should be
valid under it, and mutations of it.  References and `allOf` are followed first;
as they may lead in a circle, every function here takes the depth to which
`flatten` may call itself, and gives `none` where that is not enough.
-/

namespace Gostman.Fuzz

open Gostman.Lib Gostman.Openapi

def maxDepth : Nat := 5
def maxRefHops : Nat := 8
def maxTextLength : Nat := 10000
def maxItems : Nat := 8
def longText : Nat := 10000

def sampleFormats : Record String String :=
  [("date-time", "2024-01-02T03:04:05Z"), ("date", "2024-01-02"), ("time", "03:04:05Z"),
    ("email", "user@example.com"), ("uuid", "123e4567-e89b-42d3-a456-426614174000"),
    ("uri", "https://example.com/path"), ("url", "https://example.com/path"), ("hostname", "example.com"),
    ("ipv4", "192.0.2.1"), ("ipv6", "2001:db8::1"), ("byte", "aGVsbG8=")]

inductive Kind where
  | invalid | boundary
  deriving DecidableEq

structure Mutation where
  label : String
  kind : Kind
  value : Value

/-! ## Reading schemas -/

def object (value : Value) : Fields :=
  value.objectOf.getD []

def list (value : Value) : List Value :=
  value.listOf

def text : Value → String
  | .text value => value
  | _ => ""

/-- `number`: what is not finite is none, and so is a `uint64`. -/
def number : Value → Option Number
  | .float (.finite multiple) => some (.finite multiple)
  | .int value => if value < 2 ^ 63 then some (Value.ofInt value) else none
  | _ => none

def clamp (value : Value) (low high : Number) : Number :=
  match number value with
  | none => low
  | some typed => low.max (typed.min high)

def entriesOf (fields : Fields) : List (String × Value) :=
  fields.keys.dedup.map fun key => (key, Value.lookup fields key)

def withEntry (base : Fields) (name : String) (value : Value) : Fields :=
  base.put name value

def without (base : Fields) (name : String) : Fields :=
  base.remove name

/-! ## Targets -/

/-- What references lead to: the root that the document was bundled into, and
`url.PathUnescape`. -/
structure Targets where
  root : Value
  pathUnescape : String → Option String

def Targets.unescapeToken (targets : Targets) (token : List Char) : String :=
  untilded ((targets.pathUnescape (String.ofList token)).getD (String.ofList token)).toList

/-- `strconv.Atoi`, of an index that is not negative. -/
def indexOf (token : List Char) : Option Nat :=
  let (negative, digits) := match token with
    | '-' :: rest => (true, rest)
    | '+' :: rest => (false, rest)
    | rest => (false, rest)
  if digits = [] || !digits.all Char.isDigit then none
  else
    let index := digits.foldl (fun value c => 10 * value + (c.toNat - '0'.toNat)) 0
    if negative && index ≠ 0 then none else some index

def followToken (targets : Targets) (current : Value) (raw : List Char) : Option Value :=
  let token := targets.unescapeToken raw
  match current with
  | .object fields => Record.read fields token
  | .list items => (indexOf token.toList).bind (items[·]?)
  | _ => none

def walkPointer (targets : Targets) (pointer : List Char) : Option Value :=
  match pointer with
  | [] | ['/'] => some targets.root
  | '/' :: path => (path.splitOn '/').foldlM (followToken targets) targets.root
  | _ => none

def Targets.resolve (targets : Targets) (ref : String) : Option Fields :=
  match ref.toList with
  | '#' :: pointer => (walkPointer targets pointer).bind Value.objectOf
  | _ => none

/-! ## `flatten` and `merged` -/

/-- What one turn of the loop of `flatten` does with a schema. -/
inductive Hop where
  | unresolved
  | merge
  | next (schema : Fields)
  | done

def hopOf (targets : Targets) (schema : Fields) : Hop :=
  if !(Value.lookup schema "$ref").isNil then
    match targets.resolve (text (Value.lookup schema "$ref")) with
    | none => .unresolved
    | some target => .next target
  else if list (Value.lookup schema "allOf") ≠ [] then .merge
  else
    match list (Value.lookup schema "oneOf"), list (Value.lookup schema "anyOf") with
    | first :: _, _ => .next (object first)
    | [], first :: _ => .next (object first)
    | [], [] => .done

/-- The loop of `flatten`, with the hops that are left. -/
def flattenHops (targets : Targets) (merge : Fields → Option Fields) : Nat → Fields → Option Fields
  | 0, _ => some []
  | hops + 1, schema =>
      match hopOf targets schema with
      | .unresolved => some []
      | .merge => (merge schema).bind (flattenHops targets merge hops)
      | .next target => flattenHops targets merge hops target
      | .done => some schema

/-- The parts that `merged` puts together. -/
def partsOf (schema : Fields) : List Fields :=
  without schema "allOf" :: (list (Value.lookup schema "allOf")).map object

structure Merging where
  out : Fields := []
  properties : Fields := []
  required : List Value := []

def Merging.entry (merging : Merging) (key : String) (value : Value) : Merging :=
  if key = "properties" then
    { merging with properties := merging.properties.overlay (entriesOf (object value)) }
  else if key = "required" then { merging with required := merging.required ++ list value }
  else { merging with out := merging.out.put key value }

def Merging.part (merging : Merging) (flat : Fields) : Merging :=
  (entriesOf flat).foldl (fun merging (key, value) => merging.entry key value) merging

def Merging.fields (merging : Merging) : Fields :=
  let out := if merging.properties.length > 0 then merging.out.put "properties" (.object merging.properties) else merging.out
  if merging.required.length > 0 then out.put "required" (.list merging.required) else out

/-- `merged`, where the parts are flattened by the function. -/
def mergedWith (flatten : Fields → Option Fields) (schema : Fields) : Option Fields :=
  ((partsOf schema).mapM flatten).map fun flats => (flats.foldl Merging.part {}).fields

def flatten (targets : Targets) : Nat → Fields → Option Fields
  | 0, _ => none
  | fuel + 1, schema => flattenHops targets (mergedWith (flatten targets fuel)) maxRefHops schema

def merged (targets : Targets) (fuel : Nat) (schema : Fields) : Option Fields :=
  mergedWith (flatten targets fuel) schema

end Gostman.Fuzz
