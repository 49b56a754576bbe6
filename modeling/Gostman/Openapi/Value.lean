import Gostman.Lib.Doubles
import Gostman.Lib.Record
import Mathlib.Data.List.Sort
import Mathlib.Data.List.Dedup
import Mathlib.Data.String.Basic
/-!
# Documents of an API

A specification as Go holds it after decoding: an `any` made of nil, booleans,
numbers, texts, lists and maps.  A map is a record of which the first entry of
a key counts.
-/

namespace Gostman.Openapi

open Gostman.Lib

inductive Value where
  | null
  | bool (value : Bool)
  /-- `int`, `int64` and `uint64`. -/
  | int (value : Int)
  | float (value : Number)
  | text (value : String)
  | list (items : List Value)
  | object (fields : List (String × Value))

abbrev Fields := Record String Value

/-! ## Texts -/

/-- The exponent of `%e`, of two digits at least. -/
def exponentText (exponent : Int) : List Char :=
  let digits := Nat.toDigits 10 exponent.natAbs
  'e' :: (if exponent < 0 then '-' else '+') :: (if digits.length < 2 then '0' :: digits else digits)

/-- `strconv.FormatFloat` with `g` and the fewest digits. -/
def floatText : Number → String
  | .nan => "NaN"
  | .infinite negative => if negative then "-Inf" else "+Inf"
  | .finite multiple =>
      if multiple = 0 then "0"
      else
        let (digits, point) := shortest multiple.natAbs
        let written :=
          if point - 1 < -4 ∨ 6 ≤ point - 1 then
            digits.take 1 ++ (if digits.length = 1 then [] else '.' :: digits.drop 1) ++
              exponentText (point - 1)
          else if point ≤ 0 then '0' :: '.' :: List.replicate (-point).toNat '0' ++ digits
          else if digits.length ≤ point then digits ++ List.replicate (point.toNat - digits.length) '0'
          else digits.take point.toNat ++ '.' :: digits.drop point.toNat
        String.ofList ((if multiple < 0 then ['-'] else []) ++ written)

def sortedKeys {α : Type} (values : Record String α) : List String :=
  values.keys.dedup.insertionSort (· ≤ ·)

mutual

def sprint : Value → String
  | .null => "<nil>"
  | .bool value => if value then "true" else "false"
  | .int value => toString value
  | .float value => floatText value
  | .text value => value
  | .list items => "[" ++ " ".intercalate (sprintItems items) ++ "]"
  | .object fields =>
      let printed : Record String String := sprintFields fields
      "map[" ++ " ".intercalate ((sortedKeys printed).map fun key =>
        key ++ ":" ++ (printed.read key).getD "") ++ "]"

def sprintItems : List Value → List String
  | [] => []
  | item :: rest => sprint item :: sprintItems rest

def sprintFields : List (String × Value) → List (String × String)
  | [] => []
  | (key, value) :: rest => (key, sprint value) :: sprintFields rest

end

namespace Value

def objectOf : Value → Option Fields
  | object fields => some fields
  | _ => none

def listOf : Value → List Value
  | list items => items
  | _ => []

def textOf : Value → String
  | null => ""
  | value => sprint value

def lookup (fields : Fields) (key : String) : Value :=
  (fields.read key).getD null

def field (value : Value) (key : String) : Value :=
  lookup (value.objectOf.getD []) key

def isTrue : Value → Bool
  | bool value => value
  | _ => false

def isNil : Value → Bool
  | null => true
  | _ => false

def ofInt (n : Int) : Number :=
  match nearest (n.natAbs, 1) with
  | some magnitude => .finite (signed (n < 0) magnitude)
  | none => .infinite (n < 0)

def numberOf : Value → Option Number
  | float value => some value
  | int value => some (ofInt value)
  | _ => none

end Value

/-! ## References -/

def maxSchemaDepth : Nat := 32

/-- `strings.ReplaceAll` of a tilde and a digit. -/
def replaceTilde (digit meant : Char) : List Char → List Char
  | '~' :: c :: rest => if c = digit then meant :: replaceTilde digit meant rest else '~' :: replaceTilde digit meant (c :: rest)
  | c :: rest => c :: replaceTilde digit meant rest
  | [] => []

def untilded (token : List Char) : String :=
  String.ofList (replaceTilde '0' '~' (replaceTilde '1' '/' token))

def tokens (pointer : List Char) : List String :=
  (((if pointer.head? = some '/' then pointer.tail else pointer).splitOn '/').filter (· ≠ [])).map untilded

def walk (root : Value) (pointer : List Char) : Value :=
  (tokens pointer).foldl (fun current token =>
    match current with
    | .object fields => Value.lookup fields token
    | _ => .null) root

def resolveHops (root : Value) : Nat → Value → Value
  | 0, value => value
  | hops + 1, value =>
      match (Value.textOf (value.field "$ref")).toList with
      | '#' :: pointer =>
          let found := walk root pointer
          if found.isNil then value else resolveHops root hops found
      | _ => value

def resolve (root value : Value) : Value :=
  resolveHops root maxSchemaDepth value

end Gostman.Openapi
