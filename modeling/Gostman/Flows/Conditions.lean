import Gostman.Js.Value
/-!
# Checks and conditions

`scripting/assertions.js` and `flows/conditions.js`: a condition list holds
checks and groups of conditions, each group with its own match.
-/

namespace Gostman.Flows

open Gostman.Lib Gostman.Js

structure Assertion where
  expression : String
  operator : String
  value : String
  enabled : Bool
  deriving DecidableEq

/-- `MATCHES`: whether all conditions of a list must pass or any of them. -/
inductive Match where
  | all
  | any
  deriving DecidableEq

inductive Condition where
  | check (assertion : Assertion)
  | group (mode : Match) (conditions : List Condition)

def maxGroupDepth : Nat := 4

def defaultOperator : String := "eq"

def toAssertion (numerals : Numerals) (raw : Json) : Assertion :=
  let operator := asText numerals (raw.field "operator")
  { expression := asText numerals (raw.field "expression")
    operator := if operator = "" then defaultOperator else operator
    value := asText numerals (raw.field "value")
    enabled := match raw.field "enabled" with
      | some (.bool false) => false
      | _ => true }

def normalizeAssertions (numerals : Numerals) (raw : Option Json) : List Assertion :=
  (Json.listOf raw).map (toAssertion numerals)

def isActiveAssertion (assertion : Assertion) : Bool :=
  assertion.enabled && trim assertion.expression ≠ ""

/-- `matchOf`, the same as `oneOf(value, MATCHES, MATCH_ALL)`. -/
def matchOf : Option Json → Match
  | some (.str "any") => .any
  | _ => .all

mutual

/-- The normalized `conditions` of an item, when that is a list: the item is
then a group. -/
def groupConditions (numerals : Numerals) : List (String × Json) → Option (List Condition)
  | [] => none
  | (key, value) :: rest =>
      if key = "conditions" then conditionList numerals value else groupConditions numerals rest

def conditionList (numerals : Numerals) : Json → Option (List Condition)
  | .arr items => some (normalizeItems numerals items)
  | _ => none

def normalizeItems (numerals : Numerals) : List Json → List Condition
  | [] => []
  | item :: rest => normalizeItem numerals item ++ normalizeItems numerals rest

/-- One item of a condition list: what is no object and a group without
conditions are dropped. -/
def normalizeItem (numerals : Numerals) : Json → List Condition
  | .obj fields =>
      match groupConditions numerals fields with
      | some [] => []
      | some (first :: others) =>
          [.group (matchOf (Record.read fields "match")) (first :: others)]
      | none => [.check (toAssertion numerals (.obj fields))]
  | _ => []

end

def normalizeConditions (numerals : Numerals) : Option Json → List Condition
  | some (.arr items) => normalizeItems numerals items
  | _ => []

mutual

def Condition.leaves : Condition → List Assertion
  | .check assertion => [assertion]
  | .group _ conditions => conditionLeaves conditions

def conditionLeaves : List Condition → List Assertion
  | [] => []
  | condition :: rest => condition.leaves ++ conditionLeaves rest

end

def activeLeaves (conditions : List Condition) : List Assertion :=
  (conditionLeaves conditions).filter isActiveAssertion

def hasActiveCondition (conditions : List Condition) : Bool :=
  (activeLeaves conditions).length > 0

mutual

def Condition.depth : Condition → Nat
  | .check _ => 0
  | .group _ conditions => 1 + groupDepth conditions

def groupDepth : List Condition → Nat
  | [] => 0
  | condition :: rest => max condition.depth (groupDepth rest)

end

theorem groupConditions_eq (numerals : Numerals) (fields : List (String × Json)) :
    groupConditions numerals fields =
      (Record.read fields "conditions").bind (conditionList numerals) := by
  induction fields with
  | nil => simp [groupConditions]
  | cons entry rest ih =>
      obtain ⟨key, value⟩ := entry
      by_cases h : key = "conditions"
      · simp [groupConditions, Record.read, h]
      · simp [groupConditions, Record.read, h, ih]

end Gostman.Flows
