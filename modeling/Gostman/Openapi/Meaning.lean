import Gostman.Js.Value
import Gostman.Openapi.Same
/-!
# What a schema means

The keywords of JSON Schema that say which values are valid, with `nullable`
of OpenAPI, and how the view of a schema of these keywords holds them.
-/

namespace Gostman.Openapi

open Gostman.Lib Gostman.Js

/-! ## Values -/

def hasType (name : String) : Json → Bool
  | .null => name = "null"
  | .bool _ => name = "boolean"
  | .num value => name = "number" || name = "integer" && value.den = 1
  | .str _ => name = "string"
  | .arr _ => name = "array"
  | .obj _ => name = "object"

/-- What a limit is about: a number, a length or a count. -/
def measured (limit : String) : Json → Option ℚ
  | .num value => if limit ∈ ["minimum", "maximum"] then some value else none
  | .str value => if limit ∈ ["minLength", "maxLength"] then some value.length else none
  | .arr items => if limit ∈ ["minItems", "maxItems"] then some items.length else none
  | .obj members =>
      if limit ∈ ["minProperties", "maxProperties"] then some (Record.keys members).dedup.length else none
  | _ => none

/-! ## Keywords -/

def typeNames : Value → List String
  | .text name => [name]
  | .list items => items.map Value.textOf
  | _ => []

def AllowsType (fields : Fields) (value : Json) : Prop :=
  (Value.lookup fields "type").isNil = true ∨
    (∃ name ∈ typeNames (Value.lookup fields "type"), hasType name value = true) ∨
    (Value.lookup fields "nullable").isTrue = true ∧ value = .null

def AllowsEnum (fields : Fields) (value : Json) : Prop :=
  ∀ values, Value.lookup fields "enum" = .list values → ∃ text, .text text ∈ values ∧ value = .str text

def limitValue : Value → Option ℚ
  | .int value => some value
  | .float (.finite multiple) => some ((multiple : ℚ) / one)
  | _ => none

def AllowsLimit (limit : String) (bound : Value) (value : Json) : Prop :=
  ∀ size ∈ measured limit value, ∀ number ∈ limitValue bound,
    if isLower limit then number ≤ size else size ≤ number

def requiredOf (fields : Fields) : List String :=
  (Value.lookup fields "required").listOf.map Value.textOf

inductive Valid : Value → Json → Prop
  | intro {fields : Fields} {value : Json}
      (type : AllowsType fields value) (enum : AllowsEnum fields value)
      (limits : ∀ limit ∈ numericLimits, AllowsLimit limit (Value.lookup fields limit) value)
      (required : ∀ members, value = .obj members → ∀ name ∈ requiredOf fields,
        Record.has members name = true)
      (properties : ∀ members name schema member, value = .obj members →
        (propertiesOf fields).read name = some schema → Record.read members name = some member →
        Valid schema member)
      (items : ∀ list, value = .arr list → (Value.lookup fields "items").isNil = false →
        ∀ item ∈ list, Valid (Value.lookup fields "items") item) :
      Valid (.object fields) value

/-! ## Schemas of these keywords -/

def keywords : List String :=
  ["type", "nullable", "enum", "properties", "required", "items"] ++ numericLimits

def IsLimit (bound : Value) : Prop :=
  bound = .null ∨ ∃ multiple, bound.numberOf = some (.finite multiple) ∧
    limitValue bound = some ((multiple : ℚ) / one)

def IsTexts (value : Value) : Prop :=
  ∃ texts : List String, value = .list (texts.map .text)

inductive Plain : Value → Prop
  | intro {fields : Fields} (known : ∀ key ∈ fields.keys, key ∈ keywords)
      (type : Value.lookup fields "type" = .null ∨ (∃ name, Value.lookup fields "type" = .text name) ∨
        IsTexts (Value.lookup fields "type"))
      (enum : Value.lookup fields "enum" = .null ∨ IsTexts (Value.lookup fields "enum"))
      (limits : ∀ limit ∈ numericLimits, IsLimit (Value.lookup fields limit))
      (properties : ∀ name schema, (propertiesOf fields).read name = some schema → Plain schema)
      (items : (Value.lookup fields "items").isNil = false → Plain (Value.lookup fields "items")) :
      Plain (.object fields)

theorem lookup_of_unknown {fields : Fields} (known : ∀ key ∈ fields.keys, key ∈ keywords) {key : String}
    (h : key ∉ keywords) : Value.lookup fields key = .null := by
  have hread : fields.read key = none := by
    rw [Record.read_eq_none_iff]
    exact fun hmem => h (known key hmem)
  rw [Value.lookup, hread]
  rfl

/-! ## Their views -/

/-- The names of `type` that the view keeps. -/
def namedTypes : Value → List String
  | .text name => [name]
  | .list items => (items.map Value.textOf).filter (· ≠ "null")
  | _ => []

def listsNull : Value → Bool
  | .list items => "null" ∈ items.map Value.textOf
  | _ => false

theorem mem_appendOnce {items : List String} {item other : String} :
    other ∈ appendOnce items item ↔ other ∈ items ∨ other = item := by
  unfold appendOnce
  split_ifs with h
  · constructor
    · exact .inl
    · rintro (hmem | rfl)
      · exact hmem
      · exact h
  · simp

theorem mem_foldl_appendOnce {texts items : List String} {other : String} :
    other ∈ texts.foldl appendOnce items ↔ other ∈ items ∨ other ∈ texts := by
  induction texts generalizing items with
  | nil => simp
  | cons text rest ih => rw [List.foldl_cons, ih, mem_appendOnce, List.mem_cons, or_assoc]

/-- What the names of `type` leave of an empty view. -/
theorem addTypes_spec (type : Value) : ∃ types nullable, View.addTypes {} type = { types, nullable } ∧
    (∀ name, name ∈ types ↔ name ∈ namedTypes type) ∧ nullable = listsNull type := by
  have hfold : ∀ (items : List Value) (types : List String) (nullable : Bool), ∃ types' nullable',
      items.foldl (fun (view : View) item =>
        if item.textOf = "null" then { view with nullable := true }
        else { view with types := appendOnce view.types item.textOf }) { types, nullable } =
        { types := types', nullable := nullable' } ∧
      (∀ name, name ∈ types' ↔ name ∈ types ∨ name ∈ namedTypes (.list items)) ∧
      nullable' = (nullable || listsNull (.list items)) := by
    intro items
    induction items with
    | nil => exact fun types nullable => ⟨types, nullable, rfl, by simp [namedTypes], by simp [listsNull]⟩
    | cons item rest ih =>
      intro types nullable
      by_cases hnull : item.textOf = "null"
      · obtain ⟨types', nullable', heq, htypes, hnullable⟩ := ih types true
        refine ⟨types', nullable', by rw [List.foldl_cons, if_pos hnull, heq], ?_, ?_⟩
        · intro name
          simp only [htypes name, namedTypes, List.map_cons, hnull]
          simp
        · rw [hnullable]
          simp [listsNull, hnull]
      · obtain ⟨types', nullable', heq, htypes, hnullable⟩ := ih (appendOnce types item.textOf) nullable
        refine ⟨types', nullable', by rw [List.foldl_cons, if_neg hnull, heq], ?_, ?_⟩
        · intro name
          simp only [htypes name, mem_appendOnce, namedTypes, List.map_cons]
          rw [List.filter_cons_of_pos (by simpa using hnull), List.mem_cons, or_assoc]
        · rw [hnullable]
          simp [listsNull, Ne.symm hnull]
  cases type with
  | text name => exact ⟨[name], false, rfl, by simp [namedTypes], rfl⟩
  | list items =>
    obtain ⟨types, nullable, heq, htypes, hnullable⟩ := hfold items [] false
    exact ⟨types, nullable, heq, by simpa using htypes, by simpa using hnullable⟩
  | null => exact ⟨[], false, rfl, by simp [namedTypes], rfl⟩
  | bool _ => exact ⟨[], false, rfl, by simp [namedTypes], rfl⟩
  | int _ => exact ⟨[], false, rfl, by simp [namedTypes], rfl⟩
  | float _ => exact ⟨[], false, rfl, by simp [namedTypes], rfl⟩
  | object _ => exact ⟨[], false, rfl, by simp [namedTypes], rfl⟩

structure Holds (fields : Fields) (view : View) : Prop where
  types : namedTypes (Value.lookup fields "type") ≠ [] →
    ∀ name, name ∈ view.types ↔ name ∈ namedTypes (Value.lookup fields "type")
  nullable : view.nullable =
    (listsNull (Value.lookup fields "type") || (Value.lookup fields "nullable").isTrue)
  hasEnum : view.hasEnum = true ↔ ∃ values, Value.lookup fields "enum" = .list values
  enum : ∀ values, Value.lookup fields "enum" = .list values →
    ∀ text, text ∈ view.enum ↔ text ∈ values.map sprint
  limits : ∀ limit ∈ numericLimits, view.numbers.read limit = (Value.lookup fields limit).numberOf
  properties : view.properties = propertiesOf fields
  required : view.required = requiredOf fields
  items : view.items = Value.lookup fields "items"

theorem read_limits (fields : Fields) {limit : String} (h : limit ∈ numericLimits) :
    Record.read (numericLimits.foldl (fun (numbers : Record String Number) limit =>
      match (Value.lookup fields limit).numberOf with
      | some number => numbers.put limit number
      | none => numbers) []) limit = (Value.lookup fields limit).numberOf := by
  have hfold : ∀ (limits : List String) (numbers : Record String Number),
      Record.read (limits.foldl (fun (numbers : Record String Number) limit =>
        match (Value.lookup fields limit).numberOf with
        | some number => numbers.put limit number
        | none => numbers) numbers) limit =
        if limit ∈ limits then ((Value.lookup fields limit).numberOf).or (numbers.read limit)
        else numbers.read limit := by
    intro limits
    induction limits with
    | nil => exact fun _ => rfl
    | cons first rest ih =>
      intro numbers
      rw [List.foldl_cons, ih]
      by_cases hfirst : limit = first
      · subst hfirst
        cases hnumber : (Value.lookup fields limit).numberOf with
        | none => simp
        | some number => simp
      · cases hnumber : (Value.lookup fields first).numberOf with
        | none => simp [hfirst]
        | some number => simp [hfirst, Record.read_put]
  rw [hfold, if_pos h]
  simp

/-- The view of an object with no parts holds its keywords. -/
theorem holds_gather (fields : Fields) : Holds fields ((View.gather fields {}).compose fields) := by
  obtain ⟨types, nullable, htyped, htypes, rfl⟩ := addTypes_spec (Value.lookup fields "type")
  have hnonempty : namedTypes (Value.lookup fields "type") ≠ [] → types ≠ [] := by
    rintro hnamed rfl
    apply hnamed
    rw [List.eq_nil_iff_forall_not_mem]
    exact fun name hname => List.not_mem_nil ((htypes name).2 hname)
  unfold View.gather View.compose
  simp only [htyped]
  cases henum : Value.lookup fields "enum" with
  | list values =>
    refine ⟨fun hnamed name => ?_, rfl, by simp [View.addEnum, henum], ?_, fun limit => read_limits fields,
      rfl, rfl, rfl⟩
    · rw [if_neg fun hempty => hnonempty hnamed hempty.1]
      exact htypes name
    · intro values' hvalues text
      rw [henum] at hvalues
      obtain rfl := Value.list.inj hvalues
      simp only [View.addEnum, mem_foldl_appendOnce, List.not_mem_nil, false_or]
  | _ =>
    refine ⟨fun hnamed name => ?_, rfl, by simp [View.addEnum, henum], by simp [henum],
      fun limit => read_limits fields, rfl, rfl, rfl⟩
    rw [if_neg fun hempty => hnonempty hnamed hempty.1]
    exact htypes name

end Gostman.Openapi
