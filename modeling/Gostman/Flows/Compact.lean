import Gostman.Flows.Json
import Gostman.Flows.Names
/-!
# What a saved flow leaves out

`compactFlow` of `flows/model.js`: before a flow is saved, whatever is empty or
a default is taken out of it.  `compact` does not know what a field means; the
lemmas here say what a reader finds in an object after it.
-/

namespace Gostman.Flows

open Gostman.Lib Gostman.Js

def isEmptyValue : Json → Bool
  | .null => true
  | .str value => value = ""
  | .arr items => items.length = 0
  | .obj fields => fields.length = 0
  | _ => false

-- of a normal flow no other `retry` is an object; a step whose kind is `constructor` may hold any
def isDefaultRetry (retry : Json) : Bool :=
  match retry.field "times", retry.field "until" with
  | some (.num times), some (.arr checks) => times ≤ 1 && checks.length = 0
  | _, _ => false

/-- The entries `compact` drops without a look into them. -/
def isDefaultEntry (key : String) (value : Json) : Bool :=
  (key = "retry" && value.isPlainObject && isDefaultRetry value) ||
    (key = "enabled" && match value with
      | .bool true => true
      | _ => false)

mutual

def compact : Json → Json
  | .arr items => .arr (compactItems items)
  | .obj fields => .obj (compactFields fields)
  | value => value

def compactItems : List Json → List Json
  | [] => []
  | item :: rest => compact item :: compactItems rest

def compactFields : List (String × Json) → List (String × Json)
  | [] => []
  | (key, value) :: rest =>
      if isDefaultEntry key value || isEmptyValue (compact value) then compactFields rest
      else (key, compact value) :: compactFields rest

end

def compactFlow (numerals : Numerals) (raw : Json) : Json :=
  compact (normalizeFlow numerals raw).toJson

/-! ## Reading what is left -/

def kept (key : String) (value : Json) : Option Json :=
  if isDefaultEntry key value || isEmptyValue (compact value) then none else some (compact value)

theorem compactItems_eq (items : List Json) : compactItems items = items.map compact := by
  induction items with
  | nil => rfl
  | cons item rest ih => rw [compactItems, ih, List.map_cons]

theorem keys_compactFields_subset (fields : Obj) :
    Record.keys (compactFields fields) ⊆ Record.keys fields := by
  induction fields with
  | nil => simp [compactFields]
  | cons entry rest ih =>
      obtain ⟨key, value⟩ := entry
      rw [compactFields]
      split_ifs
      · exact fun name hname => List.mem_cons_of_mem _ (ih hname)
      · exact List.cons_subset_cons _ ih

theorem read_compactFields {fields : Obj} (hnodup : (Record.keys fields).Nodup) (key : String) :
    Record.read (compactFields fields) key = (Record.read fields key).bind (kept key) := by
  induction fields with
  | nil => rfl
  | cons entry rest ih =>
      obtain ⟨name, value⟩ := entry
      obtain ⟨hfresh, hrest⟩ := List.nodup_cons.1 hnodup
      rw [compactFields, Record.read_cons]
      by_cases heq : name = key
      · subst heq
        rw [if_pos rfl, Option.bind_some, kept]
        split_ifs
        · rw [Record.read_eq_none_iff]
          exact fun hmem => hfresh (keys_compactFields_subset rest hmem)
        · rw [Record.read_cons, if_pos rfl]
      · rw [if_neg heq, ← ih hrest]
        split_ifs
        · rfl
        · rw [Record.read_cons, if_neg heq]

theorem field_compact {fields : Obj} (hnodup : (Record.keys fields).Nodup) (key : String) :
    (compact (.obj fields)).field key = (Record.read fields key).bind (kept key) :=
  read_compactFields hnodup key

section Kept

variable (numerals : Numerals) (key : String)

theorem kept_str (value : String) :
    kept key (.str value) = if value = "" then none else some (.str value) := by
  simp [kept, isDefaultEntry, isEmptyValue, compact, Json.isPlainObject]

@[simp] theorem text_kept (value : String) : text numerals (kept key (.str value)) = value := by
  rw [kept_str]
  split_ifs with h
  · exact h.symm
  · rfl

@[simp] theorem asText_kept (value : String) : asText numerals (kept key (.str value)) = value := by
  rw [kept_str]
  split_ifs with h
  · exact h.symm
  · rfl

@[simp] theorem trimmed_kept (value : String) :
    trimmed numerals (kept key (.str value)) = trim value := by
  rw [trimmed, text_kept]

@[simp] theorem matchOf_kept (mode : Match) : matchOf (kept key (.str mode.text)) = mode := by
  rw [kept_str]
  cases mode <;> rfl

@[simp] theorem sourceOf_kept (source : Source) : sourceOf (kept key (.str source.text)) = source := by
  rw [kept_str]
  cases source <;> rfl

@[simp] theorem isSource_kept (source : Source) : isSource (kept key (.str source.text)) = true := by
  rw [kept_str]
  cases source <;> rfl

@[simp] theorem conditionSourceOf_kept (source : ConditionSource) :
    conditionSourceOf (kept key (.str source.text)) = source := by
  rw [kept_str]
  cases source <;> rfl

@[simp] theorem outcomeOf_kept (outcome : Outcome) :
    outcomeOf (kept key (.str outcome.text)) = outcome := by
  rw [kept_str]
  cases outcome <;> rfl

@[simp] theorem variableTypeOf_kept (type : VariableType) :
    variableTypeOf (kept key (.str type.text)) = type := by
  rw [kept_str]
  cases type <;> rfl

theorem kept_num (value : ℚ) : kept key (.num value) = some (.num value) := by
  simp [kept, isDefaultEntry, isEmptyValue, compact, Json.isPlainObject]

/-- A whole number within its bounds is kept by `compact`. -/
theorem whole_kept {n lowest highest : Nat} (fallback : Nat) (hlow : lowest ≤ n)
    (hhigh : n ≤ highest) :
    whole numerals (kept key (.num n)) lowest highest fallback = n := by
  rw [kept_num]
  exact whole_natCast numerals fallback hlow hhigh

theorem kept_arr (items : List Json) :
    kept key (.arr items) = if items = [] then none else some (.arr (items.map compact)) := by
  cases items <;>
    simp [kept, isDefaultEntry, isEmptyValue, compact, compactItems_eq, Json.isPlainObject]

/-- The objects of a list are all there after `compact`. -/
theorem listOf_kept {items : List Json} (hobjects : ∀ item ∈ items, item.isPlainObject = true) :
    Json.listOf (kept key (.arr items)) = items.map compact := by
  have hcompact : ∀ item ∈ items.map compact, item.isPlainObject = true := by
    intro item hitem
    obtain ⟨old, hold, rfl⟩ := List.mem_map.1 hitem
    have h := hobjects old hold
    cases old <;> simp_all [Json.isPlainObject, compact]
  rw [kept_arr]
  split_ifs with h
  · simp [h, Json.listOf]
  · rw [Json.listOf, List.filter_eq_self.2 hcompact]

/-- A list of records is read back from its saved form when each record is. -/
theorem listRead_kept {α : Type} {read : Json → α} {write : α → Json} {raw : List Json}
    (hobjects : ∀ a, (write a).isPlainObject = true)
    (hback : ∀ item, read (compact (write (read item))) = read item) :
    (Json.listOf (kept key (.arr ((raw.map read).map write)))).map read = raw.map read := by
  have hwritten : ∀ item ∈ (raw.map read).map write, item.isPlainObject = true := by
    intro item hitem
    obtain ⟨a, -, rfl⟩ := List.mem_map.1 hitem
    exact hobjects a
  rw [listOf_kept key hwritten, List.map_map, List.map_map, List.map_map]
  exact List.map_congr_left fun item _ => hback item

end Kept

/-! ## The parts of a step -/

section Parts

variable (numerals : Numerals)

theorem toAssertion_compact {assertion : Assertion} (h : assertion.operator ≠ "") :
    toAssertion numerals (compact assertion.toJson) = assertion := by
  have hfield : ∀ key, (compact assertion.toJson).field key = _ := field_compact (by simp [Record.keys])
  obtain ⟨expression, operator, value, enabled⟩ := assertion
  simp only [toAssertion, hfield, Record.read, String.reduceEq, if_true, if_false,
    Option.bind_some, asText_kept]
  rw [if_neg h]
  cases enabled <;> rfl

theorem operator_toAssertion (raw : Json) : (toAssertion numerals raw).operator ≠ "" := by
  simp only [toAssertion]
  split_ifs with h
  · decide
  · exact h

theorem normalizeAssertions_kept (key : String) {checks : List Assertion}
    (h : ∀ check ∈ checks, check.operator ≠ "") :
    normalizeAssertions numerals (kept key (.arr (checks.map Assertion.toJson))) = checks := by
  rw [normalizeAssertions, listOf_kept key (by simp [Assertion.toJson, Json.isPlainObject])]
  simp only [List.map_map]
  conv_rhs => rw [← List.map_id checks]
  exact List.map_congr_left fun check hcheck => toAssertion_compact numerals (h check hcheck)

mutual

/-- A condition as `normalizeConditions` gives it. -/
def Condition.Normal : Condition → Prop
  | .check assertion => assertion.operator ≠ ""
  | .group _ conditions => conditions ≠ [] ∧ NormalConditions conditions

def NormalConditions : List Condition → Prop
  | [] => True
  | condition :: rest => condition.Normal ∧ NormalConditions rest

end

theorem normalConditions_append {first second : List Condition} (hfirst : NormalConditions first)
    (hsecond : NormalConditions second) : NormalConditions (first ++ second) := by
  induction first with
  | nil => exact hsecond
  | cons condition rest ih => exact ⟨hfirst.1, ih hfirst.2⟩

mutual

theorem normal_normalizeItem : ∀ raw : Json, NormalConditions (normalizeItem numerals raw)
  | .obj fields => by
      rw [normalizeItem]
      have h := normal_groupConditions fields
      split
      · trivial
      · rename_i first others hgroup
        exact ⟨⟨by simp, h _ hgroup⟩, trivial⟩
      · exact ⟨operator_toAssertion numerals _, trivial⟩
  | .null | .bool _ | .num _ | .str _ | .arr _ => trivial

theorem normal_groupConditions : ∀ fields : List (String × Json),
    ∀ conditions, groupConditions numerals fields = some conditions → NormalConditions conditions
  | [], _, h => by simp [groupConditions] at h
  | (key, value) :: rest, conditions, h => by
      rw [groupConditions] at h
      split_ifs at h
      · exact normal_conditionList value conditions h
      · exact normal_groupConditions rest conditions h

theorem normal_conditionList : ∀ value : Json,
    ∀ conditions, conditionList numerals value = some conditions → NormalConditions conditions
  | .arr items, conditions, h => by
      rw [conditionList, Option.some.injEq] at h
      exact h ▸ normal_normalizeItems items
  | .null, _, h | .bool _, _, h | .num _, _, h | .str _, _, h | .obj _, _, h => by
      simp [conditionList] at h

theorem normal_normalizeItems : ∀ items : List Json,
    NormalConditions (normalizeItems numerals items)
  | [] => trivial
  | item :: rest =>
      normalConditions_append (normal_normalizeItem item) (normal_normalizeItems rest)

end

theorem normal_normalizeConditions (raw : Option Json) :
    NormalConditions (normalizeConditions numerals raw) := by
  unfold normalizeConditions
  split
  · exact normal_normalizeItems numerals _
  · trivial

mutual

theorem normalizeItem_compact : ∀ condition : Condition, condition.Normal →
    normalizeItem numerals (compact condition.toJson) = [condition]
  | .check assertion, h => by
      have hgroup : groupConditions numerals
          (compactFields [("expression", .str assertion.expression),
            ("operator", .str assertion.operator), ("value", .str assertion.value),
            ("enabled", .bool assertion.enabled)]) = none := by
        rw [groupConditions_eq, read_compactFields (by simp [Record.keys])]
        rfl
      have hcheck := toAssertion_compact numerals h
      simp only [Assertion.toJson, compact] at hcheck
      rw [Condition.toJson, Assertion.toJson, compact, normalizeItem, hgroup]
      simp only [hcheck]
  | .group mode conditions, h => by
      have hinner := normalizeItems_compact conditions h.2
      have hne : conditionItems conditions ≠ [] := by
        cases conditions with
        | nil => exact absurd rfl h.1
        | cons first rest => simp [conditionItems]
      have hgroup : groupConditions numerals
          (compactFields [("match", .str mode.text), ("conditions", .arr (conditionItems conditions))]) =
          some conditions := by
        rw [groupConditions_eq, read_compactFields (by simp [Record.keys])]
        simp only [Record.read, String.reduceEq, if_true, if_false, Option.bind_some]
        rw [kept_arr, if_neg hne, Option.bind_some, conditionList, ← compactItems_eq, hinner]
      rw [Condition.toJson, compact, normalizeItem, hgroup, read_compactFields (by simp [Record.keys])]
      cases conditions with
      | nil => exact absurd rfl h.1
      | cons first rest => simp [Record.read]

theorem normalizeItems_compact : ∀ conditions : List Condition, NormalConditions conditions →
    normalizeItems numerals (compactItems (conditionItems conditions)) = conditions
  | [], _ => rfl
  | condition :: rest, h => by
      rw [conditionItems, compactItems, normalizeItems, normalizeItem_compact condition h.1,
        normalizeItems_compact rest h.2, List.singleton_append]

end

theorem normalizeConditions_kept (key : String) {conditions : List Condition}
    (h : NormalConditions conditions) :
    normalizeConditions numerals (kept key (.arr (conditionItems conditions))) = conditions := by
  have hinner := normalizeItems_compact numerals conditions h
  rw [kept_arr]
  split_ifs with hnil
  · rw [hnil] at hinner
    exact hinner
  · rw [normalizeConditions, ← compactItems_eq, hinner]

theorem isEmptyValue_of_field {value field : Json} {key : String}
    (h : value.field key = some field) : isEmptyValue value = false := by
  cases value with
  | obj fields =>
      cases fields with
      | nil => simp [Json.field] at h
      | cons first rest => rfl
  | _ => simp [Json.field] at h

theorem retryOf_bounds (raw : Option Json) :
    1 ≤ (retryOf numerals raw).times ∧ (retryOf numerals raw).times ≤ maxAttempts ∧
      (retryOf numerals raw).delayMs ≤ maxDelayMs := by
  have hone : 1 ≤ maxAttempts := by decide
  have htimes (times : Option Json) := whole_bounds numerals times hone (Nat.le_refl 1) hone
  have hdelay (delay : Option Json) :=
    whole_bounds numerals delay (Nat.zero_le maxDelayMs) (Nat.le_refl 0) (Nat.zero_le maxDelayMs)
  exact ⟨(htimes _).1, (htimes _).2, (hdelay _).2⟩

/-- A retry without its delay where there is nothing to retry. -/
def Retry.slim (retry : Retry) : Retry :=
  if retry.times ≤ 1 ∧ retry.til = [] then { retry with delayMs := 0 } else retry

theorem retryOf_kept {retry : Retry} (htimes : 1 ≤ retry.times) (hmax : retry.times ≤ maxAttempts)
    (hdelay : retry.delayMs ≤ maxDelayMs) (hchecks : ∀ check ∈ retry.til, check.operator ≠ "") :
    retryOf numerals (kept "retry" retry.toJson) = retry.slim := by
  have hdefault : isDefaultEntry "retry" retry.toJson = decide (retry.times ≤ 1 ∧ retry.til = []) := by
    have hcast : ((retry.times : ℚ) ≤ 1) ↔ retry.times ≤ 1 := by exact_mod_cast Iff.rfl
    simp [isDefaultEntry, Retry.toJson, Json.isPlainObject, isDefaultRetry, Json.field, Record.read,
      hcast]
  have hfield : ∀ key, (compact retry.toJson).field key = _ :=
    field_compact (by simp [Record.keys])
  have hne : isEmptyValue (compact retry.toJson) = false :=
    isEmptyValue_of_field ((hfield "times").trans (kept_num "times" retry.times))
  unfold kept
  rw [hdefault, hne, Bool.or_false, Retry.slim]
  by_cases hidle : retry.times ≤ 1 ∧ retry.til = []
  · rw [if_pos (decide_eq_true hidle), if_pos hidle, hidle.2]
    have hone : retry.times = 1 := by omega
    rw [hone]
    rfl
  · rw [if_neg (by simpa using hidle), if_neg hidle]
    have hobj : ∀ fields, retryOf numerals (some (compact (.obj fields))) =
        { times := whole numerals ((compact (.obj fields)).field "times") 1 maxAttempts 1
          delayMs := whole numerals ((compact (.obj fields)).field "delayMs") 0 maxDelayMs 0
          til := normalizeAssertions numerals ((compact (.obj fields)).field "until") } :=
      fun _ => rfl
    rw [Retry.toJson, hobj, ← Retry.toJson, hfield, hfield, hfield]
    simp only [Record.read, String.reduceEq, if_true, if_false, Option.bind_some]
    rw [whole_kept numerals _ _ htimes hmax, whole_kept numerals _ _ (Nat.zero_le _) hdelay,
      normalizeAssertions_kept numerals _ hchecks]

/-! Values, inputs and cases keep all they say. -/

structure NamedValue.Normal (value : NamedValue) : Prop where
  name : trim value.name = value.name
  reading : ∀ step source path, value.reading = .response step source path →
    trim step = step ∧ trim path = path

theorem normal_valueOf (raw : Json) : (valueOf numerals raw).Normal where
  name := trim_trimmed numerals _
  reading := by
    intro step source path h
    simp only [valueOf] at h
    split_ifs at h
    simp only [Reading.response.injEq] at h
    obtain ⟨rfl, -, rfl⟩ := h
    exact ⟨trim_trimmed numerals _, trim_trimmed numerals _⟩

theorem nodup_entries (value : NamedValue) : ("target" :: Record.keys value.entries).Nodup := by
  obtain ⟨name, reading⟩ := value
  cases reading <;> simp [NamedValue.entries, Record.keys]

/-- A reader finds in an object what it was made of, whatever other fields the
object has. -/
theorem valueOf_of_fields {value : NamedValue} (h : value.Normal) {raw : Json}
    (hname : raw.field "name" = kept "name" (.str value.name))
    (htemplate : ∀ written, value.reading = .template written →
      raw.field "step" = none ∧ raw.field "source" = none ∧
        raw.field "value" = kept "value" (.str written))
    (hresponse : ∀ step source path, value.reading = .response step source path →
      raw.field "step" = kept "step" (.str step) ∧
        raw.field "source" = kept "source" (.str source.text) ∧
        raw.field "path" = kept "path" (.str path)) :
    valueOf numerals raw = value := by
  obtain ⟨name, reading⟩ := value
  cases hreading : reading with
  | template written =>
      obtain ⟨hstep, hsource, hvalue⟩ := htemplate written hreading
      simp [valueOf, hname, hstep, hsource, hvalue, isSource, h.name]
  | response step source path =>
      obtain ⟨hstep, hsource, hpath⟩ := hresponse step source path hreading
      obtain ⟨htrim, htrim'⟩ := h.reading step source path hreading
      simp [valueOf, hname, hstep, hsource, hpath, htrim, htrim', h.name]

theorem valueOf_compact {value : NamedValue} (h : value.Normal) :
    valueOf numerals (compact value.toJson) = value := by
  have hfield : ∀ key, (compact value.toJson).field key = _ :=
    field_compact (List.nodup_cons.1 (nodup_entries value)).2
  apply valueOf_of_fields numerals h
  · rw [hfield]
    rfl
  · intro written hreading
    simp [hfield, NamedValue.entries, hreading, Record.read]
  · intro step source path hreading
    simp [hfield, NamedValue.entries, hreading, Record.read]

theorem inputOf_compact {input : StepInput} (htarget : trim input.target = input.target)
    (h : input.value.Normal) : inputOf numerals (compact input.toJson) = input := by
  have hfield : ∀ key, (compact input.toJson).field key = _ :=
    field_compact (by simpa [Record.keys] using nodup_entries input.value)
  have hvalue : valueOf numerals (compact input.toJson) = input.value := by
    apply valueOf_of_fields numerals h
    · rw [hfield]
      rfl
    · intro written hreading
      simp [hfield, NamedValue.entries, hreading, Record.read]
    · intro step source path hreading
      simp [hfield, NamedValue.entries, hreading, Record.read]
  rw [inputOf, hvalue, hfield]
  simp [Record.read, htarget]

theorem caseOf_compact {entry : Case} (htarget : trim entry.target = entry.target)
    (h : NormalConditions entry.conditions) : caseOf numerals (compact entry.toJson) = entry := by
  have hfield : ∀ key, (compact entry.toJson).field key = _ :=
    field_compact (by simp [Record.keys])
  simp [caseOf, hfield, Record.read, htarget, normalizeConditions_kept numerals _ h]

theorem normalizeDeclared_compact (raw : Json) :
    normalizeDeclared numerals (compact (normalizeDeclared numerals raw).toJson) =
      normalizeDeclared numerals raw := by
  generalize hdeclared : normalizeDeclared numerals raw = declared
  have htrim : trim declared.name = declared.name := by
    rw [← hdeclared]
    exact trim_trim _
  have hrequired : declared.required = true → declared.input = true := by
    rw [← hdeclared]
    simp only [normalizeDeclared, Bool.and_eq_true]
    exact fun h => h.1
  obtain ⟨name, type, value, input, required⟩ := declared
  have hfield : ∀ key, (compact (Declared.toJson ⟨name, type, value, input, required⟩)).field key = _ :=
    field_compact (by cases input <;> cases required <;> simp [Record.keys])
  have hbool : ∀ key, key ≠ "enabled" → kept key (.bool true) = some (.bool true) := by
    intro key hkey
    simp [kept, isDefaultEntry, isEmptyValue, compact, Json.isPlainObject, hkey]
  simp only at htrim hrequired
  cases input <;> cases required <;>
    simp_all [normalizeDeclared, Record.read]

/-! A text map loses the names of empty texts. -/

structure NormalNames (vars : Record String String) : Prop where
  nodup : vars.keys.Nodup
  trimmed : ∀ name ∈ vars.keys, trim name = name ∧ name ≠ ""

theorem normalNames_textMap (raw : Option Json) : NormalNames (textMap numerals raw) := by
  unfold textMap
  split
  · refine ⟨Record.nodup_ofEntries _, fun name hname => ?_⟩
    rcases Record.mem_keys_overlay.1 hname with hnone | hmem
    · cases hnone
    · obtain ⟨entry, hentry, rfl⟩ := List.mem_map.1 hmem
      obtain ⟨hsource, hne⟩ := List.mem_filter.1 hentry
      obtain ⟨source, -, rfl⟩ := List.mem_map.1 hsource
      exact ⟨trim_trim _, by simpa using hne⟩
  · exact ⟨by simp [Record.keys], by simp [Record.keys]⟩

def filledIn (vars : Record String String) : Record String String :=
  vars.filter fun entry => entry.2 ≠ ""

theorem compactFields_texts (vars : Record String String) :
    compactFields (vars.map fun entry => (entry.1, .str entry.2)) =
      (filledIn vars).map fun entry => (entry.1, .str entry.2) := by
  induction vars with
  | nil => rfl
  | cons entry rest ih =>
      obtain ⟨name, value⟩ := entry
      rw [List.map_cons, compactFields, ih]
      by_cases h : value = "" <;>
        simp [filledIn, isDefaultEntry, isEmptyValue, compact, Json.isPlainObject, h]

theorem textMap_textObj {vars : Record String String} (h : NormalNames vars) :
    textMap numerals (some (textObj vars)) = vars := by
  have hentries : ((vars.map fun entry => (entry.1, Json.str entry.2)).map fun entry =>
      (trim entry.1, text numerals (some entry.2))) = vars := by
    rw [List.map_map]
    conv_rhs => rw [← List.map_id vars]
    apply List.map_congr_left
    intro entry hentry
    have htrim := (h.trimmed entry.1 (List.mem_map.2 ⟨entry, hentry, rfl⟩)).1
    simp [htrim]
  have hfilter : vars.filter (fun entry => entry.1 ≠ "") = vars := by
    rw [List.filter_eq_self]
    intro entry hentry
    simpa using (h.trimmed entry.1 (List.mem_map.2 ⟨entry, hentry, rfl⟩)).2
  rw [textObj, textMap, hentries, hfilter, Record.ofEntries_of_nodup _ h.nodup]

theorem normalNames_filledIn {vars : Record String String} (h : NormalNames vars) :
    NormalNames (filledIn vars) where
  nodup := h.nodup.sublist (List.filter_sublist.map Prod.fst)
  trimmed := fun name hname =>
    h.trimmed name ((List.filter_sublist.map Prod.fst).subset hname)

theorem textMap_kept {vars : Record String String} (h : NormalNames vars) :
    textMap numerals (kept "variables" (textObj vars)) = filledIn vars := by
  have hcompact : compact (textObj vars) = textObj (filledIn vars) := by
    rw [textObj, compact, compactFields_texts]
    rfl
  have hdefault : isDefaultEntry "variables" (textObj vars) = false := by
    simp [isDefaultEntry]
  rw [kept, hcompact, hdefault, Bool.false_or]
  split_ifs with hempty
  · have hnil : filledIn vars = [] := by simpa [isEmptyValue, textObj] using hempty
    rw [hnil]
    rfl
  · exact textMap_textObj numerals (normalNames_filledIn h)

end Parts

end Gostman.Flows
