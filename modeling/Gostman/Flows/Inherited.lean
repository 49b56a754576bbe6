import Gostman.Flows.Saving
import Gostman.Lib.Decided
/-!
# Flows of any kinds

For a kind that names a member of `Object.prototype` (`constructor`, `toString` and so
on) the lookup `FIELDS[kind]` of `flows/model.js` finds an inherited function in the
place of a reader of fields, and what `normalizeFlow` gives is no normal flow, if it
gives anything.  Here is `normalizeFlow` on any kinds, and what is left of a flow that is
saved and read back.
-/

namespace Gostman.Flows

open Gostman.Lib Gostman.Js
open scoped Gostman.Lib.Decided

/-- What the member gives where a step's fields are expected: `Object(raw)` is the
step as it was written, the text that `toString` gives of nothing is spread into its
characters, and every other member throws. -/
def inheritedFields (name : String) (raw : Obj) : Option Obj :=
  if name = "constructor" then some raw
  else if name = "toString" then
    some ("[object Undefined]".toList.mapIdx fun index char =>
      (toString index, .str (String.singleton char)))
  else none

def spreadStep (head : StepHead) (found : Obj) : Json :=
  .obj (Record.put (Record.overlay [("id", .str head.id), ("kind", .str head.kind.text),
    ("label", .str head.label), ("note", .str head.note)] found) "next" (.str head.next))

section Kinds

variable (numerals : Numerals)

mutual

/-- `normalizeStep` of any kind, `none` where it throws. -/
def stepValue (depth : Nat) : Json → Option (List Json)
  | .obj fields =>
      let head := headOf numerals (.obj fields)
      if head.kind.text ∈ prototypeNames then
        (inheritedFields head.kind.text fields).map fun found => [spreadStep head found]
      else if head.kind.isContainer && depth < maxNesting then
        (stepsFieldValue (depth + 1) fields).map fun inner => [head.toJson inner]
      else some [head.toJson []]
  | _ => some []

def stepsFieldValue (depth : Nat) : List (String × Json) → Option (List Json)
  | [] => some []
  | (key, value) :: rest =>
      if key = "steps" then stepsListValue depth value else stepsFieldValue depth rest

def stepsListValue (depth : Nat) : Json → Option (List Json)
  | .arr items => stepValues depth items
  | _ => some []

def stepValues (depth : Nat) : List Json → Option (List Json)
  | [] => some []
  | item :: rest =>
      (stepValue depth item).bind fun first =>
        (stepValues depth rest).map fun others => first ++ others

end

/-- `taken.has`, for which a list or an object is only itself. -/
def isTaken (taken : List Json) (value : Json) : Bool :=
  taken.any fun other =>
    match other, value with
    | .null, .null => true
    | .bool first, .bool second => first = second
    | .num first, .num second => first = second
    | .str first, .str second => first = second
    | _, _ => false

def baseValue (wanted : Json) : Json :=
  let isEnd := match wanted with
    | .str name => name = endTarget
    | _ => false
  if isEnd || stringOf numerals wanted ∈ prototypeNames then
    .str (stringOf numerals wanted ++ "-step")
  else wanted

/-- `uniqueId`, where the id need not be a text. -/
def uniqueValue (wanted : Json) (taken : List Json) : Json :=
  let base := baseValue numerals wanted
  if !isTaken taken base then base
  else
    let numbered (number : Nat) : Json := .str (numberedId (stringOf numerals base) number)
    numbered (firstFree (fun number => !isTaken taken (numbered number)) taken.length 2)

/-- `CONTAINER_KINDS.includes(step.kind)`. -/
def isContainerValue (step : Json) : Bool :=
  match step.field "kind" with
  | some (.str kind) => (Kind.ofText kind).isContainer
  | _ => false

mutual

/-- `withUniqueIds` on these steps, with the ids taken so far. -/
def uniqueValues (taken : List Json) : List Json → List Json × List Json
  | [] => ([], taken)
  | step :: rest =>
      let named := uniqueStepValue taken step
      let others := uniqueValues named.2 rest
      (named.1 :: others.1, others.2)
termination_by structural steps => steps

def uniqueStepValue (taken : List Json) : Json → Json × List Json
  | .obj fields =>
      let id := (Json.obj fields).field "id"
      let kind := (Json.obj fields).field "kind"
      let unique := uniqueValue numerals ((if Json.truthy id then id else kind).getD .null) taken
      let named := Record.put fields "id" unique
      if isContainerValue (.obj fields) then
        let inner := uniqueFieldValues (taken ++ [unique]) fields
        (.obj (Record.put named "steps" (.arr inner.1)), inner.2)
      else (.obj named, taken ++ [unique])
  | step => (step, taken)
termination_by structural step => step

def uniqueFieldValues (taken : List Json) : List (String × Json) → List Json × List Json
  | [] => ([], taken)
  | (key, value) :: rest =>
      if key = "steps" then uniqueListValues taken value else uniqueFieldValues taken rest
termination_by structural fields => fields

def uniqueListValues (taken : List Json) : Json → List Json × List Json
  | .arr items => uniqueValues taken items
  | _ => ([], taken)
termination_by structural value => value

end

def flowValue (flow : Flow) (steps : List Json) : Json :=
  .obj [("id", .str flow.id), ("name", .str flow.name), ("description", .str flow.description),
    ("maxSends", .num flow.maxSends), ("variables", .arr (flow.vars.map Declared.toJson)),
    ("outputs", .arr (flow.outputs.map NamedValue.toJson)), ("steps", .arr steps)]

def listedSteps (raw : Json) : Option (List Json) :=
  match raw with
  | .obj fields => stepsFieldValue numerals 0 fields
  | _ => some []

/-- The value `normalizeFlow` gives for any kinds, `none` where it throws. -/
def normalizedFlow (raw : Json) : Option Json :=
  (listedSteps numerals raw).map fun steps =>
    flowValue (normalizeFlow numerals raw) (uniqueValues numerals [] steps).1

/-! ## Steps read or not -/

/-- None of these kinds names a member of `Object.prototype`. -/
def OwnKinds (heads : List StepHead) : Prop :=
  ∀ head ∈ heads, head.kind.text ∉ prototypeNames

def Inherits (kind : Kind) : Prop :=
  kind.text = "constructor" ∨ kind.text = "toString"

instance : DecidablePred Inherits :=
  fun kind => inferInstanceAs (Decidable (kind.text = "constructor" ∨ kind.text = "toString"))

theorem ownKinds_append {first second : List StepHead} :
    OwnKinds (first ++ second) ↔ OwnKinds first ∧ OwnKinds second :=
  List.forall_mem_append

theorem stepItems_append (first second : List Step) :
    stepItems (first ++ second) = stepItems first ++ stepItems second := by
  induction first with
  | nil => rfl
  | cons step rest ih => rw [List.cons_append, stepItems, stepItems, ih, List.cons_append]

instance (heads : List StepHead) : Decidable (OwnKinds heads) :=
  inferInstanceAs (Decidable (∀ head ∈ heads, head.kind.text ∉ prototypeNames))

/-- The values of these steps, none where the lookup of a kind throws. -/
def readSteps (steps : List Step) : Option (List Json) :=
  if OwnKinds (Outline.allHeads steps) then some (stepItems steps) else none

theorem inheritedFields_eq_none {name : String} {raw : Obj} (h : name ≠ "constructor")
    (h' : name ≠ "toString") : inheritedFields name raw = none := by
  rw [inheritedFields, if_neg h, if_neg h']

theorem readSteps_node (head : StepHead) (inner : List Step) :
    readSteps [.node head inner] =
      if head.kind.text ∈ prototypeNames then none
      else (readSteps inner).map fun items => [head.toJson items] := by
  have hown : OwnKinds (Outline.allHeads [.node head inner]) ↔
      head.kind.text ∉ prototypeNames ∧ OwnKinds (Outline.allHeads inner) := by
    rw [Outline.allHeads, Outline.heads, Outline.allHeads, List.append_nil]
    exact List.forall_mem_cons
  unfold readSteps
  by_cases hhead : head.kind.text ∈ prototypeNames <;>
    by_cases hinner : OwnKinds (Outline.allHeads inner) <;>
      simp [hown, hhead, hinner, stepItems, stepJson]

theorem readSteps_append (first second : List Step) :
    ((readSteps first).bind fun others => (readSteps second).map fun rest => others ++ rest) =
      readSteps (first ++ second) := by
  unfold readSteps
  by_cases hfirst : OwnKinds (Outline.allHeads first) <;>
    by_cases hsecond : OwnKinds (Outline.allHeads second) <;>
      simp [Outline.allHeads_append, ownKinds_append, stepItems_append, hfirst, hsecond]

mutual

theorem stepValue_eq (depth : Nat) : ∀ raw : Json,
    (∀ head ∈ Outline.allHeads (normalizeStep numerals depth raw).toList, ¬ Inherits head.kind) →
      stepValue numerals depth raw = readSteps (normalizeStep numerals depth raw).toList
  | .obj fields, h => by
      have hinner := stepsFieldValue_eq (depth + 1) fields
      rw [stepValue]
      simp only [normalizeStep, Option.toList_some, Outline.allHeads, Outline.heads, List.append_nil,
        List.mem_cons, forall_eq_or_imp] at h ⊢
      generalize headOf numerals (.obj fields) = head at h ⊢
      obtain ⟨hhead, hrest⟩ := h
      rw [readSteps_node]
      split_ifs with hown hopen
      · rw [inheritedFields_eq_none (fun h => hhead (.inl h)) fun h => hhead (.inr h)]
        rfl
      · rw [if_pos hopen] at hrest
        rw [hinner hrest]
      · rfl
  | .null, _ | .bool _, _ | .num _, _ | .str _, _ | .arr _, _ => rfl

theorem stepsFieldValue_eq (depth : Nat) : ∀ fields : List (String × Json),
    (∀ head ∈ Outline.allHeads (stepsField numerals depth fields), ¬ Inherits head.kind) →
      stepsFieldValue numerals depth fields = readSteps (stepsField numerals depth fields)
  | [], _ => rfl
  | (key, value) :: rest, h => by
      rw [stepsField] at h ⊢
      rw [stepsFieldValue]
      split_ifs at h ⊢
      · exact stepsListValue_eq depth value h
      · exact stepsFieldValue_eq depth rest h

theorem stepsListValue_eq (depth : Nat) : ∀ value : Json,
    (∀ head ∈ Outline.allHeads (stepsValue numerals depth value), ¬ Inherits head.kind) →
      stepsListValue numerals depth value = readSteps (stepsValue numerals depth value)
  | .arr items, h => stepValues_eq depth items h
  | .null, _ | .bool _, _ | .num _, _ | .str _, _ | .obj _, _ => rfl

theorem stepValues_eq (depth : Nat) : ∀ items : List Json,
    (∀ head ∈ Outline.allHeads (normalizeList numerals depth items), ¬ Inherits head.kind) →
      stepValues numerals depth items = readSteps (normalizeList numerals depth items)
  | [], _ => rfl
  | item :: rest, h => by
      rw [normalizeList] at h ⊢
      rw [Outline.allHeads_append] at h
      rw [stepValues, stepValue_eq depth item fun head hhead => h head (List.mem_append_left _ hhead),
        stepValues_eq depth rest fun head hhead => h head (List.mem_append_right _ hhead),
        readSteps_append]

end


/-! ## Unique ids of texts -/

theorem isTaken_str (taken : List String) (name : String) :
    isTaken (taken.map .str) (.str name) = decide (name ∈ taken) := by
  induction taken with
  | nil => rfl
  | cons other rest ih =>
      have hcons : isTaken (.str other :: rest.map .str) (.str name) =
          (decide (other = name) || isTaken (rest.map .str) (.str name)) := rfl
      rw [List.map_cons, hcons, ih]
      simp [eq_comm]

theorem baseValue_str (wanted : String) :
    baseValue numerals (.str wanted) = .str (baseId wanted) := by
  change (if (decide (wanted = endTarget) || decide (wanted ∈ prototypeNames)) = true then
    Json.str (wanted ++ "-step") else Json.str wanted) = .str (baseId wanted)
  rw [baseId]
  by_cases h : wanted = endTarget ∨ wanted ∈ prototypeNames
  · rw [if_pos h, if_pos (by simpa using h)]
  · rw [if_neg h, if_neg (by simpa using h)]

theorem uniqueValue_str (wanted : String) (taken : List String) :
    uniqueValue numerals (.str wanted) (taken.map .str) = .str (uniqueId wanted taken) := by
  simp only [uniqueValue, uniqueId, baseValue_str, isTaken_str, List.length_map, stringOf]
  split_ifs <;> simp_all

theorem kind_of_normal {head : StepHead} (h : NormalHead numerals head) :
    Kind.ofText head.kind.text = head.kind := by
  obtain ⟨source, hfields⟩ := h.fields
  rw [StepHead.kind, hfields, kind_fieldsOf, kind_ofText_text]

theorem uniqueFieldValues_eq (taken : List Json) (fields : Obj) :
    uniqueFieldValues numerals taken fields =
      ((Record.read fields "steps").map (uniqueListValues numerals taken)).getD ([], taken) := by
  induction fields with
  | nil => rfl
  | cons entry rest ih =>
      obtain ⟨key, value⟩ := entry
      rw [uniqueFieldValues, Record.read_cons]
      by_cases h : key = "steps"
      · rw [if_pos h, if_pos h]
        rfl
      · rw [if_neg h, if_neg h, ih]

theorem put_id (head : StepHead) (inner : List Json) (id : String) :
    Record.put (stepFields head inner) "id" (.str id) = stepFields { head with id := id } inner :=
  rfl

theorem put_steps (head : StepHead) (inner others : List Json) (h : head.kind.isContainer = true) :
    Record.put (stepFields head inner) "steps" (.arr others) = stepFields head others := by
  obtain ⟨id, label, note, fields, next⟩ := head
  cases fields <;> first | rfl | cases h

/-- A step of texts gets the id it gets as a normal step. -/
theorem uniqueStepValue_toJson {head : StepHead} (h : NormalHead numerals head)
    (taken : List String) (inner : List Json) :
    uniqueStepValue numerals (taken.map .str) (head.toJson inner) =
      let id := uniqueId (if head.id = "" then head.kind.text else head.id) taken
      let named := { head with id := id }
      if head.kind.isContainer then
        let others := uniqueValues numerals ((taken ++ [id]).map .str) inner
        (named.toJson others.1, others.2)
      else (named.toJson inner, (taken ++ [id]).map .str) := by
  have hread : ∀ {key value}, (key, value) ∈ stepFields head inner →
      (Json.obj (stepFields head inner)).field key = some value :=
    fun h => Record.read_of_mem (nodup_stepFields head inner) h
  have hid : (Json.obj (stepFields head inner)).field "id" = some (.str head.id) := hread (by simp)
  have hkind : (Json.obj (stepFields head inner)).field "kind" = some (.str head.kind.text) :=
    hread (by simp)
  have hcontainer : isContainerValue (.obj (stepFields head inner)) = head.kind.isContainer := by
    rw [isContainerValue, hkind]
    exact congrArg Kind.isContainer (kind_of_normal numerals h)
  have hwanted : (if Json.truthy (some (.str head.id)) then some (Json.str head.id)
      else some (.str head.kind.text)).getD .null =
        .str (if head.id = "" then head.kind.text else head.id) := by
    by_cases hempty : head.id = "" <;> simp [Json.truthy, hempty]
  change uniqueStepValue numerals (taken.map .str) (.obj (stepFields head inner)) = _
  rw [uniqueStepValue, hid, hkind, hwanted, uniqueValue_str, hcontainer]
  simp only [put_id]
  generalize uniqueId _ taken = id
  rw [List.map_append, List.map_singleton]
  split_ifs with hopen
  · have hinner : Record.read (stepFields head inner) "steps" = some (.arr inner) :=
      hread (by simp [hopen])
    rw [put_steps { head with id := id } inner _ hopen, uniqueFieldValues_eq, hinner]
    rfl
  · rfl

mutual

theorem uniqueStepValue_eq (depth : Nat) (taken : List String) : ∀ step : Step,
    ShapedStep numerals depth step →
      uniqueStepValue numerals (taken.map .str) (stepJson step) =
        (stepJson (uniqueStep taken step).1, (uniqueStep taken step).2.map .str)
  | .node head inner, ⟨hhead, hinner, hrest⟩ => by
      rw [stepJson, uniqueStepValue_toJson numerals hhead, uniqueStep]
      simp only
      generalize uniqueId _ taken = id
      split_ifs with hopen
      · rw [uniqueValues_eq (depth + 1) (taken ++ [id]) inner hrest]
        rfl
      · rfl

/-- Steps of a normal flow are named alike as values. -/
theorem uniqueValues_eq (depth : Nat) (taken : List String) : ∀ steps : List Step,
    ShapedSteps numerals depth steps →
      uniqueValues numerals (taken.map .str) (stepItems steps) =
        (stepItems (uniqueSteps taken steps).1, (uniqueSteps taken steps).2.map .str)
  | [], _ => rfl
  | step :: rest, ⟨hstep, hrest⟩ => by
      rw [stepItems, uniqueValues, uniqueStepValue_eq depth taken step hstep]
      simp only
      rw [uniqueValues_eq depth _ rest hrest]
      rfl

end

mutual

theorem fields_uniqueStep (taken : List String) : ∀ step : Step,
    (Outline.heads (uniqueStep taken step).1).map StepHead.fields =
      (Outline.heads step).map StepHead.fields
  | .node head inner => by
      rw [uniqueStep]
      simp only
      generalize uniqueId _ taken = id
      split_ifs
      · simp only [Outline.heads, List.map_cons, fields_uniqueSteps _ inner]
      · rfl

theorem fields_uniqueSteps (taken : List String) : ∀ steps : List Step,
    (Outline.allHeads (uniqueSteps taken steps).1).map StepHead.fields =
      (Outline.allHeads steps).map StepHead.fields
  | [] => rfl
  | step :: rest => by
      simp only [uniqueSteps, Outline.allHeads, List.map_append, fields_uniqueStep taken step,
        fields_uniqueSteps _ rest]

end

def rawSteps (raw : Json) : List Step :=
  match raw with
  | .obj fields => stepsField numerals 0 fields
  | _ => []

theorem shaped_rawSteps (raw : Json) : ShapedSteps numerals 0 (rawSteps numerals raw) := by
  cases raw with
  | obj fields => exact shaped_stepsField numerals 0 fields
  | _ => trivial

theorem steps_normalizeFlow (raw : Json) :
    (normalizeFlow numerals raw).steps = withUniqueIds (rawSteps numerals raw) := by
  cases raw <;> rfl


/-! ## The steps as they are written -/

def kindOf (raw : Json) : Kind := .ofText (trimmedOr numerals (raw.field "kind") "request")

theorem fields_headOf (raw : Json) :
    (headOf numerals raw).fields = fieldsOf numerals raw (kindOf numerals raw) := by
  rw [headOf, kindOf]

theorem kind_head (raw : Json) : (headOf numerals raw).kind = kindOf numerals raw := by
  rw [StepHead.kind, fields_headOf, kind_fieldsOf]

mutual

/-- A step as it is written, and the steps inside it that are read. -/
def writtenStep (depth : Nat) : Json → List Json
  | .obj fields =>
      .obj fields :: if (kindOf numerals (.obj fields)).isContainer && depth < maxNesting then
        writtenField (depth + 1) fields else []
  | _ => []

def writtenField (depth : Nat) : List (String × Json) → List Json
  | [] => []
  | (key, value) :: rest => if key = "steps" then writtenList depth value else writtenField depth rest

def writtenList (depth : Nat) : Json → List Json
  | .arr items => writtenSteps depth items
  | _ => []

def writtenSteps (depth : Nat) : List Json → List Json
  | [] => []
  | item :: rest => writtenStep depth item ++ writtenSteps depth rest

end

/-- Every step that is read of a flow, as it is written. -/
def written (raw : Json) : List Json :=
  match raw with
  | .obj fields => writtenField numerals 0 fields
  | _ => []

mutual

theorem heads_normalizeStep (depth : Nat) : ∀ raw : Json,
    Outline.allHeads (normalizeStep numerals depth raw).toList =
      (writtenStep numerals depth raw).map (headOf numerals)
  | .obj fields => by
      have hinner := heads_stepsField (depth + 1) fields
      rw [normalizeStep, writtenStep]
      simp only [Option.toList_some, Outline.allHeads, Outline.heads, List.append_nil, List.map_cons,
        kind_head]
      split_ifs
      · rw [hinner]
      · rfl
  | .null | .bool _ | .num _ | .str _ | .arr _ => rfl

theorem heads_stepsField (depth : Nat) : ∀ fields : List (String × Json),
    Outline.allHeads (stepsField numerals depth fields) =
      (writtenField numerals depth fields).map (headOf numerals)
  | [] => rfl
  | (key, value) :: rest => by
      rw [stepsField, writtenField]
      split_ifs
      · exact heads_stepsValue depth value
      · exact heads_stepsField depth rest

theorem heads_stepsValue (depth : Nat) : ∀ value : Json,
    Outline.allHeads (stepsValue numerals depth value) =
      (writtenList numerals depth value).map (headOf numerals)
  | .arr items => heads_normalizeList depth items
  | .null | .bool _ | .num _ | .str _ | .obj _ => rfl

theorem heads_normalizeList (depth : Nat) : ∀ items : List Json,
    Outline.allHeads (normalizeList numerals depth items) =
      (writtenSteps numerals depth items).map (headOf numerals)
  | [] => rfl
  | item :: rest => by
      rw [normalizeList, writtenSteps, Outline.allHeads_append, heads_normalizeStep depth item,
        heads_normalizeList depth rest, List.map_append]

end

theorem heads_rawSteps (raw : Json) :
    Outline.allHeads (rawSteps numerals raw) = (written numerals raw).map (headOf numerals) := by
  cases raw with
  | obj fields => exact heads_stepsField numerals 0 fields
  | _ => rfl

theorem listedSteps_eq (raw : Json) (h : ∀ step ∈ written numerals raw, ¬ Inherits (kindOf numerals step)) :
    listedSteps numerals raw = readSteps (rawSteps numerals raw) := by
  have hheads : ∀ head ∈ Outline.allHeads (rawSteps numerals raw), ¬ Inherits head.kind := by
    rw [heads_rawSteps, List.forall_mem_map]
    simpa only [kind_head] using h
  cases raw with
  | obj fields => exact stepsFieldValue_eq numerals 0 fields hheads
  | _ => rfl

theorem normalizedFlow_eq (raw : Json)
    (h : ∀ step ∈ written numerals raw, ¬ Inherits (kindOf numerals step)) :
    normalizedFlow numerals raw =
      if ∀ step ∈ written numerals raw, (kindOf numerals step).text ∉ prototypeNames then
        some (normalizeFlow numerals raw).toJson
      else none := by
  have hown : OwnKinds (Outline.allHeads (rawSteps numerals raw)) ↔
      ∀ step ∈ written numerals raw, (kindOf numerals step).text ∉ prototypeNames := by
    rw [heads_rawSteps, OwnKinds, List.forall_mem_map]
    simp only [kind_head]
  have hunique := uniqueValues_eq numerals 0 [] _ (shaped_rawSteps numerals raw)
  have hvalue : flowValue (normalizeFlow numerals raw)
      (stepItems (uniqueSteps [] (rawSteps numerals raw)).1) = (normalizeFlow numerals raw).toJson := by
    rw [← withUniqueIds, ← steps_normalizeFlow]
    rfl
  rw [List.map_nil] at hunique
  rw [normalizedFlow, listedSteps_eq numerals raw h, readSteps]
  simp only [hown]
  split_ifs
  · rw [Option.map_some, hunique, hvalue]
  · rfl

/-- The fields of the steps of a normal flow are read of the steps as they are written. -/
theorem fields_normalizeFlow (raw : Json) :
    (Outline.allHeads (normalizeFlow numerals raw).steps).map StepHead.fields =
      (written numerals raw).map fun step => fieldsOf numerals step (kindOf numerals step) := by
  rw [steps_normalizeFlow, withUniqueIds, fields_uniqueSteps, heads_rawSteps, List.map_map]
  exact List.map_congr_left fun step _ => fields_headOf numerals step

theorem kinds_normalizeFlow (raw : Json) :
    (Outline.allHeads (normalizeFlow numerals raw).steps).map StepHead.kind =
      (written numerals raw).map (kindOf numerals) := by
  have h := congrArg (List.map Fields.kind) (fields_normalizeFlow numerals raw)
  rw [List.map_map, List.map_map] at h
  exact h.trans (List.map_congr_left fun step _ => kind_fieldsOf numerals step _)

/-- A saved flow is read back with the kinds it had. -/
theorem kinds_compactFlow (raw : Json) :
    (written numerals (compactFlow numerals raw)).map (kindOf numerals) =
      (written numerals raw).map (kindOf numerals) := by
  rw [← kinds_normalizeFlow, ← kinds_normalizeFlow, normalizeFlow_compactFlow, Flow.slim,
    Outline.allHeads_mapHeads, List.map_map]
  exact List.map_congr_left fun head _ => kind_slim head

theorem vars_fieldsOf (raw : Json) (kind : Kind) :
    (fieldsOf numerals raw kind).vars =
      if kind = .request ∨ kind = .flow then textMap numerals (raw.field "variables") else [] := by
  cases kind <;> rfl

/-- The flow read back is the flow it was, but for the delays of retries that never
retry, exactly when no step passes on a variable with an empty text. -/
theorem rested_iff (raw : Json) :
    (normalizeFlow numerals (compactFlow numerals raw)).rested = (normalizeFlow numerals raw).rested ↔
      ∀ step ∈ written numerals raw, kindOf numerals step = .request ∨ kindOf numerals step = .flow →
        ∀ passed ∈ textMap numerals (step.field "variables"), passed.2 ≠ "" := by
  have hheads : (∀ head ∈ Outline.allHeads (normalizeFlow numerals raw).steps,
      ∀ passed ∈ head.fields.vars, passed.2 ≠ "") ↔ ∀ step ∈ written numerals raw,
        ∀ passed ∈ (fieldsOf numerals step (kindOf numerals step)).vars, passed.2 ≠ "" := by
    rw [← List.forall_mem_map (f := StepHead.fields)
      (P := fun fields : Fields => ∀ passed ∈ fields.vars, passed.2 ≠ ""), fields_normalizeFlow,
      List.forall_mem_map]
  have hvars : ∀ step, (∀ passed ∈ (fieldsOf numerals step (kindOf numerals step)).vars, passed.2 ≠ "") ↔
      (kindOf numerals step = .request ∨ kindOf numerals step = .flow →
        ∀ passed ∈ textMap numerals (step.field "variables"), passed.2 ≠ "") := by
    intro step
    rw [vars_fieldsOf]
    split_ifs with h <;> simp [h]
  rw [normalizeFlow_compactFlow, Flow.rested, Flow.rested, Flow.slim]
  simp only [Flow.mk.injEq, true_and]
  rw [Outline.mapHeads_mapHeads, Outline.mapHeads_eq_iff]
  simp only [← hvars, ← hheads, ← rested_slim_iff]

/-- A saved flow is read back as the flow it was, but for the delays of retries that
never retry. -/
def ReadBack (raw : Json) : Prop :=
  normalizedFlow numerals raw = some (normalizeFlow numerals raw).toJson ∧
    normalizedFlow numerals (compactFlow numerals raw) =
      some (normalizeFlow numerals (compactFlow numerals raw)).toJson ∧
    (normalizeFlow numerals (compactFlow numerals raw)).rested = (normalizeFlow numerals raw).rested

/-- No kind is the name of a member of `Object.prototype`, and no Request or Flow step
passes on a variable with an empty text. -/
def Savable (raw : Json) : Prop :=
  ∀ step ∈ written numerals raw, (kindOf numerals step).text ∉ prototypeNames ∧
    (kindOf numerals step = .request ∨ kindOf numerals step = .flow →
      ∀ passed ∈ textMap numerals (step.field "variables"), passed.2 ≠ "")

instance (raw : Json) : Decidable (Savable numerals raw) :=
  inferInstanceAs (Decidable (∀ step ∈ written numerals raw, (kindOf numerals step).text ∉ prototypeNames ∧
    (kindOf numerals step = .request ∨ kindOf numerals step = .flow →
      ∀ passed ∈ textMap numerals (step.field "variables"), passed.2 ≠ "")))

theorem readBack_iff (raw : Json)
    (hkinds : ∀ step ∈ written numerals raw, ¬ Inherits (kindOf numerals step)) :
    ReadBack numerals raw ↔ Savable numerals raw := by
  have hsaved : ∀ P : Kind → Prop,
      (∀ step ∈ written numerals (compactFlow numerals raw), P (kindOf numerals step)) ↔
        ∀ step ∈ written numerals raw, P (kindOf numerals step) := by
    intro P
    have hmap := List.forall_mem_map (f := kindOf numerals)
      (l := written numerals (compactFlow numerals raw)) (P := P)
    rw [← hmap, kinds_compactFlow, List.forall_mem_map]
  have hread := normalizedFlow_eq numerals raw hkinds
  have hreread := normalizedFlow_eq numerals (compactFlow numerals raw) ((hsaved (¬ Inherits ·)).2 hkinds)
  by_cases hown : ∀ step ∈ written numerals raw, (kindOf numerals step).text ∉ prototypeNames
  · rw [if_pos hown] at hread
    rw [if_pos ((hsaved (·.text ∉ prototypeNames)).2 hown)] at hreread
    constructor
    · intro h step hstep
      exact ⟨hown step hstep, (rested_iff numerals raw).1 h.2.2 step hstep⟩
    · intro h
      exact ⟨hread, hreread, (rested_iff numerals raw).2 fun step hstep => (h step hstep).2⟩
  · rw [if_neg hown] at hread
    constructor
    · intro h
      have hnone := hread.symm.trans h.1
      cases hnone
    · intro h
      exact absurd (fun step hstep => (h step hstep).1) hown

/-- Every flow that is savable is read back from its saved form, and of the others none
is, except perhaps those with a step of the kind `constructor` or `toString`. -/
theorem saved_flow_iff (raw : Json) :
    (Savable numerals raw → ReadBack numerals raw) ∧
      (ReadBack numerals raw → (∀ step ∈ written numerals raw, ¬ Inherits (kindOf numerals step)) →
        Savable numerals raw) := by
  constructor
  · intro h
    have hkinds : ∀ step ∈ written numerals raw, ¬ Inherits (kindOf numerals step) := by
      intro step hstep hkind
      have hown := (h step hstep).1
      rcases hkind with hkind | hkind <;> rw [hkind] at hown <;> exact hown (by decide)
    exact (readBack_iff numerals raw hkinds).2 h
  · intro h hkinds
    exact (readBack_iff numerals raw hkinds).1 h

end Kinds

def emptyTokenFlow : Json :=
  .obj [("id", .str "f"), ("name", .str "Log in"),
    ("steps", .arr [.obj [("id", .str "send"), ("requestId", .str "r"),
      ("variables", .obj [("token", .str "")])]])]

/-- The empty token is gone from the saved flow. -/
theorem saved_flow_loses_empty_token :
    (normalizeFlow plainLibrary.numerals (compactFlow plainLibrary.numerals emptyTokenFlow)).rested ≠
      (normalizeFlow plainLibrary.numerals emptyTokenFlow).rested := by
  intro h
  have hvars := congrArg (fun flow : Flow => (Outline.allHeads flow.steps).map
    fun head => head.fields.vars) h
  revert hvars
  decide +kernel

/-- A flow whose only step passes on a token that is not empty. -/
def tokenFlow : Json :=
  .obj [("id", .str "f"), ("name", .str "Log in"),
    ("steps", .arr [.obj [("id", .str "send"), ("requestId", .str "r"),
      ("variables", .obj [("token", .str "secret")])]])]

theorem saved_flow_iff_token :
    ReadBack plainLibrary.numerals tokenFlow ∧ Savable plainLibrary.numerals tokenFlow := by
  have hsavable : Savable plainLibrary.numerals tokenFlow := by decide +kernel
  have hread := (saved_flow_iff plainLibrary.numerals tokenFlow).1 hsavable
  exact ⟨hread, (saved_flow_iff plainLibrary.numerals tokenFlow).2 hread (by decide +kernel)⟩

/-- A flow whose only step has this kind and an empty token. -/
def flowOfKind (kind : String) : Json :=
  .obj [("steps", .arr [.obj [("kind", .str kind), ("token", .str "")]])]

example : normalizedFlow plainLibrary.numerals (flowOfKind "valueOf") = none := rfl

-- `Object(raw)` keeps the token, until it is saved
example : (normalizedFlow plainLibrary.numerals (flowOfKind "constructor")).bind (·.field "steps") =
    some (.arr [.obj [("id", .str "constructor-step"), ("kind", .str "constructor"), ("label", .str ""),
      ("note", .str ""), ("token", .str ""), ("next", .str "")]]) := rfl

end Gostman.Flows
