import Gostman.Flows.Compact
import Gostman.Flows.English
/-!
# Saving a flow

What is read back from a saved flow.  Every field of every step comes back as it
was, but for two: the delay of a retry that never retries, and the variables a
step passes on with an empty text.
-/

namespace Gostman.Flows

open Gostman.Lib Gostman.Js

/-! ## The fields of a step -/

/-- A step without the delay of a retry that never retries. -/
def Fields.rested : Fields → Fields
  | .request fields => .request { fields with retry := fields.retry.slim }
  | fields => fields

def Fields.vars : Fields → Record String String
  | .request fields => fields.vars
  | .flow fields => fields.vars
  | _ => []

def Fields.slim : Fields → Fields
  | .request fields =>
      .request { fields with vars := filledIn fields.vars, retry := fields.retry.slim }
  | .flow fields => .flow { fields with vars := filledIn fields.vars }
  | fields => fields

def StepHead.rested (head : StepHead) : StepHead := { head with fields := head.fields.rested }

def StepHead.slim (head : StepHead) : StepHead := { head with fields := head.fields.slim }

section Fields

variable (numerals : Numerals)

theorem field_compact_of_mem {fields : Obj} (hnodup : (Record.keys fields).Nodup) {key : String}
    {value : Json} (h : (key, value) ∈ fields) :
    (compact (.obj fields)).field key = kept key value := by
  rw [field_compact hnodup, Record.read_of_mem hnodup h, Option.bind_some]

theorem trimmedOr_kept {key value fallback : String} (htrim : trim value = value)
    (hne : value ≠ "") : trimmedOr numerals (kept key (.str value)) fallback = value := by
  rw [trimmedOr, trimmed_kept, htrim, if_neg hne]

theorem trimmedOr_normal (raw : Option Json) {fallback : String} (htrim : trim fallback = fallback)
    (hne : fallback ≠ "") :
    trim (trimmedOr numerals raw fallback) = trimmedOr numerals raw fallback ∧
      trimmedOr numerals raw fallback ≠ "" := by
  unfold trimmedOr
  split_ifs with h
  · exact ⟨htrim, hne⟩
  · exact ⟨trim_trimmed numerals raw, h⟩

theorem inputs_kept (raw : Option Json) :
    (Json.listOf (kept "inputs" (.arr (((Json.listOf raw).map (inputOf numerals)).map
      StepInput.toJson)))).map (inputOf numerals) = (Json.listOf raw).map (inputOf numerals) := by
  exact listRead_kept "inputs" (fun _ => rfl) fun item =>
    inputOf_compact numerals (trim_trimmed numerals _) (normal_valueOf numerals item)

theorem values_kept (key : String) (raw : Option Json) :
    (Json.listOf (kept key (.arr (((Json.listOf raw).map (valueOf numerals)).map
      NamedValue.toJson)))).map (valueOf numerals) = (Json.listOf raw).map (valueOf numerals) := by
  exact listRead_kept key (fun _ => rfl) fun item => valueOf_compact numerals (normal_valueOf numerals item)

theorem cases_kept (raw : Option Json) :
    (Json.listOf (kept "cases" (.arr (((Json.listOf raw).map (caseOf numerals)).map
      Case.toJson)))).map (caseOf numerals) = (Json.listOf raw).map (caseOf numerals) := by
  exact listRead_kept "cases" (fun _ => rfl) fun item =>
    caseOf_compact numerals (trim_trimmed numerals _) (normal_normalizeConditions numerals _)

theorem checks_operator (raw : Option Json) :
    ∀ check ∈ normalizeAssertions numerals raw, check.operator ≠ "" := by
  intro check hcheck
  obtain ⟨item, -, rfl⟩ := List.mem_map.1 hcheck
  exact operator_toAssertion numerals item

/-- A reader of a saved step finds its fields, slimmed. -/
theorem fieldsOf_kept (source : Json) (kind : Kind) {raw : Json}
    (h : ∀ entry ∈ (fieldsOf numerals source kind).entries, raw.field entry.1 = kept entry.1 entry.2) :
    fieldsOf numerals raw kind = (fieldsOf numerals source kind).slim := by
  cases kind with
  | request =>
      have hretry := retryOf_bounds numerals (source.field "retry")
      simp only [fieldsOf, Fields.entries, List.mem_cons, forall_eq_or_imp, List.not_mem_nil,
        false_imp_iff, implies_true, and_true] at h
      obtain ⟨hrequest, hrequestId, hvars, hinputs, hretries, honFailure⟩ := h
      simp only [fieldsOf, hrequest, hrequestId, hvars, hinputs, hretries, honFailure, Fields.slim,
        trimmed_kept, trim_trimmed, textMap_kept numerals (normalNames_textMap numerals _),
        inputs_kept, retryOf_kept numerals hretry.1 hretry.2.1 hretry.2.2
          (checks_operator numerals _)]
  | setStep =>
      simp only [fieldsOf, Fields.entries, List.mem_singleton, forall_eq] at h
      simp only [fieldsOf, h, values_kept, Fields.slim]
  | ifStep =>
      simp only [fieldsOf, Fields.entries, List.mem_cons, forall_eq_or_imp, List.not_mem_nil,
        false_imp_iff, implies_true, and_true] at h
      obtain ⟨hsource, hstep, hmode, hconditions, hthen, helse⟩ := h
      simp only [fieldsOf, hsource, hstep, hmode, hconditions, hthen, helse, Fields.slim,
        conditionSourceOf_kept, trimmed_kept, trim_trimmed, matchOf_kept,
        normalizeConditions_kept numerals _ (normal_normalizeConditions numerals _)]
  | switch =>
      simp only [fieldsOf, Fields.entries, List.mem_cons, forall_eq_or_imp, List.not_mem_nil,
        false_imp_iff, implies_true, and_true] at h
      obtain ⟨hsource, hstep, hcases, helse⟩ := h
      simp only [fieldsOf, hsource, hstep, hcases, helse, Fields.slim, conditionSourceOf_kept,
        trimmed_kept, trim_trimmed, cases_kept]
  | forEach =>
      simp only [fieldsOf, Fields.entries, List.mem_cons, forall_eq_or_imp, List.not_mem_nil,
        false_imp_iff, implies_true, and_true] at h
      obtain ⟨hstep, hpath, hitem, hindex⟩ := h
      obtain ⟨hitemTrim, hitemNe⟩ := trimmedOr_normal numerals (source.field "as")
        (show trim defaultItemName = defaultItemName by decide) (by decide)
      obtain ⟨hindexTrim, hindexNe⟩ := trimmedOr_normal numerals (source.field "indexAs")
        (show trim defaultIndexName = defaultIndexName by decide) (by decide)
      simp only [fieldsOf, hstep, hpath, hitem, hindex, Fields.slim, trimmed_kept, trim_trimmed,
        trimmedOr_kept numerals hitemTrim hitemNe, trimmedOr_kept numerals hindexTrim hindexNe]
  | repeatStep =>
      simp only [fieldsOf, Fields.entries, List.mem_cons, forall_eq_or_imp, List.not_mem_nil,
        false_imp_iff, implies_true, and_true] at h
      obtain ⟨htimes, hdelay, hindex, hsource, hstep, hmode, htil, honFailure⟩ := h
      obtain ⟨hindexTrim, hindexNe⟩ := trimmedOr_normal numerals (source.field "indexAs")
        (show trim defaultIndexName = defaultIndexName by decide) (by decide)
      have hpasses := whole_bounds numerals (source.field "times")
        (show 1 ≤ maxPasses by decide) (show 1 ≤ defaultPasses by decide) (by decide)
      have hpause := whole_bounds numerals (source.field "delayMs") (Nat.zero_le maxDelayMs)
        (Nat.le_refl 0) (Nat.zero_le _)
      simp only [fieldsOf, htimes, hdelay, hindex, hsource, hstep, hmode, htil, honFailure,
        Fields.slim, conditionSourceOf_kept, trimmed_kept, trim_trimmed, matchOf_kept,
        normalizeConditions_kept numerals _ (normal_normalizeConditions numerals _),
        trimmedOr_kept numerals hindexTrim hindexNe, whole_kept numerals _ _ hpasses.1 hpasses.2,
        whole_kept numerals _ _ hpause.1 hpause.2]
      split_ifs <;> simp
  | parallel =>
      simp only [fieldsOf, Fields.entries, List.mem_cons, forall_eq_or_imp, List.not_mem_nil,
        false_imp_iff, implies_true, and_true] at h
      obtain ⟨hmode, htil, htimeout, honFailure⟩ := h
      have hlimit := whole_bounds numerals (source.field "timeoutMs") (Nat.zero_le maxDelayMs)
        (Nat.le_refl 0) (Nat.zero_le _)
      simp only [fieldsOf, hmode, htil, htimeout, honFailure, Fields.slim, matchOf_kept,
        trimmed_kept, trim_trimmed,
        normalizeConditions_kept numerals _ (normal_normalizeConditions numerals _),
        whole_kept numerals _ _ hlimit.1 hlimit.2]
  | flow =>
      simp only [fieldsOf, Fields.entries, List.mem_cons, forall_eq_or_imp, List.not_mem_nil,
        false_imp_iff, implies_true, and_true] at h
      obtain ⟨hflow, hflowId, hvars, honFailure⟩ := h
      simp only [fieldsOf, hflow, hflowId, hvars, honFailure, Fields.slim, trimmed_kept,
        trim_trimmed, textMap_kept numerals (normalNames_textMap numerals _)]
  | delay =>
      simp only [fieldsOf, Fields.entries, List.mem_singleton, forall_eq] at h
      have hms := whole_bounds numerals (source.field "ms") (Nat.zero_le maxDelayMs)
        (Nat.zero_le defaultDelayMs) (by decide)
      simp only [fieldsOf, h, Fields.slim, whole_kept numerals _ _ hms.1 hms.2]
  | endStep =>
      simp only [fieldsOf, Fields.entries, List.mem_cons, forall_eq_or_imp, List.not_mem_nil,
        false_imp_iff, implies_true, and_true] at h
      obtain ⟨houtcome, hmessage⟩ := h
      simp only [fieldsOf, houtcome, hmessage, Fields.slim, outcomeOf_kept, text_kept]
  | unknown name => rfl

/-! ## The steps -/

/-- The properties of a step, whose value is `StepHead.toJson`. -/
abbrev stepFields (head : StepHead) (inner : List Json) : Obj :=
  [("id", .str head.id), ("kind", .str head.kind.text), ("label", .str head.label),
      ("note", .str head.note)] ++ head.fields.entries ++
    (if head.kind.isContainer then [("steps", .arr inner)] else []) ++ [("next", .str head.next)]

theorem nodup_stepFields (head : StepHead) (inner : List Json) :
    (Record.keys (stepFields head inner)).Nodup := by
  obtain ⟨id, label, note, fields, next⟩ := head
  cases fields <;> simp [Record.keys, StepHead.kind, Fields.kind, Kind.isContainer, Fields.entries]

/-- A head as `normalizeFlow` gives it: the fields of some value, under its kind,
with an id and a target that are trimmed. -/
structure NormalHead (head : StepHead) : Prop where
  fields : ∃ source, head.fields =
    fieldsOf numerals source (.ofText (trimmedOr numerals (source.field "kind") "request"))
  id : trim head.id = head.id
  next : trim head.next = head.next

/-- The head of a saved step is read back, slimmed. -/
theorem headOf_compact {head : StepHead} (h : NormalHead numerals head) (inner : List Json) :
    headOf numerals (compact (head.toJson inner)) = head.slim := by
  obtain ⟨source, hfields⟩ := h.fields
  have hfield : ∀ key value, (key, value) ∈ _ →
      (compact (head.toJson inner)).field key = kept key value :=
    fun _ _ => field_compact_of_mem (nodup_stepFields head inner)
  obtain ⟨hkindTrim, hkindNe⟩ := trimmedOr_normal numerals (source.field "kind")
    (show trim "request" = "request" by decide) (by decide)
  have hkindText : head.kind.text = trimmedOr numerals (source.field "kind") "request" := by
    rw [StepHead.kind, hfields, kind_fieldsOf, kind_ofText_text]
  have hid := hfield "id" (.str head.id) (by simp)
  have hkind := hfield "kind" (.str head.kind.text) (by simp)
  have hlabel := hfield "label" (.str head.label) (by simp)
  have hnote := hfield "note" (.str head.note) (by simp)
  have hnext := hfield "next" (.str head.next) (by simp)
  have hentries : ∀ entry ∈ head.fields.entries,
      (compact (head.toJson inner)).field entry.1 = kept entry.1 entry.2 :=
    fun entry hentry => hfield entry.1 entry.2 (by simp [hentry])
  generalize compact (head.toJson inner) = raw at hid hkind hlabel hnote hnext hentries
  rw [hfields] at hentries
  have hread := fieldsOf_kept numerals source _ hentries
  rw [hkindText] at hkind
  rw [headOf, hid, hkind, hlabel, hnote, hnext, trimmedOr_kept numerals hkindTrim hkindNe, hread,
    trimmed_kept, trimmed_kept, text_kept, text_kept, h.id, h.next, ← hfields]
  rfl

mutual

/-- Steps as `normalizeFlow` gives them: their heads are normal, and only the
containers that are not too deep hold steps. -/
def ShapedStep (depth : Nat) : Step → Prop
  | .node head inner => NormalHead numerals head ∧
      ((head.kind.isContainer && decide (depth < maxNesting)) = false → inner = []) ∧
      ShapedSteps (depth + 1) inner

def ShapedSteps (depth : Nat) : List Step → Prop
  | [] => True
  | step :: rest => ShapedStep depth step ∧ ShapedSteps depth rest

end

theorem shapedSteps_append {depth : Nat} {first second : List Step}
    (hfirst : ShapedSteps numerals depth first) (hsecond : ShapedSteps numerals depth second) :
    ShapedSteps numerals depth (first ++ second) := by
  induction first with
  | nil => exact hsecond
  | cons step rest ih => exact ⟨hfirst.1, ih hfirst.2⟩

theorem normalHead_headOf (raw : Json) : NormalHead numerals (headOf numerals raw) where
  fields := ⟨raw, by rw [headOf]⟩
  id := trim_trimmed numerals _
  next := trim_trimmed numerals _

mutual

theorem shaped_normalizeStep (depth : Nat) : ∀ raw : Json,
    ShapedSteps numerals depth (normalizeStep numerals depth raw).toList
  | .obj fields => by
      have hhead := normalHead_headOf numerals (.obj fields)
      rw [normalizeStep]
      simp only [Option.toList_some]
      generalize headOf numerals (.obj fields) = head at hhead
      refine ⟨⟨hhead, fun h => ?_, ?_⟩, trivial⟩
      · rw [if_neg (by simp [h])]
      · split_ifs
        · exact shaped_stepsField (depth + 1) fields
        · trivial
  | .null | .bool _ | .num _ | .str _ | .arr _ => trivial

theorem shaped_stepsField (depth : Nat) : ∀ fields : List (String × Json),
    ShapedSteps numerals depth (stepsField numerals depth fields)
  | [] => trivial
  | (key, value) :: rest => by
      rw [stepsField]
      split_ifs
      · exact shaped_stepsValue depth value
      · exact shaped_stepsField depth rest

theorem shaped_stepsValue (depth : Nat) : ∀ value : Json,
    ShapedSteps numerals depth (stepsValue numerals depth value)
  | .arr items => shaped_normalizeList depth items
  | .null | .bool _ | .num _ | .str _ | .obj _ => trivial

theorem shaped_normalizeList (depth : Nat) : ∀ items : List Json,
    ShapedSteps numerals depth (normalizeList numerals depth items)
  | [] => trivial
  | item :: rest =>
      shapedSteps_append numerals (shaped_normalizeStep depth item) (shaped_normalizeList depth rest)

end

mutual

theorem shaped_uniqueStep (depth : Nat) (taken : List String) : ∀ step : Step,
    ShapedStep numerals depth step → ShapedStep numerals depth (uniqueStep taken step).1
  | .node head inner, ⟨hhead, hinner, hrest⟩ => by
      have hnames : Nameable head :=
        { trim_id := hhead.id
          kind_ne_empty := by
            obtain ⟨source, hfields⟩ := hhead.fields
            rw [StepHead.kind, hfields, kind_fieldsOf, kind_ofText_text]
            exact (trimmedOr_normal numerals _ (by decide) (by decide)).2
          trim_kind := by
            obtain ⟨source, hfields⟩ := hhead.fields
            rw [StepHead.kind, hfields, kind_fieldsOf, kind_ofText_text]
            exact (trimmedOr_normal numerals _ (by decide) (by decide)).1 }
      have hid := (plainId_of_nameable hnames taken).trim_eq
      have hnew : ∀ id, trim id = id → NormalHead numerals { head with id := id } :=
        fun id h => ⟨hhead.fields, h, hhead.next⟩
      rw [uniqueStep]
      simp only
      generalize uniqueId (if head.id = "" then head.kind.text else head.id) taken = id at hid
      split_ifs with hcontainer
      · refine ⟨hnew _ hid, fun h => ?_, shaped_uniqueSteps (depth + 1) _ inner hrest⟩
        rw [hinner h]
        rfl
      · exact ⟨hnew _ hid, hinner, hrest⟩

theorem shaped_uniqueSteps (depth : Nat) (taken : List String) : ∀ steps : List Step,
    ShapedSteps numerals depth steps → ShapedSteps numerals depth (uniqueSteps taken steps).1
  | [], _ => trivial
  | step :: rest, ⟨hstep, hrest⟩ =>
      ⟨shaped_uniqueStep depth taken step hstep, shaped_uniqueSteps depth _ rest hrest⟩

end

theorem stepsField_eq (depth : Nat) (fields : Obj) :
    stepsField numerals depth fields =
      ((Record.read fields "steps").map (stepsValue numerals depth)).getD [] := by
  induction fields with
  | nil => rfl
  | cons entry rest ih =>
      obtain ⟨key, value⟩ := entry
      rw [stepsField, Record.read_cons]
      by_cases h : key = "steps"
      · rw [if_pos h, if_pos h]
        rfl
      · rw [if_neg h, if_neg h, ih]

theorem kind_slim (head : StepHead) : head.slim.kind = head.kind := by
  obtain ⟨id, label, note, fields, next⟩ := head
  cases fields <;> rfl

mutual

theorem normalizeStep_compact (depth : Nat) : ∀ step : Step, ShapedStep numerals depth step →
    normalizeStep numerals depth (compact (stepJson step)) =
      some (Outline.mapHead StepHead.slim step)
  | .node head inner, ⟨hhead, hinner, hrest⟩ => by
      have hread := headOf_compact numerals hhead (stepItems inner)
      have hsteps := normalizeList_compact (depth + 1) inner hrest
      have hfields := read_compactFields (nodup_stepFields head (stepItems inner)) "steps"
      rw [stepJson, Outline.mapHead]
      simp only [StepHead.toJson, compact] at hread ⊢
      rw [normalizeStep, hread, kind_slim, stepsField_eq, hfields]
      simp only [Option.some.injEq, Outline.node.injEq, true_and]
      by_cases hopen : (head.kind.isContainer && decide (depth < maxNesting)) = true
      · have hcontainer := (Bool.and_eq_true_iff.1 hopen).1
        have hlisted : Record.read _ "steps" = some (Json.arr (stepItems inner)) :=
          Record.read_of_mem (nodup_stepFields head (stepItems inner)) (by simp [hcontainer])
        rw [if_pos hopen, hlisted, Option.bind_some, kept_arr]
        split_ifs with hnil
        · rw [hnil] at hsteps
          exact hsteps
        · rw [Option.map_some, Option.getD_some, stepsValue, ← compactItems_eq, hsteps]
      · rw [if_neg hopen, hinner (by simpa using hopen)]
        rfl

theorem normalizeList_compact (depth : Nat) : ∀ steps : List Step,
    ShapedSteps numerals depth steps →
    normalizeList numerals depth (compactItems (stepItems steps)) =
      Outline.mapHeads StepHead.slim steps
  | [], _ => rfl
  | step :: rest, ⟨hstep, hrest⟩ => by
      rw [stepItems, compactItems, normalizeList, normalizeStep_compact depth step hstep,
        normalizeList_compact depth rest hrest]
      rfl

end

/-! ## The ids -/

theorem allStepIds_node (head : StepHead) (inner : List Step) :
    allStepIds [.node head inner] =
      head.id :: if head.kind.isContainer then allStepIds inner else [] := by
  by_cases h : head.kind.isContainer <;>
    simp [allStepIds_eq, Outline.flatten, Outline.beneath, opensInner, h]

mutual

/-- Ids that are plain and all different stay as they are. -/
theorem uniqueStep_of_plain (taken : List String) : ∀ step : Step,
    (∀ id ∈ allStepIds [step], PlainId id) → (taken ++ allStepIds [step]).Nodup →
      uniqueStep taken step = (step, taken ++ allStepIds [step])
  | .node head inner, hplain, hnodup => by
      rw [allStepIds_node] at hplain hnodup ⊢
      have hhead : PlainId head.id := hplain head.id (by simp)
      have hfree : head.id ∉ taken := fun h => List.disjoint_of_nodup_append hnodup h (by simp)
      have hid : uniqueId (if head.id = "" then head.kind.text else head.id) taken = head.id := by
        rw [if_neg hhead.ne_empty, uniqueId_of_plain hhead hfree]
      rw [uniqueStep]
      simp only [hid]
      split_ifs with hcontainer
      · have hinner := uniqueSteps_of_plain (taken ++ [head.id]) inner
          (fun id h => hplain id (by simp [hcontainer, h]))
          (by simpa [hcontainer] using hnodup)
        rw [hinner]
        simp
      · simp

theorem uniqueSteps_of_plain (taken : List String) : ∀ steps : List Step,
    (∀ id ∈ allStepIds steps, PlainId id) → (taken ++ allStepIds steps).Nodup →
      uniqueSteps taken steps = (steps, taken ++ allStepIds steps)
  | [], _, _ => by simp [uniqueSteps, allStepIds_eq, Outline.flatten]
  | step :: rest, hplain, hnodup => by
      rw [allStepIds_cons] at hplain hnodup ⊢
      rw [← List.append_assoc] at hnodup
      have hstep := uniqueStep_of_plain taken step (fun id h => hplain id (by simp [h]))
        (List.nodup_append.1 hnodup).1
      have hrest := uniqueSteps_of_plain (taken ++ allStepIds [step]) rest
        (fun id h => hplain id (by simp [h])) hnodup
      rw [uniqueSteps]
      simp only [hstep, hrest, List.append_assoc]

end

mutual

theorem allStepIds_mapHead : ∀ step : Step,
    allStepIds [Outline.mapHead StepHead.slim step] = allStepIds [step]
  | .node head inner => by
      rw [Outline.mapHead, allStepIds_node, allStepIds_node, kind_slim, allStepIds_mapHeads inner]
      rfl

theorem allStepIds_mapHeads : ∀ steps : List Step,
    allStepIds (Outline.mapHeads StepHead.slim steps) = allStepIds steps
  | [] => rfl
  | step :: rest => by
      rw [Outline.mapHeads, allStepIds_cons, allStepIds_mapHead step, allStepIds_mapHeads rest,
        ← allStepIds_cons]

end

/-! ## The whole flow -/

theorem shaped_normalizeFlow (raw : Json) :
    ShapedSteps numerals 0 (normalizeFlow numerals raw).steps := by
  unfold normalizeFlow withUniqueIds
  apply shaped_uniqueSteps
  cases raw with
  | obj fields => exact shaped_stepsField numerals 0 fields
  | _ => trivial

def Flow.slim (flow : Flow) : Flow :=
  { flow with steps := Outline.mapHeads StepHead.slim flow.steps }

theorem normalizeFlow_obj (fields : Obj) :
    normalizeFlow numerals (.obj fields) =
      { id := trimmed numerals ((Json.obj fields).field "id")
        name := text numerals ((Json.obj fields).field "name")
        description := text numerals ((Json.obj fields).field "description")
        maxSends := whole numerals ((Json.obj fields).field "maxSends") 1 maxSendsCap defaultMaxSends
        vars := (Json.listOf ((Json.obj fields).field "variables")).map (normalizeDeclared numerals)
        outputs := (Json.listOf ((Json.obj fields).field "outputs")).map (valueOf numerals)
        steps := withUniqueIds (stepsField numerals 0 fields) } := rfl

theorem declared_kept (raw : Option Json) :
    (Json.listOf (kept "variables" (.arr (((Json.listOf raw).map (normalizeDeclared numerals)).map
      Declared.toJson)))).map (normalizeDeclared numerals) =
      (Json.listOf raw).map (normalizeDeclared numerals) := by
  exact listRead_kept "variables" (fun _ => rfl) (normalizeDeclared_compact numerals)

theorem withUniqueIds_slim (raw : Json) :
    withUniqueIds (Outline.mapHeads StepHead.slim (normalizeFlow numerals raw).steps) =
      Outline.mapHeads StepHead.slim (normalizeFlow numerals raw).steps := by
  unfold withUniqueIds
  rw [uniqueSteps_of_plain []]
  · rw [allStepIds_mapHeads]
    exact fun id => plainId_of_mem_allStepIds numerals
  · rw [allStepIds_mapHeads]
    exact nodup_allStepIds numerals raw

/-- The fields of a flow as `normalizeFlow` gives them. -/
structure NormalFlow (flow : Flow) : Prop where
  id : trim flow.id = flow.id
  maxSends : 1 ≤ flow.maxSends ∧ flow.maxSends ≤ maxSendsCap
  vars : ∃ raw, flow.vars = (Json.listOf raw).map (normalizeDeclared numerals)
  outputs : ∃ raw, flow.outputs = (Json.listOf raw).map (valueOf numerals)

theorem normal_normalizeFlow (raw : Json) : NormalFlow numerals (normalizeFlow numerals raw) where
  id := trim_trimmed numerals _
  maxSends := whole_bounds numerals _ (by decide) (by decide) (by decide)
  vars := ⟨_, rfl⟩
  outputs := ⟨_, rfl⟩

theorem normalizeFlow_compact {flow : Flow} (h : NormalFlow numerals flow)
    (hlist : normalizeList numerals 0 (compactItems (stepItems flow.steps)) =
      Outline.mapHeads StepHead.slim flow.steps)
    (hunique : withUniqueIds (Outline.mapHeads StepHead.slim flow.steps) =
      Outline.mapHeads StepHead.slim flow.steps) :
    normalizeFlow numerals (compact flow.toJson) = flow.slim := by
  let fields : Obj := [("id", .str flow.id), ("name", .str flow.name),
    ("description", .str flow.description), ("maxSends", .num flow.maxSends),
    ("variables", .arr (flow.vars.map Declared.toJson)),
    ("outputs", .arr (flow.outputs.map NamedValue.toJson)), ("steps", .arr (stepItems flow.steps))]
  have hnodup : (Record.keys fields).Nodup := by simp [fields, Record.keys]
  have hfield : ∀ key value, (key, value) ∈ fields →
      (Json.obj (compactFields fields)).field key = kept key value :=
    fun key value => field_compact_of_mem hnodup
  have hlisted : ("steps", Json.arr (stepItems flow.steps)) ∈ fields := by simp [fields]
  have hsteps : stepsField numerals 0 (compactFields fields) =
      Outline.mapHeads StepHead.slim flow.steps := by
    rw [stepsField_eq, read_compactFields hnodup, Record.read_of_mem hnodup hlisted,
      Option.bind_some, kept_arr]
    split_ifs with hnil
    · rw [hnil] at hlist
      exact hlist
    · rw [Option.map_some, Option.getD_some, stepsValue, ← compactItems_eq, hlist]
  obtain ⟨vars, hvars⟩ := h.vars
  obtain ⟨outputs, houtputs⟩ := h.outputs
  change normalizeFlow numerals (.obj (compactFields fields)) = flow.slim
  rw [normalizeFlow_obj, hsteps, hunique,
    hfield "id" (.str flow.id) (by simp [fields]), hfield "name" (.str flow.name) (by simp [fields]),
    hfield "description" (.str flow.description) (by simp [fields]),
    hfield "maxSends" (.num flow.maxSends) (by simp [fields]),
    hfield "variables" (.arr (flow.vars.map Declared.toJson)) (by simp [fields]),
    hfield "outputs" (.arr (flow.outputs.map NamedValue.toJson)) (by simp [fields]),
    trimmed_kept, text_kept, text_kept, whole_kept numerals _ _ h.maxSends.1 h.maxSends.2, h.id,
    hvars, declared_kept, houtputs, values_kept, ← hvars, ← houtputs]
  rfl

theorem normalizeFlow_compactFlow (raw : Json) :
    normalizeFlow numerals (compactFlow numerals raw) = (normalizeFlow numerals raw).slim :=
  normalizeFlow_compact numerals (normal_normalizeFlow numerals raw)
    (normalizeList_compact numerals 0 _ (shaped_normalizeFlow numerals raw))
    (withUniqueIds_slim numerals raw)

theorem filledIn_eq_iff (vars : Record String String) :
    filledIn vars = vars ↔ ∀ entry ∈ vars, entry.2 ≠ "" := by
  rw [filledIn, List.filter_eq_self]
  simp

/-- A slimmed step says the same exactly when it passes on no empty text. -/
theorem rested_slim_iff (head : StepHead) :
    head.slim.rested = head.rested ↔ ∀ entry ∈ head.fields.vars, entry.2 ≠ "" := by
  have hretry : ∀ retry : Retry, retry.slim.slim = retry.slim := by
    intro retry
    unfold Retry.slim
    split_ifs <;> simp_all
  rw [← filledIn_eq_iff]
  obtain ⟨id, label, note, fields, next⟩ := head
  cases fields with
  | request fields =>
      obtain ⟨request, requestId, vars, inputs, retry, onFailure⟩ := fields
      simp [StepHead.slim, StepHead.rested, Fields.slim, Fields.rested, Fields.vars, hretry]
  | flow fields =>
      obtain ⟨flow, flowId, vars, onFailure⟩ := fields
      simp [StepHead.slim, StepHead.rested, Fields.slim, Fields.rested, Fields.vars]
  | _ => simp [StepHead.slim, StepHead.rested, Fields.slim, Fields.rested, Fields.vars, filledIn]

/-- A flow without the delays of retries that never retry. -/
def Flow.rested (flow : Flow) : Flow :=
  { flow with steps := Outline.mapHeads StepHead.rested flow.steps }

end Fields

end Gostman.Flows
