import Gostman.Openapi.Same
/-!
# A document compared with itself

Everything but the schemas is the same on both sides, so that what `Compare`
reports is what the walks through the schemas of the document show.
-/

namespace Gostman.Openapi

open Gostman.Lib

/-! ## The schemas of a document -/

abbrev Task := Value × Direction

def contentTasks (content : Fields) (way : Direction) : List Task :=
  (sortedKeys content).map fun media => ((Value.lookup content media).field "schema", way)

def parameterTasks (root : Value) (item operation : Fields) : List Task :=
  let found := parameters root item operation
  (sortedKeys found).map fun key => (parameterSchema ((found.read key).getD []), .asRequest)

def bodyTasks (root : Value) (operation : Fields) : List Task :=
  match bodyOf root operation with
  | none => []
  | some (content, _) => contentTasks content .asRequest

def responseTasks (root : Value) (operation : Fields) : List Task :=
  (sortedKeys (responsesOf operation)).flatMap fun code =>
    contentTasks (responseContent root (Value.lookup (responsesOf operation) code)) .asResponse

def operationTasks (root : Value) (item operation : Fields) : List Task :=
  parameterTasks root item operation ++ bodyTasks root operation ++ responseTasks root operation

def pathTasks (root : Value) (item : Fields) : List Task :=
  methods.flatMap fun method =>
    match resolved root (Value.lookup item method) with
    | none => []
    | some operation => operationTasks root item operation

/-- The schemas of a document, in the order in which they are compared. -/
def tasks (root : Value) : List Task :=
  (sortedKeys (pathsOf root)).flatMap fun path =>
    pathTasks root ((resolved root (Value.lookup (pathsOf root) path)).getD [])

def meetTask (cancelled : Nat → Bool) (root : Value) (task : Task) (b : Budget) : List Meeting × Budget :=
  meet cancelled root task.2 (maxSchemaDepth + 1) task.1 b

/-- The schemas that are met when a document is compared with itself, each
viewed twice with what is left of the budget. -/
def meetings (cancelled : Nat → Bool) (root : Value) : List Meeting :=
  (each (meetTask cancelled root) (tasks root) {}).1

/-! ## Following the walks -/

section

variable {cancelled : Nat → Bool} {root : Value}

/-- A part of the comparison follows the walks through these schemas. -/
def Does (cancelled : Nat → Bool) (root : Value) (f : Comparison → Comparison) (todo : List Task) : Prop :=
  ∀ c w, Tied c.budget w →
    Tied (f c).budget (each (meetTask cancelled root) todo w).2 ∧
      ((f c).report.changes = [] ↔ c.report.changes = [] ∧
        ∀ meeting ∈ (each (meetTask cancelled root) todo w).1, meeting.Steady)

theorem Does.nothing {f : Comparison → Comparison}
    (h : ∀ c, (f c).budget = c.budget ∧ (f c).report = c.report) : Does cancelled root f [] := by
  intro c w htied
  rw [(h c).1, (h c).2]
  exact ⟨htied, by simp [each]⟩

theorem Does.comp {f g : Comparison → Comparison} {first second : List Task}
    (hf : Does cancelled root f first) (hg : Does cancelled root g second) :
    Does cancelled root (fun c => g (f c)) (first ++ second) := by
  intro c w htied
  obtain ⟨hbudget, hchanges⟩ := hf c w htied
  obtain ⟨hbudget', hchanges'⟩ := hg (f c) _ hbudget
  rw [each_append]
  refine ⟨hbudget', ?_⟩
  rw [hchanges', hchanges, List.forall_mem_append, and_assoc]

theorem Does.foldl {α : Type} {f : Comparison → α → Comparison} {todo : α → List Task} {items : List α}
    (h : ∀ item ∈ items, Does cancelled root (fun c => f c item) (todo item)) :
    Does cancelled root (fun c => items.foldl f c) (items.flatMap todo) := by
  induction items with
  | nil => exact .nothing fun _ => ⟨rfl, rfl⟩
  | cons item rest ih =>
    exact (h item (List.mem_cons_self ..)).comp
      (ih fun other hother => h other (List.mem_cons_of_mem _ hother))

theorem add_changes (c : Comparison) (reported : Reported) : (c.add reported).report.changes ≠ [] := by
  have hcount : ∀ report : Report, (report.count reported.severity).changes = report.changes := by
    intro report
    cases reported.severity <;> rfl
  unfold Comparison.add
  simp only [hcount, Report.append]
  split_ifs with hfull
  · simp
  · intro hempty
    rw [hempty] at hfull
    exact hfull (by decide)

theorem addAll_spec (c : Comparison) (reports : List Reported) :
    (c.addAll reports).budget = c.budget ∧
      ((c.addAll reports).report.changes = [] ↔ c.report.changes = [] ∧ reports = []) := by
  unfold Comparison.addAll
  induction reports generalizing c with
  | nil => simp
  | cons reported rest ih =>
    obtain ⟨hbudget, hchanges⟩ := ih (c.add reported)
    refine ⟨hbudget, ?_⟩
    rw [List.foldl_cons, hchanges]
    simp [add_changes]

/-- Comparing a schema with itself follows its walk. -/
theorem does_schemas (schema : Value) (way : Direction) (place : String) :
    Does cancelled root (fun c => c.schemas ⟨root, root, cancelled⟩ schema schema way place)
      [(schema, way)] := by
  intro c w htied
  have hself := compareSchemas_self cancelled root way (maxSchemaDepth + 1) schema place htied
  obtain ⟨hsame, hchanges⟩ := addAll_spec
    { c with budget := (schemas ⟨root, root, cancelled⟩ schema schema way place c.budget).2 }
    (schemas ⟨root, root, cancelled⟩ schema schema way place c.budget).1
  have hbudget : (c.schemas ⟨root, root, cancelled⟩ schema schema way place).budget =
      (schemas ⟨root, root, cancelled⟩ schema schema way place c.budget).2 := hsame
  constructor
  · simp only [hbudget, each]
    exact hself.1
  · refine hchanges.trans (and_congr_right fun _ => hself.2.trans ?_)
    simp [each, meetTask]

/-! ## The parts of a document -/

theorem does_compareContent (content : Fields) (way : Direction) (place : String) (missing : Message)
    (missingPlace : String → String) :
    Does cancelled root
      (compareContent ⟨root, root, cancelled⟩ content content way place missing missingPlace)
      (contentTasks content way) := by
  unfold compareContent contentTasks
  rw [← List.flatMap_singleton' ((sortedKeys content).map _), List.flatMap_map]
  apply Does.foldl
  intro media hmedia
  obtain ⟨next, hnext⟩ := Option.isSome_iff_exists.1 (mem_sortedKeys.1 hmedia)
  have hlookup : Value.lookup content media = next := by simp [Value.lookup, hnext]
  simp only [hnext, hlookup]
  exact does_schemas _ way place

theorem foldl_filter_self {α : Type} (record : Record String α) (f : Comparison → String → Comparison)
    (c : Comparison) :
    ((sortedKeys record).filter fun key => !record.has key).foldl f c = c := by
  have hnone : (sortedKeys record).filter (fun key => !record.has key) = [] := by
    rw [List.filter_eq_nil_iff]
    intro key hkey
    simp [mem_sortedKeys.1 hkey]
  rw [hnone]
  rfl

theorem does_compareParameters (found : Record String Fields) :
    Does cancelled root (compareParameters ⟨root, root, cancelled⟩ found found)
      ((sortedKeys found).map fun key => (parameterSchema ((found.read key).getD []), .asRequest)) := by
  unfold compareParameters
  simp only [foldl_filter_self]
  rw [← List.flatMap_singleton' ((sortedKeys found).map _), List.flatMap_map]
  apply Does.foldl
  intro key hkey
  obtain ⟨parameter, hparameter⟩ := Option.isSome_iff_exists.1 (mem_sortedKeys.1 hkey)
  unfold compareParameter
  simp only [hparameter, Option.getD_some, and_not_self, not_and_self, if_false]
  exact does_schemas _ _ _

theorem does_compareBody (operation : Fields) :
    Does cancelled root (compareBody ⟨root, root, cancelled⟩ operation operation)
      (bodyTasks root operation) := by
  unfold compareBody bodyTasks
  cases hbody : bodyOf root operation with
  | none =>
    exact .nothing fun _ => ⟨rfl, rfl⟩
  | some body =>
    simp only [and_not_self, if_false, foldl_filter_self]
    exact does_compareContent _ _ _ _ _

theorem does_compareResponses (operation : Fields) :
    Does cancelled root (compareResponses ⟨root, root, cancelled⟩ operation operation)
      (responseTasks root operation) := by
  unfold compareResponses responseTasks
  simp only [foldl_filter_self]
  apply Does.foldl
  intro code hcode
  obtain ⟨next, hnext⟩ := Option.isSome_iff_exists.1 (mem_sortedKeys.1 hcode)
  have hlookup : Value.lookup (responsesOf operation) code = next := by simp [Value.lookup, hnext]
  unfold compareResponse
  simp only [hnext, hlookup]
  exact does_compareContent _ _ _ _ _

theorem does_compareOperation (item operation : Fields) :
    Does cancelled root (compareOperation ⟨root, root, cancelled⟩ item item operation operation)
      (operationTasks root item operation) := by
  have hsecurity : ∀ c, compareSecurity ⟨root, root, cancelled⟩ operation operation c = c := by
    intro c
    simp [compareSecurity]
  unfold compareOperation operationTasks
  simp only [and_not_self, if_false, hsecurity]
  exact ((does_compareParameters _).comp (does_compareBody operation)).comp
    (does_compareResponses operation)

theorem does_comparePath (path : String) (item : Fields) :
    Does cancelled root (comparePath ⟨root, root, cancelled⟩ path item item) (pathTasks root item) := by
  unfold comparePath pathTasks
  apply Does.foldl
  intro method _
  have hset : Does cancelled root (fun c => { c with method := method.toUpper, path }) [] :=
    .nothing fun _ => ⟨rfl, rfl⟩
  cases hoperation : resolved root (Value.lookup item method) with
  | none =>
    exact hset
  | some operation =>
    exact hset.comp (does_compareOperation item operation)

theorem does_comparePaths (cancelled : Nat → Bool) (root : Value) :
    Does cancelled root (comparePaths ⟨root, root, cancelled⟩) (tasks root) := by
  unfold comparePaths tasks
  simp only [foldl_filter_self]
  apply Does.foldl
  intro path hpath
  obtain ⟨item, hitem⟩ := Option.isSome_iff_exists.1 (mem_sortedKeys.1 hpath)
  have hlookup : Value.lookup (pathsOf root) path = item := by simp [Value.lookup, hitem]
  simp only [hitem, hlookup]
  exact does_comparePath path _

theorem foldl_stays {names : List String} {f : Comparison → String → Comparison} {c : Comparison}
    (h : ∀ name ∈ names, f c name = c) : names.foldl f c = c := by
  induction names with
  | nil => rfl
  | cons name rest ih =>
    rw [List.foldl_cons, h name List.mem_cons_self]
    exact ih fun other hother => h other (List.mem_cons_of_mem _ hother)

theorem compareSecuritySchemes_self (c : Comparison) :
    compareSecuritySchemes ⟨root, root, cancelled⟩ c = c := by
  unfold compareSecuritySchemes
  simp only [foldl_filter_self]
  apply foldl_stays
  intro name hname
  obtain ⟨next, hnext⟩ := Option.isSome_iff_exists.1 (mem_sortedKeys.1 hname)
  have hlookup : Value.lookup (schemesOf root) name = next := by simp [Value.lookup, hnext]
  simp only [hnext, hlookup, ne_eq, not_true_eq_false, if_false]

/-! ## The whole -/

theorem changes_eq_nil_iff (cancelled : Nat → Bool) (root : Value) :
    (compare ⟨root, root, cancelled⟩).changes = [] ↔
      ∀ meeting ∈ meetings cancelled root, meeting.Steady := by
  have hinfo : compareInfo ⟨root, root, cancelled⟩ {} = {} := by simp [compareInfo]
  have hpaths := (does_comparePaths cancelled root {} {} (.refl _)).2
  unfold compare
  simp only [hinfo, compareSecuritySchemes_self]
  have hsort : ∀ changes, sortChanges changes = [] ↔ changes = [] := by
    intro changes
    rw [← List.length_eq_zero_iff, ← List.length_eq_zero_iff, sortChanges, List.length_mergeSort]
  rw [hsort, hpaths]
  simp [meetings]

end

/-! ## The schemas that a document compares -/

/-- What is compared when a document is compared with itself: for each schema the objects
that it is composed of. -/
def walked (root : Value) : List (List Fields) :=
  (each (fun task : Task => walkFrom root task.2 (maxSchemaDepth + 1) task.1) (tasks root) []).1

def dayReference : Value :=
  .object [("$ref", .text "#/components/schemas/Day")]

/-- A document with a schema that leads back to itself, with a limit and with items. -/
def calendarRoot : Value :=
  .object [("openapi", .text "3.0.3"),
    ("paths", .object [("/days", .object [("get", .object
      [("parameters", .list [.object [("in", .text "query"), ("name", .text "day"),
        ("schema", dayReference)]])])])]),
    ("components", .object [("schemas", .object [("Day", .object [("type", .text "object"),
      ("properties", .object [("next", dayReference),
        ("hours", .object [("type", .text "array"), ("maxItems", .int 24),
          ("items", .object [("type", .text "integer")])])])])])])]

def datePart : Value :=
  .object [("type", .text "string"), ("format", .text "date")]

def allOf (parts : List Value) : Value :=
  .object [("allOf", .list parts)]

/-- A schema of many parts, of which only the last says something. -/
def manyParts (count : Nat) : Value :=
  allOf (List.replicate count (.object []) ++ [datePart])

def daysRoot (schema : Value) : Value :=
  .object [("openapi", .text "3.0.3"), ("paths", .object [("/days", .object [("get", .object
    [("parameters", .list [.object [("in", .text "query"), ("name", .text "day"),
      ("schema", schema)]])])])])]

def manyPartsRoot (count : Nat) : Value :=
  daysRoot (manyParts count)

def spent (visits : Nat) : Budget :=
  { visits }

theorem spend_live {n : Nat} (h : n < maxVisits) : (spent n).spend live = (true, spent (n + 1)) := by
  have hle : ¬ maxVisits < n + 1 := by omega
  simp [Budget.spend, spent, live, hle]

theorem spend_live_last : ((spent maxVisits).spend live).2.exhausted = true := by
  simp [Budget.spend, spent]

/-- An empty schema costs a visit and shows nothing. -/
theorem collect_empty (root : Value) (levels : Nat) (b : Budget) :
    collect live root (levels + 1) (.object []) ({}, b) = ({}, (b.spend live).2) := by
  have hresolve : resolve root (.object []) = .object [] := rfl
  unfold collect
  rw [if_neg (by simp [Value.field, Value.lookup, Value.objectOf, Value.textOf])]
  rw [hresolve]
  rcases b.spend live with ⟨paid, b'⟩
  cases paid <;> rfl

theorem collectParts_append (root : Value) (levels : Nat) (first second : List Value)
    (state : View × Budget) :
    collectParts live root levels (first ++ second) state =
      collectParts live root levels second (collectParts live root levels first state) :=
  List.foldl_append

theorem collectParts_singleton (root : Value) (levels : Nat) (part : Value) (state : View × Budget) :
    collectParts live root levels [part] state = collect live root levels part state := rfl

theorem collectParts_replicate (root : Value) (levels count : Nat) (b : Budget) :
    collectParts live root (levels + 1) (List.replicate (count + 1) (.object [])) ({}, b) =
      collectParts live root (levels + 1) (List.replicate count (.object [])) ({}, (b.spend live).2) := by
  rw [← collect_empty root levels b]
  rfl

/-- Empty schemas cost a visit each while there are any left. -/
theorem collectParts_empty (root : Value) (levels count : Nat) {n : Nat} (h : n + count ≤ maxVisits) :
    collectParts live root (levels + 1) (List.replicate count (.object [])) ({}, spent n) =
      ({}, spent (n + count)) := by
  induction count generalizing n with
  | zero => rfl
  | succ count ih =>
    rw [collectParts_replicate, spend_live (by omega), ih (by omega), Nat.add_right_comm, Nat.add_assoc]

theorem collectParts_exhausted (root : Value) (levels count : Nat) {b : Budget} (h : b.exhausted = true) :
    collectParts live root (levels + 1) (List.replicate count (.object [])) ({}, b) = ({}, b) := by
  induction count with
  | zero => rfl
  | succ count ih => rw [collectParts_replicate, spend_of_exhausted h, ih]

/-- After the last visit nothing more is seen. -/
theorem collectParts_ended (root : Value) (levels : Nat) {count n : Nat} (hle : n ≤ maxVisits)
    (h : maxVisits < n + count) :
    ∃ b, b.exhausted = true ∧
      collectParts live root (levels + 1) (List.replicate count (.object [])) ({}, spent n) = ({}, b) := by
  obtain ⟨rest, rfl⟩ : ∃ rest, count = maxVisits - n + (rest + 1) := ⟨count - (maxVisits - n) - 1, by omega⟩
  refine ⟨((spent maxVisits).spend live).2, spend_live_last, ?_⟩
  rw [List.replicate_add, collectParts_append, collectParts_empty root levels _ (by omega),
    Nat.add_sub_cancel' hle, collectParts_replicate, collectParts_exhausted root levels _ spend_live_last]

theorem collect_allOf (root : Value) (levels : Nat) (parts : List Value) {n : Nat} (h : n < maxVisits) :
    collect live root (levels + 1) (allOf parts) ({}, spent n) =
      ((collectParts live root levels parts ({}, spent (n + 1))).1.compose [("allOf", .list parts)],
        (collectParts live root levels parts ({}, spent (n + 1))).2) := by
  have hresolve : resolve root (allOf parts) = allOf parts := rfl
  have hreference : ((allOf parts).field "$ref").textOf = "" := rfl
  unfold collect
  rw [if_neg (by rw [hreference]; simp), hresolve, spend_live h]
  rfl

/-- The last part is seen by the budget that gets to it. -/
theorem collect_datePart (root : Value) (levels : Nat) (b : Budget) :
    (collect live root (levels + 1) datePart ({}, b)).1.format =
      if (b.spend live).1 then "date" else "" := by
  have hresolve : resolve root datePart = datePart := rfl
  have hreference : (datePart.field "$ref").textOf = "" := rfl
  unfold collect
  rw [if_neg (by rw [hreference]; simp), hresolve]
  rcases b.spend live with ⟨paid, b'⟩
  cases paid <;> rfl

theorem collect_datePart_budget (root : Value) (levels : Nat) (b : Budget) :
    (collect live root (levels + 1) datePart ({}, b)).2 = (b.spend live).2 := by
  have hresolve : resolve root datePart = datePart := rfl
  have hreference : (datePart.field "$ref").textOf = "" := rfl
  unfold collect
  rw [if_neg (by rw [hreference]; simp), hresolve]
  rcases b.spend live with ⟨paid, b'⟩
  cases paid <;> rfl

/-- A view of the many parts, from what their empty ones leave. -/
theorem view_manyParts (root : Value) {count n : Nat} (h : n < maxVisits) {b : Budget}
    (hparts : collectParts live root 32 (List.replicate count (.object [])) ({}, spent (n + 1)) = ({}, b)) :
    (view live root (manyParts count) (spent n)).1.format = (if (b.spend live).1 then "date" else "") ∧
      (view live root (manyParts count) (spent n)).2 = (b.spend live).2 := by
  have hcollect := collect_allOf root 32 (List.replicate count (.object []) ++ [datePart]) h
  rw [collectParts_append, hparts, collectParts_singleton] at hcollect
  unfold view manyParts maxSchemaDepth
  rw [hcollect]
  exact ⟨collect_datePart root 31 b, collect_datePart_budget root 31 b⟩

theorem tasks_daysRoot (parts : List Value) : tasks (daysRoot (allOf parts)) = [(allOf parts, .asRequest)] := by
  have hplain : ∀ root : Value, ∀ fields : Fields, fields.read "$ref" = none →
      resolved root (.object fields) = some fields := by
    intro root fields hread
    simp [resolved, resolve, maxSchemaDepth, resolveHops, Value.field, Value.lookup, Value.objectOf, hread,
      Value.textOf]
  have hnull : ∀ root : Value, resolved root .null = none := by
    intro root
    rfl
  simp [tasks, daysRoot, pathsOf, pathTasks, methods, operationTasks, parameterTasks, parameters, bodyTasks,
    bodyOf, responseTasks, responsesOf, parameterSchema, allOf, sortedKeys, hplain, hnull, Value.field,
    Value.lookup, Value.objectOf, Value.listOf, Value.isNil, Value.textOf, sprint, Record.read, Record.put,
    Record.keys]

theorem meet_manyParts (root : Value) (way : Direction) {count : Nat} {one two : View × Budget}
    (hone : view live root (manyParts count) (spent 1) = one)
    (htwo : view live root (manyParts count) one.2 = two) (hend : two.2.exhausted = true) :
    (meet live root way (maxSchemaDepth + 1) (manyParts count) {}).1 = [⟨one.1, two.1, true⟩] := by
  have hpaid : ({} : Budget).spend live = (true, spent 1) := spend_live (by decide)
  have hreference : ((manyParts count).field "$ref").textOf = "" := rfl
  have hfirst : ∀ depth, (spent 1).firstVisit (manyParts count) (manyParts count) way depth =
      (true, spent 1) := by
    intro depth
    simp [Budget.firstVisit, hreference]
  rw [meet]
  simp [hpaid, hfirst, hone, htwo, hend]

/-- Where the budget gets to the last part once and not twice, the format is
said to have changed. -/
theorem not_steady_manyParts {count : Nat} (honce : count + 4 ≤ maxVisits)
    (htwice : maxVisits < count + 4 + count) :
    ¬ ∀ meeting ∈ meetings live (manyPartsRoot count), meeting.Steady := by
  intro hsteady
  let root := manyPartsRoot count
  obtain ⟨hdate, hleft⟩ := view_manyParts root (show 1 < maxVisits by decide)
    (collectParts_empty root 31 count (show 1 + 1 + count ≤ maxVisits by omega))
  rw [spend_live (by omega)] at hdate hleft
  obtain ⟨b, hended, hparts⟩ := collectParts_ended root 31
    (show 1 + 1 + count + 1 + 1 ≤ maxVisits by omega)
    (show maxVisits < 1 + 1 + count + 1 + 1 + count by omega)
  obtain ⟨hnone, hexhausted⟩ := view_manyParts root (show 1 + 1 + count + 1 < maxVisits by omega) hparts
  rw [spend_of_exhausted hended] at hnone hexhausted
  have hmeet := meet_manyParts root .asRequest rfl rfl
    (show (view live root (manyParts count) (view live root (manyParts count) (spent 1)).2).2.exhausted = true by
      rw [hleft, hexhausted]
      exact hended)
  have hmeetings : meetings live root = (meet live root .asRequest (maxSchemaDepth + 1) (manyParts count) {}).1 := by
    unfold meetings
    rw [show tasks root = [(manyParts count, .asRequest)] from tasks_daysRoot _]
    simp [each, meetTask]
  rw [hmeetings, hmeet] at hsteady
  have hformat := (hsteady _ (List.mem_singleton.2 rfl)).format
  simp only [hleft] at hformat
  rw [hdate, hnone] at hformat
  simp at hformat

end Gostman.Openapi
