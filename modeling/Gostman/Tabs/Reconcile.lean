import Gostman.Lib.Record
/-!
# Open tabs and reloads (`lib/tabReconcile.js`, `lib/requestChanges.js`)

A tab holds a draft of a request.  When the collection is read again from disk,
a draft that was clean follows the file; one that was edited is kept, and the
tab shows that the file has changed under it.
-/

namespace Gostman.Tabs

open Gostman.Lib

/-! ## Requests -/

inductive TextField where
  | name | description | method | url | body | bodyType | folderId | graphqlQuery | graphqlVariables
  | extractors | assertions | examples | preScript | postScript | grpcMethod | grpcMessage | grpcProtos
  | mcpMethod | mcpTool | mcpArguments | socketProtocol | socketMessages | notes | jsonDepth | defaultView
  deriving DecidableEq

def textFields : List TextField :=
  [.name, .description, .method, .url, .body, .bodyType, .folderId, .graphqlQuery, .graphqlVariables,
    .extractors, .assertions, .examples, .preScript, .postScript, .grpcMethod, .grpcMessage, .grpcProtos,
    .mcpMethod, .mcpTool, .mcpArguments, .socketProtocol, .socketMessages, .notes, .jsonDepth, .defaultView]

inductive PairField where
  | headers | queryParams | vars
  deriving DecidableEq

def pairFields : List PairField :=
  [.headers, .queryParams, .vars]

inductive Scalar where
  | text (value : String)
  | number (value : Int)
  | bool (value : Bool)
  | null
  deriving DecidableEq

/-- The settings of a request: a value, or an object of settings. -/
inductive Setting where
  | scalar (value : Scalar)
  | group (fields : List (String × Setting))

/-- The fields of what may be an object, `second[key] || {}`. -/
def fieldsOf : Option Setting → List (String × Setting)
  | some (.group fields) => fields
  | _ => []

mutual

/-- One field against the field of the same name, by `isPlainObject` and
`===`. -/
def Setting.same : Setting → Option Setting → Bool
  | .group fields, second => sameSettings fields (fieldsOf second)
  | .scalar value, some (.scalar other) => value = other
  | .scalar _, _ => false

/-- `sameSettings`, which looks at the keys of the first only. -/
def sameSettings : List (String × Setting) → List (String × Setting) → Bool
  | [], _ => true
  | (key, value) :: rest, second => value.same (second.lookup key) && sameSettings rest second

end

mutual

def Setting.Distinct : Setting → Prop
  | .scalar _ => True
  | .group fields => DistinctFields fields

def DistinctFields : List (String × Setting) → Prop
  | [] => True
  | (key, value) :: rest => value.Distinct ∧ key ∉ rest.map Prod.fst ∧ DistinctFields rest

end

structure Settings where
  fields : List (String × Setting)
  distinct : DistinctFields fields

structure Request where
  id : String
  text : TextField → String
  pairs : PairField → String
  tags : List String
  auth : Settings
  options : Settings

/-- The standard library and the other modules: trimming and case folding of
tags, and `withoutActiveContent`. -/
structure Window where
  trim : String → String
  foldCase : String → String
  withoutActiveContent : Request → Request

section Changes

variable (window : Window)

/-- The loop of `normalizeTags`, with the tags seen so far. -/
def normalizeTagsFrom : List String → List String → List String
  | _, [] => []
  | seen, value :: rest =>
      let tag := window.trim value
      let key := window.foldCase tag
      if tag = "" ∨ key ∈ seen then normalizeTagsFrom seen rest
      else tag :: normalizeTagsFrom (key :: seen) rest

def normalizeTags (raw : List String) : List String :=
  normalizeTagsFrom window [] raw

def sameTags (first second : List String) : Bool :=
  normalizeTags window first = normalizeTags window second

def emptyPairs : List String := ["", "{}", "[]"]

def samePairs (first second : String) : Bool :=
  first = second || (first ∈ emptyPairs && second ∈ emptyPairs)

def sameRequest (first second : Request) : Bool :=
  textFields.all (fun field => first.text field = second.text field) &&
    pairFields.all (fun field => samePairs (first.pairs field) (second.pairs field)) &&
    sameTags window first.tags second.tags && sameSettings first.auth.fields second.auth.fields &&
    sameSettings first.options.fields second.options.fields

def isRequestDirty (request saved : Request) : Bool :=
  !sameRequest window request saved

/-! ## Tabs -/

structure Tab where
  request : Request
  diskChange : Option Request := none
  vanished : Option Request := none

def byId (items : List Request) (id : String) : Option Request :=
  items.reverse.find? (·.id = id)

def Tab.lastSaved (tab : Tab) (previous : List Request) : Option Request :=
  (byId previous tab.request.id).or tab.vanished

/-- `request.id ? saved.get(request.id) : null`. -/
def current (requests : List Request) (request : Request) : Option Request :=
  if request.id = "" then none else byId requests request.id

def inKnownFolder (folderIds : List String) (request : Request) : Request :=
  if request.text .folderId = "" ∨ request.text .folderId ∈ folderIds then request
  else { request with text := fun field => if field = .folderId then "" else request.text field }

def carried (wasRestricted : Bool) (request : Request) : Request :=
  if wasRestricted then window.withoutActiveContent request else request

def refresh (previous requests : List Request) (wasRestricted : Bool) (tab : Tab) : Request :=
  match current requests tab.request with
  | none => carried window wasRestricted tab.request
  | some disk =>
      match tab.lastSaved previous with
      | some before =>
          if isRequestDirty window tab.request before then carried window wasRestricted tab.request else disk
      | none => carried window wasRestricted tab.request

def vanishedOf (previous requests : List Request) (folderIds : List String) (tab : Tab) : Option Request :=
  let before :=
    if tab.request.id ≠ "" ∧ byId requests tab.request.id = none then tab.lastSaved previous else none
  before.map (inKnownFolder folderIds)

def diskChangeOf (previous requests : List Request) (tab : Tab) : Option Request :=
  match current requests tab.request with
  | none => none
  | some disk =>
      if isRequestDirty window tab.request disk then
        let changedUnderDraft := match tab.lastSaved previous with
          | some before => isRequestDirty window tab.request before && isRequestDirty window disk before
          | none => false
        if changedUnderDraft || tab.diskChange.isSome then some disk else none
      else none

/-- What `reconcileTabs` makes of one tab. -/
def reconcileTab (previous requests : List Request) (folderIds : List String) (wasRestricted : Bool)
    (tab : Tab) : Tab where
  request := inKnownFolder folderIds (refresh window previous requests wasRestricted tab)
  diskChange := diskChangeOf window previous requests tab
  vanished := vanishedOf previous requests folderIds tab

def reconcileTabs (tabs : List Tab) (previous requests : List Request) (folderIds : List String)
    (wasRestricted : Bool) : List Tab :=
  tabs.map (reconcileTab window previous requests folderIds wasRestricted)

end Changes

/-! ## Comparing requests -/

section Comparing

variable {window : Window}

theorem mem_of_lookup {fields : List (String × Setting)} {key : String} {value : Setting}
    (h : fields.lookup key = some value) : (key, value) ∈ fields := by
  induction fields with
  | nil => cases h
  | cons entry rest ih =>
      obtain ⟨name, first⟩ := entry
      rw [List.lookup_cons] at h
      by_cases hname : key = name
      · subst hname
        simp only [beq_self_eq_true, Option.some.injEq] at h
        simp [h]
      · rw [beq_false_of_ne hname] at h
        exact List.mem_cons_of_mem _ (ih h)

/-- A field of the first is compared with the second's. -/
theorem same_of_mem {first second : List (String × Setting)} (h : sameSettings first second = true)
    {key : String} {value : Setting} (hmem : (key, value) ∈ first) : value.same (second.lookup key) = true := by
  induction first with
  | nil => cases hmem
  | cons entry rest ih =>
      obtain ⟨name, head⟩ := entry
      rw [sameSettings, Bool.and_eq_true] at h
      rcases List.mem_cons.1 hmem with heq | hrest
      · cases heq
        exact h.1
      · exact ih h.2 hrest

theorem sameSettings_of_forall {first second : List (String × Setting)}
    (h : ∀ key value, (key, value) ∈ first → value.same (second.lookup key) = true) :
    sameSettings first second = true := by
  induction first with
  | nil => rw [sameSettings]
  | cons entry rest ih =>
      obtain ⟨name, head⟩ := entry
      rw [sameSettings, Bool.and_eq_true]
      exact ⟨h name head List.mem_cons_self, ih fun key value hmem => h key value (List.mem_cons_of_mem _ hmem)⟩

theorem sameSettings_of_nil {first : List (String × Setting)} (h : sameSettings first [] = true)
    (second : List (String × Setting)) : sameSettings first second = true := by
  apply sameSettings_of_forall
  intro key value hmem
  have hnone := same_of_mem h hmem
  rw [List.lookup_nil] at hnone
  cases value with
  | scalar value => rw [Setting.same] at hnone; cases hnone; nofun
  | group fields =>
      have hsize : sizeOf fields < sizeOf first := by
        have hentry := List.sizeOf_lt_of_mem hmem
        simp only [Prod.mk.sizeOf_spec, Setting.group.sizeOf_spec] at hentry
        omega
      rw [Setting.same, fieldsOf] at hnone
      · rw [Setting.same]
        exact sameSettings_of_nil hnone _
      · nofun
termination_by sizeOf first

theorem sameSettings_trans {first second third : List (String × Setting)} (h : sameSettings first second = true)
    (h' : sameSettings second third = true) : sameSettings first third = true := by
  apply sameSettings_of_forall
  intro key value hmem
  have hvalue := same_of_mem h hmem
  cases hother : second.lookup key with
  | none =>
      rw [hother] at hvalue
      cases value with
      | scalar value => cases hvalue
      | group fields =>
          rw [Setting.same] at hvalue ⊢
          exact sameSettings_of_nil hvalue _
  | some other =>
      have hthird := same_of_mem h' (mem_of_lookup hother)
      rw [hother] at hvalue
      cases value with
      | scalar value =>
          cases other with
          | group fields => cases hvalue
          | scalar found =>
              rw [Setting.same, decide_eq_true_eq] at hvalue
              rw [hvalue]
              exact hthird
      | group fields =>
          have hsize : sizeOf fields < sizeOf first := by
            have hentry := List.sizeOf_lt_of_mem hmem
            simp only [Prod.mk.sizeOf_spec, Setting.group.sizeOf_spec] at hentry
            omega
          rw [Setting.same] at hvalue ⊢
          cases other with
          | scalar found => exact sameSettings_of_nil hvalue _
          | group found =>
              rw [Setting.same] at hthird
              exact sameSettings_trans hvalue hthird
termination_by sizeOf first

theorem lookup_of_mem {fields : List (String × Setting)} (h : DistinctFields fields) {key : String} {value : Setting}
    (hmem : (key, value) ∈ fields) : fields.lookup key = some value := by
  induction fields with
  | nil => cases hmem
  | cons entry rest ih =>
      obtain ⟨name, head⟩ := entry
      rw [DistinctFields] at h
      rw [List.lookup_cons]
      rcases List.mem_cons.1 hmem with heq | hrest
      · cases heq
        simp
      · have hne : key ≠ name := by
          rintro rfl
          exact h.2.1 (List.mem_map.2 ⟨_, hrest, rfl⟩)
        rw [beq_false_of_ne hne]
        exact ih h.2.2 hrest

theorem distinct_of_mem {fields : List (String × Setting)} (h : DistinctFields fields) {key : String} {value : Setting}
    (hmem : (key, value) ∈ fields) : value.Distinct := by
  induction fields with
  | nil => cases hmem
  | cons entry rest ih =>
      obtain ⟨name, head⟩ := entry
      rw [DistinctFields] at h
      rcases List.mem_cons.1 hmem with heq | hrest
      · cases heq
        exact h.1
      · exact ih h.2.2 hrest

theorem sameSettings_refl {fields : List (String × Setting)} (h : DistinctFields fields) :
    sameSettings fields fields = true := by
  apply sameSettings_of_forall
  intro key value hmem
  rw [lookup_of_mem h hmem]
  cases value with
  | scalar value => rw [Setting.same, decide_eq_true_eq]
  | group inner =>
      have hsize : sizeOf inner < sizeOf fields := by
        have hentry := List.sizeOf_lt_of_mem hmem
        simp only [Prod.mk.sizeOf_spec, Setting.group.sizeOf_spec] at hentry
        omega
      have hdistinct := distinct_of_mem h hmem
      rw [Setting.Distinct] at hdistinct
      rw [Setting.same]
      exact sameSettings_refl hdistinct
termination_by sizeOf fields

theorem samePairs_trans {first second third : String} (h : samePairs first second = true)
    (h' : samePairs second third = true) : samePairs first third = true := by
  simp only [samePairs, Bool.or_eq_true, decide_eq_true_eq, Bool.and_eq_true] at h h' ⊢
  rcases h with rfl | ⟨hfirst, hsecond⟩
  · exact h'
  · rcases h' with rfl | ⟨-, hthird⟩
    · exact .inr ⟨hfirst, hsecond⟩
    · exact .inr ⟨hfirst, hthird⟩

variable (window) in
theorem sameRequest_refl (request : Request) : sameRequest window request request = true := by
  have htags : sameTags window request.tags request.tags = true := decide_eq_true rfl
  have hpairs : ∀ field ∈ pairFields, samePairs (request.pairs field) (request.pairs field) = true := by
    intro field _
    simp [samePairs]
  simp [sameRequest, htags, sameSettings_refl request.auth.distinct, sameSettings_refl request.options.distinct]
  exact hpairs

theorem sameRequest_trans {first second third : Request} (h : sameRequest window first second = true)
    (h' : sameRequest window second third = true) : sameRequest window first third = true := by
  simp only [sameRequest, Bool.and_eq_true, List.all_eq_true, decide_eq_true_eq, sameTags] at h h' ⊢
  obtain ⟨⟨⟨⟨htexts, hpairs⟩, htags⟩, hauth⟩, hoptions⟩ := h
  obtain ⟨⟨⟨⟨htexts', hpairs'⟩, htags'⟩, hauth'⟩, hoptions'⟩ := h'
  refine ⟨⟨⟨⟨?_, ?_⟩, htags.trans htags'⟩, sameSettings_trans hauth hauth'⟩, sameSettings_trans hoptions hoptions'⟩
  · exact fun field hmem => (htexts field hmem).trans (htexts' field hmem)
  · exact fun field hmem => samePairs_trans (hpairs field hmem) (hpairs' field hmem)

end Comparing

end Gostman.Tabs
