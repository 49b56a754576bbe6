import Gostman.Specs.Partition
/-!
# A plan that is carried out

When every item of a plan is picked, the link that results has an entry for
every operation, and its entries fit the operations, apart from those of
requests that are not there: the next plan is empty.
-/

namespace Gostman.Specs

open Gostman.Lib Gostman.Js

section

variable {desk : Desk} {operations : List Operation} {requests : List Request}

/-- An entry that was made from the operation of its key. -/
def Fits (operations : List Operation) (key : String) (entry : Entry) : Prop :=
  ∃ operation ∈ operations, operation.key = key ∧ operation.hash = entry.specHash

def Absent (id : String) (requests : List Request) : Prop :=
  ∀ request ∈ requests, request.id ≠ id

theorem read_requestsById_eq_none_iff (id : String) :
    (requestsById requests).read id = none ↔ Absent id requests := by
  rw [Record.read_eq_none_iff, requestsById, Record.ofEntries, Record.mem_keys_overlay]
  simp [Record.keys, Absent]

theorem verdict_of_fits (hkeys : (operations.map (·.key)).Nodup) {known : Known}
    (h : Fits operations known.key known.entry) : verdict (currentOf operations) known = .kept := by
  obtain ⟨operation, hmem, hkey, hhash⟩ := h
  rw [verdict, ← hkey, currentOf_of_mem hkeys hmem]
  exact if_pos hhash

/-- Nothing is left to do where every operation has an entry and every entry
with a request fits. -/
theorem isEmptyPlan_of_settled {link : Link} (hkeys : (operations.map (·.key)).Nodup)
    (hcovered : ∀ operation ∈ operations, operation.key ∈ link.ops.keys)
    (hfits : ∀ key entry, (key, entry) ∈ link.ops → ¬ Absent entry.requestId requests → Fits operations key entry) :
    isEmptyPlan (diffSpec desk link operations requests) = true := by
  obtain ⟨moved, removed, hplan, h⟩ := diffSpec_eq desk link operations requests
  have hkept : ∀ known ∈ knownOf link requests, verdict (currentOf operations) known = .kept := by
    intro known hknown
    obtain ⟨hmem, hrequest⟩ := mem_knownOf.1 hknown
    apply verdict_of_fits hkeys
    apply hfits _ _ hmem
    rw [← read_requestsById_eq_none_iff, hrequest]
    nofun
  have hnone : ∀ wanted, wanted ≠ Verdict.kept → withVerdict link operations requests wanted = [] := by
    intro wanted hwanted
    rw [withVerdict, List.filter_eq_nil_iff]
    intro known hknown
    rw [hkept known hknown, decide_eq_true_eq]
    exact hwanted.symm
  have hfresh : freshOf link operations = [] := by
    rw [freshOf, List.filter_eq_nil_iff]
    intro operation hmem
    simp [hcovered operation hmem]
  have hentries := h.entries
  rw [hnone .gone (by decide), List.map_nil, List.perm_nil, List.append_eq_nil_iff, List.map_eq_nil_iff,
    List.map_eq_nil_iff] at hentries
  rw [hplan, hnone .changed (by decide), hfresh, hentries.1, hentries.2]
  rfl

/-! ## Removing -/

theorem mem_delete_foldl {items : List Change} {link : Link} {entry : String × Entry} :
    entry ∈ (items.foldl (fun link item => link.delete item.key) link).ops ↔
      entry ∈ link.ops ∧ entry.1 ∉ items.map (·.key) := by
  induction items generalizing link with
  | nil => simp
  | cons item rest ih =>
      rw [List.foldl_cons, ih]
      simp [Link.delete, Record.remove, and_assoc]

theorem mem_keys_iff {link : Link} {key : String} : key ∈ link.ops.keys ↔ ∃ entry, (key, entry) ∈ link.ops := by
  simp [Record.keys]

/-! ## Updating -/

/-- A change whose request was saved with the operation of its target. -/
structure Moves (operations : List Operation) (saved : Change × Operation × Request) : Prop where
  mem : saved.2.1 ∈ operations
  key : saved.2.1.key = saved.1.newKey

theorem mem_move_foldl {saved : List (Change × Operation × Request)} (hmoves : ∀ item ∈ saved, Moves operations item)
    {link : Link} {key : String} {entry : Entry} (h : (key, entry) ∈ (saved.foldl (Link.move desk) link).ops) :
    ((key, entry) ∈ link.ops ∧ key ∉ saved.map (·.1.key)) ∨ Fits operations key entry := by
  induction saved generalizing link with
  | nil => exact .inl ⟨h, by simp⟩
  | cons item rest ih =>
      rcases ih (fun other hother => hmoves other (List.mem_cons_of_mem _ hother)) h with ⟨hmem, hrest⟩ | hfits
      · rcases Record.mem_put hmem with heq | hold
        · right
          cases heq
          exact ⟨item.2.1, (hmoves item List.mem_cons_self).mem, rfl, rfl⟩
        · left
          obtain ⟨hlink, hne⟩ := List.mem_filter.1 hold
          refine ⟨hlink, ?_⟩
          rw [List.map_cons, List.mem_cons, not_or]
          exact ⟨of_decide_eq_true hne, hrest⟩
      · exact .inr hfits

theorem keys_move_foldl {saved : List (Change × Operation × Request)} (hmoves : ∀ item ∈ saved, Moves operations item)
    (happart : saved.Pairwise fun first second => first.1.newKey ≠ second.1.key) {link : Link} {key : String}
    (h : (key ∈ link.ops.keys ∧ key ∉ saved.map (·.1.key)) ∨ key ∈ saved.map (·.1.newKey)) :
    key ∈ (saved.foldl (Link.move desk) link).ops.keys := by
  induction saved generalizing link with
  | nil => simpa using h
  | cons item rest ih =>
      obtain ⟨hfirst, hrest⟩ := List.pairwise_cons.1 happart
      apply ih (fun other hother => hmoves other (List.mem_cons_of_mem _ hother)) hrest
      have hput : ∀ name, name ∈ (link.move desk item).ops.keys ↔
          name = item.1.newKey ∨ (name ∈ link.ops.keys ∧ name ≠ item.1.key) := by
        intro name
        change name ∈ (Record.put (link.ops.remove item.1.key) item.2.1.key _).keys ↔ _
        rw [Record.mem_keys_put, (hmoves item List.mem_cons_self).key]
        simp only [Record.keys, Record.remove, List.mem_map, List.mem_filter, decide_eq_true_eq]
        constructor
        · rintro (rfl | ⟨entry, ⟨hentry, hne⟩, rfl⟩)
          · exact .inl rfl
          · exact .inr ⟨⟨entry, hentry, rfl⟩, hne⟩
        · rintro (rfl | ⟨⟨entry, hentry, rfl⟩, hne⟩)
          · exact .inl rfl
          · exact .inr ⟨entry, ⟨hentry, hne⟩, rfl⟩
      by_cases hlater : key ∈ rest.map (·.1.newKey)
      · exact .inr hlater
      · left
        rw [hput]
        rw [List.map_cons, List.mem_cons, not_or, List.map_cons, List.mem_cons] at h
        rcases h with ⟨hkey, hne, hnot⟩ | rfl | hmem
        · exact ⟨.inr ⟨hkey, hne⟩, hnot⟩
        · refine ⟨.inl rfl, ?_⟩
          intro hmem
          obtain ⟨other, hother, hkey⟩ := List.mem_map.1 hmem
          exact hfirst other hother hkey.symm
        · exact absurd hmem hlater

/-! ## Adding -/

theorem mem_add_foldl {saved : List (Operation × Request)} (hsaved : ∀ item ∈ saved, item.1 ∈ operations)
    {link : Link} {key : String} {entry : Entry} (h : (key, entry) ∈ (saved.foldl (Link.add desk) link).ops) :
    (key, entry) ∈ link.ops ∨ Fits operations key entry := by
  induction saved generalizing link with
  | nil => exact .inl h
  | cons item rest ih =>
      rcases ih (fun other hother => hsaved other (List.mem_cons_of_mem _ hother)) h with hmem | hfits
      · rcases Record.mem_put hmem with heq | hold
        · right
          cases heq
          exact ⟨item.1, hsaved item List.mem_cons_self, rfl, rfl⟩
        · exact .inl hold
      · exact .inr hfits

theorem keys_add_foldl {saved : List (Operation × Request)} {link : Link} {key : String} :
    key ∈ (saved.foldl (Link.add desk) link).ops.keys ↔ key ∈ link.ops.keys ∨ key ∈ saved.map (·.1.key) := by
  induction saved generalizing link with
  | nil => simp
  | cons item rest ih =>
      rw [List.foldl_cons, ih]
      change key ∈ (Record.put link.ops item.1.key _).keys ∨ _ ↔ _
      rw [Record.mem_keys_put, List.map_cons, List.mem_cons]
      tauto

/-! ## The requests of the store -/

theorem absent_upsert {id : String} {saved : List Request} (h : Absent id requests) (hsaved : Absent id saved) :
    Absent id (upsertRequests desk requests saved) := by
  intro request hmem
  obtain ⟨entry, hentry, rfl⟩ := List.mem_map.1 hmem
  rcases Record.mem_overlay hentry with hold | hnew
  · rcases Record.mem_overlay hold with hnil | hold
    · cases hnil
    · obtain ⟨found, hfound, rfl⟩ := List.mem_map.1 hold
      exact h found hfound
  · obtain ⟨found, hfound, rfl⟩ := List.mem_map.1 hnew
    rw [desk.id_normalizeRequest]
    exact hsaved found hfound

theorem absent_saveRequests {id : String} {uuid : Nat → String} {given : List Request}
    (huuid : ∀ index, id ≠ uuid index) (hgiven : ∀ request ∈ given, request.id = "" ∨ request.id ≠ id) :
    Absent id (saveRequests uuid given) := by
  intro request hmem
  obtain ⟨index, hindex, rfl⟩ := List.mem_mapIdx.1 hmem
  dsimp only
  split_ifs with hempty
  · exact (huuid index).symm
  · exact (hgiven _ (List.getElem_mem hindex)).resolve_left hempty

theorem rewrittenOf_id {id : String} (h : Absent id requests) (item : Change) (request : Request) :
    (rewrittenOf desk requests item request).id = "" ∨ (rewrittenOf desk requests item request).id ≠ id := by
  unfold rewrittenOf
  rw [desk.id_normalizeRequest]
  cases hfind : requests.find? (·.id = item.requestId) with
  | none => exact .inl rfl
  | some current => exact .inr (h current (List.mem_of_find?_eq_some hfind))

/-! ## The generated requests -/

/-- What `apply` has generated for a key. -/
def Generates (operations : List Operation) (made : Operation → Request) (generated : Record String (Operation × Request))
    (key : String) (entry : Operation × Request) : Prop :=
  generated.read key = some entry ∧ entry.1 ∈ operations ∧ entry.1.key = key ∧ entry.2 = made entry.1

theorem generatedFor_eq {made : Operation → Request} {generated : Record String (Operation × Request)}
    {keys : List String} (h : ∀ key ∈ keys, ∃ entry, Generates operations made generated key entry) :
    ∃ found, generatedFor generated keys = some found ∧ List.Forall₂ (Generates operations made generated) keys found := by
  unfold generatedFor
  induction keys with
  | nil => exact ⟨[], rfl, .nil⟩
  | cons key rest ih =>
      obtain ⟨entry, hentry⟩ := h key List.mem_cons_self
      obtain ⟨found, hfound, hall⟩ := ih fun other hother => h other (List.mem_cons_of_mem _ hother)
      refine ⟨entry :: found, ?_, .cons hentry hall⟩
      rw [List.mapM_cons, hentry.1, hfound]
      rfl

theorem made_of_found {made : Operation → Request} {generated : Record String (Operation × Request)} {keys : List String}
    {found : List (Operation × Request)} (hall : List.Forall₂ (Generates operations made generated) keys found)
    {entry : Operation × Request} (h : entry ∈ found) : entry.2 = made entry.1 := by
  induction hall with
  | nil => cases h
  | cons hentry _ ih =>
      rcases List.mem_cons.1 h with rfl | hrest
      · exact hentry.2.2.2
      · exact ih hrest

theorem generates_of_mem (hkeys : (operations.map (·.key)).Nodup) (made : Operation → Request) {keys : List String}
    {key : String} (hkey : key ∈ keys) (hoperation : key ∈ operations.map (·.key)) :
    ∃ entry, Generates operations made (generatedOf operations made keys) key entry := by
  obtain ⟨operation, hmem, rfl⟩ := List.mem_map.1 hoperation
  have hfound : operation ∈ operationsFor operations keys :=
    List.mem_filterMap.2 ⟨_, hkey, currentOf_of_mem hkeys hmem⟩
  cases hread : (generatedOf operations made keys).read operation.key with
  | none =>
      rw [Record.read_eq_none_iff, generatedOf, Record.ofEntries, Record.mem_keys_overlay, not_or] at hread
      exact absurd (List.mem_map.2 ⟨_, List.mem_map.2 ⟨operation, hfound, rfl⟩, rfl⟩) hread.2
  | some entry =>
      obtain ⟨other, hother, heq⟩ := List.mem_map.1 (Record.mem_of_read_ofEntries hread)
      obtain ⟨name, -, hcurrent⟩ := List.mem_filterMap.1 hother
      obtain ⟨hsame, rfl⟩ := Prod.mk.inj heq
      exact ⟨_, hread, (mem_of_currentOf hcurrent).1, hsame, rfl⟩

/-! ## The steps of `apply` -/

section Steps

variable {made : Operation → Request} {generated : Record String (Operation × Request)} {uuid : Nat → String}
  {state : Applied}

structure Updated (operations : List Operation) (uuid : Nat → String) (items : List Change) (state after : Applied) :
    Prop where
  entries : ∀ key entry, (key, entry) ∈ after.link.ops →
    ((key, entry) ∈ state.link.ops ∧ key ∉ items.map (·.key)) ∨ Fits operations key entry
  keys : ∀ key, (key ∈ state.link.ops.keys ∧ key ∉ items.map (·.key)) ∨ key ∈ items.map (·.newKey) →
    key ∈ after.link.ops.keys
  absent : ∀ id, Absent id state.requests → (∀ index, id ≠ uuid index) → Absent id after.requests

theorem length_saveRequests (given : List Request) : (saveRequests uuid given).length = given.length := by
  simp [saveRequests]

/-- The changes, each with the operation it was generated from. -/
theorem moves_of_generates {items : List Change} {found : List (Operation × Request)}
    (hall : List.Forall₂ (Generates operations made generated) (items.map (·.newKey)) found) (saved : List Request) :
    ∀ item ∈ items.zip ((found.map Prod.fst).zip saved), Moves operations item := by
  rw [List.forall₂_map_left_iff] at hall
  induction hall generalizing saved with
  | nil => simp
  | @cons item entry items found hentry hall ih =>
      cases saved with
      | nil => simp
      | cons first saved =>
          intro other hother
          rcases List.mem_cons.1 hother with rfl | hother
          · exact ⟨hentry.2.1, hentry.2.2.1⟩
          · exact ih saved other hother

theorem updateRequests_eq {items : List Change}
    (happart : items.Pairwise fun first second => first.newKey ≠ second.key)
    (hgenerated : ∀ key ∈ items.map (·.newKey), ∃ entry, Generates operations made generated key entry) :
    ∃ after, updateRequests desk uuid items generated state = some after ∧
      Updated operations uuid items state after := by
  obtain ⟨found, hfound, hall⟩ := generatedFor_eq hgenerated
  unfold updateRequests
  rw [hfound]
  by_cases hempty : items = []
  · subst hempty
    refine ⟨state, rfl, ?_⟩
    constructor
    · exact fun key entry hmem => .inl ⟨hmem, by simp⟩
    · simp
    · exact fun id habsent _ => habsent
  · refine ⟨_, if_neg hempty, ?_⟩
    have hlength : items.length = found.length := by
      rw [← hall.length_eq, List.length_map]
    have hmoves := moves_of_generates hall (saveRequests uuid ((items.zip found).map fun pair =>
      rewrittenOf desk state.requests pair.1 pair.2.2))
    have hfirst : (items.zip ((found.map Prod.fst).zip (saveRequests uuid ((items.zip found).map fun pair =>
        rewrittenOf desk state.requests pair.1 pair.2.2)))).map Prod.fst = items := by
      apply List.map_fst_zip
      simp [length_saveRequests, hlength]
    have hkey : ∀ saved : List (Change × Operation × Request), saved.map Prod.fst = items →
        saved.map (·.1.key) = items.map (·.key) ∧ saved.map (·.1.newKey) = items.map (·.newKey) := by
      rintro saved rfl
      simp
    obtain ⟨hkeys, hnewKeys⟩ := hkey _ hfirst
    constructor
    · intro key entry hmem
      have hcases := mem_move_foldl hmoves hmem
      rwa [hkeys] at hcases
    · intro key hcases
      rw [← hkeys, ← hnewKeys] at hcases
      apply keys_move_foldl hmoves ?_ hcases
      rw [← hfirst, List.pairwise_map] at happart
      exact happart
    · intro id habsent huuid
      apply absent_upsert habsent
      apply absent_saveRequests huuid
      intro request hmem
      obtain ⟨pair, -, rfl⟩ := List.mem_map.1 hmem
      exact rewrittenOf_id habsent pair.1 pair.2.2

structure Added (operations : List Operation) (made : Operation → Request) (uuid : Nat → String)
    (items : List Operation) (state after : Applied) : Prop where
  entries : ∀ key entry, (key, entry) ∈ after.link.ops → (key, entry) ∈ state.link.ops ∨ Fits operations key entry
  keys : ∀ key, key ∈ state.link.ops.keys ∨ key ∈ items.map (·.key) → key ∈ after.link.ops.keys
  absent : ∀ id, Absent id state.requests → (∀ index, id ≠ uuid index) → (∀ operation, id ≠ (made operation).id) →
    Absent id after.requests

theorem addRequests_eq {items : List Operation} (hitems : ∀ operation ∈ items, operation ∈ operations)
    (hgenerated : ∀ key ∈ items.map (·.key), ∃ entry, Generates operations made generated key entry) :
    ∃ after, addRequests desk uuid items generated state = some after ∧
      Added operations made uuid items state after := by
  obtain ⟨found, hfound, hall⟩ := generatedFor_eq hgenerated
  unfold addRequests
  rw [hfound]
  by_cases hempty : items = []
  · subst hempty
    refine ⟨state, rfl, ?_⟩
    constructor
    · exact fun key entry hmem => .inl hmem
    · simp
    · exact fun id habsent _ _ => habsent
  · refine ⟨_, if_neg hempty, ?_⟩
    have hlength : items.length = found.length := by
      rw [← hall.length_eq, List.length_map]
    constructor
    · intro key entry hmem
      apply mem_add_foldl ?_ hmem
      intro item hitem
      exact hitems _ (List.of_mem_zip hitem).1
    · intro key hcases
      rw [keys_add_foldl]
      have hfirst : (items.zip (saveRequests uuid (found.map fun entry => desk.normalizeRequest entry.2))).map Prod.fst =
          items := by
        apply List.map_fst_zip
        simp [length_saveRequests, hlength]
      rw [← hfirst, List.map_map] at hcases
      exact hcases
    · intro id habsent huuid hmade
      apply absent_upsert habsent
      apply absent_saveRequests huuid
      intro request hmem
      obtain ⟨entry, hentry, rfl⟩ := List.mem_map.1 hmem
      right
      rw [desk.id_normalizeRequest]
      rw [made_of_found hall hentry]
      exact (hmade entry.1).symm

end Steps

/-! ## The whole plan -/

def allKeys (plan : Plan) : List String :=
  plan.added.map (·.key) ++ plan.changed.map (·.key) ++ plan.removed.map (·.key)

theorem selectedChanges_allKeys (plan : Plan) : selectedChanges plan (allKeys plan) = plan := by
  have hall : ∀ {α : Type} (items : List α) (pick : α → Bool), (∀ item ∈ items, pick item = true) →
      items.filter pick = items := fun items pick h => List.filter_eq_self.2 h
  unfold selectedChanges allKeys
  rw [hall plan.added, hall plan.changed, hall plan.removed]
  · intro change hmem
    exact decide_eq_true (List.mem_append_right _ (List.mem_map_of_mem hmem))
  · intro change hmem
    exact decide_eq_true (List.mem_append_left _ (List.mem_append_right _ (List.mem_map_of_mem hmem)))
  · intro operation hmem
    exact decide_eq_true (List.mem_append_left _ (List.mem_append_left _ (List.mem_map_of_mem hmem)))

section Whole

variable {link : Link} (hkeys : (operations.map (·.key)).Nodup)

/-- A target is the entry's own key, or one the link does not have. -/
theorem newKey_cases (desk : Desk) (link : Link) (operations : List Operation) (requests : List Request) :
    ∀ change ∈ (diffSpec desk link operations requests).changed,
      change.newKey = change.key ∨ change.newKey ∉ link.ops.keys := by
  obtain ⟨moved, removed, hplan, h⟩ := diffSpec_eq desk link operations requests
  rw [hplan]
  intro change hmem
  rcases List.mem_append.1 hmem with hsame | hmoved
  · obtain ⟨known, -, rfl⟩ := List.mem_map.1 hsame
    exact .inl rfl
  · obtain ⟨operation, hfresh, hkey⟩ := fresh_of_moved h (List.mem_map_of_mem hmoved)
    right
    rw [← hkey]
    exact (mem_freshOf.1 hfresh).2

include hkeys

/-- The items of the plan have keys of the link's. -/
theorem known_of_item {key : String} (h : key ∈ (diffSpec desk link operations requests).changed.map (·.key) ++
      (diffSpec desk link operations requests).removed.map (·.key)) :
    ∃ known ∈ knownOf link requests, known.key = key := by
  have hentries := (partitions_diffSpec desk link operations requests hkeys).entries
  rw [List.append_assoc] at hentries
  exact List.mem_map.1 (hentries.subset (List.mem_append_right _ h))

theorem changed_apart : (diffSpec desk link operations requests).changed.Pairwise
    fun first second => first.newKey ≠ second.key := by
  have hnodup := (partitions_diffSpec desk link operations requests hkeys).keys
  have hchanged : ((diffSpec desk link operations requests).changed.map (·.key)).Nodup :=
    hnodup.sublist ((List.sublist_append_right _ _).trans (List.sublist_append_left _ _))
  rw [List.Nodup, List.pairwise_map] at hchanged
  apply hchanged.imp_of_mem
  intro first second hfirst hsecond hne heq
  rcases newKey_cases desk link operations requests first hfirst with hsame | hfresh
  · exact hne (hsame.symm.trans heq)
  · obtain ⟨known, hknown, hkey⟩ := @known_of_item desk operations requests link hkeys second.key
      (List.mem_append_left _ (List.mem_map_of_mem hsecond))
    exact hfresh (heq ▸ hkey ▸ mem_keys_of_known hknown)

/-- An entry that no item of the plan is about fits, if its request is there. -/
theorem fits_of_untouched {key : String} {entry : Entry} (hmem : (key, entry) ∈ link.ops)
    (huntouched : key ∉ (diffSpec desk link operations requests).changed.map (·.key) ++
      (diffSpec desk link operations requests).removed.map (·.key))
    (hpresent : ¬ Absent entry.requestId requests) : Fits operations key entry := by
  have hpartition := partitions_diffSpec desk link operations requests hkeys
  rw [← read_requestsById_eq_none_iff] at hpresent
  obtain ⟨request, hrequest⟩ := Option.ne_none_iff_exists'.1 hpresent
  have hknown : key ∈ (knownOf link requests).map (·.key) :=
    List.mem_map.2 ⟨⟨key, entry, request⟩, mem_knownOf.2 ⟨hmem, hrequest⟩, rfl⟩
  have hplace := hpartition.entries.symm.subset hknown
  rw [List.append_assoc] at hplace
  obtain ⟨known, hkept, hkey⟩ := List.mem_map.1 ((List.mem_append.1 hplace).resolve_right huntouched)
  obtain ⟨hin, hverdict⟩ := List.mem_filter.1 hkept
  have hentry : known.entry = entry := by
    have hread := Record.read_of_mem link.distinct (mem_knownOf.1 hin).1
    rw [hkey, Record.read_of_mem link.distinct hmem] at hread
    exact (Option.some.inj hread).symm
  have hverdict := of_decide_eq_true hverdict
  unfold verdict at hverdict
  cases hread : (currentOf operations).read known.key with
  | none => simp [hread] at hverdict
  | some operation =>
      rw [hread] at hverdict
      dsimp only at hverdict
      split_ifs at hverdict with hhash
      obtain ⟨hoperation, hname⟩ := mem_of_currentOf hread
      exact ⟨operation, hoperation, hname.trans hkey, hentry ▸ hhash⟩

/-- What stays of the plan's own places: an operation that is not a target has
an entry that no item is about. -/
theorem operation_place (desk : Desk) {operation : Operation} (h : operation ∈ operations) :
    (operation.key ∈ link.ops.keys ∧
        operation.key ∉ (diffSpec desk link operations requests).changed.map (·.key) ++
          (diffSpec desk link operations requests).removed.map (·.key)) ∨
      operation.key ∈ (diffSpec desk link operations requests).changed.map (·.newKey) ∨
      operation.key ∈ (diffSpec desk link operations requests).added.map (·.key) := by
  have hpartition := partitions_diffSpec desk link operations requests hkeys
  have hentries := hpartition.entries.nodup_iff.2 hpartition.entries_distinct
  rw [List.append_assoc, List.nodup_append] at hentries
  have hplace := hpartition.covered.symm.subset (List.mem_map_of_mem h)
  simp only [List.mem_append] at hplace
  rcases hplace with ((hkept | hchanged) | hadded) | horphaned
  · left
    obtain ⟨known, hknown, hkey⟩ := List.mem_map.1 hkept
    refine ⟨hkey ▸ mem_keys_of_known (List.mem_filter.1 hknown).1, ?_⟩
    intro hitem
    exact hentries.2.2 _ hkept _ hitem rfl
  · exact .inr (.inl hchanged)
  · exact .inr (.inr hadded)
  · left
    obtain ⟨found, hfound, hkey⟩ := List.mem_map.1 horphaned
    obtain ⟨-, entry, hentry, -⟩ := mem_orphanedOf.1 hfound
    refine ⟨?_, ?_⟩
    · rw [← hkey]
      exact List.mem_map.2 ⟨_, Record.mem_of_read hentry, rfl⟩
    · intro hitem
      obtain ⟨known, hknown, hname⟩ := known_of_item hkeys hitem
      exact not_orphaned_of_known hknown hfound (hkey.trans hname.symm)

/-- After the three steps every operation has an entry, and the entries fit. -/
theorem settled_after (drawn : Drawn link) {made : Operation → Request} {uuid : Nat → String} {updated after : Applied}
    (hmade : ∀ operation, (made operation).id = (drawn.request operation).id)
    (huuid : ∀ index entry, entry ∈ link.ops → entry.2.requestId ≠ uuid index)
    (hupdated : Updated operations drawn.uuid (diffSpec desk link operations requests).changed
      (removeRequests (diffSpec desk link operations requests).removed ⟨link, requests⟩) updated)
    (hafter : Added operations made uuid (diffSpec desk link operations requests).added updated after) :
    isEmptyPlan (diffSpec desk after.link operations after.requests) = true := by
  apply isEmptyPlan_of_settled hkeys
  · intro operation hmem
    apply hafter.keys
    rcases operation_place hkeys desk hmem with ⟨hlinked, huntouched⟩ | hchanged | hadded
    · left
      apply hupdated.keys
      left
      rw [List.mem_append, not_or] at huntouched
      obtain ⟨entry, hentry⟩ := mem_keys_iff.1 hlinked
      exact ⟨mem_keys_iff.2 ⟨entry, mem_delete_foldl.2 ⟨hentry, huntouched.2⟩⟩, huntouched.1⟩
    · exact .inl (hupdated.keys _ (.inr hchanged))
    · exact .inr hadded
  · intro key entry hmem hpresent
    rcases hafter.entries key entry hmem with hmem | hfits
    · rcases hupdated.entries key entry hmem with ⟨hmem, hunchanged⟩ | hfits
      · obtain ⟨hlinked, hstays⟩ := mem_delete_foldl.1 hmem
        apply @fits_of_untouched desk operations requests link hkeys key entry hlinked
        · rw [List.mem_append, not_or]
          exact ⟨hunchanged, hstays⟩
        · -- A request that was not there is not there now: no id is drawn twice.
          intro habsent
          apply hpresent
          apply hafter.absent
          · apply hupdated.absent
            · intro request hrequest
              exact habsent request (List.mem_filter.1 hrequest).1
            · exact fun index => drawn.uuid_fresh index _ hlinked
          · exact fun index => huuid index _ hlinked
          · intro operation
            rw [hmade]
            exact drawn.request_fresh operation _ hlinked
      · exact hfits
    · exact hfits

/-- The whole plan can be carried out, and nothing is left to do. -/
theorem apply_settles (desk : Desk) (requests : List Request) (drawn : Drawn link) :
    ∃ after, apply desk link drawn operations requests (diffSpec desk link operations requests)
        (allKeys (diffSpec desk link operations requests)) = some after ∧
      isEmptyPlan (diffSpec desk after.link operations after.requests) = true := by
  have hplaces := (partitions_diffSpec desk link operations requests hkeys).covered
  have hgenerated : ∀ key ∈ (diffSpec desk link operations requests).added.map (·.key) ++
      (diffSpec desk link operations requests).changed.map (·.newKey), ∃ entry, Generates operations
        (fun operation => desk.withoutActiveContent (drawn.request operation)) (generatedOf operations
          (fun operation => desk.withoutActiveContent (drawn.request operation))
          ((diffSpec desk link operations requests).added.map (·.key) ++
            (diffSpec desk link operations requests).changed.map (·.newKey))) key entry := by
    intro key hmem
    apply generates_of_mem hkeys _ hmem
    apply hplaces.subset
    rcases List.mem_append.1 hmem with hadded | hchanged
    · exact List.mem_append_left _ (List.mem_append_right _ hadded)
    · exact List.mem_append_left _ (List.mem_append_left _ (List.mem_append_right _ hchanged))
  obtain ⟨updated, hupdate, hupdated⟩ := @updateRequests_eq desk operations _ _ drawn.uuid
    (removeRequests (diffSpec desk link operations requests).removed ⟨link, requests⟩) _ (changed_apart hkeys)
    fun key hmem => hgenerated key (List.mem_append_right _ hmem)
  have hadded : ∀ operation ∈ (diffSpec desk link operations requests).added, operation ∈ operations := by
    intro operation hmem
    exact (mem_freshOf.1 (List.mem_filter.1 hmem).1).1
  obtain ⟨after, hadd, hafter⟩ := @addRequests_eq desk operations _ _
    (fun index => drawn.uuid ((diffSpec desk link operations requests).changed.length + index)) updated _ hadded
    fun key hmem => hgenerated key (List.mem_append_left _ hmem)
  refine ⟨after, ?_, ?_⟩
  · unfold apply
    dsimp only
    rw [selectedChanges_allKeys, hupdate]
    exact hadd
  · apply settled_after hkeys drawn _ _ hupdated hafter
    · exact fun operation => desk.id_withoutActiveContent _
    · exact fun index => drawn.uuid_fresh _

end Whole

/-- A plan is a partition of the entries and of the operations, its items can be
picked one by one, and after all of it is carried out the next plan is empty. -/
theorem diffSpec_plans (desk : Desk) (link : Link) (operations : List Operation) (requests : List Request)
    (hkeys : (operations.map (·.key)).Nodup) :
    Partitions link operations requests (diffSpec desk link operations requests) ∧
      (∀ (pickAdded : Operation → Bool) (pickChanged pickRemoved : Change → Bool), ∃ selected,
        selectedChanges (diffSpec desk link operations requests) selected =
          { diffSpec desk link operations requests with
            added := (diffSpec desk link operations requests).added.filter pickAdded
            changed := (diffSpec desk link operations requests).changed.filter pickChanged
            removed := (diffSpec desk link operations requests).removed.filter pickRemoved }) ∧
      ∀ drawn : Drawn link, ∃ after,
        apply desk link drawn operations requests (diffSpec desk link operations requests)
            (allKeys (diffSpec desk link operations requests)) = some after ∧
          isEmptyPlan (diffSpec desk after.link operations after.requests) = true := by
  have hpartition := partitions_diffSpec desk link operations requests hkeys
  exact ⟨hpartition, selectedChanges_any hpartition.keys, apply_settles hkeys desk requests⟩

end

/-! ## An operation that was moved -/

def plainDesk : Desk where
  numerals := ⟨fun _ => "0", fun _ => none⟩
  normalizeRequest request := request
  id_normalizeRequest _ := rfl
  withoutActiveContent request := request
  id_withoutActiveContent _ := rfl

/-- `GET /pets` is the request `r1`; the request of `GET /dogs` was deleted. -/
def petsLink : Link where
  ops := [("GET /pets", ⟨"r1", "h1", "", "listPets"⟩), ("GET /dogs", ⟨"r2", "h2", "", "listDogs"⟩)]
  distinct := by decide

def petsRequest : Request := ⟨"r1", fun _ => "", fun _ => "", ""⟩

/-- The pets are now at another path, next to a new operation. -/
def petsOperations : List Operation :=
  [⟨"GET /v2/pets", "h3", "listPets"⟩, ⟨"POST /v2/pets", "h4", "addPet"⟩]

/-- A backend whose requests have no ids yet, and whose ids begin with a `u`. -/
def petsDrawn : Drawn petsLink where
  request _ := ⟨"", fun _ => "", fun _ => "", ""⟩
  request_fresh := by simp [petsLink]
  uuid index := String.ofList ('u' :: (toString index).toList)
  uuid_fresh := by
    intro index entry hentry heq
    have hfirst := congrArg (fun text => text.toList.head?) heq
    simp only [String.toList_ofList, List.head?_cons] at hfirst
    simp only [petsLink, List.mem_cons, List.not_mem_nil, or_false] at hentry
    rcases hentry with rfl | rfl <;> exact absurd hfirst (by decide)

theorem moved_operation_partitions :
    (petsOperations.map (·.key)).Nodup ∧
      Partitions petsLink petsOperations [petsRequest] (diffSpec plainDesk petsLink petsOperations [petsRequest]) ∧
      ∃ after, apply plainDesk petsLink petsDrawn petsOperations [petsRequest]
          (diffSpec plainDesk petsLink petsOperations [petsRequest])
          (allKeys (diffSpec plainDesk petsLink petsOperations [petsRequest])) = some after ∧
        isEmptyPlan (diffSpec plainDesk after.link petsOperations after.requests) = true := by
  obtain ⟨hpartition, -, happlied⟩ := diffSpec_plans plainDesk petsLink petsOperations [petsRequest] (by decide)
  exact ⟨by decide, hpartition, happlied petsDrawn⟩

example : (diffSpec plainDesk petsLink petsOperations [petsRequest]).changed.map (·.newKey) = ["GET /v2/pets"] := by
  decide +kernel

example : (apply plainDesk petsLink petsDrawn petsOperations [petsRequest]
    (diffSpec plainDesk petsLink petsOperations [petsRequest])
    (allKeys (diffSpec plainDesk petsLink petsOperations [petsRequest]))).map
      (fun after => (after.link.ops.map fun entry => (entry.1, entry.2.requestId), after.requests.map (·.id))) =
    some ([("GET /dogs", "r2"), ("GET /v2/pets", "r1"), ("POST /v2/pets", "u1")], ["r1", "u1"]) := by
  decide +kernel

end Gostman.Specs
