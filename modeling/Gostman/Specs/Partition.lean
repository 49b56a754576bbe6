import Gostman.Specs.Sync
import Mathlib.Data.List.Perm.Basic
/-!
# A plan is a partition

Every entry whose request is still there is unchanged, changed or removed, and
every operation is unchanged, the target of a change, added, or linked to a
request that was deleted.  The keys of the plan's items are distinct, so each
can be picked on its own.
-/

namespace Gostman.Specs

open Gostman.Lib Gostman.Js

section

variable (link : Link) (operations : List Operation) (requests : List Request)

inductive Verdict where
  | kept | changed | gone
  deriving DecidableEq

def verdict (current : Record String Operation) (known : Known) : Verdict :=
  match current.read known.key with
  | none => .gone
  | some operation => if operation.hash = known.entry.specHash then .kept else .changed

def withVerdict (wanted : Verdict) : List Known :=
  (knownOf link requests).filter (verdict (currentOf operations) · = wanted)

/-- The operations that are linked to a request that is not there. -/
def orphanedOf : List Operation :=
  operations.filter fun operation =>
    match link.ops.read operation.key with
    | some entry => ((requestsById requests).read entry.requestId).isNone
    | none => false

structure Partitions (plan : Plan) : Prop where
  unchanged : plan.unchanged = (withVerdict link operations requests .kept).length
  entries : ((withVerdict link operations requests .kept).map (·.key) ++ plan.changed.map (·.key) ++
    plan.removed.map (·.key)).Perm ((knownOf link requests).map (·.key))
  entries_distinct : ((knownOf link requests).map (·.key)).Nodup
  covered : ((withVerdict link operations requests .kept).map (·.key) ++ plan.changed.map (·.newKey) ++
    plan.added.map (·.key) ++ (orphanedOf link operations requests).map (·.key)).Perm (operations.map (·.key))
  targets : ((withVerdict link operations requests .kept).map (·.key) ++ plan.changed.map (·.newKey)).Nodup
  keys : (plan.added.map (·.key) ++ plan.changed.map (·.key) ++ plan.removed.map (·.key)).Nodup

end

/-! ## The two loops -/

section Loops

variable {desk : Desk}

theorem filter_verdict_perm {α : Type*} (verdicts : α → Verdict) (items : List α) :
    (items.filter (verdicts · = .kept) ++ items.filter (verdicts · = .changed) ++
      items.filter (verdicts · = .gone)).Perm items := by
  induction items with
  | nil => simp
  | cons item rest ih =>
      cases h : verdicts item with
      | kept => simpa [h] using ih
      | changed =>
          simp only [h, List.filter_cons, reduceCtorEq, decide_false, decide_true, if_true, Bool.false_eq_true,
            if_false, List.append_assoc, List.cons_append]
          exact List.perm_middle.trans ((List.append_assoc _ _ _ ▸ ih).cons item)
      | gone =>
          simp only [h, List.filter_cons, reduceCtorEq, decide_false, decide_true, if_true, Bool.false_eq_true,
            if_false]
          exact List.perm_middle.trans (ih.cons item)

theorem sorted_foldl (current : Record String Operation) (knowns : List Known) (sorted : Sorted) :
    knowns.foldl (Sorted.add desk current) sorted =
      { changed := sorted.changed ++ (knowns.filter (verdict current · = .changed)).map
          fun known => describe desk known known.key (current.read known.key)
        gone := sorted.gone ++ knowns.filter (verdict current · = .gone)
        unchanged := sorted.unchanged + (knowns.filter (verdict current · = .kept)).length } := by
  induction knowns generalizing sorted with
  | nil => simp
  | cons known rest ih =>
      rw [List.foldl_cons, ih, Sorted.add]
      cases hread : current.read known.key with
      | none =>
          have hverdict : verdict current known = .gone := by rw [verdict, hread]
          simp [hverdict]
      | some operation =>
          dsimp only
          split_ifs with hhash
          · have hverdict : verdict current known = .kept := by rw [verdict, hread]; exact if_pos hhash
            simp [hverdict, Nat.add_assoc, Nat.add_comm 1]
          · have hverdict : verdict current known = .changed := by rw [verdict, hread]; exact if_neg hhash
            simp [hverdict, hread]

/-- What the second loop adds: changes with targets of their own, and
removals. -/
structure Rematches (fresh : Record String Operation) (gone : List Known) (moved : List String)
    (changed removed : List Change) : Prop where
  entries : (changed.map (·.key) ++ removed.map (·.key)).Perm (gone.map (·.key))
  targets : ∀ change ∈ changed, ∃ name operation, fresh.read name = some operation ∧ change.newKey = operation.key
  distinct : moved.Nodup → (moved ++ changed.map (·.newKey)).Nodup

theorem rematched_foldl (fresh : Record String Operation) (gone : List Known) (rematched : Rematched) :
    ∃ changed removed, gone.foldl (Rematched.add desk fresh) rematched =
        ⟨rematched.moved ++ changed.map (·.newKey), rematched.changed ++ changed, rematched.removed ++ removed⟩ ∧
      Rematches fresh gone rematched.moved changed removed := by
  induction gone generalizing rematched with
  | nil => exact ⟨[], [], by simp, ⟨by simp, by simp, by simp⟩⟩
  | cons known rest ih =>
      rw [List.foldl_cons]
      obtain ⟨changed, removed, hfold, hrest⟩ := ih (Rematched.add desk fresh rematched known)
      -- An entry is removed where it has no target, or one that is taken.
      have hremoved : Rematched.add desk fresh rematched known =
            { rematched with removed := rematched.removed ++ [describe desk known "" none] } →
          ∃ changed removed, rest.foldl (Rematched.add desk fresh) (Rematched.add desk fresh rematched known) =
              ⟨rematched.moved ++ changed.map (·.newKey), rematched.changed ++ changed, rematched.removed ++ removed⟩ ∧
            Rematches fresh (known :: rest) rematched.moved changed removed := by
        intro hadd
        refine ⟨changed, describe desk known "" none :: removed, ?_, ?_, hrest.targets, ?_⟩
        · rw [hfold, hadd]
          simp
        · exact List.perm_middle.trans (hrest.entries.cons _)
        · intro hmoved
          have hdistinct := hrest.distinct
          rw [hadd] at hdistinct
          exact hdistinct hmoved
      cases htarget : (if known.entry.operationId = "" then none else fresh.read known.entry.operationId) with
      | none =>
          apply hremoved
          rw [Rematched.add, htarget]
      | some operation =>
          by_cases hmem : operation.key ∈ rematched.moved
          · apply hremoved
            rw [Rematched.add, htarget]
            exact if_pos hmem
          · have hadd : Rematched.add desk fresh rematched known =
                { rematched with
                  moved := rematched.moved ++ [operation.key]
                  changed := rematched.changed ++ [describe desk known operation.key (some operation)] } := by
              rw [Rematched.add, htarget]
              exact if_neg hmem
            refine ⟨describe desk known operation.key (some operation) :: changed, removed, ?_, ?_, ?_, ?_⟩
            · rw [hfold, hadd]
              simp [describe]
            · exact hrest.entries.cons _
            · intro change hchange
              rcases List.mem_cons.1 hchange with rfl | hchange
              · split_ifs at htarget
                exact ⟨_, operation, htarget, rfl⟩
              · exact hrest.targets change hchange
            · intro hmoved
              have hdistinct := hrest.distinct
              rw [hadd] at hdistinct
              have hnodup := hdistinct (List.nodup_append.2 ⟨hmoved, List.nodup_singleton _, by
                intro a ha b hb hab
                rw [List.mem_singleton.1 hb] at hab
                exact hmem (hab ▸ ha)⟩)
              simpa [describe] using hnodup

end Loops

/-! ## Entries, operations and requests -/

section Reading

variable {desk : Desk} {link : Link} {operations : List Operation} {requests : List Request}

theorem mem_knownOf {known : Known} : known ∈ knownOf link requests ↔
    (known.key, known.entry) ∈ link.ops ∧
      (requestsById requests).read known.entry.requestId = some known.request := by
  unfold knownOf
  rw [List.mem_filterMap]
  constructor
  · rintro ⟨⟨key, entry⟩, hmem, hfound⟩
    obtain ⟨request, hrequest, rfl⟩ := Option.map_eq_some_iff.1 hfound
    exact ⟨hmem, hrequest⟩
  · rintro ⟨hmem, hrequest⟩
    refine ⟨(known.key, known.entry), hmem, ?_⟩
    dsimp only
    rw [hrequest]
    rfl

theorem knownOf_keys_sublist (requests : List Request) (ops : Record String Entry) :
    ((ops.filterMap fun (key, entry) => ((requestsById requests).read entry.requestId).map fun request =>
      (⟨key, entry, request⟩ : Known)).map (·.key)).Sublist ops.keys := by
  induction ops with
  | nil => exact List.Sublist.slnil
  | cons head rest ih =>
      obtain ⟨key, entry⟩ := head
      rw [List.filterMap_cons]
      dsimp only
      cases (requestsById requests).read entry.requestId with
      | none => exact ih.cons key
      | some request => exact ih.cons_cons key

theorem knownOf_keys_nodup : ((knownOf link requests).map (·.key)).Nodup :=
  link.distinct.sublist (knownOf_keys_sublist requests link.ops)

theorem mem_of_currentOf {key : String} {operation : Operation} (h : (currentOf operations).read key = some operation) :
    operation ∈ operations ∧ operation.key = key := by
  obtain ⟨found, hfound, heq⟩ := List.mem_map.1 (Record.mem_of_read_ofEntries h)
  cases heq
  exact ⟨hfound, rfl⟩

theorem currentOf_of_mem (hkeys : (operations.map (·.key)).Nodup) {operation : Operation} (h : operation ∈ operations) :
    (currentOf operations).read operation.key = some operation := by
  apply Record.read_ofEntries_of_mem
  · rw [Record.keys, List.map_map]
    exact hkeys
  · exact List.mem_map.2 ⟨operation, h, rfl⟩

theorem mem_freshOf {operation : Operation} :
    operation ∈ freshOf link operations ↔ operation ∈ operations ∧ operation.key ∉ link.ops.keys := by
  simp [freshOf]

theorem mem_of_freshByOperationId {name : String} {operation : Operation}
    (h : (freshByOperationId link operations).read name = some operation) : operation ∈ freshOf link operations := by
  obtain ⟨found, hfound, heq⟩ := List.mem_map.1 (Record.mem_of_read_ofEntries h)
  cases heq
  exact (List.mem_filter.1 hfound).1

theorem mem_keys_of_known {known : Known} (h : known ∈ knownOf link requests) : known.key ∈ link.ops.keys :=
  List.mem_map.2 ⟨_, (mem_knownOf.1 h).1, rfl⟩

/-- The operation of an entry that is not gone. -/
theorem operation_of_verdict {known : Known} (h : verdict (currentOf operations) known ≠ .gone) :
    ∃ operation ∈ operations, operation.key = known.key := by
  unfold verdict at h
  cases hread : (currentOf operations).read known.key with
  | none => simp [hread] at h
  | some operation => exact ⟨operation, (mem_of_currentOf hread).1, (mem_of_currentOf hread).2⟩

theorem mem_orphanedOf {operation : Operation} : operation ∈ orphanedOf link operations requests ↔
    operation ∈ operations ∧ ∃ entry, link.ops.read operation.key = some entry ∧
      (requestsById requests).read entry.requestId = none := by
  unfold orphanedOf
  rw [List.mem_filter]
  cases link.ops.read operation.key <;> simp

/-! ## The plan -/

/-- The changes and removals of the second loop. -/
theorem diffSpec_eq (desk : Desk) (link : Link) (operations : List Operation) (requests : List Request) :
    ∃ moved removed,
      diffSpec desk link operations requests =
        { added := (freshOf link operations).filter (·.key ∉ moved.map (·.newKey))
          changed := ((withVerdict link operations requests .changed).map fun known =>
            describe desk known known.key ((currentOf operations).read known.key)) ++ moved
          removed := removed
          unchanged := (withVerdict link operations requests .kept).length } ∧
      Rematches (freshByOperationId link operations) (withVerdict link operations requests .gone) [] moved removed := by
  have hsorted := @sorted_foldl desk (currentOf operations) (knownOf link requests) ⟨[], [], 0⟩
  simp only [List.nil_append, Nat.zero_add] at hsorted
  obtain ⟨moved, removed, hfold, hrematches⟩ := @rematched_foldl desk (freshByOperationId link operations)
    (withVerdict link operations requests .gone)
    ⟨[], (withVerdict link operations requests .changed).map fun known =>
      describe desk known known.key ((currentOf operations).read known.key), []⟩
  refine ⟨moved, removed, ?_, hrematches⟩
  unfold diffSpec rematchedOf sortedOf
  rw [hsorted]
  unfold withVerdict at hfold ⊢
  dsimp only
  rw [hfold]
  simp

section Moved

variable {moved removed : List Change}
  (h : Rematches (freshByOperationId link operations) (withVerdict link operations requests .gone) [] moved removed)
include h

theorem fresh_of_moved {key : String} (hmem : key ∈ moved.map (·.newKey)) :
    ∃ operation ∈ freshOf link operations, operation.key = key := by
  obtain ⟨change, hchange, rfl⟩ := List.mem_map.1 hmem
  obtain ⟨name, operation, hread, hkey⟩ := h.targets change hchange
  exact ⟨operation, mem_of_freshByOperationId hread, hkey.symm⟩

theorem moved_nodup : (moved.map (·.newKey)).Nodup :=
  h.distinct List.nodup_nil

/-- The keys that are targets: of entries of the same key, and of moved ones. -/
theorem targets_nodup : ((withVerdict link operations requests .kept).map (·.key) ++
    (withVerdict link operations requests .changed).map (·.key) ++ moved.map (·.newKey)).Nodup := by
  have hknown := (((filter_verdict_perm (verdict (currentOf operations)) (knownOf link requests)).map (·.key)).nodup_iff).2
    knownOf_keys_nodup
  rw [List.map_append, List.map_append] at hknown
  rw [List.nodup_append]
  refine ⟨hknown.sublist (List.sublist_append_left _ _), moved_nodup h, ?_⟩
  rintro key hlinked _ hmoved rfl
  obtain ⟨operation, hfresh, rfl⟩ := fresh_of_moved h hmoved
  apply (mem_freshOf.1 hfresh).2
  rw [← List.map_append] at hlinked
  obtain ⟨known, hmem, hkey⟩ := List.mem_map.1 hlinked
  rw [← hkey]
  rcases List.mem_append.1 hmem with hmem | hmem <;> exact mem_keys_of_known (List.mem_filter.1 hmem).1

theorem entries_perm : ((withVerdict link operations requests .kept).map (·.key) ++
    ((withVerdict link operations requests .changed).map (·.key) ++ moved.map (·.key)) ++
      removed.map (·.key)).Perm ((knownOf link requests).map (·.key)) := by
  have hperm := (filter_verdict_perm (verdict (currentOf operations)) (knownOf link requests)).map (·.key)
  rw [List.map_append, List.map_append] at hperm
  refine List.Perm.trans ?_ hperm
  rw [← List.append_assoc, List.append_assoc _ (moved.map _)]
  exact h.entries.append_left _

end Moved

theorem operation_cases (hkeys : (operations.map (·.key)).Nodup) {operation : Operation} (h : operation ∈ operations) :
    (∃ known ∈ knownOf link requests, known.key = operation.key ∧ verdict (currentOf operations) known ≠ .gone) ∨
      operation ∈ freshOf link operations ∨ operation ∈ orphanedOf link operations requests := by
  cases hentry : link.ops.read operation.key with
  | none => exact .inr (.inl (mem_freshOf.2 ⟨h, (Record.read_eq_none_iff _ _).1 hentry⟩))
  | some entry =>
      cases hrequest : (requestsById requests).read entry.requestId with
      | none => exact .inr (.inr (mem_orphanedOf.2 ⟨h, entry, hentry, hrequest⟩))
      | some request =>
          left
          refine ⟨⟨operation.key, entry, request⟩, mem_knownOf.2 ⟨Record.mem_of_read hentry, hrequest⟩, rfl, ?_⟩
          unfold verdict
          rw [currentOf_of_mem hkeys h]
          dsimp only
          split_ifs <;> decide

/-- No operation is both the target of an entry and linked to a deleted
request. -/
theorem not_orphaned_of_known {known : Known} (h : known ∈ knownOf link requests) {operation : Operation}
    (horphaned : operation ∈ orphanedOf link operations requests) : operation.key ≠ known.key := by
  intro hkey
  obtain ⟨hmem, hrequest⟩ := mem_knownOf.1 h
  obtain ⟨-, entry, hentry, hnone⟩ := mem_orphanedOf.1 horphaned
  rw [hkey, Record.read_of_mem link.distinct hmem] at hentry
  cases hentry
  rw [hrequest] at hnone
  cases hnone

section Places

variable {moved removed : List Change}
  (h : Rematches (freshByOperationId link operations) (withVerdict link operations requests .gone) [] moved removed)
include h

theorem places_nodup (hkeys : (operations.map (·.key)).Nodup) :
    ((withVerdict link operations requests .kept).map (·.key) ++
      (withVerdict link operations requests .changed).map (·.key) ++ moved.map (·.newKey) ++
      ((freshOf link operations).filter (·.key ∉ moved.map (·.newKey))).map (·.key) ++
      (orphanedOf link operations requests).map (·.key)).Nodup := by
  have hlinked : ∀ key ∈ (withVerdict link operations requests .kept).map (·.key) ++
      (withVerdict link operations requests .changed).map (·.key), ∃ known ∈ knownOf link requests, known.key = key := by
    intro key hmem
    rw [← List.map_append] at hmem
    obtain ⟨known, hknown, rfl⟩ := List.mem_map.1 hmem
    refine ⟨known, ?_, rfl⟩
    rcases List.mem_append.1 hknown with hknown | hknown <;> exact (List.mem_filter.1 hknown).1
  have hadded : (((freshOf link operations).filter (·.key ∉ moved.map (·.newKey))).map (·.key)).Nodup :=
    hkeys.sublist ((List.filter_sublist.trans List.filter_sublist).map _)
  have horphaned : ((orphanedOf link operations requests).map (·.key)).Nodup :=
    hkeys.sublist (List.filter_sublist.map _)
  rw [List.nodup_append, List.nodup_append]
  refine ⟨⟨targets_nodup h, hadded, ?_⟩, horphaned, ?_⟩
  · rintro key htarget _ hfresh rfl
    obtain ⟨operation, hmem, rfl⟩ := List.mem_map.1 hfresh
    obtain ⟨hoperation, hfree⟩ := List.mem_filter.1 hmem
    rcases List.mem_append.1 htarget with hkey | hmoved
    · obtain ⟨known, hknown, hkey⟩ := hlinked _ hkey
      exact (mem_freshOf.1 hoperation).2 (hkey ▸ mem_keys_of_known hknown)
    · exact of_decide_eq_true hfree hmoved
  · rintro key hplace _ hdeleted rfl
    obtain ⟨operation, horphan, rfl⟩ := List.mem_map.1 hdeleted
    have hin : operation.key ∈ link.ops.keys := by
      obtain ⟨-, entry, hentry, -⟩ := mem_orphanedOf.1 horphan
      exact List.mem_map.2 ⟨_, Record.mem_of_read hentry, rfl⟩
    rcases List.mem_append.1 hplace with htarget | hfresh
    · rcases List.mem_append.1 htarget with hkey | hmoved
      · obtain ⟨known, hknown, hkey⟩ := hlinked _ hkey
        exact not_orphaned_of_known hknown horphan hkey.symm
      · obtain ⟨found, hfound, hkey⟩ := fresh_of_moved h hmoved
        exact (mem_freshOf.1 hfound).2 (hkey ▸ hin)
    · obtain ⟨found, hfound, hkey⟩ := List.mem_map.1 hfresh
      exact (mem_freshOf.1 (List.mem_filter.1 hfound).1).2 (hkey ▸ hin)

theorem places_perm (hkeys : (operations.map (·.key)).Nodup) :
    ((withVerdict link operations requests .kept).map (·.key) ++
      (withVerdict link operations requests .changed).map (·.key) ++ moved.map (·.newKey) ++
      ((freshOf link operations).filter (·.key ∉ moved.map (·.newKey))).map (·.key) ++
      (orphanedOf link operations requests).map (·.key)).Perm (operations.map (·.key)) := by
  rw [List.perm_ext_iff_of_nodup (places_nodup h hkeys) hkeys]
  intro key
  simp only [List.mem_append]
  constructor
  · rintro ((((hkept | hchanged) | hmoved) | hadded) | horphaned)
    · obtain ⟨known, hmem, rfl⟩ := List.mem_map.1 hkept
      obtain ⟨operation, hoperation, hkey⟩ := @operation_of_verdict operations known (by
        rw [of_decide_eq_true (List.mem_filter.1 hmem).2]
        decide)
      exact List.mem_map.2 ⟨operation, hoperation, hkey⟩
    · obtain ⟨known, hmem, rfl⟩ := List.mem_map.1 hchanged
      obtain ⟨operation, hoperation, hkey⟩ := @operation_of_verdict operations known (by
        rw [of_decide_eq_true (List.mem_filter.1 hmem).2]
        decide)
      exact List.mem_map.2 ⟨operation, hoperation, hkey⟩
    · obtain ⟨operation, hfresh, hkey⟩ := fresh_of_moved h hmoved
      exact List.mem_map.2 ⟨operation, (mem_freshOf.1 hfresh).1, hkey⟩
    · exact ((List.filter_sublist.trans List.filter_sublist).map _).subset hadded
    · exact (List.filter_sublist.map _).subset horphaned
  · intro hmem
    obtain ⟨operation, hoperation, rfl⟩ := List.mem_map.1 hmem
    rcases operation_cases hkeys hoperation with ⟨known, hknown, hkey, hverdict⟩ | hfresh | horphaned
    · left; left; left
      cases hv : verdict (currentOf operations) known with
      | gone => exact absurd hv hverdict
      | kept => exact .inl (List.mem_map.2 ⟨known, List.mem_filter.2 ⟨hknown, decide_eq_true hv⟩, hkey⟩)
      | changed => exact .inr (List.mem_map.2 ⟨known, List.mem_filter.2 ⟨hknown, decide_eq_true hv⟩, hkey⟩)
    · by_cases hmoved : operation.key ∈ moved.map (·.newKey)
      · exact .inl (.inl (.inr hmoved))
      · exact .inl (.inr (List.mem_map.2 ⟨operation, List.mem_filter.2 ⟨hfresh, decide_eq_true hmoved⟩, rfl⟩))
    · exact .inr (List.mem_map.2 ⟨operation, horphaned, rfl⟩)

theorem items_nodup (hkeys : (operations.map (·.key)).Nodup) :
    (((freshOf link operations).filter (·.key ∉ moved.map (·.newKey))).map (·.key) ++
      ((withVerdict link operations requests .changed).map (·.key) ++ moved.map (·.key)) ++
      removed.map (·.key)).Nodup := by
  have hentries := entries_perm h
  rw [List.append_assoc] at hentries
  rw [List.append_assoc, List.nodup_append]
  refine ⟨hkeys.sublist ((List.filter_sublist.trans List.filter_sublist).map _),
    (hentries.nodup_iff.2 knownOf_keys_nodup).sublist (List.sublist_append_right _ _), ?_⟩
  rintro key hadded _ hlinked rfl
  obtain ⟨operation, hmem, rfl⟩ := List.mem_map.1 hadded
  obtain ⟨known, hknown, hkey⟩ := List.mem_map.1 (hentries.subset (List.mem_append_right _ hlinked))
  exact (mem_freshOf.1 (List.mem_filter.1 hmem).1).2 (hkey ▸ mem_keys_of_known hknown)

end Places

/-- `diffSpec` puts every entry and every operation in one place. -/
theorem partitions_diffSpec (desk : Desk) (link : Link) (operations : List Operation) (requests : List Request)
    (hkeys : (operations.map (·.key)).Nodup) :
    Partitions link operations requests (diffSpec desk link operations requests) := by
  obtain ⟨moved, removed, hplan, h⟩ := diffSpec_eq desk link operations requests
  have hchanged : (diffSpec desk link operations requests).changed.map (·.key) =
      (withVerdict link operations requests .changed).map (·.key) ++ moved.map (·.key) := by
    rw [hplan, List.map_append, List.map_map]
    rfl
  have htargets : (diffSpec desk link operations requests).changed.map (·.newKey) =
      (withVerdict link operations requests .changed).map (·.key) ++ moved.map (·.newKey) := by
    rw [hplan, List.map_append, List.map_map]
    rfl
  constructor
  · rw [hplan]
  · rw [hchanged, hplan]
    exact entries_perm h
  · exact knownOf_keys_nodup
  · rw [htargets, hplan, ← List.append_assoc]
    exact places_perm h hkeys
  · rw [htargets, ← List.append_assoc]
    exact targets_nodup h
  · rw [hchanged, hplan]
    exact items_nodup h hkeys

/-- The items whose keys are those of the picked ones. -/
theorem filter_selected {α : Type*} {keyOf : α → String} {items : List α} (hkeys : (items.map keyOf).Nodup)
    (pick : α → Bool) (before after : List String) (hbefore : ∀ item ∈ items, keyOf item ∉ before)
    (hafter : ∀ item ∈ items, keyOf item ∉ after) :
    items.filter (fun item => keyOf item ∈ before ++ (items.filter pick).map keyOf ++ after) = items.filter pick := by
  apply List.filter_congr
  intro item hitem
  rw [Bool.eq_iff_iff, decide_eq_true_eq]
  simp only [List.mem_append, hbefore item hitem, hafter item hitem, false_or, or_false]
  constructor
  · intro hmem
    obtain ⟨picked, hpicked, hkey⟩ := List.mem_map.1 hmem
    obtain ⟨hin, hpick⟩ := List.mem_filter.1 hpicked
    rw [← List.inj_on_of_nodup_map hkeys hin hitem hkey]
    exact hpick
  · intro hpick
    exact List.mem_map.2 ⟨item, List.mem_filter.2 ⟨hitem, hpick⟩, rfl⟩

/-- Where the keys of the items are distinct, any choice of items is a selection
of keys. -/
theorem selectedChanges_any {plan : Plan}
    (hkeys : (plan.added.map (·.key) ++ plan.changed.map (·.key) ++ plan.removed.map (·.key)).Nodup)
    (pickAdded : Operation → Bool) (pickChanged pickRemoved : Change → Bool) :
    ∃ selected, selectedChanges plan selected =
      { plan with
        added := plan.added.filter pickAdded
        changed := plan.changed.filter pickChanged
        removed := plan.removed.filter pickRemoved } := by
  rw [List.nodup_append, List.nodup_append] at hkeys
  obtain ⟨⟨hadded, hchanged, hapart⟩, hremoved, hfar⟩ := hkeys
  have hfarAdded : ∀ operation ∈ plan.added, ∀ change ∈ plan.removed, operation.key ≠ change.key :=
    fun operation hoperation change hchange => hfar _ (List.mem_append_left _ (List.mem_map_of_mem hoperation)) _
      (List.mem_map_of_mem hchange)
  have hfarChanged : ∀ change ∈ plan.changed, ∀ other ∈ plan.removed, change.key ≠ other.key :=
    fun change hchange other hother => hfar _ (List.mem_append_right _ (List.mem_map_of_mem hchange)) _
      (List.mem_map_of_mem hother)
  have hnear : ∀ operation ∈ plan.added, ∀ change ∈ plan.changed, operation.key ≠ change.key :=
    fun operation hoperation change hchange => hapart _ (List.mem_map_of_mem hoperation) _ (List.mem_map_of_mem hchange)
  refine ⟨(plan.added.filter pickAdded).map (·.key) ++ (plan.changed.filter pickChanged).map (·.key) ++
    (plan.removed.filter pickRemoved).map (·.key), ?_⟩
  unfold selectedChanges
  congr 1
  · have hpicked := filter_selected hadded pickAdded [] ((plan.changed.filter pickChanged).map (·.key) ++
      (plan.removed.filter pickRemoved).map (·.key)) (by simp) (by
        intro operation hoperation hmem
        simp only [List.mem_append, List.mem_map, List.mem_filter] at hmem
        rcases hmem with ⟨change, ⟨hchange, -⟩, hkey⟩ | ⟨change, ⟨hchange, -⟩, hkey⟩
        · exact hnear operation hoperation change hchange hkey.symm
        · exact hfarAdded operation hoperation change hchange hkey.symm)
    rwa [List.nil_append, ← List.append_assoc] at hpicked
  · apply filter_selected hchanged
    · intro change hchange hmem
      obtain ⟨operation, hoperation, hkey⟩ := List.mem_map.1 hmem
      exact hnear operation (List.mem_filter.1 hoperation).1 change hchange hkey
    · intro change hchange hmem
      obtain ⟨other, hother, hkey⟩ := List.mem_map.1 hmem
      exact hfarChanged change hchange other (List.mem_filter.1 hother).1 hkey.symm
  · have hpicked := filter_selected hremoved pickRemoved ((plan.added.filter pickAdded).map (·.key) ++
      (plan.changed.filter pickChanged).map (·.key)) [] (by
        intro change hchange hmem
        simp only [List.mem_append, List.mem_map, List.mem_filter] at hmem
        rcases hmem with ⟨operation, ⟨hoperation, -⟩, hkey⟩ | ⟨other, ⟨hother, -⟩, hkey⟩
        · exact hfarAdded operation hoperation change hchange hkey
        · exact hfarChanged other hother change hchange hkey) (by simp)
    rwa [List.append_nil] at hpicked

end Reading

end Gostman.Specs
