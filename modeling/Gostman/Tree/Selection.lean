import Gostman.Lib.Uncycle
import Gostman.Tree.Moved
import Mathlib.Data.List.Perm.Subperm
/-!
# What is selected (`lib/treeSelection.js`)

Several folders and requests can be moved, copied or deleted together.
`outermostEntries` leaves out what is in a folder that is selected too.
-/

namespace Gostman.Tree

open Gostman.Lib Gostman.Js

namespace Collection

def holders (c : Collection) : Record String String :=
  Record.ofEntries (c.requests.map fun request => (request.id, request.parent.getD rootId))

/-- `containerOf` of `outermostEntries`. -/
def entryContainer (c : Collection) (entry : Entry) : Option String :=
  (if entry.kind = .folder then c.parents else c.holders).read entry.id

end Collection

/-- The loop of `isCovered`, with the rounds left. -/
def coveredFrom (parents : Record String String) (chosen : List String) : Nat → List String → Option String → Option Bool
  | 0, _, _ => none
  | _ + 1, _, none => some false
  | left + 1, seen, some id =>
      if id = rootId ∨ id ∈ seen then some false
      else if id ∈ chosen then some true
      else coveredFrom parents chosen left (id :: seen) (parents.read id)

def isCovered (c : Collection) (chosen : List String) (entry : Entry) : Option Bool :=
  coveredFrom c.parents chosen (c.parents.length + 2) [] (c.entryContainer entry)

def chosenFolders (entries : List Entry) : List String :=
  (entries.filter fun entry => entry.kind = .folder).map Entry.id

def outermostEntries (c : Collection) (entries : List Entry) : Option (List Entry) :=
  entries.filterM fun entry => (isCovered c (chosenFolders entries) entry).map not

theorem filterM_some {α : Type} {f : α → Option Bool} {keep : α → Bool} {items : List α}
    (h : ∀ item ∈ items, f item = some (keep item)) : items.filterM f = some (items.filter keep) := by
  have hgo : ∀ kept, List.filterAuxM f items kept = some ((items.filter keep).reverse ++ kept) := by
    induction items with
    | nil => exact fun kept => rfl
    | cons item items ih =>
      intro kept
      obtain ⟨hitem, hitems⟩ := List.forall_mem_cons.1 h
      rw [List.filterAuxM, hitem, Option.bind_eq_bind, Option.bind_some, ih hitems, List.filter_cons]
      cases keep item <;> simp
  rw [List.filterM, hgo]
  simp

namespace Collection

variable {c : Collection}

def entryPlace (c : Collection) (entry : Entry) : Option String :=
  known c.parentOf (c.entryContainer entry)

def Acyclic (c : Collection) : Prop :=
  ∀ id, ¬ Relation.TransGen c.IsIn id id

theorem isIn_of_above {id next : String} (h : above c.parentOf id = some next) : c.IsIn id next := by
  obtain ⟨folder, hmem, rfl⟩ := mem_of_above h
  simpa [h] using isIn_above hmem

theorem isIn_of_below {ancestor id : String} {levels : Nat}
    (h : Below (above c.parentOf) ancestor (levels + 1) id) : Relation.TransGen c.IsIn id ancestor := by
  induction levels generalizing id with
  | zero =>
    obtain ⟨next, hnext, rfl⟩ := h
    exact .single (isIn_of_above hnext)
  | succ levels ih =>
    obtain ⟨next, hnext, hrest⟩ := h
    exact .head (isIn_of_above hnext) (ih hrest)

namespace Acyclic

theorem rooted (h : c.Acyclic) (start : Option String) : Rooted (above c.parentOf) start := by
  have hitems : ∀ id, (above c.parentOf id).isSome → id ∈ c.folders.map (·.id) := by
    intro id hid
    obtain ⟨next, hnext⟩ := Option.isSome_iff_exists.1 hid
    obtain ⟨folder, hmem, rfl⟩ := mem_of_above hnext
    exact List.mem_map.2 ⟨folder, hmem, rfl⟩
  exact rooted_of_acyclic hitems (fun id levels hbelow => h id (isIn_of_below hbelow)) start

/-- All folders are inside the root, so none is the root. -/
theorem root_unknown (h : c.Acyclic) : c.parentOf.has rootId = false := by
  rw [Bool.eq_false_iff, ne_eq, parentOf_has]
  rintro ⟨folder, hmem, hroot⟩
  obtain ⟨count, hclimbs⟩ := h.rooted (some folder.id)
  have hinside := inside_root hclimbs folder hmem rfl
  rw [hroot] at hinside
  exact h rootId hinside

end Acyclic

theorem parents_read_eq (c : Collection) (id : String) :
    c.parents.read id = (c.parentOf.read id).map fun parent => parent.getD rootId := by
  have hmapped := Record.read_ofEntries_mapped (c.folders.map fun folder => (folder.id, folder.parent))
    (fun parent : Option String => parent.getD rootId) id
  rw [List.map_map] at hmapped
  exact hmapped

theorem parents_known (h : c.Acyclic) {id : String} (hhas : c.parentOf.has id = true) :
    known c.parentOf (c.parents.read id) = above c.parentOf id := by
  obtain ⟨parent, hread⟩ := Option.isSome_iff_exists.1 hhas
  rw [parents_read_eq, above, hread, Option.map_some, Option.join_some]
  cases parent with
  | none => simp [known, Option.filter, h.root_unknown]
  | some next => rfl

theorem parents_unknown {id : String} (hhas : ¬ c.parentOf.has id = true) : c.parents.read id = none := by
  rw [← parents_has] at hhas
  simpa [Record.has] using hhas

theorem coveredFrom_spec (h : c.Acyclic) {chosen : List String} (hchosen : ∀ id ∈ chosen, c.parentOf.has id = true)
    {count : Nat} {container : Option String} (hclimbs : Climbs (above c.parentOf) (known c.parentOf container) count)
    {left : Nat} {seen : List String} (hnodup : seen.Nodup)
    (hseen : ∀ id ∈ seen, c.parents.has id = true ∧ ∃ more, count < more ∧ Climbs (above c.parentOf) (some id) more)
    (hleft : c.parents.length + 1 < seen.length + left) :
    ∃ covered, coveredFrom c.parents chosen left seen container = some covered ∧
      (covered = true ↔ ∃ id ∈ chosen, OnWay (above c.parentOf) id (known c.parentOf container)) := by
  have hlength : seen.length ≤ c.parents.length := by
    rw [← Record.length_keys]
    exact (List.subperm_of_subset hnodup fun id hid => Record.has_iff.1 (hseen id hid).1).length_le
  have hnone : ¬ ∃ id ∈ chosen, OnWay (above c.parentOf) id none := by
    rintro ⟨_, -, _, _, hstart, -⟩
    cases hstart
  induction left generalizing container seen count with
  | zero => omega
  | succ left ih =>
    cases container with
    | none => exact ⟨false, rfl, by simpa [known] using hnone⟩
    | some id =>
      rw [coveredFrom]
      by_cases hhas : c.parentOf.has id = true
      · have hknown : known c.parentOf (some id) = some id := Option.filter_eq_some_iff.2 ⟨rfl, hhas⟩
        have hroot : id ≠ rootId := by
          rintro rfl
          simp [h.root_unknown] at hhas
        have hnew : id ∉ seen := by
          intro hid
          obtain ⟨-, more, hlt, hmore⟩ := hseen id hid
          have heq := hmore.unique (hknown ▸ hclimbs)
          omega
        rw [if_neg (not_or.2 ⟨hroot, hnew⟩), hknown]
        split_ifs with hin
        · exact ⟨true, rfl, by simpa using ⟨id, hin, 0, id, rfl, rfl⟩⟩
        · rw [hknown] at hclimbs
          cases hclimbs with
          | @step _ count hrest =>
            have hnext := parents_known h hhas
            have hnodup' : (id :: seen).Nodup := List.nodup_cons.2 ⟨hnew, hnodup⟩
            have hseen' : ∀ other ∈ id :: seen, c.parents.has other = true ∧
                ∃ more, count < more ∧ Climbs (above c.parentOf) (some other) more := by
              intro other hother
              obtain rfl | hother := List.mem_cons.1 hother
              · exact ⟨(parents_has c other).trans hhas, count + 1, by omega, .step hrest⟩
              · obtain ⟨hother, more, hlt, hmore⟩ := hseen other hother
                exact ⟨hother, more, by omega, hmore⟩
            have hlength' : (id :: seen).length ≤ c.parents.length := by
              rw [← Record.length_keys]
              exact (List.subperm_of_subset hnodup' fun id hid => Record.has_iff.1 (hseen' id hid).1).length_le
            have hleft' : c.parents.length + 1 < (id :: seen).length + left := by
              rw [List.length_cons]
              omega
            obtain ⟨covered, hcovered, hiff⟩ := ih (hnext.symm ▸ hrest) hnodup' hseen' hleft' hlength'
            refine ⟨covered, hcovered, hiff.trans ?_⟩
            rw [hnext]
            constructor
            · rintro ⟨other, hother, hway⟩
              exact ⟨other, hother, hway.step⟩
            · rintro ⟨other, hother, levels, next, hstart, hbelow⟩
              obtain rfl := Option.some.inj hstart
              cases levels with
              | zero =>
                obtain rfl : id = other := hbelow
                exact absurd hother hin
              | succ levels =>
                obtain ⟨next, hnext, hrest⟩ := hbelow
                exact ⟨other, hother, levels, next, hnext, hrest⟩
      · have hknown : known c.parentOf (some id) = none := by simp [known, Option.filter, hhas]
        have hin : id ∉ chosen := fun hid => hhas (hchosen id hid)
        rw [hknown]
        split_ifs
        · exact ⟨false, rfl, by simpa using hnone⟩
        · obtain ⟨less, rfl⟩ : ∃ less, left = less + 1 := ⟨left - 1, by omega⟩
          rw [parents_unknown hhas, coveredFrom]
          exact ⟨false, rfl, by simpa using hnone⟩

/-- What is left out is in a folder that is kept, and nothing kept is in a selected folder. -/
theorem outermostEntries_spec (h : c.Acyclic) {entries : List Entry}
    (hentries : ∀ entry ∈ entries, entry.kind = .folder → c.parentOf.has entry.id = true) :
    ∃ kept, outermostEntries c entries = some kept ∧ kept.Sublist entries ∧
      (∀ entry ∈ entries, entry ∉ kept → ∃ folder ∈ kept, folder.kind = .folder ∧
        OnWay (above c.parentOf) folder.id (c.entryPlace entry)) ∧
      ∀ entry ∈ kept, ∀ folder ∈ entries, folder.kind = .folder →
        ¬ OnWay (above c.parentOf) folder.id (c.entryPlace entry) := by
  classical
  have hchosen (id : String) : id ∈ chosenFolders entries ↔ ∃ folder ∈ entries, folder.kind = .folder ∧ folder.id = id := by
    simp [chosenFolders, and_assoc]
  have hhas : ∀ id ∈ chosenFolders entries, c.parentOf.has id = true := by
    intro id hid
    obtain ⟨folder, hmem, hkind, rfl⟩ := (hchosen id).1 hid
    exact hentries folder hmem hkind
  let covered (entry : Entry) : Prop := ∃ id ∈ chosenFolders entries, OnWay (above c.parentOf) id (c.entryPlace entry)
  have hkeep : ∀ entry ∈ entries,
      (isCovered c (chosenFolders entries) entry).map not = some (decide (¬ covered entry)) := by
    intro entry _
    obtain ⟨count, hclimbs⟩ := h.rooted (c.entryPlace entry)
    obtain ⟨b, hb, hiff⟩ := coveredFrom_spec h hhas hclimbs List.nodup_nil (by simp)
      (show c.parents.length + 1 < [].length + (c.parents.length + 2) by simp)
    rw [isCovered, hb, Option.map_some]
    by_cases hcovered : covered entry
    · simp [hiff.2 hcovered, hcovered]
    · have hb : b = false := by simpa using fun hb => hcovered (hiff.1 hb)
      simp [hb, hcovered]
  have hmem (entry : Entry) : entry ∈ entries.filter (fun entry => decide (¬ covered entry)) ↔
      entry ∈ entries ∧ ¬ covered entry := by
    rw [List.mem_filter, decide_eq_true_iff]
  refine ⟨_, filterM_some hkeep, List.filter_sublist, ?_, ?_⟩
  · intro entry hentry hout
    have hcovered : covered entry := by
      by_contra hnot
      exact hout ((hmem entry).2 ⟨hentry, hnot⟩)
    -- The last selected folder on the way up is in no other.
    obtain ⟨count, hclimbs⟩ := h.rooted (c.entryPlace entry)
    obtain ⟨id, hid, hway, hlast⟩ := hclimbs.exists_last hcovered
    obtain ⟨folder, hfolder, hkind, rfl⟩ := (hchosen id).1 hid
    refine ⟨folder, (hmem folder).2 ⟨hfolder, ?_⟩, hkind, hway⟩
    rintro ⟨other, hother, hother'⟩
    have hplace : c.entryPlace folder = above c.parentOf folder.id := by
      rw [entryPlace, entryContainer, if_pos hkind]
      exact parents_known h (hhas folder.id hid)
    rw [hplace] at hother'
    exact hlast other hother hother'
  · intro entry hentry folder hfolder hkind hway
    exact ((hmem entry).1 hentry).2 ⟨folder.id, (hchosen folder.id).2 ⟨folder, hfolder, hkind, rfl⟩, hway⟩

end Collection

/-- A folder and another in it are selected. -/
theorem nested_outermost :
    ∃ kept, outermostEntries nested [⟨.folder, "b"⟩, ⟨.folder, "a"⟩] = some kept ∧
      kept.Sublist [⟨.folder, "b"⟩, ⟨.folder, "a"⟩] :=
  have ⟨kept, hkept, hsublist, _⟩ := Collection.outermostEntries_spec nested_arranged.acyclic (by decide)
  ⟨kept, hkept, hsublist⟩

end Gostman.Tree
