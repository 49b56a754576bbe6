import Gostman.Tree.Collection
import Mathlib.Data.ENat.Basic
/-!
# The order of siblings

With a shared order the entries of a container are its folders and its
requests, one after the other, sorted by their orders in a way that keeps the
order of equals.
-/

namespace Gostman.Tree

open Gostman.Lib Gostman.Js

/-! ## Orders -/

/-- Where an order stands: one that is not set comes last. -/
noncomputable def rank (order : Nat) : ℕ∞ :=
  if order = 0 then ⊤ else order

theorem compareOrder_le_iff (first second : Item) :
    compareOrder first second ≤ 0 ↔
      rank (cleanOrder first.sortOrder) ≤ rank (cleanOrder second.sortOrder) := by
  unfold compareOrder rank
  generalize cleanOrder first.sortOrder = a
  generalize cleanOrder second.sortOrder = b
  by_cases hab : a = b
  · simp [hab]
  · by_cases ha : a = 0
    · have hb : b ≠ 0 := fun hb => hab (ha.trans hb.symm)
      simp [ha, hb, hb.symm]
    · by_cases hb : b = 0
      · simp [ha, hb]
      · simp only [hab, ha, hb, if_false, Nat.cast_le]
        omega

theorem compareOrder_lt_iff (first second : Item) :
    compareOrder first second < 0 ↔ ¬ compareOrder second first ≤ 0 := by
  unfold compareOrder
  generalize cleanOrder first.sortOrder = a
  generalize cleanOrder second.sortOrder = b
  simp only
  split_ifs <;> omega

abbrev rowLe (first second : Row) : Prop :=
  compareOrder first.item second.item ≤ 0

instance : IsTrans Row rowLe where
  trans a b c hab hbc := by
    unfold rowLe at hab hbc ⊢
    rw [compareOrder_le_iff] at hab hbc ⊢
    exact hab.trans hbc

instance : Std.Total rowLe where
  total a b := by
    unfold rowLe
    rw [compareOrder_le_iff, compareOrder_le_iff]
    exact le_total _ _

theorem orderSiblings_merge (folders requests : List Item) :
    orderSiblings true folders requests =
      (folders.map fun item => (⟨.folder, item⟩ : Row)).merge
        (requests.map fun item => (⟨.request, item⟩ : Row)) (rowLe · ·) := by
  induction folders generalizing requests with
  | nil =>
    rw [orderSiblings]
    simp
  | cons folder folders ih =>
    induction requests with
    | nil =>
      rw [orderSiblings]
      · simp
      · simp
    | cons request requests ihr =>
      rw [orderSiblings, List.map_cons, List.map_cons, List.cons_merge_cons]
      by_cases hle : compareOrder folder request ≤ 0
      · have hlt : ¬ compareOrder request folder < 0 := by
          rw [compareOrder_lt_iff]
          exact not_not.2 hle
        rw [if_neg (fun h => hlt h.2), if_pos (by simpa using hle), ih, List.map_cons]
      · have hlt : compareOrder request folder < 0 := (compareOrder_lt_iff request folder).2 hle
        rw [if_pos ⟨rfl, hlt⟩, if_neg (by simpa using hle), ihr, List.map_cons]

theorem sortByOrder_map (kind : RowKind) (items : List Item) :
    (sortByOrder items).map (fun item => (⟨kind, item⟩ : Row)) =
      (items.map fun item => (⟨kind, item⟩ : Row)).insertionSort rowLe :=
  List.map_insertionSort _ _ _ items fun _ _ _ _ => Iff.rfl

/-! ## Groups -/

theorem groupBy_read (items : List Item) (keyOf : Item → String) (key : String) :
    ((groupBy items keyOf).read key).getD [] = items.filter fun item => keyOf item = key := by
  have hgo : ∀ groups : Record String (List Item),
      ((items.foldl (fun groups item =>
        groups.put (keyOf item) ((groups.read (keyOf item)).getD [] ++ [item])) groups).read key).getD [] =
        (groups.read key).getD [] ++ items.filter fun item => keyOf item = key := by
    induction items with
    | nil => simp
    | cons item rest ih =>
      intro groups
      rw [List.foldl_cons, ih, Record.read_put, List.filter_cons]
      by_cases hkey : keyOf item = key
      · simp [hkey]
      · simp [hkey, Ne.symm hkey]
  exact hgo []

theorem sortedGroups_read (groups : Record String (List Item)) (key : String) :
    ((sortedGroups groups).read key).getD [] = sortByOrder ((groups.read key).getD []) := by
  unfold sortedGroups
  rw [Record.read_map]
  cases groups.read key <;> rfl

theorem siblingGroups_read (childFolders folderRequests : Record String (List Item)) (shared : Bool)
    (containerId : String) :
    ((siblingGroups childFolders folderRequests shared).read containerId).getD [] =
      orderSiblings shared ((childFolders.read containerId).getD [])
        ((folderRequests.read containerId).getD []) := by
  unfold siblingGroups
  rw [Record.read_ofEntries_map _ fun containerId =>
    orderSiblings shared ((childFolders.read containerId).getD [])
      ((folderRequests.read containerId).getD [])]
  split_ifs with hmem
  · rfl
  · rw [List.mem_append, not_or, ← Record.read_eq_none_iff, ← Record.read_eq_none_iff] at hmem
    rw [hmem.1, hmem.2]
    simp [orderSiblings]

namespace Collection

variable (c : Collection)

def holderOf (c : Collection) : RowKind → Item → String
  | .folder, item => parentFolderOf c.parentOf item
  | .request, item => Tree.containerOf c.parentOf item.parent

theorem foldersIn_tree (containerId : String) :
    c.tree.foldersIn containerId =
      sortByOrder (c.folders.filter fun folder => c.holderOf .folder folder = containerId) := by
  unfold tree CollectionTree.foldersIn buildCollectionTree
  simp only
  rw [sortedGroups_read, groupBy_read]
  rfl

/-- What the order of the siblings depends on: the entry and its order. -/
def keyOf (kind : RowKind) (item : Item) : Entry × Nat :=
  (⟨kind, item.id⟩, cleanOrder item.sortOrder)

def keysOf (kind : RowKind) (containerId : String) : List (Entry × Nat) :=
  ((c.all kind).filter fun item => c.holderOf kind item = containerId).map (keyOf kind)

def keysIn (containerId : String) : List (Entry × Nat) :=
  c.keysOf .folder containerId ++ c.keysOf .request containerId

end Collection

abbrev keyLe (first second : Entry × Nat) : Prop :=
  rank first.2 ≤ rank second.2

noncomputable instance : DecidableRel keyLe :=
  fun _ _ => Classical.propDecidable _

instance : IsTrans (Entry × Nat) keyLe where
  trans _ _ _ hab hbc := le_trans hab hbc

instance : Std.Total keyLe where
  total _ _ := le_total _ _

/-- The siblings are the keys of their container, sorted. -/
theorem siblingEntries_eq {c : Collection} (hshared : c.sharedOrder = true) (containerId : String) :
    c.siblingEntries containerId = ((c.keysIn containerId).insertionSort keyLe).map Prod.fst := by
  have hrows : c.tree.siblingsIn containerId =
      ((c.folders.filter fun item => c.holderOf .folder item = containerId).map
          (fun item => (⟨.folder, item⟩ : Row)) ++
        (c.requests.filter fun item => c.holderOf .request item = containerId).map
          (fun item => (⟨.request, item⟩ : Row))).insertionSort rowLe := by
    unfold Collection.tree CollectionTree.siblingsIn buildCollectionTree
    simp only
    rw [siblingGroups_read, sortedGroups_read, sortedGroups_read, groupBy_read, groupBy_read, hshared,
      orderSiblings_merge, sortByOrder_map, sortByOrder_map, merge_insertionSort]
    rfl
  unfold Collection.siblingEntries
  have hkeys := List.map_insertionSort rowLe keyLe (fun row => Collection.keyOf row.kind row.item)
    ((c.folders.filter fun item => c.holderOf .folder item = containerId).map
          (fun item => (⟨.folder, item⟩ : Row)) ++
        (c.requests.filter fun item => c.holderOf .request item = containerId).map
          (fun item => (⟨.request, item⟩ : Row)))
    (fun a _ b _ => compareOrder_le_iff a.item b.item)
  rw [← hrows] at hkeys
  have hin : c.keysIn containerId =
      ((c.folders.filter fun item => c.holderOf .folder item = containerId).map
          (fun item => (⟨.folder, item⟩ : Row)) ++
        (c.requests.filter fun item => c.holderOf .request item = containerId).map
          (fun item => (⟨.request, item⟩ : Row))).map (fun row => Collection.keyOf row.kind row.item) := by
    rw [List.map_append, List.map_map, List.map_map]
    rfl
  rw [hin, ← hkeys, List.map_map]
  rfl

end Gostman.Tree
