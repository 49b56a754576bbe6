import Gostman.Tree.Depth
/-!
# A container with a new list of entries

`listPatches` gives each entry of a list its place there.  Once the patches
are applied the container lists its entries in this order, the other
containers list what is left of theirs, and the patches for undoing give back
what there was.
-/

namespace Gostman.Tree

open Gostman.Lib Gostman.Js

/-! ## Patches -/

theorem cleanOrder_num {order : Nat} (h : order ≤ 2 ^ 53 - 1) :
    cleanOrder (some (.num (order : ℚ))) = order := by
  unfold cleanOrder
  simp only [Rat.den_natCast, Rat.num_natCast, Int.toNat_natCast]
  split_ifs with hpos
  · rfl
  · by_contra hne
    exact hpos ⟨trivial, by omega, by omega⟩

theorem cleanOrder_le (value : Option Json) : cleanOrder value ≤ 2 ^ 53 - 1 := by
  unfold cleanOrder
  split
  · split_ifs
    · omega
    · omega
  · omega

theorem patchItem_id (patches : List Patch) (item : Item) : (patchItem patches item).id = item.id := by
  unfold patchItem
  split <;> rfl

theorem mem_kindPatches {c : Collection} {kind : RowKind} {containerId : String}
    {entries : List Entry} {patch : Patch} :
    patch ∈ kindPatches c kind containerId entries ↔
      ∃ index, entries[index]? = some ⟨kind, patch.id⟩ ∧
        patch = ⟨patch.id, containerId, index + 1⟩ ∧
        ¬ ((c.items kind).read patch.id).any (isPlaced containerId (index + 1)) := by
  unfold kindPatches
  rw [List.mem_filterMap]
  constructor
  · rintro ⟨⟨entry, index⟩, hmem, heq⟩
    rw [List.mem_zipIdx_iff_getElem?] at hmem
    simp only at heq hmem
    split_ifs at heq with hcond
    obtain rfl := Option.some.inj heq
    obtain ⟨rfl, hunplaced⟩ := hcond
    exact ⟨index, hmem, rfl, hunplaced⟩
  · rintro ⟨index, hindex, heq, hunplaced⟩
    refine ⟨(⟨kind, patch.id⟩, index), List.mem_zipIdx_iff_getElem?.2 hindex, ?_⟩
    simp only
    rw [if_pos ⟨trivial, hunplaced⟩, ← heq]

theorem patchItem_of_not_mem {c : Collection} {kind : RowKind} {containerId : String}
    {entries : List Entry} {item : Item} (h : ⟨kind, item.id⟩ ∉ entries) :
    patchItem (kindPatches c kind containerId entries) item = item := by
  unfold patchItem
  cases hfind : (kindPatches c kind containerId entries).find? (·.id = item.id) with
  | none => rfl
  | some patch =>
    obtain ⟨index, hindex, -⟩ := mem_kindPatches.1 (List.mem_of_find?_eq_some hfind)
    have hid : patch.id = item.id := by simpa using List.find?_some hfind
    rw [hid] at hindex
    exact absurd (List.mem_of_getElem? hindex) h

namespace Collection

variable {c : Collection}

theorem items_read {kind : RowKind} (hnodup : ((c.all kind).map (·.id)).Nodup) {item : Item}
    (hmem : item ∈ c.all kind) : (c.items kind).read item.id = some item := by
  apply Record.read_ofEntries_of_mem
  · unfold Record.keys
    rw [List.map_map]
    exact hnodup
  · exact List.mem_map.2 ⟨item, hmem, rfl⟩

theorem mem_of_items_read {kind : RowKind} {id : String} {item : Item}
    (h : (c.items kind).read id = some item) : item ∈ c.all kind ∧ item.id = id := by
  have hmem := Record.mem_of_read h
  rcases Record.mem_overlay hmem with hnil | hitems
  · cases hnil
  · obtain ⟨other, hother, heq⟩ := List.mem_map.1 hitems
    obtain ⟨rfl, rfl⟩ := Prod.mk.inj heq
    exact ⟨hother, rfl⟩

theorem Arranged.ids (h : c.Arranged) (kind : RowKind) : ((c.all kind).map (·.id)).Nodup := by
  cases kind with
  | folder => exact h.folderIds
  | request => exact h.requestIds

end Collection

/-- An item of the list is put into the container at its place. -/
theorem patchItem_of_mem {c : Collection} {kind : RowKind} {containerId : String}
    {entries : List Entry} (hids : ((c.all kind).map (·.id)).Nodup) (hnodup : entries.Nodup)
    {item : Item} (hitem : item ∈ c.all kind) {index : Nat}
    (hindex : entries[index]? = some ⟨kind, item.id⟩) (hsmall : index + 1 ≤ 2 ^ 53 - 1) :
    (patchItem (kindPatches c kind containerId entries) item).parent.getD rootId = containerId ∧
      cleanOrder (patchItem (kindPatches c kind containerId entries) item).sortOrder = index + 1 := by
  have hread := Collection.items_read hids hitem
  unfold patchItem
  cases hfind : (kindPatches c kind containerId entries).find? (·.id = item.id) with
  | none =>
    -- no patch is there for it, so it is in its place
    have hplaced : isPlaced containerId (index + 1) item = true := by
      by_contra hunplaced
      have hpatch : (⟨item.id, containerId, index + 1⟩ : Patch) ∈ kindPatches c kind containerId entries :=
        mem_kindPatches.2 ⟨index, hindex, rfl, by simpa [hread] using hunplaced⟩
      have hnone := List.find?_eq_none.1 hfind _ hpatch
      simp at hnone
    unfold isPlaced at hplaced
    rw [Bool.and_eq_true, decide_eq_true_eq, decide_eq_true_eq] at hplaced
    exact hplaced
  | some patch =>
    obtain ⟨other, hother, heq, -⟩ := mem_kindPatches.1 (List.mem_of_find?_eq_some hfind)
    have hid : patch.id = item.id := by simpa using List.find?_some hfind
    rw [hid] at hother
    have hsame : other = index := by
      obtain ⟨hlt, hget⟩ := List.getElem?_eq_some_iff.1 hother
      obtain ⟨hlt', hget'⟩ := List.getElem?_eq_some_iff.1 hindex
      exact (List.Nodup.getElem_inj_iff hnodup).1 (hget.trans hget'.symm)
    subst hsame
    rw [heq]
    exact ⟨rfl, cleanOrder_num hsmall⟩

/-! ## Undoing -/

structure SameItem (first second : Item) : Prop where
  id : first.id = second.id
  parent : first.parent.getD rootId = second.parent.getD rootId
  order : cleanOrder first.sortOrder = cleanOrder second.sortOrder

theorem undone {c : Collection} {kind : RowKind} (hids : ((c.all kind).map (·.id)).Nodup)
    {item : Item} (hitem : item ∈ c.all kind) (patches : List Patch) :
    SameItem (patchItem (patches.map (restoring c kind)) (patchItem patches item)) item := by
  have hread := Collection.items_read hids hitem
  have hfind : (patches.map (restoring c kind)).find? (·.id = item.id) =
      (patches.find? (·.id = item.id)).map (restoring c kind) := by
    rw [List.find?_map]
    rfl
  cases hpatch : patches.find? (·.id = item.id) with
  | none =>
    rw [hpatch] at hfind
    have hsame : patchItem patches item = item := by
      unfold patchItem
      rw [hpatch]
    have hback : patchItem (patches.map (restoring c kind)) item = item := by
      unfold patchItem
      rw [hfind]
      rfl
    rw [hsame, hback]
    exact ⟨rfl, rfl, rfl⟩
  | some patch =>
    rw [hpatch] at hfind
    have hid : patch.id = item.id := by simpa using List.find?_some hpatch
    have hback : patchItem (patches.map (restoring c kind)) (patchItem patches item) =
        { patchItem patches item with
          parent := some (item.parent.getD rootId)
          sortOrder := some (.num (cleanOrder item.sortOrder)) } := by
      rw [patchItem, patchItem_id, hfind]
      simp [restoring, hid, hread, patchItem_id]
    rw [hback]
    exact ⟨patchItem_id patches item, rfl, cleanOrder_num (cleanOrder_le _)⟩

end Gostman.Tree
