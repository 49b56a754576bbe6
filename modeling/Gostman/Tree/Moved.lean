import Gostman.Tree.Patched
/-!
# A move does what the drop shows

What `planMove` plans is a new list for one container.  The folder that moves
goes neither into itself nor too deep, so the tree stays one.
-/

namespace Gostman.Tree

open Gostman.Lib Gostman.Js

namespace Collection

variable {c : Collection}

/-! ## The siblings before -/

theorem mem_keysIn {containerId : String} {key : Entry × Nat} :
    key ∈ c.keysIn containerId ↔
      ∃ item ∈ c.all key.1.kind, c.holderOf key.1.kind item = containerId ∧
        key = keyOf key.1.kind item := by
  obtain ⟨⟨kind, id⟩, order⟩ := key
  unfold keysIn keysOf
  rw [List.mem_append, List.mem_map, List.mem_map]
  cases kind with
  | folder =>
    constructor
    · rintro (⟨item, hitem, heq⟩ | ⟨item, -, heq⟩)
      · obtain ⟨hmem, hholder⟩ := List.mem_filter.1 hitem
        exact ⟨item, hmem, by simpa using hholder, heq.symm⟩
      · cases heq
    · rintro ⟨item, hmem, hholder, heq⟩
      exact .inl ⟨item, List.mem_filter.2 ⟨hmem, by simpa using hholder⟩, heq.symm⟩
  | request =>
    constructor
    · rintro (⟨item, -, heq⟩ | ⟨item, hitem, heq⟩)
      · cases heq
      · obtain ⟨hmem, hholder⟩ := List.mem_filter.1 hitem
        exact ⟨item, hmem, by simpa using hholder, heq.symm⟩
    · rintro ⟨item, hmem, hholder, heq⟩
      exact .inr ⟨item, List.mem_filter.2 ⟨hmem, by simpa using hholder⟩, heq.symm⟩

theorem keysOf_nodup {kind : RowKind} (hids : ((c.all kind).map (·.id)).Nodup) (containerId : String) :
    ((c.keysOf kind containerId).map Prod.fst).Nodup := by
  unfold keysOf
  rw [List.map_map]
  have hentry : (Prod.fst ∘ keyOf kind) = (fun id => (⟨kind, id⟩ : Entry)) ∘ (·.id) := rfl
  rw [hentry, ← List.map_map]
  apply List.Nodup.map
  · intro first second heq
    exact (Entry.mk.inj heq).2
  · exact hids.sublist (List.filter_sublist.map _)

theorem keysIn_nodup (h : c.Arranged) (containerId : String) :
    ((c.keysIn containerId).map Prod.fst).Nodup := by
  unfold keysIn
  rw [List.map_append]
  refine List.nodup_append.2 ⟨keysOf_nodup (h.ids .folder) _, keysOf_nodup (h.ids .request) _, ?_⟩
  intro first hfirst second hsecond heq
  simp only [keysOf, List.map_map, List.mem_map] at hfirst hsecond
  obtain ⟨_, -, rfl⟩ := hfirst
  obtain ⟨_, -, rfl⟩ := hsecond
  cases heq

theorem siblingEntries_perm (hshared : c.sharedOrder = true) (containerId : String) :
    (c.siblingEntries containerId).Perm ((c.keysIn containerId).map Prod.fst) := by
  rw [siblingEntries_eq hshared]
  exact (List.perm_insertionSort _ _).map _

theorem siblingEntries_length (hshared : c.sharedOrder = true) (containerId : String) :
    (c.siblingEntries containerId).length ≤ c.folders.length + c.requests.length := by
  rw [(siblingEntries_perm hshared containerId).length_eq, List.length_map]
  unfold keysIn keysOf
  rw [List.length_append, List.length_map, List.length_map]
  exact Nat.add_le_add (List.length_filter_le _ _) (List.length_filter_le _ _)

theorem mem_siblingEntries (hshared : c.sharedOrder = true) {containerId : String} {entry : Entry} :
    entry ∈ c.siblingEntries containerId ↔
      ∃ item ∈ c.all entry.kind, item.id = entry.id ∧ c.holderOf entry.kind item = containerId := by
  rw [(siblingEntries_perm hshared containerId).mem_iff, List.mem_map]
  constructor
  · rintro ⟨key, hkey, rfl⟩
    obtain ⟨item, hitem, hholder, heq⟩ := mem_keysIn.1 hkey
    exact ⟨item, hitem, (congrArg (fun key => key.1.id) heq).symm, hholder⟩
  · rintro ⟨item, hitem, hid, hholder⟩
    refine ⟨keyOf entry.kind item, mem_keysIn.2 ⟨item, hitem, hholder, rfl⟩, ?_⟩
    unfold keyOf
    rw [hid]

end Collection

/-! ## The new list -/

theorem insertEntry_perm (entries : List Entry) (moved : Entry) (anchor : Option Entry) (place : Place) :
    (insertEntry entries moved anchor place).Perm
      (moved :: entries.filter fun entry => entry ≠ moved) := by
  simp only [insertEntry]
  split
  · exact List.perm_append_comm
  · refine List.perm_middle.trans (.cons _ ?_)
    rw [List.take_append_drop]

/-- A list of entries for a container: what is in it and the source. -/
structure Relisted (c : Collection) (containerId : String) (source : Entry) (entries : List Entry) :
    Prop where
  arranged : c.Arranged
  container : containerId = rootId ∨ c.parentOf.has containerId = true
  subject : ∃ item ∈ c.all source.kind, item.id = source.id
  nodup : entries.Nodup
  short : entries.length ≤ 2 ^ 53 - 1
  mem : ∀ kind, ∀ item ∈ c.all kind,
    ⟨kind, item.id⟩ ∈ entries ↔ ⟨kind, item.id⟩ = source ∨ c.holderOf kind item = containerId
  listed : ∀ entry ∈ entries, ∃ item ∈ c.all entry.kind, item.id = entry.id

theorem relisted_insertEntry {c : Collection} (h : c.Arranged) (hshared : c.sharedOrder = true)
    {containerId : String} {source : Entry}
    (hcontainer : containerId = rootId ∨ c.parentOf.has containerId = true)
    (hsubject : ∃ item ∈ c.all source.kind, item.id = source.id) (anchor : Option Entry) (place : Place) :
    Relisted c containerId source
      (insertEntry (c.siblingEntries containerId) source anchor place) := by
  have hperm := insertEntry_perm (c.siblingEntries containerId) source anchor place
  have hmem : ∀ entry, entry ∈ insertEntry (c.siblingEntries containerId) source anchor place ↔
      entry = source ∨ entry ∈ c.siblingEntries containerId := by
    intro entry
    rw [hperm.mem_iff, List.mem_cons, List.mem_filter]
    by_cases hsource : entry = source
    · simp [hsource]
    · simp [hsource]
  refine ⟨h, hcontainer, hsubject, ?_, ?_, ?_, ?_⟩
  · have hold : (c.siblingEntries containerId).Nodup :=
      (Collection.siblingEntries_perm hshared containerId).nodup_iff.2
        (Collection.keysIn_nodup h containerId)
    rw [hperm.nodup_iff, List.nodup_cons]
    exact ⟨by simp, hold.filter _⟩
  · have hlength := Collection.siblingEntries_length hshared containerId
    have hfilter := List.length_filter_le (fun entry => decide (entry ≠ source))
      (c.siblingEntries containerId)
    have hfolders := c.folders_fit
    have hrequests := c.requests_fit
    rw [hperm.length_eq, List.length_cons]
    omega
  · intro kind item hitem
    rw [hmem, Collection.mem_siblingEntries hshared]
    refine or_congr_right ⟨?_, fun hholder => ⟨item, hitem, rfl, hholder⟩⟩
    rintro ⟨other, hother, hid, hholder⟩
    have hsame : other = item := List.inj_on_of_nodup_map (h.ids kind) hother hitem hid
    rwa [hsame] at hholder
  · intro entry hentry
    rcases (hmem entry).1 hentry with rfl | hold
    · exact hsubject
    · obtain ⟨item, hitem, hid, -⟩ := (Collection.mem_siblingEntries hshared).1 hold
      exact ⟨item, hitem, hid⟩

/-! ## The tree after -/

def relisted (c : Collection) (containerId : String) (entries : List Entry) : Collection :=
  c.patched (listPatches c containerId entries)

theorem relisted_all (c : Collection) (containerId : String) (entries : List Entry) (kind : RowKind) :
    (relisted c containerId entries).all kind =
      (c.all kind).map (patchItem (kindPatches c kind containerId entries)) := by
  cases kind <;> rfl

theorem relisted_ids (c : Collection) (containerId : String) (entries : List Entry) (kind : RowKind) :
    ((relisted c containerId entries).all kind).map (·.id) = (c.all kind).map (·.id) := by
  rw [relisted_all, List.map_map]
  congr 1
  funext item
  exact patchItem_id _ item

theorem known_congr {first second : Collection}
    (h : first.folders.map (·.id) = second.folders.map (·.id)) (parent : Option String) :
    known first.parentOf parent = known second.parentOf parent := by
  have hhas : ∀ id, first.parentOf.has id = second.parentOf.has id := by
    intro id
    rw [Bool.eq_iff_iff, Collection.parentOf_has, Collection.parentOf_has]
    have hmem : id ∈ first.folders.map (·.id) ↔ id ∈ second.folders.map (·.id) := by rw [h]
    simpa using hmem
  unfold known
  simp only [hhas]

theorem above_of_not_mem {c : Collection} {id : String} (h : ¬ ∃ folder ∈ c.folders, folder.id = id)
    (d : Collection) (hids : d.folders.map (·.id) = c.folders.map (·.id)) :
    above d.parentOf id = none := by
  have hunknown : ¬ d.parentOf.has id = true := by
    rw [Collection.parentOf_has]
    have hold : id ∉ c.folders.map (·.id) := by simpa using h
    rw [← hids] at hold
    simpa using hold
  have hread : d.parentOf.read id = none := by simpa [Record.has] using hunknown
  unfold above
  rw [hread]
  rfl

namespace Relisted

variable {c : Collection} {containerId : String} {source : Entry} {entries : List Entry}

theorem known_relisted (parent : Option String) :
    known (relisted c containerId entries).parentOf parent = known c.parentOf parent :=
  known_congr (relisted_ids c containerId entries .folder) parent

theorem placed (h : Relisted c containerId source entries) {kind : RowKind} {item : Item}
    (hitem : item ∈ c.all kind) {index : Nat} (hindex : entries[index]? = some ⟨kind, item.id⟩) :
    (patchItem (kindPatches c kind containerId entries) item).parent.getD rootId = containerId ∧
      cleanOrder (patchItem (kindPatches c kind containerId entries) item).sortOrder = index + 1 := by
  have hlt := (List.getElem?_eq_some_iff.1 hindex).1
  have hshort := h.short
  exact patchItem_of_mem (h.arranged.ids kind) h.nodup hitem hindex (by omega)

theorem known_parent (h : Relisted c containerId source entries) (kind : RowKind) {item : Item}
    (hitem : item ∈ c.all kind) (hmem : ⟨kind, item.id⟩ ∈ entries) :
    known c.parentOf (patchItem (kindPatches c kind containerId entries) item).parent =
      known c.parentOf (some containerId) := by
  obtain ⟨index, hindex⟩ := List.getElem?_of_mem hmem
  rw [← h.arranged.known_getD, (h.placed hitem hindex).1]

theorem containerOf_place (h : Relisted c containerId source entries) :
    (known c.parentOf (some containerId)).getD rootId = containerId := by
  rw [← containerOf_eq]
  unfold containerOf
  rcases h.container with rfl | hhas
  · exact ite_self _
  · exact if_pos hhas

theorem above_relisted (h : Relisted c containerId source entries) (id : String) :
    above (relisted c containerId entries).parentOf id =
      if source = ⟨.folder, id⟩ then known c.parentOf (some containerId) else above c.parentOf id := by
  have hids : ((relisted c containerId entries).folders.map (·.id)).Nodup := by
    have hsame := relisted_ids c containerId entries .folder
    exact hsame ▸ h.arranged.folderIds
  by_cases hknown : ∃ folder ∈ c.folders, folder.id = id
  · obtain ⟨folder, hfolder, rfl⟩ := hknown
    have hafter : patchItem (kindPatches c .folder containerId entries) folder ∈
        (relisted c containerId entries).folders := List.mem_map.2 ⟨folder, hfolder, rfl⟩
    have habove := Collection.above_folder hids hafter
    rw [patchItem_id] at habove
    rw [habove, known_relisted]
    by_cases hmem : ⟨.folder, folder.id⟩ ∈ entries
    · rw [h.known_parent .folder hfolder hmem]
      split_ifs with hsource
      · rfl
      · rcases (h.mem .folder folder hfolder).1 hmem with heq | hholder
        · exact absurd heq.symm hsource
        · rw [h.arranged.holderOf .folder hfolder, containerOf_eq] at hholder
          rw [Collection.above_folder h.arranged.folderIds hfolder, ← hholder, h.arranged.known_getD]
          -- a parent that is known stays known
          unfold known
          rw [Option.filter_filter]
          simp
    · have hsource : source ≠ ⟨.folder, folder.id⟩ := by
        rintro rfl
        exact hmem ((h.mem .folder folder hfolder).2 (.inl rfl))
      rw [patchItem_of_not_mem hmem, if_neg hsource,
        Collection.above_folder h.arranged.folderIds hfolder]
  · have hsource : source ≠ ⟨.folder, id⟩ := by
      rintro rfl
      exact hknown h.subject
    rw [if_neg hsource, above_of_not_mem hknown _ (relisted_ids c containerId entries .folder),
      above_of_not_mem hknown c rfl]

/-- The folders that move arrive neither inside themselves nor too deep. -/
structure Fits (c : Collection) (containerId : String) (source : Entry) : Prop where
  outside : source.kind = .folder →
    ¬ OnWay (above c.parentOf) source.id (known c.parentOf (some containerId))
  depth : source.kind = .folder → ∃ count, Climbs (above c.parentOf) (known c.parentOf (some containerId)) count ∧
    ∀ levels, ∀ folder ∈ c.folders, Below (above c.parentOf) source.id levels folder.id →
      levels + count ≤ maxFolderDepth

theorem arranged_relisted (h : Relisted c containerId source entries) (hfits : Fits c containerId source) :
    (relisted c containerId entries).Arranged := by
  have hfolders := relisted_ids c containerId entries .folder
  have hmem : ∀ folder ∈ (relisted c containerId entries).folders,
      ∃ old ∈ c.folders, old.id = folder.id := by
    intro folder hfolder
    obtain ⟨old, hold, rfl⟩ := List.mem_map.1 hfolder
    exact ⟨old, hold, (patchItem_id _ old).symm⟩
  apply Collection.arranged_of
  · exact hfolders ▸ h.arranged.folderIds
  · exact relisted_ids c containerId entries .request ▸ h.arranged.requestIds
  · intro folder hfolder
    obtain ⟨old, hold, hid⟩ := hmem folder hfolder
    rw [← hid]
    exact h.arranged.ne_root hold
  · intro folder hfolder
    obtain ⟨old, hold, hid⟩ := hmem folder hfolder
    rw [← hid]
    obtain ⟨count, hle, hclimbs⟩ := h.arranged.climbs hold
    cases hkind : source.kind with
    | request =>
      have habove : above (relisted c containerId entries).parentOf = above c.parentOf := by
        funext id
        rw [h.above_relisted, if_neg]
        rintro rfl
        cases hkind
      rw [habove]
      exact ⟨count, hle, hclimbs⟩
    | folder =>
      have habove : above (relisted c containerId entries).parentOf =
          Function.update (above c.parentOf) source.id (known c.parentOf (some containerId)) := by
        funext id
        have hsource : source = ⟨.folder, id⟩ ↔ id = source.id := by
          obtain ⟨kind, sourceId⟩ := source
          simp only at hkind
          simp [hkind, eq_comm]
        rw [h.above_relisted, Function.update_apply]
        simp only [hsource]
      obtain ⟨placeCount, hplace, hlow⟩ := hfits.depth hkind
      rw [habove]
      rcases (Climbs.step hclimbs).update hplace (hfits.outside hkind) with
        hsame | ⟨levels, id, heq, hbelow, hclimbs'⟩
      · cases hsame with
        | step hrest => exact ⟨count, hle, hrest⟩
      · obtain rfl := Option.some.inj heq
        have hdeep := hlow levels old hold hbelow
        have hcount : levels + 1 + placeCount = levels + placeCount + 1 := by omega
        rw [hcount] at hclimbs'
        cases hclimbs' with
        | step hrest => exact ⟨levels + placeCount, hdeep, hrest⟩

/-! ### The siblings after -/

theorem holder_listed (h : Relisted c containerId source entries) (hfits : Fits c containerId source)
    (kind : RowKind) {item : Item} (hitem : item ∈ c.all kind) (hmem : ⟨kind, item.id⟩ ∈ entries) :
    (relisted c containerId entries).holderOf kind
      (patchItem (kindPatches c kind containerId entries) item) = containerId := by
  have hafter : patchItem (kindPatches c kind containerId entries) item ∈
      (relisted c containerId entries).all kind := by
    rw [relisted_all]
    exact List.mem_map_of_mem hitem
  rw [(h.arranged_relisted hfits).holderOf kind hafter, containerOf_eq, known_relisted,
    h.known_parent kind hitem hmem, h.containerOf_place]

theorem holder_other (h : Relisted c containerId source entries) (hfits : Fits c containerId source)
    (kind : RowKind) {item : Item} (hitem : item ∈ c.all kind) (hmem : ⟨kind, item.id⟩ ∉ entries) :
    (relisted c containerId entries).holderOf kind
      (patchItem (kindPatches c kind containerId entries) item) = c.holderOf kind item := by
  have hafter : patchItem (kindPatches c kind containerId entries) item ∈
      (relisted c containerId entries).all kind := by
    rw [relisted_all]
    exact List.mem_map_of_mem hitem
  rw [(h.arranged_relisted hfits).holderOf kind hafter, patchItem_of_not_mem hmem, containerOf_eq,
    known_relisted, ← containerOf_eq, h.arranged.holderOf kind hitem]

/-- The new keys of the container, numbered in the order of the list. -/
theorem mem_keysIn_relisted (h : Relisted c containerId source entries)
    (hfits : Fits c containerId source) (key : Entry × Nat) :
    key ∈ (relisted c containerId entries).keysIn containerId ↔
      key ∈ entries.zipIdx.map fun (entry, index) => (entry, index + 1) := by
  rw [Collection.mem_keysIn, relisted_all, List.mem_map]
  constructor
  · rintro ⟨after, hafter, hholder, hkey⟩
    obtain ⟨item, hitem, rfl⟩ := List.mem_map.1 hafter
    have hentry : key.1 = ⟨key.1.kind, item.id⟩ := by
      rw [hkey]
      simp [Collection.keyOf, patchItem_id]
    have hmem : ⟨key.1.kind, item.id⟩ ∈ entries := by
      by_contra hnot
      rw [h.holder_other hfits _ hitem hnot] at hholder
      exact hnot ((h.mem _ item hitem).2 (.inr hholder))
    obtain ⟨index, hindex⟩ := List.getElem?_of_mem hmem
    refine ⟨(key.1, index), List.mem_zipIdx_iff_getElem?.2 (hentry ▸ hindex), ?_⟩
    rw [hkey]
    exact Prod.ext rfl (h.placed hitem hindex).2.symm
  · rintro ⟨⟨entry, index⟩, hmem, rfl⟩
    have hindex := List.mem_zipIdx_iff_getElem?.1 hmem
    obtain ⟨item, hitem, hid⟩ := h.listed entry (List.mem_of_getElem? hindex)
    have hentry : entry = ⟨entry.kind, item.id⟩ := by rw [hid]
    have hindex' : entries[index]? = some ⟨entry.kind, item.id⟩ := hentry ▸ hindex
    refine ⟨_, List.mem_map_of_mem hitem, h.holder_listed hfits _ hitem (List.mem_of_getElem? hindex'), ?_⟩
    refine Prod.ext ?_ (h.placed hitem hindex').2.symm
    simp only [Collection.keyOf, patchItem_id]
    exact hentry

theorem rank_le_iff {first second : Nat} : rank (first + 1) ≤ rank (second + 1) ↔ first ≤ second := by
  unfold rank
  simp only [Nat.succ_ne_zero, if_false]
  exact_mod_cast Nat.succ_le_succ_iff

theorem siblings_relisted (h : Relisted c containerId source entries)
    (hshared : c.sharedOrder = true) (hfits : Fits c containerId source) :
    (relisted c containerId entries).siblingEntries containerId = entries := by
  have hfirst : (entries.zipIdx.map fun (entry, index) => (entry, index + 1)).map Prod.fst = entries := by
    rw [List.map_map]
    exact List.zipIdx_map_fst 0 entries
  have hperm : ((relisted c containerId entries).keysIn containerId).Perm
      (entries.zipIdx.map fun (entry, index) => (entry, index + 1)) := by
    apply (List.perm_ext_iff_of_nodup _ _).2 (h.mem_keysIn_relisted hfits)
    · exact .of_map _ (Collection.keysIn_nodup (h.arranged_relisted hfits) containerId)
    · exact .of_map Prod.fst (hfirst.symm ▸ h.nodup)
  have hsorted : (entries.zipIdx.map fun (entry, index) => (entry, index + 1)).Pairwise keyLe := by
    rw [List.pairwise_map]
    have hindexes : (entries.zipIdx.map Prod.snd).Pairwise (· < ·) := by
      rw [List.zipIdx_map_snd]
      exact List.pairwise_lt_range'
    rw [List.pairwise_map] at hindexes
    exact hindexes.imp fun hlt => rank_le_iff.2 hlt.le
  have hsame : ((relisted c containerId entries).keysIn containerId).insertionSort keyLe =
      entries.zipIdx.map fun (entry, index) => (entry, index + 1) := by
    apply List.Perm.eq_of_pairwise _ (List.pairwise_insertionSort keyLe _) hsorted
      ((List.perm_insertionSort keyLe _).trans hperm)
    intro first second hfirst hsecond hle hge
    have hfirst' := (hperm.mem_iff.1 ((List.mem_insertionSort keyLe).1 hfirst))
    obtain ⟨⟨entry, index⟩, hmem, rfl⟩ := List.mem_map.1 hfirst'
    obtain ⟨⟨other, place⟩, hmem', rfl⟩ := List.mem_map.1 hsecond
    have hindex : index = place := le_antisymm (rank_le_iff.1 hle) (rank_le_iff.1 hge)
    have hget := List.mem_zipIdx_iff_getElem?.1 hmem
    have hget' := List.mem_zipIdx_iff_getElem?.1 hmem'
    simp only at hget hget'
    rw [hindex, hget'] at hget
    rw [hindex, Option.some.inj hget]
  rw [siblingEntries_eq (show (relisted c containerId entries).sharedOrder = true from hshared), hsame,
    hfirst]

/-- The other containers keep what does not move. -/
theorem keysOf_relisted (h : Relisted c containerId source entries) (hfits : Fits c containerId source)
    {other : String} (hother : other ≠ containerId) (kind : RowKind) :
    (relisted c containerId entries).keysOf kind other =
      (c.keysOf kind other).filter fun key => key.1 ≠ source := by
  unfold Collection.keysOf
  rw [relisted_all, List.filter_map, List.map_map, List.filter_map, List.filter_filter]
  have hkeep : ∀ item ∈ c.all kind,
      ((relisted c containerId entries).holderOf kind
          (patchItem (kindPatches c kind containerId entries) item) = other ↔
        (⟨kind, item.id⟩ : Entry) ≠ source ∧ c.holderOf kind item = other) ∧
      ((⟨kind, item.id⟩ : Entry) ∉ entries ∨ ¬ ((⟨kind, item.id⟩ : Entry) ≠ source ∧
        c.holderOf kind item = other)) := by
    intro item hitem
    by_cases hmem : ⟨kind, item.id⟩ ∈ entries
    · have hold : ¬ ((⟨kind, item.id⟩ : Entry) ≠ source ∧ c.holderOf kind item = other) := by
        rintro ⟨hsource, hholder⟩
        rcases (h.mem kind item hitem).1 hmem with heq | hin
        · exact hsource heq
        · exact hother (hholder.symm.trans hin)
      rw [h.holder_listed hfits kind hitem hmem]
      exact ⟨⟨fun heq => absurd heq.symm hother, fun hboth => absurd hboth hold⟩, .inr hold⟩
    · rw [h.holder_other hfits kind hitem hmem]
      refine ⟨⟨fun heq => ⟨?_, heq⟩, fun hboth => hboth.2⟩, .inl hmem⟩
      intro hsource
      exact hmem ((h.mem kind item hitem).2 (.inl hsource))
  have hfilter : (c.all kind).filter ((fun item =>
      decide ((relisted c containerId entries).holderOf kind item = other)) ∘
        patchItem (kindPatches c kind containerId entries)) =
      (c.all kind).filter fun item =>
        decide ((⟨kind, item.id⟩ : Entry) ≠ source) && decide (c.holderOf kind item = other) := by
    apply List.filter_congr
    intro item hitem
    rw [Bool.eq_iff_iff]
    simpa using (hkeep item hitem).1
  rw [hfilter]
  apply List.map_congr_left
  intro item hitem
  obtain ⟨hmem, hkept⟩ := List.mem_filter.1 hitem
  rcases (hkeep item hmem).2 with hnot | hfalse
  · simp only [Function.comp_apply]
    rw [patchItem_of_not_mem hnot]
  · exact absurd (by simpa using hkept) hfalse

theorem siblings_other (h : Relisted c containerId source entries)
    (hshared : c.sharedOrder = true) (hfits : Fits c containerId source)
    {other : String} (hother : other ≠ containerId) :
    (relisted c containerId entries).siblingEntries other =
      (c.siblingEntries other).filter fun entry => entry ≠ source := by
  have hkeys : (relisted c containerId entries).keysIn other =
      (c.keysIn other).filter fun key => key.1 ≠ source := by
    unfold Collection.keysIn
    rw [h.keysOf_relisted hfits hother, h.keysOf_relisted hfits hother, List.filter_append]
  rw [siblingEntries_eq (show (relisted c containerId entries).sharedOrder = true from hshared),
    siblingEntries_eq hshared, hkeys, ← filter_insertionSort, List.filter_map]
  rfl

/-- Undoing gives every container what it had. -/
theorem siblings_undone (h : Relisted c containerId source entries) (hshared : c.sharedOrder = true)
    (other : String) :
    ((relisted c containerId entries).patched
      (restoringPatches c (listPatches c containerId entries))).siblingEntries other =
      c.siblingEntries other := by
  let back := (relisted c containerId entries).patched
    (restoringPatches c (listPatches c containerId entries))
  let undo : RowKind → Item → Item := fun kind item =>
    patchItem ((kindPatches c kind containerId entries).map (restoring c kind))
      (patchItem (kindPatches c kind containerId entries) item)
  have hall : ∀ kind, back.all kind = (c.all kind).map (undo kind) := by
    intro kind
    cases kind <;> exact List.map_map
  have hsame : ∀ kind, ∀ item ∈ c.all kind, SameItem (undo kind item) item :=
    fun kind item hitem => undone (h.arranged.ids kind) hitem _
  have hids : ∀ kind, (back.all kind).map (·.id) = (c.all kind).map (·.id) := by
    intro kind
    rw [hall, List.map_map]
    exact List.map_congr_left fun item hitem => (hsame kind item hitem).id
  have hknown : ∀ kind, ∀ item ∈ c.all kind,
      known back.parentOf (undo kind item).parent = known c.parentOf item.parent := by
    intro kind item hitem
    rw [known_congr (hids .folder)]
    rw [← h.arranged.known_getD, (hsame kind item hitem).parent, h.arranged.known_getD]
  have habove : above back.parentOf = above c.parentOf := by
    have hbackIds : (back.folders.map (·.id)).Nodup := (hids .folder) ▸ h.arranged.folderIds
    funext id
    by_cases hfolder : ∃ folder ∈ c.folders, folder.id = id
    · obtain ⟨folder, hmem, rfl⟩ := hfolder
      have hafter : undo .folder folder ∈ back.folders := by
        have hbackAll : back.folders = c.folders.map (undo .folder) := hall .folder
        rw [hbackAll]
        exact List.mem_map_of_mem hmem
      have hfound := Collection.above_folder hbackIds hafter
      rw [(hsame .folder folder hmem).id] at hfound
      rw [hfound, hknown .folder folder hmem, Collection.above_folder h.arranged.folderIds hmem]
    · have hnone : ∀ d : Collection, d.folders.map (·.id) = c.folders.map (·.id) →
          above d.parentOf id = none := above_of_not_mem hfolder
      rw [hnone back (hids .folder), hnone c rfl]
  have hholder : ∀ kind, ∀ item ∈ c.all kind, back.holderOf kind (undo kind item) = c.holderOf kind item := by
    intro kind item hitem
    rw [h.arranged.holderOf kind hitem, containerOf_eq, ← hknown kind item hitem, ← containerOf_eq]
    cases kind with
    | request => rfl
    | folder =>
      obtain ⟨count, hle, hclimbs⟩ := h.arranged.climbs hitem
      have hdepth : folderDepth (undo .folder item).id back.parentOf ≤ maxFolderDepth := by
        rw [folderDepth_le_iff, habove, (hsame .folder item hitem).id]
        exact ⟨count, hle, hclimbs⟩
      exact if_neg (by omega)
  have hkeys : ∀ kind, back.keysOf kind other = c.keysOf kind other := by
    intro kind
    unfold Collection.keysOf
    rw [hall, List.filter_map, List.map_map]
    have hfilter : (c.all kind).filter ((fun item => decide (back.holderOf kind item = other)) ∘ undo kind) =
        (c.all kind).filter fun item => decide (c.holderOf kind item = other) := by
      apply List.filter_congr
      intro item hitem
      simp only [Function.comp_apply, hholder kind item hitem]
    rw [hfilter]
    apply List.map_congr_left
    intro item hitem
    have hitem' := hsame kind item (List.mem_filter.1 hitem).1
    simp only [Function.comp_apply, Collection.keyOf, hitem'.id, hitem'.order]
  rw [siblingEntries_eq hshared, siblingEntries_eq (show back.sharedOrder = true from hshared)]
  unfold Collection.keysIn
  rw [hkeys, hkeys]

end Relisted

/-! ## What may be moved -/

namespace Collection

variable {c : Collection}

theorem parents_read (h : c.Arranged) {folder : Item} (hmem : folder ∈ c.folders) :
    c.parents.read folder.id = some (folder.parent.getD rootId) := by
  apply Record.read_ofEntries_of_mem
  · unfold Record.keys
    rw [List.map_map]
    exact h.folderIds
  · exact List.mem_map.2 ⟨folder, hmem, rfl⟩

theorem parents_has (c : Collection) (id : String) : c.parents.has id = c.parentOf.has id := by
  rw [Bool.eq_iff_iff, parentOf_has]
  unfold parents Record.ofEntries
  rw [Record.has_iff, Record.mem_keys_overlay]
  simp [Record.keys]

theorem mem_of_above {id next : String} (h : above c.parentOf id = some next) :
    ∃ folder ∈ c.folders, folder.id = id := by
  by_contra hnot
  rw [above_of_not_mem hnot c rfl] at h
  cases h

/-- `isInside` finds whatever is on the way up. -/
theorem isInsideWithin_of_below (h : c.Arranged) {ancestor : String} {levels left : Nat}
    (hlevels : levels < left) {folder : Item} (hmem : folder ∈ c.folders)
    (hbelow : Below (above c.parentOf) ancestor levels folder.id) :
    isInsideWithin ancestor c.parents left folder.id = true := by
  induction left generalizing levels folder with
  | zero => omega
  | succ left ih =>
    rw [isInsideWithin, if_neg (h.ne_root hmem)]
    split_ifs with heq
    · rfl
    · cases levels with
      | zero => exact absurd hbelow heq
      | succ levels =>
        obtain ⟨next, hnext, hrest⟩ := hbelow
        obtain ⟨parent, hparent, rfl⟩ := above_mem hnext
        rw [above_folder h.folderIds hmem] at hnext
        have hfolder : folder.parent = some parent.id := (Option.filter_eq_some_iff.1 hnext).1
        rw [parents_read h hmem, hfolder]
        exact ih (by omega) hparent hrest

theorem outside_of_isInside (h : c.Arranged) {containerId ancestor : String}
    (hinside : isInside containerId ancestor c.parents = false) :
    ¬ OnWay (above c.parentOf) ancestor (known c.parentOf (some containerId)) := by
  rintro ⟨levels, id, hstart, hbelow⟩
  obtain ⟨heq, hhas⟩ := Option.filter_eq_some_iff.1 hstart
  obtain rfl := Option.some.inj heq
  obtain ⟨folder, hmem, rfl⟩ := (parentOf_has c _).1 hhas
  obtain ⟨count, hle, hclimbs⟩ := h.climbs hmem
  have hlt := hbelow.lt_count (.step hclimbs)
  have hfound := isInsideWithin_of_below h (show levels < maxFolderDepth + 2 by omega) hmem hbelow
  rw [isInside, hfound] at hinside
  cases hinside

theorem le_foldl_max {α : Type*} (f : α → Nat) (items : List α) (start : Nat) :
    start ≤ items.foldl (fun tallest item => max tallest (f item)) start ∧
      ∀ item ∈ items, f item ≤ items.foldl (fun tallest item => max tallest (f item)) start := by
  induction items generalizing start with
  | nil => simp
  | cons item rest ih =>
    obtain ⟨hstart, hrest⟩ := ih (max start (f item))
    rw [List.foldl_cons]
    refine ⟨le_trans (le_max_left _ _) hstart, ?_⟩
    intro other hother
    rcases List.mem_cons.1 hother with rfl | hmem
    · exact le_trans (le_max_right _ _) hstart
    · exact hrest other hmem

/-- `subtreeHeight` reaches whatever is below. -/
theorem le_subtreeHeight (h : c.Arranged) {top id : String} {levels left : Nat} (hlevels : levels ≤ left)
    (hbelow : Below (above c.parentOf) top levels id) (level : Nat) :
    level + levels ≤ subtreeHeight c.tree left top level := by
  induction left generalizing levels top level with
  | zero =>
    obtain rfl : levels = 0 := by omega
    exact le_refl _
  | succ left ih =>
    rw [subtreeHeight]
    obtain ⟨hstart, hchildren⟩ := le_foldl_max
      (fun child : Item => subtreeHeight c.tree left child.id (level + 1)) (c.tree.foldersIn top) level
    cases levels with
    | zero => exact hstart
    | succ levels =>
      obtain ⟨child, hchild, hrest⟩ := hbelow.last
      obtain ⟨folder, hmem, rfl⟩ := mem_of_above hchild
      have hshown : folder ∈ c.tree.foldersIn top := by
        rw [foldersIn_tree]
        unfold sortByOrder
        rw [List.mem_insertionSort, List.mem_filter]
        refine ⟨hmem, decide_eq_true ?_⟩
        rw [h.holderOf .folder hmem, containerOf_eq, ← above_folder h.folderIds hmem, hchild]
        rfl
      have htall := hchildren folder hshown
      have hdeep := ih (by omega) hrest (level + 1)
      omega

theorem fits_of_guards (h : c.Arranged) {containerId : String} {source : Entry}
    (hcontainer : containerId = rootId ∨ c.parentOf.has containerId = true)
    (hguards : ¬ (source.kind = .folder ∧ (isInside containerId source.id c.parents ∨
      ¬ fitsDepth c source.id containerId))) : Relisted.Fits c containerId source := by
  have hfolder : source.kind = .folder → isInside containerId source.id c.parents = false ∧
      fitsDepth c source.id containerId = true := by
    intro hkind
    have hboth := not_or.1 fun hor => hguards ⟨hkind, hor⟩
    exact ⟨by simpa using hboth.1, by simpa using hboth.2⟩
  refine ⟨fun hkind => outside_of_isInside h (hfolder hkind).1, ?_⟩
  intro hkind
  have hfits := (hfolder hkind).2
  unfold fitsDepth at hfits
  rw [decide_eq_true_eq] at hfits
  -- how deep the folder arrives
  have harrival : ∃ count, Climbs (above c.parentOf) (known c.parentOf (some containerId)) count ∧
      count = if containerId = rootId then 0 else folderDepth containerId c.parentOf + 1 := by
    by_cases hroot : containerId = rootId
    · refine ⟨0, ?_, by rw [if_pos hroot]⟩
      rw [hroot]
      simpa [known, Option.filter, h.root_unknown] using Climbs.top
    · have hhas := hcontainer.resolve_left hroot
      obtain ⟨folder, hmem, rfl⟩ := (parentOf_has c _).1 hhas
      obtain ⟨count, hle, hclimbs⟩ := h.climbs hmem
      refine ⟨count + 1, ?_, by rw [if_neg hroot, folderDepth_eq hclimbs hle]⟩
      simpa [known, Option.filter, hhas] using Climbs.step hclimbs
  obtain ⟨count, hclimbs, hcount⟩ := harrival
  refine ⟨count, hclimbs, ?_⟩
  intro levels folder hmem hbelow
  obtain ⟨own, hle, hown⟩ := h.climbs hmem
  have hlt := hbelow.lt_count (.step hown)
  have hheight := le_subtreeHeight h (show levels ≤ maxFolderDepth + 1 by omega) hbelow 0
  rw [← hcount] at hfits
  omega

theorem destinationOf_container {target : Target} {destination : Destination}
    (h : destinationOf c target = some destination) :
    destination.containerId = rootId ∨ c.parentOf.has destination.containerId = true := by
  cases target with
  | root =>
    obtain rfl := Option.some.inj h
    exact .inl rfl
  | row entry place =>
    obtain ⟨item, hread, rfl⟩ := Option.map_eq_some_iff.1 h
    split_ifs with hinside
    · obtain ⟨hmem, hid⟩ := mem_of_items_read hread
      rw [hinside.1] at hmem
      exact .inr ((parentOf_has c _).2 ⟨item, hmem, hid⟩)
    · simp only [containerOf]
      split_ifs with hhas
      · exact .inr (parents_has c _ ▸ hhas)
      · exact .inl rfl

end Collection

/-- A planned move lists the moved entry where it was dropped and leaves the
other containers and the tree in order, and undoing it restores every list. -/
theorem planMove_moves {c : Collection} (h : c.Arranged) (hshared : c.sharedOrder = true)
    (source : Entry) (target : Target) {plan : Plan} (hplan : planMove c source target = some plan) :
    ∃ destination, destinationOf c target = some destination ∧
      (c.patched plan.patches).siblingEntries destination.containerId =
        insertEntry (c.siblingEntries destination.containerId) source destination.anchor
          destination.place ∧
      (∀ other ≠ destination.containerId, (c.patched plan.patches).siblingEntries other =
        (c.siblingEntries other).filter fun entry => entry ≠ source) ∧
      (c.patched plan.patches).Arranged ∧
      ∀ containerId, ((c.patched plan.patches).patched plan.undo).siblingEntries containerId =
        c.siblingEntries containerId := by
  unfold planMove at hplan
  obtain ⟨subject, hsubject, hplan⟩ := Option.bind_eq_some_iff.1 hplan
  obtain ⟨destination, hdestination, hplan⟩ := Option.bind_eq_some_iff.1 hplan
  simp only at hplan
  split_ifs at hplan with hanchor hguards hempty
  obtain rfl := Option.some.inj hplan
  have hcontainer := Collection.destinationOf_container hdestination
  obtain ⟨hmem, hid⟩ := Collection.mem_of_items_read hsubject
  have hlist := relisted_insertEntry h hshared hcontainer ⟨subject, hmem, hid⟩ destination.anchor
    destination.place
  have hfits := Collection.fits_of_guards h hcontainer hguards
  refine ⟨destination, hdestination, hlist.siblings_relisted hshared hfits, ?_,
    hlist.arranged_relisted hfits, hlist.siblings_undone hshared⟩
  intro other hother
  exact hlist.siblings_other hshared hfits hother

/-- A folder inside another, and a request whose folder is not there. -/
def nested : Collection where
  folders := [⟨"a", none, some (.num 1)⟩, ⟨"b", some "a", none⟩]
  requests := [⟨"r", some "gone", none⟩]
  sharedOrder := true
  folders_fit := by decide
  requests_fit := by decide

theorem nested_arranged : nested.Arranged := by
  apply Collection.arranged_of
  · decide
  · decide
  · decide
  · intro folder hmem
    apply folderDepth_le_iff.1
    revert folder
    decide

theorem planMove_moves_nested :
    ∃ plan, planMove nested ⟨.folder, "b"⟩ (.row ⟨.request, "r"⟩ .before) = some plan ∧
      ∃ destination, destinationOf nested (.row ⟨.request, "r"⟩ .before) = some destination ∧
        (nested.patched plan.patches).siblingEntries destination.containerId =
          insertEntry (nested.siblingEntries destination.containerId) ⟨.folder, "b"⟩
            destination.anchor destination.place := by
  have hplanned : (planMove nested ⟨.folder, "b"⟩ (.row ⟨.request, "r"⟩ .before)).isSome = true := by
    decide +kernel
  obtain ⟨plan, hplan⟩ := Option.isSome_iff_exists.1 hplanned
  obtain ⟨destination, hdestination, hlisted, -⟩ := planMove_moves nested_arranged rfl _ _ hplan
  exact ⟨plan, hplan, destination, hdestination, hlisted⟩

end Gostman.Tree
