import Gostman.Workspace.Order
/-!
# Sharing keeps the sequences

Merging the sorted folders and requests sorts the ones after the others, and
with the places they have as their orders the groups stay as they are.
-/

namespace Gostman.Workspace

open Gostman.Lib

/-! ## Comparing -/

/-- Orders that are not positive are equal and come last. -/
theorem compareOrder_le_zero_iff (first second : Int) :
    compareOrder first second ≤ 0 ↔ second ≤ 0 ∨ 0 < first ∧ first ≤ second := by
  unfold compareOrder compare
  split_ifs <;> omega

theorem compareOrder_lt_zero_iff (first second : Int) :
    compareOrder first second < 0 ↔ ¬compareOrder second first ≤ 0 := by
  unfold compareOrder compare
  split_ifs <;> omega

section NotAfter

variable {α : Type} (orderOf : α → Int)

theorem notAfter_iff (first second : α) :
    notAfter orderOf first second ↔ orderOf second ≤ 0 ∨ 0 < orderOf first ∧ orderOf first ≤ orderOf second :=
  compareOrder_le_zero_iff _ _

instance : IsTrans α (notAfter orderOf) where
  trans first second third hfirst hsecond := by
    rw [notAfter_iff] at hfirst hsecond ⊢
    omega

instance : Std.Total (notAfter orderOf) where
  total first second := by
    rw [notAfter_iff, notAfter_iff]
    omega

theorem map_sortStable {β : Type} (wrap : β → α) (items : List β) :
    (sortStable (fun b => orderOf (wrap b)) items).map wrap = sortStable orderOf (items.map wrap) :=
  List.map_insertionSort _ _ wrap items fun _ _ _ _ => Iff.rfl

end NotAfter

/-! ## The children of one folder -/

def siblingsOf (folders : List Folder) (requests : List Request) : List Sibling :=
  folders.map .folder ++ requests.map .request

theorem mergeSiblings_separate (folders : List Folder) (requests : List Request) :
    mergeSiblings false folders requests = siblingsOf folders requests := by
  induction folders with
  | nil => rw [mergeSiblings, siblingsOf, List.map_nil, List.nil_append]
  | cons item rest ih =>
    cases requests with
    | nil =>
      rw [mergeSiblings, siblingsOf, List.map_nil, List.append_nil]
      simp
    | cons request requests =>
      rw [mergeSiblings, if_neg (fun h => Bool.false_ne_true h.1), ih]
      rfl

theorem mergeSiblings_shared (folders : List Folder) (requests : List Request) :
    mergeSiblings true folders requests =
      (folders.map Sibling.folder).merge (requests.map Sibling.request) (notAfter Sibling.sortOrder · ·) := by
  induction folders generalizing requests with
  | nil => rw [mergeSiblings, List.map_nil, List.nil_merge]
  | cons item rest ih =>
    induction requests with
    | nil =>
      rw [mergeSiblings, List.map_nil, List.merge_right]
      simp
    | cons request requests ihr =>
      rw [mergeSiblings, List.map_cons, List.map_cons, List.cons_merge_cons]
      have hcompare := compareOrder_lt_zero_iff request.sortOrder item.sortOrder
      by_cases h : notAfter Sibling.sortOrder (.folder item) (.request request)
      · rw [if_neg (fun hfirst => hcompare.1 hfirst.2 h), if_pos (decide_eq_true h), ih]
        rfl
      · rw [if_pos ⟨rfl, hcompare.2 h⟩, if_neg (fun hfirst => h (of_decide_eq_true hfirst)), ihr]
        rfl

/-- Apart, the folders come first, each kind sorted. -/
theorem orderSiblings_separate (folders : List Folder) (requests : List Request) :
    orderSiblings folders requests false =
      siblingsOf (sortStable Folder.sortOrder folders) (sortStable Request.sortOrder requests) :=
  mergeSiblings_separate _ _

/-- Together they are the folders followed by the requests, sorted. -/
theorem orderSiblings_shared (folders : List Folder) (requests : List Request) :
    orderSiblings folders requests true = sortStable Sibling.sortOrder (siblingsOf folders requests) := by
  have hfolders := map_sortStable Sibling.sortOrder Sibling.folder folders
  have hrequests := map_sortStable Sibling.sortOrder Sibling.request requests
  calc orderSiblings folders requests true
      = ((sortStable Folder.sortOrder folders).map Sibling.folder).merge
          ((sortStable Request.sortOrder requests).map Sibling.request) (notAfter Sibling.sortOrder · ·) :=
        mergeSiblings_shared _ _
    _ = (sortStable Sibling.sortOrder (folders.map .folder)).merge
          (sortStable Sibling.sortOrder (requests.map .request)) (notAfter Sibling.sortOrder · ·) := by
        rw [← hfolders, ← hrequests]
        rfl
    _ = sortStable Sibling.sortOrder (siblingsOf folders requests) := merge_insertionSort _ _

theorem orderSiblings_perm (folders : List Folder) (requests : List Request) :
    (orderSiblings folders requests false).Perm (siblingsOf folders requests) := by
  rw [orderSiblings_separate]
  exact ((List.perm_insertionSort _ folders).map _).append ((List.perm_insertionSort _ requests).map _)

theorem orderSiblings_nil (shared : Bool) : orderSiblings [] [] shared = [] := by
  cases shared with
  | false => exact orderSiblings_separate [] []
  | true => exact orderSiblings_shared [] []

/-! ## The groups -/

section Grouped

variable {α : Type} (keyOf : α → String) (items : List α)

theorem nodup_keys_put {β : Type} {record : Record String β} (h : record.keys.Nodup) (key : String) (value : β) :
    (record.put key value).keys.Nodup := by
  rw [Record.keys_put]
  split_ifs with hmem
  · exact h
  · exact List.nodup_append.2 ⟨h, List.nodup_singleton key, by
      intro other hother last hlast heq
      rw [List.mem_singleton.1 hlast] at heq
      exact hmem (heq ▸ hother)⟩

theorem nodup_keys_grouped : (grouped keyOf items).keys.Nodup := by
  have hall : ∀ groups : Record String (List α), groups.keys.Nodup →
      (items.foldl (fun groups item => groups.put (keyOf item) ((groups.read (keyOf item)).getD [] ++ [item])) groups).keys.Nodup := by
    induction items with
    | nil => exact fun groups h => h
    | cons item rest ih => exact fun groups h => ih _ (nodup_keys_put h _ _)
  exact hall [] List.nodup_nil

theorem read_grouped (key : String) :
    ((grouped keyOf items).read key).getD [] = items.filter fun item => keyOf item = key := by
  have hall : ∀ groups : Record String (List α),
      ((items.foldl (fun groups item => groups.put (keyOf item) ((groups.read (keyOf item)).getD [] ++ [item]))
        groups).read key).getD [] = (groups.read key).getD [] ++ items.filter fun item => keyOf item = key := by
    induction items with
    | nil =>
      intro groups
      rw [List.filter_nil, List.append_nil]
      rfl
    | cons item rest ih =>
      intro groups
      rw [List.foldl_cons, ih, Record.read_put]
      by_cases h : key = keyOf item
      · have hkey : decide (keyOf item = key) = true := decide_eq_true h.symm
        rw [if_pos h, List.filter_cons_of_pos (p := fun item => decide (keyOf item = key)) hkey, ← h, Option.getD_some,
          List.append_assoc]
        rfl
      · have hkey : ¬decide (keyOf item = key) = true := fun heq => h (of_decide_eq_true heq).symm
        rw [if_neg h, List.filter_cons_of_neg (p := fun item => decide (keyOf item = key)) hkey]
  exact (hall []).trans (List.nil_append _)

end Grouped

section Groups

variable (folders : List Folder) (requests : List Request)

def groupFolders (parent : String) : List Folder :=
  folders.filter fun folder => groupOfFolder folders folder = parent

def groupRequests (parent : String) : List Request :=
  requests.filter fun request => groupOfRequest folders request = parent

theorem read_append (first second : Groups) (key : String) :
    Record.read (first ++ second) key = (Record.read first key).or (Record.read second key) := by
  induction first with
  | nil => rfl
  | cons entry rest ih =>
    obtain ⟨name, children⟩ := entry
    rw [List.cons_append, Record.read_cons, Record.read_cons]
    split_ifs with h
    · rfl
    · exact ih

theorem read_map {α β : Type} (record : Record String α) (change : String → α → β) (key : String) :
    Record.read (record.map fun entry => (entry.1, change entry.1 entry.2)) key =
      (record.read key).map (change key) := by
  induction record with
  | nil => rfl
  | cons entry rest ih =>
    obtain ⟨name, value⟩ := entry
    rw [List.map_cons, Record.read_cons, Record.read_cons]
    split_ifs with h
    · rw [h]
      rfl
    · exact ih

theorem childrenOf_siblingGroups (shared : Bool) (parent : String) :
    (siblingGroups folders requests shared).childrenOf parent =
      orderSiblings (groupFolders folders parent) (groupRequests folders requests parent) shared := by
  have hfolders := read_grouped (groupOfFolder folders) folders parent
  have hrequests := read_grouped (groupOfRequest folders) requests parent
  have hfirst := read_map (grouped (groupOfFolder folders) folders)
    (fun key children => orderSiblings children (((grouped (groupOfRequest folders) requests).read key).getD []) shared)
    parent
  have hsecond := read_map
    ((grouped (groupOfRequest folders) requests).filter fun entry => !(grouped (groupOfFolder folders) folders).has entry.1)
    (fun _ children => orderSiblings [] children shared) parent
  have hleft := Record.read_filter (grouped (groupOfRequest folders) requests)
    (fun key => !(grouped (groupOfFolder folders) folders).has key) parent
  unfold Groups.childrenOf siblingGroups
  rw [read_append, hfirst, hsecond, hleft, hrequests]
  unfold Record.has
  cases hread : (grouped (groupOfFolder folders) folders).read parent with
  | some children =>
    rw [hread, Option.getD_some] at hfolders
    rw [hfolders]
    rfl
  | none =>
    rw [hread, Option.getD_none] at hfolders
    unfold groupFolders
    rw [← hfolders]
    cases hchildren : (grouped (groupOfRequest folders) requests).read parent with
    | some children =>
      rw [hchildren, Option.getD_some] at hrequests
      unfold groupRequests
      rw [← hrequests]
      rfl
    | none =>
      rw [hchildren, Option.getD_none] at hrequests
      unfold groupRequests
      rw [← hrequests]
      rw [orderSiblings_nil]
      rfl

theorem nodup_keys_siblingGroups (shared : Bool) : (Record.keys (siblingGroups folders requests shared)).Nodup := by
  have hfolders := nodup_keys_grouped (groupOfFolder folders) folders
  have hrequests := nodup_keys_grouped (groupOfRequest folders) requests
  unfold siblingGroups Record.keys
  rw [List.map_append, List.map_map, List.map_map]
  apply List.nodup_append.2
  refine ⟨hfolders, hrequests.sublist (List.filter_sublist.map Prod.fst), ?_⟩
  intro first hfirst second hsecond heq
  obtain ⟨entry, hentry, hkey⟩ := List.mem_map.1 hsecond
  have hnew := (List.mem_filter.1 hentry).2
  rw [Bool.not_eq_true', Record.has, Option.isSome_eq_false_iff, Option.isNone_iff_eq_none,
    Record.read_eq_none_iff] at hnew
  apply hnew
  change entry.1 = second at hkey
  rw [hkey, ← heq]
  exact hfirst

def groupOf : Sibling → String
  | .folder item => groupOfFolder folders item
  | .request item => groupOfRequest folders item

variable {folders requests}

theorem children_perm (parent : String) :
    ((siblingGroups folders requests false).childrenOf parent).Perm
      (siblingsOf (groupFolders folders parent) (groupRequests folders requests parent)) := by
  rw [childrenOf_siblingGroups]
  exact orderSiblings_perm _ _

theorem mem_children {parent : String} {sibling : Sibling}
    (h : sibling ∈ (siblingGroups folders requests false).childrenOf parent) :
    sibling ∈ siblingsOf folders requests ∧ groupOf folders sibling = parent := by
  have hmem := (children_perm parent).mem_iff.1 h
  rcases List.mem_append.1 hmem with hfolder | hrequest
  · obtain ⟨item, hitem, rfl⟩ := List.mem_map.1 hfolder
    obtain ⟨hin, hparent⟩ := List.mem_filter.1 hitem
    exact ⟨List.mem_append_left _ (List.mem_map_of_mem hin), of_decide_eq_true hparent⟩
  · obtain ⟨item, hitem, rfl⟩ := List.mem_map.1 hrequest
    obtain ⟨hin, hparent⟩ := List.mem_filter.1 hitem
    exact ⟨List.mem_append_right _ (List.mem_map_of_mem hin), of_decide_eq_true hparent⟩

theorem nodup_siblingsOf {folders : List Folder} {requests : List Request} (hfolders : folders.Nodup)
    (hrequests : requests.Nodup) : (siblingsOf folders requests).Nodup := by
  have hfirst : (folders.map Sibling.folder).Nodup := hfolders.map fun _ _ => Sibling.folder.inj
  have hsecond : (requests.map Sibling.request).Nodup := hrequests.map fun _ _ => Sibling.request.inj
  apply List.nodup_append.2
  refine ⟨hfirst, hsecond, ?_⟩
  intro first hin second hother heq
  obtain ⟨item, -, rfl⟩ := List.mem_map.1 hin
  obtain ⟨other, -, rfl⟩ := List.mem_map.1 hother
  cases heq

end Groups

/-! ## The places -/

section Places

variable {folders : List Folder} {requests : List Request} {groups : Groups}

theorem mem_placesIn {place : Sibling × Nat} :
    place ∈ placesIn groups ↔ ∃ group ∈ groups, 1 ≤ place.2 ∧ group.2[place.2 - 1]? = some place.1 := by
  unfold placesIn
  rw [List.mem_flatMap]
  constructor
  · rintro ⟨group, hgroup, hmem⟩
    exact ⟨group, hgroup, List.mk_mem_zipIdx_iff_le_and_getElem?_sub.1 hmem⟩
  · rintro ⟨group, hgroup, hmem⟩
    exact ⟨group, hgroup, List.mk_mem_zipIdx_iff_le_and_getElem?_sub.2 hmem⟩

theorem read_overlay_of_unique {entries base : Record String Int} {id : String} {place : Int}
    (hunique : ∀ other, (id, other) ∈ entries → other = place)
    (h : (id, place) ∈ entries ∨ base.read id = some place) : (base.overlay entries).read id = some place := by
  induction entries generalizing base with
  | nil => exact h.resolve_left List.not_mem_nil
  | cons entry rest ih =>
    rw [Record.overlay_cons]
    apply ih (fun other hother => hunique other (List.mem_cons_of_mem _ hother))
    by_cases hid : id = entry.1
    · have hplace : entry.2 = place := hunique entry.2 (hid ▸ List.mem_cons_self)
      rw [Record.read_put, if_pos hid, hplace]
      exact .inr rfl
    · rw [Record.read_put_ne _ hid]
      rcases h with hmem | hbase
      · rcases List.mem_cons.1 hmem with rfl | hin
        · exact absurd rfl hid
        · exact .inl hin
      · exact .inr hbase

/-- An id that belongs to one place has that place. -/
theorem read_placesBy {idOf : Sibling → Option String} {place : Sibling × Nat} {id : String}
    (hmem : place ∈ placesIn groups) (hid : idOf place.1 = some id)
    (hunique : ∀ other ∈ placesIn groups, idOf other.1 = some id → other = place) :
    (placesBy idOf groups).read id = some (place.2 : Int) := by
  apply read_overlay_of_unique
  · intro number hnumber
    obtain ⟨other, hother, hentry⟩ := List.mem_filterMap.1 hnumber
    obtain ⟨name, hname, heq⟩ := Option.map_eq_some_iff.1 hentry
    cases heq
    rw [hunique other hother hname]
  · left
    apply List.mem_filterMap.2
    refine ⟨place, hmem, ?_⟩
    rw [hid]
    rfl

variable (hfolders : (folders.map Folder.id).Nodup) (hrequests : (requests.map Request.id).Nodup)
  (hgroups : groups.Perm (siblingGroups folders requests false))

include hgroups in
theorem group_eq {group : String × List Sibling} (h : group ∈ groups) :
    group.2 = (siblingGroups folders requests false).childrenOf group.1 := by
  have hread := Record.read_of_mem (nodup_keys_siblingGroups folders requests false) (hgroups.mem_iff.1 h)
  unfold Groups.childrenOf
  rw [hread]
  rfl

include hgroups in
theorem place_of_child {parent : String} {index : Nat} {sibling : Sibling}
    (h : ((siblingGroups folders requests false).childrenOf parent)[index]? = some sibling) :
    (sibling, index + 1) ∈ placesIn groups := by
  unfold Groups.childrenOf at h
  cases hread : Record.read (siblingGroups folders requests false) parent with
  | none =>
    rw [hread] at h
    cases h
  | some children =>
    rw [hread] at h
    exact mem_placesIn.2 ⟨(parent, children), hgroups.mem_iff.2 (Record.mem_of_read hread), Nat.le_add_left 1 index, h⟩

include hfolders hrequests in
theorem nodup_children (parent : String) : ((siblingGroups folders requests false).childrenOf parent).Nodup :=
  (children_perm parent).nodup_iff.2 (nodup_siblingsOf (hfolders.of_map.filter _) (hrequests.of_map.filter _))

include hfolders hrequests hgroups in
/-- An item has one place: its group is known from it. -/
theorem eq_of_places {first second : Sibling × Nat} (hfirst : first ∈ placesIn groups) (hsecond : second ∈ placesIn groups)
    (h : first.1 = second.1) : first = second := by
  obtain ⟨group, hgroup, hpos, hat⟩ := mem_placesIn.1 hfirst
  obtain ⟨other, hother, hposOther, hatOther⟩ := mem_placesIn.1 hsecond
  rw [group_eq hgroups hgroup] at hat
  rw [group_eq hgroups hother] at hatOther
  have hkey := (mem_children (List.mem_of_getElem? hat)).2
  have hkeyOther := (mem_children (List.mem_of_getElem? hatOther)).2
  rw [← hkeyOther, ← h, hkey] at hatOther
  obtain ⟨hlt, -⟩ := List.getElem?_eq_some_iff.1 hat
  have hindex : first.2 - 1 = second.2 - 1 :=
    (List.getElem?_inj hlt (nodup_children hfolders hrequests group.1)).1 (hat.trans (h ▸ hatOther.symm))
  exact Prod.ext h (by omega)

include hgroups in
theorem mem_siblingsOf_of_place {place : Sibling × Nat} (h : place ∈ placesIn groups) :
    place.1 ∈ siblingsOf folders requests := by
  obtain ⟨group, hgroup, -, hat⟩ := mem_placesIn.1 h
  rw [group_eq hgroups hgroup] at hat
  exact (mem_children (List.mem_of_getElem? hat)).1

theorem folder_mem_siblingsOf {item : Folder} (h : Sibling.folder item ∈ siblingsOf folders requests) : item ∈ folders := by
  rcases List.mem_append.1 h with hin | hin
  · obtain ⟨other, hother, heq⟩ := List.mem_map.1 hin
    cases heq
    exact hother
  · obtain ⟨other, -, heq⟩ := List.mem_map.1 hin
    cases heq

theorem request_mem_siblingsOf {item : Request} (h : Sibling.request item ∈ siblingsOf folders requests) :
    item ∈ requests := by
  rcases List.mem_append.1 h with hin | hin
  · obtain ⟨other, -, heq⟩ := List.mem_map.1 hin
    cases heq
  · obtain ⟨other, hother, heq⟩ := List.mem_map.1 hin
    cases heq
    exact hother

def placeOf (groups : Groups) : Sibling → Int
  | .folder item => ((folderPlaces groups).read item.id).getD 0
  | .request item => ((requestPlaces groups).read item.id).getD 0

def renumbered (groups : Groups) (sibling : Sibling) : Sibling :=
  sibling.withOrder (placeOf groups sibling)

include hfolders hrequests hgroups in
theorem placeOf_place {place : Sibling × Nat} (h : place ∈ placesIn groups) : placeOf groups place.1 = place.2 := by
  obtain ⟨sibling, number⟩ := place
  have hin := mem_siblingsOf_of_place hgroups h
  cases sibling with
  | folder item =>
    have hread : (folderPlaces groups).read item.id = some (number : Int) := by
      apply read_placesBy h (by rfl)
      intro other hother hid
      obtain ⟨sibling, place⟩ := other
      have hotherIn := mem_siblingsOf_of_place hgroups hother
      cases sibling with
      | folder same =>
        have hsame : same = item := List.inj_on_of_nodup_map hfolders (folder_mem_siblingsOf hotherIn)
          (folder_mem_siblingsOf hin) (Option.some.inj hid)
        exact eq_of_places hfolders hrequests hgroups hother h (congrArg Sibling.folder hsame)
      | request same => cases hid
    change ((folderPlaces groups).read item.id).getD 0 = _
    rw [hread]
    rfl
  | request item =>
    have hread : (requestPlaces groups).read item.id = some (number : Int) := by
      apply read_placesBy h (by rfl)
      intro other hother hid
      obtain ⟨sibling, place⟩ := other
      have hotherIn := mem_siblingsOf_of_place hgroups hother
      cases sibling with
      | folder same => cases hid
      | request same =>
        have hsame : same = item := List.inj_on_of_nodup_map hrequests (request_mem_siblingsOf hotherIn)
          (request_mem_siblingsOf hin) (Option.some.inj hid)
        exact eq_of_places hfolders hrequests hgroups hother h (congrArg Sibling.request hsame)
    change ((requestPlaces groups).read item.id).getD 0 = _
    rw [hread]
    rfl

def numberedFrom (children : List Sibling) : List Sibling :=
  children.mapIdx fun index sibling => sibling.withOrder (index + 1 : Nat)

include hfolders hrequests hgroups in
theorem map_renumbered (parent : String) :
    ((siblingGroups folders requests false).childrenOf parent).map (renumbered groups) =
      numberedFrom ((siblingGroups folders requests false).childrenOf parent) := by
  apply List.ext_getElem?
  intro index
  unfold numberedFrom
  rw [List.getElem?_map, List.getElem?_mapIdx]
  cases hat : ((siblingGroups folders requests false).childrenOf parent)[index]? with
  | none => rfl
  | some sibling =>
    have hplace := placeOf_place hfolders hrequests hgroups (place_of_child hgroups hat)
    exact congrArg (fun order => some (sibling.withOrder order)) hplace

end Places

/-! ## Sharing -/

section Sharing

variable (groups : Groups) (folders : List Folder) (requests : List Request)

theorem isKnown_shared (parent : String) :
    isKnown (shareOrder groups folders requests).1 parent = isKnown folders parent := by
  unfold isKnown shareOrder
  rw [List.map_map]
  rfl

theorem groupOf_shared (sibling : Sibling) :
    groupOf (shareOrder groups folders requests).1 (renumbered groups sibling) = groupOf folders sibling := by
  cases sibling with
  | folder item =>
    change groupOfFolder _ _ = groupOfFolder folders item
    unfold groupOfFolder
    rw [isKnown_shared]
  | request item =>
    change groupOfRequest _ _ = groupOfRequest folders item
    unfold groupOfRequest
    rw [isKnown_shared]

/-- Every group has the same items after sharing. -/
theorem siblingsOf_shared (parent : String) :
    siblingsOf (groupFolders (shareOrder groups folders requests).1 parent)
        (groupRequests (shareOrder groups folders requests).1 (shareOrder groups folders requests).2 parent) =
      (siblingsOf (groupFolders folders parent) (groupRequests folders requests parent)).map (renumbered groups) := by
  have hfolders : groupFolders (shareOrder groups folders requests).1 parent =
      (groupFolders folders parent).map fun item => { item with sortOrder := placeOf groups (.folder item) } := by
    unfold groupFolders
    rw [shareOrder, List.filter_map]
    congr 2
    funext item
    exact congrArg (fun key => decide (key = parent)) (groupOf_shared groups folders requests (.folder item))
  have hrequests : groupRequests (shareOrder groups folders requests).1 (shareOrder groups folders requests).2 parent =
      (groupRequests folders requests parent).map fun item => { item with sortOrder := placeOf groups (.request item) } := by
    unfold groupRequests
    rw [shareOrder, List.filter_map]
    congr 2
    funext item
    exact congrArg (fun key => decide (key = parent)) (groupOf_shared groups folders requests (.request item))
  unfold siblingsOf
  rw [hfolders, hrequests, List.map_append, List.map_map, List.map_map, List.map_map, List.map_map]
  rfl

end Sharing

theorem sortOrder_withOrder (sibling : Sibling) (order : Int) : (sibling.withOrder order).sortOrder = order := by
  cases sibling <;> rfl

theorem sortOrder_getElem {children : List Sibling} {index : Nat} (h : index < (numberedFrom children).length) :
    (numberedFrom children)[index].sortOrder = index + 1 := by
  simp only [numberedFrom, List.getElem_mapIdx, sortOrder_withOrder, Nat.cast_add, Nat.cast_one]

theorem pairwise_numberedFrom (children : List Sibling) :
    (numberedFrom children).Pairwise (notAfter Sibling.sortOrder) := by
  apply List.pairwise_iff_getElem.2
  intro first second hfirst hsecond hlt
  rw [notAfter_iff, sortOrder_getElem hfirst, sortOrder_getElem hsecond]
  omega

theorem eq_of_sortOrder {children : List Sibling} {first second : Sibling} (hfirst : first ∈ numberedFrom children)
    (hsecond : second ∈ numberedFrom children) (h : first.sortOrder = second.sortOrder) : first = second := by
  obtain ⟨index, hindex, rfl⟩ := List.getElem_of_mem hfirst
  obtain ⟨other, hother, rfl⟩ := List.getElem_of_mem hsecond
  rw [sortOrder_getElem hindex, sortOrder_getElem hother] at h
  have hsame : index = other := by omega
  subst hsame
  rfl

theorem sortOrder_pos {children : List Sibling} {sibling : Sibling} (h : sibling ∈ numberedFrom children) :
    0 < sibling.sortOrder := by
  obtain ⟨index, hindex, rfl⟩ := List.getElem_of_mem h
  rw [sortOrder_getElem hindex]
  omega

/-- A list that is numbered is in order, and in no other one. -/
theorem sortStable_of_perm {items children : List Sibling} (h : items.Perm (numberedFrom children)) :
    sortStable Sibling.sortOrder items = numberedFrom children := by
  have hperm : (sortStable Sibling.sortOrder items).Perm (numberedFrom children) :=
    (List.perm_insertionSort _ items).trans h
  apply List.Perm.eq_of_pairwise _ (List.pairwise_insertionSort _ items) (pairwise_numberedFrom children) hperm
  intro first second hfirst hsecond hle hge
  have hin := hperm.mem_iff.1 hfirst
  have hpos := sortOrder_pos hin
  have hposSecond := sortOrder_pos hsecond
  rw [notAfter_iff] at hle hge
  exact eq_of_sortOrder hin hsecond (by omega)

theorem children_shared {folders : List Folder} {requests : List Request} {groups : Groups}
    (hfolders : (folders.map Folder.id).Nodup) (hrequests : (requests.map Request.id).Nodup)
    (hgroups : groups.Perm (siblingGroups folders requests false)) (parent : String) :
    (siblingGroups (shareOrder groups folders requests).1 (shareOrder groups folders requests).2 true).childrenOf parent =
      numberedFrom ((siblingGroups folders requests false).childrenOf parent) := by
  rw [childrenOf_siblingGroups, orderSiblings_shared, siblingsOf_shared]
  apply sortStable_of_perm
  rw [← map_renumbered hfolders hrequests hgroups]
  exact ((children_perm parent).map _).symm

def unplaced (sibling : Sibling) : Sibling :=
  sibling.withOrder 0

theorem map_unplaced_numberedFrom (children : List Sibling) :
    (numberedFrom children).map unplaced = children.map unplaced := by
  apply List.ext_getElem?
  intro index
  unfold numberedFrom
  rw [List.getElem?_map, List.getElem?_mapIdx, List.getElem?_map]
  cases children[index]? with
  | none => rfl
  | some sibling => cases sibling <;> rfl

theorem map_sortOrder_numberedFrom (children : List Sibling) :
    (numberedFrom children).map Sibling.sortOrder = (List.range children.length).map fun index : Nat => (index + 1 : Int) := by
  apply List.ext_getElem
  · rw [List.length_map, List.length_map, List.length_range]
    exact List.length_mapIdx
  · intro index hleft hright
    rw [List.getElem_map, sortOrder_getElem, List.getElem_map, List.getElem_range]

/-- Sharing the order keeps the items and the sequence of every group, with the
orders one, two and so on, and siblings that share their order are the folders
followed by the requests in a stable sort. -/
theorem shareOrder_keeps_sequences :
    (∀ (folders : List Folder) (requests : List Request), (folders.map Folder.id).Nodup →
      (requests.map Request.id).Nodup →
        ∀ groups : Groups, groups.Perm (siblingGroups folders requests false) →
          ∀ parent : String,
            let before := (siblingGroups folders requests false).childrenOf parent
            let after := (siblingGroups (shareOrder groups folders requests).1 (shareOrder groups folders requests).2
              true).childrenOf parent
            after.map unplaced = before.map unplaced ∧
              after.map Sibling.sortOrder = (List.range after.length).map fun index : Nat => (index + 1 : Int)) ∧
      ∀ (folders : List Folder) (requests : List Request),
        orderSiblings folders requests true = sortStable Sibling.sortOrder (siblingsOf folders requests) := by
  refine ⟨?_, orderSiblings_shared⟩
  intro folders requests hfolders hrequests groups hgroups parent
  simp only
  rw [children_shared hfolders hrequests hgroups parent]
  refine ⟨map_unplaced_numberedFrom _, ?_⟩
  have hlength : (numberedFrom ((siblingGroups folders requests false).childrenOf parent)).length =
      ((siblingGroups folders requests false).childrenOf parent).length := List.length_mapIdx
  rw [hlength]
  exact map_sortOrder_numberedFrom _

/-- A folder with a negative order next to a request with the order two. -/
theorem folder_and_request_shared :
    let folders : List Folder := [{ id := "f", parentId := "f", sortOrder := -1 }]
    let requests : List Request := [{ id := "r", folderId := "gone", sortOrder := 2 }]
    let shared := shareOrder (siblingGroups folders requests false) folders requests
    ((siblingGroups shared.1 shared.2 true).childrenOf "").map unplaced =
      ((siblingGroups folders requests false).childrenOf "").map unplaced :=
  (shareOrder_keeps_sequences.1 [{ id := "f", parentId := "f", sortOrder := -1 }]
    [{ id := "r", folderId := "gone", sortOrder := 2 }] (by decide) (by decide) _ (List.Perm.refl _) "").1

end Gostman.Workspace
