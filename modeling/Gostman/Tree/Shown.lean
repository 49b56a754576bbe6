import Gostman.Lib.Forest
import Gostman.Tree.Depth
import Mathlib.Data.List.Perm.Subperm
/-!
# The rows of a collection (`lib/collectionTree.js`)

`flattenCollection` lists what a collection shows: the rows of the root, and below
each open folder the rows in it.  A search marks the requests that match and all
folders above them.  Folders may be in each other or too deep; such folders are
shown in the root.
-/

namespace Gostman.Tree

open Gostman.Lib

/-! ## Searching -/

structure Matches where
  requestIds : List String := []
  folderIds : List String := []

/-- The inner loop of `findMatches`, with the rounds left. -/
def markAncestors (parentOf : Record String (Option String)) :
    Nat → Option String → List String → Option (List String)
  | 0, _, _ => none
  | _ + 1, none, folderIds => some folderIds
  | left + 1, some ancestorId, folderIds =>
      if parentOf.has ancestorId ∧ ancestorId ∉ folderIds then
        markAncestors parentOf left (parentOf.read ancestorId).join (folderIds ++ [ancestorId])
      else some folderIds

def markRequest (parentOf : Record String (Option String)) (isMatch : Item → Bool) (found : Matches) (request : Item) :
    Option Matches :=
  if isMatch request then
    (markAncestors parentOf (parentOf.length + 1) request.parent found.folderIds).map fun folderIds =>
      { requestIds := found.requestIds ++ [request.id], folderIds }
  else some found

/-- `findMatches`.  Whether the text of a request includes the needle is `isMatch`. -/
def findMatches (parentOf : Record String (Option String)) (requests : List Item) (isMatch : Item → Bool) :
    Option Matches :=
  requests.foldlM (markRequest parentOf isMatch) {}

/-! ## The rows -/

/-- `ROW_FOLDER`, `ROW_REQUEST` and `ROW_EMPTY`. -/
inductive ShownKind where
  | folder
  | request
  | empty
deriving DecidableEq

/-- A row of the list.  The id of an empty row is its `parentId`. -/
structure ShownRow where
  kind : ShownKind
  id : String
  depth : Nat
  isOpen : Bool := false
  position : Nat := 0
  siblings : Nat := 0
deriving DecidableEq

def sees (found : Option Matches) (row : Row) : Bool :=
  match found, row.kind with
  | none, _ => true
  | some found, .folder => row.item.id ∈ found.folderIds
  | some found, .request => row.item.id ∈ found.requestIds

/-- `visit` of `flattenCollection`, through no more levels than the fuel. -/
def visitRows (tree : CollectionTree) (found : Option Matches) (isOpen : String → Bool) :
    Nat → Nat → String → Option (List ShownRow)
  | 0, _, _ => none
  | levels + 1, depth, containerId =>
      let siblings := (tree.siblingsIn containerId).filter (sees found)
      (siblings.zipIdx.mapM fun ((row, index) : Row × Nat) =>
        match row.kind with
        | .request =>
            let here : ShownRow := ⟨.request, row.item.id, depth, false, index + 1, siblings.length⟩
            some [here]
        | .folder =>
            let folderIsOpen := found.isSome || isOpen row.item.id
            let here : ShownRow := ⟨.folder, row.item.id, depth, folderIsOpen, index + 1, siblings.length⟩
            if folderIsOpen then
              (visitRows tree found isOpen levels (depth + 1) row.item.id).map fun rows =>
                here :: (if found.isNone ∧ rows = [] then [⟨.empty, row.item.id, depth + 1, false, 0, 0⟩] else rows)
            else some [here]).map List.flatten

def flattenCollection (tree : CollectionTree) (found : Option Matches) (isOpen : String → Bool) :
    Option (List ShownRow) :=
  visitRows tree found isOpen (maxFolderDepth + 2) 0 rootId

def ShownRow.key (row : ShownRow) : ShownKind × String := (row.kind, row.id)

/-! ## The rows as a forest -/

def RowKind.shown : RowKind → ShownKind
  | .folder => .folder
  | .request => .request

/-- What the list shows: an item, or that a folder is empty. -/
inductive Shown where
  | row (row : Row)
  | empty (folderId : String)

def Shown.key : Shown → ShownKind × String
  | .row ⟨.folder, item⟩ => (.folder, item.id)
  | .row ⟨.request, item⟩ => (.request, item.id)
  | .empty folderId => (.empty, folderId)

def visible (tree : CollectionTree) (found : Option Matches) (containerId : String) : List Row :=
  (tree.siblingsIn containerId).filter (sees found)

def shownIn (tree : CollectionTree) (found : Option Matches) : Option String → List Shown
  | none => (visible tree found rootId).map .row
  | some id =>
      if found.isNone ∧ visible tree found id = [] then [.empty id] else (visible tree found id).map .row

def opens (found : Option Matches) (isOpen : String → Bool) : Shown → Option String
  | .row ⟨.folder, item⟩ => if found.isSome || isOpen item.id then some item.id else none
  | .row ⟨.request, _⟩ => none
  | .empty _ => none

theorem mapM_zipIdx {α β γ δ ε : Type} {f : α × Nat → Option β} {h : γ → Option δ} {g : β → ε} {g' : δ → ε} {e : α → γ}
    (hf : ∀ a i, (f (a, i)).map g = (h (e a)).map g') (items : List α) (start : Nat) :
    ((items.zipIdx start).mapM f).map (List.map g) = ((items.map e).mapM h).map (List.map g') := by
  induction items generalizing start with
  | nil => rfl
  | cons a items ih =>
    have hhead := hf a start
    have htail := ih (start + 1)
    rw [List.zipIdx_cons, List.map_cons, List.mapM_cons, List.mapM_cons]
    cases hfirst : f (a, start) <;> cases hsecond : h (e a) <;> rw [hfirst, hsecond] at hhead
    · rfl
    · simp at hhead
    · simp at hhead
    · cases hleft : (items.zipIdx (start + 1)).mapM f <;> cases hright : (items.map e).mapM h <;>
        rw [hleft, hright] at htail <;> simp_all

/-- The rows of a folder are those of its siblings, or say that there are none. -/
def orEmpty (found : Option Matches) (folderId : String) (keys : List (ShownKind × String)) :
    List (ShownKind × String) :=
  if found.isNone ∧ keys = [] then [(.empty, folderId)] else keys

section

variable (tree : CollectionTree) (found : Option Matches) (isOpen : String → Bool)

def walkFolder (levels : Nat) (id : String) : Option (List Shown) :=
  walkDown (shownIn tree found) (opens found isOpen) levels (some id)

theorem walkDown_succ (levels : Nat) (container : Option String) :
    walkDown (shownIn tree found) (opens found isOpen) (levels + 1) container =
      ((shownIn tree found container).mapM (walkRow (opens found isOpen) (walkFolder tree found isOpen levels))).map
        List.flatten :=
  rfl

theorem visitRows_succ {levels : Nat}
    (ih : ∀ depth id, (visitRows tree found isOpen levels depth id).map
        (fun rows => orEmpty found id (rows.map ShownRow.key)) =
      (walkFolder tree found isOpen levels id).map (List.map Shown.key))
    (depth : Nat) (containerId : String) :
    (visitRows tree found isOpen (levels + 1) depth containerId).map (List.map ShownRow.key) =
      ((((visible tree found containerId).map .row).mapM
        (walkRow (opens found isOpen) (walkFolder tree found isOpen levels))).map List.flatten).map (List.map Shown.key) := by
  have hrow (row : Row) (index siblings : Nat) :
      ((match row.kind with
        | .request =>
            let here : ShownRow := ⟨.request, row.item.id, depth, false, index + 1, siblings⟩
            some [here]
        | .folder =>
            let folderIsOpen := found.isSome || isOpen row.item.id
            let here : ShownRow := ⟨.folder, row.item.id, depth, folderIsOpen, index + 1, siblings⟩
            if folderIsOpen then
              (visitRows tree found isOpen levels (depth + 1) row.item.id).map fun rows =>
                here :: (if found.isNone ∧ rows = [] then [⟨.empty, row.item.id, depth + 1, false, 0, 0⟩] else rows)
            else some [here]) : Option (List ShownRow)).map (List.map ShownRow.key) =
        (walkRow (opens found isOpen) (walkFolder tree found isOpen levels) (.row row)).map (List.map Shown.key) := by
    obtain ⟨kind, item⟩ := row
    cases kind with
    | request => rfl
    | folder =>
      simp only
      by_cases hopen : (found.isSome || isOpen item.id) = true
      · have hopens : opens found isOpen (.row ⟨.folder, item⟩) = some item.id := if_pos hopen
        have hbelow := ih (depth + 1) item.id
        rw [if_pos hopen, walkRow, hopens]
        simp only
        rw [Option.map_map, Option.map_map]
        cases hvisit : visitRows tree found isOpen levels (depth + 1) item.id with
        | none =>
          rw [hvisit, Option.map_none, eq_comm, Option.map_eq_none_iff] at hbelow
          rw [hbelow]
          rfl
        | some rows =>
          rw [hvisit] at hbelow
          cases hwalk : walkFolder tree found isOpen levels item.id with
          | none => simp [hwalk] at hbelow
          | some shown =>
            rw [hwalk] at hbelow
            simp only [Option.map_some, Option.some.injEq] at hbelow ⊢
            rw [Function.comp_apply, Function.comp_apply, List.map_cons, List.map_cons, ← hbelow, orEmpty]
            congr 1
            by_cases hnone : found.isNone ∧ rows = []
            · rw [if_pos hnone, if_pos ⟨hnone.1, by rw [hnone.2]; rfl⟩]
              rfl
            · rw [if_neg hnone, if_neg (by rwa [List.map_eq_nil_iff])]
      · have hopens : opens found isOpen (.row ⟨.folder, item⟩) = none := if_neg hopen
        rw [if_neg hopen, walkRow, hopens]
        rfl
  have hflat {α β : Type} (f : α → β) (parts : Option (List (List α))) :
      (parts.map List.flatten).map (List.map f) = (parts.map (List.map (List.map f))).map List.flatten := by
    cases parts with
    | none => rfl
    | some parts => exact congrArg some List.map_flatten
  rw [visitRows]
  simp only
  rw [hflat, hflat]
  exact congrArg _ (mapM_zipIdx (fun row index => hrow row index _) _ 0)

theorem walkRow_ne_nil {levels : Nat} {shown : Shown} {part : List Shown}
    (h : walkRow (opens found isOpen) (walkFolder tree found isOpen levels) shown = some part) : part ≠ [] := by
  rintro rfl
  unfold walkRow at h
  split at h
  · cases h
  · rw [Option.map_eq_some_iff] at h
    obtain ⟨_, -, heq⟩ := h
    cases heq

/-- A walk that begins with something lists something. -/
theorem walked_ne_nil {levels : Nat} {start : List Shown} {rows : List Shown} (hstart : start ≠ [])
    (h : (start.mapM (walkRow (opens found isOpen) (walkFolder tree found isOpen levels))).map List.flatten = some rows) :
    rows ≠ [] := by
  cases start with
  | nil => exact absurd rfl hstart
  | cons shown others =>
    rw [List.mapM_cons] at h
    cases hpart : walkRow (opens found isOpen) (walkFolder tree found isOpen levels) shown with
    | none => simp [hpart] at h
    | some part =>
      have hne := walkRow_ne_nil tree found isOpen hpart
      cases hparts : others.mapM (walkRow (opens found isOpen) (walkFolder tree found isOpen levels)) with
      | none => simp [hpart, hparts] at h
      | some parts =>
        rw [hpart, hparts] at h
        obtain rfl := Option.some.inj h
        rw [List.flatten_cons]
        simp [hne]

/-- Below a folder the list is the walk, and it says when there is nothing. -/
theorem visitRows_folder (levels depth : Nat) (id : String) :
    (visitRows tree found isOpen levels depth id).map (fun rows => orEmpty found id (rows.map ShownRow.key)) =
      (walkFolder tree found isOpen levels id).map (List.map Shown.key) := by
  induction levels generalizing depth id with
  | zero => rfl
  | succ levels ih =>
    have hrows := visitRows_succ tree found isOpen ih depth id
    unfold walkFolder
    rw [walkDown_succ, shownIn]
    by_cases hnone : found.isNone ∧ visible tree found id = []
    · rw [if_pos hnone]
      rw [hnone.2] at hrows
      obtain ⟨rows, hvisit, hnil⟩ := Option.map_eq_some_iff.1 hrows
      have hkeys : orEmpty found id (rows.map ShownRow.key) = [(.empty, id)] := if_pos ⟨hnone.1, hnil⟩
      rw [hvisit, Option.map_some, hkeys]
      rfl
    · rw [if_neg hnone, ← hrows]
      rw [Option.map_map] at hrows
      cases hvisit : visitRows tree found isOpen (levels + 1) depth id with
      | none => rfl
      | some rows =>
        have hkeys : orEmpty found id (rows.map ShownRow.key) = rows.map ShownRow.key := by
          refine if_neg ?_
          rintro ⟨hfound, hnil⟩
          have hvisible : (visible tree found id).map Shown.row ≠ [] := by
            rw [Ne, List.map_eq_nil_iff]
            exact fun h => hnone ⟨hfound, h⟩
          rw [hvisit, Option.map_some, hnil, eq_comm, ← Option.map_map] at hrows
          obtain ⟨shown, hshown, hempty⟩ := Option.map_eq_some_iff.1 hrows
          exact walked_ne_nil tree found isOpen hvisible hshown (List.map_eq_nil_iff.1 hempty)
        rw [Option.map_some, Option.map_some, hkeys]

theorem flattenCollection_keys :
    (flattenCollection tree found isOpen).map (List.map ShownRow.key) =
      (walkDown (shownIn tree found) (opens found isOpen) (maxFolderDepth + 2) none).map (List.map Shown.key) :=
  visitRows_succ tree found isOpen (fun depth id => visitRows_folder tree found isOpen _ depth id) 0 rootId

end

/-! ## The forest of a collection -/

theorem orderSiblings_perm (shared : Bool) (folders requests : List Item) :
    (orderSiblings shared folders requests).Perm (folders.map (⟨.folder, ·⟩) ++ requests.map (⟨.request, ·⟩)) := by
  induction folders, requests using orderSiblings.induct shared with
  | case1 requests => simp [orderSiblings]
  | case2 folders hne => simp [orderSiblings]
  | case3 folder folders request requests hless ih =>
    rw [orderSiblings, if_pos hless, List.map_cons (l := requests)]
    exact (List.Perm.cons _ ih).trans List.perm_middle.symm
  | case4 folder folders request requests hless ih =>
    rw [orderSiblings, if_neg hless]
    exact List.Perm.cons _ ih

namespace Collection

variable (c : Collection)

def place : RowKind → Item → Option String
  | .folder, item => if folderDepth item.id c.parentOf > maxFolderDepth then none else known c.parentOf item.parent
  | .request, item => known c.parentOf item.parent

def shownAbove (id : String) : Option String :=
  if folderDepth id c.parentOf > maxFolderDepth then none else above c.parentOf id

theorem holderOf_eq (kind : RowKind) (item : Item) : c.holderOf kind item = (c.place kind item).getD rootId := by
  cases kind with
  | request => exact containerOf_eq item.parent
  | folder =>
    unfold holderOf place parentFolderOf
    simp only
    split_ifs
    · rfl
    · exact containerOf_eq item.parent

theorem siblingsIn_perm (containerId : String) :
    (c.tree.siblingsIn containerId).Perm
      ((c.folders.filter fun item => c.holderOf .folder item = containerId).map (⟨.folder, ·⟩) ++
        (c.requests.filter fun item => c.holderOf .request item = containerId).map (⟨.request, ·⟩)) := by
  have hsort (kind : RowKind) (items : List Item) :
      ((sortByOrder items).map fun item => (⟨kind, item⟩ : Row)).Perm (items.map fun item => ⟨kind, item⟩) :=
    (List.perm_insertionSort _ items).map _
  unfold tree CollectionTree.siblingsIn buildCollectionTree
  simp only
  rw [siblingGroups_read, sortedGroups_read, sortedGroups_read, groupBy_read, groupBy_read]
  exact (orderSiblings_perm _ _ _).trans ((hsort .folder _).append (hsort .request _))

theorem mem_siblingsIn (containerId : String) (row : Row) :
    row ∈ c.tree.siblingsIn containerId ↔ row.item ∈ c.all row.kind ∧ c.holderOf row.kind row.item = containerId := by
  rw [(c.siblingsIn_perm containerId).mem_iff]
  obtain ⟨kind, item⟩ := row
  cases kind <;> simp [all]

variable {c}

theorem nodup_siblingsIn (hids : ∀ kind, ((c.all kind).map (·.id)).Nodup) (containerId : String) :
    (c.tree.siblingsIn containerId).Nodup := by
  have hkind (kind : RowKind) (keep : Item → Bool) :
      (((c.all kind).filter keep).map fun item => (⟨kind, item⟩ : Row)).Nodup := by
    refine List.Nodup.map ?_ ((List.Nodup.of_map _ (hids kind)).filter _)
    intro first second heq
    exact congrArg Row.item heq
  rw [(c.siblingsIn_perm containerId).nodup_iff]
  refine List.Nodup.append (hkind .folder _) (hkind .request _) ?_
  intro row hfolder hrequest
  obtain ⟨_, -, rfl⟩ := List.mem_map.1 hfolder
  obtain ⟨_, -, heq⟩ := List.mem_map.1 hrequest
  cases heq

/-- Ids are told apart, and no folder has the id of the root. -/
structure Distinct (c : Collection) : Prop where
  ids : ∀ kind, ((c.all kind).map (·.id)).Nodup
  root : ∀ folder ∈ c.folders, folder.id ≠ rootId

theorem known_mem {parent : Option String} {id : String} (h : known c.parentOf parent = some id) :
    ∃ folder ∈ c.folders, folder.id = id :=
  (parentOf_has c id).1 (Option.filter_eq_some_iff.1 h).2

namespace Distinct

theorem place_ne_root (h : c.Distinct) (kind : RowKind) (item : Item) : c.place kind item ≠ some rootId := by
  have hknown (parent : Option String) : known c.parentOf parent ≠ some rootId := by
    intro heq
    obtain ⟨folder, hmem, hroot⟩ := known_mem heq
    exact h.root folder hmem hroot
  cases kind with
  | request => exact hknown item.parent
  | folder =>
    simp only [place]
    split_ifs
    · simp
    · exact hknown item.parent

theorem eq_of_id (h : c.Distinct) (kind : RowKind) {first second : Item} (hfirst : first ∈ c.all kind)
    (hsecond : second ∈ c.all kind) (heq : first.id = second.id) : first = second :=
  List.inj_on_of_nodup_map (h.ids kind) hfirst hsecond heq

theorem place_eq (h : c.Distinct) {folder : Item} (hmem : folder ∈ c.folders) :
    c.place .folder folder = c.shownAbove folder.id := by
  unfold place shownAbove
  rw [above_folder (h.ids .folder) hmem]

variable (found : Option Matches) (isOpen : String → Bool)

theorem opens_eq {shown : Shown} {id : String} (hopens : opens found isOpen shown = some id) :
    ∃ item, shown = .row ⟨.folder, item⟩ ∧ item.id = id ∧ (found.isSome || isOpen id) = true := by
  obtain ⟨⟨⟩ | ⟨⟩, item⟩ | folderId := shown
  · simp only [opens] at hopens
    split_ifs at hopens with hopen
    obtain rfl := Option.some.inj hopens
    exact ⟨item, rfl, rfl, hopen⟩
  · cases hopens
  · cases hopens

def forest (h : c.Distinct) : Forest String Shown where
  all
    | .row row => row.item ∈ c.all row.kind ∧ sees found row
    | .empty folderId => found.isNone ∧ visible c.tree found folderId = []
  hold
    | .row row => c.place row.kind row.item
    | .empty folderId => some folderId
  opens := opens found isOpen
  up := c.shownAbove
  opened := by
    rintro shown id hall hopens
    obtain ⟨item, rfl, rfl, -⟩ := opens_eq found isOpen hopens
    exact h.place_eq hall.1
  single := by
    intro first second id hfirst hsecond hopens hopens'
    obtain ⟨item, rfl, rfl, -⟩ := opens_eq found isOpen hopens
    obtain ⟨other, rfl, heq, -⟩ := opens_eq found isOpen hopens'
    have hsame : item = other := h.eq_of_id .folder hfirst.1 hsecond.1 heq.symm
    rw [hsame]

theorem isOpen_iff (h : c.Distinct) (id : String) :
    (h.forest found isOpen).IsOpen id ↔
      ∃ folder ∈ c.folders, folder.id = id ∧ sees found ⟨.folder, folder⟩ ∧ (found.isSome || isOpen id) = true := by
  constructor
  · rintro ⟨shown, hall, hopens⟩
    obtain ⟨item, rfl, rfl, hopen⟩ := opens_eq found isOpen hopens
    exact ⟨item, hall.1, rfl, hall.2, hopen⟩
  · rintro ⟨folder, hmem, rfl, hsees, hopen⟩
    exact ⟨.row ⟨.folder, folder⟩, ⟨hmem, hsees⟩, if_pos hopen⟩

theorem nodup_shownIn (h : c.Distinct) (container : Option String) : (shownIn c.tree found container).Nodup := by
  have hvisible (id : String) : ((visible c.tree found id).map Shown.row).Nodup := by
    refine List.Nodup.map ?_ ((nodup_siblingsIn h.ids id).filter _)
    intro first second heq
    cases heq
    rfl
  cases container with
  | none => exact hvisible rootId
  | some id =>
    rw [shownIn]
    split_ifs
    · exact List.nodup_singleton _
    · exact hvisible id

theorem mem_visible (h : c.Distinct) (container : Option String) (hcontainer : container ≠ some rootId) (row : Row) :
    row ∈ visible c.tree found (container.getD rootId) ↔
      (row.item ∈ c.all row.kind ∧ sees found row) ∧ c.place row.kind row.item = container := by
  have hplace : c.holderOf row.kind row.item = container.getD rootId ↔ c.place row.kind row.item = container := by
    have hne := h.place_ne_root row.kind row.item
    rw [holderOf_eq]
    cases container <;> cases hplace : c.place row.kind row.item <;> simp_all
    · rintro rfl
      exact hcontainer rfl
  unfold visible
  rw [List.mem_filter, mem_siblingsIn, hplace]
  tauto

theorem mem_shownIn (h : c.Distinct) (container : Option String)
    (hcontainer : ∀ id, container = some id → (h.forest found isOpen).IsOpen id) (shown : Shown) :
    shown ∈ shownIn c.tree found container ↔
      (h.forest found isOpen).all shown ∧ (h.forest found isOpen).hold shown = container := by
  have hroot : container ≠ some rootId := by
    intro heq
    obtain ⟨folder, hmem, hid, -⟩ := (h.isOpen_iff found isOpen rootId).1 (hcontainer rootId heq)
    exact h.root folder hmem hid
  have hrow (row : Row) : Shown.row row ∈ (visible c.tree found (container.getD rootId)).map Shown.row ↔
      (h.forest found isOpen).all (.row row) ∧ (h.forest found isOpen).hold (.row row) = container := by
    rw [List.mem_map_of_injective fun _ _ heq => Shown.row.inj heq]
    exact h.mem_visible found container hroot row
  have hempty : (found.isNone ∧ visible c.tree found (container.getD rootId) = []) →
      ∀ row : Row, ¬ ((h.forest found isOpen).all (.row row) ∧ (h.forest found isOpen).hold (.row row) = container) := by
    intro hempty row
    rw [← hrow, hempty.2]
    simp
  cases container with
  | none =>
    cases shown with
    | row row => exact hrow row
    | empty folderId => simp [shownIn, forest]
  | some id =>
    rw [shownIn]
    split_ifs with hnone
    · cases shown with
      | row row => simpa using hempty hnone row
      | empty folderId =>
        simp only [List.mem_singleton, Shown.empty.injEq, forest, Option.some.injEq]
        constructor
        · rintro rfl
          exact ⟨hnone, rfl⟩
        · exact fun heq => heq.2
    · cases shown with
      | row row => exact hrow row
      | empty folderId =>
        simp only [forest, List.mem_map, reduceCtorEq, and_false, exists_false, false_iff, Option.some.injEq, not_and]
        rintro hall rfl
        exact hnone hall

theorem climbs_shownAbove {start : Option String} {count : Nat} (hclimbs : Climbs (above c.parentOf) start count)
    (hle : count ≤ maxFolderDepth + 1) : Climbs c.shownAbove start count := by
  induction hclimbs with
  | top => exact .top
  | @step id count hrest ih =>
    refine .step ?_
    have hdepth : folderDepth id c.parentOf ≤ maxFolderDepth := folderDepth_le_iff.2 ⟨count, by omega, hrest⟩
    rw [shownAbove, if_neg (by omega)]
    exact ih (by omega)

/-- Where a folder is shown, it is not deeper than allowed. -/
theorem exists_climbs_shownAbove (c : Collection) (id : String) :
    ∃ count ≤ maxFolderDepth + 1, Climbs c.shownAbove (some id) count := by
  by_cases hdepth : folderDepth id c.parentOf > maxFolderDepth
  · refine ⟨1, by omega, .step ?_⟩
    rw [shownAbove, if_pos hdepth]
    exact .top
  · obtain ⟨count, hle, hclimbs⟩ := folderDepth_le_iff.1 (Nat.le_of_not_gt hdepth)
    exact ⟨count + 1, by omega, climbs_shownAbove (.step hclimbs) (by omega)⟩

theorem key_inj (h : c.Distinct) {first second : Shown} (hfirst : (h.forest found isOpen).all first)
    (hsecond : (h.forest found isOpen).all second) (heq : first.key = second.key) : first = second := by
  obtain ⟨⟨⟩ | ⟨⟩, item⟩ | folderId := first <;> obtain ⟨⟨⟩ | ⟨⟩, other⟩ | otherId := second <;>
    simp only [Shown.key, Prod.mk.injEq, reduceCtorEq, false_and, true_and] at heq
  · have hsame : item = other := h.eq_of_id .folder hfirst.1 hsecond.1 heq
    rw [hsame]
  · have hsame : item = other := h.eq_of_id .request hfirst.1 hsecond.1 heq
    rw [hsame]
  · rw [heq]

/-- The list ends, names nothing twice, and shows what can be reached. -/
theorem flattenCollection_spec (h : c.Distinct) :
    ∃ rows, flattenCollection c.tree found isOpen = some rows ∧ (rows.map ShownRow.key).Nodup ∧
      ∀ key, key ∈ rows.map ShownRow.key ↔ ∃ shown, shown.key = key ∧ (h.forest found isOpen).all shown ∧
        ∀ id, OnWay c.shownAbove id ((h.forest found isOpen).hold shown) → (h.forest found isOpen).IsOpen id := by
  have hwalked : ∃ rows, walkDown (shownIn c.tree found) (opens found isOpen) (maxFolderDepth + 2) none = some rows ∧
      rows.Nodup ∧ ∀ shown, shown ∈ rows ↔ (h.forest found isOpen).all shown ∧
        (h.forest found isOpen).Reaches none ((h.forest found isOpen).hold shown) :=
    Forest.walkDown_spec (h.nodup_shownIn found) (fun container hopen => h.mem_shownIn found isOpen container hopen)
      (fun id _ => exists_climbs_shownAbove c id) (by simp) .top (Nat.zero_le _) (by omega)
  obtain ⟨walked, hwalk, hnodup, hmem⟩ := hwalked
  have hkeys := flattenCollection_keys c.tree found isOpen
  rw [hwalk, Option.map_some, Option.map_eq_some_iff] at hkeys
  obtain ⟨rows, hrows, hkeys⟩ := hkeys
  refine ⟨rows, hrows, ?_, fun key => ?_⟩
  · rw [hkeys]
    apply List.Nodup.map_on _ hnodup
    intro first hfirst second hsecond heq
    exact h.key_inj found isOpen ((hmem first).1 hfirst).1 ((hmem second).1 hsecond).1 heq
  · have hway (shown : Shown) : (h.forest found isOpen).Reaches none ((h.forest found isOpen).hold shown) ↔
        ∀ id, OnWay c.shownAbove id ((h.forest found isOpen).hold shown) → (h.forest found isOpen).IsOpen id := by
      cases hhold : (h.forest found isOpen).hold shown with
      | none => exact Forest.reaches_root_iff .top
      | some id =>
        obtain ⟨count, -, hclimbs⟩ := exists_climbs_shownAbove c id
        exact Forest.reaches_root_iff hclimbs
    rw [hkeys, List.mem_map]
    constructor
    · rintro ⟨shown, hshown, rfl⟩
      obtain ⟨hall, hreaches⟩ := (hmem shown).1 hshown
      exact ⟨shown, rfl, hall, (hway shown).1 hreaches⟩
    · rintro ⟨shown, rfl, hall, hopen⟩
      exact ⟨shown, (hmem shown).2 ⟨hall, (hway shown).2 hopen⟩, rfl⟩

end Distinct

/-! ## The open folders -/

theorem onWay_mem {start : Option String} (hstart : ∀ id, start = some id → ∃ folder ∈ c.folders, folder.id = id)
    {id : String} (h : OnWay c.shownAbove id start) : ∃ folder ∈ c.folders, folder.id = id := by
  obtain ⟨levels, next, hnext, hbelow⟩ := h
  induction levels generalizing start next with
  | zero =>
    obtain rfl : next = id := hbelow
    exact hstart next hnext
  | succ levels ih =>
    obtain ⟨more, hmore, hrest⟩ := hbelow
    have habove : above c.parentOf next = some more := by
      unfold shownAbove at hmore
      split_ifs at hmore
      exact hmore
    exact ih (fun _ heq => Option.some.inj heq ▸ above_mem habove) more rfl hrest

theorem place_mem {kind : RowKind} {item : Item} {id : String} (h : c.place kind item = some id) :
    ∃ folder ∈ c.folders, folder.id = id := by
  cases kind with
  | request => exact known_mem h
  | folder =>
    simp only [place] at h
    split_ifs at h
    exact known_mem h

theorem Shown.key_row (kind : RowKind) (item : Item) : (Shown.row ⟨kind, item⟩).key = (kind.shown, item.id) := by
  cases kind <;> rfl

/-- Without a search the list shows each item once where all folders it is in are
open, and for each open folder in open folders that holds nothing that it is empty. -/
theorem flattenCollection_shows (h : c.Distinct) (isOpen : String → Bool) :
    ∃ rows, flattenCollection c.tree none isOpen = some rows ∧ (rows.map ShownRow.key).Nodup ∧
      ∀ key, key ∈ rows.map ShownRow.key ↔
        (∃ kind, ∃ item ∈ c.all kind, key = (kind.shown, item.id) ∧
          ∀ id, OnWay c.shownAbove id (c.place kind item) → isOpen id) ∨
        ∃ folder ∈ c.folders, key = (.empty, folder.id) ∧ c.tree.siblingsIn folder.id = [] ∧
          ∀ id, OnWay c.shownAbove id (some folder.id) → isOpen id := by
  obtain ⟨rows, hrows, hnodup, hmem⟩ := h.flattenCollection_spec none isOpen
  refine ⟨rows, hrows, hnodup, fun key => ?_⟩
  have hopen {start : Option String} (hstart : ∀ id, start = some id → ∃ folder ∈ c.folders, folder.id = id) :
      (∀ id, OnWay c.shownAbove id start → (h.forest none isOpen).IsOpen id) ↔
        ∀ id, OnWay c.shownAbove id start → isOpen id := by
    refine forall₂_congr fun id hway => ?_
    rw [h.isOpen_iff]
    constructor
    · rintro ⟨_, -, -, -, hopen⟩
      exact hopen
    · intro hopen
      obtain ⟨folder, hfolder, hid⟩ := onWay_mem hstart hway
      exact ⟨folder, hfolder, hid, rfl, hopen⟩
  have hvisible (id : String) : visible c.tree none id = c.tree.siblingsIn id :=
    List.filter_eq_self.2 fun _ _ => rfl
  rw [hmem]
  constructor
  · rintro ⟨⟨kind, item⟩ | folderId, rfl, hall, hway⟩
    · left
      exact ⟨kind, item, hall.1, Shown.key_row kind item, (hopen fun _ => place_mem).1 hway⟩
    · right
      obtain ⟨folder, hfolder, rfl, -⟩ := (h.isOpen_iff none isOpen folderId).1 (hway folderId ⟨0, folderId, rfl, rfl⟩)
      have hstart : ∀ id, some folder.id = some id → ∃ other ∈ c.folders, other.id = id := by
        intro id heq
        exact ⟨folder, hfolder, Option.some.inj heq⟩
      exact ⟨folder, hfolder, rfl, (hvisible folder.id) ▸ hall.2, (hopen hstart).1 hway⟩
  · rintro (⟨kind, item, hitem, rfl, hway⟩ | ⟨folder, hfolder, rfl, hnil, hway⟩)
    · exact ⟨.row ⟨kind, item⟩, Shown.key_row kind item, ⟨hitem, rfl⟩, (hopen fun _ => place_mem).2 hway⟩
    · have hstart : ∀ id, some folder.id = some id → ∃ other ∈ c.folders, other.id = id := by
        intro id heq
        exact ⟨folder, hfolder, Option.some.inj heq⟩
      exact ⟨.empty folder.id, rfl, ⟨rfl, (hvisible folder.id).trans hnil⟩, (hopen hstart).2 hway⟩

end Collection

/-- Two folders in each other, with a request in one of them. -/
def circular : Collection where
  folders := [⟨"a", some "b", none⟩, ⟨"b", some "a", none⟩]
  requests := [⟨"r", some "a", none⟩]
  sharedOrder := false
  folders_fit := by decide
  requests_fit := by decide

theorem circular_distinct : circular.Distinct where
  ids kind := by cases kind <;> decide
  root := by decide

theorem circular_shown :
    ∃ rows, flattenCollection circular.tree none (fun _ => true) = some rows ∧ (rows.map ShownRow.key).Nodup :=
  have ⟨rows, hrows, hnodup, _⟩ := Collection.flattenCollection_shows circular_distinct fun _ => true
  ⟨rows, hrows, hnodup⟩

/-! ## Searching -/

namespace Collection

variable {c : Collection}

/-- What the marks keep: each marked folder is one of the collection, and so are the
folders above it marked. -/
structure Marked (parentOf : Record String (Option String)) (folderIds : List String) : Prop where
  nodup : folderIds.Nodup
  has : ∀ id ∈ folderIds, parentOf.has id

theorem Marked.length_le {parentOf : Record String (Option String)} {folderIds : List String} (h : Marked parentOf folderIds) :
    folderIds.length ≤ parentOf.length := by
  rw [← Record.length_keys]
  exact (List.subperm_of_subset h.nodup fun id hid => Record.has_iff.1 (h.has id hid)).length_le

theorem Marked.add {parentOf : Record String (Option String)} {folderIds : List String} (h : Marked parentOf folderIds)
    {id : String} (hhas : parentOf.has id) (hnew : id ∉ folderIds) : Marked parentOf (folderIds ++ [id]) := by
  constructor
  · exact h.nodup.append (List.nodup_singleton id) (by simpa using hnew)
  · intro other hother
    rw [List.mem_append, List.mem_singleton] at hother
    obtain hother | rfl := hother
    · exact h.has other hother
    · exact hhas

theorem markAncestors_spec {parentOf : Record String (Option String)} {left : Nat} {parent : Option String}
    {folderIds : List String} (hmarked : Marked parentOf folderIds) (hleft : parentOf.length < folderIds.length + left)
    (habove : ∀ id ∈ folderIds, ∀ next, above parentOf id = some next → next ∈ folderIds ∨ known parentOf parent = some next) :
    ∃ marked, markAncestors parentOf left parent folderIds = some marked ∧ Marked parentOf marked ∧
      (∀ id ∈ marked, ∀ next, above parentOf id = some next → next ∈ marked) ∧
      (∀ id ∈ folderIds, id ∈ marked) ∧ (∀ id, known parentOf parent = some id → id ∈ marked) ∧
      ∀ id ∈ marked, id ∈ folderIds ∨ OnWay (above parentOf) id (known parentOf parent) := by
  have hfits := hmarked.length_le
  induction left generalizing parent folderIds with
  | zero => omega
  | succ left ih =>
    have hstay (hknown : ∀ id, known parentOf parent = some id → id ∈ folderIds) :
        Marked parentOf folderIds ∧ (∀ id ∈ folderIds, ∀ next, above parentOf id = some next → next ∈ folderIds) ∧
          (∀ id ∈ folderIds, id ∈ folderIds) ∧ (∀ id, known parentOf parent = some id → id ∈ folderIds) ∧
          ∀ id ∈ folderIds, id ∈ folderIds ∨ OnWay (above parentOf) id (known parentOf parent) := by
      refine ⟨hmarked, fun id hid next hnext => ?_, fun _ hid => hid, hknown, fun _ hid => .inl hid⟩
      obtain hmem | heq := habove id hid next hnext
      · exact hmem
      · exact hknown next heq
    cases parent with
    | none => exact ⟨folderIds, rfl, hstay (by simp [known])⟩
    | some ancestorId =>
      rw [markAncestors]
      split_ifs with hnew
      · obtain ⟨hhas, hnew⟩ := hnew
        have hknown : known parentOf (some ancestorId) = some ancestorId := Option.filter_eq_some_iff.2 ⟨rfl, hhas⟩
        have hlength : (folderIds ++ [ancestorId]).length = folderIds.length + 1 := by simp
        have habove' : ∀ id ∈ folderIds ++ [ancestorId], ∀ next, above parentOf id = some next →
            next ∈ folderIds ++ [ancestorId] ∨ known parentOf (parentOf.read ancestorId).join = some next := by
          intro id hid next hnext
          rw [List.mem_append, List.mem_singleton] at hid
          obtain hid | rfl := hid
          · obtain hmem | heq := habove id hid next hnext
            · exact .inl (List.mem_append_left _ hmem)
            · rw [hknown] at heq
              exact .inl (by simp [Option.some.inj heq])
          · exact .inr hnext
        have hmarked' := hmarked.add hhas hnew
        obtain ⟨marked, hrun, hmarks, hclosed, hkeep, hstart, hway⟩ := ih hmarked' (by omega) habove' hmarked'.length_le
        refine ⟨marked, hrun, hmarks, hclosed, fun id hid => hkeep id (List.mem_append_left _ hid), ?_, ?_⟩
        · rw [hknown]
          rintro id ⟨⟩
          exact hkeep _ (by simp)
        · intro id hid
          rw [hknown]
          obtain hid | hid := hway id hid
          · rw [List.mem_append, List.mem_singleton] at hid
            obtain hid | rfl := hid
            · exact .inl hid
            · exact .inr ⟨0, id, rfl, rfl⟩
          · exact .inr (OnWay.step hid)
      · refine ⟨folderIds, rfl, hstay ?_⟩
        intro id hknown
        obtain ⟨heq, hhas⟩ := Option.filter_eq_some_iff.1 hknown
        cases heq
        by_contra hout
        exact hnew ⟨hhas, hout⟩

/-- What is on the way up from a closed set is in it. -/
theorem mem_of_onWay {parentOf : Record String (Option String)} {marked : List String}
    (hclosed : ∀ id ∈ marked, ∀ next, above parentOf id = some next → next ∈ marked) {start : Option String}
    (hstart : ∀ id, start = some id → id ∈ marked) {id : String} (h : OnWay (above parentOf) id start) : id ∈ marked := by
  obtain ⟨levels, next, hnext, hbelow⟩ := h
  induction levels generalizing start next with
  | zero =>
    obtain rfl : next = id := hbelow
    exact hstart next hnext
  | succ levels ih =>
    obtain ⟨more, hmore, hrest⟩ := hbelow
    exact ih (fun _ heq => Option.some.inj heq ▸ hclosed next (hstart next hnext) more hmore) more rfl hrest

/-- The matches of some requests: those that match, and all folders above them. -/
structure Found (parentOf : Record String (Option String)) (isMatch : Item → Bool) (requests : List Item)
    (found : Matches) : Prop where
  marked : Marked parentOf found.folderIds
  closed : ∀ id ∈ found.folderIds, ∀ next, above parentOf id = some next → next ∈ found.folderIds
  mem_requestIds : ∀ id, id ∈ found.requestIds ↔ ∃ request ∈ requests, isMatch request ∧ request.id = id
  mem_folderIds : ∀ id, id ∈ found.folderIds ↔
    ∃ request ∈ requests, isMatch request ∧ OnWay (above parentOf) id (known parentOf request.parent)

theorem markRequest_found {parentOf : Record String (Option String)} {isMatch : Item → Bool} {requests : List Item}
    {found : Matches} (h : Found parentOf isMatch requests found) (request : Item) :
    ∃ more, markRequest parentOf isMatch found request = some more ∧ Found parentOf isMatch (requests ++ [request]) more := by
  unfold markRequest
  split_ifs with hmatch
  · have hleft : parentOf.length < found.folderIds.length + (parentOf.length + 1) := by omega
    obtain ⟨marked, hrun, hmarks, hclosed, hkeep, hstart, hway⟩ := markAncestors_spec h.marked hleft
      fun id hid next hnext => .inl (h.closed id hid next hnext)
    refine ⟨_, by rw [hrun]; rfl, hmarks, hclosed, fun id => ?_, fun id => ?_⟩
    · rw [List.mem_append, h.mem_requestIds, List.mem_singleton]
      simp only [List.mem_append, List.mem_singleton, or_and_right, exists_or, exists_eq_left]
      rw [eq_comm (a := id)]
      simp [hmatch]
    · simp only [List.mem_append, List.mem_singleton, or_and_right, exists_or, exists_eq_left]
      rw [← h.mem_folderIds]
      constructor
      · intro hid
        obtain hid | hid := hway id hid
        · exact .inl hid
        · exact .inr ⟨hmatch, hid⟩
      · rintro (hid | ⟨-, hid⟩)
        · exact hkeep id hid
        · exact mem_of_onWay hclosed hstart hid
  · refine ⟨found, rfl, h.marked, h.closed, fun id => ?_, fun id => ?_⟩
    · rw [h.mem_requestIds]
      simp [or_and_right, exists_or, hmatch]
    · rw [h.mem_folderIds]
      simp [or_and_right, exists_or, hmatch]

theorem findMatches_found (parentOf : Record String (Option String)) (isMatch : Item → Bool) (requests : List Item) :
    ∃ found, findMatches parentOf requests isMatch = some found ∧ Found parentOf isMatch requests found := by
  have hgo (before : List Item) (found : Matches) (h : Found parentOf isMatch before found) :
      ∃ more, requests.foldlM (markRequest parentOf isMatch) found = some more ∧
        Found parentOf isMatch (before ++ requests) more := by
    induction requests generalizing before found with
    | nil => exact ⟨found, rfl, by rwa [List.append_nil]⟩
    | cons request requests ih =>
      obtain ⟨next, hnext, hfound⟩ := markRequest_found h request
      obtain ⟨more, hmore, hrest⟩ := ih (before ++ [request]) next hfound
      refine ⟨more, ?_, by simpa using hrest⟩
      rw [List.foldlM_cons, hnext]
      exact hmore
  exact hgo [] {} ⟨⟨List.nodup_nil, by simp⟩, by simp, by simp, by simp⟩

theorem above_of_shownAbove {id next : String} (h : c.shownAbove id = some next) : above c.parentOf id = some next := by
  unfold shownAbove at h
  split_ifs at h
  exact h

theorem known_of_place {kind : RowKind} {item : Item} {id : String} (h : c.place kind item = some id) :
    known c.parentOf item.parent = some id := by
  cases kind with
  | request => exact h
  | folder =>
    simp only [place] at h
    split_ifs at h
    exact h

/-- What is above where an item is shown is above it. -/
theorem onWay_of_shown {start : Option String} {id : String} (h : OnWay c.shownAbove id start) :
    OnWay (above c.parentOf) id start := by
  obtain ⟨levels, next, hnext, hbelow⟩ := h
  refine ⟨levels, next, hnext, ?_⟩
  clear hnext
  induction levels generalizing next with
  | zero => exact hbelow
  | succ levels ih =>
    obtain ⟨more, hmore, hrest⟩ := hbelow
    exact ⟨more, above_of_shownAbove hmore, ih more hrest⟩

/-- A search shows the requests that match and the folders above them, each once,
whatever folders are open. -/
theorem search_shows (h : c.Distinct) (isMatch : Item → Bool) (isOpen : String → Bool) :
    ∃ found rows, findMatches c.parentOf c.requests isMatch = some found ∧
      flattenCollection c.tree (some found) isOpen = some rows ∧ (rows.map ShownRow.key).Nodup ∧
      ∀ key, key ∈ rows.map ShownRow.key ↔ ∃ request ∈ c.requests, isMatch request ∧
        (key = (.request, request.id) ∨
          ∃ id, OnWay (above c.parentOf) id (known c.parentOf request.parent) ∧ key = (.folder, id)) := by
  obtain ⟨found, hfound, hspec⟩ := findMatches_found c.parentOf isMatch c.requests
  obtain ⟨rows, hrows, hnodup, hmem⟩ := h.flattenCollection_spec (some found) isOpen
  refine ⟨found, rows, hfound, hrows, hnodup, fun key => ?_⟩
  -- All marked folders are open.
  have hopen {id : String} (hid : id ∈ found.folderIds) : (h.forest (some found) isOpen).IsOpen id := by
    rw [h.isOpen_iff]
    obtain ⟨folder, hfolder, rfl⟩ := (parentOf_has c id).1 (hspec.marked.has id hid)
    exact ⟨folder, hfolder, rfl, by simpa [sees] using hid, rfl⟩
  have hway (kind : RowKind) (item : Item) (hitem : ∀ id, known c.parentOf item.parent = some id → id ∈ found.folderIds)
      (id : String) (hid : OnWay c.shownAbove id (c.place kind item)) : (h.forest (some found) isOpen).IsOpen id :=
    hopen (mem_of_onWay hspec.closed (fun next hnext => hitem next (known_of_place hnext)) (onWay_of_shown hid))
  rw [hmem]
  constructor
  · rintro ⟨⟨kind, item⟩ | folderId, rfl, ⟨hall, hsees⟩, -⟩
    · cases kind with
      | request =>
        obtain ⟨request, hrequest, hmatch, hid⟩ := (hspec.mem_requestIds item.id).1 (by simpa [sees] using hsees)
        exact ⟨request, hrequest, hmatch, .inl (by rw [hid]; rfl)⟩
      | folder =>
        obtain ⟨request, hrequest, hmatch, hid⟩ := (hspec.mem_folderIds item.id).1 (by simpa [sees] using hsees)
        exact ⟨request, hrequest, hmatch, .inr ⟨item.id, hid, rfl⟩⟩
    · cases hall
  · rintro ⟨request, hrequest, hmatch, rfl | ⟨id, hid, rfl⟩⟩
    · have hmarked : request.id ∈ found.requestIds := (hspec.mem_requestIds _).2 ⟨request, hrequest, hmatch, rfl⟩
      refine ⟨.row ⟨.request, request⟩, rfl, ⟨hrequest, by simpa [sees] using hmarked⟩, hway .request request fun next hnext => ?_⟩
      exact (hspec.mem_folderIds next).2 ⟨request, hrequest, hmatch, 0, next, hnext, rfl⟩
    · have hmarked : id ∈ found.folderIds := (hspec.mem_folderIds id).2 ⟨request, hrequest, hmatch, hid⟩
      obtain ⟨folder, hfolder, rfl⟩ := (parentOf_has c id).1 (hspec.marked.has id hmarked)
      refine ⟨.row ⟨.folder, folder⟩, rfl, ⟨hfolder, by simpa [sees] using hmarked⟩, hway .folder folder fun next hnext => ?_⟩
      rw [← above_folder (h.ids .folder) hfolder] at hnext
      exact hspec.closed folder.id hmarked next hnext

end Collection

theorem circular_searched :
    ∃ found rows, findMatches circular.parentOf circular.requests (fun _ => true) = some found ∧
      flattenCollection circular.tree (some found) (fun _ => false) = some rows ∧ (rows.map ShownRow.key).Nodup :=
  have ⟨found, rows, hfound, hrows, hnodup, _⟩ :=
    Collection.search_shows circular_distinct (fun _ => true) fun _ => false
  ⟨found, rows, hfound, hrows, hnodup⟩

end Gostman.Tree
