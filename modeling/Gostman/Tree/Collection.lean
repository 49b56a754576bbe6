import Gostman.Js.Value
import Gostman.Lib.Stable
import Mathlib.Algebra.Group.Int.Defs
import Mathlib.Algebra.Group.Nat.Defs
/-!
# The tree of a collection (`lib/collectionTree.js`, `lib/sortOrder.js`)

Folders and requests name the folder they are in.  The tree groups them by it,
sorts each group by the orders that are set, and merges the two groups of each
folder.
-/

namespace Gostman.Tree

open Gostman.Lib Gostman.Js

def rootId := ""
def maxFolderDepth : Nat := 32

inductive RowKind where
  | folder
  | request
deriving DecidableEq

/-- What the tree reads of a folder or a request.  The folder it is in is its
`parentId` or its `folderId`, as `PARENT_KEYS` says. -/
structure Item where
  id : String
  parent : Option String
  sortOrder : Option Json

/-! ## Orders -/

def cleanOrder : Option Json → Nat
  | some (.num value) =>
      if value.den = 1 ∧ 0 < value.num ∧ value.num ≤ 2 ^ 53 - 1 then value.num.toNat else 0
  | _ => 0

def compareOrder (first second : Item) : Int :=
  let firstOrder := cleanOrder first.sortOrder
  let secondOrder := cleanOrder second.sortOrder
  if firstOrder = secondOrder then 0
  else if firstOrder = 0 then 1
  else if secondOrder = 0 then -1
  else firstOrder - secondOrder

/-- `sort(compareOrder)`, which is stable. -/
def sortByOrder (items : List Item) : List Item :=
  items.insertionSort fun first second => compareOrder first second ≤ 0

/-! ## Groups -/

def groupBy (items : List Item) (keyOf : Item → String) : Record String (List Item) :=
  items.foldl
    (fun groups item =>
      groups.put (keyOf item) ((groups.read (keyOf item)).getD [] ++ [item]))
    []

def sortedGroups (groups : Record String (List Item)) : Record String (List Item) :=
  groups.map fun (key, group) => (key, sortByOrder group)

/-! ## Depths -/

/-- The map from the id of a folder to its `parentId`. -/
def parentMap (folders : List Item) : Record String (Option String) :=
  Record.ofEntries (folders.map fun folder => (folder.id, folder.parent))

/-- The loop of `folderDepth`, with the rounds left. -/
def climb (parentOf : Record String (Option String)) : Nat → Option String → Nat
  | 0, _ => 0
  | _ + 1, none => 0
  | left + 1, some ancestorId =>
      match parentOf.read ancestorId with
      | none => 0
      | some next => climb parentOf left next + 1

def folderDepth (folderId : String) (parentOf : Record String (Option String)) : Nat :=
  climb parentOf (maxFolderDepth + 1) (parentOf.read folderId).join

/-! ## The tree -/

structure Row where
  kind : RowKind
  item : Item

def orderSiblings (shared : Bool) : List Item → List Item → List Row
  | [], requests => requests.map (⟨.request, ·⟩)
  | folders, [] => folders.map (⟨.folder, ·⟩)
  | folder :: folders, request :: requests =>
      if shared ∧ compareOrder request folder < 0 then
        ⟨.request, request⟩ :: orderSiblings shared (folder :: folders) requests
      else ⟨.folder, folder⟩ :: orderSiblings shared folders (request :: requests)
termination_by folders requests => folders.length + requests.length

def siblingGroups (childFolders folderRequests : Record String (List Item)) (shared : Bool) :
    Record String (List Row) :=
  Record.ofEntries ((childFolders.keys ++ folderRequests.keys).map fun containerId =>
    (containerId, orderSiblings shared ((childFolders.read containerId).getD [])
      ((folderRequests.read containerId).getD [])))

structure CollectionTree where
  childFolders : Record String (List Item)
  folderRequests : Record String (List Item)
  siblings : Record String (List Row)

def containerOf (parentOf : Record String (Option String)) : Option String → String
  | some id => if parentOf.has id then id else rootId
  | none => rootId

def parentFolderOf (parentOf : Record String (Option String)) (folder : Item) : String :=
  if folderDepth folder.id parentOf > maxFolderDepth then rootId
  else containerOf parentOf folder.parent

def buildCollectionTree (folders requests : List Item) (sharedOrder : Bool) : CollectionTree :=
  let parentOf := parentMap folders
  let childFolders := sortedGroups (groupBy folders (parentFolderOf parentOf))
  let folderRequests := sortedGroups (groupBy requests fun request => containerOf parentOf request.parent)
  { childFolders, folderRequests, siblings := siblingGroups childFolders folderRequests sharedOrder }

namespace CollectionTree

def foldersIn (tree : CollectionTree) (folderId : String) : List Item :=
  (tree.childFolders.read folderId).getD []

def siblingsIn (tree : CollectionTree) (folderId : String) : List Row :=
  (tree.siblings.read folderId).getD []

end CollectionTree

/-!
## Moving entries (`lib/treeMoves.js`)

A move is planned as patches, which set the folder and the order of each entry
that is not already where it shall be, together with the patches that take it
back.
-/

structure Entry where
  kind : RowKind
  id : String
deriving DecidableEq

/-- `PLACE_BEFORE`, `PLACE_AFTER` and `PLACE_INSIDE`. -/
inductive Place where
  | before
  | after
  | inside
deriving DecidableEq

inductive Target where
  /-- `TARGET_ROOT`. -/
  | root
  | row (entry : Entry) (place : Place)

/-- The folders and requests.  An array has fewer than `2 ^ 32` items. -/
structure Collection where
  folders : List Item
  requests : List Item
  sharedOrder : Bool
  folders_fit : folders.length < 2 ^ 32
  requests_fit : requests.length < 2 ^ 32

namespace Collection

def parentOf (c : Collection) : Record String (Option String) :=
  parentMap c.folders

def tree (c : Collection) : CollectionTree :=
  buildCollectionTree c.folders c.requests c.sharedOrder

def all (c : Collection) : RowKind → List Item
  | .folder => c.folders
  | .request => c.requests

def items (c : Collection) (kind : RowKind) : Record String Item :=
  Record.ofEntries ((c.all kind).map fun item => (item.id, item))

def parents (c : Collection) : Record String String :=
  Record.ofEntries (c.folders.map fun folder => (folder.id, folder.parent.getD rootId))

def containerOf (c : Collection) (id : String) : String :=
  if c.parents.has id then id else rootId

def siblingEntries (c : Collection) (containerId : String) : List Entry :=
  (c.tree.siblingsIn containerId).map fun row => ⟨row.kind, row.item.id⟩

end Collection

/-! ## What may be moved where -/

/-- The loop of `isInside`, with the steps left. -/
def isInsideWithin (ancestorId : String) (parents : Record String String) : Nat → String → Bool
  | 0, _ => false
  | left + 1, current =>
      if current = rootId then false
      else if current = ancestorId then true
      else isInsideWithin ancestorId parents left ((parents.read current).getD rootId)

def isInside (folderId ancestorId : String) (parents : Record String String) : Bool :=
  isInsideWithin ancestorId parents (maxFolderDepth + 2) folderId

def subtreeHeight (tree : CollectionTree) : Nat → String → Nat → Nat
  | 0, _, level => level
  | left + 1, folderId, level =>
      (tree.foldersIn folderId).foldl
        (fun tallest child => max tallest (subtreeHeight tree left child.id (level + 1))) level

def fitsDepth (c : Collection) (folderId containerId : String) : Bool :=
  let arrivalDepth := if containerId = rootId then 0 else folderDepth containerId c.parentOf + 1
  arrivalDepth + subtreeHeight c.tree (maxFolderDepth + 1) folderId 0 ≤ maxFolderDepth

/-! ## Where it goes -/

/-- The entries with one moved before or after the anchor, or to the end. -/
def insertEntry (entries : List Entry) (moved : Entry) (anchor : Option Entry) (place : Place) :
    List Entry :=
  let rest := entries.filter fun entry => entry ≠ moved
  match anchor.bind fun anchor => rest.findIdx? fun entry => entry = anchor with
  | none => rest ++ [moved]
  | some anchorIndex =>
      let at' := if place = .before then anchorIndex else anchorIndex + 1
      rest.take at' ++ moved :: rest.drop at'

structure Destination where
  containerId : String
  anchor : Option Entry
  place : Place

def destinationOf (c : Collection) : Target → Option Destination
  | .root => some ⟨rootId, none, .after⟩
  | .row entry place =>
      ((c.items entry.kind).read entry.id).map fun anchorItem =>
        if entry.kind = .folder ∧ place = .inside then ⟨entry.id, none, .after⟩
        else ⟨c.containerOf (anchorItem.parent.getD rootId), some entry, place⟩

/-! ## Patches -/

structure Patch where
  id : String
  parent : String
  sortOrder : Nat

structure Patches where
  folders : List Patch := []
  requests : List Patch := []

def Patches.of (patches : Patches) : RowKind → List Patch
  | .folder => patches.folders
  | .request => patches.requests

def Patches.isEmpty (patches : Patches) : Bool :=
  patches.folders.isEmpty && patches.requests.isEmpty

/-- Whether an item is already in the container with the order. -/
def isPlaced (containerId : String) (order : Nat) (item : Item) : Bool :=
  item.parent.getD rootId = containerId && cleanOrder item.sortOrder = order

/-- The patches of one kind in `listPatches`. -/
def kindPatches (c : Collection) (kind : RowKind) (containerId : String) (entries : List Entry) :
    List Patch :=
  entries.zipIdx.filterMap fun (entry, index) =>
    if entry.kind = kind ∧ ¬ ((c.items kind).read entry.id).any (isPlaced containerId (index + 1)) then
      some ⟨entry.id, containerId, index + 1⟩
    else none

def listPatches (c : Collection) (containerId : String) (entries : List Entry) : Patches :=
  ⟨kindPatches c .folder containerId entries, kindPatches c .request containerId entries⟩

def restoring (c : Collection) (kind : RowKind) (patch : Patch) : Patch :=
  let original := (c.items kind).read patch.id
  ⟨patch.id, (original.bind (·.parent)).getD rootId, cleanOrder (original.bind (·.sortOrder))⟩

def restoringPatches (c : Collection) (patches : Patches) : Patches :=
  ⟨patches.folders.map (restoring c .folder), patches.requests.map (restoring c .request)⟩

structure Plan where
  patches : Patches
  undo : Patches
  subject : Item
  containerId : String

def planMove (c : Collection) (source : Entry) (target : Target) : Option Plan := do
  let subject ← (c.items source.kind).read source.id
  let destination ← destinationOf c target
  if destination.anchor = some source then none
  else if source.kind = .folder ∧
      (isInside destination.containerId source.id c.parents ∨
        ¬ fitsDepth c source.id destination.containerId) then none
  else
    let entries := insertEntry (c.siblingEntries destination.containerId) source destination.anchor
      destination.place
    let patches := listPatches c destination.containerId entries
    if patches.isEmpty then none
    else some ⟨patches, restoringPatches c patches, subject, destination.containerId⟩

/-! ## Applying them (`applyPatches` of `lib/treeActions.js`) -/

def patchItem (patches : List Patch) (item : Item) : Item :=
  match patches.find? (·.id = item.id) with
  | none => item
  | some patch => { item with parent := some patch.parent, sortOrder := some (.num patch.sortOrder) }

def Collection.patched (c : Collection) (patches : Patches) : Collection where
  folders := c.folders.map (patchItem patches.folders)
  requests := c.requests.map (patchItem patches.requests)
  sharedOrder := c.sharedOrder
  folders_fit := by simpa using c.folders_fit
  requests_fit := by simpa using c.requests_fit

end Gostman.Tree
