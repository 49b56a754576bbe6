import Gostman.Lib.Stable
import Gostman.Workspace.Arrange
import Mathlib.Data.List.Perm.Basic
/-!
# The order of folders and requests

The children of each folder in their order, and the numbering that folders and
requests share.
-/

namespace Gostman.Workspace

open Gostman.Lib

inductive Sibling where
  | folder (folder : Folder)
  | request (request : Request)

namespace Sibling

def sortOrder : Sibling → Int
  | .folder item => item.sortOrder
  | .request item => item.sortOrder

def folderId : Sibling → Option String
  | .folder item => some item.id
  | .request _ => none

def requestId : Sibling → Option String
  | .folder _ => none
  | .request item => some item.id

def withOrder (sibling : Sibling) (order : Int) : Sibling :=
  match sibling with
  | .folder item => .folder { item with sortOrder := order }
  | .request item => .request { item with sortOrder := order }

end Sibling

def compare (first second : Int) : Int :=
  if first < second then -1 else if second < first then 1 else 0

def compareOrder (first second : Int) : Int :=
  if first = second ∨ first ≤ 0 ∧ second ≤ 0 then 0
  else if first ≤ 0 then 1
  else if second ≤ 0 then -1
  else compare first second

section Sorting

variable {α : Type} (orderOf : α → Int)

def notAfter (first second : α) : Prop :=
  compareOrder (orderOf first) (orderOf second) ≤ 0

instance : DecidableRel (notAfter orderOf) := fun first second =>
  inferInstanceAs (Decidable (compareOrder (orderOf first) (orderOf second) ≤ 0))

/-- `slices.SortStableFunc` by `compareOrder`. -/
def sortStable (items : List α) : List α :=
  items.insertionSort (notAfter orderOf)

end Sorting

/-- The loop of `OrderSiblings` over what is left of both lists. -/
def mergeSiblings (shared : Bool) : List Folder → List Request → List Sibling
  | [], requests => requests.map .request
  | folders, [] => folders.map .folder
  | folder :: folders, request :: requests =>
      if shared ∧ compareOrder request.sortOrder folder.sortOrder < 0 then
        .request request :: mergeSiblings shared (folder :: folders) requests
      else .folder folder :: mergeSiblings shared folders (request :: requests)

def orderSiblings (folders : List Folder) (requests : List Request) (shared : Bool) : List Sibling :=
  mergeSiblings shared (sortStable Folder.sortOrder folders) (sortStable Request.sortOrder requests)

/-! ## The groups -/

def isKnown (folders : List Folder) (parent : String) : Bool :=
  (folders.map Folder.id).contains parent

/-- Where `SiblingGroups` puts a folder: at the root without a known parent. -/
def groupOfFolder (folders : List Folder) (folder : Folder) : String :=
  if !isKnown folders folder.parentId || folder.parentId = folder.id then "" else folder.parentId

def groupOfRequest (folders : List Folder) (request : Request) : String :=
  if !isKnown folders request.folderId then "" else request.folderId

/-- `groups[key] = append(groups[key], item)`, for every item. -/
def grouped {α : Type} (keyOf : α → String) (items : List α) : Record String (List α) :=
  items.foldl (fun groups item => groups.put (keyOf item) ((groups.read (keyOf item)).getD [] ++ [item])) []

abbrev Groups := Record String (List Sibling)

def siblingGroups (folders : List Folder) (requests : List Request) (shared : Bool) : Groups :=
  let childFolders := grouped (groupOfFolder folders) folders
  let childRequests := grouped (groupOfRequest folders) requests
  childFolders.map (fun entry => (entry.1, orderSiblings entry.2 ((childRequests.read entry.1).getD []) shared)) ++
    (childRequests.filter fun entry => !childFolders.has entry.1).map fun entry =>
      (entry.1, orderSiblings [] entry.2 shared)

/-- The children of a folder, none where there is no group. -/
def Groups.childrenOf (groups : Groups) (parent : String) : List Sibling :=
  (Record.read groups parent).getD []

/-! ## Sharing -/

def placesIn (groups : Groups) : List (Sibling × Nat) :=
  groups.flatMap fun group => group.2.zipIdx 1

def placesBy (idOf : Sibling → Option String) (groups : Groups) : Record String Int :=
  Record.ofEntries ((placesIn groups).filterMap fun place => (idOf place.1).map fun id => (id, (place.2 : Int)))

def folderPlaces (groups : Groups) : Record String Int :=
  placesBy Sibling.folderId groups

def requestPlaces (groups : Groups) : Record String Int :=
  placesBy Sibling.requestId groups

/-- `ShareOrder`, which runs through `groups`, the map of the sibling groups, in
any order. -/
def shareOrder (groups : Groups) (folders : List Folder) (requests : List Request) : List Folder × List Request :=
  (folders.map fun folder => { folder with sortOrder := ((folderPlaces groups).read folder.id).getD 0 },
    requests.map fun request => { request with sortOrder := ((requestPlaces groups).read request.id).getD 0 })

end Gostman.Workspace
