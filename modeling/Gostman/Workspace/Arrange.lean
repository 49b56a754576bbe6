import Gostman.Lib.Record
import Gostman.Lib.Uncycle
import Gostman.Workspace.RequestFile
/-!
# Folders, parents first (`workspace/save.go`)

Before folders are saved they are brought into an order in which each comes
after its parent.  What `arrangeFolders` makes of any list of folders: repeated
and empty ids, unknown parents and cycles of parents included.
-/

namespace Gostman.Workspace

open Gostman.Lib

structure Settings where
  description : String := ""
  headers : String := ""
  auth : Auth := {}
  preScript : String := ""
  postScript : String := ""
  assertions : String := ""
  scriptTimeoutMs : Int := 0
  notes : String := ""
deriving DecidableEq

structure Folder where
  id : String := ""
  name : String := ""
  parentId : String := ""
  sortOrder : Int := 0
  variableText : String := ""
  color : String := ""
  tags : List String := []
  settings : Settings := {}
  collectionVariables : String := ""
  collectionVariablesMeta : String := ""
deriving DecidableEq

/-- The loop of `withoutCycle`: whether the chain of parents comes back to one
of those seen.  It sees a folder at most once. -/
def comesBack (parents : Record String String) : Nat → List String → String → Bool
  | 0, _, _ => true
  | fuel + 1, seen, ancestor =>
      if ancestor = "" then false
      else if ancestor ∈ seen then true
      else comesBack parents fuel (ancestor :: seen) ((parents.read ancestor).getD "")

def withoutCycle (parentId : String) (parents : Record String String) : String :=
  if comesBack parents (parents.length + 2) [] parentId then "" else parentId

/-- The first folder of each id, without those that have none. -/
def uniqueFolders (folders : List Folder) : List Folder :=
  folders.foldl
    (fun unique folder =>
      if folder.id = "" ∨ unique.any (·.id == folder.id) then unique else unique ++ [folder])
    []

/-- The parents as `arrangeFolders` sets them, one folder after another. -/
def settleParents : Record String String → List Folder → List Folder
  | _, [] => []
  | parents, folder :: rest =>
      let known := if parents.has folder.parentId then folder.parentId else ""
      let parentId := withoutCycle known parents
      { folder with parentId } :: settleParents (parents.put folder.id parentId) rest

def placeRound (arranged : List Folder) (folders : List Folder) : List Folder :=
  folders.foldl
    (fun arranged folder =>
      let isPlaced := fun id => id == "" || arranged.any (·.id == id)
      if !isPlaced folder.id && isPlaced folder.parentId then arranged ++ [folder] else arranged)
    arranged

def parentsFirst (folders : List Folder) : List Folder :=
  (List.range folders.length).foldl (fun arranged _ => placeRound arranged folders) []

def arrangeFolders (folders : List Folder) : List Folder :=
  let unique := uniqueFolders folders
  parentsFirst (settleParents (Record.ofEntries (unique.map fun folder => (folder.id, folder.parentId))) unique)

/-! ## Parents -/

/-- The folder of a parent id; the empty id is the root. -/
def above (id : String) : Option String :=
  if id = "" then none else some id

def upIn (parents : Record String String) (id : String) : Option String :=
  above ((parents.read id).getD "")

def upOf (folders : List Folder) (id : String) : Option String :=
  if id = "" then none else above (((folders.find? (·.id = id)).map Folder.parentId).getD "")

/-! ## The loops -/

/-- The loop of `withoutCycle`, with what it finds. -/
inductive LooksUp (parents : Record String String) : List String → String → Bool → Prop
  | root (seen) : LooksUp parents seen "" false
  | back {seen ancestor} (hne : ancestor ≠ "") (hseen : ancestor ∈ seen) : LooksUp parents seen ancestor true
  | step {seen ancestor found} (hne : ancestor ≠ "") (hseen : ancestor ∉ seen)
      (hrest : LooksUp parents (ancestor :: seen) ((parents.read ancestor).getD "") found) :
      LooksUp parents seen ancestor found

/-- The loop of `parentsFirst`, with what it returns. -/
inductive PlacesAll (folders : List Folder) : List Folder → List Folder → Prop
  | done {arranged} (h : folders.length ≤ arranged.length) : PlacesAll folders arranged arranged
  | round {arranged result} (h : arranged.length < folders.length)
      (hrest : PlacesAll folders (placeRound arranged folders) result) : PlacesAll folders arranged result

section Looking

variable {parents : Record String String}

/-- The bound of `comesBack` is never met: what was seen are different keys. -/
theorem looksUp_comesBack (fuel : Nat) (seen : List String) (ancestor : String) (hnodup : seen.Nodup)
    (hkeys : ancestor ≠ "" → ∀ id ∈ seen, id ∈ parents.keys) (hfuel : parents.length + 2 ≤ fuel + seen.length)
    (hpos : 1 ≤ fuel) : LooksUp parents seen ancestor (comesBack parents fuel seen ancestor) := by
  induction fuel generalizing seen ancestor with
  | zero => omega
  | succ fuel ih =>
      unfold comesBack
      split_ifs with hroot hseen
      · rw [hroot]
        exact .root seen
      · exact .back hroot hseen
      · have hle : seen.length ≤ parents.length := by
          rw [← Record.length_keys]
          exact (List.subperm_of_subset hnodup (hkeys hroot)).length_le
        apply LooksUp.step hroot hseen
        apply ih
        · exact List.nodup_cons.2 ⟨hseen, hnodup⟩
        · intro hnext id hid
          rcases List.mem_cons.1 hid with rfl | hold
          · by_contra hnot
            rw [(Record.read_eq_none_iff parents id).2 hnot] at hnext
            exact hnext rfl
          · exact hkeys hroot id hold
        · rw [List.length_cons]
          omega
        · omega

theorem rooted_of_looksUp {seen : List String} {ancestor : String} (h : LooksUp parents seen ancestor false) :
    Rooted (upIn parents) (above ancestor) := by
  generalize hfound : false = found at h
  induction h with
  | root seen => exact ⟨0, .top⟩
  | back _ _ => cases hfound
  | @step seen ancestor found hne _ _ ih =>
      have hup : above ancestor = some ancestor := if_neg hne
      rw [hup]
      exact (ih hfound).step

theorem below_above {id : String} (h : above ((parents.read id).getD "") ≠ none) :
    Below (upIn parents) ((parents.read id).getD "") 1 id := by
  refine ⟨(parents.read id).getD "", ?_, rfl⟩
  have hne : (parents.read id).getD "" ≠ "" := by
    intro hroot
    rw [hroot] at h
    exact h rfl
  exact if_neg hne

theorem not_rooted_of_looksUp {seen : List String} {ancestor : String} (h : LooksUp parents seen ancestor true)
    (hseen : ∀ id ∈ seen, above ancestor ≠ none → ∃ levels, Below (upIn parents) ancestor (levels + 1) id) :
    ¬ Rooted (upIn parents) (above ancestor) := by
  generalize hfound : true = found at h
  induction h with
  | root seen => cases hfound
  | @back seen ancestor hne hmem =>
      have hup : above ancestor = some ancestor := if_neg hne
      obtain ⟨levels, hbelow⟩ := hseen ancestor hmem (by rw [hup]; exact Option.some_ne_none ancestor)
      rw [hup]
      intro hrooted
      exact hrooted.not_below_self levels hbelow
  | @step seen ancestor found hne _ _ ih =>
      have hup : above ancestor = some ancestor := if_neg hne
      rw [hup]
      intro hrooted
      apply ih _ hfound hrooted.next
      intro id hid hnext
      rcases List.mem_cons.1 hid with rfl | hold
      · exact ⟨0, below_above hnext⟩
      · obtain ⟨levels, hbelow⟩ := hseen id hold (by rw [hup]; exact Option.some_ne_none ancestor)
        exact ⟨levels + 1, hbelow.trans (below_above hnext)⟩

/-- `withoutCycle` ends, and keeps a parent whose way up ends. -/
theorem withoutCycle_looksUp (parents : Record String String) (parentId : String) :
    ∃ found, LooksUp parents [] parentId found ∧ withoutCycle parentId parents = if found then "" else parentId := by
  refine ⟨comesBack parents (parents.length + 2) [] parentId, ?_, rfl⟩
  apply looksUp_comesBack
  · exact List.nodup_nil
  · exact fun _ => List.forall_mem_nil _
  · exact Nat.le_add_right _ _
  · omega

open Classical in
theorem above_withoutCycle (parents : Record String String) (parentId : String) :
    above (withoutCycle parentId parents) = if Rooted (upIn parents) (above parentId) then above parentId else none := by
  obtain ⟨found, hlooks, hvalue⟩ := withoutCycle_looksUp parents parentId
  rw [hvalue]
  cases found with
  | false => rw [if_pos (rooted_of_looksUp hlooks)]; rfl
  | true => rw [if_neg (not_rooted_of_looksUp hlooks (List.forall_mem_nil _))]; rfl

end Looking

/-! ## The first folder of each id -/

theorem uniqueFolders_snoc (folders : List Folder) (folder : Folder) :
    uniqueFolders (folders ++ [folder]) =
      if folder.id = "" ∨ (uniqueFolders folders).any (·.id == folder.id) then uniqueFolders folders
      else uniqueFolders folders ++ [folder] := by
  rw [uniqueFolders, List.foldl_append]
  rfl

theorem any_id_iff {folders : List Folder} {id : String} :
    folders.any (·.id == id) = true ↔ id ∈ folders.map Folder.id := by
  rw [List.any_eq_true, List.mem_map]
  simp only [beq_iff_eq]

theorem uniqueFolders_nodup (folders : List Folder) : ((uniqueFolders folders).map Folder.id).Nodup := by
  induction folders using List.reverseRecOn with
  | nil => exact List.nodup_nil
  | append_singleton folders folder ih =>
      rw [uniqueFolders_snoc]
      split_ifs with hskip
      · exact ih
      · rw [not_or, any_id_iff] at hskip
        rw [List.map_append, List.nodup_append]
        refine ⟨ih, List.nodup_singleton _, ?_⟩
        intro id hid other hother
        rw [List.map_singleton, List.mem_singleton] at hother
        rintro rfl
        exact hskip.2 (hother ▸ hid)

theorem mem_uniqueFolders {folders : List Folder} {folder : Folder} (h : folder ∈ uniqueFolders folders) :
    folder.id ≠ "" ∧ folder ∈ folders := by
  induction folders using List.reverseRecOn with
  | nil => cases h
  | append_singleton folders last ih =>
      rw [uniqueFolders_snoc] at h
      split_ifs at h with hskip
      · obtain ⟨hne, hmem⟩ := ih h
        exact ⟨hne, List.mem_append_left _ hmem⟩
      · rcases List.mem_append.1 h with hold | hlast
        · obtain ⟨hne, hmem⟩ := ih hold
          exact ⟨hne, List.mem_append_left _ hmem⟩
        · rw [List.mem_singleton] at hlast
          subst hlast
          exact ⟨fun hempty => hskip (.inl hempty), List.mem_append_right _ List.mem_cons_self⟩

theorem find_uniqueFolders {folders : List Folder} {id : String} (h : id ≠ "") :
    (uniqueFolders folders).find? (·.id = id) = folders.find? (·.id = id) := by
  induction folders using List.reverseRecOn with
  | nil => rfl
  | append_singleton folders folder ih =>
      rw [uniqueFolders_snoc, List.find?_append, ← ih]
      by_cases hid : folder.id = id
      · subst hid
        split_ifs with hskip
        · have hfound : ((uniqueFolders folders).find? (·.id = folder.id)).isSome = true := by
            rw [List.find?_isSome]
            obtain ⟨other, hmem, hsame⟩ := List.any_eq_true.1 (hskip.resolve_left h)
            exact ⟨other, hmem, decide_eq_true (beq_iff_eq.1 hsame)⟩
          obtain ⟨other, hother⟩ := Option.isSome_iff_exists.1 hfound
          rw [hother]
          rfl
        · rw [List.find?_append]
      · have hnone : [folder].find? (·.id = id) = none := by simp [hid]
        rw [hnone, Option.or_none]
        split_ifs
        · rfl
        · rw [List.find?_append, hnone, Option.or_none]

theorem mem_uniqueFolders_ids {folders : List Folder} {id : String} :
    id ∈ (uniqueFolders folders).map Folder.id ↔ id ≠ "" ∧ id ∈ folders.map Folder.id := by
  constructor
  · intro h
    obtain ⟨folder, hmem, rfl⟩ := List.mem_map.1 h
    obtain ⟨hne, hold⟩ := mem_uniqueFolders hmem
    exact ⟨hne, List.mem_map_of_mem hold⟩
  · intro h
    obtain ⟨hne, hmem⟩ := h
    obtain ⟨folder, hfolder, hid⟩ := List.mem_map.1 hmem
    have hfound : (folders.find? (·.id = id)).isSome = true := List.find?_isSome.2 ⟨folder, hfolder, decide_eq_true hid⟩
    rw [← find_uniqueFolders hne] at hfound
    obtain ⟨other, hother, hsame⟩ := List.find?_isSome.1 hfound
    exact List.mem_map.2 ⟨other, hother, of_decide_eq_true hsame⟩

/-- The folder of an id, in a list in which no id repeats. -/
theorem find_of_mem {folders : List Folder} (hnodup : (folders.map Folder.id).Nodup) {folder : Folder}
    (h : folder ∈ folders) : folders.find? (·.id = folder.id) = some folder := by
  induction folders with
  | nil => cases h
  | cons first rest ih =>
      rw [List.map_cons, List.nodup_cons] at hnodup
      rcases List.mem_cons.1 h with rfl | hrest
      · simp
      · have hne : first.id ≠ folder.id := by
          intro hsame
          exact hnodup.1 (hsame ▸ List.mem_map_of_mem hrest)
        rw [List.find?_cons_of_neg (by simpa using hne), ih hnodup.2 hrest]

theorem upOf_of_mem {folders : List Folder} (hnodup : (folders.map Folder.id).Nodup) {folder : Folder}
    (h : folder ∈ folders) (hne : folder.id ≠ "") : upOf folders folder.id = above folder.parentId := by
  rw [upOf, if_neg hne, find_of_mem hnodup h]
  rfl

theorem upOf_of_notMem {folders : List Folder} {id : String} (h : id ∉ folders.map Folder.id) : upOf folders id = none := by
  unfold upOf
  split_ifs
  · rfl
  · have hnone : folders.find? (·.id = id) = none := by
      rw [List.find?_eq_none]
      intro folder hmem hsame
      exact h (List.mem_map.2 ⟨folder, hmem, of_decide_eq_true hsame⟩)
    rw [hnone]
    rfl

theorem upOf_uniqueFolders (folders : List Folder) : upOf (uniqueFolders folders) = upOf folders := by
  ext1 id
  unfold upOf
  split_ifs with hne
  · rfl
  · rw [find_uniqueFolders hne]

/-! ## Settling the parents -/

/-- The map of parents that `arrangeFolders` builds. -/
def parentsOf (folders : List Folder) : Record String String :=
  Record.ofEntries (folders.map fun folder => (folder.id, folder.parentId))

def settledFolders (folders : List Folder) : List Folder :=
  settleParents (parentsOf (uniqueFolders folders)) (uniqueFolders folders)

theorem keys_parents (folders : List Folder) :
    Record.keys (folders.map fun folder => (folder.id, folder.parentId)) = folders.map Folder.id := by
  rw [Record.keys, List.map_map]
  rfl

theorem read_parentsOf {folders : List Folder} (hnodup : (folders.map Folder.id).Nodup) {folder : Folder}
    (h : folder ∈ folders) : (parentsOf folders).read folder.id = some folder.parentId := by
  apply Record.read_ofEntries_of_mem
  · rw [keys_parents]
    exact hnodup
  · exact List.mem_map.2 ⟨folder, h, rfl⟩

theorem has_parentsOf {folders : List Folder} (hnodup : (folders.map Folder.id).Nodup) {id : String} :
    (parentsOf folders).has id = true ↔ id ∈ folders.map Folder.id := by
  rw [Record.has_iff, parentsOf, Record.ofEntries_of_nodup _ (by rw [keys_parents]; exact hnodup), keys_parents]

theorem upIn_parentsOf {folders : List Folder} (hnodup : (folders.map Folder.id).Nodup)
    (hne : ∀ folder ∈ folders, folder.id ≠ "") : upIn (parentsOf folders) = upOf folders := by
  ext1 id
  by_cases hmem : id ∈ folders.map Folder.id
  · obtain ⟨folder, hfolder, rfl⟩ := List.mem_map.1 hmem
    rw [upOf_of_mem hnodup hfolder (hne folder hfolder), upIn, read_parentsOf hnodup hfolder]
    rfl
  · have hnone : (parentsOf folders).read id = none := by
      rw [Record.read_eq_none_iff, ← Record.has_iff, has_parentsOf hnodup]
      exact hmem
    rw [upOf_of_notMem hmem, upIn, hnone]
    rfl

theorem upIn_put (parents : Record String String) (id parentId : String) :
    upIn (parents.put id parentId) = Function.update (upIn parents) id (above parentId) := by
  ext1 other
  rw [upIn, Record.read_put]
  by_cases hid : other = id
  · rw [if_pos hid, hid, Function.update_self]
    rfl
  · rw [if_neg hid, Function.update_of_ne hid]
    rfl

section Settling

variable {known : String → Prop}

open Classical in
theorem above_settled {parents : Record String String} {folder : Folder}
    (hknown : ∀ id, parents.has id = true ↔ known id) (hread : parents.read folder.id = some folder.parentId) :
    above (withoutCycle (if parents.has folder.parentId then folder.parentId else "") parents) =
      keep known (upIn parents) folder.id := by
  have hup : upIn parents folder.id = above folder.parentId := by
    rw [upIn, hread]
    rfl
  rw [above_withoutCycle, keep, hup]
  have htop : above "" = none := rfl
  by_cases hempty : folder.parentId = ""
  · rw [hempty, ite_self, htop, ite_self, ite_self]
  · have hsome : above folder.parentId = some folder.parentId := if_neg hempty
    by_cases hhas : known folder.parentId
    · have hall : ∀ b, some folder.parentId = some b → known b := by
        intro b hb
        rw [← Option.some.inj hb]
        exact hhas
      rw [if_pos ((hknown _).2 hhas), hsome]
      exact if_congr (and_iff_right hall).symm rfl rfl
    · have hnot : ¬ parents.has folder.parentId = true := fun h => hhas ((hknown _).1 h)
      rw [if_neg hnot, htop, ite_self, hsome, if_neg]
      intro h
      exact hhas (h.1 folder.parentId rfl)

/-- Each folder is settled where the abstract cutting puts it. -/
theorem settleParents_spec (items : List Folder) (parents : Record String String)
    (hnodup : (items.map Folder.id).Nodup) (hknown : ∀ id, parents.has id = true ↔ known id)
    (hread : ∀ folder ∈ items, parents.read folder.id = some folder.parentId) :
    List.Forall₂ (fun folder settled => settled = { folder with parentId := settled.parentId } ∧
        above settled.parentId = cutAll known (upIn parents) (items.map Folder.id) folder.id)
      items (settleParents parents items) := by
  induction items generalizing parents with
  | nil => exact .nil
  | cons folder rest ih =>
      rw [List.map_cons, List.nodup_cons] at hnodup
      have hself := hread folder List.mem_cons_self
      have hplace := above_settled hknown hself
      rw [settleParents]
      generalize withoutCycle (if parents.has folder.parentId then folder.parentId else "") parents = parentId at hplace
      have hup : upIn (parents.put folder.id parentId) =
          Function.update (upIn parents) folder.id (keep known (upIn parents) folder.id) := by
        rw [upIn_put, hplace]
      apply List.Forall₂.cons
      · refine ⟨rfl, ?_⟩
        rw [List.map_cons, cutAll, cutAll_of_notMem hnodup.1, Function.update_self]
        exact hplace
      · have hrest := ih (parents.put folder.id parentId) hnodup.2
          (by
            intro id
            rw [← hknown id, Record.has_iff, Record.has_iff, Record.mem_keys_put]
            have hmem : folder.id ∈ parents.keys := by
              rw [← Record.has_iff, Record.has, hself]
              rfl
            constructor
            · intro h
              rcases h with hsame | hold
              · exact hsame ▸ hmem
              · exact hold
            · exact .inr)
          (by
            intro other hother
            have hne : other.id ≠ folder.id := by
              intro hsame
              exact hnodup.1 (hsame ▸ List.mem_map_of_mem hother)
            rw [Record.read_put_ne _ hne]
            exact hread other (List.mem_cons_of_mem folder hother))
        rw [hup] at hrest
        exact hrest

end Settling

/-! ## Placing -/

/-- Whether `parentsFirst` has placed an id. -/
def isPlaced (arranged : List Folder) (id : String) : Prop :=
  id = "" ∨ id ∈ arranged.map Folder.id

def placeStep (arranged : List Folder) (folder : Folder) : List Folder :=
  placeRound arranged [folder]

theorem placeStep_eq (arranged : List Folder) (folder : Folder) :
    (¬ isPlaced arranged folder.id ∧ isPlaced arranged folder.parentId ∧ placeStep arranged folder = arranged ++ [folder]) ∨
      ((isPlaced arranged folder.id ∨ ¬ isPlaced arranged folder.parentId) ∧ placeStep arranged folder = arranged) := by
  have hbool : ∀ id, (id == "" || arranged.any (·.id == id)) = true ↔ isPlaced arranged id := by
    intro id
    rw [Bool.or_eq_true, beq_iff_eq, any_id_iff]
    rfl
  have hcond : (!(folder.id == "" || arranged.any (·.id == folder.id)) &&
      (folder.parentId == "" || arranged.any (·.id == folder.parentId))) = true ↔
        ¬ isPlaced arranged folder.id ∧ isPlaced arranged folder.parentId := by
    rw [Bool.and_eq_true, Bool.not_eq_true', ← Bool.not_eq_true, hbool, hbool]
  by_cases h : ¬ isPlaced arranged folder.id ∧ isPlaced arranged folder.parentId
  · left
    exact ⟨h.1, h.2, if_pos (hcond.2 h)⟩
  · right
    refine ⟨?_, if_neg (mt hcond.1 h)⟩
    rw [not_and_or, not_not] at h
    exact h

theorem placeRound_cons (arranged : List Folder) (folder : Folder) (rest : List Folder) :
    placeRound arranged (folder :: rest) = placeRound (placeStep arranged folder) rest := rfl

theorem placeStep_isPrefix (arranged : List Folder) (folder : Folder) : arranged <+: placeStep arranged folder := by
  rcases placeStep_eq arranged folder with ⟨-, -, h⟩ | ⟨-, h⟩
  · rw [h]
    exact List.prefix_append arranged [folder]
  · rw [h]

theorem placeRound_isPrefix (arranged folders : List Folder) : arranged <+: placeRound arranged folders := by
  induction folders generalizing arranged with
  | nil => exact List.prefix_refl arranged
  | cons folder rest ih => exact (placeStep_isPrefix arranged folder).trans (ih (placeStep arranged folder))

theorem isPlaced_of_isPrefix {arranged more : List Folder} (h : arranged <+: more) {id : String}
    (hid : isPlaced arranged id) : isPlaced more id := by
  rcases hid with hroot | hmem
  · exact .inl hroot
  · obtain ⟨rest, rfl⟩ := h
    rw [isPlaced, List.map_append, List.mem_append]
    exact .inr (.inl hmem)

/-- A folder whose parent is placed before a round is placed after it. -/
theorem isPlaced_placeRound {arranged folders : List Folder} {folder : Folder} (h : folder ∈ folders)
    (hparent : isPlaced arranged folder.parentId) : isPlaced (placeRound arranged folders) folder.id := by
  induction folders generalizing arranged with
  | nil => cases h
  | cons first rest ih =>
      rw [placeRound_cons]
      rcases List.mem_cons.1 h with rfl | hrest
      · apply isPlaced_of_isPrefix (placeRound_isPrefix _ rest)
        rcases placeStep_eq arranged folder with ⟨-, -, hstep⟩ | ⟨hcase, hstep⟩
        · rw [hstep, isPlaced, List.map_append]
          exact .inr (List.mem_append_right _ List.mem_cons_self)
        · rw [hstep]
          exact hcase.resolve_right (fun hnot => hnot hparent)
      · exact ih hrest (isPlaced_of_isPrefix (placeStep_isPrefix arranged first) hparent)

structure Placed (folders arranged : List Folder) : Prop where
  nodup : (arranged.map Folder.id).Nodup
  subset : ∀ folder ∈ arranged, folder ∈ folders
  parentBefore : ∀ before folder after, arranged = before ++ folder :: after → isPlaced before folder.parentId

theorem Placed.step {folders arranged : List Folder} (h : Placed folders arranged) {folder : Folder}
    (hmem : folder ∈ folders) : Placed folders (placeStep arranged folder) := by
  rcases placeStep_eq arranged folder with ⟨hid, hparent, hstep⟩ | ⟨-, hstep⟩
  · rw [hstep]
    constructor
    · rw [List.map_append, List.nodup_append]
      refine ⟨h.nodup, List.nodup_singleton _, ?_⟩
      intro id hold other hnew
      rw [List.map_singleton, List.mem_singleton] at hnew
      intro hsame
      exact hid (.inr (hnew ▸ hsame ▸ hold))
    · intro other hother
      rcases List.mem_append.1 hother with hold | hnew
      · exact h.subset other hold
      · rw [List.mem_singleton] at hnew
        exact hnew ▸ hmem
    · intro before other after hsplit
      rcases List.eq_nil_or_concat' after with rfl | ⟨after, last, rfl⟩
      · obtain ⟨rfl, hsame⟩ := List.append_inj' hsplit rfl
        rw [List.cons.injEq] at hsame
        exact hsame.1 ▸ hparent
      · have hwhole : arranged ++ [folder] = (before ++ other :: after) ++ [last] := by
          rw [hsplit, List.append_assoc, List.cons_append]
        exact h.parentBefore before other after (List.append_inj' hwhole rfl).1
  · rw [hstep]
    exact h

theorem Placed.round {folders arranged : List Folder} (h : Placed folders arranged) :
    Placed folders (placeRound arranged folders) := by
  have hall : ∀ (items arranged : List Folder), (∀ folder ∈ items, folder ∈ folders) → Placed folders arranged →
      Placed folders (placeRound arranged items) := by
    intro items
    induction items with
    | nil => exact fun arranged _ hplaced => hplaced
    | cons folder rest ih =>
        intro arranged hitems hplaced
        apply ih
        · exact fun other hother => hitems other (List.mem_cons_of_mem folder hother)
        · exact hplaced.step (hitems folder List.mem_cons_self)
  exact hall folders arranged (fun _ hmem => hmem) h

def rounds (folders : List Folder) (count : Nat) : List Folder :=
  (List.range count).foldl (fun arranged _ => placeRound arranged folders) []

theorem rounds_succ (folders : List Folder) (count : Nat) :
    rounds folders (count + 1) = placeRound (rounds folders count) folders := by
  rw [rounds, List.range_succ, List.foldl_append]
  rfl

theorem placed_rounds (folders : List Folder) (count : Nat) : Placed folders (rounds folders count) := by
  induction count with
  | zero =>
      constructor
      · exact List.nodup_nil
      · exact fun folder h => absurd h List.not_mem_nil
      · intro before folder after h
        simp [rounds] at h
  | succ count ih =>
      rw [rounds_succ]
      exact ih.round

section Rounds

variable {folders : List Folder} (hnodup : (folders.map Folder.id).Nodup) (hne : ∀ folder ∈ folders, folder.id ≠ "")
  (hparent : ∀ folder ∈ folders, folder.parentId = "" ∨ folder.parentId ∈ folders.map Folder.id)
  (hrooted : ∀ folder ∈ folders, Rooted (upOf folders) (some folder.id))

theorem Placed.length_le {arranged : List Folder} (h : Placed folders arranged) : arranged.length ≤ folders.length := by
  have hsub : arranged.map Folder.id ⊆ folders.map Folder.id := List.map_subset Folder.id h.subset
  have hle := (List.subperm_of_subset h.nodup hsub).length_le
  rw [List.length_map, List.length_map] at hle
  exact hle

include hnodup hne hparent hrooted


/-- While a folder is not placed, there is one whose parent is. -/
theorem exists_ready {arranged : List Folder} {folder : Folder} (hmem : folder ∈ folders)
    (hnot : ¬ isPlaced arranged folder.id) :
    ∃ ready ∈ folders, ¬ isPlaced arranged ready.id ∧ isPlaced arranged ready.parentId := by
  obtain ⟨count, hclimbs⟩ := hrooted folder hmem
  induction count generalizing folder with
  | zero => cases hclimbs
  | succ count ih =>
      by_cases hplaced : isPlaced arranged folder.parentId
      · exact ⟨folder, hmem, hnot, hplaced⟩
      · have hempty : folder.parentId ≠ "" := fun hroot => hplaced (.inl hroot)
        obtain ⟨parent, hparentmem, hid⟩ := List.mem_map.1 ((hparent folder hmem).resolve_left hempty)
        cases hclimbs with
        | step hrest =>
            have hsome : above folder.parentId = some folder.parentId := if_neg hempty
            rw [upOf_of_mem hnodup hmem (hne folder hmem), hsome, ← hid] at hrest
            exact ih hparentmem (hid ▸ hplaced) hrest

theorem length_lt_placeRound {arranged : List Folder}
    (hless : arranged.length < folders.length) : arranged.length < (placeRound arranged folders).length := by
  have hmissing : ∃ folder ∈ folders, ¬ isPlaced arranged folder.id := by
    by_contra hall
    push Not at hall
    have hsub : folders.map Folder.id ⊆ arranged.map Folder.id := by
      intro id hid
      obtain ⟨folder, hmem, rfl⟩ := List.mem_map.1 hid
      exact (hall folder hmem).resolve_left (hne folder hmem)
    have hle := (List.subperm_of_subset hnodup hsub).length_le
    rw [List.length_map, List.length_map] at hle
    omega
  obtain ⟨folder, hmem, hnot⟩ := hmissing
  obtain ⟨ready, hready, hunplaced, hplaced⟩ := exists_ready hnodup hne hparent hrooted hmem hnot
  have hafter := isPlaced_placeRound hready hplaced
  apply lt_of_le_of_ne (placeRound_isPrefix arranged folders).length_le
  intro hlength
  rw [← (placeRound_isPrefix arranged folders).eq_of_length hlength] at hafter
  exact hunplaced hafter

theorem le_length_rounds {count : Nat} (h : count ≤ folders.length) : count ≤ (rounds folders count).length := by
  induction count with
  | zero => exact Nat.zero_le _
  | succ count ih =>
      rw [rounds_succ]
      rcases Nat.lt_or_ge (rounds folders count).length folders.length with hless | hfull
      · have hlt := length_lt_placeRound hnodup hne hparent hrooted hless
        have hle := ih (by omega)
        omega
      · have hle := (placeRound_isPrefix (rounds folders count) folders).length_le
        omega

theorem placesAll_parentsFirst : PlacesAll folders [] (parentsFirst folders) := by
  have hall : ∀ left count, left + count = folders.length →
      PlacesAll folders (rounds folders count) (rounds folders folders.length) := by
    intro left
    induction left with
    | zero =>
        intro count hcount
        rw [Nat.zero_add] at hcount
        rw [hcount]
        exact .done (le_length_rounds hnodup hne hparent hrooted le_rfl)
    | succ left ih =>
        intro count hcount
        have hnext := ih (count + 1) (by omega)
        rw [rounds_succ] at hnext
        rcases Nat.lt_or_ge (rounds folders count).length folders.length with hless | hfull
        · exact .round hless hnext
        · have hsame : rounds folders folders.length = rounds folders count := by
            have hstays : ∀ more, rounds folders (count + more) = rounds folders count := by
              intro more
              induction more with
              | zero => rfl
              | succ more ihmore =>
                  have hle := ((placed_rounds folders count).round).length_le
                  have hstarts := placeRound_isPrefix (rounds folders count) folders
                  rw [← Nat.add_assoc, rounds_succ, ihmore]
                  exact (hstarts.eq_of_length (le_antisymm hstarts.length_le (hle.trans hfull))).symm
            have hsum : folders.length = count + (left + 1) := by omega
            rw [hsum]
            exact hstays (left + 1)
          rw [hsame]
          exact .done hfull
  exact hall folders.length 0 rfl

theorem mem_parentsFirst {folder : Folder} : folder ∈ parentsFirst folders ↔ folder ∈ folders := by
  have hplaced : Placed folders (parentsFirst folders) := placed_rounds folders folders.length
  have hlength : folders.length ≤ (parentsFirst folders).length := le_length_rounds hnodup hne hparent hrooted le_rfl
  constructor
  · exact hplaced.subset folder
  · intro hmem
    have hsub : (parentsFirst folders).Subperm folders :=
      List.subperm_of_subset hplaced.nodup.of_map hplaced.subset
    exact (hsub.perm_of_length_le hlength).mem_iff.2 hmem

end Rounds

/-! ## The arrangement -/

structure ArrangedFrom (folders arranged : List Folder) : Prop where
  once : (arranged.map Folder.id).Nodup
  ids : ∀ id, id ∈ arranged.map Folder.id ↔ id ≠ "" ∧ id ∈ folders.map Folder.id
  first : ∀ folder ∈ arranged, ∃ original, folders.find? (·.id = folder.id) = some original ∧
    folder = { original with parentId := folder.parentId }
  parentBefore : ∀ before folder after, arranged = before ++ folder :: after →
    folder.parentId = "" ∨ folder.parentId ∈ before.map Folder.id
  rooted : ∀ folder ∈ arranged, Rooted (upOf arranged) (some folder.id)
  kept : ∀ folder ∈ arranged, WellPlaced (upOf folders) (· ∈ folders.map Folder.id) folder.id →
    folders.find? (·.id = folder.id) = some folder
  broken : ∀ cycle : Set String, IsCycle (upOf folders) cycle →
    ∃! id, id ∈ cycle ∧ upOf arranged id ≠ upOf folders id

theorem mem_of_forall₂ {α β : Type*} {related : α → β → Prop} {first : List α} {second : List β}
    (h : List.Forall₂ related first second) {b : β} (hb : b ∈ second) : ∃ a ∈ first, related a b := by
  induction h with
  | nil => cases hb
  | @cons a other _ _ hhead _ ih =>
      rcases List.mem_cons.1 hb with rfl | hrest
      · exact ⟨a, List.mem_cons_self, hhead⟩
      · obtain ⟨c, hc, hrelated⟩ := ih hrest
        exact ⟨c, List.mem_cons_of_mem a hc, hrelated⟩

theorem above_injective {first second : String} (h : above first = above second) : first = second := by
  unfold above at h
  split_ifs at h with hfirst hsecond hsecond
  · rw [hfirst, hsecond]
  · exact Option.some.inj h

theorem ne_of_onWay {folders : List Folder} {start id : String} (hne : start ≠ "")
    (h : OnWay (upOf folders) id (some start)) : id ≠ "" := by
  obtain ⟨levels, first, hfirst, hbelow⟩ := h
  rw [Option.some.injEq] at hfirst
  subst hfirst
  induction levels generalizing start with
  | zero =>
      have hsame : start = id := hbelow
      exact hsame ▸ hne
  | succ levels ih =>
      obtain ⟨next, hnext, hrest⟩ := hbelow
      rw [upOf, if_neg hne] at hnext
      refine ih ?_ hrest
      rintro rfl
      unfold above at hnext
      split_ifs at hnext with hroot
      exact hroot (Option.some.inj hnext)

section Settled

variable (folders : List Folder)

theorem settledFolders_spec :
    List.Forall₂ (fun folder settled => settled = { folder with parentId := settled.parentId } ∧
        above settled.parentId =
          cutAll (· ∈ (uniqueFolders folders).map Folder.id) (upOf folders) ((uniqueFolders folders).map Folder.id) folder.id)
      (uniqueFolders folders) (settledFolders folders) := by
  have hnodup := uniqueFolders_nodup folders
  have h := settleParents_spec (uniqueFolders folders) (parentsOf (uniqueFolders folders)) hnodup
    (fun id => has_parentsOf hnodup) (fun folder hmem => read_parentsOf hnodup hmem)
  rw [upIn_parentsOf hnodup (fun folder hmem => (mem_uniqueFolders hmem).1), upOf_uniqueFolders] at h
  exact h

theorem settledFolders_ids : (settledFolders folders).map Folder.id = (uniqueFolders folders).map Folder.id := by
  have h := (settledFolders_spec folders).imp fun folder settled (hsame : _ ∧ _) => hsame.1
  generalize uniqueFolders folders = unique, settledFolders folders = settled at h
  induction h with
  | nil => rfl
  | cons hhead _ ih => rw [List.map_cons, List.map_cons, ih, hhead]

/-- Each settled folder comes of the first folder of its id. -/
theorem mem_settledFolders {settled : Folder} (h : settled ∈ settledFolders folders) :
    ∃ folder ∈ uniqueFolders folders, settled = { folder with parentId := settled.parentId } ∧
      above settled.parentId =
        cutAll (· ∈ (uniqueFolders folders).map Folder.id) (upOf folders) ((uniqueFolders folders).map Folder.id) folder.id := by
  exact mem_of_forall₂ (settledFolders_spec folders) h

theorem settledFolders_nodup : ((settledFolders folders).map Folder.id).Nodup := by
  rw [settledFolders_ids]
  exact uniqueFolders_nodup folders

theorem settledFolders_ne {settled : Folder} (h : settled ∈ settledFolders folders) : settled.id ≠ "" := by
  obtain ⟨folder, hmem, hsame, -⟩ := mem_settledFolders folders h
  rw [hsame]
  exact (mem_uniqueFolders hmem).1

/-- The parents that are left are those of the abstract cutting. -/
theorem upOf_settledFolders :
    upOf (settledFolders folders) =
      cutAll (· ∈ (uniqueFolders folders).map Folder.id) (upOf folders) ((uniqueFolders folders).map Folder.id) := by
  ext1 id
  by_cases hid : id ∈ (settledFolders folders).map Folder.id
  · obtain ⟨settled, hmem, rfl⟩ := List.mem_map.1 hid
    rw [upOf_of_mem (settledFolders_nodup folders) hmem (settledFolders_ne folders hmem)]
    obtain ⟨folder, -, hsame, hup⟩ := mem_settledFolders folders hmem
    rw [hup, hsame]
  · rw [upOf_of_notMem hid]
    rw [settledFolders_ids] at hid
    rw [cutAll_of_notMem hid, ← upOf_uniqueFolders, upOf_of_notMem hid]

theorem settledFolders_parent {settled : Folder} (h : settled ∈ settledFolders folders) :
    settled.parentId = "" ∨ settled.parentId ∈ (settledFolders folders).map Folder.id := by
  obtain ⟨folder, hmem, -, hup⟩ := mem_settledFolders folders h
  by_cases hroot : settled.parentId = ""
  · exact .inl hroot
  · right
    have hsome : above settled.parentId = some settled.parentId := if_neg hroot
    rw [settledFolders_ids]
    exact cutAll_known (List.mem_map_of_mem hmem) (hup.symm.trans hsome)

theorem settledFolders_rooted {settled : Folder} (h : settled ∈ settledFolders folders) :
    Rooted (upOf (settledFolders folders)) (some settled.id) := by
  rw [upOf_settledFolders]
  apply cutAll_rooted
  rw [← settledFolders_ids]
  exact List.mem_map_of_mem h

end Settled

theorem mem_arrangeFolders {folders : List Folder} {folder : Folder} :
    folder ∈ arrangeFolders folders ↔ folder ∈ settledFolders folders :=
  mem_parentsFirst (settledFolders_nodup folders) (fun _ => settledFolders_ne folders)
    (fun _ => settledFolders_parent folders) (fun _ => settledFolders_rooted folders)

theorem placed_arrangeFolders (folders : List Folder) : Placed (settledFolders folders) (arrangeFolders folders) :=
  placed_rounds (settledFolders folders) (settledFolders folders).length

theorem upOf_arrangeFolders (folders : List Folder) : upOf (arrangeFolders folders) = upOf (settledFolders folders) := by
  ext1 id
  by_cases hid : id ∈ (settledFolders folders).map Folder.id
  · obtain ⟨settled, hmem, rfl⟩ := List.mem_map.1 hid
    have hne := settledFolders_ne folders hmem
    rw [upOf_of_mem (settledFolders_nodup folders) hmem hne,
      upOf_of_mem (placed_arrangeFolders folders).nodup (mem_arrangeFolders.2 hmem) hne]
  · have hid' : id ∉ (arrangeFolders folders).map Folder.id := by
      intro h
      obtain ⟨folder, hmem, rfl⟩ := List.mem_map.1 h
      exact hid (List.mem_map_of_mem (mem_arrangeFolders.1 hmem))
    rw [upOf_of_notMem hid, upOf_of_notMem hid']

theorem arrangedFrom_arrangeFolders (folders : List Folder) : ArrangedFrom folders (arrangeFolders folders) := by
  have hids : ∀ id, id ∈ (arrangeFolders folders).map Folder.id ↔ id ∈ (uniqueFolders folders).map Folder.id := by
    intro id
    rw [← settledFolders_ids, List.mem_map, List.mem_map]
    exact exists_congr fun folder => and_congr_left fun _ => mem_arrangeFolders
  have hfirst : ∀ folder ∈ arrangeFolders folders, ∃ original, folders.find? (·.id = folder.id) = some original ∧
      folder = { original with parentId := folder.parentId } := by
    intro folder hmem
    obtain ⟨original, horiginal, hsame, -⟩ := mem_settledFolders folders (mem_arrangeFolders.1 hmem)
    refine ⟨original, ?_, hsame⟩
    have hid : folder.id = original.id := by rw [hsame]
    rw [hid, ← find_uniqueFolders (mem_uniqueFolders horiginal).1]
    exact find_of_mem (uniqueFolders_nodup folders) horiginal
  have hup : upOf (arrangeFolders folders) =
      cutAll (· ∈ (uniqueFolders folders).map Folder.id) (upOf folders) ((uniqueFolders folders).map Folder.id) := by
    rw [upOf_arrangeFolders, upOf_settledFolders]
  constructor
  · exact (placed_arrangeFolders folders).nodup
  · exact fun id => (hids id).trans mem_uniqueFolders_ids
  · exact hfirst
  · exact (placed_arrangeFolders folders).parentBefore
  · intro folder hmem
    rw [upOf_arrangeFolders]
    exact settledFolders_rooted folders (mem_arrangeFolders.1 hmem)
  · intro folder hmem hplaced
    obtain ⟨original, hfound, hsame⟩ := hfirst folder hmem
    have hne : folder.id ≠ "" := settledFolders_ne folders (mem_arrangeFolders.1 hmem)
    have hwell : WellPlaced (upOf folders) (· ∈ (uniqueFolders folders).map Folder.id) folder.id :=
      ⟨hplaced.rooted, fun id hid => mem_uniqueFolders_ids.2 ⟨ne_of_onWay hne hid, hplaced.known id hid⟩⟩
    have hkept : upOf (arrangeFolders folders) folder.id = upOf folders folder.id := by
      rw [hup]
      exact cutAll_of_wellPlaced hwell
    rw [upOf_of_mem (placed_arrangeFolders folders).nodup hmem hne, upOf, if_neg hne, hfound] at hkept
    have hparent : folder.parentId = original.parentId := above_injective hkept
    rw [hfound, hsame, hparent]
  · intro cycle hcycle
    have hknown : ∀ id ∈ cycle, id ∈ (uniqueFolders folders).map Folder.id := by
      intro id hid
      by_contra hnot
      obtain ⟨next, -, hnext⟩ := hcycle.closed id hid
      rw [← upOf_uniqueFolders, upOf_of_notMem hnot] at hnext
      cases hnext
    rw [hup]
    exact cutAll_cycle (uniqueFolders_nodup folders) hcycle hknown hknown

/-- `arrangeFolders` ends on every list of folders and keeps its promises. -/
theorem arrangeFolders_ends_and_arranges (folders : List Folder) :
    (∀ (parents : Record String String) (parentId : String), ∃ found, LooksUp parents [] parentId found ∧
        withoutCycle parentId parents = if found then "" else parentId) ∧
      PlacesAll (settledFolders folders) [] (arrangeFolders folders) ∧ ArrangedFrom folders (arrangeFolders folders) := by
  refine ⟨withoutCycle_looksUp, ?_, arrangedFrom_arrangeFolders folders⟩
  exact placesAll_parentsFirst (settledFolders_nodup folders) (fun _ => settledFolders_ne folders)
    (fun _ => settledFolders_parent folders) (fun _ => settledFolders_rooted folders)

end Gostman.Workspace
