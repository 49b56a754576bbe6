import Gostman.Lib.Forest
import Gostman.Tree.Siblings
import Mathlib.Logic.Relation
/-!
# The depth of folders

`folderDepth` counts the folders above one, so that a bound on it rules out
that a folder is inside itself.
-/

namespace Gostman.Tree

open Gostman.Lib Gostman.Js

/-! ## Climbing -/

section

variable (parentOf : Record String (Option String))

def known (parent : Option String) : Option String :=
  parent.filter fun id => parentOf.has id

def above (id : String) : Option String :=
  known parentOf (parentOf.read id).join

variable {parentOf}

theorem containerOf_eq (parent : Option String) :
    containerOf parentOf parent = (known parentOf parent).getD rootId := by
  cases parent with
  | none => rfl
  | some id =>
    unfold containerOf known
    by_cases h : parentOf.has id <;> simp [Option.filter, h]

theorem climb_of_known_none {parent : Option String} (h : known parentOf parent = none) (left : Nat) :
    climb parentOf left parent = 0 := by
  cases left with
  | zero => rfl
  | succ left =>
    cases parent with
    | none => rfl
    | some id =>
      have hread : parentOf.read id = none := by
        simpa [known, Record.has] using h
      simp [climb, hread]

theorem climb_of_known_some {parent : Option String} {id : String}
    (h : known parentOf parent = some id) (left : Nat) :
    climb parentOf (left + 1) parent = climb parentOf left (parentOf.read id).join + 1 := by
  obtain ⟨rfl, hhas⟩ := Option.filter_eq_some_iff.1 h
  obtain ⟨next, hread⟩ := Option.isSome_iff_exists.1 hhas
  simp [climb, hread]

theorem climb_of_climbs {parent : Option String} {count left : Nat}
    (h : Climbs (above parentOf) (known parentOf parent) count) (hle : count ≤ left) :
    climb parentOf left parent = count := by
  induction count generalizing parent left with
  | zero =>
    cases hknown : known parentOf parent with
    | none => exact climb_of_known_none hknown left
    | some id => rw [hknown] at h; cases h
  | succ count ih =>
    cases hknown : known parentOf parent with
    | none => rw [hknown] at h; cases h
    | some id =>
      rw [hknown] at h
      cases h with
      | step hrest =>
        obtain ⟨less, rfl⟩ : ∃ less, left = less + 1 := ⟨left - 1, by omega⟩
        rw [climb_of_known_some hknown, ih hrest (by omega)]

theorem climbs_of_climb {parent : Option String} {left : Nat} (h : climb parentOf left parent < left) :
    Climbs (above parentOf) (known parentOf parent) (climb parentOf left parent) := by
  induction left generalizing parent with
  | zero => omega
  | succ left ih =>
    cases hknown : known parentOf parent with
    | none =>
      rw [climb_of_known_none hknown]
      exact .top
    | some id =>
      rw [climb_of_known_some hknown] at h ⊢
      exact .step (ih (by omega))

theorem folderDepth_le_iff {id : String} :
    folderDepth id parentOf ≤ maxFolderDepth ↔
      ∃ count ≤ maxFolderDepth, Climbs (above parentOf) (above parentOf id) count := by
  constructor
  · intro h
    exact ⟨_, h, climbs_of_climb (by unfold folderDepth at h; omega)⟩
  · rintro ⟨count, hle, hclimbs⟩
    unfold folderDepth
    rw [climb_of_climbs hclimbs (by omega)]
    exact hle

theorem folderDepth_eq {id : String} {count : Nat}
    (h : Climbs (above parentOf) (above parentOf id) count) (hle : count ≤ maxFolderDepth) :
    folderDepth id parentOf = count :=
  climb_of_climbs h (by omega)

end

/-! ## Collections without cycles -/

namespace Collection

variable (c : Collection)

def IsIn (id containerId : String) : Prop :=
  ∃ folder ∈ c.folders, folder.id = id ∧ Tree.containerOf c.parentOf folder.parent = containerId

/-- Ids are told apart, no folder is inside itself, and none is too deep. -/
structure Arranged : Prop where
  folderIds : (c.folders.map (·.id)).Nodup
  requestIds : (c.requests.map (·.id)).Nodup
  acyclic : ∀ id, ¬ Relation.TransGen c.IsIn id id
  depth : ∀ folder ∈ c.folders, folderDepth folder.id c.parentOf ≤ maxFolderDepth

variable {c}

theorem keys_parentOf (h : (c.folders.map (·.id)).Nodup) :
    (Record.keys (c.folders.map fun folder => (folder.id, folder.parent))).Nodup := by
  unfold Record.keys
  rw [List.map_map]
  exact h

theorem parentOf_read (h : (c.folders.map (·.id)).Nodup) {folder : Item} (hmem : folder ∈ c.folders) :
    c.parentOf.read folder.id = some folder.parent :=
  Record.read_ofEntries_of_mem (keys_parentOf h) (List.mem_map.2 ⟨folder, hmem, rfl⟩)

theorem parentOf_has (c : Collection) (id : String) :
    c.parentOf.has id = true ↔ ∃ folder ∈ c.folders, folder.id = id := by
  unfold parentOf parentMap Record.ofEntries
  rw [Record.has_iff, Record.mem_keys_overlay]
  simp [Record.keys]

theorem above_folder (h : (c.folders.map (·.id)).Nodup) {folder : Item} (hmem : folder ∈ c.folders) :
    above c.parentOf folder.id = known c.parentOf folder.parent := by
  unfold above
  rw [parentOf_read h hmem]
  rfl

theorem above_mem {id next : String} (h : above c.parentOf id = some next) :
    ∃ folder ∈ c.folders, folder.id = next :=
  (parentOf_has c next).1 (Option.filter_eq_some_iff.1 h).2

theorem isIn_above {folder : Item} (hmem : folder ∈ c.folders) :
    c.IsIn folder.id ((above c.parentOf folder.id).getD rootId) := by
  have hhas : c.parentOf.has folder.id = true := (parentOf_has c _).2 ⟨folder, hmem, rfl⟩
  obtain ⟨parent, hread⟩ := Option.isSome_iff_exists.1 hhas
  obtain ⟨other, hother, heq⟩ := List.mem_map.1 (Record.mem_of_read_ofEntries hread)
  obtain ⟨hid, rfl⟩ := Prod.mk.inj heq
  refine ⟨other, hother, hid, ?_⟩
  rw [containerOf_eq, above, hread, Option.join_some]

theorem inside_root {start : Option String} {count : Nat}
    (hclimbs : Climbs (above c.parentOf) start count) :
    ∀ folder ∈ c.folders, start = some folder.id → Relation.TransGen c.IsIn folder.id rootId := by
  induction hclimbs with
  | top => simp
  | @step id count _ ih =>
    rintro folder hmem heq
    obtain rfl := Option.some.inj heq
    have hin := isIn_above hmem
    cases habove : above c.parentOf folder.id with
    | none =>
      rw [habove] at hin
      exact .single hin
    | some next =>
      rw [habove] at hin
      obtain ⟨parent, hparent, rfl⟩ := above_mem habove
      exact .head hin (ih parent hparent habove)

namespace Arranged

theorem climbs (h : c.Arranged) {folder : Item} (hmem : folder ∈ c.folders) :
    ∃ count ≤ maxFolderDepth, Climbs (above c.parentOf) (above c.parentOf folder.id) count :=
  folderDepth_le_iff.1 (h.depth folder hmem)

theorem ne_root (h : c.Arranged) {folder : Item} (hmem : folder ∈ c.folders) : folder.id ≠ rootId := by
  intro hroot
  obtain ⟨count, -, hclimbs⟩ := h.climbs hmem
  have hinside := inside_root (Climbs.step hclimbs) folder hmem rfl
  rw [hroot] at hinside
  exact h.acyclic rootId hinside

theorem root_unknown (h : c.Arranged) : c.parentOf.has rootId = false := by
  rw [Bool.eq_false_iff, ne_eq, parentOf_has]
  rintro ⟨folder, hmem, hroot⟩
  exact h.ne_root hmem hroot

theorem known_getD (h : c.Arranged) (parent : Option String) :
    known c.parentOf (some (parent.getD rootId)) = known c.parentOf parent := by
  cases parent with
  | none => simp [known, Option.filter, h.root_unknown]
  | some id => rfl

theorem holderOf (h : c.Arranged) (kind : RowKind) {item : Item} (hmem : item ∈ c.all kind) :
    c.holderOf kind item = Tree.containerOf c.parentOf item.parent := by
  cases kind with
  | request => rfl
  | folder =>
    have hdepth := h.depth item hmem
    exact if_neg (by omega)

end Arranged

/-- Where no folder is too deep and none is the root, none is inside itself. -/
theorem arranged_of (folderIds : (c.folders.map (·.id)).Nodup)
    (requestIds : (c.requests.map (·.id)).Nodup) (hroot : ∀ folder ∈ c.folders, folder.id ≠ rootId)
    (hdepth : ∀ folder ∈ c.folders, ∃ count ≤ maxFolderDepth,
      Climbs (above c.parentOf) (above c.parentOf folder.id) count) : c.Arranged := by
  refine ⟨folderIds, requestIds, ?_, fun folder hmem => folderDepth_le_iff.2 (hdepth folder hmem)⟩
  -- folders are deeper than what they are in
  let height : String → Nat := fun id => if c.parentOf.has id then folderDepth id c.parentOf + 1 else 0
  have hstep : ∀ {id containerId}, c.IsIn id containerId → height containerId < height id := by
    rintro id containerId ⟨folder, hmem, rfl, rfl⟩
    obtain ⟨count, hle, hclimbs⟩ := hdepth folder hmem
    have hhas : c.parentOf.has folder.id = true := (parentOf_has c _).2 ⟨folder, hmem, rfl⟩
    rw [containerOf_eq, ← above_folder folderIds hmem]
    cases habove : above c.parentOf folder.id with
    | none =>
      have hunknown : ¬ c.parentOf.has rootId = true := by
        rw [parentOf_has]
        rintro ⟨other, hother, heq⟩
        exact hroot other hother heq
      simp [height, hhas, hunknown]
    | some next =>
      have hnext : c.parentOf.has next = true := (Option.filter_eq_some_iff.1 habove).2
      have hself := folderDepth_eq hclimbs hle
      rw [habove] at hclimbs
      cases hclimbs with
      | step hrest =>
        have hdepthNext := folderDepth_eq hrest (by omega)
        simp only [height, hhas, hnext, if_true, Option.getD_some]
        omega
  intro id hcycle
  have hlt : ∀ {other}, Relation.TransGen c.IsIn id other → height other < height id := by
    intro other hpath
    induction hpath with
    | single hin => exact hstep hin
    | tail _ hin ih => exact (hstep hin).trans ih
  exact lt_irrefl _ (hlt hcycle)

end Collection

end Gostman.Tree
