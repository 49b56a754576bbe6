import Gostman.Lib.Record
import Mathlib.Data.List.Induction
/-!
# Records on top of each other

What is read from records that were laid over one another is what the
uppermost of them gives that gives anything.
-/

namespace Gostman.Lib

universe u v

variable {α : Type v}

def uppermost (gives : List (Option α)) : Option α :=
  gives.foldl (fun below given => given.or below) none

theorem foldl_or (gives : List (Option α)) (below : Option α) :
    gives.foldl (fun below given => given.or below) below = (uppermost gives).or below := by
  unfold uppermost
  induction gives generalizing below with
  | nil => rfl
  | cons given rest ih =>
    rw [List.foldl_cons, List.foldl_cons, ih, ih (given.or none), Option.or_assoc]
    simp

@[simp] theorem uppermost_nil : uppermost ([] : List (Option α)) = none := rfl

theorem uppermost_append (below above : List (Option α)) :
    uppermost (below ++ above) = (uppermost above).or (uppermost below) := by
  rw [uppermost, List.foldl_append, foldl_or]
  rfl

@[simp] theorem uppermost_singleton (given : Option α) : uppermost [given] = given := by
  simp [uppermost]

theorem uppermost_cons (given : Option α) (above : List (Option α)) :
    uppermost (given :: above) = (uppermost above).or given := by
  rw [← List.singleton_append, uppermost_append, uppermost_singleton]

theorem uppermost_eq_none_iff {gives : List (Option α)} :
    uppermost gives = none ↔ ∀ given ∈ gives, given = none := by
  induction gives with
  | nil => simp
  | cons given rest ih => rw [uppermost_cons, Option.or_eq_none_iff, ih, List.forall_mem_cons, and_comm]

theorem uppermost_map {β : Type*} (gives : List (Option α)) (f : α → β) :
    uppermost (gives.map (Option.map f)) = (uppermost gives).map f := by
  induction gives with
  | nil => rfl
  | cons given rest ih => rw [List.map_cons, uppermost_cons, uppermost_cons, ih, Option.map_or]

/-- What passes a test at the top is at the top of all that passes. -/
theorem uppermost_filter {gives : List (Option α)} {value : α} {test : α → Bool}
    (h : uppermost gives = some value) (htest : test value = true) :
    uppermost (gives.map (Option.filter test)) = some value := by
  induction gives using List.reverseRecOn with
  | nil => cases h
  | append_singleton below given ih =>
    rw [uppermost_append, uppermost_singleton] at h
    rw [List.map_append, uppermost_append, List.map_singleton, uppermost_singleton]
    cases given with
    | none => exact ih h
    | some top =>
      obtain rfl : top = value := by simpa using h
      simp [Option.filter, htest]

namespace Record

variable {κ : Type u} [DecidableEq κ]

/-- Overlaying entries reads from the last of them first. -/
theorem read_overlay_ofEntries (record : Record κ α) (entries : List (κ × α)) (key : κ) :
    (record.overlay entries).read key = ((ofEntries entries).read key).or (record.read key) := by
  induction entries generalizing record with
  | nil => rfl
  | cons entry rest ih =>
    rw [ofEntries, overlay_cons, overlay_cons, ih, ih (put [] _ _), read_put, read_put]
    rw [Option.or_assoc]
    by_cases hkey : key = entry.1 <;> simp [hkey]

theorem read_foldl_overlay (record : Record κ α) (layers : List (List (κ × α))) (key : κ) :
    (layers.foldl overlay record).read key =
      (uppermost (layers.map fun entries => (ofEntries entries).read key)).or (record.read key) := by
  induction layers generalizing record with
  | nil => rfl
  | cons entries rest ih =>
    rw [List.foldl_cons, ih, List.map_cons, uppermost_cons, read_overlay_ofEntries, Option.or_assoc]

theorem read_ofEntries_of_nodup {record : Record κ α} (h : record.keys.Nodup) (key : κ) :
    (ofEntries record).read key = record.read key := by
  rw [ofEntries_of_nodup record h]

theorem read_ofEntries_cons (entry : κ × α) (rest : List (κ × α)) (key : κ) :
    (ofEntries (entry :: rest)).read key =
      ((ofEntries rest).read key).or (if key = entry.1 then some entry.2 else none) := by
  rw [ofEntries, overlay_cons, read_overlay_ofEntries, read_put]
  rfl

/-- Entries whose values were changed one by one. -/
theorem read_ofEntries_values {β : Type*} (entries : List (κ × α)) (f : α → β) (key : κ) :
    (ofEntries (entries.map fun entry => (entry.1, f entry.2))).read key =
      ((ofEntries entries).read key).map f := by
  induction entries with
  | nil => rfl
  | cons entry rest ih =>
    rw [List.map_cons, read_ofEntries_cons, read_ofEntries_cons, ih, Option.map_or]
    congr 1
    split_ifs <;> rfl

/-- Two lists of entries agree about a key where they do so entry by entry. -/
theorem read_ofEntries_congr {ρ : Type*} {rows : List ρ} {keep keep' : ρ → Bool} {entry entry' : ρ → κ × α}
    {key : κ} (h : ∀ row ∈ rows, if keep row ∧ (entry row).1 = key then keep' row ∧ entry' row = entry row
      else ¬ (keep' row ∧ (entry' row).1 = key)) :
    (ofEntries ((rows.filter keep).map entry)).read key =
      (ofEntries ((rows.filter keep').map entry')).read key := by
  induction rows with
  | nil => rfl
  | cons row rest ih =>
    have hrest := ih fun other hother => h other (List.mem_cons_of_mem _ hother)
    have hcons : ∀ (keep : ρ → Bool) (entry : ρ → κ × α),
        (ofEntries (((row :: rest).filter keep).map entry)).read key =
          ((ofEntries ((rest.filter keep).map entry)).read key).or
            (if keep row ∧ (entry row).1 = key then some (entry row).2 else none) := by
      intro keep entry
      rw [List.filter_cons]
      split_ifs with hkeep hfound hfound
      · rw [List.map_cons, read_ofEntries_cons, if_pos hfound.2.symm]
      · rw [List.map_cons, read_ofEntries_cons, if_neg fun heq => hfound ⟨hkeep, heq.symm⟩]
      · exact absurd hfound.1 hkeep
      · rw [Option.or_none]
    rw [hcons, hcons, hrest]
    have hrow := h row (List.mem_cons_self ..)
    split_ifs at hrow with hfound
    · rw [if_pos hfound, if_pos ⟨hrow.1, hrow.2 ▸ hfound.2⟩, hrow.2]
    · rw [if_neg hfound, if_neg hrow]

end Record

end Gostman.Lib
