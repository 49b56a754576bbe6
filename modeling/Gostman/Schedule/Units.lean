import Gostman.Schedule.Model
import Mathlib.Data.List.GetD
import Mathlib.Data.List.Nodup
import Mathlib.Data.List.Range
/-!
# The units of a run

Each iteration has the same units, and their positions are those of the list
of all units cut into pieces of one length.
-/

namespace Gostman.Schedule

open Gostman.Lib

def cuts (requests : Nat) (parallel : Int) : List (List Nat) :=
  if parallel ≤ 1 then [List.range requests] else (List.range requests).map ([·])

theorem foldl_addUnit (iteration : Nat) (cut : List (List Nat)) (planned : List WorkUnit × List (List Nat)) :
    cut.foldl (fun planned indexes => addUnit planned iteration indexes) planned =
      (planned.1 ++ cut.map (⟨iteration, ·⟩),
        planned.2.modify iteration (· ++ List.range' planned.1.length cut.length)) := by
  induction cut generalizing planned with
  | nil =>
    have hsame : (fun wave : List Nat => wave ++ List.range' planned.1.length 0) = id := by
      funext wave
      exact List.append_nil wave
    rw [List.foldl_nil, List.map_nil, List.append_nil, List.length_nil, hsame, List.modify_id]
  | cons indexes rest ih =>
    rw [List.foldl_cons, ih]
    simp only [addUnit, List.map_cons, List.length_append, List.length_cons, List.length_nil,
      List.append_assoc, List.singleton_append, List.range'_succ]
    refine Prod.ext rfl ?_
    simp only
    rw [List.modify_modify_eq]
    congr 1
    funext wave
    simp

theorem planUnits_eq_foldl (iterations requests : Nat) (parallel : Int) :
    planUnits iterations requests parallel =
      (List.range iterations).foldl
        (fun planned iteration =>
          (cuts requests parallel).foldl (fun planned indexes => addUnit planned iteration indexes) planned)
        ([], List.replicate iterations []) := by
  unfold planUnits cuts
  congr 1
  funext planned iteration
  split_ifs
  · rfl
  · rw [List.foldl_map]

def positions (size iteration : Nat) : List Nat :=
  List.range' (iteration * size) size

theorem foldl_iterations (iterations : Nat) (cut : List (List Nat)) {count : Nat} (h : count ≤ iterations) :
    (List.range count).foldl
        (fun planned iteration =>
          cut.foldl (fun planned indexes => addUnit planned iteration indexes) planned)
        ([], List.replicate iterations []) =
      ((List.range count).flatMap (fun iteration => cut.map (⟨iteration, ·⟩)),
        (List.range iterations).map fun iteration =>
          if iteration < count then positions cut.length iteration else []) := by
  induction count with
  | zero => simp [List.map_const']
  | succ count ih =>
    rw [List.range_succ, List.foldl_append, ih (by omega), List.foldl_cons, List.foldl_nil,
      foldl_addUnit, List.flatMap_append, List.flatMap_singleton]
    refine Prod.ext rfl ?_
    have hlength : ((List.range count).flatMap
        (fun iteration => cut.map (⟨iteration, ·⟩) : Nat → List WorkUnit)).length = count * cut.length := by
      simp [List.length_flatMap]
    rw [hlength]
    apply List.ext_getElem
    · simp
    · intro index hleft hright
      simp only [List.length_modify, List.length_map, List.length_range] at hleft
      rw [List.getElem_modify]
      simp only [List.getElem_map, List.getElem_range]
      by_cases heq : count = index
      · subst heq
        simp [positions]
      · rw [if_neg heq]
        by_cases hlt : index < count
        · rw [if_pos hlt, if_pos (by omega)]
        · rw [if_neg hlt, if_neg (by omega)]

namespace Setting

variable {ρ : Type} (setting : Setting ρ)

/-- The indexes of the units of one iteration of the run. -/
def cut : List (List Nat) :=
  cuts setting.requests.length setting.options.parallel

theorem units_eq : setting.units =
    (List.range setting.options.iterationCount).flatMap fun iteration => setting.cut.map (⟨iteration, ·⟩) := by
  unfold units
  rw [planUnits_eq_foldl, foldl_iterations _ _ le_rfl]
  rfl

theorem waves_eq : setting.waves =
    (List.range setting.options.iterationCount).map (positions setting.cut.length) := by
  unfold waves
  rw [planUnits_eq_foldl, foldl_iterations _ _ le_rfl]
  apply List.map_congr_left
  intro iteration hmem
  rw [if_pos (List.mem_range.1 hmem)]
  rfl

theorem waves_length : setting.waves.length = setting.options.iterationCount := by
  rw [waves_eq]
  simp

theorem wave_eq {iteration : Nat} {wave : List Nat} (h : setting.waves[iteration]? = some wave) :
    iteration < setting.options.iterationCount ∧ wave = positions setting.cut.length iteration := by
  rw [waves_eq] at h
  obtain ⟨hlt, hget⟩ := List.getElem?_eq_some_iff.1 h
  simp only [List.length_map, List.length_range] at hlt
  simp only [List.getElem_map, List.getElem_range] at hget
  exact ⟨hlt, hget.symm⟩

end Setting

theorem mem_positions {size iteration position : Nat} :
    position ∈ positions size iteration ↔ iteration * size ≤ position ∧ position < (iteration + 1) * size := by
  unfold positions
  rw [List.mem_range'_1, Nat.add_mul, Nat.one_mul]

theorem positions_nodup (size iteration : Nat) : (positions size iteration).Nodup :=
  List.nodup_range'

namespace Setting

variable {ρ : Type} (setting : Setting ρ)

theorem unitAt_eq {iteration offset : Nat} (hiteration : iteration < setting.options.iterationCount)
    (hoffset : offset < setting.cut.length) :
    setting.unitAt (iteration * setting.cut.length + offset) =
      ⟨iteration, setting.cut.getD offset []⟩ := by
  unfold unitAt
  rw [units_eq]
  generalize setting.options.iterationCount = count at hiteration
  induction count with
  | zero => omega
  | succ count ih =>
    rw [List.range_succ, List.flatMap_append, List.flatMap_singleton]
    have hlength : ((List.range count).flatMap
        (fun iteration => setting.cut.map (⟨iteration, ·⟩) : Nat → List WorkUnit)).length =
          count * setting.cut.length := by
      simp [List.length_flatMap]
    by_cases hlt : iteration < count
    · have hbound : iteration * setting.cut.length + offset < count * setting.cut.length := by
        calc iteration * setting.cut.length + offset
            < iteration * setting.cut.length + setting.cut.length := by omega
          _ = (iteration + 1) * setting.cut.length := by rw [Nat.add_mul, Nat.one_mul]
          _ ≤ count * setting.cut.length := Nat.mul_le_mul_right _ hlt
      rw [List.getD_append _ _ _ _ (by rw [hlength]; exact hbound)]
      exact ih hlt
    · obtain rfl : iteration = count := by omega
      rw [List.getD_append_right _ _ _ _ (by rw [hlength]; omega), hlength, Nat.add_sub_cancel_left]
      simp [hoffset]

theorem unitAt_of_mem {iteration position : Nat} (hiteration : iteration < setting.options.iterationCount)
    (h : position ∈ positions setting.cut.length iteration) :
    setting.unitAt position =
      ⟨iteration, setting.cut.getD (position - iteration * setting.cut.length) []⟩ := by
  obtain ⟨hle, hlt⟩ := mem_positions.1 h
  rw [Nat.add_mul, Nat.one_mul] at hlt
  have hunit := setting.unitAt_eq hiteration
    (show position - iteration * setting.cut.length < setting.cut.length by omega)
  rwa [Nat.add_sub_cancel' hle] at hunit

theorem iteration_of_mem {iteration position : Nat} (hiteration : iteration < setting.options.iterationCount)
    (h : position ∈ positions setting.cut.length iteration) :
    (setting.unitAt position).iteration = iteration := by
  rw [setting.unitAt_of_mem hiteration h]

theorem units_length : setting.units.length = setting.options.iterationCount * setting.cut.length := by
  rw [units_eq]
  simp [List.length_flatMap]

end Setting

end Gostman.Schedule
