import Mathlib.Data.List.Nodup
import Mathlib.Data.Set.Function
/-!
# Following links

From one item of a finite list to the next, until there is none or it has been
visited already.  What counts as visited is told by a key.
-/

namespace Gostman.Lib

variable {α κ : Type*} [DecidableEq κ]

theorem length_filter_visited {items : List α} {key : α → κ} {visited : List κ} {next : α}
    (hmem : next ∈ items) (hnext : key next ∉ visited) :
    (items.filter (key · ∉ key next :: visited)).length < (items.filter (key · ∉ visited)).length := by
  have hsub : (items.filter (key · ∉ key next :: visited)).Sublist (items.filter (key · ∉ visited)) := by
    apply List.monotone_filter_right
    intro item hitem
    simp only [List.mem_cons, not_or, decide_eq_true_eq] at hitem ⊢
    exact hitem.2
  apply lt_of_le_of_ne hsub.length_le
  intro hlength
  have hin : next ∈ items.filter (key · ∉ visited) := List.mem_filter.2 ⟨hmem, by simpa using hnext⟩
  rw [← hsub.eq_of_length hlength] at hin
  simp at hin

def chase (items : List α) (key : α → κ) (follow : α → Option α)
    (hfollow : ∀ {a next}, follow a = some next → next ∈ items) (visited : List κ) (current : α) : List α :=
  match _hnext : follow current with
  | none => []
  | some next =>
      if _hvisited : key next ∈ visited then []
      else next :: chase items key follow hfollow (key next :: visited) next
termination_by (items.filter (key · ∉ visited)).length
decreasing_by exact length_filter_visited (hfollow _hnext) _hvisited

/-- Two keys that tell the items apart find the same ones. -/
theorem chase_eq [DecidableEq α] {items : List α} {key : α → κ} {follow : α → Option α}
    (hfollow : ∀ {a next}, follow a = some next → next ∈ items) (hkey : Set.InjOn key {a | a ∈ items})
    {visited : List α} (hvisited : ∀ a ∈ visited, a ∈ items) (current : α) :
    chase items key follow hfollow (visited.map key) current =
      chase items id follow hfollow visited current := by
  fun_induction chase items id follow hfollow visited current with
  | case1 visited current hnone => rw [chase, hnone]
  | case2 visited current next hnext hin =>
    rw [chase, hnext]
    exact dif_pos (List.mem_map_of_mem hin)
  | case3 visited current next hnext hnot ih =>
    have hmem := hfollow hnext
    have hfresh : key next ∉ visited.map key := by
      intro hin
      obtain ⟨a, ha, heq⟩ := List.mem_map.1 hin
      exact hnot (hkey (hvisited a ha) hmem heq ▸ ha)
    rw [chase, hnext]
    simp only [hfresh, dite_false]
    rw [← ih]
    · rfl
    · intro a ha
      rcases List.mem_cons.1 ha with rfl | hold
      · exact hmem
      · exact hvisited a hold

end Gostman.Lib
