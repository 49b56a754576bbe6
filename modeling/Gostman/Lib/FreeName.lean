import Mathlib.Data.List.Nodup
import Mathlib.Data.List.Perm.Subperm
import Mathlib.Data.Finset.Card
/-!
# Searching for a free name

A numbered family of distinct names has a member outside any finite list, and
trying the numbers one after another finds it after at most as many attempts
as the list is long.
-/

namespace Gostman.Lib

universe u

/-- The first number from `start` on that is free, or the number after the
last attempt. -/
def firstFree (free : Nat → Bool) : Nat → Nat → Nat
  | 0, start => start
  | attempts + 1, start =>
      if free start then start else firstFree free attempts (start + 1)

theorem firstFree_eq (free : Nat → Bool) (attempts start : Nat) :
    free (firstFree free attempts start) = true ∨
      firstFree free attempts start = start + attempts ∧
        ∀ k < attempts, free (start + k) = false := by
  induction attempts generalizing start with
  | zero => exact .inr ⟨rfl, by simp⟩
  | succ attempts ih =>
      by_cases h : free start
      · left
        simp [firstFree, h]
      · have hfree : firstFree free (attempts + 1) start = firstFree free attempts (start + 1) := by
          simp [firstFree, h]
        rw [hfree]
        rcases ih (start + 1) with hfound | ⟨heq, hnone⟩
        · exact .inl hfound
        · refine .inr ⟨by omega, fun k hk => ?_⟩
          rcases k with _ | k
          · simpa using h
          · have hk' := hnone k (by omega)
            rwa [show start + 1 + k = start + (k + 1) by omega] at hk'

/-- The search ends at a free number when every number that is not free has
its own name in a list no longer than the attempts. -/
theorem free_firstFree {κ : Type u} {free : Nat → Bool} {name : Nat → κ} {taken : List κ}
    (hinj : Function.Injective name) (htaken : ∀ n, free n = false → name n ∈ taken)
    {attempts : Nat} (hlength : taken.length ≤ attempts) (start : Nat) :
    free (firstFree free attempts start) = true := by
  rcases firstFree_eq free attempts start with hfound | ⟨heq, hnone⟩
  · exact hfound
  · by_contra hnot
    -- every attempt failed, and so did the number after them: too many names
    have hall : ∀ k < attempts + 1, name (start + k) ∈ taken := by
      intro k hk
      apply htaken
      rcases Nat.lt_succ_iff_lt_or_eq.1 hk with hlt | rfl
      · exact hnone k hlt
      · simpa [heq] using hnot
    have hnodup : ((List.range (attempts + 1)).map fun k => name (start + k)).Nodup :=
      List.nodup_range.map fun a b hab => Nat.add_left_cancel (hinj hab)
    have hsub : ((List.range (attempts + 1)).map fun k => name (start + k)) ⊆ taken := by
      intro x hx
      obtain ⟨k, hk, rfl⟩ := List.mem_map.1 hx
      exact hall k (List.mem_range.1 hk)
    have hle := (hnodup.subperm hsub).length_le
    simp only [List.length_map, List.length_range] at hle
    omega

theorem toString_injective : Function.Injective (toString : Nat → String) := by
  intro m n h
  have hdigits : Nat.toDigits 10 m = Nat.toDigits 10 n := by
    have hlists := congrArg String.toList h
    simpa only [Nat.toString_eq_ofList_toDigits, String.toList_ofList] using hlists
  rw [← @Nat.ofDigitChars_ten_toDigits m, hdigits, Nat.ofDigitChars_ten_toDigits]

theorem toString_ne_empty (n : Nat) : toString n ≠ "" := by
  intro h
  have hlists := congrArg String.toList h
  rw [Nat.toString_eq_ofList_toDigits, String.toList_ofList] at hlists
  exact Nat.toDigits_ne_nil hlists

/-- The last character of a number's text is a digit. -/
theorem isDigit_getLast_toString {n : Nat} {c : Char}
    (h : (toString n).toList.getLast? = some c) : c.isDigit = true := by
  rw [Nat.toString_eq_ofList_toDigits, String.toList_ofList] at h
  exact Nat.isDigit_of_mem_toDigits (by omega) (by omega) (List.mem_of_getLast? h)

end Gostman.Lib
