import Mathlib.Data.List.Basic
import Mathlib.Order.Bounds.Basic
import Mathlib.Order.MinMax
/-!
# Longest common sublists

How long a list can be that stands in two lists at once, in the order of both.
-/

namespace Gostman.Lib

variable {α : Type*}

def commonLengths (a b : List α) : Set Nat :=
  {n | ∃ c : List α, c.Sublist a ∧ c.Sublist b ∧ c.length = n}

theorem commonLengths_reverse (a b : List α) : commonLengths a.reverse b.reverse = commonLengths a b := by
  ext n
  constructor
  · intro h
    obtain ⟨c, ha, hb, hn⟩ := h
    exact ⟨c.reverse, List.reverse_sublist.1 (by simpa using ha), List.reverse_sublist.1 (by simpa using hb), by simpa using hn⟩
  · intro h
    obtain ⟨c, ha, hb, hn⟩ := h
    exact ⟨c.reverse, ha.reverse, hb.reverse, by simpa using hn⟩

theorem isGreatest_nil_left (b : List α) : IsGreatest (commonLengths [] b) 0 := by
  constructor
  · exact ⟨[], List.nil_sublist [], List.nil_sublist b, rfl⟩
  · intro n h
    obtain ⟨c, hc, -, rfl⟩ := h
    rw [List.sublist_nil.1 hc]
    exact le_rfl

theorem isGreatest_nil_right (a : List α) : IsGreatest (commonLengths a []) 0 := by
  constructor
  · exact ⟨[], List.nil_sublist a, List.nil_sublist [], rfl⟩
  · intro n h
    obtain ⟨c, -, hc, rfl⟩ := h
    rw [List.sublist_nil.1 hc]
    exact le_rfl

/-- An item both begin with belongs to a longest one. -/
theorem isGreatest_cons_same {a b : List α} {n : Nat} (x : α) (h : IsGreatest (commonLengths a b) n) :
    IsGreatest (commonLengths (x :: a) (x :: b)) (n + 1) := by
  constructor
  · obtain ⟨c, ha, hb, hn⟩ := h.1
    exact ⟨x :: c, ha.cons_cons x, hb.cons_cons x, by simp [hn]⟩
  · intro m hm
    obtain ⟨c, ha, hb, rfl⟩ := hm
    have htail : c.length - 1 ≤ n := h.2 ⟨c.tail, ha.tail, hb.tail, List.length_tail⟩
    omega

/-- Where the first items differ, one of the two is in no common list. -/
theorem sublist_of_cons_ne {a b c : List α} {x y : α} (hxy : x ≠ y) (ha : c.Sublist (x :: a))
    (hb : c.Sublist (y :: b)) : c.Sublist a ∨ c.Sublist b := by
  cases ha with
  | cons _ hrest => exact .inl hrest
  | cons_cons _ hrest =>
      cases hb with
      | cons _ hother => exact .inr hother
      | cons_cons _ _ => exact absurd rfl hxy

theorem isGreatest_cons_ne {a b : List α} {x y : α} {n m : Nat} (hxy : x ≠ y)
    (hleft : IsGreatest (commonLengths a (y :: b)) n) (hright : IsGreatest (commonLengths (x :: a) b) m) :
    IsGreatest (commonLengths (x :: a) (y :: b)) (max n m) := by
  constructor
  · rcases max_choice n m with hmax | hmax
    · rw [hmax]
      obtain ⟨c, ha, hb, hn⟩ := hleft.1
      exact ⟨c, ha.cons x, hb, hn⟩
    · rw [hmax]
      obtain ⟨c, ha, hb, hn⟩ := hright.1
      exact ⟨c, ha, hb.cons y, hn⟩
  · intro k hk
    obtain ⟨c, ha, hb, rfl⟩ := hk
    rcases sublist_of_cons_ne hxy ha hb with hshort | hshort
    · exact le_max_of_le_left (hleft.2 ⟨c, hshort, hb, rfl⟩)
    · exact le_max_of_le_right (hright.2 ⟨c, ha, hshort, rfl⟩)

section Computed

variable [DecidableEq α]

def commonLength : List α → List α → Nat
  | [], _ => 0
  | _ :: _, [] => 0
  | x :: a, y :: b => if x = y then commonLength a b + 1 else max (commonLength a (y :: b)) (commonLength (x :: a) b)
termination_by a b => a.length + b.length

@[simp] theorem commonLength_nil_left (b : List α) : commonLength [] b = 0 := by
  rw [commonLength]

@[simp] theorem commonLength_nil_right (a : List α) : commonLength a [] = 0 := by
  cases a <;> rw [commonLength]

theorem commonLength_cons_cons (x y : α) (a b : List α) :
    commonLength (x :: a) (y :: b) =
      if x = y then commonLength a b + 1 else max (commonLength a (y :: b)) (commonLength (x :: a) b) := by
  rw [commonLength]

theorem commonLength_isGreatest (a b : List α) : IsGreatest (commonLengths a b) (commonLength a b) := by
  fun_induction commonLength a b with
  | case1 b => exact isGreatest_nil_left b
  | case2 x a => exact isGreatest_nil_right (x :: a)
  | case3 a x b ih => exact isGreatest_cons_same x ih
  | case4 x a y b hxy ihleft ihright => exact isGreatest_cons_ne hxy ihleft ihright

theorem commonLength_reverse (a b : List α) : commonLength a.reverse b.reverse = commonLength a b := by
  have h := commonLength_isGreatest a.reverse b.reverse
  rw [commonLengths_reverse] at h
  exact h.unique (commonLength_isGreatest a b)

theorem commonLength_append_left (lead a b : List α) :
    commonLength (lead ++ a) (lead ++ b) = lead.length + commonLength a b := by
  induction lead with
  | nil => simp
  | cons x lead ih =>
      rw [List.cons_append, List.cons_append, commonLength_cons_cons, if_pos rfl, ih, List.length_cons]
      omega

theorem commonLength_append_right (a b last : List α) :
    commonLength (a ++ last) (b ++ last) = commonLength a b + last.length := by
  rw [← commonLength_reverse, List.reverse_append, List.reverse_append, commonLength_append_left,
    commonLength_reverse, List.length_reverse, Nat.add_comm]

end Computed

end Gostman.Lib
