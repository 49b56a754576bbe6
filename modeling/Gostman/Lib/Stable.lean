import Mathlib.Data.List.Sort
/-!
# Stable sorting

Sorting that keeps the order of equals: it commutes with leaving items out, and
merging two sorted lists sorts the one list after the other.
-/

namespace Gostman.Lib

variable {α : Type*} {le : α → α → Prop} [DecidableRel le]

/-- Before items that all come after it, an item is put first. -/
theorem orderedInsert_of_forall {a : α} {list : List α} (h : ∀ b ∈ list, le a b) :
    list.orderedInsert le a = a :: list := by
  cases list with
  | nil => rfl
  | cons b rest => exact List.orderedInsert_cons_of_le le rest (h b (by simp))

section Merge

variable [IsTrans α le] [Std.Total le]

/-- An item inserted into the first list is inserted into the merged one. -/
theorem orderedInsert_merge (a : α) (first second : List α) :
    (first.merge second (le · ·)).orderedInsert le a =
      (first.orderedInsert le a).merge second (le · ·) := by
  induction first generalizing second with
  | nil =>
    induction second with
    | nil => simp
    | cons b rest ih =>
      rw [List.nil_merge] at ih ⊢
      rw [List.orderedInsert_cons, List.orderedInsert_nil, List.cons_merge_cons]
      by_cases hab : le a b
      · simp [hab]
      · rw [if_neg hab, ih]
        simp [hab]
  | cons x first ih =>
    induction second with
    | nil => simp
    | cons b second ihs =>
      rw [List.cons_merge_cons]
      by_cases hxb : le x b
      · rw [if_pos (by simpa using hxb), List.orderedInsert_cons, List.orderedInsert_cons]
        by_cases hax : le a x
        · rw [if_pos hax, if_pos hax, List.cons_merge_cons,
            if_pos (by simpa using IsTrans.trans _ _ _ hax hxb), List.cons_merge_cons, if_pos (by simpa using hxb)]
        · rw [if_neg hax, if_neg hax, List.cons_merge_cons, if_pos (by simpa using hxb), ih]
      · rw [if_neg (by simpa using hxb), List.orderedInsert_cons]
        by_cases hab : le a b
        · have hax : le a x := IsTrans.trans _ _ _ hab ((Std.Total.total b x).resolve_right hxb)
          rw [if_pos hab, List.orderedInsert_cons, if_pos hax, List.cons_merge_cons,
            if_pos (by simpa using hab), List.cons_merge_cons, if_neg (by simpa using hxb)]
        · rw [if_neg hab, ihs, List.orderedInsert_cons]
          by_cases hax : le a x
          · rw [if_pos hax, List.cons_merge_cons, if_neg (by simpa using hab)]
          · rw [if_neg hax, List.cons_merge_cons, if_neg (by simpa using hxb)]

/-- Two lists sorted and merged are one after the other, sorted. -/
theorem merge_insertionSort (first second : List α) :
    (first.insertionSort le).merge (second.insertionSort le) (le · ·) =
      (first ++ second).insertionSort le := by
  induction first with
  | nil => simp
  | cons a rest ih =>
    rw [List.insertionSort_cons, ← orderedInsert_merge, ih, List.cons_append,
      List.insertionSort_cons]

end Merge

section Filter

theorem filter_orderedInsert_neg {keep : α → Bool} {a : α} (h : keep a = false) (list : List α) :
    (list.orderedInsert le a).filter keep = list.filter keep := by
  induction list with
  | nil => simp [h]
  | cons b rest ih =>
    rw [List.orderedInsert_cons]
    split_ifs
    · simp [h]
    · rw [List.filter_cons, ih, List.filter_cons]

variable [IsTrans α le]

theorem filter_orderedInsert_pos {keep : α → Bool} {a : α} (h : keep a = true) {list : List α}
    (hsorted : list.Pairwise le) :
    (list.orderedInsert le a).filter keep = (list.filter keep).orderedInsert le a := by
  induction list with
  | nil => simp [h]
  | cons b rest ih =>
    rw [List.orderedInsert_cons]
    obtain ⟨hb, hrest⟩ := List.pairwise_cons.1 hsorted
    by_cases hab : le a b
    · have hall : ∀ c ∈ (b :: rest).filter keep, le a c := by
        intro c hc
        rcases List.mem_cons.1 (List.mem_filter.1 hc).1 with rfl | hmem
        · exact hab
        · exact IsTrans.trans _ _ _ hab (hb c hmem)
      rw [if_pos hab, List.filter_cons, if_pos h, orderedInsert_of_forall hall]
    · rw [if_neg hab, List.filter_cons, ih hrest, List.filter_cons]
      by_cases hkeep : keep b
      · rw [if_pos hkeep, if_pos hkeep, List.orderedInsert_cons, if_neg hab]
      · rw [if_neg hkeep, if_neg hkeep]

/-- Leaving items out before sorting or after it is the same. -/
theorem filter_insertionSort [Std.Total le] (keep : α → Bool) (list : List α) :
    (list.insertionSort le).filter keep = (list.filter keep).insertionSort le := by
  induction list with
  | nil => rfl
  | cons a rest ih =>
    rw [List.insertionSort_cons, List.filter_cons]
    by_cases hkeep : keep a
    · rw [filter_orderedInsert_pos hkeep (List.pairwise_insertionSort le rest), ih, if_pos hkeep,
        List.insertionSort_cons]
    · rw [filter_orderedInsert_neg (by simpa using hkeep), ih, if_neg hkeep]

end Filter

end Gostman.Lib
