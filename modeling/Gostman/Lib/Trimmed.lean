import Mathlib.Data.List.DropRight
/-!
# Trimming

A list without the items of a kind at its two ends.
-/

namespace Gostman.Lib

variable {α : Type*} {p q : α → Bool}

def trimmed (p : α → Bool) (items : List α) : List α :=
  (items.dropWhile p).rdropWhile p

@[simp] theorem trimmed_nil : trimmed p [] = [] := rfl

theorem rdropWhile_append_cons {c : α} (h : p c = false) (front rest : List α) :
    (front ++ c :: rest).rdropWhile p = front ++ c :: rest.rdropWhile p := by
  induction rest using List.reverseRecOn with
  | nil =>
    rw [List.rdropWhile_concat_neg p front c (by rw [h]; exact Bool.false_ne_true)]
    simp
  | append_singleton rest last ih =>
    have happend : front ++ c :: (rest ++ [last]) = front ++ c :: rest ++ [last] := by simp
    rw [happend]
    by_cases hlast : p last = true
    · rw [List.rdropWhile_concat_pos p _ last hlast, List.rdropWhile_concat_pos p _ last hlast, ih]
    · rw [List.rdropWhile_concat_neg p _ last hlast, List.rdropWhile_concat_neg p _ last hlast]
      simp

theorem rdropWhile_cons {c : α} (h : p c = false) (rest : List α) :
    (c :: rest).rdropWhile p = c :: rest.rdropWhile p :=
  rdropWhile_append_cons h [] rest

theorem rdropWhile_append {rest : List α} (h : ∃ c ∈ rest, p c = false) (front : List α) :
    (front ++ rest).rdropWhile p = front ++ rest.rdropWhile p := by
  obtain ⟨c, hmem, hc⟩ := h
  obtain ⟨before, after, rfl⟩ := List.append_of_mem hmem
  rw [rdropWhile_append_cons hc, ← List.append_assoc, rdropWhile_append_cons hc, List.append_assoc]

theorem trimmed_cons {c : α} (h : p c = false) (rest : List α) :
    trimmed p (c :: rest) = c :: rest.rdropWhile p := by
  unfold trimmed
  rw [List.dropWhile_cons_of_neg (by rw [h]; exact Bool.false_ne_true), rdropWhile_cons h]

theorem trimmed_cons_of_pos {c : α} (h : p c = true) (rest : List α) :
    trimmed p (c :: rest) = trimmed p rest := by
  unfold trimmed
  rw [List.dropWhile_cons_of_pos h]

theorem trimmed_concat {c : α} (h : p c = true) (items : List α) :
    trimmed p (items ++ [c]) = trimmed p items := by
  induction items with
  | nil => rw [List.nil_append, trimmed_cons_of_pos h]
  | cons first rest ih =>
    rw [List.cons_append]
    by_cases hfirst : p first = true
    · rw [trimmed_cons_of_pos hfirst, trimmed_cons_of_pos hfirst, ih]
    · rw [trimmed_cons (Bool.not_eq_true _ ▸ hfirst), trimmed_cons (Bool.not_eq_true _ ▸ hfirst),
        List.rdropWhile_concat_pos p _ c h]

/-- What is cut at the end before makes no difference. -/
theorem trimmed_rdropWhile (h : ∀ c, q c = true → p c = true) (items : List α) :
    trimmed p (items.rdropWhile q) = trimmed p items := by
  induction items using List.reverseRecOn with
  | nil => simp
  | append_singleton rest last ih =>
    by_cases hlast : q last = true
    · rw [List.rdropWhile_concat_pos q _ last hlast, ih, trimmed_concat (h last hlast)]
    · rw [List.rdropWhile_concat_neg q _ last hlast]

theorem trimmed_eq_nil_iff {items : List α} : trimmed p items = [] ↔ ∀ c ∈ items, p c = true := by
  induction items with
  | nil => simp
  | cons first rest ih =>
    by_cases hfirst : p first = true
    · rw [trimmed_cons_of_pos hfirst, ih]
      simp [hfirst]
    · rw [trimmed_cons (Bool.not_eq_true _ ▸ hfirst)]
      simp [hfirst]

theorem head_of_trimmed {items rest : List α} {c : α} (h : trimmed p items = c :: rest) : p c = false := by
  induction items with
  | nil => cases h
  | cons first others ih =>
    by_cases hfirst : p first = true
    · rw [trimmed_cons_of_pos hfirst] at h
      exact ih h
    · rw [trimmed_cons (Bool.not_eq_true _ ▸ hfirst)] at h
      rw [← (List.cons.inj h).1]
      exact Bool.not_eq_true _ ▸ hfirst

theorem trimmed_trimmed (items : List α) : trimmed p (trimmed p items) = trimmed p items := by
  cases h : trimmed p items with
  | nil => rfl
  | cons c rest =>
    have hhead := head_of_trimmed h
    have hends : (c :: rest).rdropWhile p = c :: rest := by
      rw [← h]
      exact List.rdropWhile_idempotent p (items.dropWhile p)
    rw [trimmed_cons hhead, ← rdropWhile_cons hhead, hends]

theorem mem_of_mem_trimmed {items : List α} {c : α} (h : c ∈ trimmed p items) : c ∈ items :=
  (List.dropWhile_sublist _).mem ((List.rdropWhile_prefix _ _).subset h)

theorem last_of_trimmed {init : List α} {last : α} (h : trimmed p (init ++ [last]) = init ++ [last]) : p last = false := by
  by_contra hpos
  have hshorter := trimmed_concat (Bool.not_eq_false _ ▸ hpos) init
  rw [h] at hshorter
  have hlength : (trimmed p init).length ≤ init.length :=
    ((List.rdropWhile_prefix _ _).length_le).trans (List.dropWhile_sublist _).length_le
  rw [← hshorter, List.length_append, List.length_singleton] at hlength
  omega

/-- Such items around a list make no difference. -/
theorem trimmed_between {before after : List α} (hbefore : ∀ c ∈ before, p c = true) (hafter : ∀ c ∈ after, p c = true)
    (items : List α) : trimmed p (before ++ items ++ after) = trimmed p items := by
  induction before with
  | nil =>
    rw [List.nil_append]
    induction after using List.reverseRecOn with
    | nil => rw [List.append_nil]
    | append_singleton after last ih =>
      rw [← List.append_assoc, trimmed_concat (hafter last (by simp)), ih fun c hc => hafter c (by simp [hc])]
  | cons first before ih =>
    rw [List.cons_append, List.cons_append, trimmed_cons_of_pos (hbefore first (by simp))]
    exact ih fun c hc => hbefore c (by simp [hc])

/-- A list is what is trimmed, with such items around it. -/
theorem trimmed_around (p : α → Bool) (items : List α) :
    ∃ before after, items = before ++ trimmed p items ++ after ∧ (∀ c ∈ before, p c = true) ∧ ∀ c ∈ after, p c = true := by
  refine ⟨items.takeWhile p, (items.dropWhile p).rtakeWhile p, ?_, ?_, ?_⟩
  · rw [trimmed, List.append_assoc, List.rdropWhile_append_rtakeWhile, List.takeWhile_append_dropWhile]
  · intro c hc
    exact List.mem_takeWhile_imp hc
  · intro c hc
    exact List.mem_rtakeWhile_imp hc

/-- A text that stays as it is begins and ends with no such item. -/
theorem trimmed_append {front rest : List α} (hfront : trimmed p front = front) (hne : front ≠ []) :
    trimmed p (front ++ rest) = front ++ rest.rdropWhile p := by
  obtain ⟨init, last, rfl⟩ : ∃ init last, front = init ++ [last] :=
    ⟨front.dropLast, front.getLast hne, (List.dropLast_append_getLast hne).symm⟩
  have hlast : p last = false := last_of_trimmed hfront
  have happend : init ++ [last] ++ rest = init ++ last :: rest := by simp
  cases init with
  | nil =>
    rw [List.nil_append, List.singleton_append, trimmed_cons hlast, List.singleton_append]
  | cons first others =>
    have hfirst : p first = false := head_of_trimmed hfront
    rw [happend, List.cons_append, trimmed_cons hfirst, rdropWhile_append_cons hlast]
    simp

end Gostman.Lib
