import Mathlib.Data.List.Basic
/-!
# Texts with gaps

Whether a text is made of given literals, one behind the other, with something
before each of them.  Taking the first occurrence of each literal and the last
one at the end misses no way to do so.
-/

namespace Gostman.Lib

variable {α : Type*} [DecidableEq α]

def firstAt (literal : List α) : List α → Option Nat
  | [] => if literal = [] then some 0 else none
  | a :: rest =>
      if literal.isPrefixOf (a :: rest) then some 0 else (firstAt literal rest).map (· + 1)

theorem firstAt_spec {literal text : List α} {place : Nat} (h : firstAt literal text = some place) :
    ∃ front behind, text = front ++ (literal ++ behind) ∧ front.length = place := by
  induction text generalizing place with
  | nil =>
    unfold firstAt at h
    split_ifs at h with hnil
    cases h
    exact ⟨[], [], by rw [hnil]; rfl, rfl⟩
  | cons a rest ih =>
    unfold firstAt at h
    split_ifs at h with hhere
    · cases h
      obtain ⟨behind, hbehind⟩ := List.isPrefixOf_iff_prefix.1 hhere
      exact ⟨[], behind, hbehind.symm, rfl⟩
    · obtain ⟨inner, hinner, rfl⟩ := Option.map_eq_some_iff.1 h
      obtain ⟨front, behind, rfl, rfl⟩ := ih hinner
      exact ⟨a :: front, behind, rfl, rfl⟩

theorem firstAt_le (literal front behind : List α) :
    ∃ place, firstAt literal (front ++ (literal ++ behind)) = some place ∧ place ≤ front.length := by
  induction front with
  | nil =>
    refine ⟨0, ?_, Nat.le_refl 0⟩
    rw [List.nil_append]
    cases hwhole : literal ++ behind with
    | nil =>
      rw [firstAt, if_pos (List.append_eq_nil_iff.1 hwhole).1]
    | cons a rest =>
      rw [firstAt, if_pos]
      rw [← hwhole]
      exact List.isPrefixOf_iff_prefix.2 (List.prefix_append _ _)
  | cons a front ih =>
    obtain ⟨place, hplace, hle⟩ := ih
    rw [List.cons_append, firstAt, hplace]
    split_ifs with hhere
    · exact ⟨0, rfl, Nat.zero_le _⟩
    · exact ⟨place + 1, rfl, Nat.succ_le_succ hle⟩

theorem firstAt_append_self (literal behind : List α) : firstAt literal (literal ++ behind) = some 0 := by
  obtain ⟨place, hplace, hle⟩ := firstAt_le literal [] behind
  rw [List.nil_append] at hplace
  rw [hplace, Nat.le_zero.1 hle]

/-- What stands behind an occurrence does not change whether it is the first one. -/
theorem firstAt_behind_iff {literal front : List α} (behind : List α) :
    firstAt literal (front ++ (literal ++ behind)) = some front.length ↔
      firstAt literal (front ++ literal) = some front.length := by
  induction front with
  | nil =>
    have hself := firstAt_append_self literal []
    rw [List.append_nil] at hself
    simp only [List.nil_append, List.length_nil, firstAt_append_self, hself]
  | cons a front ih =>
    have hprefix : literal.isPrefixOf (a :: (front ++ (literal ++ behind))) = literal.isPrefixOf (a :: (front ++ literal)) := by
      rw [Bool.eq_iff_iff, List.isPrefixOf_iff_prefix, List.isPrefixOf_iff_prefix, ← List.append_assoc,
        ← List.cons_append]
      constructor
      · intro hlong
        apply List.prefix_of_prefix_length_le hlong (List.prefix_append _ _)
        rw [List.length_cons, List.length_append]
        omega
      · exact fun hshort => hshort.trans (List.prefix_append _ _)
    rw [List.cons_append, List.cons_append, firstAt, firstAt, hprefix]
    split_ifs with hhere
    · rfl
    · rw [List.length_cons]
      simp only [Option.map_eq_some_iff, Nat.add_right_cancel_iff, exists_eq_right, ih]

/-- The text is made of the literals, each after something that is not empty. -/
def Spaced : List (List α) → List α → Prop
  | [], text => text = []
  | literal :: rest, text =>
      ∃ value behind, value ≠ [] ∧ text = value ++ (literal ++ behind) ∧ Spaced rest behind

omit [DecidableEq α] in
theorem Spaced.ne_nil {literal : List α} {rest : List (List α)} {text : List α} (h : Spaced (literal :: rest) text) :
    text ≠ [] := by
  obtain ⟨value, behind, hvalue, rfl, -⟩ := h
  exact fun hnil => hvalue (List.append_eq_nil_iff.1 hnil).1

omit [DecidableEq α] in
/-- More text in front belongs to the first gap. -/
theorem Spaced.append {literal : List α} {rest : List (List α)} {text : List α} (h : Spaced (literal :: rest) text)
    (front : List α) : Spaced (literal :: rest) (front ++ text) := by
  obtain ⟨value, behind, hvalue, rfl, hrest⟩ := h
  refine ⟨front ++ value, behind, ?_, (List.append_assoc _ _ _).symm, hrest⟩
  exact fun hnil => hvalue (List.append_eq_nil_iff.1 hnil).2

omit [DecidableEq α] in
theorem spaced_singleton_iff {literal text : List α} :
    Spaced [literal] text ↔ literal.length < text.length ∧ literal <:+ text := by
  constructor
  · rintro ⟨value, behind, hvalue, rfl, rfl⟩
    have hpos := List.length_pos_iff.2 hvalue
    rw [List.append_nil, List.length_append]
    exact ⟨by omega, List.suffix_append _ _⟩
  · rintro ⟨hlength, value, rfl⟩
    refine ⟨value, [], ?_, by rw [List.append_nil], rfl⟩
    rintro rfl
    rw [List.nil_append] at hlength
    omega

/-- The first occurrence of the first literal leaves the most for the others. -/
theorem spaced_cons_iff {literal next : List α} {rest : List (List α)} {text : List α} :
    Spaced (literal :: next :: rest) text ↔
      ∃ place, firstAt literal (text.drop 1) = some place ∧
        Spaced (next :: rest) (text.drop (1 + place + literal.length)) := by
  constructor
  · rintro ⟨value, behind, hvalue, rfl, hrest⟩
    obtain ⟨a, front, rfl⟩ := List.exists_cons_of_ne_nil hvalue
    obtain ⟨place, hplace, hle⟩ := firstAt_le literal front behind
    refine ⟨place, hplace, ?_⟩
    have hsplit : (a :: front ++ (literal ++ behind)).drop (1 + place + literal.length) =
        ((a :: front ++ literal).drop (1 + place + literal.length)) ++ behind := by
      rw [← List.append_assoc, List.drop_append_of_le_length]
      rw [List.length_append, List.length_cons]
      omega
    rw [hsplit]
    exact hrest.append _
  · rintro ⟨place, hplace, hrest⟩
    obtain ⟨front, behind, htext, rfl⟩ := firstAt_spec hplace
    cases text with
    | nil =>
      rw [List.drop_nil] at hrest
      exact absurd rfl hrest.ne_nil
    | cons a text =>
      rw [List.drop_succ_cons, List.drop_zero] at htext
      subst htext
      refine ⟨a :: front, behind, List.cons_ne_nil _ _, rfl, ?_⟩
      have hdrop : (a :: (front ++ (literal ++ behind))).drop (1 + front.length + literal.length) = behind := by
        have hlength : 1 + front.length + literal.length = (a :: front ++ literal).length := by
          rw [List.length_append, List.length_cons]
          omega
        rw [hlength, ← List.cons_append, ← List.append_assoc, List.drop_left]
      rw [hdrop] at hrest
      exact hrest

end Gostman.Lib
