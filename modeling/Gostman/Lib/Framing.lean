import Mathlib.Data.List.Basic
/-!
# Cutting a stream into items

Items are cut off the front of what has been received, and what does not yet
hold a whole item waits for more.  When an item that can be cut off does not
depend on what follows it, the pieces in which the stream arrives make no
difference.
-/

namespace Gostman.Lib

universe u v

/-- A way to cut an item off the front, which more at the end does not change. -/
structure Framing (α : Type u) (β : Type v) where
  cut : List α → Option (β × List α)
  shorter : ∀ {stream item rest}, cut stream = some (item, rest) → rest.length < stream.length
  stable : ∀ {stream item rest}, cut stream = some (item, rest) → ∀ more, cut (stream ++ more) = some (item, rest ++ more)

namespace Framing

variable {α : Type u} {β : Type v} (framing : Framing α β)

def split (stream : List α) : List β × List α :=
  match _h : framing.cut stream with
  | none => ([], stream)
  | some (item, rest) => (item :: (split rest).1, (split rest).2)
termination_by stream.length
decreasing_by exact framing.shorter _h

/-- The pieces one after the other: each is put behind what was left. -/
def feed (buffer : List α) : List (List α) → List β × List α
  | [] => ([], buffer)
  | piece :: pieces =>
      ((framing.split (buffer ++ piece)).1 ++ (feed (framing.split (buffer ++ piece)).2 pieces).1,
        (feed (framing.split (buffer ++ piece)).2 pieces).2)

variable {framing}

theorem split_of_cut {stream rest : List α} {item : β} (h : framing.cut stream = some (item, rest)) :
    framing.split stream = (item :: (framing.split rest).1, (framing.split rest).2) := by
  rw [Framing.split.eq_def]
  split
  · next hnone => rw [h] at hnone; cases hnone
  · next found left hsome =>
      rw [h, Option.some.injEq, Prod.mk.injEq] at hsome
      rw [hsome.1, hsome.2]

theorem split_of_none {stream : List α} (h : framing.cut stream = none) : framing.split stream = ([], stream) := by
  rw [Framing.split.eq_def]
  split
  · rfl
  · next found left hsome => rw [h] at hsome; cases hsome

theorem split_nil : framing.split ([] : List α) = ([], []) := by
  cases h : framing.cut [] with
  | none => exact split_of_none h
  | some found => exact absurd (framing.shorter h) (Nat.not_lt_zero _)

/-- More at the end is split behind what was left. -/
theorem split_append (stream more : List α) :
    framing.split (stream ++ more) =
      ((framing.split stream).1 ++ (framing.split ((framing.split stream).2 ++ more)).1,
        (framing.split ((framing.split stream).2 ++ more)).2) := by
  cases h : framing.cut stream with
  | none => rw [split_of_none h, List.nil_append]
  | some found =>
      obtain ⟨item, rest⟩ := found
      have hshorter := framing.shorter h
      rw [split_of_cut (framing.stable h more), split_of_cut h, split_append rest more]
      rfl
termination_by stream.length

theorem split_rest (stream : List α) : framing.split (framing.split stream).2 = ([], (framing.split stream).2) := by
  cases h : framing.cut stream with
  | none => rw [split_of_none h, split_of_none h]
  | some found =>
      obtain ⟨item, rest⟩ := found
      have hshorter := framing.shorter h
      rw [split_of_cut h, split_rest rest]
termination_by stream.length

/-- The pieces a stream arrives in make no difference. -/
theorem feed_eq_split {buffer : List α} (hbuffer : framing.split buffer = ([], buffer)) (pieces : List (List α)) :
    framing.feed buffer pieces = framing.split (buffer ++ pieces.flatten) := by
  induction pieces generalizing buffer with
  | nil => rw [feed, List.flatten_nil, List.append_nil, hbuffer]
  | cons piece pieces ih =>
      rw [feed, ih (split_rest _), List.flatten_cons, ← List.append_assoc, split_append (buffer ++ piece)]

/-- Items that are written so that each is cut off again are all split off. -/
theorem split_written {γ : Type*} {write : γ → List α} {read : γ → β} {items : List γ}
    (h : ∀ item ∈ items, ∀ rest, framing.cut (write item ++ rest) = some (read item, rest)) :
    framing.split (items.flatMap write) = (items.map read, []) := by
  induction items with
  | nil => exact split_nil
  | cons item items ih =>
      rw [List.flatMap_cons, split_of_cut (h item List.mem_cons_self _),
        ih fun other hmem => h other (List.mem_cons_of_mem _ hmem), List.map_cons]

end Framing

end Gostman.Lib
