import Mathlib.Data.List.Basic
import Mathlib.Data.List.TakeDrop
/-!
# Pieces of a text that are replaced

Spans are sorted by their starts and those that overlap are made one.  The
spans that are left stand apart, and every span lies in one of them.
-/

namespace Gostman.Lib

variable {α L : Type*}

/-- A piece of a text, how wide a match it comes from, and its label. -/
structure Span (L : Type*) where
  start : Nat
  stop : Nat
  width : Nat
  label : L

def Span.Within (inner outer : Span L) : Prop :=
  outer.start ≤ inner.start ∧ inner.stop ≤ outer.stop

/-- A span that is extended by the next one; the wider match names it. -/
def Span.grow (last next : Span L) : Span L :=
  { last with
    stop := max last.stop next.stop
    width := if next.width > last.width then next.width else last.width
    label := if next.width > last.width then next.label else last.label }

/-- The next span is one of its own or extends the last one. -/
def addSpan (merged : List (Span L)) (next : Span L) : List (Span L) :=
  match merged.getLast? with
  | none => merged ++ [next]
  | some last =>
      if next.start ≥ last.stop then merged ++ [next] else merged.dropLast ++ [last.grow next]

@[simp] theorem addSpan_nil (next : Span L) : addSpan [] next = [next] := rfl

theorem addSpan_concat (front : List (Span L)) (last next : Span L) :
    addSpan (front ++ [last]) next =
      if next.start ≥ last.stop then front ++ [last] ++ [next] else front ++ [last.grow next] := by
  unfold addSpan
  rw [List.getLast?_concat]
  simp only [List.dropLast_concat]

/-- Spans one after another, each of them before the next. -/
def Apart (spans : List (Span L)) : Prop :=
  spans.Pairwise fun first second => first.stop ≤ second.start

/-- What is made of the spans `found` so far. -/
structure Merged (found merged : List (Span L)) : Prop where
  apart : Apart merged
  within : ∀ span ∈ found, ∃ whole ∈ merged, span.Within whole
  start : ∀ whole ∈ merged, ∃ span ∈ found, whole.start = span.start
  stop : ∀ whole ∈ merged, ∃ span ∈ found, whole.stop = span.stop
  filled : ∀ whole ∈ merged, whole.start < whole.stop

theorem merged_nil : Merged ([] : List (Span L)) [] where
  apart := List.Pairwise.nil
  within := List.forall_mem_nil _
  start := List.forall_mem_nil _
  stop := List.forall_mem_nil _
  filled := List.forall_mem_nil _

theorem within_refl (span : Span L) : span.Within span :=
  ⟨Nat.le_refl _, Nat.le_refl _⟩

theorem Span.Within.grow {span last : Span L} (h : span.Within last) (next : Span L) :
    span.Within (last.grow next) :=
  ⟨h.1, Nat.le_trans h.2 (Nat.le_max_left ..)⟩

/-- A span that comes after all the others is taken in. -/
theorem Merged.add {found merged : List (Span L)} (h : Merged found merged) {next : Span L}
    (hfilled : next.start < next.stop) (hsorted : ∀ span ∈ found, span.start ≤ next.start) :
    Merged (found ++ [next]) (addSpan merged next) := by
  have hmem : ∀ {span : Span L}, span ∈ found → span ∈ found ++ [next] := List.mem_append_left _
  have hnext : next ∈ found ++ [next] := by simp
  rcases List.eq_nil_or_concat' merged with rfl | ⟨front, last, rfl⟩
  · have hnone : found = [] := by
      by_contra hne
      obtain ⟨span, rest, rfl⟩ := List.exists_cons_of_ne_nil hne
      obtain ⟨whole, hwhole, -⟩ := h.within span (List.mem_cons_self ..)
      cases hwhole
    subst hnone
    rw [addSpan_nil, List.nil_append]
    refine ⟨List.pairwise_singleton _ _, ?_, ?_, ?_, ?_⟩
    · intro span hspan
      rw [List.mem_singleton.1 hspan]
      exact ⟨next, List.mem_singleton_self next, within_refl next⟩
    · intro whole hwhole
      exact ⟨whole, hwhole, rfl⟩
    · intro whole hwhole
      exact ⟨whole, hwhole, rfl⟩
    · intro whole hwhole
      rwa [List.mem_singleton.1 hwhole]
  · have hlastmem : last ∈ front ++ [last] := by simp
    rw [addSpan_concat]
    by_cases hstart : next.start ≥ last.stop
    · rw [if_pos hstart]
      have hbefore : ∀ whole ∈ front ++ [last], whole.stop ≤ next.start := by
        intro whole hwhole
        rcases List.mem_append.1 hwhole with hfront | hlast
        · have happart := (List.pairwise_append.1 h.apart).2.2 whole hfront last (List.mem_singleton_self last)
          have hlastFilled := h.filled last hlastmem
          omega
        · rw [List.mem_singleton.1 hlast]
          exact hstart
      refine ⟨?_, ?_, ?_, ?_, ?_⟩
      · apply List.pairwise_append.2
        refine ⟨h.apart, List.pairwise_singleton _ _, ?_⟩
        intro whole hwhole other hother
        rw [List.mem_singleton.1 hother]
        exact hbefore whole hwhole
      · intro span hspan
        rcases List.mem_append.1 hspan with hfound | hlast
        · obtain ⟨whole, hwhole, hwithin⟩ := h.within span hfound
          exact ⟨whole, List.mem_append_left _ hwhole, hwithin⟩
        · rw [List.mem_singleton.1 hlast]
          exact ⟨next, by simp, within_refl next⟩
      · intro whole hwhole
        rcases List.mem_append.1 hwhole with hold | hnew
        · obtain ⟨span, hspan, heq⟩ := h.start whole hold
          exact ⟨span, hmem hspan, heq⟩
        · rw [List.mem_singleton.1 hnew]
          exact ⟨next, hnext, rfl⟩
      · intro whole hwhole
        rcases List.mem_append.1 hwhole with hold | hnew
        · obtain ⟨span, hspan, heq⟩ := h.stop whole hold
          exact ⟨span, hmem hspan, heq⟩
        · rw [List.mem_singleton.1 hnew]
          exact ⟨next, hnext, rfl⟩
      · intro whole hwhole
        rcases List.mem_append.1 hwhole with hold | hnew
        · exact h.filled whole hold
        · rwa [List.mem_singleton.1 hnew]
    · rw [if_neg hstart]
      have hgrown : last.grow next ∈ front ++ [last.grow next] := by simp
      have hlastStart : last.start ≤ next.start := by
        obtain ⟨span, hspan, heq⟩ := h.start last hlastmem
        rw [heq]
        exact hsorted span hspan
      obtain ⟨hfrontApart, -, hfrontLast⟩ := List.pairwise_append.1 h.apart
      refine ⟨?_, ?_, ?_, ?_, ?_⟩
      · apply List.pairwise_append.2
        refine ⟨hfrontApart, List.pairwise_singleton _ _, ?_⟩
        intro whole hwhole other hother
        rw [List.mem_singleton.1 hother]
        exact hfrontLast whole hwhole last (List.mem_singleton_self last)
      · intro span hspan
        rcases List.mem_append.1 hspan with hfound | hnew
        · obtain ⟨whole, hwhole, hwithin⟩ := h.within span hfound
          rcases List.mem_append.1 hwhole with hfront | hlast
          · exact ⟨whole, List.mem_append_left _ hfront, hwithin⟩
          · rw [List.mem_singleton.1 hlast] at hwithin
            exact ⟨last.grow next, hgrown, hwithin.grow next⟩
        · rw [List.mem_singleton.1 hnew]
          exact ⟨last.grow next, hgrown, hlastStart, Nat.le_max_right ..⟩
      · intro whole hwhole
        rcases List.mem_append.1 hwhole with hfront | hlast
        · obtain ⟨span, hspan, heq⟩ := h.start whole (List.mem_append_left _ hfront)
          exact ⟨span, hmem hspan, heq⟩
        · rw [List.mem_singleton.1 hlast]
          obtain ⟨span, hspan, heq⟩ := h.start last hlastmem
          exact ⟨span, hmem hspan, heq⟩
      · intro whole hwhole
        rcases List.mem_append.1 hwhole with hfront | hlast
        · obtain ⟨span, hspan, heq⟩ := h.stop whole (List.mem_append_left _ hfront)
          exact ⟨span, hmem hspan, heq⟩
        · rw [List.mem_singleton.1 hlast]
          obtain ⟨span, hspan, heq⟩ := h.stop last hlastmem
          rcases Nat.le_total last.stop next.stop with hle | hle
          · exact ⟨next, hnext, Nat.max_eq_right hle⟩
          · exact ⟨span, hmem hspan, (Nat.max_eq_left hle).trans heq⟩
      · intro whole hwhole
        rcases List.mem_append.1 hwhole with hfront | hlast
        · exact h.filled whole (List.mem_append_left _ hfront)
        · rw [List.mem_singleton.1 hlast]
          exact Nat.lt_of_lt_of_le (h.filled last hlastmem) (Nat.le_max_left ..)

/-- Sorted spans are merged one after another. -/
theorem Merged.foldl {found merged : List (Span L)} (h : Merged found merged) (spans : List (Span L))
    (hfilled : ∀ span ∈ spans, span.start < span.stop)
    (hsorted : (found ++ spans).Pairwise fun first second => first.start ≤ second.start) :
    Merged (found ++ spans) (spans.foldl addSpan merged) := by
  induction spans generalizing found merged with
  | nil =>
    rw [List.append_nil]
    exact h
  | cons next rest ih =>
    have hbefore : ∀ span ∈ found, span.start ≤ next.start := fun span hspan =>
      (List.pairwise_append.1 hsorted).2.2 span hspan next (List.mem_cons_self ..)
    have hstep := h.add (hfilled next (List.mem_cons_self ..)) hbefore
    have hsplit : found ++ next :: rest = found ++ [next] ++ rest := by simp
    rw [hsplit] at hsorted ⊢
    exact ih hstep (fun span hspan => hfilled span (List.mem_cons_of_mem _ hspan)) hsorted

/-! ## What is kept -/

def keptPieces (text : List α) (position : Nat) : List (Span L) → List (List α)
  | [] => [text.drop position]
  | hit :: rest => (text.drop position).take (hit.start - position) :: keptPieces text hit.stop rest

def coveredPieces (text : List α) (spans : List (Span L)) : List (List α) :=
  spans.map fun span => (text.drop span.start).take (span.stop - span.start)

def weave : List (List α) → List (List α) → List α
  | [], _ => []
  | piece :: pieces, [] => piece ++ weave pieces []
  | piece :: pieces, other :: others => piece ++ (other ++ weave pieces others)

/-- A text is its kept pieces with the covered ones between them. -/
theorem weave_coveredPieces (text : List α) {position : Nat} {spans : List (Span L)} (happart : Apart spans)
    (hfilled : ∀ span ∈ spans, span.start < span.stop) (hstart : ∀ span ∈ spans, position ≤ span.start) :
    weave (keptPieces text position spans) (coveredPieces text spans) = text.drop position := by
  induction spans generalizing position with
  | nil => simp [keptPieces, coveredPieces, weave]
  | cons hit rest ih =>
    obtain ⟨hbefore, hrest⟩ := List.pairwise_cons.1 happart
    have hposition := hstart hit (List.mem_cons_self ..)
    have hhit := hfilled hit (List.mem_cons_self ..)
    have hothers := ih hrest (fun span hspan => hfilled span (List.mem_cons_of_mem _ hspan)) hbefore
    have hgap : text.drop position = (text.drop position).take (hit.start - position) ++ text.drop hit.start := by
      have hdrop : text.drop hit.start = (text.drop position).drop (hit.start - position) := by
        rw [List.drop_drop, Nat.add_sub_cancel' hposition]
      rw [hdrop, List.take_append_drop]
    have hpiece : text.drop hit.start =
        (text.drop hit.start).take (hit.stop - hit.start) ++ text.drop hit.stop := by
      have hdrop : text.drop hit.stop = (text.drop hit.start).drop (hit.stop - hit.start) := by
        rw [List.drop_drop, Nat.add_sub_cancel' (Nat.le_of_lt hhit)]
      rw [hdrop, List.take_append_drop]
    rw [keptPieces, coveredPieces, List.map_cons, weave]
    change _ ++ (_ ++ weave (keptPieces text hit.stop rest) (coveredPieces text rest)) = _
    rw [hothers, ← hpiece, ← hgap]

/-- A kept piece is a piece of the text that no span touches. -/
theorem gap_of_mem_keptPieces (text : List α) {position : Nat} {spans : List (Span L)} (happart : Apart spans)
    (hfilled : ∀ span ∈ spans, span.start < span.stop) (hstart : ∀ span ∈ spans, position ≤ span.start)
    {piece : List α} (h : piece ∈ keptPieces text position spans) :
    ∃ low, position ≤ low ∧ piece <+: text.drop low ∧
      ∀ span ∈ spans, span.stop ≤ low ∨ low + piece.length ≤ span.start := by
  induction spans generalizing position with
  | nil =>
    rw [keptPieces, List.mem_singleton] at h
    exact ⟨position, Nat.le_refl _, h ▸ List.prefix_refl _, List.forall_mem_nil _⟩
  | cons hit rest ih =>
    obtain ⟨hbefore, hrest⟩ := List.pairwise_cons.1 happart
    have hposition := hstart hit (List.mem_cons_self ..)
    have hhit := hfilled hit (List.mem_cons_self ..)
    rcases List.mem_cons.1 h with rfl | hothers
    · refine ⟨position, Nat.le_refl _, List.take_prefix _ _, ?_⟩
      have hlength := List.length_take_le (hit.start - position) (text.drop position)
      intro span hspan
      right
      rcases List.mem_cons.1 hspan with rfl | hmem
      · omega
      · have hafter := hbefore span hmem
        omega
    · obtain ⟨low, hlow, hstarts, hclear⟩ := ih hrest
        (fun span hspan => hfilled span (List.mem_cons_of_mem _ hspan)) hbefore hothers
      refine ⟨low, by omega, hstarts, ?_⟩
      intro span hspan
      rcases List.mem_cons.1 hspan with rfl | hmem
      · exact .inl hlow
      · exact hclear span hmem

end Gostman.Lib
