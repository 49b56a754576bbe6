import Gostman.Lib.Lines
import Gostman.Query.Encoded
/-!
# The query that is written

What its placeholders are, and whether it closes braces that are open in front
of it.
-/

namespace Gostman.Query

open Gostman.Lib Gostman.Lib.UriComponent

/-- The texts of a row have no surrogate that stands alone. -/
def Row.Scalar (row : Row) : Prop :=
  WellFormed row.key ∧ WellFormed row.value

/-! ## The text of a query -/

def queryText (rows : List Row) : Text :=
  List.intercalate [pairSeparator] (rows.map pairText)

/-- A text that neither opens a placeholder nor has a `#` outside of one. -/
def Tame (text : Text) : Prop :=
  leftBrace ∉ masked text ∧ fragmentMark ∉ masked text

theorem Tame.append {text more : Text} (h : Tame text) (hmore : Tame more) : Tame (text ++ more) := by
  unfold Tame
  rw [(apart_of_notMem h.1 more).masked, List.mem_append, List.mem_append, not_or, not_or]
  exact ⟨⟨h.1, hmore.1⟩, h.2, hmore.2⟩

theorem Tame.cons {u : UInt16} {text : Text} (h : Tame text) (hbrace : u ≠ leftBrace) (hmark : u ≠ fragmentMark) :
    Tame (u :: text) := by
  unfold Tame
  rw [masked_cons hbrace, List.mem_cons, List.mem_cons, not_or, not_or]
  exact ⟨⟨hbrace.symm, h.1⟩, hmark.symm, h.2⟩

theorem tame_nil : Tame [] :=
  ⟨List.not_mem_nil, List.not_mem_nil⟩

theorem tame_encode {text : Text} (h : WellFormed text) : Tame (encode text) := by
  constructor
  · intro hmem
    rcases mem_masked_encode h hmem with heq | hsafe
    · exact absurd heq (by decide)
    · exact not_safe_leftBrace hsafe
  · intro hmem
    rcases mem_masked_encode h hmem with heq | hsafe
    · exact absurd heq (by decide)
    · exact not_safe_fragmentMark hsafe

theorem tame_pairText {row : Row} (h : row.Scalar) : Tame (pairText row) :=
  (tame_encode h.1).append ((tame_encode h.2).cons (by decide) (by decide))

theorem queryText_cons_cons (row next : Row) (rows : List Row) :
    queryText (row :: next :: rows) = pairText row ++ pairSeparator :: queryText (next :: rows) := by
  unfold queryText
  rw [List.map_cons, List.map_cons, List.intercalate_cons_cons, List.append_assoc]
  rfl

theorem queryText_singleton (row : Row) : queryText [row] = pairText row := by
  unfold queryText
  rw [List.map_singleton, List.intercalate_singleton]

theorem tame_queryText {rows : List Row} (h : ∀ row ∈ rows, row.Scalar) : Tame (queryText rows) := by
  induction rows with
  | nil => exact tame_nil
  | cons row rest ih =>
    have hrow := tame_pairText (h row List.mem_cons_self)
    have hrest := ih fun other hother => h other (List.mem_cons_of_mem _ hother)
    cases rest with
    | nil => rw [queryText_singleton]; exact hrow
    | cons next rest =>
      rw [queryText_cons_cons]
      exact hrow.append (hrest.cons (by decide) (by decide))

/-! ## Braces that are closed behind the base -/

/-- A text in which the first closing brace, if there is one, comes with a
second one. -/
def Settled (text : Text) : Prop :=
  rightBrace ∉ text ∨ Closes text

theorem Closes.append {text : Text} (h : Closes text) (more : Text) : Closes (text ++ more) := by
  obtain ⟨name, rest, heq, hname⟩ := h
  exact ⟨name, rest ++ more, by rw [heq, List.append_assoc]; rfl, hname⟩

theorem closes_append_iff {text : Text} (h : Settled text) (more : Text) :
    Closes (text ++ more) ↔ Closes text ∨ Closes more := by
  constructor
  · intro hcloses
    rcases h with hnot | hleft
    · right
      obtain ⟨name, rest, heq, hname⟩ := hcloses
      rcases List.append_eq_append_iff.1 heq with ⟨inner, hinner, hmore⟩ | ⟨inner, hinner, hmore⟩
      · refine ⟨inner, rest, hmore, ?_⟩
        intro hmem
        apply hname
        rw [hinner]
        exact List.mem_append_right _ hmem
      · cases inner with
        | nil => exact ⟨[], rest, hmore.symm, List.not_mem_nil⟩
        | cons u inner =>
          rw [List.cons_append, List.cons.injEq] at hmore
          apply absurd _ hnot
          rw [hinner, ← hmore.1]
          exact List.mem_append_right _ List.mem_cons_self
    · exact .inl hleft
  · intro heither
    rcases heither with hleft | hright
    · exact hleft.append more
    · rcases h with hnot | hleft
      · obtain ⟨name, rest, rfl, hname⟩ := hright
        refine ⟨text ++ name, rest, (List.append_assoc _ _ _).symm, ?_⟩
        rw [List.mem_append, not_or]
        exact ⟨hnot, hname⟩
      · exact hleft.append more

theorem Settled.append {text more : Text} (h : Settled text) (hmore : Settled more) : Settled (text ++ more) := by
  by_cases hcloses : Closes (text ++ more)
  · exact .inr hcloses
  · left
    rw [closes_append_iff h, not_or] at hcloses
    rw [List.mem_append, not_or]
    exact ⟨h.resolve_right hcloses.1, hmore.resolve_right hcloses.2⟩

theorem not_closes {text : Text} (h : rightBrace ∉ text) : ¬ Closes text := by
  intro hcloses
  obtain ⟨name, rest, heq, -⟩ := hcloses
  apply h
  rw [heq]
  exact List.mem_append_right _ List.mem_cons_self

theorem closes_cons_iff {u : UInt16} (h : u ≠ rightBrace) (text : Text) : Closes (u :: text) ↔ Closes text := by
  have hnot : rightBrace ∉ [u] := fun hmem => h (List.mem_singleton.1 hmem).symm
  have hiff := closes_append_iff (.inl hnot) text
  rw [List.singleton_append] at hiff
  rw [hiff]
  exact or_iff_right (not_closes hnot)

theorem Settled.cons {u : UInt16} {text : Text} (h : Settled text) (hu : u ≠ rightBrace) : Settled (u :: text) := by
  rcases h with hnot | hcloses
  · left
    rw [List.mem_cons, not_or]
    exact ⟨hu.symm, hnot⟩
  · exact .inr ((closes_cons_iff hu text).2 hcloses)

/-- A written text has its placeholders, whole. -/
theorem exists_closed {text items : Text} (h : items ∈ placeholdersOf text) :
    ∃ before after name, encode text = before ++ closed name ++ after ∧ rightBrace ∉ name ∧ items = closed name := by
  obtain ⟨pair, hpair, rfl⟩ := List.mem_map.1 h
  obtain ⟨name, -, hname, hitems⟩ := exists_name (placeholders.find_of_mem_pairs hpair)
  obtain ⟨first, rest, heq⟩ := List.append_of_mem hpair
  refine ⟨first.flatMap (fun other => encodePart other.1 ++ other.2) ++ encodePart pair.1,
    (Pieces.mk (rest.map fun other => (encodePart other.1, other.2)) (encodePart (placeholders.pieces text).last)).join, name,
    ?_, hname, hitems⟩
  unfold encode mapOutsidePlaceholders Pattern.mapOutside Pieces.map Pieces.join
  rw [heq, ← hitems]
  simp only [List.map_append, List.map_cons, List.flatMap_append, List.flatMap_cons, List.flatMap_map, List.append_assoc]

section Closing

variable {text : Text} (h : WellFormed text)
include h

theorem rightBrace_notMem_encode : rightBrace ∉ encode text ↔ placeholdersOf text = [] := by
  rw [mem_encode h not_safe_rightBrace, List.eq_nil_iff_forall_not_mem]
  constructor
  · intro hnot items hitems
    obtain ⟨before, after, name, -, -, rfl⟩ := exists_closed hitems
    exact hnot ⟨_, hitems, @rightBrace_mem_of_closed name [] _ rfl (List.cons_ne_nil _ _)⟩
  · intro hnone hsome
    obtain ⟨items, hitems, -⟩ := hsome
    exact hnone items hitems

theorem closes_encode_iff : Settled (encode text) ∧ (Closes (encode text) ↔ placeholdersOf text ≠ []) := by
  cases hpieces : placeholdersOf text with
  | nil =>
    have hnot := (rightBrace_notMem_encode h).2 hpieces
    refine ⟨.inl hnot, ?_⟩
    exact iff_of_false (not_closes hnot) fun hne => hne rfl
  | cons items rest =>
    have hcloses : Closes (encode text) := by
      have hplain := plainPieces h
      unfold placeholdersOf at hpieces
      unfold encode mapOutsidePlaceholders Pattern.mapOutside
      generalize placeholders.pieces text = pieces at hplain hpieces ⊢
      obtain ⟨pairs, last⟩ := pieces
      cases pairs with
      | nil => cases hpieces
      | cons pair pairs =>
        obtain ⟨name, -, hname, hitems⟩ := exists_name (hplain.match' pair List.mem_cons_self)
        have hjoin : ((Pieces.mk (pair :: pairs) last).map encodePart).join =
            encodePart pair.1 ++ (pair.2 ++ ((Pieces.mk pairs last).map encodePart).join) :=
          Pieces.join_cons (encodePart pair.1, pair.2) _ _
        refine ⟨encodePart pair.1 ++ leftBrace :: leftBrace :: name, ((Pieces.mk pairs last).map encodePart).join, ?_, ?_⟩
        · rw [hjoin, hitems]
          unfold closed
          simp only [List.cons_append, List.append_assoc, List.nil_append]
        · rw [List.mem_append, List.mem_cons, List.mem_cons, not_or, not_or, not_or]
          refine ⟨?_, by decide, by decide, hname⟩
          intro hmem
          exact not_safe_rightBrace (safe_of_mem_encodePart (hplain.part pair List.mem_cons_self) hmem)
    exact ⟨.inr hcloses, iff_of_true hcloses (List.cons_ne_nil _ _)⟩

end Closing

def Row.HoldsPlaceholder (row : Row) : Prop :=
  placeholdersOf row.key ≠ [] ∨ placeholdersOf row.value ≠ []

theorem closes_pairText_iff {row : Row} (h : row.Scalar) :
    Settled (pairText row) ∧ (Closes (pairText row) ↔ row.HoldsPlaceholder) := by
  obtain ⟨hkey, hkeyIff⟩ := closes_encode_iff h.1
  obtain ⟨hvalue, hvalueIff⟩ := closes_encode_iff h.2
  have hrest : Settled (valueSeparator :: encode row.value) := hvalue.cons (by decide)
  refine ⟨hkey.append hrest, ?_⟩
  unfold pairText Row.HoldsPlaceholder
  rw [closes_append_iff hkey, closes_cons_iff (by decide), hkeyIff, hvalueIff]

theorem closes_queryText_iff {rows : List Row} (h : ∀ row ∈ rows, row.Scalar) :
    Settled (queryText rows) ∧ (Closes (queryText rows) ↔ ∃ row ∈ rows, row.HoldsPlaceholder) := by
  induction rows with
  | nil =>
    refine ⟨.inl List.not_mem_nil, iff_of_false (not_closes List.not_mem_nil) ?_⟩
    intro hsome
    obtain ⟨row, hrow, -⟩ := hsome
    exact absurd hrow List.not_mem_nil
  | cons row rest ih =>
    obtain ⟨hrow, hrowIff⟩ := closes_pairText_iff (h row List.mem_cons_self)
    obtain ⟨hrest, hrestIff⟩ := ih fun other hother => h other (List.mem_cons_of_mem _ hother)
    cases rest with
    | nil =>
      rw [queryText_singleton, hrowIff]
      refine ⟨hrow, ?_⟩
      simp only [List.mem_singleton, exists_eq_left]
    | cons next rest =>
      have hbehind : Settled (pairSeparator :: queryText (next :: rest)) := hrest.cons (by decide)
      rw [queryText_cons_cons]
      refine ⟨hrow.append hbehind, ?_⟩
      rw [closes_append_iff hrow, closes_cons_iff (by decide), hrowIff, hrestIff]
      exact (List.exists_mem_cons_iff _ row (next :: rest)).symm

end Gostman.Query
