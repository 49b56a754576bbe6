import Gostman.Lib.Utf16
import Gostman.Redact.Model
/-!
# No learned form is left

Every place at which a form stands lies in a span, so that no piece that is
kept has a form in it.
-/

namespace Gostman.Redact

open Gostman.Lib

variable {α : Type} [DecidableEq α]

/-! ## Places -/

/-- The places at which a text stands in another, from a position on. -/
def places (text form : List α) (position : Nat) : List Nat :=
  (List.range' position (text.length - position)).filter fun place => form.isPrefixOf (text.drop place)

theorem mem_places_iff {text form : List α} (hfilled : form ≠ []) {place : Nat} :
    place ∈ places text form 0 ↔ form <+: text.drop place := by
  unfold places
  rw [List.mem_filter, List.mem_range'_1, List.isPrefixOf_iff_prefix]
  constructor
  · exact fun h => h.2
  · intro h
    have hlt := lt_of_prefix hfilled h
    exact ⟨by omega, h⟩

theorem filter_range'_eq {keep : Nat → Bool} (position count : Nat) :
    (List.range' position count).filter keep =
      match (List.range' position count).find? keep with
      | none => []
      | some place => place :: (List.range' (place + 1) (position + count - (place + 1))).filter keep := by
  induction count generalizing position with
  | zero => rfl
  | succ count ih =>
    rw [List.range'_succ, List.filter_cons, List.find?_cons]
    cases hkeep : keep position with
    | true =>
      simp only [if_true]
      congr 3
      omega
    | false =>
      rw [if_neg Bool.false_ne_true, ih]
      have hcount : position + 1 + count = position + (count + 1) := by omega
      rw [hcount]

theorem places_eq (text form : List α) (position : Nat) (hposition : position ≤ text.length) :
    places text form position =
      match Gui.indexOf text form position with
      | none => []
      | some place => place :: places text form (place + 1) := by
  unfold places Gui.indexOf
  rw [filter_range'_eq]
  have hend : position + (text.length - position) = text.length := by omega
  rw [hend]

theorem index_drop {text form : List α} (hfilled : form ≠ []) (position : Nat) :
    index (text.drop position) form = (Gui.indexOf text form position).map (· - position) := by
  unfold Gui.indexOf
  generalize hcount : text.length - position = count
  induction count generalizing position with
  | zero =>
    have hnil : text.drop position = [] := List.drop_eq_nil_of_le (by omega)
    have hstarts : form.isPrefixOf ([] : List α) = false := by
      cases form with
      | nil => exact absurd rfl hfilled
      | cons c form => rfl
    rw [hnil, index, hstarts]
    rfl
  | succ count ih =>
    have hlt : position < text.length := by omega
    have hrest := ih (position + 1) (by omega)
    rw [List.drop_eq_getElem_cons hlt, index, ← List.drop_eq_getElem_cons hlt, List.range'_succ, List.find?_cons]
    cases hstarts : form.isPrefixOf (text.drop position) with
    | true => simp
    | false =>
      rw [if_neg Bool.false_ne_true]
      simp only
      rw [hrest, Option.map_map]
      apply Option.map_congr
      intro place hplace
      have hmem := List.mem_range'_1.1 (List.mem_of_find?_eq_some hplace)
      simp only [Function.comp]
      omega

theorem occurrences_eq (text : List α) (wanted : Form α) (offset : Nat) (hoffset : offset ≤ text.length) :
    occurrences text wanted offset = (places text wanted.text offset).map wanted.spanAt := by
  fun_induction occurrences text wanted offset with
  | case1 offset hindex =>
    rw [index_drop wanted.filled, Option.map_eq_none_iff] at hindex
    rw [places_eq text wanted.text offset hoffset, hindex]
    rfl
  | case2 offset place hindex ih =>
    rw [index_drop wanted.filled] at hindex
    obtain ⟨found, hfound, rfl⟩ := Option.map_eq_some_iff.1 hindex
    have hmem := Gui.mem_of_indexOf hfound
    have hsum : offset + (found - offset) = found := by omega
    rw [hsum] at ih ⊢
    rw [places_eq text wanted.text offset hoffset, hfound, ih (by omega)]
    rfl

theorem gui_occurrences_eq (text : List α) (form : Form α) (position : Nat) (hposition : position ≤ text.length) :
    Gui.occurrences text form position = (places text form.text position).map form.spanAt := by
  fun_induction Gui.occurrences text form position with
  | case1 position hindex =>
    rw [places_eq text form.text position hposition, hindex]
    rfl
  | case2 position start hindex ih =>
    have hmem := Gui.mem_of_indexOf hindex
    rw [places_eq text form.text position hposition, hindex, ih (by omega)]
    rfl

/-! ## Spans -/

def found (forms : List (Form α)) (text : List α) : List (Span (List α)) :=
  forms.flatMap fun wanted => occurrences text wanted 0

theorem mem_found_iff {forms : List (Form α)} {text : List α} {span : Span (List α)} :
    span ∈ found forms text ↔ ∃ form ∈ forms, ∃ place, form.text <+: text.drop place ∧ span = form.spanAt place := by
  unfold found
  rw [List.mem_flatMap]
  constructor
  · rintro ⟨form, hform, hspan⟩
    rw [occurrences_eq text form 0 (Nat.zero_le _)] at hspan
    obtain ⟨place, hplace, rfl⟩ := List.mem_map.1 hspan
    exact ⟨form, hform, place, (mem_places_iff form.filled).1 hplace, rfl⟩
  · rintro ⟨form, hform, place, hplace, rfl⟩
    refine ⟨form, hform, ?_⟩
    rw [occurrences_eq text form 0 (Nat.zero_le _)]
    exact List.mem_map.2 ⟨place, (mem_places_iff form.filled).2 hplace, rfl⟩

theorem spans_merged (forms : List (Form α)) (text : List α) :
    Merged ((found forms text).mergeSort fun first second => first.start ≤ second.start) (spans forms text) := by
  have hsorted : ((found forms text).mergeSort fun first second => first.start ≤ second.start).Pairwise
      fun first second => first.start ≤ second.start := by
    have hpairwise : ((found forms text).mergeSort fun first second => first.start ≤ second.start).Pairwise
        fun first second => decide (first.start ≤ second.start) = true := by
      apply List.pairwise_mergeSort
      · intro first second third h h'
        simp only [decide_eq_true_eq] at h h' ⊢
        omega
      · intro first second
        simp only [Bool.or_eq_true, decide_eq_true_eq]
        omega
    exact hpairwise.imp fun h => of_decide_eq_true h
  have hfilled : ∀ span ∈ (found forms text).mergeSort fun first second => first.start ≤ second.start,
      span.start < span.stop := by
    intro span hspan
    obtain ⟨form, -, place, -, rfl⟩ := mem_found_iff.1 (List.mem_mergeSort.1 hspan)
    have hlength := List.length_pos_of_ne_nil form.filled
    change place < place + form.text.length
    omega
  exact merged_nil.foldl _ hfilled hsorted

omit [DecidableEq α] in
/-- A text as it is cleaned: what is kept and markers in turn. -/
theorem cleaned_eq (marker : List α → List α) (text : List α) (position : Nat) (spans : List (Span (List α))) :
    cleaned marker text position spans =
      weave (keptPieces text position spans) (spans.map fun span => marker span.label) := by
  induction spans generalizing position with
  | nil => simp [cleaned, keptPieces, weave]
  | cons hit rest ih => simp [cleaned, keptPieces, weave, ih]

theorem textOf_eq (marker : List α → List α) (forms : List (Form α)) (text : List α) :
    textOf marker forms text =
      weave (keptPieces text 0 (spans forms text)) ((spans forms text).map fun span => marker span.label) := by
  unfold textOf
  simp only
  split_ifs with hnone
  · rw [hnone]
    simp [keptPieces, weave]
  · exact cleaned_eq marker text 0 (spans forms text)

/-- Every occurrence of a form lies in a span. -/
theorem occurrence_within {forms : List (Form α)} {text : List α} {form : Form α} (hform : form ∈ forms)
    {place : Nat} (h : form.text <+: text.drop place) :
    ∃ span ∈ spans forms text, span.start ≤ place ∧ place + form.text.length ≤ span.stop := by
  have hfound : form.spanAt place ∈ found forms text := mem_found_iff.2 ⟨form, hform, place, h, rfl⟩
  exact (spans_merged forms text).within _ (List.mem_mergeSort.2 hfound)

/-- What is kept is the text without the spans, and no form is in it. -/
theorem kept_without_form {forms : List (Form α)} {text piece : List α}
    (hpiece : piece ∈ keptPieces text 0 (spans forms text)) {form : Form α} (hform : form ∈ forms) :
    ¬ form.text <:+: piece := by
  have hmerged := spans_merged forms text
  obtain ⟨low, -, hstarts, hclear⟩ := gap_of_mem_keptPieces text hmerged.apart hmerged.filled
    (fun _ _ => Nat.zero_le _) hpiece
  rintro ⟨front, back, rfl⟩
  have hplace : form.text <+: text.drop (low + front.length) := by
    obtain ⟨more, hmore⟩ := hstarts
    rw [← List.drop_drop, ← hmore]
    exact ⟨back ++ more, by simp⟩
  obtain ⟨span, hspan, hstart, hstop⟩ := occurrence_within hform hplace
  have hlength := List.length_pos_of_ne_nil form.filled
  have hgap := hclear span hspan
  simp only [List.length_append] at hgap
  omega

/-! ## The GUI -/

theorem gui_scrubWith_eq (marker : List α → List α) (text : List α) (forms : List (Form α)) :
    Gui.scrubWith marker text forms = textOf marker forms text := by
  have hfound : (forms.flatMap fun form => Gui.occurrences text form 0) = found forms text := by
    unfold found
    apply List.flatMap_congr
    intro form _
    rw [occurrences_eq text form 0 (Nat.zero_le _), gui_occurrences_eq text form 0 (Nat.zero_le _)]
  unfold Gui.scrubWith
  rw [hfound]
  rfl

/-! ## Codings -/

section Codings

variable {β : Type} [DecidableEq β] (coding : Coding β)

def Form.coded (form : Form Char) : Form β where
  text := coding.text form.text
  label := coding.text form.label
  filled := coding.text_ne_nil form.filled

def codedSpan (span : Span (List Char)) : Span (List β) :=
  { start := span.start, stop := span.stop, width := span.width, label := coding.text span.label }

omit [DecidableEq β] in
theorem drop_coded {text : List Char} (h : ∀ c ∈ text, c.toNat < 128) (place : Nat) :
    (coding.text text).drop place = coding.text (text.drop place) := by
  rw [coding.text_ascii h, coding.text_ascii fun c hc => h c (List.mem_of_mem_drop hc), List.map_drop]

omit [DecidableEq β] in
theorem take_coded {text : List Char} (h : ∀ c ∈ text, c.toNat < 128) (count : Nat) :
    (coding.text text).take count = coding.text (text.take count) := by
  rw [coding.text_ascii h, coding.text_ascii fun c hc => h c (List.mem_of_mem_take hc), List.map_take]

variable {text : List Char} (h : ∀ c ∈ text, c.toNat < 128)

include h

theorem places_coded (form : List Char) : places (coding.text text) (coding.text form) 0 = places text form 0 := by
  have hlength : (coding.text text).length = text.length := by
    rw [coding.text_ascii h, List.length_map]
  unfold places
  rw [hlength]
  apply List.filter_congr
  intro place _
  have hiff : coding.text form <+: coding.text (text.drop place) ↔ form <+: text.drop place :=
    coding.prefix_iff fun c hc => h c (List.mem_of_mem_drop hc)
  rw [drop_coded coding h, Bool.eq_iff_iff, List.isPrefixOf_iff_prefix, List.isPrefixOf_iff_prefix]
  exact hiff

theorem occurrences_coded (form : Form Char) :
    occurrences (coding.text text) (form.coded coding) 0 = (occurrences text form 0).map (codedSpan coding) := by
  rw [occurrences_eq _ _ 0 (Nat.zero_le _), occurrences_eq _ _ 0 (Nat.zero_le _), List.map_map]
  change (places (coding.text text) (coding.text form.text) 0).map _ = _
  rw [places_coded coding h]
  apply List.map_congr_left
  intro place hplace
  -- a form that occurs is of ASCII, so that it is as wide in the coding
  have hstarts := (mem_places_iff form.filled).1 hplace
  have hascii : ∀ c ∈ form.text, c.toNat < 128 := fun c hc => h c (List.mem_of_mem_drop (hstarts.subset hc))
  have hlength : (coding.text form.text).length = form.text.length := by
    rw [coding.text_ascii hascii, List.length_map]
  simp only [Form.spanAt, Form.coded, codedSpan, Function.comp, hlength]

omit h in
omit [DecidableEq β] in
theorem addSpan_coded (merged : List (Span (List Char))) (next : Span (List Char)) :
    addSpan (merged.map (codedSpan coding)) (codedSpan coding next) = (addSpan merged next).map (codedSpan coding) := by
  rcases List.eq_nil_or_concat' merged with rfl | ⟨front, last, rfl⟩
  · rfl
  · rw [List.map_append, List.map_singleton, addSpan_concat, addSpan_concat]
    change (if next.start ≥ last.stop then _ else _) = _
    split_ifs
    · simp
    · have hgrow : (codedSpan coding last).grow (codedSpan coding next) = codedSpan coding (last.grow next) := by
        unfold Span.grow codedSpan
        simp only [Span.mk.injEq, true_and]
        split_ifs <;> rfl
      simp [hgrow]

theorem spans_coded (forms : List (Form Char)) :
    spans (forms.map (Form.coded coding)) (coding.text text) = (spans forms text).map (codedSpan coding) := by
  have hfound : ((forms.map (Form.coded coding)).flatMap fun wanted => occurrences (coding.text text) wanted 0) =
      (forms.flatMap fun wanted => occurrences text wanted 0).map (codedSpan coding) := by
    rw [List.flatMap_map, List.map_flatMap]
    exact List.flatMap_congr fun form _ => occurrences_coded coding h form
  have hfold : ∀ (found merged : List (Span (List Char))),
      (found.map (codedSpan coding)).foldl addSpan (merged.map (codedSpan coding)) =
        (found.foldl addSpan merged).map (codedSpan coding) := by
    intro found
    induction found with
    | nil => exact fun merged => rfl
    | cons next rest ih =>
      intro merged
      rw [List.map_cons, List.foldl_cons, addSpan_coded, ih]
      rfl
  unfold spans merge
  rw [hfound, ← List.map_mergeSort (r := fun first second => decide (first.start ≤ second.start))]
  · exact hfold _ []
  · intro first _ second _
    rfl

omit [DecidableEq β] in
theorem cleaned_coded {marker : List β → List β} {plain : List Char → List Char}
    (hmarker : ∀ label, marker (coding.text label) = coding.text (plain label)) (position : Nat)
    (spans : List (Span (List Char))) :
    cleaned marker (coding.text text) position (spans.map (codedSpan coding)) =
      coding.text (cleaned plain text position spans) := by
  induction spans generalizing position with
  | nil => exact drop_coded coding h position
  | cons hit rest ih =>
    rw [List.map_cons, cleaned, cleaned, coding.text_append, coding.text_append, ih, ← hmarker,
      drop_coded coding h, take_coded coding fun c hc => h c (List.mem_of_mem_drop hc)]
    rfl

/-- A text of ASCII is cleaned alike in every coding. -/
theorem textOf_coded {marker : List β → List β} {plain : List Char → List Char}
    (hmarker : ∀ label, marker (coding.text label) = coding.text (plain label)) (forms : List (Form Char)) :
    textOf marker (forms.map (Form.coded coding)) (coding.text text) = coding.text (textOf plain forms text) := by
  unfold textOf
  simp only
  rw [spans_coded coding h]
  by_cases hnone : spans forms text = []
  · rw [if_pos hnone, if_pos (by rw [hnone]; rfl)]
  · rw [if_neg hnone, if_neg (by rwa [List.map_eq_nil_iff]), cleaned_coded coding h hmarker]

end Codings

def plainMarker (label : List Char) : List Char :=
  ['{', '{'] ++ label ++ ['}', '}']

def Gui.marker (label : List UInt16) : List UInt16 :=
  utf16 ['{', '{'] ++ label ++ utf16 ['}', '}']

/-- Both sides make the same text of a text of ASCII. -/
theorem same_text (forms : List (Form Char)) {text : List Char} (h : ∀ c ∈ text, c.toNat < 128) :
    textOf marker (forms.map (Form.coded utf8Coding)) (encode text) = encode (textOf plainMarker forms text) ∧
      Gui.scrubWith Gui.marker (utf16 text) (forms.map (Form.coded utf16Coding)) =
        utf16 (textOf plainMarker forms text) := by
  have hutf8 : ∀ label, marker (utf8Coding.text label) = utf8Coding.text (plainMarker label) := by
    intro label
    unfold plainMarker
    rw [utf8Coding.text_append, utf8Coding.text_append]
    rfl
  have hutf16 : ∀ label, Gui.marker (utf16Coding.text label) = utf16Coding.text (plainMarker label) := by
    intro label
    unfold plainMarker
    rw [utf16Coding.text_append, utf16Coding.text_append]
    rfl
  constructor
  · exact textOf_coded utf8Coding h hutf8 forms
  · rw [gui_scrubWith_eq]
    exact textOf_coded utf16Coding h hutf16 forms

/-- Every occurrence of a learned form lies in a span that `Redactor.Text`
replaces, what is kept are pieces of the text in order, none of them with a
learned form in it, and the GUI makes the same of a text of ASCII. -/
theorem redaction_leaves_no_form (redactor : Redactor) (text : Bytes) :
    (∀ form ∈ redactor.forms, ∀ place, form.text <+: text.drop place →
      ∃ span ∈ spans redactor.forms text, span.start ≤ place ∧ place + form.text.length ≤ span.stop) ∧
    redactor.text text = weave (keptPieces text 0 (spans redactor.forms text))
      ((spans redactor.forms text).map fun span => marker span.label) ∧
    text = weave (keptPieces text 0 (spans redactor.forms text)) (coveredPieces text (spans redactor.forms text)) ∧
    (∀ piece ∈ keptPieces text 0 (spans redactor.forms text), ∀ form ∈ redactor.forms, ¬ form.text <:+: piece) ∧
    (∀ (forms : List (Form Char)) (plain : List Char), (∀ c ∈ plain, c.toNat < 128) →
      redactor.forms = forms.map (Form.coded utf8Coding) → text = encode plain →
      ∃ result : List Char, redactor.text text = encode result ∧
        Gui.scrubWith Gui.marker (utf16 plain) (forms.map (Form.coded utf16Coding)) = utf16 result) := by
  have hmerged := spans_merged redactor.forms text
  refine ⟨fun form hform place hplace => occurrence_within hform hplace, textOf_eq marker redactor.forms text, ?_,
    fun piece hpiece form hform => kept_without_form hpiece hform, ?_⟩
  · exact (weave_coveredPieces text hmerged.apart hmerged.filled fun _ _ => Nat.zero_le _).symm
  · intro forms plain hplain hforms htext
    obtain ⟨hgo, hgui⟩ := same_text forms hplain
    refine ⟨textOf plainMarker forms plain, ?_, hgui⟩
    unfold Redactor.text
    rw [hforms, htext]
    exact hgo

end Gostman.Redact
