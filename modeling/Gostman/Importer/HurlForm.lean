import Gostman.Importer.HurlEntry
/-!
# The rows of a form that was written

When the section of a form is read back as the rows it was made of.
-/

namespace Gostman.Importer.Hurl

open Gostman.Lib Gostman.Placeholders Gostman.Importer.Bru

/-! ## What is kept of a text -/

def renamed (text : Text) : Text :=
  mapPlaceholders hurlPlaceholder text

/-- A text that a line holds as it is: no line ends in it, no blanks around it. -/
def Fits (text : Text) : Prop :=
  trimSpace (hurlLine text) = renamed text

def renamedRow (row : Row) : Text × Text :=
  (renamed row.key, renamed row.value)

def rowLine (row : Row) : Text :=
  hurlLine row.key ++ ": ".toList ++ hurlLine row.value

def namesFile (text : Text) : Bool :=
  "file,".toList.isPrefixOf (trimSpace (hurlLine text)) || "base64,".toList.isPrefixOf (trimSpace (hurlLine text))

/-- A line that stands for a pair: no comment, no status and no body. -/
structure PairLine (line : Text) : Prop where
  comment : isHurlComment line = false
  response : isHurlResponseLine line = false
  body : startsHurlBody line = false

structure RowFits (row : Row) : Prop where
  text : namesFile row.value = false
  colon : ':' ∉ row.key
  key : Fits row.key
  value : Fits row.value
  line : PairLine (rowLine row)

theorem colon_mem_hurlLine (text : Text) : ':' ∈ hurlLine text ↔ ':' ∈ text :=
  (colon_mem_mapPlaceholders _).trans (colon_mem_singleLine text)

theorem colon_mem_trimEnd {line : Text} (h : ':' ∈ line) : ':' ∈ trimEnd line := by
  apply mem_trimSpace
  rw [trimSpace_trimEnd]
  exact (colon_mem_trimSpace line).2 h

theorem isHurlComment_trimEnd (line : Text) : isHurlComment (trimEnd line) = isHurlComment line := by
  unfold isHurlComment
  rw [trimSpace_trimEnd]

/-! ## Where pairs end -/

variable {library : Library}

theorem endsPairs_trimSpace (line : Text) : endsPairs library (trimSpace line) = endsPairs library line := by
  unfold endsPairs isBlank isHurlSectionLine hurlSectionName isHurlResponseLine hurlResponseStatus startsHurlBody
  rw [trimSpace_trimSpace]

theorem endsPairs_trimEnd (line : Text) : endsPairs library (trimEnd line) = endsPairs library line := by
  rw [← endsPairs_trimSpace, trimSpace_trimEnd, endsPairs_trimSpace]

theorem not_comment_of_endsPairs {line : Text} (h : endsPairs library line = true) :
    isHurlComment line = false := by
  by_contra hcomment
  rw [Bool.not_eq_false, isHurlComment] at hcomment
  obtain ⟨tail, htail⟩ := List.isPrefixOf_iff_prefix.1 hcomment
  rw [← endsPairs_trimSpace, ← htail, List.singleton_append,
    endsPairs_cons library (by decide) (by decide)] at h
  cases h

/-- A line with a colon ends the pairs if it is a status or begins a body. -/
theorem endsPairs_of_colon {line : Text} (h : ':' ∈ line) :
    endsPairs library line = (isHurlResponseLine line || startsHurlBody line) := by
  have hblank : isBlank line = false := by
    have hmem := (colon_mem_trimSpace line).2 h
    unfold isBlank
    rw [decide_eq_false_iff_not]
    exact List.ne_nil_of_mem hmem
  unfold endsPairs isHurlSectionLine
  rw [not_section_of_colon library h, hblank]
  rfl

theorem pairOf_length (line : Text) : (pairOf line).length ≤ 1 := by
  unfold pairOf
  split_ifs
  · exact Nat.zero_le _
  · split
    · exact Nat.zero_le _
    · exact Nat.le_refl _

/-- Lines that are followed by no pair are read to the end, or to one of them
that ends the pairs. -/
theorem pairs_lines {others left : List Text} (hothers : pairs library others = ([], left)) (lines : List Text) :
    ((∀ line ∈ lines, endsPairs library (trimEnd line) = false) ∧
      pairs library (lines ++ others) = (lines.flatMap (fun line => pairOf (trimEnd line)), left)) ∨
    (∃ line rest, line ∈ lines ∧ endsPairs library (trimEnd line) = true ∧
      (pairs library (lines ++ others)).2 = line :: rest ∧
      (pairs library (lines ++ others)).1.length < lines.length) := by
  induction lines with
  | nil => exact .inl ⟨List.forall_mem_nil _, hothers⟩
  | cons line rest ih =>
    rw [List.cons_append, pairs]
    by_cases hends : endsPairs library (trimEnd line) = true
    · right
      rw [if_pos hends]
      exact ⟨line, rest ++ others, List.mem_cons_self .., hends, rfl, Nat.succ_pos _⟩
    · rw [if_neg hends]
      rcases ih with ⟨hall, hpairs⟩ | ⟨last, more, hmem, hlast, hleft, hlength⟩
      · left
        rw [hpairs]
        refine ⟨?_, rfl⟩
        intro other hother
        rcases List.mem_cons.1 hother with rfl | hrest
        · exact Bool.not_eq_true _ ▸ hends
        · exact hall other hrest
      · right
        refine ⟨last, more, List.mem_cons_of_mem _ hmem, hlast, hleft, ?_⟩
        have hpair := pairOf_length (trimEnd line)
        simp only [List.length_append, List.length_cons]
        omega

/-- A section of rows is read as far as its pairs go. -/
theorem requestSections_rows (sections : Record Text (List (Text × Text))) (inner : Text) (hne : inner ≠ [])
    (halpha : ∀ c ∈ inner, c.isAlpha = true) {lines others rest : List Text}
    (hcolon : ∀ line ∈ lines, ':' ∈ line) (hothers : pairs library others = ([], [] :: rest)) :
    requestSections library sections (('[' :: inner ++ [']']) :: (lines ++ others)) =
      (sections.put (inner.map Char.toLower) ((sections.read (inner.map Char.toLower)).getD [] ++
        (pairs library (lines ++ others)).1), (pairs library (lines ++ others)).2) := by
  rw [requestSections_title sections inner hne halpha]
  rcases pairs_lines hothers lines with ⟨-, hpairs⟩ | ⟨line, more, hmem, hends, hleft, -⟩
  · rw [hpairs]
    exact requestSections_blank _ rest
  · rw [hleft, requestSections, not_section_of_colon library (colon_mem_trimEnd (hcolon line hmem)),
      not_comment_of_endsPairs hends]
    rfl

/-! ## Rows -/

/-- Lists of one item at most that together are a list of the same length. -/
theorem eq_singleton_of_flatMap {α β : Type} {f : α → List β} {g : α → β} {items : List α}
    (hlength : ∀ item, (f item).length ≤ 1) (h : items.flatMap f = items.map g) :
    ∀ item ∈ items, f item = [g item] := by
  have hle : ∀ items : List α, (items.flatMap f).length ≤ items.length := by
    intro items
    induction items with
    | nil => exact Nat.le_refl _
    | cons item rest ih =>
      have := hlength item
      simp only [List.flatMap_cons, List.length_append, List.length_cons]
      omega
  induction items with
  | nil => exact List.forall_mem_nil _
  | cons item rest ih =>
    rw [List.flatMap_cons, List.map_cons] at h
    have hitem : ∃ single, f item = [single] := by
      rw [← List.length_eq_one_iff]
      have hfirst := hlength item
      have hrest := hle rest
      have hsum := congrArg List.length h
      simp only [List.length_append, List.length_cons, List.length_map] at hsum
      omega
    obtain ⟨single, hsingle⟩ := hitem
    rw [hsingle, List.singleton_append] at h
    obtain ⟨rfl, hrest⟩ := List.cons.inj h
    intro other hother
    rcases List.mem_cons.1 hother with rfl | hmem
    · exact hsingle
    · exact ih hrest other hmem

def rowPair (files : Bool) (row : Row) : List (Text × Text) :=
  (pairLine files row).toList.flatMap fun line => pairOf (trimEnd line)

theorem pairLine_colon {files : Bool} {row : Row} {line : Text} (h : pairLine files row = some line) :
    ':' ∈ line := by
  unfold pairLine at h
  simp only at h
  split_ifs at h <;> (rw [← Option.some.inj h]; simp)

theorem pairLine_text {files : Bool} {row : Row} (h : files = true → row.isFile = false) :
    pairLine files row = if namesFile row.value then none else some (rowLine row) := by
  have hfile : ¬ (files = true ∧ row.isFile = true) := by
    rintro ⟨hfiles, hrow⟩
    rw [h hfiles] at hrow
    cases hrow
  unfold pairLine namesFile rowLine
  rw [if_neg hfile]
  simp only [Bool.or_eq_true]

theorem pairOf_eq_iff (row : Row) :
    pairOf (trimEnd (rowLine row)) = [renamedRow row] ↔
      isHurlComment (rowLine row) = false ∧ ':' ∉ row.key ∧ Fits row.key ∧ Fits row.value := by
  unfold pairOf
  rw [isHurlComment_trimEnd]
  by_cases hcomment : isHurlComment (rowLine row) = true
  · rw [if_pos hcomment, hcomment]
    simp
  · rw [if_neg hcomment]
    rw [Bool.not_eq_true] at hcomment
    by_cases hcolon : ':' ∈ row.key
    · have hkey : ∀ pair : Text × Text, Go.cutAt ':' (trimEnd (rowLine row)) = some pair →
          trimSpace pair.1 ≠ renamed row.key := by
        intro pair hcut heq
        have hmem : ':' ∈ trimSpace pair.1 := by
          rw [heq]
          exact (colon_mem_mapPlaceholders _).2 hcolon
        exact (Go.cutAt_eq_some hcut).2 (mem_trimSpace hmem)
      refine iff_of_false ?_ (fun h => h.2.1 hcolon)
      cases hcut : Go.cutAt ':' (trimEnd (rowLine row)) with
      | none => simp
      | some pair =>
        intro heq
        simp only [List.cons.injEq, Prod.mk.injEq, renamedRow, and_true] at heq
        exact hkey pair hcut heq.1
    · have hkey : ':' ∉ hurlLine row.key := fun h => hcolon ((colon_mem_hurlLine _).1 h)
      have hcut : Go.cutAt ':' (trimEnd (rowLine row)) = some (hurlLine row.key, trimEnd (' ' :: hurlLine row.value)) :=
        cutAt_colon hkey _
      rw [hcut]
      simp only [List.cons.injEq, Prod.mk.injEq, renamedRow, and_true, trimSpace_value, Fits, hcomment, hcolon,
        not_false_eq_true, true_and]

theorem rowLine_colon (row : Row) : ':' ∈ rowLine row := by
  unfold rowLine
  simp

/-- The rows of a section are read back when each of them fits. -/
theorem pairs_rows_iff {others left : List Text} (hothers : pairs library others = ([], left)) (files : Bool)
    (rows : List Row) (htext : ∀ row ∈ rows, files = true → row.isFile = false) :
    (pairs library (rows.filterMap (pairLine files) ++ others)).1 = rows.map renamedRow ↔
      ∀ row ∈ rows, RowFits row := by
  have hlines : (rows.filterMap (pairLine files)).flatMap (fun line => pairOf (trimEnd line)) =
      rows.flatMap (rowPair files) := by
    rw [List.filterMap_eq_flatMap_toList, List.flatMap_assoc]
    rfl
  constructor
  · intro h
    have hlength := congrArg List.length h
    rw [List.length_map] at hlength
    have hwritten := List.length_filterMap_le (pairLine files) rows
    rcases pairs_lines hothers (rows.filterMap (pairLine files)) with ⟨hall, hpairs⟩ | ⟨_, _, _, _, _, hshort⟩
    · rw [hpairs] at h
      change (rows.filterMap (pairLine files)).flatMap _ = _ at h
      rw [hlines] at h
      have hsingle := eq_singleton_of_flatMap (fun row => ?_) h
      · intro row hrow
        have hpair := hsingle row hrow
        unfold rowPair at hpair
        rw [pairLine_text (htext row hrow)] at hpair
        by_cases hfile : namesFile row.value = true
        · rw [if_pos hfile] at hpair
          cases hpair
        · rw [if_neg hfile] at hpair
          have hline : pairLine files row = some (rowLine row) := by
            rw [pairLine_text (htext row hrow), if_neg hfile]
          have hmem : rowLine row ∈ rows.filterMap (pairLine files) :=
            List.mem_filterMap.2 ⟨row, hrow, hline⟩
          have hends := hall _ hmem
          rw [endsPairs_trimEnd, endsPairs_of_colon (rowLine_colon row), Bool.or_eq_false_iff] at hends
          have hsame : pairOf (trimEnd (rowLine row)) = [renamedRow row] := by
            simpa using hpair
          obtain ⟨hcomment, hcolon, hkey, hvalue⟩ := (pairOf_eq_iff row).1 hsame
          exact ⟨Bool.not_eq_true _ ▸ hfile, hcolon, hkey, hvalue, hcomment, hends.1, hends.2⟩
      · unfold rowPair
        cases pairLine files row with
        | none => exact Nat.zero_le _
        | some line => simpa using pairOf_length (trimEnd line)
    · omega
  · intro h
    have hwritten : ∀ row ∈ rows, pairLine files row = some (rowLine row) := by
      intro row hrow
      rw [pairLine_text (htext row hrow), (h row hrow).text]
      rfl
    have hsame : rows.filterMap (pairLine files) = rows.map rowLine := by
      rw [← List.filterMap_eq_map]
      exact List.filterMap_congr hwritten
    have hends : ∀ line ∈ rows.map rowLine, endsPairs library (trimEnd line) = false := by
      intro line hline
      obtain ⟨row, hrow, rfl⟩ := List.mem_map.1 hline
      rw [endsPairs_trimEnd, endsPairs_of_colon (rowLine_colon row), (h row hrow).line.response,
        (h row hrow).line.body]
      rfl
    rw [hsame, pairs_append library hends, hothers, List.append_nil, List.flatMap_map]
    change rows.flatMap _ = _
    rw [List.map_eq_flatMap]
    apply List.flatMap_congr
    intro row hrow
    have hrow' := h row hrow
    exact (pairOf_eq_iff row).2 ⟨hrow'.line.comment, hrow'.colon, hrow'.key, hrow'.value⟩

end Gostman.Importer.Hurl
