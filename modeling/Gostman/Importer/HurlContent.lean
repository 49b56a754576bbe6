import Gostman.Lib.Decided
import Gostman.Importer.HurlForm
/-!
# The text of a body that was written

A text that is valid JSON in brackets is written as it is, any other text
between fences.
-/

namespace Gostman.Importer.Hurl

open Gostman.Lib Gostman.Placeholders Gostman.Importer.Bru

open scoped Gostman.Lib.Decided

/-! ## Lines of a text -/

def readLines (text : Text) : List Text :=
  (text.splitOn '\n').map withoutReturn

theorem withoutReturn_of_getLast {line : Text} (h : ∀ c, line.getLast? = some c → c ≠ '\r') :
    withoutReturn line = line := by
  unfold withoutReturn
  rw [if_neg fun hlast => h '\r' hlast rfl]

def Unbroken (text : Text) : Prop :=
  ∀ c ∈ text, c ≠ '\n' ∧ c ≠ '\r'

theorem Safe.unbroken {text : Text} (h : Safe text) : Unbroken text := by
  intro c hc
  constructor
  · rintro rfl
    exact absurd (h _ hc) (by decide)
  · rintro rfl
    exact absurd (h _ hc) (by decide)

theorem readLines_unbroken {line : Text} (h : Unbroken line) : readLines line = [line] := by
  have hbreak : '\n' ∉ line := fun hmem => (h '\n' hmem).1 rfl
  have hreturn : withoutReturn line = line :=
    withoutReturn_of_getLast fun c hc => (h c (List.mem_of_getLast? hc)).2
  unfold readLines
  rw [List.splitOn_eq_singleton hbreak, List.map_singleton, hreturn]

theorem normalizeNewlines_line {line : Text} (h : '\n' ∉ line) (rest : Text) :
    Go.normalizeNewlines (line ++ '\n' :: rest) = withoutReturn line ++ '\n' :: Go.normalizeNewlines rest := by
  induction line with
  | nil =>
    rw [List.nil_append, Go.normalizeNewlines]
    · rfl
    · intro tail hreturn
      cases hreturn
  | cons c line ih =>
    rw [List.mem_cons, not_or] at h
    by_cases hlast : line = [] ∧ c = '\r'
    · obtain ⟨rfl, rfl⟩ := hlast
      rfl
    · have hgoes : line ≠ [] ∨ c ≠ '\r' := by
        by_contra hnone
        push Not at hnone
        exact hlast hnone
      rw [List.cons_append, Go.normalizeNewlines, ih h.2, withoutReturn_cons hgoes]
      · rfl
      · rintro tail rfl heq
        rcases hgoes with hne | hne
        · obtain ⟨d, more, rfl⟩ := List.exists_cons_of_ne_nil hne
          have hd : d = '\n' := (List.cons.inj heq).1
          exact h.2 (hd ▸ List.mem_cons_self ..)
        · exact hne rfl

theorem normalizeNewlines_ended {lines : List Text} (h : ∀ line ∈ lines, '\n' ∉ line) :
    Go.normalizeNewlines (ended '\n' lines) = ended '\n' (lines.map withoutReturn) := by
  induction lines with
  | nil => rfl
  | cons line rest ih =>
    rw [ended_cons, normalizeNewlines_line (h line (List.mem_cons_self ..)),
      ih fun other hother => h other (List.mem_cons_of_mem _ hother), List.map_cons, ended_cons]

theorem ended_splitOn (text : Text) : ended '\n' (text.splitOn '\n') = text ++ ['\n'] := by
  rw [← intercalate_concat '\n' (List.splitOn_ne_nil '\n' text), List.intercalate_splitOn]

theorem not_mem_withoutReturn {line : Text} (h : '\n' ∉ line) : '\n' ∉ withoutReturn line := by
  unfold withoutReturn
  split_ifs
  · exact fun hmem => h (List.dropLast_subset _ hmem)
  · exact h

theorem not_mem_readLines {text line : Text} (h : line ∈ readLines text) : '\n' ∉ line := by
  obtain ⟨old, hold, rfl⟩ := List.mem_map.1 h
  exact not_mem_withoutReturn fun hmem => (mem_splitOn hold _ hmem).2 rfl

/-- The reader finds the lines of each text that was written. -/
theorem splitOn_written (texts : List Text) :
    (Go.normalizeNewlines (ended '\n' texts)).splitOn '\n' = texts.flatMap readLines ++ [[]] := by
  have htexts : ended '\n' texts = ended '\n' (texts.flatMap (List.splitOn '\n')) := by
    rw [ended_flatMap]
    exact congrArg (List.flatMap · texts) (funext fun text => (ended_splitOn text).symm)
  have hlines : (texts.flatMap (List.splitOn '\n')).map withoutReturn = texts.flatMap readLines :=
    List.map_flatMap ..
  have hbreak : ∀ line ∈ texts.flatMap (List.splitOn '\n'), '\n' ∉ line := by
    intro line hline hmem
    obtain ⟨text, -, hsplit⟩ := List.mem_flatMap.1 hline
    exact (mem_splitOn hsplit _ hmem).2 rfl
  rw [htexts, normalizeNewlines_ended hbreak, hlines, splitOn_ended]
  intro line hline
  obtain ⟨text, -, hread⟩ := List.mem_flatMap.1 hline
  exact not_mem_readLines hread

theorem joined_readLines {text : Text} (h : ∀ c, text.getLast? = some c → c ≠ '\r') :
    joined (readLines text) = Go.normalizeNewlines text := by
  have happend : ∀ text : Text, (∀ c, text.getLast? = some c → c ≠ '\r') →
      Go.normalizeNewlines (text ++ ['\n']) = Go.normalizeNewlines text ++ ['\n'] := by
    intro text h
    fun_induction Go.normalizeNewlines text with
    | case1 rest ih =>
      rw [List.cons_append, List.cons_append, Go.normalizeNewlines, ih, List.cons_append]
      intro c hc
      apply h c
      have hne : rest ≠ [] := List.ne_nil_of_mem (List.mem_of_getLast? hc)
      rw [List.getLast?_cons_cons, List.getLast?_cons_of_ne_nil hne, hc]
    | case2 c rest hnext ih =>
      rw [List.cons_append, Go.normalizeNewlines, ih, List.cons_append]
      · intro d hd
        apply h d
        have hne : rest ≠ [] := List.ne_nil_of_mem (List.mem_of_getLast? hd)
        rw [List.getLast?_cons_of_ne_nil hne, hd]
      · rintro tail rfl heq
        cases rest with
        | nil => exact h '\r' rfl rfl
        | cons d more =>
          obtain ⟨rfl, -⟩ := List.cons.inj heq
          exact hnext more rfl rfl
    | case3 => rfl
  have hne : readLines text ≠ [] := by
    unfold readLines
    rw [Ne, List.map_eq_nil_iff]
    exact List.splitOn_ne_nil '\n' text
  have hbreak : ∀ line ∈ text.splitOn '\n', '\n' ∉ line := fun line hline hmem => (mem_splitOn hline _ hmem).2 rfl
  have hended : joined (readLines text) ++ ['\n'] = Go.normalizeNewlines text ++ ['\n'] := by
    unfold joined
    rw [intercalate_concat '\n' hne, readLines, ← normalizeNewlines_ended hbreak, ended_splitOn, happend text h]
  exact List.append_cancel_right hended

/-! ## The ends of a text -/

theorem getLast_mapPlaceholders {text : Text} (h : ∀ c, text.getLast? = some c → Go.isSpace c = false) :
    ∀ c, (renamed text).getLast? = some c → Go.isSpace c = false := by
  unfold renamed
  fun_induction mapPlaceholders hurlPlaceholder text with
  | case1 => exact h
  | case2 => exact h
  | case3 text before after hopen inner rest hclose ih =>
    obtain rfl := Curl.cutPair_eq hopen
    obtain rfl := Curl.cutPair_eq hclose
    have hplaceholder : ∃ front, hurlPlaceholder (trimSpace inner) = front ++ ['}'] := by
      unfold hurlPlaceholder braced
      split_ifs
      · exact ⟨['{', '{'] ++ "newUuid".toList ++ ['}'], by simp⟩
      · exact ⟨['{', '{'] ++ trimSpace inner ++ ['}'], by simp⟩
    obtain ⟨front, hfront⟩ := hplaceholder
    have hrest : ∀ c, rest.getLast? = some c → Go.isSpace c = false := by
      intro c hc
      apply h c
      have hsplit : before ++ '{' :: '{' :: (inner ++ '}' :: '}' :: rest) =
          (before ++ ['{', '{'] ++ inner ++ ['}', '}']) ++ rest := by simp
      rw [hsplit, List.getLast?_append, hc]
      rfl
    intro c hc
    cases hmapped : (mapPlaceholders hurlPlaceholder rest).getLast? with
    | none =>
      rw [List.getLast?_append, hmapped, hfront] at hc
      obtain rfl : '}' = c := by simpa using hc
      decide
    | some d =>
      rw [List.getLast?_append, hmapped] at hc
      obtain rfl : d = c := by simpa using hc
      exact ih hrest d hmapped

theorem getLast_trimSpace (text : Text) : ∀ c, (trimSpace text).getLast? = some c → Go.isSpace c = false := by
  intro c hc
  have hne : trimSpace text ≠ [] := List.ne_nil_of_mem (List.mem_of_getLast? hc)
  have hlast := List.rdropWhile_last_not Go.isSpace (text.dropWhile Go.isSpace) hne
  rw [List.getLast?_eq_some_getLast hne] at hc
  rw [← Option.some.inj hc]
  exact Bool.not_eq_true _ ▸ hlast

/-- The text of a body as it is written does not end in a blank. -/
theorem getLast_content (body : Text) :
    ∀ c, (renamed (trimmedBody body)).getLast? = some c → Go.isSpace c = false :=
  getLast_mapPlaceholders (getLast_trimSpace _)

theorem braced_mem_placeholder (inner : Text) : '{' ∈ hurlPlaceholder inner := by
  unfold hurlPlaceholder braced
  split_ifs <;> simp

theorem renamed_eq_nil_iff (text : Text) : renamed text = [] ↔ text = [] := by
  unfold renamed
  fun_cases mapPlaceholders hurlPlaceholder text with
  | case1 => exact Iff.rfl
  | case2 => exact Iff.rfl
  | case3 before after hopen inner rest hclose =>
    refine iff_of_false (List.ne_nil_of_mem (a := '{') ?_) ?_
    · exact List.mem_append_left _ (List.mem_append_right _ (braced_mem_placeholder _))
    · rw [Curl.cutPair_eq hopen]
      simp

/-! ## Fences -/

theorem fencedLines_append {lines : List Text} (h : ∀ line ∈ lines, trimSpace line ≠ fence) (others : List Text) :
    fencedLines (lines ++ fence :: others) = (lines, others) := by
  induction lines with
  | nil =>
    rw [List.nil_append, fencedLines, if_pos (by decide)]
  | cons line rest ih =>
    have hline := h line (List.mem_cons_self ..)
    rw [List.cons_append, fencedLines, trimSpace_trimEnd, if_neg hline,
      ih fun other hother => h other (List.mem_cons_of_mem _ hother)]

theorem infix_of_mem_splitOn {text line : Text} (h : line ∈ text.splitOn '\n') : line <:+: text := by
  have hinfix := infix_intercalate '\n' h
  rwa [List.intercalate_splitOn] at hinfix

theorem withoutReturn_isPrefix (line : Text) : withoutReturn line <+: line := by
  unfold withoutReturn
  split_ifs
  · exact List.dropLast_prefix line
  · exact List.prefix_refl _

theorem trimSpace_isInfix (text : Text) : trimSpace text <:+: text :=
  (List.rdropWhile_prefix _ _).isInfix.trans (List.dropWhile_suffix _).isInfix

/-- A text without a fence in it is read to the fence after it. -/
theorem requestBody_fenced {text : Text} (h : ¬ fence <:+: text) (others : List Text) :
    requestBody (fence :: (readLines text ++ fence :: others)) = (joined (readLines text), false, others) := by
  have hlines : ∀ line ∈ readLines text, trimSpace line ≠ fence := by
    intro line hline hfence
    obtain ⟨old, hold, rfl⟩ := List.mem_map.1 hline
    apply h
    rw [← hfence]
    exact ((trimSpace_isInfix _).trans (withoutReturn_isPrefix old).isInfix).trans (infix_of_mem_splitOn hold)
  have hfence : trimSpace (trimEnd fence) = fence := by decide
  rw [requestBody]
  simp only [hfence]
  rw [if_neg (by decide), if_pos (by decide), fencedLines_append hlines]

/-! ## Brackets -/

theorem step_plain {c : Char} (h : c ∉ ['"', '{', '[', '}', ']']) (depth : Int) :
    Brackets.step { depth } c = { depth } := by
  simp only [List.mem_cons, List.not_mem_nil, or_false, not_or] at h
  obtain ⟨hquote, hbrace, hbracket, hbrace', hbracket'⟩ := h
  unfold Brackets.step
  rw [if_neg Bool.false_ne_true, if_neg (by simp), if_neg hquote, if_neg Bool.false_ne_true,
    if_neg (by simp [hbrace, hbracket]), if_neg (by simp [hbrace', hbracket'])]

theorem foldl_plain {text : Text} (h : ∀ c ∈ text, c ∉ ['"', '{', '[', '}', ']']) (depth : Int) :
    text.foldl Brackets.step { depth } = { depth } := by
  induction text with
  | nil => rfl
  | cons c rest ih =>
    rw [List.foldl_cons, step_plain (h c (List.mem_cons_self ..))]
    exact ih fun d hd => h d (List.mem_cons_of_mem _ hd)

variable {library : Library}

theorem token_plain {inner : Text} (h : isHurlToken library inner = true) :
    ∀ c ∈ inner, c ∉ ['"', '{', '[', '}', ']', '\n', '\r'] := by
  intro c hc hspecial
  have hascii : ∀ c ∈ ['"', '{', '[', '}', ']', '\n', '\r'], c.toNat < 128 ∧ isHeaderChar c = false := by decide
  have hchar := headerChar_of_token library h hc (hascii c hspecial).1
  rw [(hascii c hspecial).2] at hchar
  cases hchar

/-- A line that names a section closes its bracket. -/
theorem section_closes {line : Text} (hopen : ∃ c rest, line = c :: rest ∧ Go.isSpace c = false)
    (h : isHurlSectionLine library line = true) : (line.foldl Brackets.step {}).depth = 0 := by
  obtain ⟨name, hname⟩ := Option.isSome_iff_exists.1 h
  obtain ⟨inner, htrim, htoken⟩ := hurlSectionName_eq_some library hname
  obtain ⟨c, rest, rfl, hspace⟩ := hopen
  have hrest : ∃ blanks, c :: rest = '[' :: inner ++ [']'] ++ blanks ∧ ∀ d ∈ blanks, Go.isSpace d = true := by
    rw [← htrim]
    refine ⟨(c :: rest).rtakeWhile Go.isSpace, ?_, fun d hd => List.mem_rtakeWhile_imp hd⟩
    unfold trimSpace
    rw [List.dropWhile_cons_of_neg (by rw [hspace]; exact Bool.false_ne_true)]
    exact (List.rdropWhile_append_rtakeWhile ..).symm
  obtain ⟨blanks, hline, hblanks⟩ := hrest
  have hopens : Brackets.step {} '[' = { depth := 1 } := rfl
  have hcloses : Brackets.step { depth := 1 } ']' = { depth := 0 } := rfl
  have hinner : ∀ d ∈ inner, d ∉ ['"', '{', '[', '}', ']'] := by
    intro d hd hmem
    exact token_plain htoken d hd (by simp only [List.mem_cons] at hmem ⊢; tauto)
  have hplain : ∀ d ∈ blanks, d ∉ ['"', '{', '[', '}', ']'] := by
    intro d hd hmem
    have hall : ∀ d ∈ ['"', '{', '[', '}', ']'], Go.isSpace d = false := by decide
    have hblank := hblanks d hd
    rw [hall d hmem] at hblank
    cases hblank
  rw [hline, List.append_assoc, List.cons_append, List.foldl_cons, hopens, List.foldl_append,
    foldl_plain hinner, List.singleton_append, List.foldl_cons, hcloses, foldl_plain hplain]

theorem isHurlSectionLine_trimEnd (line : Text) :
    isHurlSectionLine library (trimEnd line) = isHurlSectionLine library line := by
  unfold isHurlSectionLine hurlSectionName
  rw [trimSpace_trimEnd]

/-- A text that is written as it is: valid, and in brackets. -/
structure Bracketed (text : Text) : Prop where
  valid : Go.Json.valid (encode text) = true
  opens : ∃ c rest, text = c :: rest ∧ (c = '{' ∨ c = '[')
  last : ∀ c, text.getLast? = some c → Go.isSpace c = false

theorem Bracketed.readLines_eq {text : Text} (h : Bracketed text) :
    ∃ c line more, readLines text = (c :: line) :: more ∧ (c = '{' ∨ c = '[') := by
  obtain ⟨c, rest, rfl, hc⟩ := h.opens
  have hplain : c ≠ '\n' ∧ c ≠ '\r' := by
    rcases hc with rfl | rfl <;> decide
  obtain ⟨first, more, hsplit⟩ := List.exists_cons_of_ne_nil (List.splitOn_ne_nil '\n' rest)
  refine ⟨c, withoutReturn first, more.map withoutReturn, ?_, hc⟩
  unfold readLines
  rw [List.splitOn_cons_eq_if_modifyHead, if_neg (by simpa using hplain.1), hsplit, List.modifyHead_cons,
    List.map_cons, withoutReturn_cons (.inr hplain.2)]

theorem Bracketed.balanced_eq {text : Text} (h : Bracketed text) (others : List Text) :
    balanced {} (readLines text ++ others) = (readLines text, others) :=
  balanced_valid h.valid h.opens h.last others

/-- The text is the name of a section if its first line is. -/
theorem Bracketed.section_first {text first : Text} {more : List Text} (h : Bracketed text)
    (hlines : readLines text = first :: more) :
    isHurlSectionLine library first = true ↔ isHurlSectionLine library text = true := by
  obtain ⟨c, line, more', hread, hc⟩ := h.readLines_eq
  have hspace : Go.isSpace c = false := by
    rcases hc with rfl | rfl <;> decide
  constructor
  · intro hsection
    obtain ⟨rfl, rfl⟩ := List.cons.inj (hlines.symm.trans hread)
    have hdepth := section_closes ⟨c, line, rfl, hspace⟩ hsection
    have hbalanced := h.balanced_eq []
    rw [hlines, List.cons_append, balanced_ends (le_of_eq hdepth)] at hbalanced
    obtain ⟨hmore, -⟩ := Prod.mk.inj hbalanced
    obtain ⟨-, rfl⟩ := List.cons.inj hmore
    have hsplit : ∃ old, text.splitOn '\n' = [old] ∧ withoutReturn old = c :: line := by
      unfold readLines at hlines
      obtain ⟨old, rest, hold, hfirst, hrest⟩ := List.map_eq_cons_iff.1 hlines
      rw [List.map_eq_nil_iff.1 hrest] at hold
      exact ⟨old, hold, hfirst⟩
    obtain ⟨old, hsingle, hold⟩ := hsplit
    have htext : text = old := by
      have hjoined : ['\n'].intercalate (text.splitOn '\n') = text := List.intercalate_splitOn '\n'
      rw [← hjoined, hsingle, List.intercalate_singleton]
    have hlast : withoutReturn text = text := by
      apply withoutReturn_of_getLast
      rintro d hd rfl
      exact absurd (h.last _ hd) (by decide)
    rw [htext] at hlast ⊢
    rw [← hlast, hold]
    exact hsection
  · intro hsection
    obtain ⟨name, hname⟩ := Option.isSome_iff_exists.1 hsection
    obtain ⟨inner, htrim, htoken⟩ := hurlSectionName_eq_some library hname
    have htext : trimSpace text = text := by
      obtain ⟨d, rest, rfl, hd⟩ := h.opens
      have hdspace : Go.isSpace d = false := by
        rcases hd with rfl | rfl <;> decide
      unfold trimSpace
      rw [List.dropWhile_cons_of_neg (by rw [hdspace]; exact Bool.false_ne_true), List.rdropWhile_eq_self_iff]
      intro hne
      rw [h.last _ (List.getLast?_eq_some_getLast hne)]
      exact Bool.false_ne_true
    have hunbroken : Unbroken text := by
      rw [← htext, htrim]
      intro d hd
      rw [List.mem_append, List.mem_cons, List.mem_singleton] at hd
      rcases hd with (rfl | hinner) | rfl
      · decide
      · constructor
        · rintro rfl
          exact token_plain htoken _ hinner (by decide)
        · rintro rfl
          exact token_plain htoken _ hinner (by decide)
      · decide
    rw [readLines_unbroken hunbroken] at hlines
    rw [← (List.cons.inj hlines).1]
    exact hsection

theorem requestBody_bracketed {text : Text} (h : Bracketed text) (others : List Text) :
    requestBody (readLines text ++ others) = (joined (readLines text), false, others) := by
  obtain ⟨c, line, more, hread, hc⟩ := h.readLines_eq
  have hbalanced := h.balanced_eq others
  have hspace : Go.isSpace c = false := by
    rcases hc with rfl | rfl <;> decide
  obtain ⟨tail, htail⟩ := trimSpace_cons hspace line
  have hresponse : isHurlResponseLine (c :: tail) = false := by
    unfold isHurlResponseLine
    rw [not_response_cons hspace (by rcases hc with rfl | rfl <;> decide)]
    rfl
  rw [hread] at hbalanced ⊢
  rw [List.cons_append] at hbalanced ⊢
  rw [requestBody]
  simp only [trimSpace_trimEnd, htail]
  rw [hbalanced, hresponse, if_neg (by simp), if_neg, if_pos]
  · rcases hc with rfl | rfl <;> simp [List.isPrefixOf]
  · rcases hc with rfl | rfl <;> simp [fence, List.isPrefixOf]

end Gostman.Importer.Hurl
