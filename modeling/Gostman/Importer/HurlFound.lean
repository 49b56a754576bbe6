import Gostman.Importer.HurlWritten
import Mathlib.Data.List.Flatten
/-!
# Where entries come from

An entry stands at a line of its own, and its body is among the lines after it.
-/

namespace Gostman.Importer.Hurl

open Gostman.Lib Gostman.Placeholders Gostman.Importer.Bru

/-! ## The line of a request -/

theorem hurlRequestParts_eq_some {line method url : Text} (h : hurlRequestParts line = some (method, url)) :
    ∃ rest, line = method ++ ' ' :: rest ∧ url = trimSpace rest ∧ url ≠ [] ∧
      method.all (fun c => 'A' ≤ c ∧ c ≤ 'Z') = true := by
  unfold hurlRequestParts at h
  split at h
  · cases h
  · next found rest hcut =>
    simp only at h
    split_ifs at h with hparts
    obtain ⟨rfl, rfl⟩ := Prod.mk.inj (Option.some.inj h)
    exact ⟨rest, (Go.cutAt_eq_some hcut).1, rfl, hparts.2.2, hparts.2.1⟩

theorem exists_of_trimSpace {text : Text} (h : trimSpace text ≠ []) : ∃ c ∈ text, Go.isSpace c = false := by
  by_contra hnone
  push Not at hnone
  apply h
  apply trimmed_eq_nil_iff.2
  intro c hc
  exact Bool.not_eq_false _ ▸ hnone c hc

/-- A method that reads as a version is no method. -/
theorem response_of_http {rest : Text} (h : trimSpace rest ≠ []) :
    isHurlResponseLine ("HTTP".toList ++ ' ' :: rest) = true := by
  have hrest := exists_of_trimSpace h
  have htrim : trimSpace ("HTTP".toList ++ ' ' :: rest) = "HTTP".toList ++ ' ' :: rest.rdropWhile Go.isSpace := by
    have hblank : (' ' :: rest).rdropWhile Go.isSpace = ' ' :: rest.rdropWhile Go.isSpace :=
      rdropWhile_append hrest [' ']
    rw [← hblank]
    exact trimmed_append (by decide) (by decide)
  have hfields : fields (rest.rdropWhile Go.isSpace) ≠ [] := by
    apply fields_ne_nil
    obtain ⟨c, hc, hspace⟩ := hrest
    obtain ⟨front, back, rfl⟩ := List.append_of_mem hc
    refine ⟨c, ?_, hspace⟩
    rw [rdropWhile_append_cons hspace]
    simp
  obtain ⟨first, others, hfirst⟩ := List.exists_cons_of_ne_nil hfields
  unfold isHurlResponseLine hurlResponseStatus
  rw [htrim, Go.cutAt_append (by decide)]
  simp only [Option.getD_some]
  rw [if_neg (by simp), hfirst]
  rfl

/-- A character that no line of its own keeps, and no blank. -/
def hidden (c : Char) : Bool :=
  isUnsafeRune c && !Go.isSpace c

theorem count_sublist {first second : Text} (h : first.Sublist second) :
    first.countP hidden ≤ second.countP hidden :=
  h.countP_le

theorem count_joined (lines : List Text) : (joined lines).countP hidden = lines.flatten.countP hidden := by
  unfold joined
  induction lines with
  | nil => rfl
  | cons line rest ih =>
    cases rest with
    | nil => simp
    | cons next rest =>
      have hbreak : hidden '\n' = false := by decide
      have hflatten : (line :: next :: rest).flatten = line ++ (next :: rest).flatten := rfl
      rw [List.intercalate_cons_cons, List.countP_append, List.countP_append, ih, hflatten,
        List.countP_append, List.countP_cons_of_neg (by simp [hbreak]), List.countP_nil]
      omega

theorem fencedLines_sublist (lines : List Text) : (fencedLines lines).1.Sublist lines := by
  induction lines with
  | nil => exact List.Sublist.refl _
  | cons line rest ih =>
    unfold fencedLines
    split_ifs
    · exact List.nil_sublist _
    · exact ih.cons_cons line

theorem untilBlank_sublist (lines : List Text) : (untilBlank lines).1.Sublist lines := by
  induction lines with
  | nil => exact List.Sublist.refl _
  | cons line rest ih =>
    unfold untilBlank
    split_ifs
    · exact List.nil_sublist _
    · exact ih.cons_cons line

theorem balanced_sublist (state : Brackets) (lines : List Text) : (balanced state lines).1.Sublist lines := by
  induction lines generalizing state with
  | nil => exact List.Sublist.refl _
  | cons line rest ih =>
    unfold balanced
    simp only
    split_ifs
    · exact (List.nil_sublist rest).cons_cons line
    · exact (ih _).cons_cons line

theorem count_lines {lines all : List Text} (h : lines.Sublist all) :
    (joined lines).countP hidden ≤ all.flatten.countP hidden := by
  rw [count_joined]
  exact count_sublist h.flatten

/-- A body has no more hidden characters than the lines it is read from. -/
theorem count_requestBody (lines : List Text) :
    (requestBody lines).1.countP hidden ≤ lines.flatten.countP hidden := by
  cases lines with
  | nil => exact Nat.le_refl _
  | cons line rest =>
    have hinner : ((trimSpace (trimEnd line)).drop 1).dropLast.countP hidden ≤
        (line :: rest).flatten.countP hidden := by
      apply count_sublist
      rw [List.flatten_cons]
      have hline : (trimSpace (trimEnd line)).Sublist line := by
        rw [trimSpace_trimEnd]
        exact (trimSpace_isInfix line).sublist
      exact (((List.dropLast_sublist _).trans (List.drop_sublist 1 _)).trans hline).trans
        (List.sublist_append_left _ _)
    have hrest : ∀ lines : List Text, lines.Sublist rest →
        (joined lines).countP hidden ≤ (line :: rest).flatten.countP hidden :=
      fun lines hlines => count_lines (hlines.trans (List.sublist_cons_self line rest))
    unfold requestBody
    simp only
    split_ifs
    · exact Nat.zero_le _
    · exact hrest _ (fencedLines_sublist rest)
    · exact count_lines (balanced_sublist {} (line :: rest))
    · exact Nat.zero_le _
    · exact hinner
    · exact hinner
    · exact Nat.zero_le _
    · exact count_lines (untilBlank_sublist (line :: rest))

/-! ## Entries -/

structure FoundAt (entry : HurlEntry) (line : Text) (rest : List Text) : Prop where
  parts : hurlRequestParts (trimEnd line) = some (entry.method, entry.url)
  response : isHurlResponseLine (trimEnd line) = false
  body : entry.body.countP hidden ≤ rest.flatten.countP hidden

theorem count_suffix {first second : List Text} (h : first <:+ second) :
    first.flatten.countP hidden ≤ second.flatten.countP hidden :=
  count_sublist h.sublist.flatten

variable {library : Library}

theorem requestFrom_found (library : Library) (comment : Text) {line method url : Text} (rest : List Text)
    (hparts : hurlRequestParts (trimEnd line) = some (method, url))
    (hresponse : isHurlResponseLine (trimEnd line) = false) :
    FoundAt (requestFrom library comment method url rest).1 line rest := by
  have hheaders := requestHeaders_suffix library rest
  have hsections := requestSections_suffix library [] (requestHeaders library rest).2
  have hsame := response_same library
    { comment, method, url, headers := (requestHeaders library rest).1,
      sections := (requestSections library [] (requestHeaders library rest).2).1,
      body := (requestBody (requestSections library [] (requestHeaders library rest).2).2).1,
      bodyFile := (requestBody (requestSections library [] (requestHeaders library rest).2).2).2.1 }
    (skipBlank (requestBody (requestSections library [] (requestHeaders library rest).2).2).2.2)
  constructor
  · have hmethod : (requestFrom library comment method url rest).1.method = method := hsame.method
    have hurl : (requestFrom library comment method url rest).1.url = url := hsame.url
    rw [hparts, hmethod, hurl]
  · exact hresponse
  · calc (requestFrom library comment method url rest).1.body.countP hidden
        = (requestBody (requestSections library [] (requestHeaders library rest).2).2).1.countP hidden :=
          congrArg (List.countP hidden) hsame.body
      _ ≤ (requestSections library [] (requestHeaders library rest).2).2.flatten.countP hidden :=
          count_requestBody _
      _ ≤ rest.flatten.countP hidden := count_suffix (hsections.trans hheaders)

theorem readEntry_found {lines : List Text} {entry : HurlEntry} (h : (readEntry library lines).1 = some entry) :
    ∃ line rest, line :: rest <:+ lines ∧ FoundAt entry line rest := by
  have hcomments := leadingComments_suffix [] lines
  unfold readEntry at h
  simp only at h
  split at h
  · cases h
  · next line rest hlines =>
    rw [hlines] at hcomments
    split at h
    · cases h
    · next method url hparts =>
      split_ifs at h with hresponse
      obtain rfl := Option.some.inj h
      exact ⟨line, rest, hcomments, requestFrom_found library _ rest hparts (Bool.not_eq_true _ ▸ hresponse)⟩

theorem readEntry_suffix (lines : List Text) : (readEntry library lines).2 <:+ lines := by
  have hcomments := leadingComments_suffix [] lines
  unfold readEntry
  simp only
  split
  · exact List.nil_suffix
  · next line rest hlines =>
    rw [hlines] at hcomments
    have hrest := (List.suffix_cons line rest).trans hcomments
    split
    · exact hrest
    · split_ifs
      · exact hrest
      · exact (requestFrom_suffix library _ _ _ rest).trans hrest

theorem entriesFrom_found {lines : List Text} {entry : HurlEntry} (h : entry ∈ entriesFrom library lines) :
    ∃ line rest, line :: rest <:+ lines ∧ FoundAt entry line rest := by
  fun_induction entriesFrom library lines with
  | case1 => cases h
  | case2 lines line rest hlines ih =>
    have hskip := skipBlank_suffix lines
    rw [hlines] at hskip
    rcases List.mem_append.1 h with hfirst | hothers
    · obtain ⟨found, others, hsuffix, hfound⟩ := readEntry_found (Option.mem_toList.1 hfirst)
      exact ⟨found, others, hsuffix.trans hskip, hfound⟩
    · obtain ⟨found, others, hsuffix, hfound⟩ := ih hothers
      exact ⟨found, others, (hsuffix.trans (readEntry_suffix _)).trans hskip, hfound⟩

/-- The method of an entry, letters and not the word of a status. -/
theorem FoundAt.method {entry : HurlEntry} {line : Text} {rest : List Text} (h : FoundAt entry line rest) :
    entry.method.all (fun c => 'A' ≤ c ∧ c ≤ 'Z') = true ∧ entry.method ≠ "HTTP".toList := by
  obtain ⟨address, hline, hurl, hne, hall⟩ := hurlRequestParts_eq_some h.parts
  refine ⟨hall, ?_⟩
  intro hhttp
  have hresponse := h.response
  rw [hline, hhttp, response_of_http (by rwa [← hurl])] at hresponse
  cases hresponse

theorem FoundAt.url {entry : HurlEntry} {line : Text} {rest : List Text} (h : FoundAt entry line rest) :
    entry.url ≠ [] ∧ trimSpace entry.url = entry.url ∧ entry.url.Sublist line := by
  obtain ⟨address, hline, hurl, hne, -⟩ := hurlRequestParts_eq_some h.parts
  refine ⟨hne, ?_, ?_⟩
  · rw [hurl]
    exact trimSpace_trimSpace address
  · rw [hurl]
    have haddress : address.Sublist (trimEnd line) := by
      rw [hline]
      exact (List.sublist_cons_self ' ' address).trans (List.sublist_append_right ..)
    have htrim : (trimEnd line).Sublist line := (List.rdropWhile_prefix _ _).sublist
    exact ((trimSpace_isInfix address).sublist.trans haddress).trans htrim

end Gostman.Importer.Hurl
