import Gostman.Lib.Decided
import Gostman.Importer.HurlLines
/-!
# Reading an entry that was written

The parts of an entry one after another: its headers, its options, its form or
its body, and the response.
-/

namespace Gostman.Importer.Hurl

open Gostman.Lib Gostman.Placeholders Gostman.Importer.Bru

open scoped Gostman.Lib.Decided

variable (library : Library)

/-! ## What the response leaves alone -/

structure SameRequest (a b : HurlEntry) : Prop where
  method : a.method = b.method
  url : a.url = b.url
  headers : a.headers = b.headers
  sections : a.sections = b.sections
  body : a.body = b.body

theorem SameRequest.refl (a : HurlEntry) : SameRequest a a :=
  ⟨rfl, rfl, rfl, rfl, rfl⟩

theorem SameRequest.trans {a b c : HurlEntry} (h : SameRequest a b) (h' : SameRequest b c) :
    SameRequest a c :=
  ⟨h.method.trans h'.method, h.url.trans h'.url, h.headers.trans h'.headers,
    h.sections.trans h'.sections, h.body.trans h'.body⟩

theorem responseSections_same (entry : HurlEntry) (lines : List Text) :
    SameRequest (responseSections library entry lines).1 entry := by
  fun_induction responseSections library entry lines with
  | case1 => exact .refl _
  | case2 => exact .refl _
  | case3 entry line rest _ ih => exact ih.trans ⟨rfl, rfl, rfl, rfl, rfl⟩
  | case4 entry line rest _ _ ih => exact ih.trans ⟨rfl, rfl, rfl, rfl, rfl⟩
  | case5 entry line rest _ _ _ _ ih => exact ih

theorem responseBodyAfter_same (entry : HurlEntry) (lines : List Text) :
    SameRequest (responseBodyAfter entry lines).1 entry := by
  cases lines with
  | nil => exact .refl _
  | cons line rest =>
    unfold responseBodyAfter
    simp only
    by_cases h : trimSpace (trimEnd line) = [] ∨
        isHurlRequestLine (trimSpace (trimEnd line)) = true ∧ ¬ ['{'].isPrefixOf (trimSpace (trimEnd line)) = true
    · rw [if_pos h]
      exact .refl _
    · rw [if_neg h]
      exact ⟨rfl, rfl, rfl, rfl, rfl⟩

theorem response_same (entry : HurlEntry) (lines : List Text) :
    SameRequest (response library entry lines).1 entry := by
  cases lines with
  | nil => exact .refl _
  | cons line rest =>
    rw [response]
    cases hurlResponseStatus (trimEnd line) with
    | none => exact .refl _
    | some status =>
      have hbody := responseBodyAfter_same
        (responseSections library { entry with
          status := status
          responseHeaders := entry.responseHeaders ++ (responseHeaders library rest).1 }
          (responseHeaders library rest).2).1
        (responseSections library { entry with
          status := status
          responseHeaders := entry.responseHeaders ++ (responseHeaders library rest).1 }
          (responseHeaders library rest).2).2
      exact (hbody.trans (responseSections_same library _ _)).trans ⟨rfl, rfl, rfl, rfl, rfl⟩

/-! ## Lines after the request -/

/-- A line that begins with a character other than a blank and a bracket. -/
def Begun (line : Text) : Prop :=
  ∃ c rest, line = c :: rest ∧ Go.isSpace c = false ∧ c ≠ '['

def CaptureLine (line : Text) : Prop :=
  ∃ name query, line = name ++ ": ".toList ++ query ∧ hurlCaptureName name = true

/-- The lines after the request: what is expected, and comments. -/
def closing (asserts captures comments : List Text) : List Text :=
  responseLines asserts captures ++ (comments.map hurlComment ++ [[]])

theorem begun_comment (text : Text) : Begun (hurlComment text) :=
  ⟨'#', ' ' :: oneLine text, rfl, by decide, by decide⟩

theorem assertLines_left {lines : List Text} (h : ∀ line ∈ lines, Begun line) (others : List Text) :
    (assertLines library (lines ++ others)).2 = (assertLines library others).2 := by
  induction lines with
  | nil => rfl
  | cons line rest ih =>
    obtain ⟨c, tail, rfl, hspace, hbracket⟩ := h line (List.mem_cons_self ..)
    obtain ⟨tail', htrim⟩ := trimSpace_cons hspace tail
    have hgoes : ¬ (trimSpace (trimEnd (c :: tail)) = [] ∨
        isHurlSectionLine library (trimSpace (trimEnd (c :: tail))) = true) := by
      rw [trimSpace_trimEnd, htrim]
      unfold isHurlSectionLine
      rw [not_section_cons library hspace hbracket]
      simp
    rw [List.cons_append, assertLines]
    simp only
    rw [if_neg hgoes]
    exact ih fun other hother => h other (List.mem_cons_of_mem _ hother)

theorem endsPairs_capture {line : Text} (h : CaptureLine line) : endsPairs library (trimEnd line) = false := by
  obtain ⟨name, query, rfl, hname⟩ := h
  simp only [hurlCaptureName, Bool.and_eq_true, List.all_eq_true] at hname
  have hchar : ∀ c ∈ name, Go.isSpace c = false ∧ c ≠ '/' ∧ c ∉ ['{', '[', '`', '<'] := by
    intro c hc
    have hkept := hname.2 c hc
    have hheader : isHeaderChar c = true := by
      simp only [Bool.or_eq_true, decide_eq_true_eq] at hkept
      rcases hkept with ((halpha | hdigit) | rfl) | rfl
      · simp [isHeaderChar, halpha]
      · simp [isHeaderChar, hdigit]
      · decide
      · decide
    have hall := ascii_forall (P := fun c => isHeaderChar c = true →
      Go.isSpace c = false ∧ c ≠ '/' ∧ (c ≠ '`' → c ∉ ['{', '[', '`', '<'])) (by decide +kernel)
      (ascii_of_headerChar hheader) hheader
    refine ⟨hall.1, hall.2.1, hall.2.2 ?_⟩
    rintro rfl
    revert hkept
    decide
  have hcolon : ':' ∈ trimEnd (name ++ ": ".toList ++ query) := by
    rw [trimEnd_colon]
    simp
  have hresponse : hurlResponseStatus (trimEnd (name ++ ": ".toList ++ query)) = none := by
    have hplain := not_response_colon (fun c hc => ⟨(hchar c hc).1, (hchar c hc).2.1⟩) query
    unfold hurlResponseStatus at hplain ⊢
    rw [trimSpace_trimEnd]
    exact hplain
  cases name with
  | nil => simp at hname
  | cons first rest =>
    have hfirst := hchar first (List.mem_cons_self ..)
    unfold endsPairs isHurlSectionLine isHurlResponseLine
    rw [not_section_of_colon library hcolon, hresponse]
    rw [List.cons_append, List.cons_append, trimEnd_cons hfirst.1, isBlank_cons hfirst.1,
      startsHurlBody_cons hfirst.1 hfirst.2.2]
    rfl

theorem pairs_left {lines : List Text} (h : ∀ line ∈ lines, endsPairs library (trimEnd line) = false)
    (others : List Text) : (pairs library (lines ++ others)).2 = (pairs library others).2 := by
  rw [pairs_append library h]

/-- Comments and an empty line at the end of a section. -/
theorem pairs_comments (comments : List Text) :
    pairs library (comments.map hurlComment ++ [[]]) = ([], [[]]) := by
  have hends : ∀ line ∈ comments.map hurlComment, endsPairs library (trimEnd line) = false := by
    intro line hline
    obtain ⟨text, -, rfl⟩ := List.mem_map.1 hline
    exact endsPairs_comment library text
  have hnone : (comments.map hurlComment).flatMap (fun line => pairOf (trimEnd line)) = [] := by
    rw [List.flatMap_eq_nil_iff]
    intro line hline
    obtain ⟨text, -, rfl⟩ := List.mem_map.1 hline
    exact pairOf_comment text
  have hnil : pairs library [[]] = ([], [[]]) := rfl
  rw [pairs_append library hends, hnone, hnil]
  rfl

theorem assertLines_comments (comments : List Text) :
    (assertLines library (comments.map hurlComment ++ [[]])).2 = [[]] := by
  rw [assertLines_left]
  · rfl
  · intro line hline
    obtain ⟨text, -, rfl⟩ := List.mem_map.1 hline
    exact begun_comment text

theorem responseSections_end (entry : HurlEntry) : (responseSections library entry [[]]).2 = [[]] := by
  rw [responseSections]
  rfl

theorem responseSections_captures (entry : HurlEntry) {captures : List Text}
    (h : ∀ line ∈ captures, CaptureLine line) (comments : List Text) :
    (responseSections library entry
      ("[Captures]".toList :: captures ++ (comments.map hurlComment ++ [[]]))).2 = [[]] := by
  have hname : hurlSectionName library (trimEnd "[Captures]".toList) = some "captures".toList :=
    hurlSectionName_title library "Captures".toList (by decide) (by decide)
  have hleft : (pairs library (captures ++ (comments.map hurlComment ++ [[]]))).2 = [[]] := by
    rw [pairs_left library fun line hline => endsPairs_capture library (h line hline), pairs_comments]
  rw [List.cons_append, responseSections, hname]
  simp only
  rw [if_neg (by decide), if_pos trivial, hleft, responseSections_end]

def responseParts (asserts captures comments : List Text) : List Text :=
  (if asserts = [] then [] else "[Asserts]".toList :: asserts) ++
    ((if captures = [] then [] else "[Captures]".toList :: captures) ++ (comments.map hurlComment ++ [[]]))

/-- They are read to the empty line at the end. -/
theorem responseSections_parts (entry : HurlEntry) {asserts captures : List Text}
    (hsome : ¬ (asserts = [] ∧ captures = [])) (hasserts : ∀ line ∈ asserts, Begun line)
    (hcaptures : ∀ line ∈ captures, CaptureLine line) (comments : List Text) :
    (responseSections library entry (responseParts asserts captures comments)).2 = [[]] := by
  have hname : hurlSectionName library (trimEnd "[Asserts]".toList) = some "asserts".toList :=
    hurlSectionName_title library "Asserts".toList (by decide) (by decide)
  have hcapturesName : isHurlSectionLine library (trimSpace (trimEnd "[Captures]".toList)) = true := by
    have htitle := hurlSectionName_title library "Captures".toList (by decide) (by decide)
    unfold isHurlSectionLine hurlSectionName at *
    rw [trimSpace_trimSpace]
    exact Option.isSome_of_eq_some htitle
  unfold responseParts
  by_cases hnone : asserts = []
  · have hcapturesSome : captures ≠ [] := fun hcaptures => hsome ⟨hnone, hcaptures⟩
    rw [if_pos hnone, List.nil_append, if_neg hcapturesSome, responseSections_captures library entry hcaptures]
  · rw [if_neg hnone, List.cons_append, responseSections, hname]
    simp only
    rw [if_pos trivial, assertLines_left library hasserts]
    by_cases hnoneCaptures : captures = []
    · rw [if_pos hnoneCaptures, List.nil_append, assertLines_comments, responseSections_end]
    · rw [if_neg hnoneCaptures, List.cons_append, assertLines]
      simp only
      rw [if_pos (.inr hcapturesName), ← List.cons_append, responseSections_captures library _ hcaptures]

theorem responseHeaders_parts {asserts captures : List Text} (hsome : ¬ (asserts = [] ∧ captures = []))
    (comments : List Text) :
    responseHeaders library (responseParts asserts captures comments) =
      ([], responseParts asserts captures comments) := by
  have htitle : ∀ inner : Text, inner ≠ [] → (∀ c ∈ inner, c.isAlpha = true) → ∀ rest,
      responseHeaders library (('[' :: inner ++ [']']) :: rest) = ([], ('[' :: inner ++ [']']) :: rest) := by
    intro inner hne halpha rest
    rw [responseHeaders, if_pos]
    exact Option.isSome_of_eq_some (hurlSectionName_title library inner hne halpha)
  unfold responseParts
  by_cases hnone : asserts = []
  · have hcapturesSome : captures ≠ [] := fun hcaptures => hsome ⟨hnone, hcaptures⟩
    rw [if_pos hnone, if_neg hcapturesSome]
    exact htitle "Captures".toList (by decide) (by decide) _
  · rw [if_neg hnone]
    exact htitle "Asserts".toList (by decide) (by decide) _

/-! ## The end of a file -/

theorem skipBlank_begun {line : Text} (h : Begun line) (rest : List Text) :
    skipBlank (line :: rest) = line :: rest := by
  obtain ⟨c, tail, rfl, hspace, -⟩ := h
  unfold skipBlank
  rw [List.dropWhile_cons_of_neg]
  rw [isBlank_cons hspace]
  exact Bool.false_ne_true

theorem leadingComments_comments (comment : Text) (comments : List Text) :
    (leadingComments comment (skipBlank (comments.map hurlComment ++ [[]]))).2 = [] := by
  induction comments generalizing comment with
  | nil =>
    have hskip : skipBlank (([] : List Text).map hurlComment ++ [[]]) = [] := rfl
    rw [hskip, leadingComments]
  | cons first rest ih =>
    rw [List.map_cons, List.cons_append, skipBlank_begun (begun_comment first), leadingComments,
      if_pos (isHurlComment_comment first)]
    exact ih _

theorem entriesFrom_comments (comments : List Text) :
    entriesFrom library (comments.map hurlComment ++ [[]]) = [] := by
  rw [entriesFrom]
  split
  · rfl
  · next line rest hlines =>
    have hcomments := leadingComments_comments [] comments
    rw [hlines] at hcomments
    have hread : readEntry library (line :: rest) = (none, []) := by
      unfold readEntry
      rcases hresult : leadingComments [] (line :: rest) with ⟨comment, left⟩
      rw [hresult] at hcomments
      obtain rfl : left = [] := hcomments
      rfl
    rw [hread, entriesFrom]
    rfl

theorem entriesFrom_end : entriesFrom library [[]] = [] :=
  entriesFrom_comments library []

/-- What the response leaves of the lines after a request holds no entry. -/
theorem entriesFrom_closing (entry : HurlEntry) {asserts captures : List Text}
    (hasserts : ∀ line ∈ asserts, Begun line) (hcaptures : ∀ line ∈ captures, CaptureLine line)
    (comments : List Text) :
    entriesFrom library (response library entry (skipBlank (closing asserts captures comments))).2 = [] := by
  by_cases hnone : asserts = [] ∧ captures = []
  · obtain ⟨rfl, rfl⟩ := hnone
    have hclosing : closing [] [] comments = comments.map hurlComment ++ [[]] := rfl
    rw [hclosing]
    cases comments with
    | nil =>
      have hskip : skipBlank (([] : List Text).map hurlComment ++ [[]]) = [] := rfl
      rw [hskip, response, entriesFrom]
      rfl
    | cons first rest =>
      have hstatus : hurlResponseStatus (trimEnd (hurlComment first)) = none := by
        have hline : hurlComment first = '#' :: ' ' :: oneLine first := rfl
        rw [hline, trimEnd_cons (by decide)]
        exact not_response_cons (by decide) (by decide) _
      have hall := entriesFrom_comments library (first :: rest)
      rw [List.map_cons, List.cons_append] at hall ⊢
      rw [skipBlank_begun (begun_comment first), response, hstatus]
      exact hall
  · have hclosing : skipBlank (closing asserts captures comments) =
        "HTTP *".toList :: responseParts asserts captures comments := by
      unfold closing responseLines responseParts
      rw [if_neg hnone]
      simp only [List.append_assoc, List.cons_append, List.nil_append]
      rfl
    have hstatus : hurlResponseStatus (trimEnd "HTTP *".toList) = some ['*'] := by decide
    have hleft : ∀ entry : HurlEntry, (responseBodyAfter (responseSections library entry
        (responseParts asserts captures comments)).1 (responseSections library entry
        (responseParts asserts captures comments)).2).2 = [[]] := by
      intro entry
      rw [responseSections_parts library entry hnone hasserts hcaptures]
      rfl
    rw [hclosing, response, hstatus]
    simp only [responseFrom]
    rw [responseHeaders_parts library hnone, hleft, entriesFrom_end]

/-! ## Where headers and pairs end -/

/-- Headers and pairs end before the lines, comments apart. -/
structure Starts (lines left : List Text) : Prop where
  headers : requestHeaders library lines = ([], left)
  pairs : pairs library lines = ([], left)

variable {library}

theorem starts_of_line {line : Text} (hcomment : isHurlComment (trimEnd line) = false)
    (hheader : hurlHeaderParts library (trimEnd line) = none)
    (hends : endsPairs library (trimEnd line) = true) (rest : List Text) :
    Starts library (line :: rest) (line :: rest) := by
  constructor
  · rw [requestHeaders, hcomment, if_neg Bool.false_ne_true, hheader]
  · rw [pairs, if_pos hends]

theorem isHurlComment_cons {c : Char} (hspace : Go.isSpace c = false) (h : c ≠ '#') (rest : Text) :
    isHurlComment (c :: rest) = false := by
  unfold isHurlComment
  rw [isPrefixOf_trimSpace hspace]
  simpa using Ne.symm h

theorem hurlHeaderParts_cons {c : Char} (hspace : Go.isSpace c = false) (hascii : c.toNat < 128)
    (h : isHeaderChar c = false) (hcolon : c ≠ ':') (rest : Text) :
    hurlHeaderParts library (c :: rest) = none := by
  unfold hurlHeaderParts
  rw [Go.cutAt, if_neg hcolon]
  cases hcut : Go.cutAt ':' rest with
  | none => rfl
  | some parts =>
    obtain ⟨tail, htail⟩ := trimSpace_cons hspace parts.1
    have htoken : isHurlToken library (trimSpace (c :: parts.1)) = false := by
      by_contra htoken
      have hchar := headerChar_of_token library (Bool.not_eq_false _ ▸ htoken)
        (by rw [htail]; exact List.mem_cons_self ..) hascii
      rw [h] at hchar
      cases hchar
    simp only [Option.map_some, htoken]
    rfl

theorem starts_body {c : Char} (h : c = '{' ∨ c = '[' ∨ c = '`') (line : Text) (rest : List Text) :
    Starts library ((c :: line) :: rest) ((c :: line) :: rest) := by
  have hplain : Go.isSpace c = false ∧ c.toNat < 128 ∧ isHeaderChar c = false ∧ c ≠ ':' ∧ c ≠ '#' := by
    rcases h with rfl | rfl | rfl <;> decide
  obtain ⟨hspace, hascii, hchar, hcolon, hhash⟩ := hplain
  apply starts_of_line
  · rw [trimEnd_cons hspace]
    exact isHurlComment_cons hspace hhash _
  · rw [trimEnd_cons hspace]
    exact hurlHeaderParts_cons hspace hascii hchar hcolon _
  · unfold endsPairs startsHurlBody
    rw [trimEnd_cons hspace]
    simp only [isPrefixOf_trimSpace hspace]
    rcases h with rfl | rfl | rfl <;> simp

theorem starts_closing (asserts captures comments : List Text) :
    Starts library (closing asserts captures comments)
      (if asserts = [] ∧ captures = [] then [[]] else closing asserts captures comments) := by
  by_cases hnone : asserts = [] ∧ captures = []
  · obtain ⟨rfl, rfl⟩ := hnone
    have hclosing : closing [] [] comments = comments.map hurlComment ++ [[]] := rfl
    rw [hclosing, if_pos ⟨rfl, rfl⟩]
    refine ⟨?_, pairs_comments library comments⟩
    induction comments with
    | nil => rfl
    | cons first rest ih =>
      rw [List.map_cons, List.cons_append, requestHeaders, if_pos (isHurlComment_comment first), ih rfl]
  · rw [if_neg hnone]
    have hclosing : ∃ rest, closing asserts captures comments = [] :: rest := by
      unfold closing responseLines
      rw [if_neg hnone]
      exact ⟨_, rfl⟩
    obtain ⟨rest, hrest⟩ := hclosing
    rw [hrest]
    exact starts_of_line rfl rfl rfl rest

/-- What is left of the lines after a request once its comments are passed. -/
def remaining (asserts captures comments : List Text) : List Text :=
  if asserts = [] ∧ captures = [] then [[]] else closing asserts captures comments

theorem remaining_blank (asserts captures comments : List Text) :
    ∃ rest, remaining asserts captures comments = [] :: rest := by
  unfold remaining
  split_ifs with hnone
  · exact ⟨[], rfl⟩
  · unfold closing responseLines
    rw [if_neg hnone]
    exact ⟨_, rfl⟩

theorem requestSections_blank (sections : Record Text (List (Text × Text))) (rest : List Text) :
    requestSections library sections ([] :: rest) = (sections, [] :: rest) := by
  rw [requestSections]
  rfl

theorem entriesFrom_remaining (entry : HurlEntry) {asserts captures : List Text}
    (hasserts : ∀ line ∈ asserts, Begun line) (hcaptures : ∀ line ∈ captures, CaptureLine line)
    (comments : List Text) :
    entriesFrom library (response library entry (skipBlank (remaining asserts captures comments))).2 = [] := by
  unfold remaining
  split_ifs with hnone
  · exact entriesFrom_closing library entry (List.forall_mem_nil _) (List.forall_mem_nil _) []
  · exact entriesFrom_closing library entry hasserts hcaptures comments

/-! ## Options -/

theorem starts_title (inner : Text) (rest : List Text) :
    Starts library (('[' :: inner ++ [']']) :: rest) (('[' :: inner ++ [']']) :: rest) :=
  starts_body (.inr (.inl rfl)) (inner ++ [']']) rest

theorem requestSections_title (sections : Record Text (List (Text × Text))) (inner : Text)
    (hne : inner ≠ []) (h : ∀ c ∈ inner, c.isAlpha = true) (rest : List Text) :
    requestSections library sections (('[' :: inner ++ [']']) :: rest) =
      requestSections library (sections.put (inner.map Char.toLower)
        ((sections.read (inner.map Char.toLower)).getD [] ++ (pairs library rest).1)) (pairs library rest).2 := by
  rw [requestSections, hurlSectionName_title library inner hne h]

/-- The options of an entry are read apart from what follows them. -/
theorem read_options (request : Request) {rest left : List Text} (h : Starts library rest left) :
    ∃ lines sections, requestHeaders library (hurlOptionLines request ++ rest) = ([], lines) ∧
      requestSections library [] lines = requestSections library sections left ∧
      ∀ name, name ≠ "options".toList → Record.read sections name = none := by
  unfold hurlOptionLines
  simp only
  generalize hlines : (if request.noFollowRedirects = true then [] else ["location: true".toList]) ++
    (if request.timeoutMs > 0 then ["max-time: ".toList ++
      (toString (((request.timeoutMs + 999).bmod (2 ^ 64)).tdiv 1000)).toList] else []) = lines
  have hends : ∀ line ∈ lines, endsPairs library (trimEnd line) = false := by
    subst hlines
    intro line hline
    have hstart : ∃ c tail, line = c :: tail ∧ (c = 'l' ∨ c = 'm') := by
      rcases List.mem_append.1 hline with hlocation | htime
      · split_ifs at hlocation
        · cases hlocation
        · rw [List.mem_singleton.1 hlocation]
          exact ⟨'l', _, rfl, .inl rfl⟩
      · split_ifs at htime
        · rw [List.mem_singleton.1 htime]
          exact ⟨'m', _, rfl, .inr rfl⟩
        · cases htime
    obtain ⟨c, tail, rfl, hc⟩ := hstart
    have hplain : Go.isSpace c = false ∧ c ∉ ['{', '[', '`', '<', 'H'] := by
      rcases hc with rfl | rfl <;> decide
    rw [trimEnd_cons hplain.1]
    exact endsPairs_cons library hplain.1 hplain.2 _
  by_cases hnone : lines = []
  · rw [if_pos hnone]
    exact ⟨left, [], h.headers, rfl, fun _ _ => rfl⟩
  · rw [if_neg hnone, List.cons_append]
    refine ⟨"[Options]".toList :: (lines ++ rest),
      Record.put [] "options".toList (lines.flatMap fun line => pairOf (trimEnd line)),
      (starts_title "Options".toList (lines ++ rest)).headers,
      (requestSections_title [] "Options".toList (by decide) (by decide) (lines ++ rest)).trans ?_, ?_⟩
    · rw [pairs_append library hends, h.pairs, List.append_nil]
      rfl
    · intro name hname
      rw [Record.read_put_ne _ hname]
      rfl

end Gostman.Importer.Hurl
