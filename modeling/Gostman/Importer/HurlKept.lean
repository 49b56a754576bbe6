import Gostman.Lib.Decided
import Gostman.Importer.HurlFound
/-!
# Requests that survive a Hurl file

A request is kept when `parseHurl` finds in the text of `hurlEntryText` one
entry with what the request says.  `Readable` is what a request needs for it.
-/

namespace Gostman.Importer.Hurl

open Gostman.Lib Gostman.Placeholders Gostman.Importer.Bru

open scoped Gostman.Lib.Decided

variable (library : Library)

/-! ## What is asked of a request -/

/-- The body of the request is in the entry, its placeholders renamed. -/
def BodyKept (body : Body) (entry : HurlEntry) : Prop :=
  match body with
  | .form rows => (Record.read entry.sections "form".toList).getD [] = rows.map renamedRow
  | .multipart rows => (∀ row ∈ rows, row.isFile = false) →
      (Record.read entry.sections "multipartformdata".toList).getD [] = rows.map renamedRow
  | .json text | .text text | .xml text => entry.body = renamed (trimmedBody text)
  | .other => True

/-- `parseHurl` finds the request in what `hurlEntryText` makes of it. -/
def Kept (request : Request) : Prop :=
  ∃ text entry, hurlEntryText library request = some text ∧ parseHurl library text = [entry] ∧
    entry.method = request.method ∧ entry.url = renamed request.address ∧
    entry.headers = (writtenHeaders request).map (fun header => (header.1, renamed header.2)) ∧
    BodyKept request.body entry

/-- The text is read back if no return stands before a line end, and it is not
the name of a section. -/
def ContentReadable (text : Text) (isJson : Bool) : Prop :=
  Go.normalizeNewlines (renamed (trimmedBody text)) = renamed (trimmedBody text) ∧
    (isJson = true → Go.Json.valid (encode (renamed (trimmedBody text))) = true →
      ['['].isPrefixOf (renamed (trimmedBody text)) → isHurlSectionLine library (renamed (trimmedBody text)) = false)

def BodyReadable (body : Body) : Prop :=
  match body with
  | .form rows => ∀ row ∈ rows, RowFits row
  | .multipart rows =>
      (∀ row ∈ rows, ∀ line ∈ pairLine true row, isHurlResponseLine line = false ∧ startsHurlBody line = false) ∧
        ((∀ row ∈ rows, row.isFile = false) → ∀ row ∈ rows, RowFits row)
  | .json text => ContentReadable library text true
  | .text text | .xml text => ContentReadable library text false
  | .other => True

/-- What the reader asks of a request: a method in capital letters, an address
and values that a line holds, no header that reads as a comment, rows that read
as pairs, a body that does not read as a section. -/
structure Readable (request : Request) : Prop where
  asserts : ∀ row ∈ request.assertions, row.enabled = true → cutsShort row.expression = false
  letters : request.method.all (fun c => 'A' ≤ c ∧ c ≤ 'Z') = true
  method : request.method ≠ "HTTP".toList
  address : Fits request.address ∧ request.address ≠ []
  headers : ∀ header ∈ writtenHeaders request, ['#'].isPrefixOf header.1 = false ∧ Fits header.2
  body : BodyReadable library request.body

def TextRows (body : Body) : Prop :=
  match body with
  | .multipart rows => ∀ row ∈ rows, row.isFile = false
  | _ => True

variable {library}

/-! ## The line of the request -/

theorem leadingComments_front (comment : Text) (comments : List Text) {line : Text} (hbegun : Begun line)
    (hcomment : isHurlComment (trimEnd line) = false) (rest : List Text) :
    ∃ found, leadingComments comment (comments.map hurlComment ++ line :: rest) = (found, line :: rest) := by
  induction comments generalizing comment with
  | nil =>
    refine ⟨comment, ?_⟩
    rw [List.map_nil, List.nil_append, leadingComments, hcomment]
    rfl
  | cons first others ih =>
    have hskip : skipBlank (others.map hurlComment ++ line :: rest) = others.map hurlComment ++ line :: rest := by
      cases others with
      | nil => exact skipBlank_begun hbegun rest
      | cons second others => exact skipBlank_begun (begun_comment second) _
    obtain ⟨found, hfound⟩ := ih
      (if comment = [] then trimSpace ((trimSpace (trimEnd (hurlComment first))).dropWhile (· = '#')) else comment)
    refine ⟨found, ?_⟩
    rw [List.map_cons, List.cons_append, leadingComments, if_pos (isHurlComment_comment first), hskip]
    exact hfound

theorem frontLines_eq (request : Request) : ∃ note : List Text,
    frontLines request = (request.name :: note).map hurlComment := by
  unfold frontLines noteLine
  split_ifs
  · exact ⟨[], rfl⟩
  · exact ⟨[request.note], rfl⟩

theorem trimEnd_requestLine {method address : Text} (h : trimSpace address ≠ []) :
    trimEnd (method ++ " ".toList ++ address) = method ++ ' ' :: trimEnd address := by
  obtain ⟨c, hc, hspace⟩ := exists_of_trimSpace h
  have hblank : ∃ c ∈ address, (c == ' ' || c == '\t') = false := by
    refine ⟨c, hc, ?_⟩
    by_contra hend
    simp only [Bool.not_eq_false, Bool.or_eq_true, beq_iff_eq] at hend
    rcases hend with rfl | rfl
    · exact absurd hspace (by decide)
    · exact absurd hspace (by decide)
  rw [List.append_assoc]
  have hline : method ++ (" ".toList ++ address) = (method ++ [' ']) ++ address := by simp
  rw [hline]
  exact (rdropWhile_append hblank _).trans (by simp [trimEnd, Go.trimRight])

theorem letter_facts {c : Char} (h : 'A' ≤ c ∧ c ≤ 'Z') :
    Go.isSpace c = false ∧ c ≠ ' ' ∧ c ≠ '[' ∧ c ≠ '#' ∧ c ≠ '/' := by
  have hascii : c.toNat < 128 := Nat.lt_of_le_of_lt (UInt32.le_iff_toNat_le.1 (Char.le_def.1 h.2)) (by decide)
  have hall := ascii_forall (P := fun c => ('A' ≤ c ∧ c ≤ 'Z') →
    Go.isSpace c = false ∧ c ≠ ' ' ∧ c ≠ '[' ∧ c ≠ '#' ∧ c ≠ '/') (by decide +kernel) hascii
  exact hall h

/-- The line of a request with a method in capital letters is read. -/
structure LineRead (line method url : Text) : Prop where
  begun : Begun line
  comment : isHurlComment (trimEnd line) = false
  parts : hurlRequestParts (trimEnd line) = some (method, url)
  response : isHurlResponseLine (trimEnd line) = false

theorem requestLine_read {request : Request} (hne : request.method ≠ [])
    (hletters : request.method.all (fun c => 'A' ≤ c ∧ c ≤ 'Z') = true) (hmethod : request.method ≠ "HTTP".toList)
    (haddress : trimSpace (hurlLine request.address) ≠ []) :
    LineRead (requestLine request) request.method (trimSpace (hurlLine request.address)) := by
  have hchars : ∀ c ∈ request.method, 'A' ≤ c ∧ c ≤ 'Z' := by
    intro c hc
    simpa using List.all_eq_true.1 hletters c hc
  have hblank : ' ' ∉ request.method := fun hmem => (letter_facts (hchars ' ' hmem)).2.1 rfl
  obtain ⟨first, others, hsplit⟩ := List.exists_cons_of_ne_nil hne
  have hfirst := letter_facts (hchars first (by rw [hsplit]; exact List.mem_cons_self ..))
  have hline : trimEnd (requestLine request) = request.method ++ ' ' :: trimEnd (hurlLine request.address) :=
    trimEnd_requestLine haddress
  constructor
  · refine ⟨first, others ++ " ".toList ++ hurlLine request.address, ?_, hfirst.1, hfirst.2.2.1⟩
    unfold requestLine
    rw [hsplit]
    rfl
  · rw [hline, hsplit]
    exact isHurlComment_cons hfirst.1 hfirst.2.2.2.1 _
  · unfold hurlRequestParts
    rw [hline, Go.cutAt_append hblank]
    simp only [trimSpace_trimEnd]
    rw [if_pos ⟨hne, hletters, haddress⟩]
  · have htrim : trimSpace request.method = request.method :=
      trimSpace_of_plain fun c hc => (letter_facts (hchars c hc)).1
    have hstatus : hurlResponseStatus (trimEnd (requestLine request)) = none := by
      apply hurlResponseStatus_of_word hblank
      · right
        refine ⟨(hurlLine request.address).rdropWhile Go.isSpace, ?_⟩
        have hspace : (' ' :: hurlLine request.address).rdropWhile Go.isSpace =
            ' ' :: (hurlLine request.address).rdropWhile Go.isSpace :=
          rdropWhile_append (exists_of_trimSpace haddress) [' ']
        rw [trimSpace_trimEnd, ← hspace]
        have hrequest : requestLine request = request.method ++ (' ' :: hurlLine request.address) := by
          simp [requestLine]
        rw [hrequest]
        exact trimmed_append htrim hne
      · refine ⟨hmethod, ?_⟩
        intro hstarts
        obtain ⟨more, hmore⟩ := List.isPrefixOf_iff_prefix.1 hstarts
        have hslash : '/' ∈ request.method := by
          rw [← hmore]
          exact List.mem_append_left _ (by decide)
        exact (letter_facts (hchars _ hslash)).2.2.2.2 rfl
    unfold isHurlResponseLine
    rw [hstatus]
    rfl

theorem entriesFrom_request (library : Library) {request : Request} {url : Text} (h : LineRead (requestLine request) request.method url)
    (after : List Text) : ∃ comment, entriesFrom library (frontLines request ++ requestLine request :: after) =
      (requestFrom library comment request.method url after).1 ::
        entriesFrom library (requestFrom library comment request.method url after).2 := by
  obtain ⟨notes, hfront⟩ := frontLines_eq request
  obtain ⟨comment, hcomments⟩ := leadingComments_front [] (request.name :: notes) h.begun h.comment after
  have hread : readEntry library (frontLines request ++ requestLine request :: after) =
      (some (requestFrom library comment request.method url after).1,
        (requestFrom library comment request.method url after).2) := by
    unfold readEntry
    rw [hfront, hcomments]
    simp only [h.parts, h.response]
    rfl
  refine ⟨comment, ?_⟩
  have hskip : skipBlank (frontLines request ++ requestLine request :: after) =
      frontLines request ++ requestLine request :: after := by
    rw [hfront]
    exact skipBlank_begun (begun_comment request.name) _
  rw [entriesFrom]
  split
  · next hlines =>
    rw [hskip, hfront] at hlines
    cases hlines
  · next line rest hlines =>
    rw [hskip] at hlines
    rw [← hlines, hread]
    rfl

/-! ## The lines after it -/

def readHeaders (request : Request) : List (Text × Text) :=
  ((writtenHeaders request).filter fun header => !(['#'].isPrefixOf header.1)).map fun header =>
    (header.1, trimSpace (hurlLine header.2))

theorem readHeaders_eq_iff (request : Request) :
    readHeaders request = (writtenHeaders request).map (fun header => (header.1, renamed header.2)) ↔
      ∀ header ∈ writtenHeaders request, ['#'].isPrefixOf header.1 = false ∧ Fits header.2 := by
  unfold readHeaders
  constructor
  · intro h
    have hlength := congrArg List.length h
    rw [List.length_map, List.length_map] at hlength
    have hall := List.length_filter_eq_length_iff.1 hlength
    rw [List.filter_eq_self.2 hall] at h
    intro header hheader
    have hsame := List.map_inj_left.1 h header hheader
    exact ⟨by simpa using hall header hheader, (Prod.mk.inj hsame).2⟩
  · intro h
    have hall : ∀ header ∈ writtenHeaders request, (!(['#'].isPrefixOf header.1)) = true := by
      intro header hheader
      rw [(h header hheader).1]
      rfl
    rw [List.filter_eq_self.2 hall]
    apply List.map_congr_left
    intro header hheader
    exact congrArg (Prod.mk header.1) (h header hheader).2

/-- How an entry is read whose headers and options end before the lines `left`. -/
structure ReadFrom (library : Library) (request : Request) (left : List Text)
    (options : Record Text (List (Text × Text))) (result : HurlEntry × List Text) : Prop where
  headers : result.1.headers = readHeaders request
  sections : result.1.sections = (requestSections library options left).1
  body : result.1.body = (requestBody (requestSections library options left).2).1
  rest : ∃ entry, result.2 = (response library entry
    (skipBlank (requestBody (requestSections library options left).2).2.2)).2

theorem requestFrom_read (request : Request) (comment method url : Text) {tail left : List Text}
    (h : Starts library tail left) :
    ∃ sections, (∀ name, name ≠ "options".toList → Record.read sections name = none) ∧
      ReadFrom library request left sections (requestFrom library comment method url
        ((writtenHeaders request).map headerLine ++ (hurlOptionLines request ++ tail))) := by
  obtain ⟨lines, sections, hheaders, hsections, hnone⟩ := read_options request h
  have htokens : ∀ header ∈ writtenHeaders request, hurlHeaderToken header.1 = true :=
    fun header hheader => (List.mem_filter.1 hheader).2
  have hread := requestHeaders_append library htokens (hurlOptionLines request ++ tail)
  rw [hheaders, List.append_nil] at hread
  have hfrom : requestFrom library comment method url
      ((writtenHeaders request).map headerLine ++ (hurlOptionLines request ++ tail)) =
        response library
          { comment, method, url, headers := readHeaders request,
            sections := (requestSections library sections left).1,
            body := (requestBody (requestSections library sections left).2).1,
            bodyFile := (requestBody (requestSections library sections left).2).2.1 }
          (skipBlank (requestBody (requestSections library sections left).2).2.2) := by
    unfold requestFrom
    rw [hread]
    simp only
    rw [hsections]
    rfl
  refine ⟨sections, hnone, ?_⟩
  rw [hfrom]
  have hsame := fun entry => response_same library entry
    (skipBlank (requestBody (requestSections library sections left).2).2.2)
  exact ⟨(hsame _).headers, (hsame _).sections, (hsame _).body, _, rfl⟩

/-! ## Bodies -/

section Bodies

variable {request : Request} {options : Record Text (List (Text × Text))} {result : HurlEntry × List Text}
  {asserts captures : List Text} {comments : List Text}

theorem requestBody_blank (rest : List Text) : requestBody ([] :: rest) = ([], false, [] :: rest) := rfl

theorem read_remaining (hasserts : ∀ line ∈ asserts, Begun line) (hcaptures : ∀ line ∈ captures, CaptureLine line)
    (h : ReadFrom library request (remaining asserts captures comments) options result) :
    result.1.sections = options ∧ result.1.body = [] ∧ entriesFrom library result.2 = [] := by
  obtain ⟨rest, hrest⟩ := remaining_blank asserts captures comments
  obtain ⟨entry, hentry⟩ := h.rest
  have hsections := h.sections
  have hbody := h.body
  rw [hrest, requestSections_blank] at hsections hbody hentry
  rw [requestBody_blank] at hbody hentry
  refine ⟨hsections, hbody, ?_⟩
  rw [hentry, ← hrest]
  exact entriesFrom_remaining entry hasserts hcaptures comments

theorem read_form {inner : Text} (hne : inner ≠ []) (halpha : ∀ c ∈ inner, c.isAlpha = true)
    (hoptions : Record.read options (inner.map Char.toLower) = none) {files : Bool} {rows : List Row}
    (h : ReadFrom library request (('[' :: inner ++ [']']) :: (rows.filterMap (pairLine files) ++
      closing asserts captures comments)) options result) :
    (Record.read result.1.sections (inner.map Char.toLower)).getD [] =
      (pairs library (rows.filterMap (pairLine files) ++ closing asserts captures comments)).1 := by
  obtain ⟨rest, hrest⟩ := remaining_blank asserts captures comments
  have hclosing : pairs library (closing asserts captures comments) = ([], remaining asserts captures comments) :=
    (starts_closing asserts captures comments).pairs
  rw [hrest] at hclosing
  have hcolon : ∀ line ∈ rows.filterMap (pairLine files), ':' ∈ line := by
    intro line hline
    obtain ⟨row, -, hmade⟩ := List.mem_filterMap.1 hline
    exact pairLine_colon hmade
  rw [h.sections, requestSections_rows options inner hne halpha hcolon hclosing, Record.read_put, if_pos rfl, hoptions]
  rfl

theorem read_form_end {inner : Text} (hne : inner ≠ []) (halpha : ∀ c ∈ inner, c.isAlpha = true)
    {files : Bool} {rows : List Row} (hasserts : ∀ line ∈ asserts, Begun line)
    (hcaptures : ∀ line ∈ captures, CaptureLine line)
    (hends : ∀ row ∈ rows, ∀ line ∈ pairLine files row, isHurlResponseLine line = false ∧ startsHurlBody line = false)
    (h : ReadFrom library request (('[' :: inner ++ [']']) :: (rows.filterMap (pairLine files) ++
      closing asserts captures comments)) options result) :
    entriesFrom library result.2 = [] := by
  obtain ⟨rest, hrest⟩ := remaining_blank asserts captures comments
  have hclosing : pairs library (closing asserts captures comments) = ([], remaining asserts captures comments) :=
    (starts_closing asserts captures comments).pairs
  have hlines : ∀ line ∈ rows.filterMap (pairLine files), endsPairs library (trimEnd line) = false := by
    intro line hline
    obtain ⟨row, hrow, hmade⟩ := List.mem_filterMap.1 hline
    rw [endsPairs_trimEnd, endsPairs_of_colon (pairLine_colon hmade), (hends row hrow line hmade).1,
      (hends row hrow line hmade).2]
    rfl
  have hpairs : (pairs library (rows.filterMap (pairLine files) ++ closing asserts captures comments)).2 =
      [] :: rest := by
    rw [pairs_append library hlines, hclosing, hrest]
  have hcolon : ∀ line ∈ rows.filterMap (pairLine files), ':' ∈ line := by
    intro line hline
    obtain ⟨row, -, hmade⟩ := List.mem_filterMap.1 hline
    exact pairLine_colon hmade
  obtain ⟨entry, hentry⟩ := h.rest
  rw [hrest] at hclosing
  rw [requestSections_rows options inner hne halpha hcolon hclosing] at hentry
  simp only at hentry
  rw [hpairs, requestBody_blank] at hentry
  rw [hentry, ← hrest]
  exact entriesFrom_remaining entry hasserts hcaptures comments

/-! ## Contents -/

theorem splitOn_break (front rest : Text) :
    readLines (front ++ '\n' :: rest) = readLines front ++ readLines rest := by
  unfold readLines
  rw [List.splitOn_append_cons_self, List.map_append]

theorem readLines_fenced (text : Text) :
    readLines (fence ++ "\n".toList ++ text ++ "\n".toList ++ fence) = fence :: (readLines text ++ [fence]) := by
  have hfence : readLines fence = [fence] := by decide
  have hsplit : fence ++ "\n".toList ++ text ++ "\n".toList ++ fence =
      fence ++ '\n' :: (text ++ '\n' :: fence) := by simp
  rw [hsplit, splitOn_break, splitOn_break, hfence]
  rfl

theorem hurlBodyText_eq (text : Text) (isJson : Bool) :
    hurlBodyText text isJson =
      if isJson ∧ Go.Json.valid (encode (renamed text)) ∧
          ("\x7b".toList.isPrefixOf (renamed text) ∨ "[".toList.isPrefixOf (renamed text)) then
        some (renamed text)
      else if fence <:+: renamed text then none
      else some (fence ++ "\n".toList ++ renamed text ++ "\n".toList ++ fence) := rfl

theorem opens_iff (text : Text) : ("\x7b".toList.isPrefixOf text = true ∨ "[".toList.isPrefixOf text = true) ↔
    ∃ c rest, text = c :: rest ∧ (c = '{' ∨ c = '[') := by
  constructor
  · rintro (hbrace | hbracket)
    · obtain ⟨rest, hrest⟩ := List.isPrefixOf_iff_prefix.1 hbrace
      exact ⟨'{', rest, hrest.symm, .inl rfl⟩
    · obtain ⟨rest, hrest⟩ := List.isPrefixOf_iff_prefix.1 hbracket
      exact ⟨'[', rest, hrest.symm, .inr rfl⟩
  · rintro ⟨c, rest, rfl, rfl | rfl⟩
    · exact .inl (List.isPrefixOf_iff_prefix.2 ⟨rest, rfl⟩)
    · exact .inr (List.isPrefixOf_iff_prefix.2 ⟨rest, rfl⟩)

theorem contentParts_cases {text : Text} {isJson : Bool} (hnote : (contentParts text isJson).2.2 = []) :
    (renamed (trimmedBody text) = [] ∧ (contentParts text isJson).2.1 = []) ∨
    (isJson = true ∧ Bracketed (renamed (trimmedBody text)) ∧
      (contentParts text isJson).2.1 = renamed (trimmedBody text)) ∨
    (renamed (trimmedBody text) ≠ [] ∧ ¬ (isJson = true ∧ Bracketed (renamed (trimmedBody text))) ∧
      ¬ fence <:+: renamed (trimmedBody text) ∧ (contentParts text isJson).2.1 =
        fence ++ "\n".toList ++ renamed (trimmedBody text) ++ "\n".toList ++ fence) := by
  have hlast := getLast_content text
  by_cases hempty : trimmedBody text = []
  · left
    unfold contentParts
    rw [if_pos hempty]
    exact ⟨(renamed_eq_nil_iff _).2 hempty, rfl⟩
  · right
    have hne : renamed (trimmedBody text) ≠ [] := fun hnil => hempty ((renamed_eq_nil_iff _).1 hnil)
    unfold contentParts at hnote ⊢
    rw [if_neg hempty, hurlBodyText_eq] at hnote ⊢
    revert hne hnote hlast
    generalize renamed (trimmedBody text) = written
    intro hnote hlast hne
    by_cases hraw : isJson = true ∧ Go.Json.valid (encode written) = true ∧
        ("\x7b".toList.isPrefixOf written = true ∨ "[".toList.isPrefixOf written = true)
    · left
      rw [if_pos hraw]
      exact ⟨hraw.1, ⟨hraw.2.1, (opens_iff written).1 hraw.2.2, hlast⟩, rfl⟩
    · right
      rw [if_neg hraw] at hnote ⊢
      by_cases hfence : fence <:+: written
      · rw [if_pos hfence] at hnote
        exact absurd hnote (by decide)
      · rw [if_neg hfence]
        refine ⟨hne, ?_, hfence, rfl⟩
        rintro ⟨hjson, hbracketed⟩
        exact hraw ⟨hjson, hbracketed.valid, (opens_iff written).2 hbracketed.opens⟩

theorem read_closing (hasserts : ∀ line ∈ asserts, Begun line) (hcaptures : ∀ line ∈ captures, CaptureLine line)
    {body : Text} {lines : List Text}
    (hbody : requestBody lines = (body, false, closing asserts captures comments))
    (hsections : requestSections library options lines = (options, lines))
    (h : ReadFrom library request lines options result) :
    result.1.body = body ∧ entriesFrom library result.2 = [] := by
  obtain ⟨entry, hentry⟩ := h.rest
  rw [hsections] at hentry
  simp only at hentry
  rw [hbody] at hentry
  constructor
  · rw [h.body, hsections]
    simp only
    rw [hbody]
  · rw [hentry]
    exact entriesFrom_closing library entry hasserts hcaptures comments

theorem requestSections_stops {line : Text} (hsection : isHurlSectionLine library (trimEnd line) = false)
    (hcomment : isHurlComment (trimEnd line) = false) (rest : List Text) :
    requestSections library options (line :: rest) = (options, line :: rest) := by
  have hnone : hurlSectionName library (trimEnd line) = none := by
    rwa [isHurlSectionLine, Option.isSome_eq_false_iff, Option.isNone_iff_eq_none] at hsection
  rw [requestSections, hnone, hcomment]
  rfl

theorem read_fenced (hasserts : ∀ line ∈ asserts, Begun line) (hcaptures : ∀ line ∈ captures, CaptureLine line)
    {text : Text} (hfence : ¬ fence <:+: text) (hlast : ∀ c, text.getLast? = some c → c ≠ '\r')
    (h : ReadFrom library request (fence :: (readLines text ++ [fence]) ++ closing asserts captures comments)
      options result) :
    result.1.body = Go.normalizeNewlines text ∧ entriesFrom library result.2 = [] := by
  have hlines : fence :: (readLines text ++ [fence]) ++ closing asserts captures comments =
      fence :: (readLines text ++ fence :: closing asserts captures comments) := by simp
  rw [hlines] at h
  have hbody := requestBody_fenced hfence (closing asserts captures comments)
  rw [joined_readLines hlast] at hbody
  refine read_closing hasserts hcaptures hbody ?_ h
  apply requestSections_stops
  · have hnone := not_section_cons library (show Go.isSpace '`' = false by decide) (by decide) ['`', '`']
    have hend : trimEnd fence = '`' :: ['`', '`'] := by decide
    unfold isHurlSectionLine
    rw [hend, hnone]
    rfl
  · decide

theorem read_bracketed (hasserts : ∀ line ∈ asserts, Begun line) (hcaptures : ∀ line ∈ captures, CaptureLine line)
    {text : Text} (htext : Bracketed text)
    (h : ReadFrom library request (readLines text ++ closing asserts captures comments) options result) :
    (isHurlSectionLine library text = false →
      result.1.body = Go.normalizeNewlines text ∧ entriesFrom library result.2 = []) ∧
    (isHurlSectionLine library text = true → result.1.body = []) := by
  obtain ⟨c, line, more, hread, hc⟩ := htext.readLines_eq
  have hfirst : isHurlSectionLine library (c :: line) = true ↔ isHurlSectionLine library text = true :=
    htext.section_first hread
  have hspace : Go.isSpace c = false ∧ c ≠ '#' := by
    rcases hc with rfl | rfl <;> decide
  constructor
  · intro hsection
    have hbody := requestBody_bracketed htext (closing asserts captures comments)
    have hlast : ∀ c, text.getLast? = some c → c ≠ '\r' := by
      rintro c hc rfl
      exact absurd (htext.last _ hc) (by decide)
    rw [joined_readLines hlast] at hbody
    refine read_closing hasserts hcaptures hbody ?_ h
    rw [hread, List.cons_append]
    apply requestSections_stops
    · rw [isHurlSectionLine_trimEnd, Bool.eq_false_iff, Ne, hfirst, hsection]
      exact Bool.false_ne_true
    · rw [trimEnd_cons hspace.1]
      exact isHurlComment_cons hspace.1 hspace.2 _
  · intro hsection
    have hline := hfirst.2 hsection
    have hdepth := section_closes ⟨c, line, rfl, hspace.1⟩ hline
    have hbalanced := htext.balanced_eq []
    rw [hread, List.cons_append, balanced_ends (le_of_eq hdepth)] at hbalanced
    obtain ⟨-, rfl⟩ := List.cons.inj (Prod.mk.inj hbalanced).1
    obtain ⟨name, hname⟩ := Option.isSome_iff_exists.1 hline
    have htrim : hurlSectionName library (trimEnd (c :: line)) = some name := by
      unfold hurlSectionName at hname ⊢
      rw [trimSpace_trimEnd]
      exact hname
    have hclosing : pairs library (closing asserts captures comments) = ([], remaining asserts captures comments) :=
      (starts_closing asserts captures comments).pairs
    obtain ⟨rest, hrest⟩ := remaining_blank asserts captures comments
    rw [h.body, hread, List.singleton_append, requestSections, htrim]
    simp only
    rw [hclosing, hrest]
    simp only
    rw [requestSections_blank, requestBody_blank]

def contentLines (text : Text) (isJson : Bool) : List Text :=
  if (contentParts text isJson).2.1 = [] then [] else readLines (contentParts text isJson).2.1

/-- The lines after the one of the request, for a body with the given lines. -/
def requestLines (request : Request) (lines asserts captures comments : List Text) : List Text :=
  (writtenHeaders request).map headerLine ++ (hurlOptionLines request ++ (lines ++ closing asserts captures comments))

theorem content_read (hasserts : ∀ line ∈ asserts, Begun line) (hcaptures : ∀ line ∈ captures, CaptureLine line)
    {text : Text} {isJson : Bool} (hnote : (contentParts text isJson).2.2 = []) (comment method url : Text)
    (hresult : result = requestFrom library comment method url
      (requestLines request (contentLines text isJson) asserts captures comments)) :
    result.1.headers = readHeaders request ∧
    (ContentReadable library text isJson ↔ result.1.body = renamed (trimmedBody text)) ∧
    (ContentReadable library text isJson → entriesFrom library result.2 = []) := by
  have hlast := getLast_content text
  have hreturn : ∀ c, (renamed (trimmedBody text)).getLast? = some c → c ≠ '\r' := by
    rintro c hc rfl
    exact absurd (hlast _ hc) (by decide)
  unfold requestLines contentLines at hresult
  rcases contentParts_cases hnote with ⟨hempty, hwritten⟩ | ⟨hjson, hbracketed, hwritten⟩ |
    ⟨hne, hother, hfence, hwritten⟩
  · -- no text: nothing is written and nothing is read
    rw [hwritten, if_pos rfl, List.nil_append] at hresult
    obtain ⟨sections, -, hread⟩ := requestFrom_read request comment method url
      (starts_closing asserts captures comments : Starts library _ _)
    rw [← hresult] at hread
    obtain ⟨-, hbody, hend⟩ := read_remaining hasserts hcaptures hread
    refine ⟨hread.headers, iff_of_true ⟨?_, ?_⟩ ?_, fun _ => hend⟩
    · rw [hempty]
      rfl
    · intro _ _ hstarts
      rw [hempty] at hstarts
      cases hstarts
    · rw [hbody, hempty]
  · -- a text in brackets is written as it is
    obtain ⟨c, line, more, hlines, hc⟩ := hbracketed.readLines_eq
    rw [hwritten, if_neg (by rintro hnil; obtain ⟨_, _, hcons, -⟩ := hbracketed.opens; rw [hnil] at hcons; cases hcons),
      hlines, List.cons_append] at hresult
    have hchar : c = '{' ∨ c = '[' ∨ c = '`' := by
      rcases hc with rfl | rfl
      · exact .inl rfl
      · exact .inr (.inl rfl)
    obtain ⟨sections, -, hread⟩ := requestFrom_read request comment method url
      (starts_body hchar line (more ++ closing asserts captures comments) : Starts library _ _)
    rw [← hresult] at hread
    have hheaders := hread.headers
    rw [← List.cons_append, ← hlines] at hread
    obtain ⟨hplain, hsection⟩ := read_bracketed hasserts hcaptures hbracketed hread
    have hname : ContentReadable library text isJson →
        isHurlSectionLine library (renamed (trimmedBody text)) = false := by
      intro hreadable
      obtain ⟨d, rest, htext, hd⟩ := hbracketed.opens
      rcases hd with rfl | rfl
      · unfold isHurlSectionLine
        rw [htext, not_section_cons library (by decide) (by decide)]
        rfl
      · exact hreadable.2 hjson hbracketed.valid (by rw [htext]; rfl)
    refine ⟨hheaders, ⟨?_, ?_⟩, fun hreadable => (hplain (hname hreadable)).2⟩
    · intro hreadable
      rw [(hplain (hname hreadable)).1, hreadable.1]
    · intro hbody
      cases hline : isHurlSectionLine library (renamed (trimmedBody text)) with
      | false =>
        refine ⟨?_, fun _ _ _ => hline⟩
        rw [← (hplain hline).1, hbody]
      | true =>
        rw [hsection hline] at hbody
        obtain ⟨d, rest, htext, -⟩ := hbracketed.opens
        rw [htext] at hbody
        cases hbody
  · -- any other text stands between fences
    rw [hwritten, if_neg (by simp [fence]), readLines_fenced] at hresult
    obtain ⟨sections, -, hread⟩ := requestFrom_read request comment method url
      (starts_body (.inr (.inr rfl)) ['`', '`']
        (readLines (renamed (trimmedBody text)) ++ [fence] ++ closing asserts captures comments) : Starts library _ _)
    change ReadFrom library request _ sections (requestFrom library comment method url
      ((writtenHeaders request).map headerLine ++ (hurlOptionLines request ++
        (fence :: (readLines (renamed (trimmedBody text)) ++ [fence]) ++ closing asserts captures comments)))) at hread
    rw [← hresult] at hread
    obtain ⟨hbody, hend⟩ := read_fenced hasserts hcaptures hfence hreturn hread
    refine ⟨hread.headers, ⟨?_, ?_⟩, fun _ => hend⟩
    · intro hreadable
      rw [hbody, hreadable.1]
    · intro hsame
      refine ⟨by rw [← hbody, hsame], ?_⟩
      intro hjson hvalid hstarts
      obtain ⟨rest, hrest⟩ := List.isPrefixOf_iff_prefix.1 hstarts
      exact absurd ⟨hjson, hvalid, ⟨'[', rest, hrest.symm, .inr rfl⟩, hlast⟩ hother

theorem form_read (hasserts : ∀ line ∈ asserts, Begun line) (hcaptures : ∀ line ∈ captures, CaptureLine line)
    {inner : Text} (hne : inner ≠ []) (halpha : ∀ c ∈ inner, c.isAlpha = true)
    (hname : inner.map Char.toLower ≠ "options".toList) {files : Bool} {rows : List Row} (comment method url : Text)
    (hresult : result = requestFrom library comment method url
      (requestLines request (hurlPairLines ('[' :: inner ++ [']']) rows files) asserts captures comments)) :
    result.1.headers = readHeaders request ∧
    (Record.read result.1.sections (inner.map Char.toLower)).getD [] =
      (pairs library (rows.filterMap (pairLine files) ++ closing asserts captures comments)).1 ∧
    ((∀ row ∈ rows, ∀ line ∈ pairLine files row, isHurlResponseLine line = false ∧ startsHurlBody line = false) →
      entriesFrom library result.2 = []) := by
  unfold requestLines hurlPairLines at hresult
  by_cases hrows : rows = []
  · rw [if_pos hrows, List.nil_append] at hresult
    obtain ⟨sections, hnone, hread⟩ := requestFrom_read request comment method url
      (starts_closing asserts captures comments : Starts library _ _)
    rw [← hresult] at hread
    obtain ⟨hsections, -, hend⟩ := read_remaining hasserts hcaptures hread
    refine ⟨hread.headers, ?_, fun _ => hend⟩
    have hclosing : pairs library (closing asserts captures comments) = ([], remaining asserts captures comments) :=
      (starts_closing asserts captures comments).pairs
    rw [hsections, hnone _ hname, hrows, List.filterMap_nil, List.nil_append, hclosing]
    rfl
  · rw [if_neg hrows, List.cons_append] at hresult
    obtain ⟨sections, hnone, hread⟩ := requestFrom_read request comment method url
      (starts_title inner (rows.filterMap (pairLine files) ++ closing asserts captures comments) : Starts library _ _)
    rw [← hresult] at hread
    exact ⟨hread.headers, read_form hne halpha (hnone _ hname) hread,
      fun hends => read_form_end hne halpha hasserts hcaptures hends hread⟩

theorem other_read (hasserts : ∀ line ∈ asserts, Begun line) (hcaptures : ∀ line ∈ captures, CaptureLine line)
    (comment method url : Text) (hresult : result = requestFrom library comment method url
      (requestLines request [] asserts captures comments)) :
    result.1.headers = readHeaders request ∧ entriesFrom library result.2 = [] := by
  unfold requestLines at hresult
  rw [List.nil_append] at hresult
  obtain ⟨sections, -, hread⟩ := requestFrom_read request comment method url
    (starts_closing asserts captures comments : Starts library _ _)
  rw [← hresult] at hread
  exact ⟨hread.headers, (read_remaining hasserts hcaptures hread).2.2⟩

theorem RowFits.pairLine_ends {files : Bool} {row : Row} (h : RowFits row) (htext : files = true → row.isFile = false) :
    ∀ line ∈ pairLine files row, isHurlResponseLine line = false ∧ startsHurlBody line = false := by
  intro line hline
  rw [pairLine_text htext, h.text, if_neg Bool.false_ne_true] at hline
  obtain rfl := Option.some.inj hline
  exact ⟨h.line.response, h.line.body⟩

/-- Each kind of body, read after the headers. -/
theorem body_read (hasserts : ∀ line ∈ asserts, Begun line) (hcaptures : ∀ line ∈ captures, CaptureLine line)
    (hnote : (hurlBody request).2.2 = []) (comment method url : Text)
    (hresult : result = requestFrom library comment method url
      (requestLines request (bodyLines request) asserts captures comments)) :
    result.1.headers = readHeaders request ∧
    (BodyReadable library request.body → BodyKept request.body result.1 ∧ entriesFrom library result.2 = []) ∧
    (TextRows request.body → BodyKept request.body result.1 → BodyReadable library request.body) := by
  have hclosing : pairs library (closing asserts captures comments) = ([], remaining asserts captures comments) :=
    (starts_closing asserts captures comments).pairs
  have hcontent : ∀ text isJson, hurlBody request = contentParts text isJson →
      bodyLines request = contentLines text isJson := by
    intro text isJson hbody
    unfold bodyLines contentLines
    rw [hbody, contentParts_sections, List.nil_append]
  unfold hurlBody at hnote hcontent
  cases hbody : request.body with
  | form rows =>
    have hlines : bodyLines request = hurlPairLines ('[' :: "Form".toList ++ [']']) rows false := by
      unfold bodyLines hurlBody
      rw [hbody]
      exact List.append_nil _
    rw [hlines] at hresult
    obtain ⟨hheaders, hsection, hend⟩ := form_read hasserts hcaptures (by decide) (by decide) (by decide)
      comment method url hresult
    have hiff := pairs_rows_iff hclosing false rows (fun _ _ h => absurd h (by decide))
    rw [← hsection] at hiff
    refine ⟨hheaders, fun hreadable => ⟨hiff.2 hreadable, hend ?_⟩, fun _ hkept => hiff.1 hkept⟩
    exact fun row hrow => (hreadable row hrow).pairLine_ends fun h => absurd h (by decide)
  | multipart rows =>
    have hlines : bodyLines request = hurlPairLines ('[' :: "MultipartFormData".toList ++ [']']) rows true := by
      unfold bodyLines hurlBody
      rw [hbody]
      exact List.append_nil _
    rw [hlines] at hresult
    obtain ⟨hheaders, hsection, hend⟩ := form_read hasserts hcaptures (by decide) (by decide) (by decide)
      comment method url hresult
    have hiff : (∀ row ∈ rows, row.isFile = false) →
        ((Record.read result.1.sections "multipartformdata".toList).getD [] = rows.map renamedRow ↔
          ∀ row ∈ rows, RowFits row) := by
      intro htext
      rw [← pairs_rows_iff hclosing true rows (fun row hrow _ => htext row hrow), ← hsection]
      rfl
    refine ⟨hheaders, fun hreadable => ⟨fun htext => (hiff htext).2 (hreadable.2 htext), hend hreadable.1⟩, ?_⟩
    intro htext hkept
    have hrows := (hiff htext).1 (hkept htext)
    exact ⟨fun row hrow => (hrows row hrow).pairLine_ends fun _ => htext row hrow, fun _ => hrows⟩
  | json text =>
    rw [hbody] at hnote hcontent
    rw [hcontent text true rfl] at hresult
    obtain ⟨hheaders, hiff, hend⟩ := content_read hasserts hcaptures hnote comment method url hresult
    exact ⟨hheaders, fun hreadable => ⟨hiff.1 hreadable, hend hreadable⟩, fun _ hkept => hiff.2 hkept⟩
  | text text =>
    rw [hbody] at hnote hcontent
    rw [hcontent text false rfl] at hresult
    obtain ⟨hheaders, hiff, hend⟩ := content_read hasserts hcaptures hnote comment method url hresult
    exact ⟨hheaders, fun hreadable => ⟨hiff.1 hreadable, hend hreadable⟩, fun _ hkept => hiff.2 hkept⟩
  | xml text =>
    rw [hbody] at hnote hcontent
    rw [hcontent text false rfl] at hresult
    obtain ⟨hheaders, hiff, hend⟩ := content_read hasserts hcaptures hnote comment method url hresult
    exact ⟨hheaders, fun hreadable => ⟨hiff.1 hreadable, hend hreadable⟩, fun _ hkept => hiff.2 hkept⟩
  | other =>
    have hlines : bodyLines request = [] := by
      unfold bodyLines hurlBody
      rw [hbody]
      rfl
    rw [hlines] at hresult
    obtain ⟨hheaders, hend⟩ := other_read hasserts hcaptures comment method url hresult
    exact ⟨hheaders, fun _ => ⟨trivial, hend⟩, fun _ _ => trivial⟩

end Bodies

end Gostman.Importer.Hurl
