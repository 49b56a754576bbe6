import Gostman.Importer.HttpRequest
import Gostman.Importer.HurlKept
/-!
# Requests through a Hurl file and back
-/

namespace Gostman.Importer.Hurl

open Gostman.Lib Gostman.Placeholders Gostman.Importer.Bru

variable {library : Library}

/-! ## Addresses that are blank on a line -/

theorem blank_of_mapPlaceholders {text : Text} :
    (∀ c ∈ mapPlaceholders hurlPlaceholder text, Go.isSpace c = true) → ∀ c ∈ text, Go.isSpace c = true := by
  fun_cases mapPlaceholders hurlPlaceholder text with
  | case1 => exact id
  | case2 => exact id
  | case3 before after hopen inner rest hclose =>
    intro h
    have hbrace := h '{' (List.mem_append_left _ (List.mem_append_right _ (braced_mem_placeholder _)))
    exact absurd hbrace (by decide)

theorem renamed_of_no_brace {text : Text} (h : '{' ∉ text) : renamed text = text := by
  unfold renamed
  fun_cases mapPlaceholders hurlPlaceholder text with
  | case1 => rfl
  | case2 => rfl
  | case3 before after hopen inner rest hclose =>
    exact absurd (by rw [Curl.cutPair_eq hopen]; simp) h

/-- An address that is blank on a line has no other characters than those that
are hidden. -/
theorem hidden_of_blank {address : Text} (h : trimSpace (hurlLine address) = []) :
    renamed address = address ∧ ∀ c ∈ address, Go.isSpace c = false → hidden c = true := by
  have hline := blank_of_mapPlaceholders (trimmed_eq_nil_iff.1 h)
  have hblank : ∀ c ∈ address, Go.isSpace c = false → isUnsafeRune c = true := by
    intro c hc hspace
    by_contra hsafe
    have hmem : c ∈ singleLine address := List.mem_map.2 ⟨c, hc, if_neg hsafe⟩
    rw [hline c hmem] at hspace
    cases hspace
  constructor
  · apply renamed_of_no_brace
    intro hmem
    exact absurd (hblank '{' hmem (by decide)) (by decide)
  · intro c hc hspace
    unfold hidden
    rw [hblank c hc hspace, hspace]
    rfl

/-! ## Hidden characters of a file -/

theorem count_safe {lines : List Text} (h : ∀ line ∈ lines, Safe line) : lines.flatten.countP hidden = 0 := by
  rw [List.countP_eq_zero]
  intro c hc
  obtain ⟨line, hline, hmem⟩ := List.mem_flatten.1 hc
  unfold hidden
  rw [h line hline c hmem]
  exact Bool.false_ne_true

theorem count_readLines (text : Text) : (readLines text).flatten.countP hidden ≤ text.countP hidden := by
  have hlines : ∀ lines : List Text, (lines.map withoutReturn).flatten.countP hidden ≤ lines.flatten.countP hidden := by
    intro lines
    induction lines with
    | nil => exact Nat.le_refl _
    | cons line rest ih =>
      have hline := count_sublist (withoutReturn_isPrefix line).sublist
      rw [List.map_cons, List.flatten_cons, List.flatten_cons, List.countP_append, List.countP_append]
      omega
  have hsplit : (text.splitOn '\n').flatten.countP hidden = text.countP hidden := by
    rw [← count_joined]
    unfold joined
    rw [List.intercalate_splitOn]
  exact (hlines _).trans (le_of_eq hsplit)

theorem count_content {text : Text} {isJson : Bool} (hnote : (contentParts text isJson).2.2 = []) :
    (contentParts text isJson).2.1.countP hidden ≤ (renamed (trimmedBody text)).countP hidden := by
  have hfence : fence.countP hidden = 0 ∧ "\n".toList.countP hidden = 0 := by decide
  rcases contentParts_cases hnote with ⟨-, hwritten⟩ | ⟨-, -, hwritten⟩ | ⟨-, -, -, hwritten⟩
  · rw [hwritten]
    exact Nat.zero_le _
  · rw [hwritten]
  · rw [hwritten]
    simp only [List.countP_append, hfence.1, hfence.2]
    omega

/-- What is written of a body has no more hidden characters than the body. -/
theorem count_body {request : Request} {entry : HurlEntry} (hnote : (hurlBody request).2.2 = [])
    (h : BodyKept request.body entry) : (hurlBody request).2.1.countP hidden ≤ entry.body.countP hidden := by
  unfold hurlBody at hnote ⊢
  cases hbody : request.body with
  | form rows => exact Nat.zero_le _
  | multipart rows => exact Nat.zero_le _
  | other => exact Nat.zero_le _
  | json text =>
    rw [hbody] at h hnote
    exact (count_content hnote).trans (le_of_eq (congrArg (List.countP hidden) h.symm))
  | text text =>
    rw [hbody] at h hnote
    exact (count_content hnote).trans (le_of_eq (congrArg (List.countP hidden) h.symm))
  | xml text =>
    rw [hbody] at h hnote
    exact (count_content hnote).trans (le_of_eq (congrArg (List.countP hidden) h.symm))

theorem count_bodyLines (request : Request) :
    (bodyLines request).flatten.countP hidden ≤ (hurlBody request).2.1.countP hidden := by
  unfold bodyLines
  rw [List.flatten_append, List.countP_append, count_safe (safe_sections request), Nat.zero_add]
  split_ifs
  · exact Nat.zero_le _
  · exact count_readLines _

theorem count_lines_written {request : Request} (hmethod : validMethod request.method = true)
    {asserts left : List Text} (hasserts : hurlAssertLines library request.assertions = some (asserts, left)) :
    (frontLines request ++ requestLine request :: afterLines request asserts left).flatten.countP hidden ≤
      (hurlBody request).2.1.countP hidden := by
  have hcomments : ∀ line ∈ (left ++ (hurlCaptureLines request.extractors).2).map hurlComment, Safe line := by
    intro line hline
    obtain ⟨text, -, rfl⟩ := List.mem_map.1 hline
    exact safe_comment text
  have hresponse := safe_responseLines (fun line hline => (hurlAssertLines_spec hasserts line hline).1)
    (fun line hline => (hurlCaptureLines_spec request.extractors line hline).1)
  have hclosing : (closingLines request asserts left).flatten.countP hidden = 0 := by
    apply count_safe
    intro line hline
    unfold closingLines closing at hline
    rw [List.mem_append, List.mem_append, List.mem_singleton] at hline
    rcases hline with hresponseLine | hcomment | rfl
    · exact hresponse line hresponseLine
    · exact hcomments line hcomment
    · exact List.forall_mem_nil _
  have hline : (requestLine request).countP hidden = 0 := by
    rw [List.countP_eq_zero]
    intro c hc
    unfold hidden
    rw [safe_requestLine hmethod c hc]
    exact Bool.false_ne_true
  have hbody := count_bodyLines request
  unfold afterLines
  simp only [List.flatten_append, List.flatten_cons, List.countP_append, count_safe (safe_frontLines request),
    count_safe (safe_headers request), count_safe (safe_options request), hclosing, hline]
  omega

/-! ## The round trip -/

theorem asserts_of_text {request : Request} (hprotocol : request.protocol = []) {text : Text}
    (h : hurlEntryText library request = some text) :
    (hurlAssertLines library request.assertions).isSome = true := by
  obtain ⟨lines, hlines, -⟩ := Option.map_eq_some_iff.1 h
  unfold hurlEntryLines at hlines
  rw [if_neg (by simp [hprotocol])] at hlines
  obtain ⟨parts, hparts, -⟩ := Option.bind_eq_some_iff.1 hlines
  exact Option.isSome_of_eq_some hparts

/-- The request line of a request that is kept is not blank after its method. -/
theorem address_of_kept {request : Request} (hmethod : validMethod request.method = true)
    (hnote : (hurlBody request).2.2 = []) {asserts left : List Text}
    (hasserts : hurlAssertLines library request.assertions = some (asserts, left)) {entry : HurlEntry}
    (hentry : entry ∈ entriesFrom library (frontLines request ++ requestLine request :: afterLines request asserts left))
    (hurl : entry.url = renamed request.address) (hbody : BodyKept request.body entry) :
    trimSpace (hurlLine request.address) ≠ [] := by
  intro hblank
  obtain ⟨hsame, hhidden⟩ := hidden_of_blank hblank
  obtain ⟨line, rest, hsuffix, hfound⟩ := entriesFrom_found hentry
  obtain ⟨hne, htrim, hline⟩ := hfound.url
  have hurlCount : 0 < entry.url.countP hidden := by
    obtain ⟨c, hc, hspace⟩ := exists_of_trimSpace (htrim.symm ▸ hne)
    rw [List.countP_pos_iff]
    refine ⟨c, hc, hhidden c ?_ hspace⟩
    rwa [hurl, hsame] at hc
  have hlineCount := count_sublist hline
  have hall := count_suffix hsuffix
  rw [List.flatten_cons, List.countP_append] at hall
  have hfile := count_lines_written hmethod hasserts
  have hwritten := count_body hnote hbody
  have hrest := hfound.body
  omega

section

variable {request : Request} (hprotocol : request.protocol = []) (hmethod : validMethod request.method = true)
  (hnote : (hurlBody request).2.2 = [])

include hprotocol hmethod hnote

theorem kept_of_readable (h : Readable library request) : Kept library request := by
  have hne : request.method ≠ [] := by
    rintro hnil
    rw [hnil] at hmethod
    cases hmethod
  have hcaptures : ∀ line ∈ (hurlCaptureLines request.extractors).1, CaptureLine line :=
    fun line hline => (hurlCaptureLines_spec request.extractors line hline).2
  obtain ⟨⟨asserts, left⟩, hasserts⟩ := Option.isSome_iff_exists.1 ((hurlAssertLines_isSome_iff _).2 h.asserts)
  have hbegun : ∀ line ∈ asserts, Begun line := fun line hline => (hurlAssertLines_spec hasserts line hline).2.begun
  obtain ⟨text, htext, hparse⟩ := parseHurl_written hprotocol hmethod hnote hasserts
  have haddress : trimSpace (hurlLine request.address) ≠ [] := by
    rw [h.address.1, Ne, renamed_eq_nil_iff]
    exact h.address.2
  have hline := requestLine_read hne h.letters h.method haddress
  obtain ⟨comment, hentries⟩ := entriesFrom_request library hline (afterLines request asserts left)
  obtain ⟨hheaders, hkept, -⟩ := body_read hbegun hcaptures hnote comment request.method
    (trimSpace (hurlLine request.address)) (rfl : _ = requestFrom library comment request.method
      (trimSpace (hurlLine request.address)) (afterLines request asserts left))
  have hfound := (requestFrom_found library comment (afterLines request asserts left) hline.parts
    hline.response).parts
  obtain ⟨hmethodRead, hurlRead⟩ := Prod.mk.inj (Option.some.inj (hfound.symm.trans hline.parts))
  obtain ⟨hbody, hend⟩ := hkept h.body
  refine ⟨text, _, htext, ?_, hmethodRead, hurlRead.trans h.address.1, ?_, hbody⟩
  · rw [hparse, hentries, hend]
  · rw [hheaders]
    exact (readHeaders_eq_iff request).2 h.headers

/-- The one entry that is read is the one at the line of the request. -/
theorem entry_of_kept (hletters : request.method.all (fun c => 'A' ≤ c ∧ c ≤ 'Z') = true)
    (hhttp : request.method ≠ "HTTP".toList) {text : Text} {entry : HurlEntry}
    (htext : hurlEntryText library request = some text) (hparse : parseHurl library text = [entry])
    (hurl : entry.url = renamed request.address) (hbody : BodyKept request.body entry) :
    ∃ comment asserts left, hurlAssertLines library request.assertions = some (asserts, left) ∧
      trimSpace (hurlLine request.address) ≠ [] ∧ entry.method = request.method ∧
      entry.url = trimSpace (hurlLine request.address) ∧
      entry = (requestFrom library comment request.method (trimSpace (hurlLine request.address))
        (afterLines request asserts left)).1 := by
  have hne : request.method ≠ [] := by
    rintro hnil
    rw [hnil] at hmethod
    cases hmethod
  have hsome := asserts_of_text hprotocol htext
  obtain ⟨⟨asserts, left⟩, hasserts⟩ := Option.isSome_iff_exists.1 hsome
  obtain ⟨text', htext', hparse'⟩ := parseHurl_written hprotocol hmethod hnote hasserts
  obtain rfl := Option.some.inj (htext.symm.trans htext')
  rw [hparse] at hparse'
  have hmem : entry ∈ entriesFrom library
      (frontLines request ++ requestLine request :: afterLines request asserts left) := by
    rw [← hparse']
    exact List.mem_singleton_self entry
  have haddress := address_of_kept hmethod hnote hasserts hmem hurl hbody
  have hline := requestLine_read hne hletters hhttp haddress
  obtain ⟨comment, hentries⟩ := entriesFrom_request library hline (afterLines request asserts left)
  rw [hentries] at hparse'
  obtain ⟨rfl, -⟩ := List.cons.inj hparse'
  have hparts := (requestFrom_found library comment (afterLines request asserts left) hline.parts
    hline.response).parts
  obtain ⟨hmethodRead, hurlRead⟩ := Prod.mk.inj (Option.some.inj (hparts.symm.trans hline.parts))
  exact ⟨comment, asserts, left, hasserts, haddress, hmethodRead, hurlRead, rfl⟩

/-- The method of an entry is made of capital letters and is not the one of a status. -/
theorem method_of_kept {text : Text} {entry : HurlEntry} (htext : hurlEntryText library request = some text)
    (hparse : parseHurl library text = [entry]) :
    entry.method.all (fun c => 'A' ≤ c ∧ c ≤ 'Z') = true ∧ entry.method ≠ "HTTP".toList := by
  obtain ⟨⟨asserts, left⟩, hasserts⟩ := Option.isSome_iff_exists.1 (asserts_of_text hprotocol htext)
  obtain ⟨text', htext', hparse'⟩ := parseHurl_written hprotocol hmethod hnote hasserts
  obtain rfl := Option.some.inj (htext.symm.trans htext')
  have hmem : entry ∈ entriesFrom library
      (frontLines request ++ requestLine request :: afterLines request asserts left) := by
    rw [← hparse', hparse]
    exact List.mem_singleton_self entry
  obtain ⟨line, rest, -, hfound⟩ := entriesFrom_found hmem
  exact hfound.method

theorem readable_of_kept (hrows : TextRows request.body) (h : Kept library request) : Readable library request := by
  have hcaptures : ∀ line ∈ (hurlCaptureLines request.extractors).1, CaptureLine line :=
    fun line hline => (hurlCaptureLines_spec request.extractors line hline).2
  obtain ⟨text, entry, htext, hparse, hmethodKept, hurl, hheaders, hbody⟩ := h
  have hletters := method_of_kept hprotocol hmethod hnote htext hparse
  rw [hmethodKept] at hletters
  obtain ⟨comment, asserts, left, hasserts, haddress, -, hurlRead, rfl⟩ :=
    entry_of_kept hprotocol hmethod hnote hletters.1 hletters.2 htext hparse hurl hbody
  have hbegun : ∀ line ∈ asserts, Begun line := fun line hline => (hurlAssertLines_spec hasserts line hline).2.begun
  obtain ⟨hread, -, hreadable⟩ := body_read hbegun hcaptures hnote comment request.method
    (trimSpace (hurlLine request.address)) (rfl : _ = requestFrom library comment request.method
      (trimSpace (hurlLine request.address)) (afterLines request asserts left))
  have hfits : Fits request.address := hurlRead.symm.trans hurl
  refine ⟨(hurlAssertLines_isSome_iff _).1 (asserts_of_text hprotocol htext), hletters.1, hletters.2, ⟨hfits, ?_⟩, ?_,
    hreadable hrows hbody⟩
  · rw [hfits, Ne, renamed_eq_nil_iff] at haddress
    exact haddress
  · rw [hread] at hheaders
    exact (readHeaders_eq_iff request).1 hheaders

end

/-! ## What a request is sent with -/

theorem httpAuthorization_headers (auth : Auth) (headers : List (Text × Text)) (address : Text) :
    (httpAuthorization auth headers address).1 = headers ++ (httpAuthorization auth [] []).1 := by
  unfold httpAuthorization
  split_ifs <;> simp

/-- The key of the authentication is written into the address. -/
def Auth.inQuery (auth : Auth) : Bool :=
  auth.type = "apikey".toList && auth.placement = "query".toList

theorem httpAuthorization_address (auth : Auth) (headers : List (Text × Text)) (address : Text) :
    (httpAuthorization auth headers address).2.1 =
      if auth.inQuery then appendQuery address auth.key auth.value else address := by
  by_cases hquery : auth.type = "apikey".toList ∧ auth.placement = "query".toList
  · have hin : auth.inQuery = true := by
      rw [Auth.inQuery, hquery.1, hquery.2]
      rfl
    rw [if_pos hin]
    unfold httpAuthorization
    rw [hquery.1, hquery.2]
    rfl
  · have hin : ¬ auth.inQuery = true := by
      rw [Auth.inQuery, Bool.and_eq_true, decide_eq_true_eq, decide_eq_true_eq]
      exact hquery
    rw [if_neg hin]
    unfold httpAuthorization
    split_ifs with _ _ _ _ hkey hplacement <;> first | rfl | exact absurd ⟨hkey, hplacement⟩ hquery

theorem count_dropWhile {p : Char → Bool} {c : Char} (hc : p c = false) (text : Text) :
    (text.dropWhile p).count c = text.count c := by
  induction text with
  | nil => rfl
  | cons first rest ih =>
    rw [List.dropWhile_cons]
    split_ifs with hfirst
    · rw [ih, List.count_cons_of_ne]
      rintro rfl
      rw [hc] at hfirst
      cases hfirst
    · rfl

theorem count_trimSpace {c : Char} (hc : Go.isSpace c = false) (text : Text) :
    (trimSpace text).count c = text.count c := by
  rw [trimSpace, List.rdropWhile, List.count_reverse, count_dropWhile hc, List.count_reverse, count_dropWhile hc]

/-- No equals sign comes or goes with the names of placeholders. -/
theorem count_renamed (text : Text) : (renamed text).count '=' = text.count '=' := by
  unfold renamed
  fun_induction mapPlaceholders hurlPlaceholder text with
  | case1 => rfl
  | case2 => rfl
  | case3 text before after hopen inner rest hclose ih =>
    have hinner : (hurlPlaceholder (trimSpace inner)).count '=' = inner.count '=' := by
      rw [← count_trimSpace (show Go.isSpace '=' = false by decide) inner]
      unfold hurlPlaceholder
      split_ifs with hname
      · obtain heq | heq := hname <;> rw [heq] <;> decide
      · simp [braced]
    rw [Curl.cutPair_eq hopen, Curl.cutPair_eq hclose]
    simp only [List.count_append, ih, hinner]
    simp only [List.count_cons, List.count_append]
    simp
    omega

theorem renamed_appendQuery (base key value : Text) : renamed (appendQuery base key value) ≠ renamed base := by
  intro h
  have hcount := congrArg (List.count '=') h
  rw [count_renamed, count_renamed] at hcount
  unfold appendQuery at hcount
  simp only [List.count_append] at hcount
  have hequals : "=".toList.count '=' = 1 := by decide
  omega

/-! ## What is added -/

theorem withoutContentType_with (headers : List (Text × Text)) (contentType : Text) (replace : Bool) :
    withoutContentType (withContentType headers contentType replace) = withoutContentType headers := by
  unfold withContentType
  split_ifs
  · rfl
  · have hnamed : isContentType contentTypeHeader = true := by decide
    simp [withoutContentType, hnamed]

/-- The headers of a list that are written, as they are to be read. -/
def keptHeaders (headers : List (Text × Text)) : List (Text × Text) :=
  (headers.filter fun header => hurlHeaderToken header.1).map fun header => (header.1, renamed header.2)

def StoredBody.isForm : StoredBody → Bool
  | .form _ | .multipart _ => true
  | _ => false

/-- Nothing is added to the address and the headers of a request, and nothing is left
out of them. -/
structure Unchanged (request : StoredRequest) : Prop where
  query : request.auth.inQuery = false
  header : ∀ header ∈ (httpAuthorization request.auth [] []).1, hurlHeaderToken header.1 = true →
    request.body.isForm = true ∧ isContentType header.1 = true
  contentType : if request.body.isForm then ∀ header ∈ request.ownHeaders, isContentType header.1 = false
    else httpBodyType request.body ≠ [] → ∃ header ∈ request.ownHeaders, isContentType header.1 = true

/-- A name that is the one of the content type is a token. -/
theorem token_of_isContentType {name : Text} (h : isContentType name = true) : hurlHeaderToken name = true := by
  have hlower : name.map Char.toLower = "content-type".toList := of_decide_eq_true h
  have hchars : ∀ c ∈ name, isHeaderChar c = true := by
    intro c hc
    have hmem : c.toLower ∈ "content-type".toList := by
      rw [← hlower]
      exact List.mem_map_of_mem hc
    by_cases hupper : c.val ≥ 'A'.val ∧ c.val ≤ 'Z'.val
    · have halpha : c.isAlpha = true := Bool.or_eq_true_iff.2 (.inl (decide_eq_true hupper))
      unfold isHeaderChar
      rw [halpha]
      rfl
    · have hlow : c.toLower = c := dif_neg hupper
      rw [hlow] at hmem
      have hall : "content-type".toList.all isHeaderChar = true := by decide +kernel
      exact List.all_eq_true.1 hall c hmem
  have hne : name ≠ [] := by
    rintro rfl
    cases hlower
  unfold hurlHeaderToken
  rw [Bool.and_eq_true]
  exact ⟨decide_eq_true hne, List.all_eq_true.2 hchars⟩

theorem keptHeaders_append (first second : List (Text × Text)) :
    keptHeaders (first ++ second) = keptHeaders first ++ keptHeaders second := by
  simp [keptHeaders]

theorem keptHeaders_eq_nil_iff {headers : List (Text × Text)} :
    keptHeaders headers = [] ↔ ∀ header ∈ headers, hurlHeaderToken header.1 = false := by
  simp [keptHeaders]

theorem writtenHeaders_eq (request : StoredRequest) (hgraph : request.method ≠ methodGraphQL) :
    (writtenHeaders (request.written library)).map (fun header => (header.1, renamed header.2)) =
      if request.body.isForm then
        keptHeaders (withoutContentType (request.ownHeaders ++ (httpAuthorization request.auth [] []).1))
      else if httpBodyType request.body = [] then
        keptHeaders (request.ownHeaders ++ (httpAuthorization request.auth [] []).1)
      else keptHeaders (withContentType (request.ownHeaders ++ (httpAuthorization request.auth [] []).1)
        (httpBodyType request.body) false) := by
  have hheaders : (request.written library).headers =
      if httpBodyType request.body = [] then request.ownHeaders ++ (httpAuthorization request.auth [] []).1
      else withContentType (request.ownHeaders ++ (httpAuthorization request.auth [] []).1)
        (httpBodyType request.body) request.body.isMultipart := by
    rw [← httpAuthorization_headers request.auth request.ownHeaders request.url]
    simp only [StoredRequest.written, httpRequestText, if_neg hgraph]
  have hbody : (request.written library).body = request.body.written := by
    simp only [StoredRequest.written]
  generalize request.written library = written at hheaders hbody
  have hdropped : withoutContentType written.headers =
      withoutContentType (request.ownHeaders ++ (httpAuthorization request.auth [] []).1) := by
    rw [hheaders]
    split_ifs
    · rfl
    · exact withoutContentType_with _ _ _
  unfold writtenHeaders
  rw [hbody]
  cases hstored : request.body with
  | form rows =>
    change keptHeaders (withoutContentType written.headers) = _
    rw [hdropped]
    rfl
  | multipart rows =>
    change keptHeaders (withoutContentType written.headers) = _
    rw [hdropped]
    rfl
  | _ =>
    change keptHeaders written.headers = _
    rw [hheaders, hstored]
    exact apply_ite keptHeaders _ _ _

theorem nil_of_append_eq {first second : List (Text × Text)} (h : keptHeaders (first ++ second) = keptHeaders first) :
    keptHeaders second = [] := by
  rwa [keptHeaders_append, List.append_right_eq_self] at h

/-- The headers a request is written with are its own exactly when nothing is added and
nothing is left out. -/
theorem writtenHeaders_own_iff (request : StoredRequest) (hgraph : request.method ≠ methodGraphQL)
    (hquery : request.auth.inQuery = false) :
    (writtenHeaders (request.written library)).map (fun header => (header.1, renamed header.2)) =
        keptHeaders request.ownHeaders ↔ Unchanged request := by
  rw [writtenHeaders_eq request hgraph]
  generalize hadded : (httpAuthorization request.auth [] []).1 = added
  have hunchanged : Unchanged request ↔ (∀ header ∈ added, hurlHeaderToken header.1 = true →
        request.body.isForm = true ∧ isContentType header.1 = true) ∧
      if request.body.isForm then ∀ header ∈ request.ownHeaders, isContentType header.1 = false
      else httpBodyType request.body ≠ [] → ∃ header ∈ request.ownHeaders, isContentType header.1 = true := by
    rw [← hadded]
    exact ⟨fun h => ⟨h.header, h.contentType⟩, fun h => ⟨hquery, h.1, h.2⟩⟩
  rw [hunchanged]
  generalize request.ownHeaders = own
  by_cases hform : request.body.isForm = true
  · rw [if_pos hform, if_pos hform]
    have hsplit : withoutContentType (own ++ added) = withoutContentType own ++ withoutContentType added :=
      List.filter_append ..
    have hadded : keptHeaders (withoutContentType added) = [] ↔
        ∀ header ∈ added, hurlHeaderToken header.1 = true → request.body.isForm = true ∧ isContentType header.1 = true := by
      rw [keptHeaders_eq_nil_iff]
      simp only [withoutContentType, List.mem_filter, hform, true_and]
      grind
    constructor
    · intro h
      -- no content type is among the headers that are written
      have hnone : ∀ header ∈ own, isContentType header.1 = false := by
        intro header hheader
        by_contra htyped
        rw [Bool.not_eq_false] at htyped
        have hmem : (header.1, renamed header.2) ∈ keptHeaders own :=
          List.mem_map.2 ⟨header, List.mem_filter.2 ⟨hheader, token_of_isContentType htyped⟩, rfl⟩
        rw [← h] at hmem
        obtain ⟨other, hother, heq⟩ := List.mem_map.1 hmem
        have huntyped := (List.mem_filter.1 (List.mem_filter.1 hother).1).2
        rw [(Prod.mk.inj heq).1, htyped] at huntyped
        cases huntyped
      refine ⟨hadded.1 ?_, hnone⟩
      rw [hsplit, show withoutContentType own = own from List.filter_eq_self.2 (by simpa using hnone)] at h
      exact nil_of_append_eq h
    · rintro ⟨hnothing, hnone⟩
      rw [hsplit, keptHeaders_append, hadded.2 hnothing, List.append_nil,
        show withoutContentType own = own from List.filter_eq_self.2 (by simpa using hnone)]
  · rw [if_neg hform, if_neg hform]
    have hadded : keptHeaders added = [] ↔
        ∀ header ∈ added, hurlHeaderToken header.1 = true → request.body.isForm = true ∧ isContentType header.1 = true := by
      rw [keptHeaders_eq_nil_iff]
      simp only [hform, Bool.false_eq_true, false_and, imp_false, Bool.not_eq_true]
    have hlast (contentType : Text) : keptHeaders [(contentTypeHeader, contentType)] ≠ [] := by
      rw [Ne, keptHeaders_eq_nil_iff]
      intro h
      exact absurd (h _ (List.mem_singleton_self _)) (show ¬ hurlHeaderToken contentTypeHeader = false by decide)
    rw [← hadded]
    by_cases htype : httpBodyType request.body = []
    · rw [if_pos htype, keptHeaders_append, List.append_right_eq_self]
      simp [htype]
    · rw [if_neg htype]
      unfold withContentType
      by_cases hany : (own ++ added).any (fun header => isContentType header.1) = true
      · rw [if_pos (by simp [hany]), keptHeaders_append, List.append_right_eq_self]
        refine ⟨fun hnothing => ⟨hnothing, fun _ => ?_⟩, fun h => h.1⟩
        obtain ⟨header, hheader, htyped⟩ := List.any_eq_true.1 hany
        obtain hown | hadd := List.mem_append.1 hheader
        · exact ⟨header, hown, htyped⟩
        · have huntoken := keptHeaders_eq_nil_iff.1 hnothing header hadd
          rw [token_of_isContentType htyped] at huntoken
          cases huntoken
      · rw [if_neg (by simpa using hany)]
        have hsame : withoutContentType (own ++ added) = own ++ added := by
          refine List.filter_eq_self.2 fun header hheader => ?_
          simp only [List.any_eq_true, not_exists, not_and, Bool.not_eq_true] at hany
          rw [hany header hheader]
          rfl
        rw [hsame, keptHeaders_append, keptHeaders_append, List.append_assoc, List.append_right_eq_self,
          List.append_eq_nil_iff]
        constructor
        · exact fun h => absurd h.2 (hlast _)
        · rintro ⟨-, hown⟩
          obtain ⟨header, hheader, htyped⟩ := hown htype
          refine absurd ?_ hany
          exact List.any_eq_true.2 ⟨header, List.mem_append_left _ hheader, htyped⟩

/-! ## The round trip of a request of the workspace -/

/-- `parseHurl` finds the request in what `hurlEntryText` makes of it, with the address
and the headers that it is sent with. -/
def KeptRequest (library : Library) (request : StoredRequest) : Prop :=
  ∃ text entry, hurlEntryText library (request.written library) = some text ∧ parseHurl library text = [entry] ∧
    entry.method = request.method ∧ entry.url = renamed (httpRequestText request).2.1 ∧
    entry.headers = (writtenHeaders (request.written library)).map (fun header => (header.1, renamed header.2)) ∧
    BodyKept request.body.written entry

def KeptAlone (library : Library) (request : StoredRequest) : Prop :=
  ∃ text entry, hurlEntryText library (request.written library) = some text ∧ parseHurl library text = [entry] ∧
    entry.method = request.method ∧ entry.url = renamed request.url ∧
    entry.headers = keptHeaders request.ownHeaders ∧ BodyKept request.body.written entry

theorem keptAlone_iff {request : StoredRequest} (hgraph : request.method ≠ methodGraphQL)
    (h : KeptRequest library request) : KeptAlone library request ↔ Unchanged request := by
  obtain ⟨text, entry, htext, hparse, hmethod, hurl, hheaders, hbody⟩ := h
  have haddress : renamed (httpRequestText request).2.1 = renamed request.url ↔ request.auth.inQuery = false := by
    have hsent : (httpRequestText request).2.1 =
        (httpAuthorization request.auth request.ownHeaders request.url).2.1 := by
      simp only [httpRequestText, if_neg hgraph]
    rw [hsent, httpAuthorization_address]
    cases request.auth.inQuery with
    | true => simpa using renamed_appendQuery _ _ _
    | false => simp
  constructor
  · rintro ⟨text', entry', htext', hparse', -, hurl', hheaders', -⟩
    obtain rfl := Option.some.inj (htext.symm.trans htext')
    obtain rfl := (List.cons.inj (hparse.symm.trans hparse')).1
    have hquery := haddress.1 (hurl.symm.trans hurl')
    exact (writtenHeaders_own_iff request hgraph hquery).1 (hheaders.symm.trans hheaders')
  · intro hunchanged
    refine ⟨text, entry, htext, hparse, hmethod, hurl.trans (haddress.2 hunchanged.query), ?_, hbody⟩
    exact hheaders.trans ((writtenHeaders_own_iff request hgraph hunchanged.query).2 hunchanged)

section

variable {request : StoredRequest} (hprotocol : unwrittenProtocol library request = [])
  (hmethod : validMethod request.method = true) (hnote : (hurlBody (request.written library)).2.2 = [])

include hprotocol hmethod hnote

/-- A request that `hurlEntryText` writes as an entry is read back by `parseHurl`, up to
the renaming of placeholders, when what is written of it is readable and it is no query
of GraphQL, and where no row is a file only then.  What is read back is its own address
and its own headers exactly when nothing is added to them. -/
theorem kept_iff_readable :
    (Readable library (request.written library) ∧ request.method ≠ methodGraphQL → KeptRequest library request) ∧
      (TextRows request.body.written → KeptRequest library request →
        Readable library (request.written library) ∧ request.method ≠ methodGraphQL) ∧
      (KeptRequest library request → (KeptAlone library request ↔ Unchanged request)) := by
  have hsent (hgraph : request.method ≠ methodGraphQL) : (request.written library).method = request.method := by
    simp only [StoredRequest.written, httpRequestText, if_neg hgraph, if_pos hmethod]
  have hquery (hgraph : request.method = methodGraphQL) : (request.written library).method = "POST".toList := by
    simp only [StoredRequest.written, httpRequestText, if_pos hgraph]
  have hvalid : validMethod (request.written library).method = true := by
    by_cases hgraph : request.method = methodGraphQL
    · rw [hquery hgraph]
      decide
    · rw [hsent hgraph]
      exact hmethod
  -- a query of GraphQL is read as the post that it is written as
  have hnoQuery (h : KeptRequest library request) : request.method ≠ methodGraphQL := by
    intro hgraph
    obtain ⟨text, entry, htext, hparse, hmethodKept, hurl, -, hbody⟩ := h
    obtain ⟨-, -, -, -, -, hread, -⟩ := entry_of_kept hprotocol hvalid hnote
      (by rw [hquery hgraph]; decide) (by rw [hquery hgraph]; decide) htext hparse hurl
      (show BodyKept (request.written library).body entry from hbody)
    rw [hread, hquery hgraph, hgraph] at hmethodKept
    exact absurd hmethodKept (by decide)
  refine ⟨?_, ?_, fun h => keptAlone_iff (hnoQuery h) h⟩
  · rintro ⟨hreadable, hgraph⟩
    obtain ⟨text, entry, htext, hparse, hmethodKept, hkept⟩ := kept_of_readable hprotocol hvalid hnote hreadable
    exact ⟨text, entry, htext, hparse, hmethodKept.trans (hsent hgraph), hkept⟩
  · intro hrows h
    have hgraph := hnoQuery h
    obtain ⟨text, entry, htext, hparse, hmethodKept, hkept⟩ := h
    exact ⟨readable_of_kept hprotocol hvalid hnote hrows
      ⟨text, entry, htext, hparse, hmethodKept.trans (hsent hgraph).symm, hkept⟩, hgraph⟩

end

/-- The tables for texts of ASCII, and numbers of digits. -/
def asciiLibrary : Library where
  isLetter := Char.isAlpha
  isDigit := Char.isDigit
  toLower := Char.toLower
  isFloat text := text ≠ [] && text.all Char.isDigit
  letter_ascii _ _ := rfl
  digit_ascii _ _ := rfl
  lower_ascii _ _ := rfl
  float_printable := by
    intro text h c hc
    rw [Bool.and_eq_true] at h
    have hdigit := List.all_eq_true.1 h.2 c hc
    simp only [Char.isDigit, Bool.and_eq_true, decide_eq_true_eq, UInt32.le_iff_toNat_le] at hdigit
    exact ⟨Nat.lt_of_lt_of_le (by decide) hdigit.1, Nat.lt_of_le_of_lt hdigit.2 (by decide)⟩

/-- A form with a token, to an address with a placeholder. -/
def formRequest : StoredRequest where
  name := "Sign in".toList
  method := "POST".toList
  url := "https://example.com/\x7b\x7b path \x7d\x7d".toList
  headers := [{ key := "Accept".toList, value := "text/html".toList },
    { key := "X-Old".toList, value := "1".toList, enabled := false }]
  auth := { type := "bearer".toList, token := "\x7b\x7btoken\x7d\x7d".toList }
  body := .form [{ key := "user".toList, value := "\x7b\x7buser\x7d\x7d".toList }]

theorem kept_form_request : KeptRequest asciiLibrary formRequest := by
  refine (kept_iff_readable (by decide +kernel) (by decide) (by decide +kernel)).1
    ⟨⟨?_, by decide, by decide, ⟨?_, by decide⟩, ?_, ?_⟩, by decide⟩
  · exact List.forall_mem_nil _
  · unfold Fits
    decide +kernel
  · unfold Fits
    decide +kernel
  · intro row hrow
    obtain rfl := List.mem_singleton.1 hrow
    refine ⟨by decide +kernel, by decide, ?_, ?_, by decide +kernel, by decide +kernel, by decide +kernel⟩
    · unfold Fits
      decide +kernel
    · unfold Fits
      decide +kernel

def listRequest : StoredRequest where
  name := "Numbers".toList
  method := "POST".toList
  url := "https://example.com".toList
  headers := [{ key := contentTypeHeader, value := "application/json".toList }]
  body := .json "[1]".toList

/-- The list is read as the name of a section. -/
theorem list_not_kept : unwrittenProtocol asciiLibrary listRequest = [] ∧ validMethod listRequest.method = true ∧
    (hurlBody (listRequest.written asciiLibrary)).2.2 = [] ∧ ¬ KeptRequest asciiLibrary listRequest ∧
      ¬ KeptAlone asciiLibrary listRequest := by
  have hprotocol : unwrittenProtocol asciiLibrary listRequest = [] := by decide +kernel
  have hnote : (hurlBody (listRequest.written asciiLibrary)).2.2 = [] := by decide +kernel
  have hnot : ¬ KeptRequest asciiLibrary listRequest := by
    intro h
    have hreadable := ((kept_iff_readable hprotocol (by decide) hnote).2.1 trivial h).1
    have hbody : ContentReadable asciiLibrary "[1]".toList true := hreadable.body
    exact absurd (hbody.2 rfl (by decide +kernel) (by decide +kernel)) (by decide +kernel)
  refine ⟨hprotocol, by decide, hnote, hnot, ?_⟩
  -- nothing is added to the request
  have hunchanged : Unchanged listRequest := by
    refine ⟨by decide, by decide, ?_⟩
    exact fun _ => ⟨(contentTypeHeader, "application/json".toList), List.mem_singleton_self _, by decide⟩
  have hheaders : (writtenHeaders (listRequest.written asciiLibrary)).map
      (fun header => (header.1, renamed header.2)) = keptHeaders listRequest.ownHeaders :=
    (writtenHeaders_own_iff listRequest (by decide) (by decide)).2 hunchanged
  rintro ⟨text, entry, htext, hparse, hmethod, hurl, hown, hbody⟩
  exact hnot ⟨text, entry, htext, hparse, hmethod, hurl, hown.trans hheaders.symm, hbody⟩

end Gostman.Importer.Hurl
