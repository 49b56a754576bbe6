import Gostman.Lib.Decided
import Gostman.Importer.HurlContent
/-!
# The lines of an entry that was written

Which lines the reader finds in the text of an entry.  All but those of a body
are texts on one line.
-/

namespace Gostman.Importer.Hurl

open Gostman.Lib Gostman.Placeholders Gostman.Importer.Bru

open scoped Gostman.Lib.Decided

/-! ## Quoted texts -/

theorem safe_quotedArg (text : Text) : Safe (hurlQuotedArg text) := by
  have hquote : Safe ['"'] := by
    unfold Safe
    decide
  have hinner : Safe ((singleLine text).flatMap fun c => if c = '\\' ∨ c = '"' then ['\\', c] else [c]) := by
    intro c hc
    obtain ⟨d, hd, hmem⟩ := List.mem_flatMap.1 hc
    have hsafe := safe_singleLine text d hd
    split_ifs at hmem
    · rcases List.mem_cons.1 hmem with rfl | hrest
      · decide
      · rwa [List.mem_singleton.1 hrest]
    · rwa [List.mem_singleton.1 hmem]
  exact (hquote.append hinner).append hquote

theorem safe_escapeChar {c : Char} (h : isUnsafeRune c = false) : Safe (Go.Json.escapeChar false c) := by
  have hcontrol : ¬ c.toNat < 0x20 := by
    intro hlow
    unfold isUnsafeRune Go.isControl at h
    simp [hlow] at h
  have hseparator : c.toNat ≠ 0x2028 ∧ c.toNat ≠ 0x2029 := by
    unfold isUnsafeRune at h
    simp only [Bool.or_eq_false_iff, beq_eq_false_iff_ne] at h
    constructor
    · intro heq
      exact h.1.2 (Char.toNat_inj.1 heq)
    · intro heq
      exact h.2 (Char.toNat_inj.1 heq)
  unfold Go.Json.escapeChar
  simp only
  split_ifs with _ _ _ _ _ _ _ hlow hline
  · unfold Safe
    decide
  · unfold Safe
    decide
  · unfold Safe
    decide
  · unfold Safe
    decide
  · unfold Safe
    decide
  · unfold Safe
    decide
  · unfold Safe
    decide
  · exact absurd hlow (by simp [hcontrol])
  · exact absurd hline (by simp [hseparator.1, hseparator.2])
  · intro d hd
    rwa [List.mem_singleton.1 hd]

theorem safe_quote {text : Text} (h : Safe text) : Safe (Go.Json.quote false text) := by
  intro c hc
  unfold Go.Json.quote at hc
  rw [List.mem_cons, List.mem_append, List.mem_flatMap, List.mem_singleton] at hc
  rcases hc with rfl | ⟨d, hd, hmem⟩ | rfl
  · decide
  · exact safe_escapeChar (h d hd) c hmem
  · decide

/-! ## Assertions -/

def Lower (line : Text) : Prop :=
  ∃ c rest, line = c :: rest ∧ c.isLower = true

theorem Lower.begun {line : Text} (h : Lower line) : Begun line := by
  obtain ⟨c, rest, rfl, hlower⟩ := h
  have halpha : c.isAlpha = true := Bool.or_eq_true_iff.2 (.inr hlower)
  have hheader : isHeaderChar c = true := by simp [isHeaderChar, halpha]
  refine ⟨c, rest, rfl, (headerChar_plain hheader).1, ?_⟩
  rintro rfl
  cases hlower

theorem Lower.append {line : Text} (h : Lower line) (rest : Text) : Lower (line ++ rest) := by
  obtain ⟨c, tail, rfl, hlower⟩ := h
  exact ⟨c, tail ++ rest, rfl, hlower⟩

/-- An expression with the name of a header that does not end: its query is out
of range. -/
def cutsShort (expression : Text) : Bool :=
  trimSpace expression = "res.headers[\"]".toList || trimSpace expression = "res.headers[']".toList

theorem quoted_short {mark : Char} (hmark : mark ≠ ']') {rest : Text} (hopen : ['[', mark].isPrefixOf rest = true)
    (hclose : [mark, ']'].isSuffixOf rest = true) : rest.length < 4 ↔ rest = ['[', mark, ']'] := by
  obtain ⟨tail, rfl⟩ := List.isPrefixOf_iff_prefix.1 hopen
  obtain ⟨front, hfront⟩ := List.isSuffixOf_iff_suffix.1 hclose
  constructor
  · intro hlength
    have hlast := congrArg List.getLast? hfront
    match tail, hlength with
    | [], _ =>
      exfalso
      apply hmark
      simpa [List.getLast?_append] using hlast.symm
    | [c], _ =>
      have hc : ']' = c := by simpa [List.getLast?_append] using hlast
      rw [hc]
      rfl
    | _ :: _ :: _, hlength =>
      simp only [List.length_append, List.length_cons] at hlength
      omega
  · intro heq
    rw [heq]
    exact Nat.lt_succ_self 3

theorem hurlHeaderQuery_eq_none_iff (rest : Text) :
    hurlHeaderQuery rest = none ↔ rest = "[\"]".toList ∨ rest = "[']".toList := by
  unfold hurlHeaderQuery between
  simp only [Option.map_eq_none_iff]
  by_cases hdouble : "[\"".toList.isPrefixOf rest = true ∧ "\"]".toList.isSuffixOf rest = true
  · rw [if_pos hdouble, ite_eq_left_iff]
    have hshort := quoted_short (by decide) hdouble.1 hdouble.2
    constructor
    · intro hnone
      left
      apply hshort.1
      by_contra hlong
      cases hnone hlong
    · rintro (rfl | rfl)
      · intro hlong
        exact absurd (hshort.2 rfl) hlong
      · exact absurd hdouble.1 (by decide)
  · rw [if_neg hdouble]
    by_cases hsingle : "['".toList.isPrefixOf rest = true ∧ "']".toList.isSuffixOf rest = true
    · rw [if_pos hsingle, ite_eq_left_iff]
      have hshort := quoted_short (by decide) hsingle.1 hsingle.2
      constructor
      · intro hnone
        right
        apply hshort.1
        by_contra hlong
        cases hnone hlong
      · rintro (rfl | rfl)
        · exact absurd hsingle.1 (by decide)
        · intro hlong
          exact absurd (hshort.2 rfl) hlong
    · rw [if_neg hsingle]
      refine iff_of_false ?_ ?_
      · split_ifs <;> simp
      · rintro (rfl | rfl)
        · exact hdouble (by decide)
        · exact hsingle (by decide)

theorem hurlQueryOf_eq_none_iff (expression : Text) :
    hurlQueryOf expression = none ↔ cutsShort expression = true := by
  have hstarts : ∀ tail : Text, trimSpace expression = hurlHeaderPrefix ++ tail ↔
      hurlHeaderPrefix.isPrefixOf (trimSpace expression) = true ∧
        (trimSpace expression).drop hurlHeaderPrefix.length = tail := by
    intro tail
    constructor
    · intro heq
      rw [heq]
      simp
    · rintro ⟨hlead, rfl⟩
      obtain ⟨rest, hrest⟩ := List.isPrefixOf_iff_prefix.1 hlead
      rw [← hrest]
      simp
  have hdouble := hstarts "[\"]".toList
  have hsingle := hstarts "[']".toList
  unfold cutsShort
  rw [Bool.or_eq_true, decide_eq_true_eq, decide_eq_true_eq]
  change _ ↔ trimSpace expression = hurlHeaderPrefix ++ "[\"]".toList ∨
    trimSpace expression = hurlHeaderPrefix ++ "[']".toList
  rw [hdouble, hsingle, ← and_or_left, ← hurlHeaderQuery_eq_none_iff]
  unfold hurlQueryOf
  simp only
  generalize trimSpace expression = trimmed
  by_cases hlead : hurlHeaderPrefix.isPrefixOf trimmed = true
  · have hother : trimmed ≠ "res.status".toList ∧ trimmed ≠ "res.responseTime".toList ∧
        trimmed ≠ "res.url".toList ∧ trimmed ≠ hurlBodyRoot := by
      refine ⟨?_, ?_, ?_, ?_⟩ <;> (rintro rfl; exact absurd hlead (by decide))
    rw [if_neg hother.1, if_neg hother.2.1, if_neg hother.2.2.1, if_neg hother.2.2.2, if_pos hlead,
      Option.map_eq_none_iff]
    exact ⟨fun h => ⟨hlead, h⟩, fun h => h.2⟩
  · rw [if_neg hlead]
    refine iff_of_false ?_ (fun h => hlead h.1)
    split_ifs <;> simp

theorem hurlHeaderQuery_spec {rest query : Text} (h : hurlHeaderQuery rest = some (some query)) :
    Safe query ∧ Lower query := by
  unfold hurlHeaderQuery at h
  simp only [Option.map_eq_some_iff] at h
  obtain ⟨name, -, hname⟩ := h
  split_ifs at hname
  obtain rfl := Option.some.inj hname
  have hword : Safe "header ".toList := by
    unfold Safe
    decide
  exact ⟨hword.append (safe_quotedArg name), 'h', "eader ".toList ++ hurlQuotedArg name, rfl, by decide⟩

theorem hurlQueryOf_spec {expression query : Text} {numeric : Bool}
    (h : hurlQueryOf expression = some (some (query, numeric))) : Safe query ∧ Lower query := by
  have hwords : ∀ word ∈ ["status", "duration", "url", "body", "jsonpath "].map String.toList,
      Safe word ∧ ∃ c rest, word = c :: rest ∧ c.isLower = true := by
    intro word hword
    have hall : ∀ word ∈ ["status", "duration", "url", "body", "jsonpath "].map String.toList,
        (∀ c ∈ word, isUnsafeRune c = false) ∧ word.head?.any Char.isLower = true := by decide
    refine ⟨(hall word hword).1, ?_⟩
    have hhead := (hall word hword).2
    cases word with
    | nil => cases hhead
    | cons c rest => exact ⟨c, rest, rfl, hhead⟩
  have hword : ∀ word ∈ ["status", "duration", "url", "body", "jsonpath "].map String.toList,
      ∀ tail, Safe tail → Safe (word ++ tail) ∧ Lower (word ++ tail) :=
    fun word hmem tail htail => ⟨(hwords word hmem).1.append htail, Lower.append (hwords word hmem).2 tail⟩
  have hnil : Safe [] := List.forall_mem_nil _
  unfold hurlQueryOf at h
  simp only at h
  split_ifs at h
  · obtain ⟨rfl, -⟩ := Prod.mk.inj (Option.some.inj (Option.some.inj h))
    exact hword "status".toList (by decide) [] hnil
  · obtain ⟨rfl, -⟩ := Prod.mk.inj (Option.some.inj (Option.some.inj h))
    exact hword "duration".toList (by decide) [] hnil
  · obtain ⟨rfl, -⟩ := Prod.mk.inj (Option.some.inj (Option.some.inj h))
    exact hword "url".toList (by decide) [] hnil
  · obtain ⟨rfl, -⟩ := Prod.mk.inj (Option.some.inj (Option.some.inj h))
    exact hword "body".toList (by decide) [] hnil
  · obtain ⟨found, hfound, hmap⟩ := Option.map_eq_some_iff.1 h
    obtain ⟨inner, rfl, hinner⟩ := Option.map_eq_some_iff.1 hmap
    obtain ⟨rfl, -⟩ := Prod.mk.inj hinner
    exact hurlHeaderQuery_spec hfound
  · obtain ⟨rfl, -⟩ := Prod.mk.inj (Option.some.inj (Option.some.inj h))
    exact hword "jsonpath ".toList (by decide) _ (safe_quotedArg _)
  · cases Option.some.inj h

/-! ## Lines of assertions and captures -/

theorem not_unsafe_of_printable {c : Char} (h : 0x20 < c.toNat ∧ c.toNat < 0x7F) : isUnsafeRune c = false := by
  have hcontrol : Go.isControl c = false := by
    unfold Go.isControl
    rw [Bool.or_eq_false_iff, Bool.and_eq_false_iff]
    simp only [decide_eq_false_iff_not]
    omega
  have hseparator : c ≠ lineSeparator ∧ c ≠ paragraphSep := by
    constructor <;> (rintro rfl; exact absurd h.2 (by decide))
  unfold isUnsafeRune
  rw [hcontrol]
  simp [hseparator.1, hseparator.2]

variable {library : Library}

theorem safe_hurlLiteral (value : Text) (bare : Bool) : Safe (hurlLiteral library value bare) := by
  unfold hurlLiteral
  simp only
  split_ifs with hfloat hword
  · intro c hc
    exact not_unsafe_of_printable (library.float_printable _ hfloat.1 c hc)
  · have hall : ∀ word ∈ ["true", "false", "null"].map String.toList, ∀ c ∈ word, isUnsafeRune c = false := by
      decide
    exact hall _ hword.2
  · exact safe_quote (safe_mapPlaceholders (safe_singleLine value))

theorem safe_words {table : Record Text Text} {key word : Text} (h : table.read key = some word)
    (hall : ∀ entry ∈ table, ∀ c ∈ entry.2, isUnsafeRune c = false) : Safe word :=
  hall _ (Record.mem_of_read h)

theorem hurlAssertLine_spec {candidate : Assertion} {line : Text}
    (h : hurlAssertLine library candidate = some (some line)) : Safe line ∧ Lower line := by
  obtain ⟨found, hfound, hline⟩ := Option.map_eq_some_iff.1 h
  obtain ⟨⟨query, numeric⟩, rfl, hrest⟩ := Option.bind_eq_some_iff.1 hline
  obtain ⟨hsafe, hlower⟩ := hurlQueryOf_spec hfound
  have hblank : Safe " ".toList ∧ Safe " count == ".toList := by
    unfold Safe
    decide
  simp only at hrest
  cases hunary : hurlUnaryOperators.read candidate.operator with
  | some word =>
    rw [hunary] at hrest
    obtain rfl := Option.some.inj hrest
    have hword : Safe word := safe_words hunary (by decide)
    exact ⟨(hsafe.append hblank.1).append hword, (hlower.append _).append _⟩
  | none =>
    rw [hunary] at hrest
    simp only at hrest
    split_ifs at hrest
    · obtain rfl := Option.some.inj hrest
      exact ⟨(hsafe.append hblank.2).append (safe_hurlLiteral _ _), (hlower.append _).append _⟩
    · obtain ⟨word, hword, hline⟩ := Option.bind_eq_some_iff.1 hrest
      obtain rfl := Option.some.inj hline
      have hwordSafe : Safe word := safe_words hword (by decide)
      exact ⟨(((hsafe.append hblank.1).append hwordSafe).append hblank.1).append (safe_hurlLiteral _ _),
        (((hlower.append _).append _).append _).append _⟩

theorem hurlAssertLines_spec {rows : List Assertion} {asserts left : List Text}
    (h : hurlAssertLines library rows = some (asserts, left)) : ∀ line ∈ asserts, Safe line ∧ Lower line := by
  obtain ⟨written, hwritten, hlines⟩ := Option.bind_eq_some_iff.1 h
  obtain ⟨rfl, -⟩ := Prod.mk.inj (Option.some.inj hlines)
  intro line hline
  obtain ⟨⟨candidate, made⟩, hmem, rfl⟩ := List.mem_filterMap.1 hline
  obtain ⟨row, -, hrow⟩ := exists_of_mapM hwritten _ hmem
  obtain ⟨found, hfound, heq⟩ := Option.map_eq_some_iff.1 hrow
  obtain ⟨rfl, rfl⟩ := Prod.mk.inj heq
  exact hurlAssertLine_spec hfound

/-- The writer ends with lines when no query is out of range. -/
theorem hurlAssertLines_isSome_iff (rows : List Assertion) :
    (hurlAssertLines library rows).isSome = true ↔
      ∀ row ∈ rows, row.enabled = true → cutsShort row.expression = false := by
  have hrow : ∀ row : Assertion, ((hurlAssertLine library row).map fun line => (row, line)).isSome = true ↔
      cutsShort row.expression = false := by
    intro row
    unfold hurlAssertLine
    rw [Option.isSome_map, Option.isSome_map, ← Option.not_isNone, Bool.not_eq_true', Option.isNone_eq_false_iff,
      Option.isSome_iff_ne_none, Ne, hurlQueryOf_eq_none_iff, Bool.not_eq_true]
  have hwritten : (hurlAssertLines library rows).isSome = true ↔ ((rows.filter (·.enabled)).mapM fun row =>
      (hurlAssertLine library row).map fun line => (row, line)).isSome = true := by
    unfold hurlAssertLines
    cases (rows.filter (·.enabled)).mapM fun row => (hurlAssertLine library row).map fun line => (row, line) with
    | none => exact Iff.rfl
    | some written => exact Iff.rfl
  rw [hwritten, isSome_mapM]
  simp only [hrow, List.mem_filter]
  exact ⟨fun h row hmem henabled => h row ⟨hmem, henabled⟩, fun h row hmem => h row hmem.1 hmem.2⟩

/-! ## Captures -/

theorem hurlCaptureLines_spec (rules : List Extractor) :
    ∀ line ∈ (hurlCaptureLines rules).1, Safe line ∧ CaptureLine line := by
  intro line hline
  obtain ⟨rule, hrule, hmade⟩ := List.mem_filterMap.1 hline
  have hname : hurlCaptureName rule.name = true := by
    have hkept := (List.mem_filter.1 hrule).2
    rw [Bool.and_eq_true] at hkept
    exact hkept.2
  obtain ⟨query, hquery, rfl⟩ := Option.map_eq_some_iff.1 hmade
  have hwords : ∀ word ∈ ["jsonpath ", "header ", "cookie ", "status", ": "].map String.toList,
      ∀ c ∈ word, isUnsafeRune c = false := by decide
  have hsafe : Safe query := by
    split_ifs at hquery
    · rw [← Option.some.inj hquery]
      exact Safe.append (hwords "jsonpath ".toList (by decide)) (safe_quotedArg _)
    · rw [← Option.some.inj hquery]
      exact Safe.append (hwords "header ".toList (by decide)) (safe_quotedArg _)
    · rw [← Option.some.inj hquery]
      exact Safe.append (hwords "cookie ".toList (by decide)) (safe_quotedArg _)
    · rw [← Option.some.inj hquery]
      exact hwords "status".toList (by decide)
  have hnameSafe : Safe rule.name := by
    intro c hc
    simp only [hurlCaptureName, Bool.and_eq_true, List.all_eq_true, Bool.or_eq_true, decide_eq_true_eq] at hname
    have hchar : isHeaderChar c = true := by
      rcases hname.2 c hc with ((halpha | hdigit) | rfl) | rfl
      · simp [isHeaderChar, halpha]
      · simp [isHeaderChar, hdigit]
      · decide
      · decide
    exact headerChar_safe hchar
  exact ⟨(hnameSafe.append (hwords ": ".toList (by decide))).append hsafe, rule.name, query, rfl, hname⟩

/-! ## The other lines -/

theorem safe_nat (n : Nat) : Safe n.repr.toList := by
  intro c hc
  have hdigits : n.repr.toList = Nat.toDigits 10 n := by
    rw [← Nat.toString_eq_repr, Nat.toString_eq_ofList_toDigits, String.toList_ofList]
  rw [hdigits] at hc
  have hdigit := Nat.isDigit_of_mem_toDigits (by omega) (by omega) hc
  exact headerChar_safe (by simp [isHeaderChar, hdigit])

theorem safe_int (n : Int) : Safe (toString n).toList := by
  have hminus : Safe "-".toList := by
    unfold Safe
    decide
  cases n with
  | ofNat m => exact safe_nat m
  | negSucc m =>
    have hrepr : (toString (Int.negSucc m)).toList = "-".toList ++ (m + 1).repr.toList :=
      String.toList_append ..
    rw [hrepr]
    exact hminus.append (safe_nat _)

theorem safe_options (request : Request) : ∀ line ∈ hurlOptionLines request, Safe line := by
  intro line hline
  have hwords : ∀ word ∈ ["[Options]", "location: true", "max-time: "].map String.toList,
      ∀ c ∈ word, isUnsafeRune c = false := by decide
  have hlines : ∀ line ∈ (if request.noFollowRedirects then [] else ["location: true".toList]) ++
      (if request.timeoutMs > 0 then ["max-time: ".toList ++
        (toString (((request.timeoutMs + 999).bmod (2 ^ 64)).tdiv 1000)).toList] else []), Safe line := by
    intro line hline
    rcases List.mem_append.1 hline with hlocation | htime
    · split_ifs at hlocation
      · cases hlocation
      · rw [List.mem_singleton.1 hlocation]
        exact hwords _ (by decide)
    · split_ifs at htime
      · rw [List.mem_singleton.1 htime]
        exact Safe.append (hwords "max-time: ".toList (by decide)) (safe_int _)
      · cases htime
  revert hlines hline
  unfold hurlOptionLines
  simp only
  generalize (if request.noFollowRedirects = true then [] else ["location: true".toList]) ++
    (if request.timeoutMs > 0 then ["max-time: ".toList ++
      (toString (((request.timeoutMs + 999).bmod (2 ^ 64)).tdiv 1000)).toList] else []) = lines
  intro hline hlines
  by_cases hnone : lines = []
  · rw [if_pos hnone] at hline
    cases hline
  · rw [if_neg hnone] at hline
    rcases List.mem_cons.1 hline with rfl | hrest
    · exact hwords _ (by decide)
    · exact hlines line hrest

theorem safe_pairLine {files : Bool} {row : Row} {line : Text} (h : pairLine files row = some line) : Safe line := by
  have hwords : ∀ word ∈ [": ", "file,", ";"].map String.toList, ∀ c ∈ word, isUnsafeRune c = false := by decide
  have hcolon : Safe ": ".toList := hwords _ (by decide)
  unfold pairLine at h
  simp only at h
  split_ifs at h
  · rw [← Option.some.inj h]
    exact ((((safe_hurlLine _).append hcolon).append (hwords "file,".toList (by decide))).append
      (safe_hurlLine _)).append (hwords ";".toList (by decide))
  · rw [← Option.some.inj h]
    exact ((safe_hurlLine _).append hcolon).append (safe_hurlLine _)

theorem safe_hurlPairLines {title : Text} (htitle : Safe title) (rows : List Row) (files : Bool) :
    ∀ line ∈ hurlPairLines title rows files, Safe line := by
  intro line hline
  unfold hurlPairLines at hline
  split_ifs at hline
  · cases hline
  · rcases List.mem_cons.1 hline with rfl | hrow
    · exact htitle
    · obtain ⟨row, -, hmade⟩ := List.mem_filterMap.1 hrow
      exact safe_pairLine hmade

theorem contentParts_sections (body : Text) (isJson : Bool) : (contentParts body isJson).1 = [] := by
  unfold contentParts
  split_ifs
  · rfl
  · cases hurlBodyText (trimmedBody body) isJson <;> rfl

theorem safe_sections (request : Request) : ∀ line ∈ (hurlBody request).1, Safe line := by
  have htitles : Safe "[Form]".toList ∧ Safe "[MultipartFormData]".toList := by
    unfold Safe
    decide
  unfold hurlBody
  cases request.body with
  | form rows => exact safe_hurlPairLines htitles.1 rows false
  | multipart rows => exact safe_hurlPairLines htitles.2 rows true
  | json body =>
    rw [contentParts_sections]
    exact List.forall_mem_nil _
  | text body =>
    rw [contentParts_sections]
    exact List.forall_mem_nil _
  | xml body =>
    rw [contentParts_sections]
    exact List.forall_mem_nil _
  | other => exact List.forall_mem_nil _

theorem safe_headerLine {header : Text × Text} (h : hurlHeaderToken header.1 = true) : Safe (headerLine header) := by
  simp only [hurlHeaderToken, Bool.and_eq_true, List.all_eq_true] at h
  have hkey : Safe header.1 := fun c hc => headerChar_safe (h.2 c hc)
  have hcolon : Safe ": ".toList := by
    unfold Safe
    decide
  exact (hkey.append hcolon).append (safe_hurlLine _)

theorem safe_method {method : Text} (h : validMethod method = true) : Safe method := by
  simp only [validMethod, Bool.and_eq_true, List.all_eq_true, Bool.or_eq_true] at h
  intro c hc
  rcases h.2 c hc with (hmark | hupper) | hdigit
  · have hall : ∀ c ∈ "!#$%&'*+-.^_`|~".toList, isUnsafeRune c = false := by decide
    exact hall c (List.contains_iff_mem.1 hmark)
  · have halpha : c.isAlpha = true := Bool.or_eq_true_iff.2 (.inl hupper)
    exact headerChar_safe (by simp [isHeaderChar, halpha])
  · exact headerChar_safe (by simp [isHeaderChar, hdigit])

/-! ## The lines together -/

def frontLines (request : Request) : List Text :=
  hurlComment request.name :: noteLine request.note

def requestLine (request : Request) : Text :=
  request.method ++ " ".toList ++ hurlLine request.address

def bodyLines (request : Request) : List Text :=
  (hurlBody request).1 ++ if (hurlBody request).2.1 = [] then [] else readLines (hurlBody request).2.1

/-- What is expected of the response, and the comments at the end. -/
def closingLines (request : Request) (asserts left : List Text) : List Text :=
  closing asserts (hurlCaptureLines request.extractors).1 (left ++ (hurlCaptureLines request.extractors).2)

def afterLines (request : Request) (asserts left : List Text) : List Text :=
  (writtenHeaders request).map headerLine ++
    (hurlOptionLines request ++ (bodyLines request ++ closingLines request asserts left))

theorem flatMap_readLines {lines : List Text} (h : ∀ line ∈ lines, Safe line) : lines.flatMap readLines = lines := by
  induction lines with
  | nil => rfl
  | cons line rest ih =>
    rw [List.flatMap_cons, readLines_unbroken (h line (List.mem_cons_self ..)).unbroken,
      ih fun other hother => h other (List.mem_cons_of_mem _ hother)]
    rfl

theorem safe_responseLines {asserts captures : List Text} (hasserts : ∀ line ∈ asserts, Safe line)
    (hcaptures : ∀ line ∈ captures, Safe line) : ∀ line ∈ responseLines asserts captures, Safe line := by
  have hwords : ∀ word ∈ ["", "HTTP *", "[Asserts]", "[Captures]"].map String.toList,
      ∀ c ∈ word, isUnsafeRune c = false := by decide
  intro line hline
  unfold responseLines at hline
  rw [List.mem_append, List.mem_append] at hline
  rcases hline with (hstatus | hassert) | hcapture
  · split_ifs at hstatus
    · cases hstatus
    · rcases List.mem_cons.1 hstatus with rfl | hrest
      · exact List.forall_mem_nil _
      · rw [List.mem_singleton.1 hrest]
        exact hwords _ (by decide)
  · split_ifs at hassert
    · cases hassert
    · rcases List.mem_cons.1 hassert with rfl | hrest
      · exact hwords _ (by decide)
      · exact hasserts line hrest
  · split_ifs at hcapture
    · cases hcapture
    · rcases List.mem_cons.1 hcapture with rfl | hrest
      · exact hwords _ (by decide)
      · exact hcaptures line hrest

theorem safe_frontLines (request : Request) : ∀ line ∈ frontLines request, Safe line := by
  intro line hline
  unfold frontLines noteLine at hline
  rcases List.mem_cons.1 hline with rfl | hnote
  · exact safe_comment _
  · split_ifs at hnote
    · cases hnote
    · rw [List.mem_singleton.1 hnote]
      exact safe_comment _

theorem safe_requestLine {request : Request} (h : validMethod request.method = true) : Safe (requestLine request) := by
  have hblank : Safe " ".toList := by
    unfold Safe
    decide
  exact ((safe_method h).append hblank).append (safe_hurlLine _)

theorem safe_headers (request : Request) : ∀ line ∈ (writtenHeaders request).map headerLine, Safe line := by
  intro line hline
  obtain ⟨header, hheader, rfl⟩ := List.mem_map.1 hline
  exact safe_headerLine (List.mem_filter.1 hheader).2

theorem parseHurl_written {request : Request} (hprotocol : request.protocol = [])
    (hmethod : validMethod request.method = true) (hnote : (hurlBody request).2.2 = []) {asserts left : List Text}
    (hasserts : hurlAssertLines library request.assertions = some (asserts, left)) :
    ∃ text, hurlEntryText library request = some text ∧ parseHurl library text =
      entriesFrom library (frontLines request ++ requestLine request :: afterLines request asserts left) := by
  have hlines : hurlEntryLines library request = some (frontLines request ++ (requestLine request ::
      ((writtenHeaders request).map headerLine ++ (hurlOptionLines request ++ ((hurlBody request).1 ++
        ((if (hurlBody request).2.1 = [] then [] else [(hurlBody request).2.1]) ++
          (responseLines asserts (hurlCaptureLines request.extractors).1 ++
            (left ++ (hurlCaptureLines request.extractors).2).map hurlComment))))))) := by
    unfold hurlEntryLines
    rw [if_neg (by simp [hprotocol]), hasserts]
    simp only [Option.bind_eq_bind, Option.bind_some, hnote]
    simp [noteLine, frontLines, requestLine]
  refine ⟨_, by rw [hurlEntryText, hlines]; rfl, ?_⟩
  have hcomments : ∀ line ∈ (left ++ (hurlCaptureLines request.extractors).2).map hurlComment, Safe line := by
    intro line hline
    obtain ⟨text, -, rfl⟩ := List.mem_map.1 hline
    exact safe_comment text
  have hresponse := safe_responseLines (fun line hline => (hurlAssertLines_spec hasserts line hline).1)
    (fun line hline => (hurlCaptureLines_spec request.extractors line hline).1)
  have hbody : (if (hurlBody request).2.1 = [] then [] else [(hurlBody request).2.1]).flatMap readLines =
      if (hurlBody request).2.1 = [] then [] else readLines (hurlBody request).2.1 := by
    split_ifs
    · rfl
    · simp
  unfold parseHurl
  simp only
  rw [intercalate_concat '\n' (by simp), splitOn_written]
  rw [List.flatMap_append, flatMap_readLines (safe_frontLines request), List.flatMap_cons,
    readLines_unbroken (safe_requestLine hmethod).unbroken, List.flatMap_append,
    flatMap_readLines (safe_headers request), List.flatMap_append, flatMap_readLines (safe_options request),
    List.flatMap_append, flatMap_readLines (safe_sections request), List.flatMap_append, hbody,
    List.flatMap_append, flatMap_readLines hresponse, flatMap_readLines hcomments]
  simp [afterLines, bodyLines, closingLines, closing]

end Gostman.Importer.Hurl
