import Gostman.Lib.Decided
import Gostman.Importer.Contained
import Gostman.Importer.HurlBrackets
/-!
# The lines of a Hurl entry

How the reader takes each kind of line that the writer makes.
-/

namespace Gostman.Importer.Hurl

open Gostman.Lib Gostman.Placeholders Gostman.Importer.Bru

open scoped Gostman.Lib.Decided

/-! ## Texts -/

theorem trimSpace_trimEnd (line : Text) : trimSpace (trimEnd line) = trimSpace line := by
  apply trimmed_rdropWhile
  intro c hc
  simp only [Bool.or_eq_true, beq_iff_eq] at hc
  rcases hc with rfl | rfl <;> decide

theorem trimSpace_cons {c : Char} (h : Go.isSpace c = false) (rest : Text) :
    ∃ tail, trimSpace (c :: rest) = c :: tail :=
  ⟨_, trimmed_cons h rest⟩

theorem trimSpace_blank (rest : Text) : trimSpace (' ' :: rest) = trimSpace rest :=
  trimmed_cons_of_pos (by decide) rest

theorem trimSpace_trimSpace (text : Text) : trimSpace (trimSpace text) = trimSpace text :=
  trimmed_trimmed text

/-- A text begins with a character, blanks apart. -/
theorem isPrefixOf_trimSpace {c d : Char} (h : Go.isSpace c = false) (rest : Text) :
    [d].isPrefixOf (trimSpace (c :: rest)) = (d == c) := by
  obtain ⟨tail, htail⟩ := trimSpace_cons h rest
  rw [htail]
  simp [List.isPrefixOf]

theorem trimEnd_append {front : Text} {c : Char} (h : c ≠ ' ' ∧ c ≠ '\t') (rest : Text) :
    trimEnd (front ++ c :: rest) = front ++ c :: trimEnd rest := by
  apply rdropWhile_append_cons
  simp [h.1, h.2]

/-- A text that `singleLine` leaves alone: no line ends in it, no controls. -/
def Safe (text : Text) : Prop :=
  ∀ c ∈ text, isUnsafeRune c = false

theorem Safe.append {first second : Text} (hfirst : Safe first) (hsecond : Safe second) :
    Safe (first ++ second) := by
  intro c hc
  exact (List.mem_append.1 hc).elim (hfirst c) (hsecond c)

theorem Safe.of_subset {text part : Text} (h : Safe text) (hsub : ∀ c ∈ part, c ∈ text) : Safe part :=
  fun c hc => h c (hsub c hc)

theorem safe_singleLine (value : Text) : Safe (singleLine value) := by
  intro c hc
  obtain ⟨d, -, rfl⟩ := List.mem_map.1 hc
  split_ifs with hblank
  · decide
  · exact Bool.not_eq_true _ ▸ hblank

/-! ## Placeholders -/

theorem safe_placeholder {inner : Text} (h : Safe inner) : Safe (hurlPlaceholder inner) := by
  have hbraces : Safe ['{', '{'] ∧ Safe ['}', '}'] ∧ Safe "newUuid".toList := by
    unfold Safe
    decide
  unfold hurlPlaceholder braced
  split_ifs
  · exact (hbraces.1.append hbraces.2.2).append hbraces.2.1
  · exact (hbraces.1.append h).append hbraces.2.1

theorem safe_mapPlaceholders {text : Text} (h : Safe text) :
    Safe (mapPlaceholders hurlPlaceholder text) := by
  fun_induction mapPlaceholders hurlPlaceholder text with
  | case1 => exact h
  | case2 => exact h
  | case3 text before after hopen inner rest hclose ih =>
    obtain rfl := Curl.cutPair_eq hopen
    obtain rfl := Curl.cutPair_eq hclose
    have hinner : Safe inner := h.of_subset (by simp +contextual)
    have hrest : Safe rest := h.of_subset (by simp +contextual)
    have hbefore : Safe before := h.of_subset (by simp +contextual)
    have htrimmed : Safe (trimSpace inner) := hinner.of_subset fun _ => mem_trimSpace
    exact (hbefore.append (safe_placeholder htrimmed)).append (ih hrest)

theorem safe_hurlLine (text : Text) : Safe (hurlLine text) :=
  safe_mapPlaceholders (safe_singleLine text)

/-- A character that stands in no name of a placeholder of its own and is no
blank is kept. -/
theorem colon_mem_placeholder (inner : Text) : ':' ∈ hurlPlaceholder inner ↔ ':' ∈ inner := by
  unfold hurlPlaceholder braced
  split_ifs with h
  · rcases h with rfl | rfl <;> decide
  · simp

theorem colon_mem_trimSpace (text : Text) : ':' ∈ trimSpace text ↔ ':' ∈ text := by
  refine ⟨mem_trimSpace, fun h => ?_⟩
  obtain ⟨front, rest, rfl⟩ := List.append_of_mem h
  unfold trimSpace
  induction front with
  | nil =>
    rw [List.nil_append]
    rw [List.dropWhile_cons_of_neg (by decide), rdropWhile_cons (by decide)]
    exact List.mem_cons_self ..
  | cons c front ih =>
    by_cases hc : Go.isSpace c = true
    · rw [List.cons_append, List.dropWhile_cons_of_pos hc]
      exact ih (by simp)
    · rw [List.cons_append, List.dropWhile_cons_of_neg hc, ← List.cons_append,
        rdropWhile_append_cons (by decide)]
      simp

theorem colon_mem_mapPlaceholders (text : Text) :
    ':' ∈ mapPlaceholders hurlPlaceholder text ↔ ':' ∈ text := by
  fun_induction mapPlaceholders hurlPlaceholder text with
  | case1 => exact Iff.rfl
  | case2 => exact Iff.rfl
  | case3 text before after hopen inner rest hclose ih =>
    obtain rfl := Curl.cutPair_eq hopen
    obtain rfl := Curl.cutPair_eq hclose
    simp [colon_mem_placeholder, colon_mem_trimSpace, ih]

theorem colon_mem_singleLine (text : Text) : ':' ∈ singleLine text ↔ ':' ∈ text := by
  unfold singleLine
  rw [List.mem_map]
  constructor
  · rintro ⟨c, hc, heq⟩
    split_ifs at heq
    · cases heq
    · rwa [← heq]
  · intro h
    exact ⟨':', h, by decide⟩

/-! ## Fields -/

theorem mem_of_mem_splitOnP {text piece : Text} {isCut : Char → Bool} (h : piece ∈ text.splitOnP isCut) :
    ∀ c ∈ piece, c ∈ text := by
  induction text generalizing piece with
  | nil =>
    obtain rfl : piece = [] := by simpa using h
    simp
  | cons first rest ih =>
    rw [List.splitOnP_cons_eq_if_modifyHead] at h
    split_ifs at h
    · rcases List.mem_cons.1 h with rfl | hmem
      · simp
      · exact fun c hc => List.mem_cons_of_mem _ (ih hmem c hc)
    · obtain ⟨head, others, hsplit⟩ := List.exists_cons_of_ne_nil (List.splitOnP_ne_nil isCut rest)
      rw [hsplit] at h ih
      rcases List.mem_cons.1 h with rfl | hmem
      · intro c hc
        rcases List.mem_cons.1 hc with rfl | hhead
        · exact List.mem_cons_self ..
        · exact List.mem_cons_of_mem _ (ih (List.mem_cons_self ..) c hhead)
      · exact fun c hc => List.mem_cons_of_mem _ (ih (List.mem_cons_of_mem _ hmem) c hc)

theorem fields_ne_nil {text : Text} (h : ∃ c ∈ text, Go.isSpace c = false) : fields text ≠ [] := by
  unfold fields
  induction text with
  | nil =>
    obtain ⟨c, hc, -⟩ := h
    cases hc
  | cons first rest ih =>
    rw [List.splitOnP_cons_eq_if_modifyHead]
    obtain ⟨c, hc, hspace⟩ := h
    by_cases hfirst : Go.isSpace first = true
    · rw [if_pos hfirst, List.filter_cons_of_neg (by simp)]
      apply ih
      rcases List.mem_cons.1 hc with rfl | hrest
      · rw [hfirst] at hspace
        cases hspace
      · exact ⟨c, hrest, hspace⟩
    · rw [if_neg hfirst]
      obtain ⟨head, others, hsplit⟩ := List.exists_cons_of_ne_nil (List.splitOnP_ne_nil Go.isSpace rest)
      rw [hsplit, List.modifyHead_cons, List.filter_cons_of_pos (by simp)]
      exact List.cons_ne_nil _ _

theorem safe_oneLine (name : Text) : Safe (oneLine name) := by
  intro c hc
  rcases mem_intercalate hc with hblank | ⟨field, hfield, hmem⟩
  · rw [List.mem_singleton.1 hblank]
    decide
  · have hpiece := (List.mem_filter.1 hfield).1
    exact safe_singleLine name c (mem_of_mem_splitOnP hpiece c hmem)

theorem safe_comment (text : Text) : Safe (hurlComment text) := by
  have hmark : Safe "# ".toList := by
    unfold Safe
    decide
  exact hmark.append (safe_oneLine text)

theorem isHurlComment_comment (text : Text) : isHurlComment (trimEnd (hurlComment text)) = true := by
  unfold isHurlComment
  rw [trimSpace_trimEnd]
  exact isPrefixOf_trimSpace (by decide) (' ' :: oneLine text)

/-! ## Tokens -/

theorem ascii_forall {P : Char → Prop} (h : ∀ n : Fin 128, P (Char.ofNat n)) {c : Char} (hc : c.toNat < 128) :
    P c := by
  have hn := h ⟨c.toNat, hc⟩
  rwa [Char.ofNat_toNat] at hn

theorem ascii_of_headerChar {c : Char} (h : isHeaderChar c = true) : c.toNat < 128 := by
  simp only [isHeaderChar, Bool.or_eq_true] at h
  rcases h with (halpha | hdigit) | hpunctuation
  · rcases Bool.or_eq_true_iff.1 halpha with hupper | hlower
    · have hle := (of_decide_eq_true hupper).2
      exact Nat.lt_of_le_of_lt (UInt32.le_iff_toNat_le.1 hle) (by decide)
    · have hle := of_decide_eq_true (Bool.and_eq_true_iff.1 hlower).2
      exact Nat.lt_of_le_of_lt (UInt32.le_iff_toNat_le.1 hle) (by decide)
  · simp only [Char.isDigit, Bool.and_eq_true, decide_eq_true_eq, UInt32.le_iff_toNat_le] at hdigit
    exact Nat.lt_of_le_of_lt hdigit.2 (by decide)
  · have hall : ∀ c ∈ tokenPunctuation, c.toNat < 128 := by decide
    exact hall c (List.contains_iff_mem.1 hpunctuation)

/-- A character of a token is no blank, no colon and no line end. -/
theorem headerChar_plain {c : Char} (h : isHeaderChar c = true) :
    Go.isSpace c = false ∧ c ≠ ':' ∧ c ≠ '\n' ∧ c ≠ '\r' := by
  have hall := ascii_forall (P := fun c => isHeaderChar c = true →
    Go.isSpace c = false ∧ c ≠ ':' ∧ c ≠ '\n' ∧ c ≠ '\r') (by decide +kernel) (ascii_of_headerChar h)
  exact hall h

theorem headerChar_safe {c : Char} (h : isHeaderChar c = true) : isUnsafeRune c = false := by
  have hall := ascii_forall (P := fun c => isHeaderChar c = true → isUnsafeRune c = false)
    (by decide +kernel) (ascii_of_headerChar h)
  exact hall h

variable (library : Library)

theorem isHurlToken_of_headerToken {key : Text} (h : hurlHeaderToken key = true) :
    isHurlToken library key = true := by
  simp only [hurlHeaderToken, Bool.and_eq_true, List.all_eq_true] at h
  simp only [isHurlToken, Bool.and_eq_true, List.all_eq_true]
  refine ⟨h.1, fun c hc => ?_⟩
  have hchar := h.2 c hc
  have hascii := ascii_of_headerChar hchar
  rw [library.letter_ascii c hascii, library.digit_ascii c hascii]
  exact hchar

theorem headerChar_of_token {text : Text} (h : isHurlToken library text = true) {c : Char} (hc : c ∈ text)
    (hascii : c.toNat < 128) : isHeaderChar c = true := by
  simp only [isHurlToken, Bool.and_eq_true, List.all_eq_true] at h
  have hchar := h.2 c hc
  rw [library.letter_ascii c hascii, library.digit_ascii c hascii] at hchar
  exact hchar

theorem trimSpace_of_plain {text : Text} (h : ∀ c ∈ text, Go.isSpace c = false) : trimSpace text = text := by
  cases text with
  | nil => rfl
  | cons first rest =>
    have hrest : rest.rdropWhile Go.isSpace = rest := by
      rw [List.rdropWhile_eq_self_iff]
      intro hne
      rw [h _ (List.mem_cons_of_mem _ (List.getLast_mem hne))]
      exact Bool.false_ne_true
    exact (trimmed_cons (h first (List.mem_cons_self ..)) rest).trans (by rw [hrest])

/-! ## Lines with a colon -/

theorem trimEnd_colon (key value : Text) :
    trimEnd (key ++ ": ".toList ++ value) = key ++ ':' :: trimEnd (' ' :: value) := by
  rw [List.append_assoc]
  exact trimEnd_append (by decide) (' ' :: value)

theorem cutAt_colon {key : Text} (h : ':' ∉ key) (value : Text) :
    Go.cutAt ':' (trimEnd (key ++ ": ".toList ++ value)) = some (key, trimEnd (' ' :: value)) := by
  rw [trimEnd_colon]
  exact Go.cutAt_append h _

theorem trimSpace_value (value : Text) : trimSpace (trimEnd (' ' :: value)) = trimSpace value := by
  rw [trimSpace_trimEnd, trimSpace_blank]

theorem hurlHeaderParts_line {key : Text} (h : hurlHeaderToken key = true) (value : Text) :
    hurlHeaderParts library (trimEnd (key ++ ": ".toList ++ value)) = some (key, trimSpace value) := by
  have htoken := isHurlToken_of_headerToken library h
  simp only [hurlHeaderToken, Bool.and_eq_true, List.all_eq_true] at h
  have hplain := fun c hc => headerChar_plain (h.2 c hc)
  have hcolon : ':' ∉ key := fun hmem => (hplain ':' hmem).2.1 rfl
  have htrim : trimSpace key = key := trimSpace_of_plain fun c hc => (hplain c hc).1
  unfold hurlHeaderParts
  rw [cutAt_colon hcolon]
  simp only [htrim, htoken, if_true, trimSpace_value]

theorem isHurlComment_line {key : Text} (h : hurlHeaderToken key = true) (value : Text) :
    isHurlComment (trimEnd (key ++ ": ".toList ++ value)) = ['#'].isPrefixOf key := by
  simp only [hurlHeaderToken, Bool.and_eq_true, List.all_eq_true] at h
  cases key with
  | nil => simp at h
  | cons first rest =>
    have hfirst := (headerChar_plain (h.2 first (List.mem_cons_self ..))).1
    unfold isHurlComment
    rw [trimSpace_trimEnd, List.cons_append, List.cons_append, isPrefixOf_trimSpace hfirst]
    simp [List.isPrefixOf]

/-- The headers of an entry, those apart whose name reads as a comment. -/
theorem requestHeaders_append {headers : List (Text × Text)}
    (h : ∀ header ∈ headers, hurlHeaderToken header.1 = true) (others : List Text) :
    requestHeaders library (headers.map headerLine ++ others) =
      ((headers.filter fun header => !(['#'].isPrefixOf header.1)).map (fun header =>
        (header.1, trimSpace (hurlLine header.2))) ++ (requestHeaders library others).1,
        (requestHeaders library others).2) := by
  induction headers with
  | nil => rfl
  | cons header rest ih =>
    have hrest := ih fun other hother => h other (List.mem_cons_of_mem _ hother)
    have htoken := h header (List.mem_cons_self ..)
    rw [List.map_cons, List.cons_append, requestHeaders, headerLine, isHurlComment_line htoken, hrest,
      List.filter_cons]
    by_cases hcomment : ['#'].isPrefixOf header.1 = true
    · rw [if_pos hcomment, if_neg (by simp [hcomment])]
    · rw [Bool.not_eq_true] at hcomment
      rw [hcomment, if_neg Bool.false_ne_true, Bool.not_false, if_pos rfl, hurlHeaderParts_line library htoken]
      rfl

/-! ## Names of sections -/

theorem hurlSectionName_title (inner : Text) (hne : inner ≠ []) (h : ∀ c ∈ inner, c.isAlpha = true) :
    hurlSectionName library (trimEnd ('[' :: inner ++ [']'])) = some (inner.map Char.toLower) := by
  have hend : trimEnd ('[' :: inner ++ [']']) = '[' :: inner ++ [']'] := trimEnd_append (by decide) []
  have hascii : ∀ c ∈ inner, c.toNat < 128 :=
    fun c hc => ascii_of_headerChar (by simp [isHeaderChar, h c hc])
  have htoken : isHurlToken library inner = true := by
    apply isHurlToken_of_headerToken
    simp only [hurlHeaderToken, Bool.and_eq_true, List.all_eq_true]
    exact ⟨by simpa using hne, fun c hc => by simp [isHeaderChar, h c hc]⟩
  have htrim : trimSpace ('[' :: inner ++ [']']) = '[' :: inner ++ [']'] := by
    apply trimSpace_of_plain
    intro c hc
    rw [List.mem_append, List.mem_cons, List.mem_singleton] at hc
    rcases hc with (rfl | hmem) | rfl
    · decide
    · exact (headerChar_plain (by simp [isHeaderChar, h c hmem])).1
    · decide
  have hcut : (Go.cutPrefix ['['] ('[' :: inner ++ [']'])).bind (Go.cutSuffix [']']) = some inner := by
    simp [Go.cutPrefix, Go.cutSuffix, List.isPrefixOf]
  unfold hurlSectionName
  rw [hend, htrim, hcut]
  simp only [htoken, if_true]
  rw [List.map_congr_left fun c hc => library.lower_ascii c (hascii c hc)]

theorem hurlSectionName_eq_some {line name : Text} (h : hurlSectionName library line = some name) :
    ∃ inner, trimSpace line = '[' :: inner ++ [']'] ∧ isHurlToken library inner = true := by
  unfold hurlSectionName at h
  split at h
  · cases h
  · next inner hcut =>
    split_ifs at h with htoken
    obtain ⟨rest, hstarts, hsuffix⟩ := Option.bind_eq_some_iff.1 hcut
    unfold Go.cutPrefix at hstarts
    unfold Go.cutSuffix at hsuffix
    split_ifs at hstarts with hhead
    split_ifs at hsuffix with htail
    obtain ⟨after, hafter⟩ := List.isPrefixOf_iff_prefix.1 hhead
    obtain ⟨before, hbefore⟩ := List.isSuffixOf_iff_suffix.1 htail
    refine ⟨inner, ?_, htoken⟩
    rw [← hafter] at hstarts
    obtain rfl : after = rest := by simpa using hstarts
    rw [← hbefore] at hsuffix
    obtain rfl : before = inner := by simpa using hsuffix
    rw [← hafter, ← hbefore]
    rfl

/-- A line with a colon is no name of a section. -/
theorem not_section_of_colon {line : Text} (h : ':' ∈ line) : hurlSectionName library line = none := by
  cases hname : hurlSectionName library line with
  | none => rfl
  | some name =>
    obtain ⟨inner, htrim, htoken⟩ := hurlSectionName_eq_some library hname
    have hmem : ':' ∈ trimSpace line := (colon_mem_trimSpace line).2 h
    rw [htrim] at hmem
    have hinner : ':' ∈ inner := by simpa using hmem
    have hchar := headerChar_of_token library htoken hinner (by decide)
    cases hchar

/-! ## Pairs -/

theorem pairs_append {lines : List Text} (h : ∀ line ∈ lines, endsPairs library (trimEnd line) = false)
    (others : List Text) :
    pairs library (lines ++ others) =
      (lines.flatMap (fun line => pairOf (trimEnd line)) ++ (pairs library others).1,
        (pairs library others).2) := by
  induction lines with
  | nil => rfl
  | cons line rest ih =>
    rw [List.cons_append, pairs, if_neg (by rw [h line (List.mem_cons_self ..)]; exact Bool.false_ne_true),
      ih fun other hother => h other (List.mem_cons_of_mem _ hother)]
    simp [List.append_assoc]

theorem isBlank_cons {c : Char} (h : Go.isSpace c = false) (rest : Text) : isBlank (c :: rest) = false := by
  obtain ⟨tail, htail⟩ := trimSpace_cons h rest
  unfold isBlank
  rw [htail]
  rfl

theorem startsHurlBody_cons {c : Char} (hspace : Go.isSpace c = false) (h : c ∉ ['{', '[', '`', '<'])
    (rest : Text) : startsHurlBody (c :: rest) = false := by
  simp only [List.mem_cons, List.not_mem_nil, or_false, not_or] at h
  unfold startsHurlBody
  simp only [isPrefixOf_trimSpace hspace, Bool.or_eq_false_iff, beq_eq_false_iff_ne]
  exact ⟨⟨⟨Ne.symm h.1, Ne.symm h.2.1⟩, Ne.symm h.2.2.1⟩, Ne.symm h.2.2.2⟩

theorem not_section_cons {c : Char} (hspace : Go.isSpace c = false) (h : c ≠ '[') (rest : Text) :
    hurlSectionName library (c :: rest) = none := by
  cases hname : hurlSectionName library (c :: rest) with
  | none => rfl
  | some name =>
    obtain ⟨inner, htrim, -⟩ := hurlSectionName_eq_some library hname
    obtain ⟨tail, htail⟩ := trimSpace_cons hspace rest
    rw [htail] at htrim
    exact absurd (List.cons.inj htrim).1 h

theorem hurlResponseStatus_of_word {line word : Text} (hword : ' ' ∉ word)
    (hline : trimSpace line = word ∨ ∃ rest, trimSpace line = word ++ ' ' :: rest)
    (h : word ≠ "HTTP".toList ∧ ¬ "HTTP/".toList.isPrefixOf word) : hurlResponseStatus line = none := by
  have hcut : (Go.cutAt ' ' (trimSpace line)).getD (trimSpace line, []) =
      (word, ((Go.cutAt ' ' (trimSpace line)).getD (trimSpace line, [])).2) := by
    rcases hline with heq | ⟨rest, heq⟩
    · rw [heq, Go.cutAt_eq_none hword]
      rfl
    · rw [heq, Go.cutAt_append hword]
      rfl
  unfold hurlResponseStatus
  rw [hcut]
  exact if_pos h

theorem not_response_cons {c : Char} (hspace : Go.isSpace c = false) (h : c ≠ 'H') (rest : Text) :
    hurlResponseStatus (c :: rest) = none := by
  obtain ⟨tail, htail⟩ := trimSpace_cons hspace rest
  have hc : c ≠ ' ' := by
    rintro rfl
    cases hspace
  have hword : ∀ word : Text, (c :: word) ≠ "HTTP".toList ∧ ¬ "HTTP/".toList.isPrefixOf (c :: word) = true := by
    intro word
    constructor
    · intro heq
      exact h (List.cons.inj heq).1
    · intro hstarts
      obtain ⟨more, hmore⟩ := List.isPrefixOf_iff_prefix.1 hstarts
      exact h (List.cons.inj hmore).1.symm
  cases hcut : Go.cutAt ' ' tail with
  | none =>
    unfold hurlResponseStatus
    rw [htail, Go.cutAt, if_neg hc, hcut]
    exact if_pos (hword tail)
  | some parts =>
    unfold hurlResponseStatus
    rw [htail, Go.cutAt, if_neg hc, hcut]
    exact if_pos (hword parts.1)

/-- A line that begins like none that ends a section. -/
theorem endsPairs_cons {c : Char} (hspace : Go.isSpace c = false) (h : c ∉ ['{', '[', '`', '<', 'H'])
    (rest : Text) : endsPairs library (c :: rest) = false := by
  simp only [List.mem_cons, List.not_mem_nil, or_false, not_or] at h
  unfold endsPairs isHurlSectionLine isHurlResponseLine
  rw [isBlank_cons hspace, not_section_cons library hspace h.2.1, not_response_cons hspace h.2.2.2.2,
    startsHurlBody_cons hspace (by simp [h.1, h.2.1, h.2.2.1, h.2.2.2.1])]
  rfl

theorem trimEnd_cons {c : Char} (h : Go.isSpace c = false) (rest : Text) :
    trimEnd (c :: rest) = c :: trimEnd rest := by
  apply rdropWhile_cons
  have hblank : c ≠ ' ' ∧ c ≠ '\t' := by
    constructor <;> (rintro rfl; cases h)
  simp [hblank.1, hblank.2]

theorem endsPairs_comment (text : Text) : endsPairs library (trimEnd (hurlComment text)) = false := by
  have hline : hurlComment text = '#' :: ' ' :: oneLine text := rfl
  rw [hline, trimEnd_cons (by decide)]
  exact endsPairs_cons library (by decide) (by decide) _

theorem pairOf_comment (text : Text) : pairOf (trimEnd (hurlComment text)) = [] := by
  unfold pairOf
  rw [if_pos (isHurlComment_comment text)]

theorem not_response_colon {key : Text} (h : ∀ c ∈ key, Go.isSpace c = false ∧ c ≠ '/') (value : Text) :
    hurlResponseStatus (key ++ ": ".toList ++ value) = none := by
  have hword : ' ' ∉ key ++ [':'] := by
    intro hmem
    rcases List.mem_append.1 hmem with hkey | hcolon
    · exact absurd (h ' ' hkey).1 (by decide)
    · exact absurd hcolon (by decide)
  have htrim : trimSpace (key ++ [':']) = key ++ [':'] := by
    apply trimSpace_of_plain
    intro c hc
    rcases List.mem_append.1 hc with hkey | hcolon
    · exact (h c hkey).1
    · rw [List.mem_singleton.1 hcolon]
      decide
  have hline : key ++ ": ".toList ++ value = (key ++ [':']) ++ (' ' :: value) := by simp
  have htrimmed : trimSpace (key ++ ": ".toList ++ value) =
      (key ++ [':']) ++ (' ' :: value).rdropWhile Go.isSpace := by
    rw [hline]
    exact trimmed_append htrim (by simp)
  apply hurlResponseStatus_of_word hword
  · rw [htrimmed]
    by_cases hvalue : ∃ c ∈ value, Go.isSpace c = false
    · right
      refine ⟨value.rdropWhile Go.isSpace, ?_⟩
      have hblank : (' ' :: value).rdropWhile Go.isSpace = ' ' :: value.rdropWhile Go.isSpace :=
        rdropWhile_append hvalue [' ']
      rw [hblank]
    · left
      have hnil : (' ' :: value).rdropWhile Go.isSpace = [] := by
        rw [List.rdropWhile_eq_nil_iff]
        intro c hc
        rcases List.mem_cons.1 hc with rfl | hmem
        · decide
        · by_contra hspace
          exact hvalue ⟨c, hmem, Bool.not_eq_true _ ▸ hspace⟩
      rw [hnil, List.append_nil]
  · constructor
    · intro heq
      have hmem : ':' ∈ "HTTP".toList := by
        rw [← heq]
        simp
      exact absurd hmem (by decide)
    · intro hstarts
      obtain ⟨more, hmore⟩ := List.isPrefixOf_iff_prefix.1 hstarts
      have hmem : '/' ∈ key ++ [':'] := by
        rw [← hmore]
        exact List.mem_append_left _ (by decide)
      rcases List.mem_append.1 hmem with hkey | hcolon
      · exact (h '/' hkey).2 rfl
      · exact absurd hcolon (by decide)

end Gostman.Importer.Hurl
