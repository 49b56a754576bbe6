import Gostman.Format.Values
/-!
# The tokens of a rendering

The tokens of a text, read off from its front, are those of the document it is a
rendering of, whatever white space stands between them.
-/

namespace Gostman.Format

open Gostman.Lib

open scoped Gostman.Lib.Decided

/-! ## One token after the other -/

theorem mem_of_not_isWordUnit {u : UInt16} (h : isWordUnit u = false) :
    u ∈ [blank, 0x09, lineFeed, carriageReturn, byteOrderMark, 0x7B, 0x7D, 0x5B, 0x5D, colon, comma, quotationMark] := by
  unfold isWordUnit isSpace isJsonSpace isPunctuation at h
  rw [Bool.not_eq_false'] at h
  simp only [Bool.or_eq_true, beq_iff_eq, or_assoc] at h
  simp only [List.mem_cons, List.not_mem_nil, or_false]
  exact h

theorem tokenLength_pos {u : UInt16} {rest : Units} (hspace : isSpace u = false) : 0 < tokenLength (u :: rest) := by
  unfold tokenLength
  simp only
  split_ifs with hquote hopen hpunctuation
  · exact Nat.succ_pos _
  · cases firstAt referenceClose ((u :: rest).drop referenceOpen.length) with
    | none => exact Nat.succ_pos _
    | some inner => exact Nat.add_pos_right _ (by decide)
  · exact Nat.one_pos
  · rw [List.takeWhile_cons_of_pos]
    · exact Nat.succ_pos _
    · unfold isWordUnit
      rw [hspace, Bool.eq_false_iff.2 hpunctuation]
      simpa using hquote

theorem nextToken_shorter {text token rest : Units} (h : nextToken text = some (token, rest)) : rest.length < text.length := by
  unfold nextToken at h
  simp only at h
  split_ifs at h with hnil
  obtain ⟨-, rfl⟩ := Prod.mk.inj (Option.some.inj h)
  obtain ⟨u, behind, hbegun⟩ := List.exists_cons_of_ne_nil hnil
  have hspace := List.head?_dropWhile_not isSpace text
  rw [hbegun] at hspace
  have hpos := @tokenLength_pos u behind hspace
  have hsuffix := (List.dropWhile_suffix isSpace : text.dropWhile isSpace <:+ text).length_le
  rw [hbegun] at hsuffix ⊢
  rw [List.length_drop]
  rw [List.length_cons] at hsuffix ⊢
  omega

theorem tokensWithin_enough {count more : Nat} {text : Units} (hcount : text.length ≤ count) (hmore : text.length ≤ more) :
    tokensWithin count text = tokensWithin more text := by
  induction count generalizing more text with
  | zero =>
    rw [List.length_eq_zero_iff.1 (Nat.le_zero.1 hcount)]
    cases more with
    | zero => rfl
    | succ more => rfl
  | succ count ih =>
    cases more with
    | zero =>
      rw [List.length_eq_zero_iff.1 (Nat.le_zero.1 hmore)]
      rfl
    | succ more =>
      rw [tokensWithin, tokensWithin]
      cases hnext : nextToken text with
      | none => rfl
      | some found =>
        have hshorter := @nextToken_shorter text found.1 found.2 hnext
        exact congrArg (found.1 :: ·) (ih (by omega) (by omega))

theorem tokens_of_next {text token rest : Units} (h : nextToken text = some (token, rest)) :
    tokens text = token :: tokens rest := by
  have hshorter := nextToken_shorter h
  obtain ⟨count, hcount⟩ := Nat.exists_eq_succ_of_ne_zero (Nat.ne_of_gt (Nat.zero_lt_of_lt hshorter))
  unfold tokens
  rw [hcount, tokensWithin, h]
  exact congrArg (token :: ·) (tokensWithin_enough (by omega) (Nat.le_refl _))

theorem tokens_of_none {text : Units} (h : nextToken text = none) : tokens text = [] := by
  unfold tokens
  cases text.length with
  | zero => rfl
  | succ count => rw [tokensWithin, h]

theorem tokens_blank {before : Units} (hblank : templates.Blank before) (text : Units) :
    tokens (before ++ text) = tokens text := by
  have hnext : nextToken (before ++ text) = nextToken text := by
    have hdrop : (before ++ text).dropWhile isSpace = text.dropWhile isSpace := List.dropWhile_append_of_pos hblank
    unfold nextToken
    rw [hdrop]
  cases hfound : nextToken text with
  | none => rw [tokens_of_none hfound, tokens_of_none (hnext.trans hfound)]
  | some found =>
    rw [@tokens_of_next text found.1 found.2 hfound,
      @tokens_of_next (before ++ text) found.1 found.2 (hnext.trans hfound)]

theorem tokens_token {token rest : Units} (hbegins : Begins token) (hlength : tokenLength (token ++ rest) = token.length) :
    tokens (token ++ rest) = token :: tokens rest := by
  obtain ⟨u, text, rfl, hu⟩ := hbegins
  have hspace : isSpace u = false := Bool.eq_false_iff.2 fun hspace => hu (mem_stops_of_isSpace hspace)
  apply tokens_of_next
  have hbegun : (u :: text ++ rest).dropWhile isSpace = u :: text ++ rest := by
    rw [List.cons_append, List.dropWhile_cons_of_neg]
    rw [hspace]
    exact Bool.false_ne_true
  unfold nextToken
  simp only
  rw [hbegun, hlength, List.take_left, List.drop_left, if_neg]
  exact List.cons_ne_nil _ _

/-! ## The kinds of tokens -/

theorem stringEnd_plainUnit {u : UInt16} (hquote : u ≠ quotationMark) (hslash : u ≠ backslash) (rest : Units) :
    stringEnd (u :: rest) = stringEnd rest + 1 := by
  rw [stringEnd.eq_def]
  simp only
  rw [if_neg hquote, if_neg hslash]

theorem stringEnd_escaped (u : UInt16) (rest : Units) : stringEnd (backslash :: u :: rest) = stringEnd rest + 2 := by
  rw [stringEnd.eq_def]
  rfl

theorem stringEnd_plain {digits : Units} (h : ∀ u ∈ digits, u ≠ quotationMark ∧ u ≠ backslash) (rest : Units) :
    stringEnd (digits ++ rest) = stringEnd rest + digits.length := by
  induction digits with
  | nil => rfl
  | cons u digits ih =>
    obtain ⟨⟨hquote, hslash⟩, hothers⟩ := List.forall_mem_cons.1 h
    rw [List.cons_append, stringEnd_plainUnit hquote hslash, ih hothers, List.length_cons, Nat.add_assoc]

theorem stringEnd_escape {escape : Units} (h : IsEscape escape) (rest : Units) :
    stringEnd (backslash :: (escape ++ rest)) = stringEnd rest + (escape.length + 1) := by
  obtain ⟨u, -, rfl⟩ | ⟨digits, -, hhex, rfl⟩ := h
  · exact stringEnd_escaped u rest
  · have hplain : ∀ u ∈ digits, u ≠ quotationMark ∧ u ≠ backslash := by
      intro u hu
      have hdigit := hhex u hu
      constructor
      · rintro rfl
        exact absurd hdigit (by decide)
      · rintro rfl
        exact absurd hdigit (by decide)
    rw [List.cons_append, stringEnd_escaped, stringEnd_plain hplain, List.length_cons]
    omega

theorem stringEnd_inner {inner : Units} (h : Inner inner) (rest : Units) :
    stringEnd (inner ++ quotationMark :: rest) = inner.length + 1 := by
  induction h with
  | nil =>
    rw [List.nil_append, stringEnd.eq_def]
    rfl
  | plain visible quote slash inner ih =>
    rw [List.cons_append, stringEnd_plainUnit quote slash, ih, List.length_cons]
  | escaped known inner ih =>
    rw [List.cons_append, List.append_assoc, stringEnd_escape known, ih, List.length_cons, List.length_append]
    omega

theorem tokens_string {token : Units} (h : IsString token) (rest : Units) : tokens (token ++ rest) = token :: tokens rest := by
  apply tokens_token (begins_string h)
  obtain ⟨inner, hinner, rfl⟩ := h
  have hlength (text : Units) : tokenLength (quotationMark :: text) = stringEnd text + 1 := rfl
  rw [List.cons_append, List.append_assoc, List.singleton_append, hlength, stringEnd_inner hinner, List.length_cons,
    List.length_append]
  rfl

theorem tokens_reference {token : Units} (h : IsReference token) (rest : Units) :
    tokens (token ++ rest) = token :: tokens rest := by
  apply tokens_token (begins_reference h)
  obtain ⟨inner, hinner, rfl⟩ := h
  have hrest : referenceOpen ++ (inner ++ referenceClose) ++ rest = referenceOpen ++ (inner ++ (referenceClose ++ rest)) := by
    simp only [List.append_assoc]
  have hfound : firstAt referenceClose ((referenceOpen ++ (inner ++ (referenceClose ++ rest))).drop referenceOpen.length) =
      some inner.length := by
    rw [List.drop_left]
    exact (firstAt_behind_iff rest).2 hinner
  have hlength : tokenLength (referenceOpen ++ (inner ++ (referenceClose ++ rest))) =
      referenceOpen.length + inner.length + referenceClose.length := by
    have hopen : referenceOpen.isPrefixOf (referenceOpen ++ (inner ++ (referenceClose ++ rest))) = true :=
      List.isPrefixOf_iff_prefix.2 (List.prefix_append _ _)
    unfold tokenLength
    rw [hfound, hopen]
    rfl
  rw [hrest, hlength, List.length_append, List.length_append, Nat.add_assoc]

theorem not_prefix_referenceOpen {u : UInt16} {rest : Units} (h : ¬(u = 0x7B ∧ rest.head? = some 0x7B)) :
    ¬ referenceOpen.isPrefixOf (u :: rest) = true := by
  intro hopen
  obtain ⟨behind, hbehind⟩ := List.isPrefixOf_iff_prefix.1 hopen
  obtain ⟨hu, hrest⟩ := List.cons.inj hbehind
  exact h ⟨hu.symm, by rw [← hrest]; rfl⟩

theorem tokens_punctuation {u : UInt16} (hu : isPunctuation u = true) {rest : Units}
    (hbraces : ¬(u = 0x7B ∧ rest.head? = some 0x7B)) : tokens (u :: rest) = [u] :: tokens rest := by
  have hunits : u ∈ [(0x7B : UInt16), 0x7D, 0x5B, 0x5D, colon, comma] := by
    unfold isPunctuation at hu
    simp only [Bool.or_eq_true, beq_iff_eq, or_assoc] at hu
    simp only [List.mem_cons, List.not_mem_nil, or_false]
    exact hu
  have hnone : ∀ v ∈ [(0x7B : UInt16), 0x7D, 0x5B, 0x5D, colon, comma], isSpace v = false ∧ v ≠ quotationMark := by decide
  obtain ⟨hspace, hquote⟩ := hnone u hunits
  have hbegun : (u :: rest).dropWhile isSpace = u :: rest := by
    rw [List.dropWhile_cons_of_neg]
    rw [hspace]
    exact Bool.false_ne_true
  have hlength : tokenLength (u :: rest) = 1 := by
    unfold tokenLength
    simp only
    rw [if_neg hquote, if_neg (not_prefix_referenceOpen hbraces), if_pos hu]
  apply tokens_of_next
  unfold nextToken
  simp only
  rw [hbegun, hlength, if_neg (List.cons_ne_nil _ _)]
  rfl

theorem tokens_word {token rest : Units} (hbegins : Begins token) (hword : ∀ u ∈ token, isWordUnit u = true)
    (hend : Delimited rest) : tokens (token ++ rest) = token :: tokens rest := by
  apply tokens_token hbegins
  have hwhile : (token ++ rest).takeWhile isWordUnit = token := by
    have htook : Reader.Took ⟨0, token ++ rest⟩ token ⟨token.length, rest⟩ := ⟨rfl, (Nat.zero_add _).symm⟩
    have hstops : ∀ u ∈ stops, isWordUnit u = false := by decide
    exact htook.takeWhile_eq hword (Heads.not_sees (r := ⟨token.length, rest⟩) hend hstops)
  obtain ⟨u, text, rfl, hu⟩ := hbegins
  have hfirst := hword u List.mem_cons_self
  have hquote : u ≠ quotationMark := by
    rintro rfl
    exact absurd hfirst (by decide)
  have hbrace : u ≠ 0x7B := by
    rintro rfl
    exact absurd hfirst (by decide)
  have hpunctuation : ¬ isPunctuation u = true := by
    intro hpunctuation
    unfold isWordUnit at hfirst
    rw [hpunctuation, Bool.or_true, Bool.true_or] at hfirst
    cases hfirst
  rw [List.cons_append] at hwhile ⊢
  unfold tokenLength
  simp only
  rw [if_neg hquote, if_neg (not_prefix_referenceOpen fun h => hbrace h.1), if_neg hpunctuation, hwhile]

theorem isWordUnit_of_isDigit {u : UInt16} (h : isDigit u = true) : isWordUnit u = true := by
  by_contra hword
  have hnone : ∀ v ∈ [blank, 0x09, lineFeed, carriageReturn, byteOrderMark, 0x7B, 0x7D, 0x5B, 0x5D, colon, comma,
      quotationMark], isDigit v = false := by decide
  rw [hnone u (mem_of_not_isWordUnit (Bool.eq_false_iff.2 hword))] at h
  cases h

theorem isWordUnit_of_number {token : Units} (h : IsNumber token) : ∀ u ∈ token, isWordUnit u = true := by
  obtain ⟨sign, whole, fraction, exponent, hsign, hwhole, hfraction, hexponent, rfl⟩ := h
  have hdigits {text : Units} (h : IsDigits text) : ∀ u ∈ text, isWordUnit u = true :=
    fun u hu => isWordUnit_of_isDigit (h.2 u hu)
  refine List.forall_mem_append.2 ⟨?_, List.forall_mem_append.2 ⟨?_, List.forall_mem_append.2 ⟨?_, ?_⟩⟩⟩
  · obtain rfl | rfl := hsign
    · exact List.forall_mem_nil _
    · decide
  · obtain rfl | ⟨hwhole, -⟩ := hwhole
    · decide
    · exact hdigits hwhole
  · obtain rfl | ⟨digits, hfraction, rfl⟩ := hfraction
    · exact List.forall_mem_nil _
    · exact List.forall_mem_cons.2 ⟨by decide, hdigits hfraction⟩
  · obtain rfl | ⟨mark, sign', digits, hmark, hsign', hexponent, rfl⟩ := hexponent
    · exact List.forall_mem_nil _
    · refine List.forall_mem_cons.2 ⟨?_, List.forall_mem_append.2 ⟨?_, hdigits hexponent⟩⟩
      · have hmarks : ∀ u ∈ [(0x65 : UInt16), 0x45], isWordUnit u = true := by decide
        exact hmarks mark (mem_marks_of_isExponentMark hmark)
      · obtain rfl | rfl | rfl := hsign'
        · exact List.forall_mem_nil _
        · decide
        · decide

theorem tokens_atom {token rest : Units} (h : templates.IsAtom token) (hend : Delimited rest) :
    tokens (token ++ rest) = token :: tokens rest := by
  obtain hstring | hnumber | hliteral | hreference := h
  · exact tokens_string hstring rest
  · exact tokens_word (begins_number hnumber) (isWordUnit_of_number hnumber) hend
  · have hwords : ∀ literal ∈ literals, ∀ u ∈ literal, isWordUnit u = true := by decide
    exact tokens_word (begins_literal hliteral) (hwords token hliteral) hend
  · exact tokens_reference hreference rest

theorem tokens_key {token : Units} (h : templates.IsKey token) (rest : Units) :
    tokens (token ++ rest) = token :: tokens rest := by
  obtain hstring | hreference := h
  · exact tokens_string hstring rest
  · exact tokens_reference hreference rest

/-! ## The tokens of a document -/

theorem Delimited.append_blank {after rest : Units} (hblank : templates.Blank after) (hend : Delimited rest) :
    Delimited (after ++ rest) := by
  cases after with
  | nil => exact hend
  | cons u after => exact heads_cons (mem_stops_of_isSpace (hblank u List.mem_cons_self))

section Members

variable {μ : Type} {Member : μ → Units → Prop} {tokensOf : μ → List Units}
  (hmember : ∀ member text rest, Member member text → Delimited rest → tokens (text ++ rest) = tokensOf member ++ tokens rest)

include hmember in
theorem tokens_separated {members : List μ} {text : Units} (h : templates.Separated Member members text) {rest : Units}
    (hend : Delimited rest) : tokens (text ++ rest) = listed tokensOf members ++ tokens rest := by
  induction h with
  | @last member text after hrendered hafter =>
    rw [List.append_assoc, hmember _ _ _ hrendered (hend.append_blank hafter), tokens_blank hafter]
    rfl
  | @next member members text after before others hrendered hafter hbefore hothers ih =>
    have hlisted : listed tokensOf (member :: members) = tokensOf member ++ [comma] :: listed tokensOf members := by
      cases hothers <;> rfl
    simp only [List.append_assoc, List.cons_append]
    rw [hmember _ _ _ hrendered (delimited_of_blank hafter (by decide)), tokens_blank hafter,
      tokens_punctuation (by decide) (fun h => absurd h.1 (by decide)), tokens_blank hbefore, ih, hlisted]
    simp only [List.append_assoc, List.cons_append]

include hmember in
theorem tokens_listed {members : List μ} {text : Units} (h : templates.Listed Member members text) {rest : Units}
    (hend : Delimited rest) : tokens (text ++ rest) = listed tokensOf members ++ tokens rest := by
  obtain ⟨rfl, hblank⟩ | ⟨before, others, hblank, hmembers, rfl⟩ := h
  · exact tokens_blank hblank rest
  · rw [List.append_assoc, tokens_blank hblank, tokens_separated hmember hmembers hend]

end Members

theorem tokens_renders : ∀ levels doc text rest, templates.Renders levels doc text → Delimited rest →
    tokens (text ++ rest) = docTokens levels doc ++ tokens rest
  | 0, _, _, _, h, _ => h.elim
  | levels + 1, .atom token, text, rest, h, hend => by
    obtain ⟨hatom, rfl⟩ := h
    exact tokens_atom hatom hend
  | levels + 1, .object members, text, rest, h, hend => by
    obtain ⟨inside, hmembers, hinside, rfl⟩ := h
    have hpair (member : Units × Doc) (text rest : Units) (h : templates.Pair (templates.Renders levels) member text)
        (hend : Delimited rest) :
        tokens (text ++ rest) = (member.1 :: [colon] :: docTokens levels member.2) ++ tokens rest := by
      obtain ⟨hkey, after, before, value, hafter, hbefore, hdoc, rfl⟩ := h
      simp only [List.append_assoc, List.cons_append]
      rw [tokens_key hkey, tokens_blank hafter, tokens_punctuation (by decide) (fun h => absurd h.1 (by decide)),
        tokens_blank hbefore, tokens_renders levels member.2 value rest hdoc hend]
    have hbraces : ¬((0x7B : UInt16) = 0x7B ∧ (inside ++ 0x7D :: rest).head? = some 0x7B) := by
      rintro ⟨-, hhead⟩
      cases inside with
      | nil => exact absurd (Option.some.inj hhead) (by decide)
      | cons u inside => exact hinside hhead
    simp only [List.append_assoc, List.cons_append, List.nil_append]
    rw [tokens_punctuation (by decide) hbraces, tokens_listed hpair hmembers (heads_cons (by decide)),
      tokens_punctuation (by decide) (fun h => absurd h.1 (by decide)), docTokens]
    simp only [List.append_assoc, List.cons_append, List.nil_append]
  | levels + 1, .array items, text, rest, h, hend => by
    obtain ⟨inside, hitems, rfl⟩ := h
    simp only [List.append_assoc, List.cons_append, List.nil_append]
    rw [tokens_punctuation (by decide) (fun h => absurd h.1 (by decide)),
      tokens_listed (tokens_renders levels) hitems (heads_cons (by decide)),
      tokens_punctuation (by decide) (fun h => absurd h.1 (by decide)), docTokens]
    simp only [List.append_assoc, List.cons_append, List.nil_append]

/-- All renderings of a document have its tokens. -/
theorem tokens_reads {depth : Nat} {doc : Doc} {text : Units} (h : templates.Reads depth doc text) :
    tokens text = docTokens (depth + 1) doc := by
  obtain ⟨before, inside, after, hbefore, hafter, hdoc, rfl⟩ := h
  have hnone : Delimited [] := fun u hu => by cases hu
  have hend := hnone.append_blank hafter
  rw [List.append_nil] at hend
  have hlast := tokens_blank hafter []
  rw [List.append_nil] at hlast
  rw [tokens_blank hbefore, tokens_renders _ doc inside after hdoc hend, hlast]
  exact List.append_nil _

end Gostman.Format
