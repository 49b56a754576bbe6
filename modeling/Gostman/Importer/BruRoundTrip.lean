import Gostman.Lib.Decided
import Gostman.Importer.BruKept
/-!
# Entries that are read back, and those that are not

The first line of an entry is read as the entry where key and value allow it.
Where it is not, the reader gives another entry there, or skips the line; and
then no reading of the lines behind it can give the entry again, as each entry
is no more than the lines it is read from.
-/

namespace Gostman.Importer.Bru

open Gostman.Lib Gostman.Placeholders

open scoped Gostman.Lib.Decided

/-! ## The first line of an entry -/

section Header

variable {entry : BruEntry} {value : Text}

theorem markedKey_trimmed (h : safeKey entry.key = some entry.key) :
    trimmed Go.isSpace (markedKey entry entry.key ++ [':']) = markedKey entry entry.key ++ [':'] := by
  obtain ⟨c, rest, hkey, hc, -⟩ := key_cons h
  have hcons : ∃ d more, markedKey entry entry.key = d :: more ∧ Go.isSpace d = false := by
    unfold markedKey
    rw [hkey]
    split_ifs
    · exact ⟨c, rest, rfl, hc⟩
    · exact ⟨'~', c :: rest, rfl, by decide⟩
  obtain ⟨d, more, hmarked, hd⟩ := hcons
  rw [hmarked, List.cons_append, trimmed_cons hd, List.rdropWhile_concat_neg _ _ _ (by decide)]

/-- The first line without the blanks around it: the key, a colon, and what is
trimmed to the value. -/
theorem trimSpace_header (h : safeKey entry.key = some entry.key) (hvalue : trimSpace value = value) :
    ∃ tail, trimSpace (header entry value) = markedKey entry entry.key ++ ':' :: tail ∧ trimSpace tail = value := by
  refine ⟨(' ' :: value).rdropWhile Go.isSpace, ?_, ?_⟩
  · have hheader : header entry value = bruIndent ++ (markedKey entry entry.key ++ [':'] ++ ' ' :: value) ++ [] := by
      simp [header]
    change trimmed Go.isSpace _ = _
    rw [hheader, trimmed_between (by decide) (by simp), trimmed_append (markedKey_trimmed h) (by simp)]
    simp
  · change trimmed Go.isSpace _ = _
    rw [trimmed_rdropWhile fun c hc => hc, trimmed_cons_of_pos (by decide)]
    exact hvalue

theorem cutPrefix_cons (c d : Char) (rest : Text) :
    Go.cutPrefix [c] (d :: rest) = if c = d then some rest else none := by
  simp [Go.cutPrefix, List.isPrefixOf]

/-- A key that begins with no mark is split from its value. -/
theorem splitPair_marked (h : safeKey entry.key = some entry.key) (hquote : entry.key.head? ≠ some '"') (tail : Text) :
    splitPair (markedKey entry entry.key ++ ':' :: tail) = some (markedKey entry entry.key, trimSpace tail) := by
  obtain ⟨c, rest, hkey, -, hoff⟩ := key_cons h
  have hsplit : ∀ lead, splitMarked lead (entry.key ++ ':' :: tail) = some (lead ++ entry.key, trimSpace tail) := by
    intro lead
    have hnone : Go.cutPrefix ['"'] (entry.key ++ ':' :: tail) = none := by
      rw [hkey, List.cons_append, cutPrefix_cons]
      apply if_neg
      rintro rfl
      exact hquote (by rw [hkey]; rfl)
    unfold splitMarked
    rw [hnone]
    dsimp only
    rw [Go.cutAt_append (key_colon h), Option.map_some, key_trimmed h]
  unfold splitPair markedKey
  split_ifs
  · have hnone : Go.cutPrefix disabledMark (entry.key ++ ':' :: tail) = none := by
      rw [hkey]
      exact (cutPrefix_cons '~' c _).trans (if_neg (Ne.symm hoff))
    rw [hnone]
    exact hsplit []
  · rw [List.append_assoc, Go.cutPrefix_append]
    exact hsplit disabledMark

theorem entryOf_marked (h : safeKey entry.key = some entry.key) (hlocal : entry.key.head? ≠ some '@') (value : Text) :
    entryOf (markedKey entry entry.key) value = { entry with value := value } := by
  obtain ⟨key, old, enabled⟩ := entry
  obtain ⟨c, rest, hkey, -, hoff⟩ := key_cons h
  dsimp only at hkey hlocal
  subst hkey
  have hat : Go.cutPrefix localMark (c :: rest) = none := by
    apply (cutPrefix_cons '@' c rest).trans
    apply if_neg
    rintro rfl
    exact hlocal rfl
  have hplain : Go.cutPrefix disabledMark (c :: rest) = none :=
    (cutPrefix_cons '~' c rest).trans (if_neg (Ne.symm hoff))
  unfold entryOf markedKey withoutLead
  cases enabled with
  | true =>
      simp only [if_true]
      rw [hplain, Option.getD_none, hat, Option.getD_none]
      simp [disabledMark, List.isPrefixOf, Ne.symm hoff]
  | false =>
      simp only [Bool.false_eq_true, if_false]
      rw [Go.cutPrefix_append, Option.getD_some, hat, Option.getD_none]
      simp

theorem not_annotated (h : safeKey entry.key = some entry.key) (hlocal : entry.key.head? ≠ some '@') (tail : Text) :
    isAnnotation (markedKey entry entry.key ++ ':' :: tail) = false := by
  obtain ⟨c, rest, hkey, -, -⟩ := key_cons h
  have hcut : Go.cutPrefix localMark (markedKey entry entry.key ++ ':' :: tail) = none := by
    unfold markedKey
    rw [hkey] at hlocal ⊢
    split_ifs
    · apply (cutPrefix_cons '@' c _).trans
      apply if_neg
      rintro rfl
      exact hlocal rfl
    · exact cutPrefix_cons '@' '~' _
  unfold isAnnotation
  rw [hcut]

/-- The first line of an entry, where its key has no mark. -/
theorem nextEntry_header (h : safeKey entry.key = some entry.key) (hquote : entry.key.head? ≠ some '"')
    (hlocal : entry.key.head? ≠ some '@') (hvalue : trimSpace value = value) (rest : List Text) :
    nextEntry (header entry value) rest =
      if value = multilineMark then
        (some { entry with value := dedent (untilMark rest) }, rest.drop ((untilMark rest).length + 1))
      else (some { entry with value := value }, rest) := by
  obtain ⟨tail, hline, htail⟩ := trimSpace_header h hvalue
  unfold nextEntry
  rw [hline]
  dsimp only
  rw [not_annotated h hlocal, splitPair_marked h hquote, htail]
  simp only [Bool.false_eq_true, if_false, entryOf_marked h hlocal]

end Header

/-! ## Entries that are read back -/

/-- The lines of an entry are read as the entry, and the lines behind them as
before. -/
theorem bruEntries_entryLines {entry : BruEntry} (h : Plain entry) (hread : Readable entry) (rest : List Text) :
    bruEntries (entryLines entry ++ rest) = entry.escaped :: bruEntries rest := by
  by_cases hmulti : '\n' ∈ entry.value
  · rw [entryLines_multi h hread.separators hmulti, List.cons_append, bruEntries_cons,
      nextEntry_header h.key hread.quote hread.local_mark (by decide), if_pos rfl, List.append_assoc,
      List.singleton_append, untilMark_content, dedent_content h.trimmed hmulti]
    have hdrop : (contentOf entry.value ++ (bruIndent ++ multilineMark) :: rest).drop
        ((contentOf entry.value).length + 1) = rest := by
      rw [← List.drop_drop, List.drop_left]
      rfl
    dsimp only
    rw [hdrop]
    rfl
  · have hescaped : entry.escaped = entry := by
      unfold BruEntry.escaped escapedValue
      rw [if_neg hmulti]
    rw [entryLines_single h hread.separators hmulti, List.singleton_append, bruEntries_cons,
      nextEntry_header h.key hread.quote hread.local_mark h.trimmed, if_neg hread.mark, hescaped]
    rfl

theorem bruEntries_flatMap {entries : List BruEntry} (h : ∀ entry ∈ entries, Plain entry)
    (hread : ∀ entry ∈ entries, Readable entry) :
    bruEntries (entries.flatMap entryLines) = entries.map BruEntry.escaped := by
  induction entries with
  | nil => exact bruEntries_nil
  | cons entry rest ih =>
      rw [List.flatMap_cons, bruEntries_entryLines (h entry List.mem_cons_self) (hread entry List.mem_cons_self),
        ih (fun other hother => h other (List.mem_cons_of_mem _ hother))
          fun other hother => hread other (List.mem_cons_of_mem _ hother)]
      rfl

/-! ## Line separators -/

theorem unseparated_append {first second : Text} (hfirst : Unseparated first) (hsecond : Unseparated second) :
    Unseparated (first ++ second) := by
  simp only [Unseparated, List.mem_append, not_or] at hfirst hsecond ⊢
  exact ⟨⟨hfirst.1, hsecond.1⟩, hfirst.2, hsecond.2⟩

theorem unseparated_of_safe {text : Text} (h : ∀ c ∈ text, isUnsafeRune c = true → c = '\n' ∨ c = '\t') :
    Unseparated text := by
  constructor <;> (intro hmem; rcases h _ hmem (by decide) with hc | hc <;> cases hc)

theorem singleLine_unseparated (value : Text) : Unseparated (singleLine value) := by
  apply unseparated_of_safe
  intro c hc hblank
  obtain ⟨d, -, rfl⟩ := List.mem_map.1 hc
  split_ifs at hblank with hd
  · exact absurd hblank (by decide)
  · exact absurd hblank hd

theorem stripControls_unseparated (value : Text) : Unseparated (stripControls value) := by
  apply unseparated_of_safe
  intro c hc hblank
  obtain ⟨d, -, rfl⟩ := List.mem_map.1 hc
  split_ifs at hblank ⊢ with hd
  · exact absurd hblank (by decide)
  · by_contra hne
    rw [not_or] at hne
    exact hd (by simp [hne.1, hne.2, hblank])

theorem guardTerminator_unseparated (value : Text) : Unseparated (guardTerminator value) := by
  have hchars : ∀ c ∈ guardTerminator value, c = '\n' ∨ c ∈ escapedTerminate ∨ c ∈ stripControls value := by
    intro c hc
    rcases mem_intercalate hc with hbreak | ⟨line, hline, hin⟩
    · exact .inl (List.mem_singleton.1 hbreak)
    · right
      obtain ⟨old, hold, rfl⟩ := List.mem_map.1 hline
      split_ifs at hin
      · apply (mem_replaceFirst hin).imp_right
        exact fun hc => (mem_splitOn hold c hc).1
      · exact .inr (mem_splitOn hold c hin).1
  constructor
  · intro hmem
    rcases hchars _ hmem with hc | hc | hc
    · cases hc
    · exact absurd hc (by decide)
    · exact (stripControls_unseparated value).1 hc
  · intro hmem
    rcases hchars _ hmem with hc | hc | hc
    · cases hc
    · exact absurd hc (by decide)
    · exact (stripControls_unseparated value).2 hc

theorem unseparated_of_subset {first second : Text} (h : ∀ c ∈ first, c ∈ second) (hsecond : Unseparated second) :
    Unseparated first :=
  ⟨fun hmem => hsecond.1 (h _ hmem), fun hmem => hsecond.2 (h _ hmem)⟩

theorem safeKey_unseparated {key cleaned : Text} (h : safeKey key = some cleaned) : Unseparated cleaned := by
  simp only [safeKey] at h
  split_ifs at h
  rw [← Option.some.inj h]
  exact unseparated_of_subset (fun c hc => mem_trimSpace hc) (singleLine_unseparated key)

theorem written_unseparated {entry : BruEntry} {line : Text} (h : line ∈ entryLines entry) : Unseparated line := by
  unfold entryLines at h
  cases hkey : safeKey entry.key with
  | none =>
      rw [hkey] at h
      cases h
  | some key =>
      rw [hkey] at h
      have hhead : Unseparated (bruIndent ++ markedKey entry key ++ ": ".toList) := by
        have hmarked : Unseparated (markedKey entry key) := by
          unfold markedKey
          split_ifs
          · exact safeKey_unseparated hkey
          · exact unseparated_append (by decide) (safeKey_unseparated hkey)
        exact unseparated_append (unseparated_append (by decide) hmarked) (by decide)
      dsimp only at h
      split_ifs at h
      · rcases List.mem_cons.1 h with rfl | hrest
        · exact unseparated_append hhead (by decide)
        · rcases List.mem_append.1 hrest with hcontent | hmark
          · obtain ⟨old, hold, rfl⟩ := List.mem_map.1 hcontent
            have hlines : Unseparated old := by
              apply unseparated_of_subset _ (guardTerminator_unseparated entry.value)
              intro c hc
              exact Go.mem_normalizeNewlines (mem_splitOn hold c hc).1
            split_ifs
            · exact unseparated_append (by decide) hlines
            · exact hlines
          · rw [List.mem_singleton.1 hmark]
            decide
      · rw [List.mem_singleton.1 h]
        exact unseparated_append hhead (singleLine_unseparated _)

/-- A value with a line separator is not read, wherever it was written. -/
theorem unseparated_of_read {entries : List BruEntry} {entry : BruEntry}
    (h : entry ∈ bruEntries (entries.flatMap entryLines)) : Unseparated entry.value := by
  have hline : ∀ c, c = lineSeparator ∨ c = paragraphSep → c ∉ entry.value := by
    intro c hc hmem
    rcases mem_value_of_bruEntries h hmem with rfl | ⟨line, hline, hin⟩
    · revert hc
      decide
    · obtain ⟨written, -, hwritten⟩ := List.mem_flatMap.1 hline
      rcases hc with rfl | rfl
      · exact (written_unseparated hwritten).1 hin
      · exact (written_unseparated hwritten).2 hin
  exact ⟨hline _ (.inl rfl), hline _ (.inr rfl)⟩

theorem mem_escapedValue {value : Text} {c : Char} (hc : c ∈ value) (hbreak : c ≠ '\n') (hmark : c ∉ multilineMark) :
    c ∈ escapedValue value := by
  unfold escapedValue
  split_ifs
  · have hjoin : ['\n'].intercalate (value.splitOn '\n') = value := List.intercalate_splitOn '\n'
    rw [← hjoin] at hc
    rcases mem_intercalate hc with hsep | ⟨line, hline, hin⟩
    · exact absurd (List.mem_singleton.1 hsep) hbreak
    · apply (infix_intercalate '\n' (List.mem_map_of_mem hline)).subset
      rcases guardLine_cases line with ⟨-, hguard⟩ | ⟨before, after, hparts, hguard, -, -⟩
      · rwa [hguard]
      · rw [hguard]
        rw [hparts] at hin
        simp only [List.mem_append] at hin ⊢
        tauto
  · exact hc

theorem unseparated_of_escaped {value : Text} (h : Unseparated (escapedValue value)) : Unseparated value :=
  ⟨fun hc => h.1 (mem_escapedValue hc (by decide) (by decide)),
    fun hc => h.2 (mem_escapedValue hc (by decide) (by decide))⟩

/-! ## What the lines behind can give -/

theorem inked_contentLine (line : Text) : inked (contentLine line) = inked (guardLine line) := by
  rw [← inked_trimSpace, trimSpace_contentLine, inked_trimSpace]

/-- Behind the first line of an entry there is no more than its value. -/
theorem weights_tail {entry : BruEntry} (h : Plain entry) (hseparators : Unseparated entry.value) :
    weights (entryLines entry).tail ≤ inked entry.escaped.value := by
  by_cases hmulti : '\n' ∈ entry.value
  · rw [entryLines_multi h hseparators hmulti, List.tail_cons, weights_append]
    have hmark : weights [bruIndent ++ multilineMark] = 0 := by decide
    have hcontent : weights (contentOf entry.value) = inked entry.escaped.value := by
      change _ = inked (escapedValue entry.value)
      rw [escapedValue, if_pos hmulti, inked_intercalate]
      unfold weights contentOf
      rw [List.map_map, List.map_map]
      congr 1
      apply List.map_congr_left
      intro line _
      simp only [Function.comp_apply, weight]
      rw [if_neg (contentLine_ne_mark line), inked_contentLine]
    omega
  · rw [entryLines_single h hseparators hmulti]
    exact Nat.zero_le _

theorem entryLines_ne_nil {entry : BruEntry} (h : Plain entry) : entryLines entry ≠ [] := by
  unfold entryLines
  rw [h.key]
  dsimp only
  split_ifs <;> simp

/-- No lines behind the first give all the entries. -/
theorem nil_of_suffix {entries : List BruEntry} (h : ∀ entry ∈ entries, Plain entry ∧ Unseparated entry.value)
    {lines : List Text} (hsuffix : lines <:+ (entries.flatMap entryLines).tail)
    (hread : bruEntries lines = entries.map BruEntry.escaped) : entries = [] := by
  induction entries generalizing lines with
  | nil => rfl
  | cons entry rest ih =>
      exfalso
      have hrest : ∀ other ∈ rest, Plain other ∧ Unseparated other.value :=
        fun other hother => h other (List.mem_cons_of_mem _ hother)
      obtain ⟨hplain, hseparators⟩ := h entry List.mem_cons_self
      obtain ⟨skipped, used, left, rfl, hinked, hleft⟩ := bruEntries_first hread
      rw [List.flatMap_cons, List.tail_append_of_ne_nil (entryLines_ne_nil hplain)] at hsuffix
      have hbehind : left <:+ (entryLines entry).tail ++ rest.flatMap entryLines :=
        (List.suffix_append _ _).trans hsuffix
      have hlong : rest.flatMap entryLines <:+ left := by
        rcases List.suffix_or_suffix_of_suffix hbehind (List.suffix_append _ _) with hshort | hlong
        · cases hlines : rest.flatMap entryLines with
          | nil => exact List.nil_suffix
          | cons first others =>
              rw [hlines, List.suffix_cons_iff] at hshort
              rcases hshort with heq | hproper
              · exact heq ▸ List.suffix_refl _
              · rw [ih hrest (by rwa [hlines]) hleft] at hlines
                cases hlines
        · exact hlong
      -- The entry would be read from the lines of its own value.
      obtain ⟨between, hbetween⟩ := hlong
      rw [← hbetween, ← List.append_assoc] at hsuffix
      obtain ⟨before, happend⟩ := hsuffix
      rw [← List.append_assoc] at happend
      have hown := List.append_cancel_right happend
      have hweights := weights_tail hplain hseparators
      rw [← hown] at hweights
      simp only [weights_append] at hweights
      omega

/-! ## Entries that are not read back -/

theorem nextEntry_some {first : Text} {rest left : List Text} {entry : BruEntry}
    (h : nextEntry first rest = (some entry, left)) :
    ∃ key value read, splitPair (trimSpace first) = some (key, value) ∧ entry = entryOf key read := by
  unfold nextEntry at h
  dsimp only at h
  split at h
  · cases h
  · cases hpair : splitPair (trimSpace first) with
    | none =>
        rw [hpair] at h
        cases h
    | some pair =>
        obtain ⟨key, value⟩ := pair
        rw [hpair] at h
        dsimp only at h
        refine ⟨key, value, ?_⟩
        split_ifs at h
        · exact ⟨_, rfl, (Option.some.inj (Prod.mk.inj h).1).symm⟩
        · exact ⟨_, rfl, (Option.some.inj (Prod.mk.inj h).1).symm⟩

theorem splitMarked_quote {lead line key value : Text} (hlead : '"' ∉ lead)
    (h : splitMarked lead ('"' :: line) = some (key, value)) : '"' ∉ key := by
  unfold splitMarked at h
  rw [cutPrefix_cons, if_pos rfl] at h
  simp only [Option.bind_eq_bind, Option.bind_eq_some_iff, Option.pure_def, Option.some.injEq, Prod.mk.injEq] at h
  obtain ⟨⟨name, after⟩, hcut, rest, -, rfl, -⟩ := h
  rw [List.mem_append, not_or]
  exact ⟨hlead, (Go.cutAt_eq_some hcut).2⟩

section Bad

variable {entry found : BruEntry} {value : Text} {rest left : List Text}

/-- The key of what is read in the place of the entry is not the entry's, where
that begins with `"`. -/
theorem key_ne_of_quote (h : safeKey entry.key = some entry.key) (hquote : entry.key.head? = some '"')
    (hvalue : trimSpace value = value) (hnext : nextEntry (header entry value) rest = (some found, left)) :
    found.key ≠ entry.key := by
  obtain ⟨tail, hline, -⟩ := trimSpace_header h hvalue
  obtain ⟨key, text, read, hpair, rfl⟩ := nextEntry_some hnext
  obtain ⟨c, more, hkey, -, -⟩ := key_cons h
  rw [hkey] at hquote
  obtain rfl : c = '"' := Option.some.inj hquote
  have hfree : '"' ∉ key := by
    rw [hline] at hpair
    unfold splitPair markedKey at hpair
    rw [hkey] at hpair
    split_ifs at hpair
    · rw [List.cons_append, disabledMark, show Go.cutPrefix "~".toList ('"' :: (more ++ ':' :: tail)) = none from
        cutPrefix_cons '~' '"' _] at hpair
      exact splitMarked_quote List.not_mem_nil hpair
    · rw [List.append_assoc, Go.cutPrefix_append] at hpair
      exact splitMarked_quote (by decide) hpair
  intro heq
  apply hfree
  apply (entryOf_key_suffix key read).subset
  rw [heq, hkey]
  exact List.mem_cons_self

theorem key_ne_of_local (h : safeKey entry.key = some entry.key) (hlocal : entry.key.head? = some '@')
    (hvalue : trimSpace value = value) (hnext : nextEntry (header entry value) rest = (some found, left)) :
    found.key ≠ entry.key := by
  obtain ⟨tail, hline, -⟩ := trimSpace_header h hvalue
  obtain ⟨key, text, read, hpair, rfl⟩ := nextEntry_some hnext
  rw [hline, splitPair_marked h (by rw [hlocal]; decide)] at hpair
  obtain ⟨rfl, -⟩ := Prod.mk.inj (Option.some.inj hpair)
  obtain ⟨c, more, hkey, -, hoff⟩ := key_cons h
  rw [hkey] at hlocal
  obtain rfl : c = '@' := Option.some.inj hlocal
  have hread : (entryOf (markedKey entry entry.key) read).key = more := by
    have hcut : Go.cutPrefix localMark ('@' :: more) = some more := (cutPrefix_cons '@' '@' more).trans (if_pos rfl)
    unfold entryOf markedKey withoutLead
    rw [hkey]
    split_ifs
    · rw [show Go.cutPrefix disabledMark ('@' :: more) = none from cutPrefix_cons '~' '@' more, Option.getD_none, hcut]
      rfl
    · rw [Go.cutPrefix_append, Option.getD_some, hcut]
      rfl
  rw [hread, hkey]
  intro heq
  have hlength := congrArg List.length heq
  simp at hlength

end Bad

/-- The mark, as a value on one line, takes what is written behind it. -/
theorem dedent_ne_mark {entries : List BruEntry} (h : ∀ entry ∈ entries, Plain entry) :
    dedent (untilMark (entries.flatMap entryLines)) ≠ multilineMark := by
  cases entries with
  | nil => decide
  | cons entry rest =>
      have hkey := (h entry List.mem_cons_self).key
      obtain ⟨first, others, hlines, hcolon⟩ : ∃ first others, (entry :: rest).flatMap entryLines = first :: others ∧
          ':' ∈ first := by
        rw [List.flatMap_cons]
        unfold entryLines
        rw [hkey]
        dsimp only
        split_ifs
        · exact ⟨_, _, rfl, by simp⟩
        · exact ⟨_, _, rfl, by simp⟩
      have hmark : trimSpace first ≠ multilineMark := by
        intro hmark
        obtain ⟨before, after, hparts, hbefore, hafter⟩ := trimmed_around Go.isSpace first
        have htrimmed : trimmed Go.isSpace first = multilineMark := hmark
        rw [htrimmed] at hparts
        rw [hparts] at hcolon
        simp only [List.mem_append] at hcolon
        rcases hcolon with (hc | hc) | hc
        · exact absurd (hbefore _ hc) (by decide)
        · exact absurd hc (by decide)
        · exact absurd (hafter _ hc) (by decide)
      intro heq
      have hkept : ':' ∈ dedent (untilMark ((entry :: rest).flatMap entryLines)) := by
        apply @mem_dedent_of_mem _ first _ _ hcolon (by decide)
        rw [hlines, untilMark, List.takeWhile_cons, if_pos (decide_eq_true hmark)]
        exact List.mem_cons_self
      rw [heq] at hkept
      exact absurd hkept (by decide)

/-- An entry that is not readable is not read at its place, nor behind it. -/
theorem not_read {entry : BruEntry} {rest : List BruEntry}
    (h : ∀ other ∈ entry :: rest, Plain other ∧ Unseparated other.value) (hbad : ¬ Readable entry) :
    bruEntries (entryLines entry ++ rest.flatMap entryLines) ≠ entry.escaped :: rest.map BruEntry.escaped := by
  obtain ⟨hplain, hseparators⟩ := h entry List.mem_cons_self
  obtain ⟨value, tail, hlines, hvalue, hsingle⟩ : ∃ value tail, entryLines entry = header entry value :: tail ∧
      trimSpace value = value ∧ (entry.value = multilineMark → value = multilineMark ∧ tail = []) := by
    by_cases hmulti : '\n' ∈ entry.value
    · refine ⟨_, _, entryLines_multi hplain hseparators hmulti, by decide, ?_⟩
      intro hmark
      rw [hmark] at hmulti
      exact absurd hmulti (by decide)
    · refine ⟨_, _, entryLines_single hplain hseparators hmulti, hplain.trimmed, fun hmark => ⟨hmark, rfl⟩⟩
  intro hread
  rw [hlines, List.cons_append, bruEntries_cons] at hread
  cases hnext : nextEntry (header entry value) (tail ++ rest.flatMap entryLines) with
  | mk found left =>
      rw [hnext] at hread
      cases found with
      | none =>
          have hnil := @nil_of_suffix (entry :: rest) h left (by
            rw [nextEntry_none hnext, List.flatMap_cons, hlines]
            exact List.suffix_refl _) hread
          cases hnil
      | some found =>
          obtain ⟨hfound, -⟩ := List.cons.inj hread
          have hkey : found.key = entry.key := by
            change found = entry.escaped at hfound
            rw [hfound]
            rfl
          have hquote : entry.key.head? ≠ some '"' :=
            fun hhead => key_ne_of_quote hplain.key hhead hvalue hnext hkey
          have hlocal : entry.key.head? ≠ some '@' :=
            fun hhead => key_ne_of_local hplain.key hhead hvalue hnext hkey
          have hmark : entry.value = multilineMark := by
            by_contra hne
            exact hbad ⟨hquote, hlocal, hne, hseparators⟩
          obtain ⟨rfl, rfl⟩ := hsingle hmark
          rw [nextEntry_header hplain.key hquote hlocal hvalue, if_pos rfl, List.nil_append] at hnext
          have hread := congrArg BruEntry.value ((Option.some.inj (Prod.mk.inj hnext).1).trans hfound)
          have hescaped : entry.escaped.value = multilineMark := by
            change escapedValue entry.value = _
            rw [hmark]
            decide
          rw [hescaped] at hread
          exact dedent_ne_mark (fun other hother => (h other (List.mem_cons_of_mem _ hother)).1) hread

/-! ## The round trip -/

theorem readable_of_read {entries : List BruEntry} (h : ∀ entry ∈ entries, Plain entry ∧ Unseparated entry.value)
    (hread : bruEntries (entries.flatMap entryLines) = entries.map BruEntry.escaped) :
    ∀ entry ∈ entries, Readable entry := by
  induction entries with
  | nil => simp
  | cons entry rest ih =>
      have hfirst : Readable entry := by
        by_contra hbad
        exact not_read h hbad hread
      rw [List.flatMap_cons, bruEntries_entryLines (h entry List.mem_cons_self).1 hfirst, List.map_cons] at hread
      intro other hother
      rcases List.mem_cons.1 hother with rfl | hother
      · exact hfirst
      · exact ih (fun other hother => h other (List.mem_cons_of_mem _ hother)) (List.cons.inj hread).2 other hother

/-- Entries are read back, but for the marks that are broken in their values,
just where each of them is readable. -/
theorem entries_read_back_iff_readable {entries : List BruEntry} (h : ∀ entry ∈ entries, Plain entry) :
    bruEntries (writtenLines entries) = entries.map BruEntry.escaped ↔ ∀ entry ∈ entries, Readable entry := by
  rw [writtenLines_eq]
  constructor
  · intro hread
    apply readable_of_read _ hread
    intro entry hmem
    refine ⟨h entry hmem, ?_⟩
    apply unseparated_of_escaped
    apply @unseparated_of_read entries entry.escaped
    rw [hread]
    exact List.mem_map_of_mem hmem
  · exact bruEntries_flatMap h

/-- An entry that is off, with a value of several lines, before one with a value
on its line. -/
def noteEntries : List BruEntry :=
  [⟨"note".toList, "first\n  second".toList, false⟩, ⟨"page".toList, "1".toList, true⟩]

theorem noteEntries_read_back : bruEntries (writtenLines noteEntries) = noteEntries.map BruEntry.escaped := by
  apply (entries_read_back_iff_readable _).2
  · intro entry hmem
    simp only [noteEntries, List.mem_cons, List.not_mem_nil, or_false] at hmem
    rcases hmem with rfl | rfl <;> exact ⟨by decide, by decide, by decide, by decide⟩
  · intro entry hmem
    simp only [noteEntries, List.mem_cons, List.not_mem_nil, or_false] at hmem
    rcases hmem with rfl | rfl <;> exact ⟨by decide, by decide +kernel, by decide⟩

/-- A key that begins with a quote, which `safeKey` accepts. -/
def quotedEntry : BruEntry :=
  ⟨"\"a".toList, "b".toList, true⟩

theorem quotedEntry_not_read_back :
    Plain quotedEntry ∧ bruEntries (writtenLines [quotedEntry]) ≠ [quotedEntry.escaped] := by
  refine ⟨⟨by decide, by decide +kernel, by decide⟩, ?_⟩
  intro hread
  have hnone : (bruEntries (writtenLines [quotedEntry])).length = 0 := by
    decide +kernel
  rw [hread] at hnone
  cases hnone

end Gostman.Importer.Bru
