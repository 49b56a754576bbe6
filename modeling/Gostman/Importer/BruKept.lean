import Gostman.Lib.Decided
import Gostman.Importer.BruEntries
import Gostman.Importer.Contained
/-!
# Entries that are read back

What `dictLines` writes for entries and what `bruEntries` makes of the lines.
A key that begins with `"` or `@`, a value that is the mark, and a value with a
line separator are not read back; all other entries are.
-/

namespace Gostman.Importer.Bru

open Gostman.Lib Gostman.Placeholders

open scoped Gostman.Lib.Decided

/-! ## What is read back -/

/-- The lines of what `dictLines` writes. -/
def writtenLines (entries : List BruEntry) : List Text :=
  ((dictLines entries).splitOn '\n').dropLast

def guardLine (line : Text) : Text :=
  if trimSpace line = multilineMark then Go.replaceFirst multilineMark escapedTerminate line else line

/-- A value of several lines, with such lines as they are written. -/
def escapedValue (value : Text) : Text :=
  if '\n' ∈ value then ['\n'].intercalate ((value.splitOn '\n').map guardLine) else value

def BruEntry.escaped (entry : BruEntry) : BruEntry :=
  { entry with value := escapedValue entry.value }

/-- An entry whose key is written as it is, and whose value has no controls but
line ends and no blanks around it. -/
structure Plain (entry : BruEntry) : Prop where
  key : safeKey entry.key = some entry.key
  controls : ∀ c ∈ entry.value, c ≠ '\n' → Go.isControl c = false
  trimmed : trimSpace entry.value = entry.value

/-- The value has no character that the writer takes for a line end. -/
def Unseparated (value : Text) : Prop :=
  lineSeparator ∉ value ∧ paragraphSep ∉ value

instance (value : Text) : Decidable (Unseparated value) :=
  inferInstanceAs (Decidable (_ ∧ _))

structure Readable (entry : BruEntry) : Prop where
  quote : entry.key.head? ≠ some '"'
  local_mark : entry.key.head? ≠ some '@'
  mark : entry.value ≠ multilineMark
  separators : Unseparated entry.value

/-! ## Keys -/

section Keys

variable {key : Text}

theorem key_trimmed (h : safeKey key = some key) : trimSpace key = key := by
  simp only [safeKey] at h
  split_ifs at h
  have hkey := Option.some.inj h
  conv_lhs => rw [← hkey]
  exact (trimmed_trimmed (singleLine key)).trans hkey

theorem key_ne_nil (h : safeKey key = some key) : key ≠ [] := by
  rintro rfl
  simp [safeKey, singleLine, trimSpace] at h

theorem key_colon (h : safeKey key = some key) : ':' ∉ key := by
  simp only [safeKey] at h
  split_ifs at h with hbad
  rw [Option.some.inj h] at hbad
  simp only [Bool.or_eq_true, decide_eq_true_eq, not_or] at hbad
  exact hbad.2

theorem key_enabled (h : safeKey key = some key) : disabledMark.isPrefixOf key = false := by
  simp only [safeKey] at h
  split_ifs at h with hbad
  rw [Option.some.inj h] at hbad
  simp only [Bool.or_eq_true, decide_eq_true_eq, not_or, Bool.not_eq_true] at hbad
  exact hbad.1.2

/-- A key begins with a character that is not blank and not the mark of an entry
that is off. -/
theorem key_cons (h : safeKey key = some key) : ∃ c rest, key = c :: rest ∧ Go.isSpace c = false ∧ c ≠ '~' := by
  obtain ⟨c, rest, rfl⟩ := List.exists_cons_of_ne_nil (key_ne_nil h)
  refine ⟨c, rest, rfl, head_of_trimmed (key_trimmed h), ?_⟩
  rintro rfl
  have hoff := key_enabled h
  simp [disabledMark, List.isPrefixOf] at hoff

end Keys

/-! ## Values -/

theorem not_unsafeUnit {entry : BruEntry} (h : Plain entry) (hseparators : Unseparated entry.value) :
    ∀ c ∈ entry.value, c ≠ '\n' → isUnsafeRune c = false := by
  intro c hc hbreak
  simp only [isUnsafeRune, h.controls c hc hbreak, Bool.false_or, Bool.or_eq_false_iff, beq_eq_false_iff_ne]
  constructor
  · rintro rfl
    exact hseparators.1 hc
  · rintro rfl
    exact hseparators.2 hc

theorem no_return {entry : BruEntry} (h : Plain entry) : '\r' ∉ entry.value := by
  intro hc
  have hcontrol := h.controls _ hc (by decide)
  revert hcontrol
  decide

theorem multi_iff {entry : BruEntry} (h : Plain entry) :
    (entry.value.any fun c => c == '\r' || c == '\n') = true ↔ '\n' ∈ entry.value := by
  rw [List.any_eq_true]
  constructor
  · rintro ⟨c, hc, hbreak⟩
    simp only [Bool.or_eq_true, beq_iff_eq] at hbreak
    rcases hbreak with rfl | rfl
    · exact absurd hc (no_return h)
    · exact hc
  · intro hc
    exact ⟨'\n', hc, by decide⟩

theorem singleLine_of_safe {value : Text} (h : ∀ c ∈ value, isUnsafeRune c = false) : singleLine value = value := by
  unfold singleLine
  conv_rhs => rw [← List.map_id value]
  apply List.map_congr_left
  intro c hc
  rw [h c hc]
  rfl

theorem stripControls_of_safe {value : Text} (hreturn : '\r' ∉ value)
    (h : ∀ c ∈ value, c ≠ '\n' → isUnsafeRune c = false) : stripControls value = value := by
  unfold stripControls
  rw [Go.normalizeNewlines_of_not_mem hreturn, List.map_map]
  conv_rhs => rw [← List.map_id value]
  apply List.map_congr_left
  intro c hc
  have hne : c ≠ '\r' := fun heq => hreturn (heq ▸ hc)
  simp only [Function.comp_apply, if_neg hne, id_eq]
  by_cases hbreak : c = '\n'
  · simp [hbreak]
  · simp [h c hc hbreak]

/-! ## Lines that are guarded -/

theorem replaceFirst_blank {before : Text} (h : ∀ c ∈ before, Go.isSpace c = true) (after : Text) :
    Go.replaceFirst multilineMark escapedTerminate (before ++ multilineMark ++ after) =
      before ++ escapedTerminate ++ after := by
  induction before with
  | nil =>
      change Go.replaceFirst multilineMark escapedTerminate ('\'' :: '\'' :: '\'' :: after) = _
      rw [Go.replaceFirst, if_pos (by simp [multilineMark, List.isPrefixOf])]
      rfl
  | cons c rest ih =>
      have hc : c ≠ '\'' := by
        rintro rfl
        have hspace := h '\'' List.mem_cons_self
        revert hspace
        decide
      rw [List.cons_append, List.cons_append, Go.replaceFirst, if_neg (by simp [multilineMark, List.isPrefixOf, Ne.symm hc]),
        ih fun d hd => h d (List.mem_cons_of_mem _ hd)]
      rfl

/-- A guarded line is the line, or the mark in it is broken. -/
theorem guardLine_cases (line : Text) :
    (trimSpace line ≠ multilineMark ∧ guardLine line = line) ∨
      ∃ before after, line = before ++ multilineMark ++ after ∧ guardLine line = before ++ escapedTerminate ++ after ∧
        (∀ c ∈ before, Go.isSpace c = true) ∧ ∀ c ∈ after, Go.isSpace c = true := by
  by_cases hmark : trimSpace line = multilineMark
  · right
    obtain ⟨before, after, hline, hbefore, hafter⟩ := trimmed_around Go.isSpace line
    have htrimmed : trimmed Go.isSpace line = multilineMark := hmark
    rw [htrimmed] at hline
    refine ⟨before, after, hline, ?_, hbefore, hafter⟩
    rw [guardLine, if_pos hmark]
    conv_lhs => rw [hline]
    exact replaceFirst_blank hbefore after
  · exact .inl ⟨hmark, if_neg hmark⟩

theorem guardLine_ne_mark (line : Text) : trimSpace (guardLine line) ≠ multilineMark := by
  rcases guardLine_cases line with ⟨hmark, hguard⟩ | ⟨before, after, -, hguard, hbefore, hafter⟩
  · rw [hguard]
    exact hmark
  · have htrim : trimSpace (guardLine line) = trimSpace escapedTerminate := by
      rw [hguard]
      exact trimmed_between hbefore hafter _
    rw [htrim]
    decide

theorem guardLine_head (line : Text) : (guardLine line).head? = line.head? := by
  rcases guardLine_cases line with ⟨-, hguard⟩ | ⟨before, after, hline, hguard, -, -⟩
  · rw [hguard]
  · rw [hguard, hline]
    cases before <;> rfl

theorem guardLine_last (line : Text) : (guardLine line).getLast? = line.getLast? := by
  rcases guardLine_cases line with ⟨-, hguard⟩ | ⟨before, after, hline, hguard, -, -⟩
  · rw [hguard]
  · rw [hguard, hline]
    cases after using List.reverseRecOn with
    | nil => simp [multilineMark, escapedTerminate]
    | append_singleton after last ih => simp

theorem guardLine_unbroken {line : Text} (h : '\n' ∉ line) : '\n' ∉ guardLine line := by
  rcases guardLine_cases line with ⟨-, hguard⟩ | ⟨before, after, hline, hguard, -, -⟩
  · rwa [hguard]
  · rw [hguard]
    rw [hline] at h
    simp only [List.mem_append, not_or] at h ⊢
    exact ⟨⟨h.1.1, by decide⟩, h.2⟩

/-! ## The written lines -/

theorem writtenLines_eq (entries : List BruEntry) : writtenLines entries = entries.flatMap entryLines := by
  unfold writtenLines
  rw [dictLines_ended, splitOn_ended, List.dropLast_concat]
  intro line hline hbreak
  obtain ⟨entry, -, hmem⟩ := List.mem_flatMap.1 hline
  exact ((tame_of_mem_entryLines hmem).unbroken _ hbreak).1 rfl

def header (entry : BruEntry) (value : Text) : Text :=
  bruIndent ++ markedKey entry entry.key ++ ": ".toList ++ value

def contentLine (line : Text) : Text :=
  if guardLine line ≠ [] then bruIndent ++ bruIndent ++ guardLine line else []

def contentOf (value : Text) : List Text :=
  (value.splitOn '\n').map contentLine

section Written

variable {entry : BruEntry} (h : Plain entry)
include h

theorem entryLines_single (hseparators : Unseparated entry.value) (hsingle : '\n' ∉ entry.value) :
    entryLines entry = [header entry entry.value] := by
  have hvalue : singleLine entry.value = entry.value := by
    apply singleLine_of_safe
    intro c hc
    exact not_unsafeUnit h hseparators c hc fun heq => hsingle (heq ▸ hc)
  unfold entryLines
  rw [h.key]
  dsimp only
  rw [if_neg (by rw [multi_iff h]; exact hsingle), hvalue]
  rfl

theorem guardTerminator_eq (hseparators : Unseparated entry.value) :
    guardTerminator entry.value = ['\n'].intercalate ((entry.value.splitOn '\n').map guardLine) := by
  unfold guardTerminator
  rw [stripControls_of_safe (no_return h) (not_unsafeUnit h hseparators)]
  rfl

theorem entryLines_multi (hseparators : Unseparated entry.value) (hmulti : '\n' ∈ entry.value) :
    entryLines entry = header entry multilineMark :: (contentOf entry.value ++ [bruIndent ++ multilineMark]) := by
  have hguarded : (guardTerminator entry.value).splitOn '\n' = (entry.value.splitOn '\n').map guardLine := by
    rw [guardTerminator_eq h hseparators]
    apply List.splitOn_intercalate
    · intro line hline
      obtain ⟨old, hold, rfl⟩ := List.mem_map.1 hline
      apply guardLine_unbroken
      intro hbreak
      exact (mem_splitOn hold _ hbreak).2 rfl
    · simp [List.splitOn_ne_nil]
  have hindented : indented (guardTerminator entry.value) (bruIndent ++ bruIndent) = contentOf entry.value := by
    unfold indented
    rw [Go.normalizeNewlines_of_not_mem (guardTerminator_no_return _), hguarded, List.map_map]
    apply List.map_congr_left
    intro line _
    simp only [Function.comp_apply, contentLine]
    split_ifs with hempty
    · rfl
    · simpa using hempty
  unfold entryLines
  rw [h.key]
  dsimp only
  rw [if_pos ((multi_iff h).2 hmulti), hindented]
  rfl

end Written

/-! ## The lines of a value -/

theorem trimSpace_contentLine (line : Text) : trimSpace (contentLine line) = trimSpace (guardLine line) := by
  unfold contentLine
  split_ifs with hempty
  · have hbetween := @trimmed_between _ Go.isSpace (bruIndent ++ bruIndent) [] (by decide) (by simp) (guardLine line)
    rwa [List.append_nil] at hbetween
  · rw [not_ne_iff.1 hempty]

theorem contentLine_ne_mark (line : Text) : trimSpace (contentLine line) ≠ multilineMark := by
  rw [trimSpace_contentLine]
  exact guardLine_ne_mark line

theorem untilMark_content (value : Text) (rest : List Text) :
    untilMark (contentOf value ++ (bruIndent ++ multilineMark) :: rest) = contentOf value := by
  unfold untilMark
  rw [List.takeWhile_append_of_pos, List.takeWhile_cons_of_neg, List.append_nil]
  · decide
  · intro line hline
    obtain ⟨old, -, rfl⟩ := List.mem_map.1 hline
    exact decide_eq_true (contentLine_ne_mark old)

theorem isIndent_isSpace {c : Char} (h : isIndent c = true) : Go.isSpace c = true := by
  simp only [isIndent, Bool.or_eq_true, beq_iff_eq] at h
  rcases h with rfl | rfl <;> decide

theorem leading_contentLine {line : Text} (h : guardLine line ≠ []) :
    leading (contentLine line) = 4 + leading (guardLine line) := by
  unfold contentLine leading
  rw [if_pos h]
  change (List.takeWhile isIndent (' ' :: ' ' :: ' ' :: ' ' :: guardLine line)).length = _
  simp only [List.takeWhile_cons_of_pos (show isIndent ' ' = true by decide), List.length_cons]
  omega

theorem stripLine_contentLine (line : Text) : stripLine (some 4) (contentLine line) = guardLine line := by
  unfold contentLine
  split_ifs with hempty
  · have hlength : byteLength (bruIndent ++ bruIndent ++ guardLine line) ≥ 4 := by
      unfold byteLength
      rw [List.map_append, List.sum_append]
      have hfour : ((bruIndent ++ bruIndent).map Char.utf8Size).sum = 4 := by decide
      omega
    unfold stripLine
    dsimp only
    rw [if_pos (by simpa using hlength), dropBytes_leading]
    · rfl
    · have hleading := leading_contentLine hempty
      rw [contentLine, if_pos hempty] at hleading
      omega
  · rw [not_ne_iff.1 hempty]
    rfl

/-- The first line of a trimmed value has no indent of its own. -/
theorem splitOn_head {value : Text} (htrimmed : trimSpace value = value) (hmulti : '\n' ∈ value) :
    ∃ c line rest, value.splitOn '\n' = (c :: line) :: rest ∧ Go.isSpace c = false := by
  have hjoin : ['\n'].intercalate (value.splitOn '\n') = value := List.intercalate_splitOn '\n'
  cases hlines : value.splitOn '\n' with
  | nil => exact absurd hlines (List.splitOn_ne_nil _ _)
  | cons first rest =>
      rw [hlines] at hjoin
      cases first with
      | cons c line =>
          refine ⟨c, line, rest, rfl, ?_⟩
          have hhead : ∃ more, value = c :: more := by
            rw [← hjoin]
            cases rest <;> simp [List.intercalate_cons_cons]
          obtain ⟨more, rfl⟩ := hhead
          exact head_of_trimmed htrimmed
      | nil =>
          exfalso
          cases rest with
          | nil =>
              rw [← hjoin] at hmulti
              simp at hmulti
          | cons next more =>
              rw [List.intercalate_cons_cons] at hjoin
              have hspace : Go.isSpace '\n' = false := by
                rw [← hjoin] at htrimmed
                exact head_of_trimmed htrimmed
              revert hspace
              decide

/-- The last character of a trimmed value is not blank, and stays the last one
when lines are guarded. -/
theorem escapedValue_last {value : Text} (htrimmed : trimSpace value = value) (hmulti : '\n' ∈ value) :
    ∃ front last, ['\n'].intercalate ((value.splitOn '\n').map guardLine) = front ++ [last] ∧
      Go.isSpace last = false := by
  have hjoin : ['\n'].intercalate (value.splitOn '\n') = value := List.intercalate_splitOn '\n'
  rcases List.eq_nil_or_concat' (value.splitOn '\n') with hnil | ⟨init, ending, hlines⟩
  · exact absurd hnil (List.splitOn_ne_nil _ _)
  · rw [hlines, intercalate_append_singleton] at hjoin
    rw [hlines, List.map_append, List.map_singleton, intercalate_append_singleton]
    rcases List.eq_nil_or_concat' ending with rfl | ⟨line, last, rfl⟩
    · exfalso
      rw [List.append_nil] at hjoin
      rcases List.eq_nil_or_concat' init with rfl | ⟨others, line, rfl⟩
      · rw [← hjoin] at hmulti
        cases hmulti
      · have hend : value = (ended '\n' others ++ line) ++ ['\n'] := by
          rw [← hjoin, ended_append, ended_cons, ended_nil, List.append_assoc]
        have hspace : Go.isSpace '\n' = false := by
          apply @last_of_trimmed _ Go.isSpace (ended '\n' others ++ line)
          rw [← hend]
          exact htrimmed
        revert hspace
        decide
    · have hend : value = (ended '\n' init ++ line) ++ [last] := by
        rw [← hjoin, List.append_assoc]
      have hguard := guardLine_last (line ++ [last])
      rw [List.getLast?_concat] at hguard
      obtain ⟨guarded, hguarded⟩ := List.getLast?_eq_some_iff.1 hguard
      refine ⟨ended '\n' (init.map guardLine) ++ guarded, last, ?_, ?_⟩
      · rw [hguarded, List.append_assoc]
      · apply @last_of_trimmed _ Go.isSpace (ended '\n' init ++ line)
        rw [← hend]
        exact htrimmed

theorem indentOf_content {value : Text} (htrimmed : trimSpace value = value) (hmulti : '\n' ∈ value) :
    indentOf (contentOf value) = some 4 := by
  obtain ⟨c, line, rest, hlines, hc⟩ := splitOn_head htrimmed hmulti
  have hfirst : contentLine (c :: line) ∈ contentOf value := by
    unfold contentOf
    rw [hlines]
    exact List.mem_map_of_mem List.mem_cons_self
  have hguard := guardLine_head (c :: line)
  obtain ⟨more, hmore⟩ : ∃ more, guardLine (c :: line) = c :: more := by
    cases hg : guardLine (c :: line) with
    | nil => simp [hg] at hguard
    | cons d more =>
        rw [hg] at hguard
        exact ⟨more, by rw [Option.some.inj hguard]⟩
  have hblank : trimSpace (contentLine (c :: line)) ≠ [] := by
    rw [trimSpace_contentLine, hmore]
    intro hnil
    have hall := trimmed_eq_nil_iff.1 hnil c List.mem_cons_self
    rw [hc] at hall
    cases hall
  obtain ⟨n, hindent, hall, other, hother, hink, hn⟩ := indentOf_spec hfirst hblank
  have hle := hall _ hfirst hblank
  rw [leading_contentLine (by rw [hmore]; nofun), hmore] at hle
  have hzero : leading (c :: more) = 0 := by
    unfold leading
    rw [List.takeWhile_cons_of_neg]
    · rfl
    · intro hin
      rw [isIndent_isSpace hin] at hc
      cases hc
  obtain ⟨old, -, rfl⟩ := List.mem_map.1 hother
  have hge : 4 ≤ leading (contentLine old) := by
    rw [leading_contentLine]
    · omega
    · intro hempty
      rw [trimSpace_contentLine, hempty] at hink
      exact hink rfl
  rw [hindent]
  congr 1
  omega

/-- What is written for a value of several lines is read back. -/
theorem dedent_content {value : Text} (htrimmed : trimSpace value = value) (hmulti : '\n' ∈ value) :
    dedent (contentOf value) = escapedValue value := by
  obtain ⟨front, last, hlast, hspace⟩ := escapedValue_last htrimmed hmulti
  unfold dedent
  rw [indentOf_content htrimmed hmulti, escapedValue, if_pos hmulti]
  have hlines : (contentOf value).map (stripLine (some 4)) = (value.splitOn '\n').map guardLine := by
    unfold contentOf
    rw [List.map_map]
    exact List.map_congr_left fun line _ => stripLine_contentLine line
  rw [hlines, hlast]
  apply List.rdropWhile_concat_neg
  intro hcut
  simp only [Bool.or_eq_true, beq_iff_eq] at hcut
  rcases hcut with rfl | rfl <;> exact absurd hspace (by decide)

end Gostman.Importer.Bru
