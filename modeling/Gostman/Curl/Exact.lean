import Gostman.Curl.Guess
import Mathlib.Algebra.GroupWithZero.Nat
/-!
# When a written command reads back

Taken for a Windows command, a written command never reads back: the Windows
rules keep every single quote, and the writer has put some around a literal.
Otherwise the words come back with the line ends the reader puts in.
-/

namespace Gostman.Curl

open Gostman.Placeholders

def quotes (text : Text) : Nat :=
  text.count '\''

@[simp] theorem quotes_nil : quotes [] = 0 := rfl

@[simp] theorem quotes_append (text more : Text) : quotes (text ++ more) = quotes text + quotes more :=
  List.count_append

theorem quotes_cons (c : Char) (text : Text) : quotes (c :: text) = quotes [c] + quotes text :=
  quotes_append [c] text

theorem quotes_other {c : Char} (h : c ≠ '\'') : quotes [c] = 0 := by
  simp [quotes, h]

theorem quotes_free {text : Text} (h : '\'' ∉ text) : quotes text = 0 :=
  List.count_eq_zero.2 h

/-! ## The Windows rules keep single quotes -/

theorem quotes_cmdUnescape (quoted : Bool) (text : Text) :
    quotes (cmdUnescape quoted text) = quotes text := by
  fun_induction cmdUnescape quoted text with
  | case1 => rfl
  | case2 quoted c h =>
    obtain ⟨rfl, -⟩ := h
    rfl
  | case3 => rfl
  | case4 quoted d rest ih => rw [quotes_cons, ih, ← quotes_cons]
  | case5 quoted c rest hc h ih =>
    obtain ⟨rfl, -⟩ := h
    have hpair : quotes ['^', '\n'] = 0 := quotes_free (by decide)
    have hwhole := quotes_append ['^', '\n'] rest
    rw [hpair, Nat.zero_add] at hwhole
    rw [ih]
    exact hwhole.symm
  | case6 quoted c d rest hc h hd ih =>
    obtain ⟨rfl, -⟩ := h
    have hcaret : quotes ['^'] = 0 := quotes_other (by decide)
    rw [quotes_cons, ih, ← quotes_cons, quotes_cons '^', hcaret, Nat.zero_add]
  | case7 quoted c d rest hc h ih => rw [quotes_cons, ih, ← quotes_cons]

namespace Words

def quotes (words : Words) : Nat :=
  (words.tokens.map Curl.quotes).sum + Curl.quotes words.current

def Tidy (words : Words) : Prop :=
  words.inToken = false → words.current = []

theorem quotes_flush (words : Words) : words.flush.quotes = words.quotes := by
  unfold flush
  split
  · simp [quotes]
  · rfl

theorem flush_current {words : Words} (h : words.Tidy) : words.flush.current = [] := by
  unfold flush
  split
  · rfl
  case isFalse hout => exact h (Bool.not_eq_true _ ▸ hout)

theorem tidy_flush {words : Words} (h : words.Tidy) : words.flush.Tidy := by
  unfold flush
  split
  · exact fun _ => rfl
  · exact h

theorem quotes_begin (words : Words) : words.begin.quotes = words.quotes := rfl

theorem quotes_write (words : Words) (text : Text) :
    (words.write text).quotes = words.quotes + Curl.quotes text := by
  simp [quotes, write, Nat.add_assoc]

theorem tidy_begin (words : Words) (text : Text) : (words.begin.write text).Tidy := by
  intro h
  exact absurd h (by simp [begin, write])

end Words

theorem quotes_replicate (count : Nat) : quotes (List.replicate count '\\') = 0 :=
  quotes_free fun h => absurd (List.eq_of_mem_replicate h) (by decide)

theorem take_slashes (rest : Text) :
    rest.take (rest.takeWhile (· = '\\')).length = rest.takeWhile (· = '\\') :=
  (List.prefix_iff_eq_take.1 (List.takeWhile_prefix _)).symm

theorem not_mem_slashes (rest : Text) : '\'' ∉ rest.takeWhile (· = '\\') := by
  intro h
  have hslash := List.all_eq_true.1 (List.all_takeWhile (p := (· = '\\')) (l := rest)) _ h
  exact absurd hslash (by decide)

/-- The backslashes that follow, and a double quote after them. -/
theorem not_mem_slashes_quote {rest : Text}
    (h : (rest.drop (rest.takeWhile (· = '\\')).length).head? = some '"') :
    '\'' ∉ rest.take ((rest.takeWhile (· = '\\')).length + 1) := by
  rw [List.take_add_one, take_slashes, List.mem_append, not_or]
  refine ⟨not_mem_slashes rest, ?_⟩
  rw [List.head?_drop] at h
  rw [h]
  decide

/-- One character under the Windows rules: a single quote is kept, and what is
read ahead are backslashes and double quotes. -/
theorem crtStep_quotes {words : Words} (h : words.Tidy) (quoted : Bool) (c : Char) (rest : Text) :
    (crtStep words quoted c rest).1.quotes = words.quotes + quotes [c] ∧
      (crtStep words quoted c rest).1.Tidy ∧
      '\'' ∉ rest.take (crtStep words quoted c rest).2.2 := by
  unfold crtStep
  split
  case isTrue hc =>
    subst hc
    have hslash : quotes ['\\'] = 0 := quotes_other (by decide)
    simp only [Nat.add_sub_cancel_left]
    split
    case isTrue hquote =>
      split
      · rw [write_write, hslash, Words.quotes_write, Words.quotes_begin, quotes_append,
          quotes_replicate]
        refine ⟨rfl, Words.tidy_begin _ _, ?_⟩
        rw [Nat.add_comm]
        exact not_mem_slashes_quote hquote
      · rw [hslash, Words.quotes_write, Words.quotes_begin, quotes_replicate, take_slashes]
        exact ⟨rfl, Words.tidy_begin _ _, not_mem_slashes rest⟩
    case isFalse =>
      rw [hslash, Words.quotes_write, Words.quotes_begin, quotes_replicate, take_slashes]
      exact ⟨rfl, Words.tidy_begin _ _, not_mem_slashes rest⟩
  split
  case isTrue hc =>
    subst hc
    have hdouble : quotes ['"'] = 0 := quotes_other (by decide)
    split
    case isTrue hnext =>
      rw [Words.quotes_write, Words.quotes_begin]
      refine ⟨rfl, Words.tidy_begin _ _, ?_⟩
      cases rest with
      | nil => simp
      | cons d rest =>
        obtain rfl : d = '"' := by simpa using (Bool.and_eq_true_iff.1 hnext).2
        simp
    case isFalse =>
      have htidy := Words.tidy_begin words []
      rw [write_nil] at htidy
      rw [hdouble]
      exact ⟨rfl, htidy, by simp⟩
  split
  case isTrue hgap =>
    have hc : c ≠ '\'' := by
      rintro rfl
      exact absurd (Bool.and_eq_true_iff.1 hgap).2 (by decide)
    rw [Words.quotes_flush, quotes_other hc]
    exact ⟨rfl, Words.tidy_flush h, by simp⟩
  case isFalse =>
    exact ⟨Words.quotes_write words [c], Words.tidy_begin words [c], by simp⟩

theorem crtLoop_quotes (text : Text) {words : Words} (h : words.Tidy) (quoted : Bool) {skip : Nat}
    (hskip : '\'' ∉ text.take skip) :
    (crtLoop skip words quoted text).quotes = words.quotes + quotes text ∧
      (crtLoop skip words quoted text).Tidy := by
  induction text generalizing words quoted skip with
  | nil =>
    rw [crtLoop]
    exact ⟨rfl, h⟩
  | cons c rest ih =>
    cases skip with
    | succ skip =>
      rw [List.take_succ_cons, List.mem_cons, not_or] at hskip
      obtain ⟨hquotes, htidy⟩ := ih h quoted hskip.2
      rw [crtLoop, hquotes, quotes_cons, quotes_other (Ne.symm hskip.1), Nat.zero_add]
      exact ⟨rfl, htidy⟩
    | zero =>
      obtain ⟨hstep, htidy, hnext⟩ := crtStep_quotes h quoted c rest
      rw [crtLoop]
      obtain ⟨hquotes, hlast⟩ := ih htidy (crtStep words quoted c rest).2.1 hnext
      refine ⟨?_, hlast⟩
      rw [hquotes, hstep, quotes_cons c rest, Nat.add_assoc]

/-- No single quote is lost by the Windows rules. -/
theorem crtSplit_quotes (text : Text) : ((crtSplit text).map quotes).sum = quotes text := by
  have htidy : Words.Tidy ⟨[], [], false⟩ := fun _ => rfl
  obtain ⟨hquotes, hlast⟩ := @crtLoop_quotes text ⟨[], [], false⟩ htidy false 0 (by simp)
  have hflush := Words.quotes_flush (crtLoop 0 ⟨[], [], false⟩ false text)
  rw [hquotes, Words.quotes, Words.flush_current hlast, quotes_nil, Nat.add_zero] at hflush
  rw [crtSplit, hflush]
  exact Nat.zero_add _

/-! ## The writer adds single quotes around a literal -/

theorem quotes_escaped (text : Text) : quotes text ≤ quotes (escaped text) := by
  induction text with
  | nil => exact Nat.le_refl 0
  | cons c text ih =>
    by_cases hc : c = '\''
    · subst hc
      have hthree : quotes ['\'', '\\', '\'', '\''] = 3 := by decide
      have hone : quotes ['\''] = 1 := by decide
      rw [escaped_quote, quotes_append, quotes_cons, hthree, hone]
      omega
    · rw [escaped_cons hc, quotes_cons, quotes_cons c (escaped text)]
      omega

theorem quotes_segment {segment : Segment} (hclean : Clean [segment]) :
    quotes segment.meant + (if segment.caret then 1 else 0) ≤ quotes segment.quoted := by
  cases segment with
  | literal text =>
    simp only [Segment.meant, Segment.caret, Segment.quoted, singleQuoted,
      filter_clean (hclean text List.mem_cons_self)]
    by_cases hempty : text = []
    · simp [hempty, caretInLiteral]
    · have hle := quotes_escaped text
      have hone : quotes ['\''] = 1 := by decide
      rw [if_neg hempty, quotes_append, quotes_cons, hone]
      by_cases hcaret : caretInLiteral text = true <;> simp [hcaret] <;> omega
  | placeholder name =>
    simp only [Segment.meant, Segment.caret, Segment.quoted]
    rw [quotes_append, quotes_cons]
    simp only [Bool.false_eq_true, if_false]
    omega

theorem quotes_word {segments : List Segment} (hclean : Clean segments) :
    quotes (meantWord segments) + (if segments.any Segment.caret then 1 else 0) ≤
      quotes (quotedWord segments) := by
  have hflat : quotes (meantWord segments) + (if segments.any Segment.caret then 1 else 0) ≤
      quotes (segments.flatMap Segment.quoted) := by
    induction segments with
    | nil => simp [meantWord]
    | cons segment segments ih =>
      have hsegment := quotes_segment (clean_head hclean)
      have hrest := ih (clean_tail hclean)
      have hmeant : meantWord (segment :: segments) = segment.meant ++ meantWord segments := rfl
      rw [hmeant, List.flatMap_cons, quotes_append, quotes_append, List.any_cons]
      cases hcaret : segment.caret <;> cases hany : segments.any Segment.caret <;>
        simp_all <;> omega
  refine hflat.trans ?_
  unfold quotedWord
  simp only
  split
  case isTrue hempty =>
    rw [hempty]
    exact Nat.zero_le _
  case isFalse => exact Nat.le_refl _

/-- A written command has at least the single quotes of its words, and one
more where a caret counts. -/
theorem quotes_written {first : List Segment} {rest : List (Gap × List Segment)}
    (hclean : ∀ word ∈ wordsOf first rest, Clean word) :
    ((wordsOf first rest).map fun word => quotes (meantWord word)).sum +
        (if (wordsOf first rest).any fun word => word.any Segment.caret then 1 else 0) ≤
      quotes (written first rest) := by
  induction rest generalizing first with
  | nil =>
    have hword := quotes_word (hclean first List.mem_cons_self)
    simpa [wordsOf, written] using hword
  | cons next rest ih =>
    obtain ⟨gap, word⟩ := next
    have hword := quotes_word (hclean first List.mem_cons_self)
    have hrest := @ih word (fun w hw => hclean w (List.mem_cons_of_mem first hw))
    have hsplit : written first ((gap, word) :: rest) =
        quotedWord first ++ (gap.text ++ written word rest) := by
      simp [written]
    have hwords : wordsOf first ((gap, word) :: rest) = first :: wordsOf word rest := rfl
    rw [hsplit, quotes_append, quotes_append, hwords, List.map_cons, List.sum_cons, List.any_cons]
    cases hcaret : first.any Segment.caret <;>
      cases hany : (wordsOf word rest).any fun word => word.any Segment.caret <;>
      simp_all <;> omega

/-! ## Line ends that are lost -/

theorem quotes_unixLines (text : Text) : quotes (unixLines text) = quotes text := by
  induction text using unixLines.induct with
  | case1 text ih =>
    have hreturn : quotes ['\r'] = 0 := quotes_other (by decide)
    rw [unixLines, quotes_cons, ih, ← quotes_cons, quotes_cons '\r', hreturn, Nat.zero_add]
  | case2 c text h ih =>
    rw [unixLines]
    · rw [quotes_cons, ih, ← quotes_cons]
    · exact h
  | case3 => rfl

theorem length_unixLines (text : Text) :
    (unixLines text).length + (if crlfIn text then 1 else 0) ≤ text.length := by
  induction text using unixLines.induct with
  | case1 text ih =>
    rw [unixLines, List.length_cons, List.length_cons, List.length_cons]
    split <;> split at ih <;> omega
  | case2 c text h ih =>
    have hpair : (decide (c = '\r') && decide (text.head? = some '\n')) = false := by
      rw [Bool.and_eq_false_iff, decide_eq_false_iff_not, decide_eq_false_iff_not]
      by_contra hboth
      obtain ⟨hc, hhead⟩ := not_or.1 hboth
      rw [not_not] at hc hhead
      obtain ⟨d, more, rfl⟩ := List.exists_cons_of_ne_nil
        (fun hnil : text = [] => by rw [hnil] at hhead; exact absurd hhead (by simp))
      exact h more hc (by rw [Option.some.inj hhead])
    rw [unixLines, crlfIn, hpair, Bool.false_or, List.length_cons, List.length_cons]
    · omega
    · exact h
  | case3 => simp [unixLines, crlfIn]

theorem unixLines_of_free {text : Text} (h : crlfIn text = false) : unixLines text = text := by
  induction text with
  | nil => rfl
  | cons c rest ih =>
    obtain ⟨hpair, hrest⟩ := Bool.or_eq_false_iff.1 h
    rw [unixLines_cons (by simpa using hpair), ih hrest]

def Segment.crlf : Segment → Bool
  | .literal text => crlfIn text
  | .placeholder _ => false

theorem length_segment (segment : Segment) :
    segment.unix.meant.length + (if segment.crlf then 1 else 0) ≤ segment.meant.length := by
  cases segment with
  | literal text => exact length_unixLines text
  | placeholder name => exact Nat.le_refl _

theorem length_word (segments : List Segment) :
    (meantWord (segments.map Segment.unix)).length +
        (if segments.any Segment.crlf then 1 else 0) ≤ (meantWord segments).length := by
  induction segments with
  | nil => exact Nat.le_refl _
  | cons segment segments ih =>
    have hsegment := length_segment segment
    have hmeant : meantWord (segment :: segments) = segment.meant ++ meantWord segments := rfl
    have hunix : meantWord ((segment :: segments).map Segment.unix) =
        segment.unix.meant ++ meantWord (segments.map Segment.unix) := rfl
    rw [hmeant, hunix, List.length_append, List.length_append, List.any_cons]
    cases hcrlf : segment.crlf <;> cases hany : segments.any Segment.crlf <;> simp_all <;> omega

theorem unix_of_free {segments : List Segment} (h : segments.any Segment.crlf = false) :
    segments.map Segment.unix = segments := by
  refine (List.map_congr_left (g := id) ?_).trans (List.map_id segments)
  intro segment hmem
  have hfree := List.any_eq_false.1 h segment hmem
  cases segment with
  | literal text =>
    exact congrArg Segment.literal (unixLines_of_free (by simpa [Segment.crlf] using hfree))
  | placeholder name => rfl

theorem quotes_unix (segments : List Segment) :
    quotes (meantWord (segments.map Segment.unix)) = quotes (meantWord segments) := by
  induction segments with
  | nil => rfl
  | cons segment segments ih =>
    have hmeant : meantWord (segment :: segments) = segment.meant ++ meantWord segments := rfl
    have hunix : meantWord ((segment :: segments).map Segment.unix) =
        segment.unix.meant ++ meantWord (segments.map Segment.unix) := rfl
    rw [hmeant, hunix, quotes_append, quotes_append, ih]
    cases segment with
    | literal text =>
      have htext := quotes_unixLines text
      simp only [Segment.unix, Segment.meant, htext]
    | placeholder name => rfl

/-! ## Exactly when -/

/-- A literal that reads back: without CR LF, without a caret before a double
quote, and without a caret before only blanks at the end of a line. -/
def Plain (text : Text) : Prop :=
  crlfIn text = false ∧ caretInLiteral text = false

theorem splitCommand_written {first : List Segment} {rest : List (Gap × List Segment)}
    (hclean : ∀ word ∈ wordsOf first rest, Clean word) :
    splitCommand (written first rest) = some ((wordsOf first rest).map meantWord) ↔
      ∀ word ∈ wordsOf first rest, ∀ text, .literal text ∈ word → Plain text := by
  let unixRest := rest.map fun part => (part.1, part.2.map Segment.unix)
  have hwords : wordsOf (first.map Segment.unix) unixRest =
      (wordsOf first rest).map fun word => word.map Segment.unix := by
    simp [wordsOf, unixRest, Function.comp_def]
  have hcleanUnix : ∀ word ∈ wordsOf (first.map Segment.unix) unixRest, Clean word := by
    rw [hwords]
    intro word hword
    obtain ⟨source, hsource, rfl⟩ := List.mem_map.1 hword
    exact clean_unix (hclean source hsource)
  have hunix : unixLines (written first rest) = written (first.map Segment.unix) unixRest :=
    unixLines_written hclean
  unfold splitCommand
  simp only [hunix]
  constructor
  · intro hread
    by_cases hcmd : isCmdCommand (written (first.map Segment.unix) unixRest) = true
    · -- Windows rules: the single quotes of the literal with the caret are too many.
      rw [if_pos hcmd] at hread
      have hkept := crtSplit_quotes (cmdUnescape false (written (first.map Segment.unix) unixRest))
      have hmore := quotes_written hcleanUnix
      rw [isCmdCommand_written hcleanUnix] at hcmd
      rw [if_pos hcmd, hwords, List.map_map] at hmore
      rw [Option.some.inj hread, quotes_cmdUnescape, List.map_map] at hkept
      simp only [Function.comp_def, quotes_unix] at hmore hkept
      omega
    · rw [if_neg hcmd, shellSplit_written hcleanUnix, hwords, List.map_map] at hread
      have hsame : ∀ word ∈ wordsOf first rest, word.any Segment.crlf = false := by
        intro word hword
        have heq : meantWord (word.map Segment.unix) = meantWord word :=
          List.map_inj_left.1 (Option.some.inj hread) word hword
        have hlength := length_word word
        rw [heq] at hlength
        by_contra hcrlf
        rw [Bool.not_eq_false] at hcrlf
        rw [if_pos hcrlf] at hlength
        omega
      have hback : (wordsOf first rest).map (fun word => word.map Segment.unix) =
          wordsOf first rest :=
        (List.map_congr_left (g := id) fun word hword => unix_of_free (hsame word hword)).trans
          (List.map_id _)
      rw [isCmdCommand_written hcleanUnix, hwords, hback, Bool.not_eq_true, List.any_eq_false] at hcmd
      intro word hword text htext
      refine ⟨?_, ?_⟩
      · simpa [Segment.crlf] using List.any_eq_false.1 (hsame word hword) _ htext
      · have hcaret := hcmd word hword
        rw [Bool.not_eq_true, List.any_eq_false] at hcaret
        simpa [Segment.caret] using hcaret _ htext
  · intro hplain
    have hsame : ∀ word ∈ wordsOf first rest, word.map Segment.unix = word := by
      intro word hword
      apply unix_of_free
      rw [List.any_eq_false]
      intro segment hsegment
      cases segment with
      | literal text => simpa [Segment.crlf] using (hplain word hword text hsegment).1
      | placeholder name => simp [Segment.crlf]
    have hback : (wordsOf first rest).map (fun word => word.map Segment.unix) = wordsOf first rest :=
      (List.map_congr_left (g := id) hsame).trans (List.map_id _)
    rw [hback] at hwords
    have hcmd : isCmdCommand (written (first.map Segment.unix) unixRest) = false := by
      rw [isCmdCommand_written hcleanUnix, hwords, List.any_eq_false]
      intro word hword
      rw [Bool.not_eq_true, List.any_eq_false]
      intro segment hsegment
      cases segment with
      | literal text => simpa [Segment.caret] using (hplain word hword text hsegment).2
      | placeholder name => simp [Segment.caret]
    rw [hcmd, if_neg (by decide), shellSplit_written hcleanUnix, hwords]

/-! ## The words themselves -/

def Bare (word : Text) : Prop :=
  ∀ before after, cutPair '{' '{' word = some (before, after) → cutPair '}' '}' after = none

theorem splitPlaceholders_bare {word : Text} (hne : word ≠ []) (h : Bare word) :
    splitPlaceholders word = [.literal word] := by
  rw [splitPlaceholders, if_neg hne]
  split
  · rfl
  case h_2 before after hopen =>
    split
    · rfl
    case h_2 hclose => exact absurd ((h before after hopen).symm.trans hclose) (by simp)

theorem splitPlaceholders_cut {word before after raw rest : Text}
    (hopen : cutPair '{' '{' word = some (before, after))
    (hclose : cutPair '}' '}' after = some (raw, rest)) :
    splitPlaceholders word =
      .literal before :: .placeholder (trimSpace raw) :: splitPlaceholders rest := by
  have hne : word ≠ [] := by
    rintro rfl
    exact absurd hopen (by simp [cutPair])
  rw [splitPlaceholders, if_neg hne]
  split
  case h_1 hnone => exact absurd (hnone.symm.trans hopen) (by simp)
  case h_2 before' after' hopen' =>
    obtain ⟨rfl, rfl⟩ := Prod.mk.inj (Option.some.inj (hopen'.symm.trans hopen))
    split
    case h_1 hnone => exact absurd (hnone.symm.trans hclose) (by simp)
    case h_2 raw' rest' hclose' =>
      obtain ⟨rfl, rfl⟩ := Prod.mk.inj (Option.some.inj (hclose'.symm.trans hclose))
      rfl

/-- A word without placeholders is meant as it is. -/
theorem meant_bare {word : Text} (h : Bare word) : meant word = word := by
  by_cases hne : word = []
  · rw [hne, meant, splitPlaceholders]
    rfl
  · rw [meant, splitPlaceholders_bare hne h]
    exact List.append_nil word

theorem mem_of_mem_literal {word text : Text} {c : Char}
    (htext : .literal text ∈ splitPlaceholders word) (hc : c ∈ text) : c ∈ word := by
  have hwhole : ∀ {word : Text}, word ≠ [] → Bare word →
      .literal text ∈ splitPlaceholders word → c ∈ word := by
    intro word hne hbare hmem
    rw [splitPlaceholders_bare hne hbare] at hmem
    rwa [← Segment.literal.inj (List.mem_singleton.1 hmem)]
  induction word using splitPlaceholders.induct with
  | case1 => exact absurd htext (by simp [splitPlaceholders])
  | case2 word hne hopen =>
    exact hwhole hne (fun before after h => absurd (hopen.symm.trans h) (by simp)) htext
  | case3 word hne before after hopen hclose =>
    refine hwhole hne (fun before' after' h => ?_) htext
    obtain ⟨-, rfl⟩ := Prod.mk.inj (Option.some.inj (h.symm.trans hopen))
    exact hclose
  | case4 word hne before after hopen raw rest hclose ih =>
    rw [splitPlaceholders_cut hopen hclose] at htext
    have hword := cutPair_eq hopen
    have hafter := cutPair_eq hclose
    rcases List.mem_cons.1 htext with hfirst | hmore
    · obtain rfl := Segment.literal.inj hfirst
      rw [hword]
      exact List.mem_append_left _ hc
    · have hrest := ih ((List.mem_cons.1 hmore).resolve_left (by simp))
      rw [hword, hafter]
      simp [hrest]

theorem command_eq_written (first : Text) (rest : List (Gap × Text)) :
    command first rest =
      written (splitPlaceholders first)
        (rest.map fun (gap, word) => (gap, splitPlaceholders word)) := by
  unfold command written shellQuote
  rw [List.flatMap_map]

/-- A written command of words without NUL reads back exactly when all literals
of its words are plain.  What should be read is each word with its placeholders
replaced by shell variables, the word itself where it has none. -/
theorem command_reads_back_iff (first : Text) (rest : List (Gap × Text))
    (hnul : ∀ word ∈ wordsOf first rest, '\x00' ∉ word) :
    (∀ word ∈ wordsOf first rest, Bare word → meant word = word) ∧
      (splitCommand (command first rest) = some ((wordsOf first rest).map meant) ↔
        ∀ word ∈ wordsOf first rest, ∀ text, .literal text ∈ splitPlaceholders word →
          Plain text) := by
  have hwords : wordsOf (splitPlaceholders first)
        (rest.map fun (gap, word) => (gap, splitPlaceholders word)) =
      (wordsOf first rest).map splitPlaceholders := by
    simp [wordsOf, Function.comp_def]
  have hclean : ∀ word ∈ wordsOf (splitPlaceholders first)
      (rest.map fun (gap, word) => (gap, splitPlaceholders word)), Clean word := by
    rw [hwords]
    intro segments hsegments text htext hzero
    obtain ⟨word, hword, rfl⟩ := List.mem_map.1 hsegments
    exact hnul word hword (mem_of_mem_literal htext hzero)
  refine ⟨fun word _ hbare => meant_bare hbare, ?_⟩
  have hexact := splitCommand_written hclean
  rw [← command_eq_written, hwords, List.map_map, List.forall_mem_map] at hexact
  exact hexact

/-- The Windows rules are taken for a literal that holds a caret before a
double quote, whatever quotes it. -/
theorem caret_quote_misread :
    ¬ splitCommand (command "a^\"b".toList []) = some ["a^\"b".toList] := by
  have hword : splitPlaceholders "a^\"b".toList = [.literal "a^\"b".toList] :=
    splitPlaceholders_bare (by decide) fun before after h => absurd h (by simp [cutPair])
  rw [command, shellQuote, hword]
  decide

/-- A header with a quote and a placeholder, on a line of its own. -/
theorem command_reads_back_header :
    splitCommand (command "curl".toList
        [(.space, "-H".toList), (.curlJoin, "X: it's ".toList ++ braced "token id".toList)]) =
      some ["curl".toList, "-H".toList, "X: it's ".toList ++ reference "token id".toList] := by
  have hcurl : splitPlaceholders "curl".toList = [.literal "curl".toList] :=
    splitPlaceholders_bare (by decide) fun before after h => absurd h (by simp [cutPair])
  have hoption : splitPlaceholders "-H".toList = [.literal "-H".toList] :=
    splitPlaceholders_bare (by decide) fun before after h => absurd h (by simp [cutPair])
  have hheader : splitPlaceholders ("X: it's ".toList ++ braced "token id".toList) =
      [.literal "X: it's ".toList, .placeholder "token id".toList] := by
    have hend : splitPlaceholders [] = [] := by rw [splitPlaceholders]; rfl
    rw [@splitPlaceholders_cut _ "X: it's ".toList ("token id".toList ++ ['}', '}'])
      "token id".toList [] (by decide) (by decide), hend]
    rfl
  have hread := (command_reads_back_iff "curl".toList
    [(.space, "-H".toList), (.curlJoin, "X: it's ".toList ++ braced "token id".toList)]
    (by decide)).2.2 ?_
  · rw [hread]
    simp only [wordsOf, List.map_cons, List.map_nil, meant, hcurl, hoption, hheader]
    rfl
  · intro word hword text htext
    simp only [wordsOf, List.map_cons, List.map_nil, List.mem_cons, List.not_mem_nil,
      or_false] at hword
    rcases hword with rfl | rfl | rfl
    · rw [hcurl, List.mem_singleton] at htext
      obtain rfl := Segment.literal.inj htext
      exact ⟨by decide, by decide⟩
    · rw [hoption, List.mem_singleton] at htext
      obtain rfl := Segment.literal.inj htext
      exact ⟨by decide, by decide⟩
    · rw [hheader] at htext
      obtain rfl : text = "X: it's ".toList := by simpa using htext
      exact ⟨by decide, by decide⟩

end Gostman.Curl
