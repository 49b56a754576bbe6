import Gostman.Curl.Words
/-!
# A written command read back

The reader follows the writer word by word, as long as it takes the command
for one of a POSIX shell.
-/

namespace Gostman.Curl

open Gostman.Placeholders

/-! ## The shell reads what is quoted -/

@[simp] theorem write_nil (words : Words) : words.write [] = words := by
  simp [Words.write]

@[simp] theorem write_write (words : Words) (text more : Text) :
    (words.write text).write more = words.write (text ++ more) := by
  simp [Words.write]

theorem write_begin (words : Words) (text : Text) :
    (words.write text).begin = words.begin.write text := rfl

@[simp] theorem begin_begin (words : Words) : words.begin.begin = words.begin := rfl

theorem escaped_quote (text : Text) : escaped ('\'' :: text) = ['\'', '\\', '\'', '\''] ++ escaped text := rfl

theorem escaped_cons {c : Char} (hc : c ≠ '\'') (text : Text) :
    escaped (c :: text) = c :: escaped text := by
  simp [escaped, hc]

/-- The text between single quotes, each quote of it written outside of them. -/
theorem shellLoop_escaped (text : Text) (words : Words) (rest : Text) :
    shellLoop 0 ⟨words.begin, .single, false⟩ (escaped text ++ '\'' :: rest) =
      shellLoop 0 ⟨words.begin.write text, .none, false⟩ rest := by
  induction text generalizing words with
  | nil => simp [escaped, shellLoop, shellStep, Shell.singleStep]
  | cons c text ih =>
    have hnext := ih (words.write [c])
    rw [write_begin, write_write, List.singleton_append] at hnext
    by_cases hc : c = '\''
    · subst hc
      rw [escaped_quote, ← hnext]
      simp [shellLoop, shellStep, Shell.singleStep, Shell.bareStep, write_begin]
    · rw [escaped_cons hc, ← hnext]
      have hstep : Shell.singleStep ⟨words.begin, .single, false⟩ c (escaped text ++ '\'' :: rest) =
          (⟨words.begin.write [c], .single, false⟩, 0) := by
        unfold Shell.singleStep
        rw [if_neg hc]
        cases escaped text <;> rfl
      simp [shellLoop, shellStep, hstep]

theorem shellLoop_literal {text : Text} (hnul : '\x00' ∉ text) (words : Words) (rest : Text) :
    shellLoop 0 ⟨words, .none, false⟩ (singleQuoted text ++ rest) =
      shellLoop 0 ⟨if singleQuoted text = [] then words else words.begin.write text, .none, false⟩
        rest := by
  have hkept : text.filter (· ≠ '\x00') = text := by
    rw [List.filter_eq_self]
    intro c hc
    exact decide_eq_true fun h => hnul (h ▸ hc)
  unfold singleQuoted
  rw [hkept]
  by_cases hempty : text = []
  · simp [hempty]
  · have hread := shellLoop_escaped text words rest
    simp only [hempty, if_false, List.cons_append, List.append_assoc, List.nil_append,
      reduceCtorEq]
    rw [← hread]
    rfl

/-- A text between double quotes that has nothing to unescape. -/
theorem shellLoop_double {text : Text} (hquote : '"' ∉ text) (hslash : '\\' ∉ text) (words : Words)
    (rest : Text) :
    shellLoop 0 ⟨words, .double, false⟩ (text ++ '"' :: rest) =
      shellLoop 0 ⟨words.write text, .none, false⟩ rest := by
  induction text generalizing words with
  | nil => simp [shellLoop, shellStep, Shell.doubleStep]
  | cons c text ih =>
    obtain ⟨hc, hquote⟩ := not_or.1 (List.mem_cons.not.1 hquote)
    obtain ⟨hd, hslash⟩ := not_or.1 (List.mem_cons.not.1 hslash)
    have hnext := ih hquote hslash (words.write [c])
    rw [write_write, List.singleton_append] at hnext
    have hstep : Shell.doubleStep ⟨words, .double, false⟩ c (text ++ '"' :: rest) =
        (⟨words.write [c], .double, false⟩, 0) := by
      unfold Shell.doubleStep
      rw [if_neg (Ne.symm hc)]
      cases text <;> simp [Ne.symm hd, Shell.write]
    rw [← hnext, List.cons_append]
    simp [shellLoop, shellStep, hstep]

theorem isNameChar_shellName (name : Text) : ∀ c ∈ shellName name, isNameChar c = true := by
  have hout : ∀ c ∈ name.map fun c => if isNameChar c then c else '_', isNameChar c = true := by
    intro c hc
    obtain ⟨d, -, rfl⟩ := List.mem_map.1 hc
    split
    · assumption
    · decide
  intro c hc
  unfold shellName at hc
  generalize name.map (fun c => if isNameChar c then c else '_') = out at hout hc
  cases out with
  | nil =>
    obtain rfl : c = '_' := by simpa using hc
    decide
  | cons d out =>
    simp only at hc
    split at hc
    · exact hout c hc
    · rcases List.mem_cons.1 hc with rfl | hmem
      · decide
      · exact hout c hmem

/-- A shell variable is written without any character that means something to
the reader. -/
theorem not_mem_reference {c : Char} (hname : isNameChar c = false) (hdollar : c ≠ '$')
    (hopen : c ≠ '{') (hclose : c ≠ '}') (name : Text) : c ∉ reference name := by
  intro hmem
  simp only [reference, List.cons_append, List.nil_append, List.mem_cons, List.mem_append,
    List.not_mem_nil, or_false] at hmem
  rcases hmem with h | h | h | h
  · exact hdollar h
  · exact hopen h
  · exact absurd (isNameChar_shellName name c h) (by simp [hname])
  · exact hclose h

theorem shellLoop_variable (name : Text) (words : Words) (rest : Text) :
    shellLoop 0 ⟨words, .none, false⟩ (Segment.quoted (.placeholder name) ++ rest) =
      shellLoop 0 ⟨words.begin.write (reference name), .none, false⟩ rest := by
  have hread := @shellLoop_double (reference name)
    (not_mem_reference (by decide) (by decide) (by decide) (by decide) name)
    (not_mem_reference (by decide) (by decide) (by decide) (by decide) name) words.begin rest
  rw [← hread]
  simp [Segment.quoted, shellLoop, shellStep, Shell.bareStep]

def Clean (segments : List Segment) : Prop :=
  ∀ text, .literal text ∈ segments → '\x00' ∉ text

def Segment.added (segment : Segment) (words : Words) : Words :=
  if segment.quoted = [] then words else words.begin.write segment.meant

theorem shellLoop_segment {segment : Segment} (hclean : Clean [segment]) (words : Words)
    (rest : Text) :
    shellLoop 0 ⟨words, .none, false⟩ (segment.quoted ++ rest) =
      shellLoop 0 ⟨segment.added words, .none, false⟩ rest := by
  cases segment with
  | literal text => exact shellLoop_literal (hclean text List.mem_cons_self) words rest
  | placeholder name => exact shellLoop_variable name words rest

theorem singleQuoted_eq_nil {text : Text} (hnul : '\x00' ∉ text) (h : singleQuoted text = []) :
    text = [] := by
  by_contra hne
  obtain ⟨c, hc⟩ := List.exists_mem_of_ne_nil text hne
  have hkept : c ∈ text.filter (· ≠ '\x00') :=
    List.mem_filter.2 ⟨hc, decide_eq_true fun heq => hnul (heq ▸ hc)⟩
  unfold singleQuoted at h
  simp only [List.ne_nil_of_mem hkept, if_false, reduceCtorEq, List.cons_append] at h

theorem clean_head {segment : Segment} {segments : List Segment} (h : Clean (segment :: segments)) :
    Clean [segment] :=
  fun text hmem => h text (List.mem_singleton.1 hmem ▸ List.mem_cons_self)

theorem clean_tail {segment : Segment} {segments : List Segment} (h : Clean (segment :: segments)) :
    Clean segments :=
  fun text hmem => h text (List.mem_cons_of_mem segment hmem)

theorem meant_eq_nil {segment : Segment} (hclean : Clean [segment]) (h : segment.quoted = []) :
    segment.meant = [] := by
  cases segment with
  | literal text => exact singleQuoted_eq_nil (hclean text List.mem_cons_self) h
  | placeholder name => exact absurd h (List.cons_ne_nil _ _)

theorem meantWord_eq_nil {segments : List Segment} (hclean : Clean segments)
    (h : segments.flatMap Segment.quoted = []) : meantWord segments = [] := by
  induction segments with
  | nil => rfl
  | cons segment segments ih =>
    obtain ⟨hsegment, hsegments⟩ := List.append_eq_nil_iff.1 h
    have hrest := ih (clean_tail hclean) hsegments
    unfold meantWord at hrest ⊢
    rw [List.flatMap_cons, meant_eq_nil (clean_head hclean) hsegment, hrest]
    rfl

/-- The segments of a word, one after the other. -/
theorem shellLoop_segments {segments : List Segment} (hclean : Clean segments) (words : Words)
    (rest : Text) :
    shellLoop 0 ⟨words, .none, false⟩ (segments.flatMap Segment.quoted ++ rest) =
      shellLoop 0
        ⟨if segments.flatMap Segment.quoted = [] then words
          else words.begin.write (meantWord segments), .none, false⟩ rest := by
  induction segments generalizing words with
  | nil => rfl
  | cons segment segments ih =>
    have hmeant : meantWord (segment :: segments) = segment.meant ++ meantWord segments := rfl
    rw [List.flatMap_cons, List.append_assoc, shellLoop_segment (clean_head hclean),
      ih (clean_tail hclean), hmeant]
    congr 2
    unfold Segment.added
    by_cases hempty : segment.quoted = []
    · rw [if_pos hempty, hempty, meant_eq_nil (clean_head hclean) hempty]
      rfl
    · have hsome : segment.quoted ++ segments.flatMap Segment.quoted ≠ [] := by simp [hempty]
      rw [if_neg hempty, if_neg hsome]
      split
      case isTrue hrest => rw [meantWord_eq_nil (clean_tail hclean) hrest, List.append_nil]
      case isFalse => rw [write_begin, begin_begin, write_write]

theorem shellLoop_word {segments : List Segment} (hclean : Clean segments) (tokens : List Text)
    (rest : Text) :
    shellLoop 0 ⟨⟨tokens, [], false⟩, .none, false⟩ (quotedWord segments ++ rest) =
      shellLoop 0 ⟨⟨tokens, meantWord segments, true⟩, .none, false⟩ rest := by
  unfold quotedWord
  by_cases hempty : segments.flatMap Segment.quoted = []
  · rw [hempty, meantWord_eq_nil hclean hempty]
    simp [shellLoop, shellStep, Shell.bareStep, Shell.singleStep, Words.begin]
  · have hread := shellLoop_segments hclean ⟨tokens, [], false⟩ rest
    rw [if_neg hempty] at hread
    simp only [hempty, if_false]
    exact hread

theorem bareStep_blank (words : Words) (rest : Text) :
    Shell.bareStep ⟨words, .none, false⟩ ' ' rest = (⟨words.flush, .none, false⟩, 0) := by
  cases rest <;> rfl

theorem shellLoop_gap (gap : Gap) (tokens : List Text) (current rest : Text) :
    shellLoop 0 ⟨⟨tokens, current, true⟩, .none, false⟩ (gap.text ++ rest) =
      shellLoop 0 ⟨⟨tokens ++ [current], [], false⟩, .none, false⟩ rest := by
  cases gap with
  | space => simp [Gap.text, shellLoop, shellStep, bareStep_blank, Words.flush]
  | curlJoin =>
    have hjoin : Shell.bareStep ⟨⟨tokens ++ [current], [], false⟩, .none, false⟩ '\\'
          ('\n' :: ' ' :: ' ' :: rest) =
        (⟨⟨tokens ++ [current], [], false⟩, .none, false⟩, 1) := rfl
    simp [Gap.text, shellLoop, shellStep, bareStep_blank, hjoin, Words.flush]

def written (first : List Segment) (rest : List (Gap × List Segment)) : Text :=
  quotedWord first ++ rest.flatMap fun (gap, word) => gap.text ++ quotedWord word

def wordsOf {α : Type} (first : α) (rest : List (Gap × α)) : List α :=
  first :: rest.map Prod.snd

theorem shellLoop_written {first : List Segment} {rest : List (Gap × List Segment)}
    (hclean : ∀ word ∈ wordsOf first rest, Clean word) (tokens : List Text) :
    (shellLoop 0 ⟨⟨tokens, [], false⟩, .none, false⟩ (written first rest)) =
      ⟨⟨tokens ++ ((wordsOf first rest).map meantWord).dropLast,
        ((wordsOf first rest).map meantWord).getLast (by simp [wordsOf]), true⟩, .none, false⟩ := by
  induction rest generalizing first tokens with
  | nil =>
    have hword := shellLoop_word (hclean first List.mem_cons_self) tokens []
    rw [List.append_nil] at hword
    simp [written, wordsOf, hword, shellLoop]
  | cons next rest ih =>
    obtain ⟨gap, word⟩ := next
    have hnext := @ih word (fun w hw => hclean w (List.mem_cons_of_mem first hw))
      (tokens ++ [meantWord first])
    have hsplit : written first ((gap, word) :: rest) =
        quotedWord first ++ (gap.text ++ written word rest) := by
      simp [written]
    rw [hsplit, shellLoop_word (hclean first List.mem_cons_self), shellLoop_gap, hnext]
    simp [wordsOf]

theorem shellSplit_written {first : List Segment} {rest : List (Gap × List Segment)}
    (hclean : ∀ word ∈ wordsOf first rest, Clean word) :
    shellSplit (written first rest) = some ((wordsOf first rest).map meantWord) := by
  unfold shellSplit
  rw [shellLoop_written hclean []]
  simp only [if_true, Words.flush, List.nil_append]
  rw [List.dropLast_concat_getLast]

end Gostman.Curl
