import Gostman.Curl.ReadBack
/-!
# Which syntax a written command is taken for

The reader looks for a caret before a double quote or at the end of a line,
anywhere in the command.  In a written command carets stand only in literals.
-/

namespace Gostman.Curl

open Gostman.Placeholders

/-! ## A caret that makes it a Windows command -/

def blankToEnd (rest : Text) : Bool :=
  match rest.dropWhile isBlank with
  | [] => true
  | c :: _ => c = '\n'

/-- After a caret: a double quote, or only blanks up to the end of the line. -/
def caretCounts (rest : Text) : Bool :=
  rest.head? = some '"' || blankToEnd rest

def caretIn : Text → Bool
  | [] => false
  | c :: rest => (c = '^' && caretCounts rest) || caretIn rest

/-- The same within a literal, whose end is followed by a quote. -/
def caretInLiteral : Text → Bool
  | [] => false
  | c :: rest =>
      (c = '^' && (rest.head? = some '"' || (rest.dropWhile isBlank).head? = some '\n')) ||
        caretInLiteral rest

theorem endsInCaret_eq (line : Text) :
    endsInCaret line = ((line.reverse.dropWhile isBlank).head? = some '^') := by
  unfold endsInCaret List.rdropWhile
  rw [List.getLast?_reverse]
  simp

theorem endsInCaret_cons (c : Char) (line : Text) :
    endsInCaret (c :: line) = ((c = '^' && line.all isBlank) || endsInCaret line) := by
  rw [Bool.eq_iff_iff, endsInCaret_eq, Bool.or_eq_true, endsInCaret_eq, List.reverse_cons,
    List.dropWhile_append]
  by_cases hblank : line.all isBlank = true
  · have hnil : line.reverse.dropWhile isBlank = [] := by
      rw [List.dropWhile_eq_nil_iff]
      intro d hd
      exact List.all_eq_true.1 hblank d (List.mem_reverse.1 hd)
    rw [hnil, hblank]
    by_cases hc : c = '^'
    · subst hc
      decide
    · simp only [List.isEmpty_nil, if_true, hc, decide_false, Bool.false_and, Bool.false_eq_true,
        false_or, List.head?_nil]
      by_cases hb : isBlank c = true <;> simp [hb, hc]
  · have hsome : line.reverse.dropWhile isBlank ≠ [] := by
      rw [Ne, List.dropWhile_eq_nil_iff]
      intro hall
      exact hblank (List.all_eq_true.2 fun d hd => hall d (List.mem_reverse.2 hd))
    rw [Bool.not_eq_true] at hblank
    rw [hblank, List.isEmpty_eq_false_iff.2 hsome]
    obtain ⟨d, rest, hd⟩ := List.exists_cons_of_ne_nil hsome
    simp [hd]

/-- The first line is blank where only blanks stand before its end. -/
theorem blankToEnd_eq {rest line : Text} {lines : List Text} (h : splitLines rest = line :: lines) :
    line.all isBlank = blankToEnd rest := by
  induction rest generalizing line lines with
  | nil =>
    obtain ⟨rfl, -⟩ := List.cons.inj h
    rfl
  | cons c rest ih =>
    rw [splitLines] at h
    split at h
    case isTrue hc =>
      obtain ⟨rfl, -⟩ := List.cons.inj h
      subst hc
      rfl
    case isFalse hc =>
      cases hlines : splitLines rest with
      | nil =>
        rw [hlines] at h
        exact absurd h (by simp)
      | cons next others =>
        rw [hlines] at h
        obtain ⟨rfl, -⟩ := List.cons.inj h
        rw [List.all_cons, ih hlines, blankToEnd, blankToEnd, List.dropWhile_cons]
        by_cases hb : isBlank c = true
        · simp [hb]
        · simp [hb, hc]

theorem splitLines_ne_nil (text : Text) : splitLines text ≠ [] := by
  cases text with
  | nil => exact List.cons_ne_nil _ _
  | cons c rest =>
    rw [splitLines]
    split
    · exact List.cons_ne_nil _ _
    · cases hlines : splitLines rest with
      | nil => exact absurd hlines (splitLines_ne_nil rest)
      | cons line lines => exact List.cons_ne_nil _ _

/-- What the reader looks for in the text and in its lines, it finds at some
caret. -/
theorem isCmdCommand_eq (command : Text) : isCmdCommand command = caretIn command := by
  induction command with
  | nil => decide
  | cons c rest ih =>
    obtain ⟨line, lines, hlines⟩ := List.exists_cons_of_ne_nil (splitLines_ne_nil rest)
    have hcounts : caretCounts rest = (rest.head? = some '"' || line.all isBlank) := by
      rw [blankToEnd_eq hlines]
      rfl
    unfold isCmdCommand at ih ⊢
    rw [caretIn, ← ih, hcounts, caretQuote, splitLines]
    by_cases hc : c = '\n'
    · subst hc
      simp [endsInCaret]
    · rw [if_neg hc, hlines]
      simp only [List.modifyHead_cons, List.any_cons, endsInCaret_cons]
      cases decide (c = '^') <;> cases decide (rest.head? = some '"') <;>
        cases caretQuote rest <;> cases line.all isBlank <;> simp

/-! ## Carets in a written command -/

theorem caretIn_free {front : Text} (h : '^' ∉ front) (rest : Text) :
    caretIn (front ++ rest) = caretIn rest := by
  induction front with
  | nil => rfl
  | cons c front ih =>
    obtain ⟨hc, hfront⟩ := not_or.1 (List.mem_cons.not.1 h)
    rw [List.cons_append, caretIn, ih hfront, decide_eq_false (Ne.symm hc)]
    rfl

/-- What the reader sees right after a caret of a literal. -/
theorem head?_escaped (text rest : Text) :
    (escaped text ++ '\'' :: rest).head? = some '"' ↔ text.head? = some '"' := by
  cases text with
  | nil => simp [escaped]
  | cons c text =>
    by_cases hc : c = '\''
    · subst hc
      simp [escaped_quote]
    · simp [escaped_cons hc]

theorem blankToEnd_escaped (text rest : Text) :
    blankToEnd (escaped text ++ '\'' :: rest) = ((text.dropWhile isBlank).head? = some '\n') := by
  have hquote : isBlank '\'' = false := by decide
  unfold blankToEnd
  induction text with
  | nil => simp [escaped, hquote]
  | cons c text ih =>
    by_cases hc : c = '\''
    · subst hc
      simp [escaped_quote, hquote]
    · rw [escaped_cons hc, List.cons_append, List.dropWhile_cons, List.dropWhile_cons]
      by_cases hb : isBlank c = true
      · rw [if_pos hb, if_pos hb]
        exact ih
      · rw [if_neg hb, if_neg hb]
        simp

theorem caretIn_escaped (text rest : Text) :
    caretIn (escaped text ++ '\'' :: rest) = (caretInLiteral text || caretIn rest) := by
  induction text with
  | nil => simp [escaped, caretIn, caretInLiteral]
  | cons c text ih =>
    by_cases hc : c = '\''
    · subst hc
      have hfree : '^' ∉ ['\'', '\\', '\'', '\''] := by decide
      rw [escaped_quote, List.append_assoc, caretIn_free hfree, ih]
      rfl
    · have hcounts : caretCounts (escaped text ++ '\'' :: rest) =
          (text.head? = some '"' || (text.dropWhile isBlank).head? = some '\n') := by
        rw [Bool.eq_iff_iff]
        simp only [caretCounts, Bool.or_eq_true, decide_eq_true_eq, head?_escaped,
          blankToEnd_escaped]
      rw [escaped_cons hc, List.cons_append, caretIn, ih, hcounts, caretInLiteral, Bool.or_assoc]

def Segment.caret : Segment → Bool
  | .literal text => caretInLiteral text
  | .placeholder _ => false

theorem filter_clean {text : Text} (h : '\x00' ∉ text) : text.filter (· ≠ '\x00') = text := by
  rw [List.filter_eq_self]
  intro c hc
  exact decide_eq_true fun heq => h (heq ▸ hc)

theorem caretIn_segment {segment : Segment} (hclean : Clean [segment]) (rest : Text) :
    caretIn (segment.quoted ++ rest) = (segment.caret || caretIn rest) := by
  cases segment with
  | literal text =>
    simp only [Segment.quoted, singleQuoted, filter_clean (hclean text List.mem_cons_self),
      Segment.caret]
    split
    case isTrue hempty => simp [hempty, caretInLiteral]
    case isFalse =>
      simp only [List.cons_append, List.append_assoc, List.nil_append]
      rw [caretIn, caretIn_escaped]
      rfl
  | placeholder name =>
    have hfree : '^' ∉ Segment.quoted (.placeholder name) := by
      have hname := not_mem_reference (c := '^') (by decide) (by decide) (by decide) (by decide) name
      simp [Segment.quoted, hname]
    rw [caretIn_free hfree]
    rfl

theorem caretIn_segments {segments : List Segment} (hclean : Clean segments) (rest : Text) :
    caretIn (segments.flatMap Segment.quoted ++ rest) =
      (segments.any Segment.caret || caretIn rest) := by
  induction segments with
  | nil => rfl
  | cons segment segments ih =>
    rw [List.flatMap_cons, List.append_assoc, caretIn_segment (clean_head hclean),
      ih (clean_tail hclean), List.any_cons, Bool.or_assoc]

theorem caretIn_word {segments : List Segment} (hclean : Clean segments) (rest : Text) :
    caretIn (quotedWord segments ++ rest) = (segments.any Segment.caret || caretIn rest) := by
  rw [← caretIn_segments hclean]
  unfold quotedWord
  simp only
  split
  case isTrue hempty =>
    rw [hempty]
    exact caretIn_free (by decide) rest
  case isFalse => rfl

/-- The reader takes a written command for a Windows one where a caret counts
in a literal of a word. -/
theorem isCmdCommand_written {first : List Segment} {rest : List (Gap × List Segment)}
    (hclean : ∀ word ∈ wordsOf first rest, Clean word) :
    isCmdCommand (written first rest) =
      (wordsOf first rest).any fun word => word.any Segment.caret := by
  rw [isCmdCommand_eq]
  induction rest generalizing first with
  | nil =>
    have hword := caretIn_word (hclean first List.mem_cons_self) []
    rw [List.append_nil] at hword
    simp [written, wordsOf, hword, caretIn]
  | cons next rest ih =>
    obtain ⟨gap, word⟩ := next
    have hgap : '^' ∉ gap.text := by
      cases gap <;> decide
    have hsplit : written first ((gap, word) :: rest) =
        quotedWord first ++ (gap.text ++ written word rest) := by
      simp [written]
    rw [hsplit, caretIn_word (hclean first List.mem_cons_self), caretIn_free hgap,
      ih (fun w hw => hclean w (List.mem_cons_of_mem first hw))]
    rfl

/-! ## Line ends in a written command -/

def crlfIn : Text → Bool
  | [] => false
  | c :: rest => (c = '\r' && rest.head? = some '\n') || crlfIn rest

theorem unixLines_cons {c : Char} {rest : Text} (h : ¬ (c = '\r' ∧ rest.head? = some '\n')) :
    unixLines (c :: rest) = c :: unixLines rest := by
  rw [unixLines.eq_def]
  split
  case h_1 heq =>
    obtain ⟨rfl, rfl⟩ := List.cons.inj heq
    exact absurd ⟨rfl, rfl⟩ h
  case h_2 heq =>
    obtain ⟨rfl, rfl⟩ := List.cons.inj heq
    rfl
  case h_3 heq => exact absurd heq (List.cons_ne_nil _ _)

theorem unixLines_free {front : Text} (h : '\r' ∉ front) (rest : Text) :
    unixLines (front ++ rest) = front ++ unixLines rest := by
  induction front with
  | nil => rfl
  | cons c front ih =>
    obtain ⟨hc, hfront⟩ := not_or.1 (List.mem_cons.not.1 h)
    rw [List.cons_append, unixLines_cons (fun hcr => hc hcr.1.symm), ih hfront, List.cons_append]

/-- What comes after a character of a literal is no LF unless the literal says
so. -/
theorem escaped_head? {text rest : Text} (h : text.head? ≠ some '\n') :
    (escaped text ++ '\'' :: rest).head? ≠ some '\n' := by
  cases text with
  | nil => simp [escaped]
  | cons c text =>
    by_cases hc : c = '\''
    · subst hc
      simp [escaped_quote]
    · rw [escaped_cons hc]
      exact h

theorem unixLines_escaped (text rest : Text) :
    unixLines (escaped text ++ '\'' :: rest) = escaped (unixLines text) ++ '\'' :: unixLines rest := by
  have hquotes : '\r' ∉ ['\'', '\\', '\'', '\''] := by decide
  induction text using unixLines.induct with
  | case1 text ih =>
    rw [escaped_cons (by decide), escaped_cons (by decide), unixLines, escaped_cons (by decide),
      List.cons_append, List.cons_append, unixLines, ih, List.cons_append]
  | case2 c text h ih =>
    have hpair : ¬ (c = '\r' ∧ text.head? = some '\n') := by
      rintro ⟨rfl, hhead⟩
      obtain ⟨d, more, rfl⟩ := List.exists_cons_of_ne_nil
        (fun hnil : text = [] => by rw [hnil] at hhead; exact absurd hhead (by simp))
      obtain rfl : d = '\n' := by simpa using hhead
      exact h more rfl rfl
    rw [unixLines_cons hpair]
    by_cases hc : c = '\''
    · subst hc
      rw [escaped_quote, escaped_quote, List.append_assoc, List.append_assoc,
        unixLines_free hquotes, ih]
    · rw [escaped_cons hc, escaped_cons hc, List.cons_append, List.cons_append,
        unixLines_cons fun hcr => escaped_head? (fun hlf => hpair ⟨hcr.1, hlf⟩) hcr.2, ih]
  | case3 => exact @unixLines_free ['\''] (by decide) rest

/-- A segment with the line ends the reader puts into it. -/
def Segment.unix : Segment → Segment
  | .literal text => .literal (unixLines text)
  | .placeholder name => .placeholder name

theorem unixLines_eq_nil {text : Text} : unixLines text = [] ↔ text = [] := by
  rw [unixLines.eq_def]
  split <;> simp

theorem not_mem_unixLines {text : Text} {c : Char} (h : c ∉ text) : c ∉ unixLines text := by
  induction text using unixLines.induct with
  | case1 text ih =>
    simp only [List.mem_cons, not_or] at h
    rw [unixLines]
    exact List.mem_cons.not.2 (not_or.2 ⟨h.2.1, ih h.2.2⟩)
  | case2 d text hd ih =>
    obtain ⟨hc, htext⟩ := not_or.1 (List.mem_cons.not.1 h)
    rw [unixLines]
    · exact List.mem_cons.not.2 (not_or.2 ⟨hc, ih htext⟩)
    · exact hd
  | case3 => exact h

theorem clean_unix {segments : List Segment} (h : Clean segments) :
    Clean (segments.map Segment.unix) := by
  intro text hmem
  obtain ⟨segment, hsegment, heq⟩ := List.mem_map.1 hmem
  cases segment with
  | literal source =>
    obtain rfl := Segment.literal.inj heq
    exact not_mem_unixLines (h source hsegment)
  | placeholder name => exact absurd heq (by simp [Segment.unix])

theorem unixLines_segment {segment : Segment} (hclean : Clean [segment]) (rest : Text) :
    unixLines (segment.quoted ++ rest) = segment.unix.quoted ++ unixLines rest := by
  cases segment with
  | literal text =>
    have hnul := hclean text List.mem_cons_self
    simp only [Segment.quoted, Segment.unix, singleQuoted, filter_clean hnul,
      filter_clean (not_mem_unixLines hnul), unixLines_eq_nil]
    split
    · rfl
    · simp only [List.cons_append, List.append_assoc, List.nil_append]
      rw [unixLines_cons (by simp), unixLines_escaped]
  | placeholder name =>
    have hfree : '\r' ∉ Segment.quoted (.placeholder name) := by
      have hname := not_mem_reference (c := '\r') (by decide) (by decide) (by decide) (by decide) name
      simp [Segment.quoted, hname]
    exact unixLines_free hfree rest

theorem unixLines_segments {segments : List Segment} (hclean : Clean segments) (rest : Text) :
    unixLines (segments.flatMap Segment.quoted ++ rest) =
      (segments.map Segment.unix).flatMap Segment.quoted ++ unixLines rest := by
  induction segments with
  | nil => rfl
  | cons segment segments ih =>
    rw [List.flatMap_cons, List.append_assoc, unixLines_segment (clean_head hclean),
      ih (clean_tail hclean), List.map_cons, List.flatMap_cons, List.append_assoc]

theorem unixLines_word {segments : List Segment} (hclean : Clean segments) (rest : Text) :
    unixLines (quotedWord segments ++ rest) =
      quotedWord (segments.map Segment.unix) ++ unixLines rest := by
  have hall := unixLines_segments hclean
  have hnil : (segments.map Segment.unix).flatMap Segment.quoted = [] ↔
      segments.flatMap Segment.quoted = [] := by
    have hwhole := hall []
    rw [List.append_nil, show unixLines [] = [] from rfl, List.append_nil] at hwhole
    rw [← hwhole, unixLines_eq_nil]
  unfold quotedWord
  simp only [hnil]
  split
  · exact unixLines_free (by decide) rest
  · exact hall rest

/-- Replacing the line ends of a written command is replacing those of its
literals. -/
theorem unixLines_written {first : List Segment} {rest : List (Gap × List Segment)}
    (hclean : ∀ word ∈ wordsOf first rest, Clean word) :
    unixLines (written first rest) =
      written (first.map Segment.unix)
        (rest.map fun (gap, word) => (gap, word.map Segment.unix)) := by
  induction rest generalizing first with
  | nil =>
    have hword := unixLines_word (hclean first List.mem_cons_self) []
    simpa [written, unixLines] using hword
  | cons next rest ih =>
    obtain ⟨gap, word⟩ := next
    have hgap : '\r' ∉ gap.text := by
      cases gap <;> decide
    have hsplit : ∀ first word more, written first ((gap, word) :: more) =
        quotedWord first ++ (gap.text ++ written word more) := by
      intro first word more
      simp [written]
    rw [hsplit, unixLines_word (hclean first List.mem_cons_self), unixLines_free hgap,
      ih (fun w hw => hclean w (List.mem_cons_of_mem first hw)), List.map_cons, hsplit]

end Gostman.Curl
