import Gostman.Importer.Bru
import Gostman.Lib.Lines
import Gostman.Lib.Trimmed
import Mathlib.Algebra.Order.BigOperators.Group.List
import Mathlib.Algebra.Order.Ring.Nat
/-!
# The entries of a block (`importer/bru.go`)

A block of a Bruno file is read line by line: a key, a colon and a value, or a
key with a value over several lines between two marks.  What a line gives is at
most what it holds, counted without blanks.
-/

namespace Gostman.Importer.Bru

open Gostman.Lib Gostman.Placeholders

/-! ## The reader -/

def localMark : Text := "@".toList
def annotationStart : Char := '('

def withoutLead (lead text : Text) : Text :=
  (Go.cutPrefix lead text).getD text

def isAnnotation (line : Text) : Bool :=
  match Go.cutPrefix localMark line with
  | none => false
  | some name =>
      match name.findIdx? (· == ':') with
      | none => true
      | some colon =>
          match name.findIdx? (· == annotationStart) with
          | none => false
          | some start => start < colon && [')'].isSuffixOf name

/-- The rest of `splitPair`, behind the mark of an entry that is off. -/
def splitMarked (lead line : Text) : Option (Text × Text) :=
  match Go.cutPrefix ['"'] line with
  | some quoted => do
      let (name, after) ← Go.cutAt '"' quoted
      let rest ← Go.cutPrefix [':'] (trimSpace after)
      return (lead ++ name, trimSpace rest)
  | none => (Go.cutAt ':' line).map fun (key, value) => (lead ++ trimSpace key, trimSpace value)

def splitPair (line : Text) : Option (Text × Text) :=
  match Go.cutPrefix disabledMark line with
  | some rest => splitMarked disabledMark rest
  | none => splitMarked [] line

def isIndent (c : Char) : Bool :=
  c == ' ' || c == '\t'

def leading (line : Text) : Nat :=
  (line.takeWhile isIndent).length

/-- The smallest indent of the lines that are not blank. -/
def indentOf (lines : List Text) : Option Nat :=
  (lines.filter (trimSpace · ≠ [])).foldl
    (fun indent line =>
      match indent with
      | none => some (leading line)
      | some least => some (if leading line < least then leading line else least)) none

def byteLength (line : Text) : Nat :=
  (line.map Char.utf8Size).sum

/-- A text without its first bytes.  A character that is cut, which only a
blank wider than a byte can be here, is dropped. -/
def dropBytes : Nat → Text → Text
  | 0, line => line
  | _ + 1, [] => []
  | count + 1, c :: rest => dropBytes (count + 1 - c.utf8Size) rest

def stripLine (indent : Option Nat) (line : Text) : Text :=
  match indent with
  | some least =>
      if byteLength line ≥ least && least > 0 then dropBytes least line
      else if trimSpace line = [] then [] else line
  | none => if trimSpace line = [] then [] else line

def dedent (lines : List Text) : Text :=
  Go.trimRight (fun c => c == '\n' || c == ' ') (['\n'].intercalate (lines.map (stripLine (indentOf lines))))

def untilMark (lines : List Text) : List Text :=
  lines.takeWhile (trimSpace · ≠ multilineMark)

def entryOf (key value : Text) : BruEntry where
  key := withoutLead localMark (withoutLead disabledMark key)
  value := value
  enabled := !disabledMark.isPrefixOf key

/-- One turn of the loop of `bruEntries`: the entry it appends, and the lines
that are left. -/
def nextEntry (first : Text) (rest : List Text) : Option BruEntry × List Text :=
  let line := trimSpace first
  if isAnnotation line then (none, rest)
  else
    match splitPair line with
    | none => (none, rest)
    | some (key, value) =>
        if value = multilineMark then
          (some (entryOf key (dedent (untilMark rest))), rest.drop ((untilMark rest).length + 1))
        else (some (entryOf key value), rest)

theorem nextEntry_suffix (first : Text) (rest : List Text) : (nextEntry first rest).2 <:+ rest := by
  unfold nextEntry
  dsimp only
  split
  · exact List.suffix_refl rest
  · split
    · exact List.suffix_refl rest
    · split
      · exact List.drop_suffix _ _
      · exact List.suffix_refl rest

def bruEntries : List Text → List BruEntry
  | [] => []
  | first :: rest => (nextEntry first rest).1.toList ++ bruEntries (nextEntry first rest).2
termination_by lines => lines.length
decreasing_by
  have hlength := (nextEntry_suffix first rest).length_le
  simp only [List.length_cons]
  omega

theorem bruEntries_nil : bruEntries [] = [] := by
  rw [bruEntries]

theorem bruEntries_cons (first : Text) (rest : List Text) :
    bruEntries (first :: rest) = (nextEntry first rest).1.toList ++ bruEntries (nextEntry first rest).2 := by
  rw [bruEntries]

/-! ## What is not blank -/

def inked (text : Text) : Nat :=
  text.countP fun c => !Go.isSpace c

@[simp] theorem inked_nil : inked [] = 0 := rfl

@[simp] theorem inked_append (first second : Text) : inked (first ++ second) = inked first + inked second :=
  List.countP_append

theorem inked_cons (c : Char) (text : Text) : inked (c :: text) = inked text + if Go.isSpace c then 0 else 1 := by
  unfold inked
  rw [List.countP_cons]
  cases Go.isSpace c <;> rfl

theorem inked_le_of_sublist {first second : Text} (h : first.Sublist second) : inked first ≤ inked second :=
  h.countP_le

theorem inked_trimSpace (text : Text) : inked (trimSpace text) = inked text := by
  change inked (trimmed Go.isSpace text) = _
  have hright : ∀ items : Text, inked (items.rdropWhile Go.isSpace) = inked items := by
    intro items
    induction items using List.reverseRecOn with
    | nil => rfl
    | append_singleton rest last ih =>
        by_cases hlast : Go.isSpace last = true
        · rw [List.rdropWhile_concat_pos _ _ last hlast, ih]
          simp [inked_cons, hlast]
        · rw [List.rdropWhile_concat_neg _ _ last hlast]
  induction text with
  | nil => rfl
  | cons first rest ih =>
      by_cases hfirst : Go.isSpace first = true
      · rw [trimmed_cons_of_pos hfirst, ih, inked_cons, if_pos hfirst, Nat.add_zero]
      · rw [trimmed_cons (Bool.not_eq_true _ ▸ hfirst), inked_cons, inked_cons, hright]

theorem inked_intercalate (lines : List Text) : inked (['\n'].intercalate lines) = (lines.map inked).sum := by
  induction lines with
  | nil => rfl
  | cons line rest ih =>
      cases rest with
      | nil => simp
      | cons next more =>
          rw [List.intercalate_cons_cons, inked_append, inked_append, ih]
          simp [inked_cons, show Go.isSpace '\n' = true by decide]

def weight (line : Text) : Nat :=
  if trimSpace line = multilineMark then 0 else inked line

def weights (lines : List Text) : Nat :=
  (lines.map weight).sum

theorem weights_append (first second : List Text) : weights (first ++ second) = weights first + weights second := by
  simp [weights]

/-! ## What a line gives -/

theorem dropBytes_suffix (count : Nat) (line : Text) : dropBytes count line <:+ line := by
  fun_induction dropBytes count line with
  | case1 line => exact List.suffix_refl line
  | case2 => exact List.suffix_refl []
  | case3 count c rest ih => exact ih.trans (List.suffix_cons c rest)

theorem stripLine_suffix (indent : Option Nat) (line : Text) : stripLine indent line <:+ line := by
  unfold stripLine
  split
  · split_ifs
    · exact dropBytes_suffix _ _
    · exact List.nil_suffix
    · exact List.suffix_refl line
  · split_ifs
    · exact List.nil_suffix
    · exact List.suffix_refl line

theorem inked_dedent (lines : List Text) : inked (dedent lines) ≤ (lines.map inked).sum := by
  calc inked (dedent lines)
      ≤ inked (['\n'].intercalate (lines.map (stripLine (indentOf lines)))) :=
        inked_le_of_sublist (List.rdropWhile_prefix _ _).sublist
    _ = ((lines.map (stripLine (indentOf lines))).map inked).sum := inked_intercalate _
    _ ≤ (lines.map inked).sum := by
        rw [List.map_map]
        apply List.sum_le_sum
        intro line _
        exact inked_le_of_sublist (stripLine_suffix _ line).sublist

theorem splitMarked_inked {lead line key value : Text} (h : splitMarked lead line = some (key, value)) :
    inked key + inked value + 1 ≤ inked lead + inked line := by
  unfold splitMarked at h
  cases hquoted : Go.cutPrefix ['"'] line with
  | none =>
      rw [hquoted] at h
      obtain ⟨⟨front, rest⟩, hcut, heq⟩ := Option.map_eq_some_iff.1 h
      obtain ⟨rfl, rfl⟩ := Prod.mk.inj heq
      rw [(Go.cutAt_eq_some hcut).1]
      simp only [inked_append, inked_trimSpace, inked_cons, show Go.isSpace ':' = false by decide]
      simp
      omega
  | some quoted =>
      rw [hquoted] at h
      simp only [Option.bind_eq_bind, Option.bind_eq_some_iff, Option.pure_def, Option.some.injEq, Prod.mk.injEq] at h
      obtain ⟨⟨name, after⟩, hcut, rest, hrest, rfl, rfl⟩ := h
      have hafter : inked after = inked rest + 1 := by
        rw [← inked_trimSpace, Go.cutPrefix_eq_some hrest]
        simp [inked_cons, show Go.isSpace ':' = false by decide]
      rw [Go.cutPrefix_eq_some hquoted, (Go.cutAt_eq_some hcut).1]
      simp only [inked_append, inked_trimSpace, inked_cons, inked_nil]
      simp
      omega

theorem splitPair_inked {line key value : Text} (h : splitPair line = some (key, value)) :
    inked key + inked value + 1 ≤ inked line := by
  unfold splitPair at h
  cases hlead : Go.cutPrefix disabledMark line with
  | none =>
      rw [hlead] at h
      simpa using splitMarked_inked h
  | some rest =>
      rw [hlead] at h
      rw [Go.cutPrefix_eq_some hlead, inked_append]
      exact splitMarked_inked h

theorem withoutLead_suffix (lead text : Text) : withoutLead lead text <:+ text := by
  unfold withoutLead
  cases hcut : Go.cutPrefix lead text with
  | none => exact List.suffix_refl text
  | some rest =>
      rw [Go.cutPrefix_eq_some hcut]
      exact List.suffix_append _ _

theorem entryOf_key_suffix (key value : Text) : (entryOf key value).key <:+ key :=
  (withoutLead_suffix _ _).trans (withoutLead_suffix _ _)

theorem weights_le_of_prefix {first second : List Text} (h : first <+: second) : weights first ≤ weights second := by
  obtain ⟨more, rfl⟩ := h
  rw [weights_append]
  omega

theorem untilMark_isPrefix (lines : List Text) : untilMark lines <+: lines.take ((untilMark lines).length + 1) := by
  have hstarts : untilMark lines <+: lines := List.takeWhile_prefix _
  conv_lhs => rw [List.prefix_iff_eq_take.1 hstarts]
  exact List.take_prefix_take_left (Nat.le_succ _)

theorem weights_untilMark (lines : List Text) : weights (untilMark lines) = ((untilMark lines).map inked).sum := by
  unfold weights
  congr 1
  apply List.map_congr_left
  intro line hmem
  exact if_neg (by simpa using List.mem_takeWhile_imp hmem)

/-- An entry is no more than the lines it was read from. -/
theorem nextEntry_inked {first : Text} {rest left : List Text} {entry : BruEntry}
    (h : nextEntry first rest = (some entry, left)) :
    ∃ used, first :: rest = used ++ left ∧ inked entry.key + inked entry.value + 1 ≤ weights used := by
  unfold nextEntry at h
  dsimp only at h
  split at h
  · cases h
  · cases hpair : splitPair (trimSpace first) with
    | none =>
        rw [hpair] at h
        cases h
    | some pair =>
        obtain ⟨key, value⟩ := pair
        rw [hpair] at h
        have hinked := splitPair_inked hpair
        rw [inked_trimSpace] at hinked
        have hweight : weight first = inked first := by
          apply if_neg
          intro hmark
          rw [hmark] at hpair
          cases hpair
        dsimp only at h
        split_ifs at h with hmulti
        · obtain ⟨hentry, rfl⟩ := Prod.mk.inj h
          rw [← Option.some.inj hentry]
          have hkey := inked_le_of_sublist (entryOf_key_suffix key (dedent (untilMark rest))).sublist
          have hvalue : inked (entryOf key (dedent (untilMark rest))).value ≤ weights (untilMark rest) := by
            rw [weights_untilMark]
            exact inked_dedent _
          refine ⟨first :: rest.take ((untilMark rest).length + 1), ?_, ?_⟩
          · rw [List.cons_append, List.take_append_drop]
          · have htake := weights_le_of_prefix (untilMark_isPrefix rest)
            have hcons : weights (first :: rest.take ((untilMark rest).length + 1)) =
                inked first + weights (rest.take ((untilMark rest).length + 1)) := by
              rw [← hweight]
              rfl
            omega
        · obtain ⟨hentry, rfl⟩ := Prod.mk.inj h
          rw [← Option.some.inj hentry]
          have hkey := inked_le_of_sublist (entryOf_key_suffix key value).sublist
          refine ⟨[first], rfl, ?_⟩
          change _ + inked value + 1 ≤ weight first + 0
          omega

theorem nextEntry_none {first : Text} {rest left : List Text} (h : nextEntry first rest = (none, left)) : left = rest := by
  unfold nextEntry at h
  dsimp only at h
  split at h
  · exact (Prod.mk.inj h).2.symm
  · split at h
    · exact (Prod.mk.inj h).2.symm
    · split at h <;> cases h

/-- The first entry was read from some lines, and the others from those left. -/
theorem bruEntries_first {lines : List Text} {entry : BruEntry} {more : List BruEntry}
    (h : bruEntries lines = entry :: more) :
    ∃ skipped used left, lines = skipped ++ used ++ left ∧
      inked entry.key + inked entry.value + 1 ≤ weights used ∧ bruEntries left = more := by
  induction lines with
  | nil => simp [bruEntries_nil] at h
  | cons first rest ih =>
      rw [bruEntries_cons] at h
      cases hnext : nextEntry first rest with
      | mk found left =>
          rw [hnext] at h
          cases found with
          | none =>
              obtain rfl := nextEntry_none hnext
              obtain ⟨skipped, used, left, rfl, hinked, hleft⟩ := ih h
              exact ⟨first :: skipped, used, left, rfl, hinked, hleft⟩
          | some found =>
              obtain ⟨rfl, hleft⟩ := List.cons.inj h
              obtain ⟨used, hused, hinked⟩ := nextEntry_inked hnext
              exact ⟨[], used, left, hused, hinked, hleft⟩

/-! ## Characters of the values -/

theorem splitMarked_value {lead line key value : Text} (h : splitMarked lead line = some (key, value)) :
    ∀ c ∈ value, c ∈ line := by
  intro c hc
  unfold splitMarked at h
  cases hquoted : Go.cutPrefix ['"'] line with
  | none =>
      rw [hquoted] at h
      obtain ⟨⟨front, rest⟩, hcut, heq⟩ := Option.map_eq_some_iff.1 h
      obtain ⟨rfl, rfl⟩ := Prod.mk.inj heq
      rw [(Go.cutAt_eq_some hcut).1]
      exact List.mem_append_right _ (List.mem_cons_of_mem _ (mem_of_mem_trimmed hc))
  | some quoted =>
      rw [hquoted] at h
      simp only [Option.bind_eq_bind, Option.bind_eq_some_iff, Option.pure_def, Option.some.injEq, Prod.mk.injEq] at h
      obtain ⟨⟨name, after⟩, hcut, rest, hrest, rfl, rfl⟩ := h
      have hafter : c ∈ trimSpace after := by
        rw [Go.cutPrefix_eq_some hrest]
        exact List.mem_append_right _ (mem_of_mem_trimmed hc)
      rw [Go.cutPrefix_eq_some hquoted, (Go.cutAt_eq_some hcut).1]
      simp [show c ∈ after from mem_of_mem_trimmed hafter]

theorem splitPair_value {line key value : Text} (h : splitPair line = some (key, value)) : ∀ c ∈ value, c ∈ line := by
  unfold splitPair at h
  cases hlead : Go.cutPrefix disabledMark line with
  | none =>
      rw [hlead] at h
      exact splitMarked_value h
  | some rest =>
      rw [hlead] at h
      intro c hc
      rw [Go.cutPrefix_eq_some hlead]
      exact List.mem_append_right _ (splitMarked_value h c hc)

theorem mem_dedent {lines : List Text} {c : Char} (h : c ∈ dedent lines) : c = '\n' ∨ ∃ line ∈ lines, c ∈ line := by
  rcases mem_intercalate ((List.rdropWhile_prefix _ _).subset h) with hbreak | ⟨line, hline, hc⟩
  · exact .inl (List.mem_singleton.1 hbreak)
  · obtain ⟨line, hmem, rfl⟩ := List.mem_map.1 hline
    exact .inr ⟨line, hmem, (stripLine_suffix _ line).subset hc⟩

theorem nextEntry_value {first : Text} {rest left : List Text} {entry : BruEntry}
    (h : nextEntry first rest = (some entry, left)) {c : Char} (hc : c ∈ entry.value) :
    c = '\n' ∨ ∃ line ∈ first :: rest, c ∈ line := by
  unfold nextEntry at h
  dsimp only at h
  split at h
  · cases h
  · cases hpair : splitPair (trimSpace first) with
    | none =>
        rw [hpair] at h
        cases h
    | some pair =>
        obtain ⟨key, value⟩ := pair
        rw [hpair] at h
        dsimp only at h
        split_ifs at h
        · obtain ⟨hentry, -⟩ := Prod.mk.inj h
          rw [← Option.some.inj hentry] at hc
          apply (mem_dedent hc).imp_right
          rintro ⟨line, hmem, hline⟩
          exact ⟨line, List.mem_cons_of_mem _ ((List.takeWhile_prefix _).subset hmem), hline⟩
        · obtain ⟨hentry, -⟩ := Prod.mk.inj h
          rw [← Option.some.inj hentry] at hc
          exact .inr ⟨first, List.mem_cons_self, mem_of_mem_trimmed (splitPair_value hpair c hc)⟩

/-- Every character of a value stands in one of the lines, or breaks them. -/
theorem mem_value_of_bruEntries {lines : List Text} {entry : BruEntry} (h : entry ∈ bruEntries lines) {c : Char}
    (hc : c ∈ entry.value) : c = '\n' ∨ ∃ line ∈ lines, c ∈ line := by
  fun_induction bruEntries lines with
  | case1 => cases h
  | case2 first rest ih =>
      rcases List.mem_append.1 h with hfound | hleft
      · apply nextEntry_value (Prod.ext (Option.mem_toList.1 hfound) rfl) hc
      · apply (ih hleft).imp_right
        rintro ⟨line, hmem, hline⟩
        exact ⟨line, List.mem_cons_of_mem _ ((nextEntry_suffix first rest).subset hmem), hline⟩

/-! ## Indents -/

theorem indentOf_foldl (lines : List Text) (least : Nat) :
    ∃ n, lines.foldl (fun indent line =>
        match indent with
        | none => some (leading line)
        | some least => some (if leading line < least then leading line else least)) (some least) = some n ∧
      n ≤ least ∧ (∀ line ∈ lines, n ≤ leading line) ∧ (n = least ∨ ∃ line ∈ lines, n = leading line) := by
  induction lines generalizing least with
  | nil => exact ⟨least, rfl, le_refl _, by simp, .inl rfl⟩
  | cons line rest ih =>
      obtain ⟨n, hfold, hle, hall, hsome⟩ := ih (if leading line < least then leading line else least)
      refine ⟨n, hfold, ?_, ?_, ?_⟩
      · split_ifs at hle <;> omega
      · intro other hother
        rcases List.mem_cons.1 hother with rfl | hother
        · split_ifs at hle <;> omega
        · exact hall other hother
      · rcases hsome with heq | ⟨other, hother, heq⟩
        · split_ifs at heq
          · exact .inr ⟨line, List.mem_cons_self, heq⟩
          · exact .inl heq
        · exact .inr ⟨other, List.mem_cons_of_mem _ hother, heq⟩

/-- The indent is the smallest of those of the lines that are not blank. -/
theorem indentOf_spec {lines : List Text} {first : Text} (hmem : first ∈ lines) (hfirst : trimSpace first ≠ []) :
    ∃ n, indentOf lines = some n ∧ (∀ line ∈ lines, trimSpace line ≠ [] → n ≤ leading line) ∧
      ∃ line ∈ lines, trimSpace line ≠ [] ∧ n = leading line := by
  have hfilter : ∀ line, line ∈ lines.filter (trimSpace · ≠ []) ↔ line ∈ lines ∧ trimSpace line ≠ [] := by
    simp [List.mem_filter]
  have hin := (hfilter first).2 ⟨hmem, hfirst⟩
  unfold indentOf
  cases hkept : lines.filter (trimSpace · ≠ []) with
  | nil =>
      rw [hkept] at hin
      cases hin
  | cons line rest =>
      rw [hkept] at hfilter
      obtain ⟨n, hfold, hle, hall, hsome⟩ := indentOf_foldl rest (leading line)
      refine ⟨n, hfold, ?_, ?_⟩
      · intro other hother hblank
        rcases List.mem_cons.1 ((hfilter other).2 ⟨hother, hblank⟩) with rfl | hrest
        · exact hle
        · exact hall other hrest
      · rcases hsome with heq | ⟨other, hother, heq⟩
        · have hline := (hfilter line).1 List.mem_cons_self
          exact ⟨line, hline.1, hline.2, heq⟩
        · have hline := (hfilter other).1 (List.mem_cons_of_mem _ hother)
          exact ⟨other, hline.1, hline.2, heq⟩

theorem dropBytes_leading {count : Nat} {line : Text} (h : count ≤ leading line) : dropBytes count line = line.drop count := by
  induction line generalizing count with
  | nil =>
      obtain rfl : count = 0 := by simpa [leading] using h
      rfl
  | cons c rest ih =>
      cases count with
      | zero => rfl
      | succ count =>
          unfold leading at h
          by_cases hc : isIndent c = true
          · rw [List.takeWhile_cons_of_pos hc, List.length_cons] at h
            have hsize : c.utf8Size = 1 := by
              simp only [isIndent, Bool.or_eq_true, beq_iff_eq] at hc
              rcases hc with rfl | rfl <;> decide
            rw [dropBytes, hsize, Nat.add_sub_cancel, List.drop_succ_cons]
            exact ih (Nat.le_of_succ_le_succ h)
          · rw [List.takeWhile_cons_of_neg hc] at h
            simp at h

theorem mem_drop_leading {count : Nat} {line : Text} (h : count ≤ leading line) {c : Char} (hc : c ∈ line)
    (hink : Go.isSpace c = false) : c ∈ line.drop count := by
  rw [← List.take_append_drop count line] at hc
  rcases List.mem_append.1 hc with htake | hdrop
  · exfalso
    have hstarts : line.take count <+: line.takeWhile isIndent := by
      apply List.prefix_of_prefix_length_le (List.take_prefix _ _) (List.takeWhile_prefix _)
      exact (List.length_take_le _ _).trans h
    have hindent := List.mem_takeWhile_imp (hstarts.subset htake)
    simp only [isIndent, Bool.or_eq_true, beq_iff_eq] at hindent
    rcases hindent with rfl | rfl <;> exact absurd hink (by decide)
  · exact hdrop

theorem mem_dedent_of_mem {lines : List Text} {line : Text} (hline : line ∈ lines) {c : Char} (hc : c ∈ line)
    (hink : Go.isSpace c = false) : c ∈ dedent lines := by
  have hblank : trimSpace line ≠ [] := by
    intro hnil
    rw [trimmed_eq_nil_iff.1 hnil c hc] at hink
    cases hink
  obtain ⟨n, hindent, hall, -⟩ := indentOf_spec hline hblank
  have hstrip : c ∈ stripLine (indentOf lines) line := by
    rw [hindent]
    unfold stripLine
    dsimp only
    split_ifs
    · rw [dropBytes_leading (hall line hline hblank)]
      exact mem_drop_leading (hall line hline hblank) hc hink
    · exact hc
  have hjoin : c ∈ ['\n'].intercalate (lines.map (stripLine (indentOf lines))) :=
    (infix_intercalate '\n' (List.mem_map_of_mem hline)).subset hstrip
  rw [← @List.rdropWhile_append_rtakeWhile _ (fun c => c == '\n' || c == ' ') (['\n'].intercalate _)] at hjoin
  rcases List.mem_append.1 hjoin with hkept | hcut
  · exact hkept
  · exfalso
    have hbreak := List.mem_rtakeWhile_imp hcut
    simp only [Bool.or_eq_true, beq_iff_eq] at hbreak
    rcases hbreak with rfl | rfl <;> exact absurd hink (by decide)

end Gostman.Importer.Bru
