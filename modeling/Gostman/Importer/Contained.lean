import Gostman.Lib.Decided
import Gostman.Importer.Bru
import Gostman.Lib.Lines
/-!
# Nothing breaks out of a Bruno block

Each line the writer puts into a block is empty or starts with a blank, and
has no line break in it.  So none of them closes the block, and the reader
finds the blocks that were written.
-/

namespace Gostman.Importer.Bru

open Gostman.Lib Gostman.Placeholders

open scoped Gostman.Lib.Decided

/-! ## What is written -/

inductive Part where
  | dict (entries : List BruEntry)
  | block (body : Text)
  | names (items : List Text)

structure Call where
  name : Text
  known : name ∈ brunoBlocks
  part : Part

def Call.write (out : Text) (call : Call) : Text :=
  match call.part with
  | .dict entries => dict out call.name entries
  | .block body => block out call.name body
  | .names items => names out call.name items

def bruText (calls : List Call) : Text :=
  finished (calls.foldl Call.write [])

/-! ## The lines of a block -/

/-- The lines of a text, each with an indent unless it is empty. -/
def indented (body indent : Text) : List Text :=
  ((Go.normalizeNewlines body).splitOn '\n').map fun line =>
    if line ≠ [] then indent ++ line else line

def entryLines (entry : BruEntry) : List Text :=
  match safeKey entry.key with
  | none => []
  | some key =>
      let key := markedKey entry key
      if entry.value.any fun c => c == '\r' || c == '\n' then
        (bruIndent ++ key ++ ": ".toList ++ multilineMark) ::
          (indented (guardTerminator entry.value) (bruIndent ++ bruIndent) ++
            [bruIndent ++ multilineMark])
      else [bruIndent ++ key ++ ": ".toList ++ singleLine entry.value]

def nameLines : List Text → List Text
  | [] => []
  | [last] => [bruIndent ++ last]
  | name :: next :: rest => (bruIndent ++ name ++ ",".toList) :: nameLines (next :: rest)

/-- The lines between the brackets, none where nothing is written. -/
def Part.body : Part → List Text
  | .dict entries => entries.flatMap entryLines
  | .block body => if trimSpace body = [] then [] else indented (stripControls body) bruIndent
  | .names items => nameLines (keptNames items)

def Part.opener : Part → Text
  | .names _ => " [".toList
  | _ => " \x7b".toList

def Part.closer : Part → Text
  | .names _ => "]".toList
  | _ => "\x7d".toList

/-- The lines of a call, with the empty one behind its block. -/
def Call.lines (call : Call) : List Text :=
  if call.part.body = [] then []
  else (call.name ++ call.part.opener) :: (call.part.body ++ [call.part.closer, []])

def bodiesOf (calls : List Call) (name : Text) : List (List Text) :=
  ((calls.filter fun call => call.name = name).map (·.part.body)).filter (· ≠ [])

/-! ## Lines that stay inside -/

structure Tame (line : Text) : Prop where
  start : line = [] ∨ [' '] <+: line
  unbroken : ∀ c ∈ line, c ≠ '\n' ∧ c ≠ '\r'

theorem tame_of_indent {rest : Text} (h : ∀ c ∈ rest, c ≠ '\n' ∧ c ≠ '\r') :
    Tame (bruIndent ++ rest) where
  start := .inr ⟨' ' :: rest, rfl⟩
  unbroken := by
    intro c hc
    rcases List.mem_append.1 hc with hindent | hrest
    · have hblank : c = ' ' := by simpa [bruIndent] using hindent
      subst hblank
      decide
    · exact h c hrest

theorem singleLine_unbroken (value : Text) : ∀ c ∈ singleLine value, c ≠ '\n' ∧ c ≠ '\r' := by
  intro c hc
  obtain ⟨d, -, rfl⟩ := List.mem_map.1 hc
  split_ifs with hblank
  · decide
  · constructor <;> (rintro rfl; exact hblank (by decide))

theorem mem_trimSpace {text : Text} {c : Char} (h : c ∈ trimSpace text) : c ∈ text :=
  (List.dropWhile_sublist _).mem ((List.rdropWhile_prefix _ _).subset h)

theorem safeKey_unbroken {key cleaned : Text} (h : safeKey key = some cleaned) :
    ∀ c ∈ cleaned, c ≠ '\n' ∧ c ≠ '\r' := by
  simp only [safeKey] at h
  split_ifs at h
  obtain rfl := Option.some.inj h
  intro c hc
  exact singleLine_unbroken key c (mem_trimSpace hc)

theorem stripControls_no_return (value : Text) : '\r' ∉ stripControls value := by
  intro hmem
  obtain ⟨c, hc, hstrip⟩ := List.mem_map.1 hmem
  obtain ⟨d, -, rfl⟩ := List.mem_map.1 hc
  by_cases hd : d = '\r'
  · simp [hd] at hstrip
  · simp only [hd, if_false] at hstrip
    split_ifs at hstrip
    · exact absurd hstrip (by decide)
    · exact hd hstrip

theorem mem_replaceFirst {old new text : Text} {c : Char} (h : c ∈ Go.replaceFirst old new text) :
    c ∈ new ∨ c ∈ text := by
  induction text with
  | nil =>
    unfold Go.replaceFirst at h
    split_ifs at h
    · exact .inl h
    · exact .inr h
  | cons d rest ih =>
    unfold Go.replaceFirst at h
    split_ifs at h
    · exact (List.mem_append.1 h).imp_right List.mem_of_mem_drop
    · rcases List.mem_cons.1 h with rfl | hrest
      · exact .inr (List.mem_cons_self ..)
      · exact (ih hrest).imp_right (List.mem_cons_of_mem _)

theorem guardTerminator_no_return (value : Text) : '\r' ∉ guardTerminator value := by
  intro hmem
  rcases mem_intercalate hmem with hsep | ⟨guarded, hguarded, hc⟩
  · exact absurd hsep (by decide)
  · obtain ⟨line, hline, rfl⟩ := List.mem_map.1 hguarded
    have hold : '\r' ∉ line := fun h =>
      stripControls_no_return value (mem_splitOn hline _ h).1
    split_ifs at hc
    · rcases mem_replaceFirst hc with hnew | hline'
      · exact absurd hnew (by decide)
      · exact hold hline'
    · exact hold hc

/-- The lines of a text without returns are tame once they are indented. -/
theorem tame_of_mem_indented {body more : Text} (hbody : '\r' ∉ body)
    (hmore : ∀ c ∈ more, c ≠ '\n' ∧ c ≠ '\r') {line : Text}
    (h : line ∈ indented body (bruIndent ++ more)) : Tame line := by
  obtain ⟨old, hold, rfl⟩ := List.mem_map.1 h
  by_cases hempty : old = []
  · simp only [hempty, ne_eq, not_true_eq_false, if_false]
    exact ⟨.inl rfl, by simp⟩
  · rw [if_pos hempty, List.append_assoc]
    apply tame_of_indent
    intro c hc
    rcases List.mem_append.1 hc with hindent | hline
    · exact hmore c hindent
    · obtain ⟨hmem, hne⟩ := mem_splitOn hold c hline
      refine ⟨hne, ?_⟩
      rintro rfl
      exact hbody (Go.mem_normalizeNewlines hmem)

theorem unbroken_append {first second : Text} (hfirst : ∀ c ∈ first, c ≠ '\n' ∧ c ≠ '\r')
    (hsecond : ∀ c ∈ second, c ≠ '\n' ∧ c ≠ '\r') : ∀ c ∈ first ++ second, c ≠ '\n' ∧ c ≠ '\r' := by
  intro c hc
  exact (List.mem_append.1 hc).elim (hfirst c) (hsecond c)

theorem tame_of_mem_entryLines {entry : BruEntry} {line : Text} (h : line ∈ entryLines entry) :
    Tame line := by
  unfold entryLines at h
  split at h
  · simp at h
  · rename_i key hkey
    have hmarked : ∀ c ∈ markedKey entry key, c ≠ '\n' ∧ c ≠ '\r' := by
      unfold markedKey
      split_ifs
      · exact safeKey_unbroken hkey
      · exact unbroken_append (by decide) (safeKey_unbroken hkey)
    simp only at h
    split_ifs at h
    · simp only [List.mem_cons, List.mem_append, List.not_mem_nil, or_false] at h
      rcases h with rfl | hbody | rfl
      · rw [List.append_assoc, List.append_assoc]
        exact tame_of_indent (unbroken_append hmarked (by decide))
      · exact tame_of_mem_indented (guardTerminator_no_return _) (by decide) hbody
      · exact tame_of_indent (by decide)
    · obtain rfl := List.mem_singleton.1 h
      rw [List.append_assoc, List.append_assoc]
      exact tame_of_indent (unbroken_append hmarked
        (unbroken_append (by decide) (singleLine_unbroken _)))

theorem keptNames_unbroken {items : List Text} {name : Text} (h : name ∈ keptNames items) :
    ∀ c ∈ name, c ≠ '\n' ∧ c ≠ '\r' := by
  obtain ⟨item, -, hitem⟩ := List.mem_filterMap.1 h
  exact safeKey_unbroken (Option.filter_eq_some_iff.1 hitem).1

theorem tame_of_mem_nameLines {kept : List Text} (hkept : ∀ name ∈ kept, ∀ c ∈ name, c ≠ '\n' ∧ c ≠ '\r')
    {line : Text} (h : line ∈ nameLines kept) : Tame line := by
  induction kept using nameLines.induct with
  | case1 => simp [nameLines] at h
  | case2 last =>
    obtain rfl := List.mem_singleton.1 h
    exact tame_of_indent (hkept last (by simp))
  | case3 name next rest ih =>
    rw [nameLines, List.mem_cons] at h
    rcases h with rfl | hrest
    · rw [List.append_assoc]
      exact tame_of_indent (unbroken_append (hkept name (by simp)) (by decide))
    · exact ih (fun other hother => hkept other (List.mem_cons_of_mem _ hother)) hrest

theorem tame_of_mem_body {part : Part} {line : Text} (h : line ∈ part.body) : Tame line := by
  cases part with
  | dict entries =>
    obtain ⟨entry, -, hline⟩ := List.mem_flatMap.1 h
    exact tame_of_mem_entryLines hline
  | block body =>
    simp only [Part.body] at h
    split_ifs at h
    · simp at h
    · have hindent : bruIndent = bruIndent ++ [] := rfl
      rw [hindent] at h
      exact tame_of_mem_indented (stripControls_no_return body) (by simp) h
  | names items => exact tame_of_mem_nameLines (fun name => keptNames_unbroken) h

/-! ## The text is made of these lines -/

theorem indentLines_ended (body indent : Text) :
    indentLines body indent ++ "\n".toList = ended '\n' (indented body indent) := by
  apply intercalate_concat
  simp [List.splitOn_ne_nil]

theorem entryText_ended (entry : BruEntry) : entryText entry = ended '\n' (entryLines entry) := by
  unfold entryText entryLines
  cases safeKey entry.key with
  | none => rfl
  | some key =>
    simp only
    split_ifs
    · rw [ended_cons, ended_append, ← indentLines_ended]
      simp [ended]
    · simp [ended]

theorem dictLines_ended (entries : List BruEntry) :
    dictLines entries = ended '\n' (entries.flatMap entryLines) := by
  rw [ended_flatMap]
  exact congrArg (List.flatMap · entries) (funext entryText_ended)

theorem nameLines_ended {kept : List Text} (h : kept ≠ []) :
    bruIndent ++ (",\n".toList ++ bruIndent).intercalate kept ++ "\n".toList =
      ended '\n' (nameLines kept) := by
  induction kept using nameLines.induct with
  | case1 => exact absurd rfl h
  | case2 last => simp [nameLines, ended]
  | case3 name next rest ih =>
    rw [nameLines, ended_cons, ← ih (List.cons_ne_nil _ _), List.intercalate_cons_cons]
    simp

theorem ended_eq_nil {lines : List Text} : ended '\n' lines = [] ↔ lines = [] := by
  cases lines with
  | nil => simp [ended]
  | cons line rest => simp [ended]

theorem nameLines_eq_nil {kept : List Text} : nameLines kept = [] ↔ kept = [] := by
  match kept with
  | [] => simp [nameLines]
  | [_] => simp [nameLines]
  | _ :: _ :: _ => simp [nameLines]

theorem Call.lines_of_empty (call : Call) (h : call.part.body = []) : call.lines = [] :=
  if_pos h

theorem Call.ended_lines (call : Call) (h : call.part.body ≠ []) :
    ended '\n' call.lines =
      call.name ++ call.part.opener ++ "\n".toList ++ ended '\n' call.part.body ++
        call.part.closer ++ "\n\n".toList := by
  rw [Call.lines, if_neg h, ended_cons, ended_append]
  simp [ended]

theorem write_eq (out : Text) (call : Call) : call.write out = out ++ ended '\n' call.lines := by
  obtain ⟨name, known, part⟩ := call
  cases part with
  | dict entries =>
    by_cases hbody : entries.flatMap entryLines = []
    · rw [Call.lines_of_empty ⟨name, known, .dict entries⟩ hbody]
      simp [Call.write, dict, writeSection, dictLines_ended, hbody, ended]
    · rw [Call.ended_lines ⟨name, known, .dict entries⟩ hbody]
      simp [Call.write, dict, writeSection, dictLines_ended, ended_eq_nil, hbody, Part.body,
        Part.opener, Part.closer]
  | block body =>
    by_cases hblank : trimSpace body = []
    · rw [Call.lines_of_empty ⟨name, known, .block body⟩ (if_pos hblank)]
      simp [Call.write, block, hblank, ended]
    · have hbody : (Part.block body).body = indented (stripControls body) bruIndent := if_neg hblank
      have hlines : indented (stripControls body) bruIndent ≠ [] := by
        simp [indented, List.splitOn_ne_nil]
      rw [Call.ended_lines ⟨name, known, .block body⟩ (hbody ▸ hlines)]
      simp [Call.write, block, hblank, hbody, ← indentLines_ended, Part.opener, Part.closer]
  | names items =>
    by_cases hkept : keptNames items = []
    · rw [Call.lines_of_empty ⟨name, known, .names items⟩ (nameLines_eq_nil.2 hkept)]
      simp [Call.write, names, hkept, ended]
    · rw [Call.ended_lines ⟨name, known, .names items⟩ (mt nameLines_eq_nil.1 hkept)]
      simp [Call.write, names, hkept, Part.body, ← nameLines_ended hkept, Part.opener, Part.closer]

theorem foldl_write (calls : List Call) (out : Text) :
    calls.foldl Call.write out = out ++ ended '\n' (calls.flatMap Call.lines) := by
  induction calls generalizing out with
  | nil => simp [ended]
  | cons call rest ih =>
    rw [List.foldl_cons, write_eq, ih, List.flatMap_cons, ended_append, List.append_assoc]

/-! ## Reading the lines -/

theorem name_plain {name : Text} (h : name ∈ brunoBlocks) :
    name ≠ [] ∧ ∀ c ∈ name, c ≠ '\n' ∧ c ≠ '\r' ∧ c ≠ ' ' ∧ c ≠ '\t' := by
  revert name
  decide

theorem trimEnd_of_getLast {line : Text} (last : Char) (h : line.getLast? = some last)
    (hlast : last ≠ ' ' ∧ last ≠ '\t') : trimEnd line = line := by
  obtain ⟨front, rfl⟩ := List.getLast?_eq_some_iff.1 h
  exact List.rdropWhile_concat_neg _ _ _ (by simp [hlast])

theorem Tame.trimEnd_ne {line : Text} (h : Tame line) (bracket : Char) (hbracket : bracket ≠ ' ') :
    trimEnd line ≠ [bracket] := by
  intro heq
  have hstarts : trimEnd line <+: line := List.rdropWhile_prefix _ _
  rw [heq] at hstarts
  rcases h.start with rfl | ⟨rest, rfl⟩
  · simp at hstarts
  · exact hbracket (by simpa using hstarts)

theorem Part.closer_eq (part : Part) : ∃ bracket, part.closer = [bracket] ∧ bracket ≠ ' ' ∧ bracket ≠ '\t' := by
  cases part with
  | names => exact ⟨']', rfl, by decide⟩
  | dict | block => exact ⟨'\x7d', rfl, by decide⟩

theorem blockOpening_name {name : Text} (h : name ∈ brunoBlocks) (part : Part) :
    blockOpening (name ++ part.opener) = some (name, part.closer) := by
  obtain ⟨hne, hplain⟩ := name_plain h
  have hindent : [' '].isPrefixOf (name ++ part.opener) = false := by
    obtain ⟨c, rest, rfl⟩ := List.exists_cons_of_ne_nil hne
    have hc := (hplain c (by simp)).2.2.1
    simpa [List.isPrefixOf] using hc.symm
  unfold blockOpening
  rw [hindent]
  cases part with
  | dict | block => simp [Part.opener, Part.closer, Go.cutSuffix]
  | names =>
    have hother : ¬ [' ', '\x7b'] <:+ name ++ [' ', '['] := by
      rintro ⟨front, hfront⟩
      have hlast := congrArg List.getLast? hfront
      simp at hlast
    simp [Part.opener, Part.closer, Go.cutSuffix, hother]

theorem trimEnd_opening (name : Text) (part : Part) :
    trimEnd (name ++ part.opener) = name ++ part.opener := by
  cases part with
  | names => exact trimEnd_of_getLast '[' (by simp [Part.opener]) (by decide)
  | dict | block => exact trimEnd_of_getLast '\x7b' (by simp [Part.opener]) (by decide)

theorem opening_not_blank (name : Text) (part : Part) :
    trimSpace (name ++ part.opener) ≠ [] := by
  intro hblank
  obtain ⟨bracket, hmem, hspace⟩ : ∃ c ∈ name ++ part.opener, Go.isSpace c = false := by
    cases part with
    | names => exact ⟨'[', by simp [Part.opener], by decide⟩
    | dict | block => exact ⟨'\x7b', by simp [Part.opener], by decide⟩
  unfold trimSpace at hblank
  have hdrop := List.rdropWhile_eq_nil_iff.1 hblank
  have hall : ∀ c ∈ name ++ part.opener, Go.isSpace c := by
    intro c hc
    by_contra hc'
    have hne : (name ++ part.opener).dropWhile Go.isSpace ≠ [] := by
      intro hnil
      exact hc' (List.dropWhile_eq_nil_iff.1 hnil c hc)
    have hhead := List.head_dropWhile_not Go.isSpace hne
    rw [hdrop _ (List.head_mem hne)] at hhead
    cases hhead
  rw [hall bracket hmem] at hspace
  cases hspace

/-- The reader takes a block as it was written. -/
theorem readBlocks_block {name : Text} (h : name ∈ brunoBlocks) (part : Part) (file : BruFile)
    (number : Nat) (rest : List Text) :
    readBlocks file number
        ((name ++ part.opener) :: (part.body ++ part.closer :: [] :: rest)) =
      readBlocks (file.addBlock name part.body) (number + part.body.length + 3) rest := by
  obtain ⟨bracket, hcloser, hbracket⟩ := part.closer_eq
  have hclose : trimEnd part.closer = part.closer := by
    rw [hcloser]
    exact trimEnd_of_getLast bracket rfl hbracket
  have hbody : (part.body ++ part.closer :: [] :: rest).takeWhile
      (fun line => decide (trimEnd line ≠ part.closer)) = part.body := by
    rw [List.takeWhile_append_of_pos, List.takeWhile_cons_of_neg, List.append_nil]
    · simpa using hclose
    · intro line hline
      rw [hcloser]
      exact decide_eq_true ((tame_of_mem_body hline).trimEnd_ne bracket hbracket.1)
  rw [readBlocks, trimEnd_opening, if_neg (opening_not_blank name part)]
  simp only [blockOpening_name h part, hbody]
  split
  · rename_i hrest
    rw [hbody, List.drop_left] at hrest
    cases hrest
  · rename_i after hrest
    rw [hbody, List.drop_left] at hrest
    obtain ⟨-, rfl⟩ := List.cons.inj hrest
    rw [readBlocks]
    simp [trimEnd, Go.trimRight, trimSpace, Nat.add_assoc]

/-- The blocks read from the lines of these calls. -/
theorem readBlocks_calls (calls : List Call) (file : BruFile) (number : Nat) :
    readBlocks file number (calls.flatMap Call.lines) =
      .ok ((calls.filter fun call => call.part.body ≠ []).foldl
        (fun file call => file.addBlock call.name call.part.body) file) := by
  induction calls generalizing file number with
  | nil => rw [List.flatMap_nil, readBlocks]; rfl
  | cons call rest ih =>
    rw [List.flatMap_cons, List.filter_cons]
    by_cases hbody : call.part.body = []
    · rw [Call.lines_of_empty call hbody, List.nil_append, ih]
      simp [hbody]
    · have hlines : call.lines ++ rest.flatMap Call.lines =
          (call.name ++ call.part.opener) ::
            (call.part.body ++ call.part.closer :: [] :: rest.flatMap Call.lines) := by
        rw [Call.lines, if_neg hbody]
        simp
      rw [hlines, readBlocks_block call.known, ih]
      simp [hbody]

theorem Part.opener_unbroken (part : Part) : ∀ c ∈ part.opener, c ≠ '\n' ∧ c ≠ '\r' := by
  cases part <;> simp [Part.opener]

theorem Part.closer_unbroken (part : Part) : ∀ c ∈ part.closer, c ≠ '\n' ∧ c ≠ '\r' := by
  cases part <;> simp [Part.closer]

theorem lines_unbroken {calls : List Call} {line : Text} (h : line ∈ calls.flatMap Call.lines) :
    ∀ c ∈ line, c ≠ '\n' ∧ c ≠ '\r' := by
  obtain ⟨call, -, hline⟩ := List.mem_flatMap.1 h
  unfold Call.lines at hline
  split_ifs at hline
  · simp at hline
  · simp only [List.mem_cons, List.mem_append, List.not_mem_nil, or_false] at hline
    rcases hline with rfl | hbody | rfl | rfl
    · apply unbroken_append
      · intro c hc
        have hplain := (name_plain call.known).2 c hc
        exact ⟨hplain.1, hplain.2.1⟩
      · exact call.part.opener_unbroken
    · exact (tame_of_mem_body hbody).unbroken
    · exact call.part.closer_unbroken
    · simp

/-- The lines end with a bracket and an empty line. -/
theorem lines_end (calls : List Call) :
    calls.flatMap Call.lines = [] ∨
      ∃ front bracket, calls.flatMap Call.lines = front ++ [[bracket], []] ∧ bracket ≠ '\n' := by
  induction calls with
  | nil => exact .inl rfl
  | cons call rest ih =>
    rw [List.flatMap_cons]
    rcases ih with hrest | ⟨front, bracket, hrest, hbracket⟩
    · rw [hrest, List.append_nil]
      by_cases hbody : call.part.body = []
      · exact .inl (Call.lines_of_empty call hbody)
      · obtain ⟨bracket, hcloser, -⟩ := call.part.closer_eq
        refine .inr ⟨(call.name ++ call.part.opener) :: call.part.body, bracket, ?_, ?_⟩
        · rw [Call.lines, if_neg hbody, hcloser, List.cons_append]
        · exact (call.part.closer_unbroken bracket (by simp [hcloser])).1
    · refine .inr ⟨call.lines ++ front, bracket, ?_, hbracket⟩
      rw [hrest, List.append_assoc]

theorem finished_ended {front : List Text} {bracket : Char} (h : bracket ≠ '\n') :
    finished (ended '\n' (front ++ [[bracket], []])) = ended '\n' (front ++ [[bracket]]) := by
  have hend : ended '\n' (front ++ [[bracket], []]) =
      ended '\n' front ++ [bracket] ++ ['\n'] ++ ['\n'] := by
    rw [ended_append]
    simp [ended]
  have htrim : Go.trimRight (· == '\n') (ended '\n' (front ++ [[bracket], []])) =
      ended '\n' front ++ [bracket] := by
    rw [hend]
    unfold Go.trimRight
    rw [List.rdropWhile_concat_pos _ _ _ rfl, List.rdropWhile_concat_pos _ _ _ rfl,
      List.rdropWhile_concat_neg _ _ _ (by simpa using h)]
  rw [finished, htrim, ended_append]
  simp [ended]

theorem ended_no_return {lines : List Text} (h : ∀ line ∈ lines, ∀ c ∈ line, c ≠ '\n' ∧ c ≠ '\r') :
    '\r' ∉ ended '\n' lines := by
  intro hmem
  obtain ⟨line, hline, hc⟩ := List.mem_flatMap.1 hmem
  rcases List.mem_append.1 hc with hc | hc
  · exact (h line hline _ hc).2 rfl
  · exact absurd hc (by decide)

/-- The text is read line by line as it was written. -/
theorem parseBru_bruText (calls : List Call) :
    parseBru (bruText calls) = readBlocks {} 0 (calls.flatMap Call.lines) := by
  have hunbroken : ∀ line ∈ calls.flatMap Call.lines, ∀ c ∈ line, c ≠ '\n' ∧ c ≠ '\r' :=
    fun _ => lines_unbroken
  rw [parseBru, bruText, foldl_write, List.nil_append]
  rcases lines_end calls with hnone | ⟨front, bracket, hlines, hbracket⟩
  · rw [hnone]
    have hread : readBlocks {} 0 [[], []] = readBlocks {} 0 [] := by
      simp [readBlocks, trimEnd, Go.trimRight, trimSpace]
    exact hread
  · rw [hlines] at hunbroken ⊢
    have hfront : ∀ line ∈ front ++ [[bracket]], ∀ c ∈ line, c ≠ '\n' ∧ c ≠ '\r' := by
      intro line hline
      apply hunbroken
      rcases List.mem_append.1 hline with hmem | hmem
      · exact List.mem_append_left _ hmem
      · exact List.mem_append_right _ (by simpa using .inl (List.mem_singleton.1 hmem))
    rw [finished_ended hbracket, Go.normalizeNewlines_of_not_mem (ended_no_return hfront),
      splitOn_ended fun line hline hmem => (hfront line hline _ hmem).1 rfl, List.append_assoc]
    rfl

/-! ## The blocks -/

theorem addBlock_repeated (file : BruFile) (name other : Text) (body : List Text) :
    (file.addBlock name body).repeated.read other =
      if other = name then some ((file.repeated.read name).getD [] ++ [body])
      else file.repeated.read other :=
  Record.read_put ..

theorem foldl_addBlock_repeated (calls : List Call) (file : BruFile) (name : Text) :
    (calls.foldl (fun file call => file.addBlock call.name call.part.body) file).repeated.read name =
      if calls.filter (fun call => call.name = name) = [] then file.repeated.read name
      else some ((file.repeated.read name).getD [] ++
        (calls.filter fun call => call.name = name).map (·.part.body)) := by
  induction calls generalizing file with
  | nil => rfl
  | cons call rest ih =>
    rw [List.foldl_cons, ih, addBlock_repeated, List.filter_cons]
    by_cases hname : call.name = name
    · subst hname
      by_cases hrest : rest.filter (fun other => other.name = call.name) = []
      · simp [hrest]
      · simp [hrest]
    · simp [hname, Ne.symm hname]

theorem foldl_addBlock_top (calls : List Call) (file : BruFile) :
    (calls.foldl (fun file call => file.addBlock call.name call.part.body) file).top = file.top := by
  induction calls generalizing file with
  | nil => rfl
  | cons call rest ih => rw [List.foldl_cons, ih]; rfl

/-- Whatever is written, the reader finds under each name the bodies written
under it, in order, and nothing else. -/
theorem written_blocks_read_back (calls : List Call) :
    ∃ file, parseBru (bruText calls) = .ok file ∧ file.top = [] ∧
      ∀ name, file.repeated.read name =
        if bodiesOf calls name = [] then none else some (bodiesOf calls name) := by
  refine ⟨_, (parseBru_bruText calls).trans (readBlocks_calls calls {} 0), ?_, ?_⟩
  · rw [foldl_addBlock_top]
  · intro name
    rw [foldl_addBlock_repeated]
    have hbodies : bodiesOf calls name =
        ((calls.filter fun call => call.part.body ≠ []).filter fun call => call.name = name).map
          (·.part.body) := by
      unfold bodiesOf
      rw [List.filter_map, List.filter_filter, List.filter_filter]
      congr 2
      funext call
      exact Bool.and_comm _ _
    rw [hbodies]
    simp

end Gostman.Importer.Bru
