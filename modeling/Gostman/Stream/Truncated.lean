import Gostman.Lib.Decided
import Gostman.Stream.Parser
import Mathlib.Data.List.Induction
import Mathlib.Data.Nat.Basic
/-!
# The data lines of one event

A line that does not fit behind the lines before it is left out and the event
is marked as truncated, but a shorter line may still fit later.
-/

namespace Gostman.Stream

open Gostman.Lib

open scoped Gostman.Lib.Decided

def written (lines : List Bytes) : Bytes :=
  lines.flatMap (· ++ [byte '\n'])

def dataOf (lines : List Bytes) : Bytes :=
  toValidUTF8 false (trimSuffix (written lines) (byte '\n'))

theorem written_append (first second : List Bytes) : written (first ++ second) = written first ++ written second :=
  List.flatMap_append

theorem written_snoc (lines : List Bytes) (line : Bytes) :
    written (lines ++ [line]) = written lines ++ line ++ [byte '\n'] := by
  rw [written_append]
  simp [written]

theorem length_written_snoc (lines : List Bytes) (line : Bytes) :
    (written (lines ++ [line])).length = (written lines).length + line.length + 1 := by
  rw [written_snoc, List.length_append, List.length_append]
  rfl

theorem length_written_of_isPrefix {first lines : List Bytes} (h : first <+: lines) :
    (written first).length ≤ (written lines).length := by
  obtain ⟨rest, rfl⟩ := h
  rw [written_append, List.length_append]
  omega

/-- The event shows the beginning of its data: where it is truncated, an
initial run of the lines, and otherwise all of them. -/
structure ShowsBeginning (lines : List Bytes) (buffer : Bytes) (event : Event) : Prop where
  cut : event.truncated = true → ∃ kept, kept <+: lines ∧ buffer = written kept ∧ event.data = dataOf kept
  whole : event.truncated = false → buffer = written lines ∧ event.data = dataOf lines

/-- No line fits behind the lines that come before the first line that does
not fit. -/
def NoneFitsLater (lines : List Bytes) : Prop :=
  ∀ first long rest, lines = first ++ long :: rest → (written first).length ≤ maxEventData →
    maxEventData < (written (first ++ [long])).length →
      ∀ line ∈ rest, maxEventData < (written (first ++ [line])).length

/-! ## Appending -/

def appendLines (p : EventParser) (lines : List Bytes) : EventParser :=
  lines.foldl appendData p

theorem appendData_fits {p : EventParser} {value : Bytes} (h : p.data.length + value.length + 1 ≤ maxEventData) :
    appendData p value = { p with hasData := true, data := p.data ++ value ++ [byte '\n'] } := by
  rw [appendData, if_neg (not_lt.2 h)]

theorem appendData_long {p : EventParser} {value : Bytes} (h : maxEventData < p.data.length + value.length + 1) :
    appendData p value = { p with hasData := true, truncated := true } := by
  rw [appendData, if_pos h]

theorem appendData_truncated {p : EventParser} (value : Bytes) (h : p.truncated = true) :
    (appendData p value).truncated = true := by
  unfold appendData
  split_ifs
  · rfl
  · exact h

theorem appendData_hasData (p : EventParser) (value : Bytes) : (appendData p value).hasData = true := by
  unfold appendData
  split_ifs <;> rfl

theorem appendLines_hasData (p : EventParser) {lines : List Bytes} (h : lines ≠ []) :
    (appendLines p lines).hasData = true := by
  induction lines using List.reverseRecOn with
  | nil => exact absurd rfl h
  | append_singleton lines line _ =>
      rw [appendLines, List.foldl_append]
      exact appendData_hasData _ line

theorem appendLines_truncated {p : EventParser} (lines : List Bytes) (h : p.truncated = true) :
    (appendLines p lines).truncated = true := by
  induction lines generalizing p with
  | nil => exact h
  | cons line rest ih => exact ih (appendData_truncated line h)

theorem appendData_bounded {p : EventParser} (value : Bytes) (h : p.data.length ≤ maxEventData) :
    (appendData p value).data.length ≤ maxEventData := by
  unfold appendData
  split_ifs with hlong
  · exact h
  · simp only [List.length_append, List.length_singleton]
    omega

theorem appendLines_bounded {p : EventParser} (lines : List Bytes) (h : p.data.length ≤ maxEventData) :
    (appendLines p lines).data.length ≤ maxEventData := by
  induction lines generalizing p with
  | nil => exact h
  | cons line rest ih => exact ih (appendData_bounded line h)

theorem appendData_grows (p : EventParser) (value : Bytes) : p.data.length ≤ (appendData p value).data.length := by
  unfold appendData
  split_ifs
  · exact le_rfl
  · simp only [List.length_append]
    omega

theorem appendLines_grows (p : EventParser) (lines : List Bytes) :
    p.data.length ≤ (appendLines p lines).data.length := by
  induction lines generalizing p with
  | nil => exact le_rfl
  | cons line rest ih => exact Nat.le_trans (appendData_grows p line) (ih (appendData p line))

/-- Lines of which none fits leave the buffer as it is. -/
theorem appendLines_long {p : EventParser} {lines : List Bytes}
    (h : ∀ line ∈ lines, maxEventData < p.data.length + line.length + 1) : (appendLines p lines).data = p.data := by
  induction lines generalizing p with
  | nil => rfl
  | cons line rest ih =>
      have hstep := appendData_long (h line List.mem_cons_self)
      have hdata : (appendData p line).data = p.data := by rw [hstep]
      have hrest := @ih (appendData p line) (by rw [hdata]; exact fun other hmem => h other (List.mem_cons_of_mem line hmem))
      rw [hdata] at hrest
      exact hrest

theorem appendLines_fits {p : EventParser} {lines : List Bytes}
    (h : ∃ line ∈ lines, p.data.length + line.length + 1 ≤ maxEventData) :
    p.data.length < (appendLines p lines).data.length := by
  induction lines generalizing p with
  | nil =>
      obtain ⟨line, hmem, -⟩ := h
      cases hmem
  | cons first rest ih =>
      by_cases hfirst : p.data.length + first.length + 1 ≤ maxEventData
      · apply lt_of_lt_of_le _ (appendLines_grows (appendData p first) rest)
        rw [appendData_fits hfirst]
        simp only [List.length_append, List.length_cons]
        omega
      · have hdata : (appendData p first).data = p.data := by rw [appendData_long (not_le.1 hfirst)]
        rw [← hdata]
        apply ih
        rw [hdata]
        obtain ⟨line, hmem, hline⟩ := h
        rcases List.mem_cons.1 hmem with rfl | hrest
        · exact absurd hline hfirst
        · exact ⟨line, hrest, hline⟩

theorem appendLines_whole {p : EventParser} (hdata : p.data = []) (htruncated : p.truncated = false) (lines : List Bytes)
    (h : (written lines).length ≤ maxEventData) :
    (appendLines p lines).data = written lines ∧ (appendLines p lines).truncated = false := by
  induction lines using List.reverseRecOn with
  | nil => exact ⟨hdata, htruncated⟩
  | append_singleton lines line ih =>
      rw [length_written_snoc] at h
      obtain ⟨hkept, hnot⟩ := ih (by omega)
      have hlast : appendLines p (lines ++ [line]) = appendData (appendLines p lines) line := by
        rw [appendLines, List.foldl_append]
        rfl
      rw [hlast, appendData_fits (by rw [hkept]; exact h)]
      exact ⟨by rw [written_snoc, hkept], hnot⟩

/-- Lines that do not all fit, at the first that does not. -/
theorem exists_first_long {lines : List Bytes} (h : maxEventData < (written lines).length) :
    ∃ first long rest, lines = first ++ long :: rest ∧ (written first).length ≤ maxEventData ∧
      maxEventData < (written (first ++ [long])).length := by
  induction lines using List.reverseRecOn with
  | nil => exact absurd h (Nat.not_lt_zero _)
  | append_singleton lines line ih =>
      rcases Nat.lt_or_ge maxEventData (written lines).length with hlong | hfits
      · obtain ⟨first, long, rest, rfl, hshort, hover⟩ := ih hlong
        exact ⟨first, long, rest ++ [line], by simp, hshort, hover⟩
      · exact ⟨lines, line, [], rfl, hfits, h⟩

/-! ## Dispatching -/

/-- The event of these lines, which begins where the last event was dispatched. -/
def eventOf (p : EventParser) (lines : List Bytes) : Option Event :=
  (dispatch (appendLines (reset p) lines)).1

theorem eventOf_eq_some {p : EventParser} {lines : List Bytes} {event : Event} (h : eventOf p lines = some event) :
    event.truncated = (appendLines (reset p) lines).truncated ∧
      event.data = toValidUTF8 false (trimSuffix (appendLines (reset p) lines).data (byte '\n')) := by
  unfold eventOf dispatch at h
  split_ifs at h
  all_goals
    injection h with h
    rw [← h]
    exact ⟨rfl, rfl⟩

theorem eventOf_isSome (p : EventParser) {lines : List Bytes} (h : lines ≠ []) : (eventOf p lines).isSome = true := by
  rw [eventOf, dispatch, appendLines_hasData _ h]
  rfl

section FirstLong

variable {p : EventParser} {first rest : List Bytes} {long : Bytes}

/-- After the first line that does not fit, the lines before it are in the
buffer and the event is truncated. -/
theorem appendLines_first_long (hshort : (written first).length ≤ maxEventData)
    (hover : maxEventData < (written (first ++ [long])).length) :
    (appendLines (reset p) (first ++ [long])).data = written first ∧
      (appendLines (reset p) (first ++ [long])).truncated = true := by
  obtain ⟨hfirst, -⟩ := @appendLines_whole (reset p) rfl rfl first hshort
  rw [length_written_snoc, ← hfirst] at hover
  rw [appendLines, List.foldl_append]
  change (appendData (appendLines (reset p) first) long).data = _ ∧ (appendData (appendLines (reset p) first) long).truncated = _
  rw [appendData_long hover]
  exact ⟨hfirst, rfl⟩

theorem appendLines_split (p : EventParser) (first rest : List Bytes) (long : Bytes) :
    appendLines p (first ++ long :: rest) = appendLines (appendLines p (first ++ [long])) rest := by
  simp only [appendLines, List.foldl_append, List.foldl_cons, List.foldl_nil]

/-- The buffer holds an initial run of the lines only where no later line fits. -/
theorem none_fits_of_prefix {kept : List Bytes} (hshort : (written first).length ≤ maxEventData)
    (hover : maxEventData < (written (first ++ [long])).length) (hkept : kept <+: first ++ long :: rest)
    (hdata : (appendLines (reset p) (first ++ long :: rest)).data = written kept) :
    ∀ line ∈ rest, maxEventData < (written (first ++ [line])).length := by
  intro line hmem
  by_contra hfits
  obtain ⟨hfirst, -⟩ := @appendLines_first_long p first long hshort hover
  rw [not_lt, length_written_snoc, ← hfirst] at hfits
  have hgrows := appendLines_fits ⟨line, hmem, hfits⟩
  have hbound := @appendLines_bounded (reset p) (first ++ long :: rest) (Nat.zero_le _)
  rw [← appendLines_split, hfirst, hdata] at hgrows
  rw [hdata] at hbound
  have hlead : first ++ [long] <+: first ++ long :: rest := ⟨rest, by simp⟩
  rcases List.prefix_or_prefix_of_prefix hkept hlead with hinside | hbeyond
  · rcases List.prefix_concat_iff.1 hinside with rfl | hbefore
    · omega
    · have hle := length_written_of_isPrefix hbefore
      omega
  · have hle := length_written_of_isPrefix hbeyond
    omega

end FirstLong

/-- An event shows the beginning of its data just where no line fits behind a
line that was left out. -/
theorem showsBeginning_iff_noneFitsLater {p : EventParser} {lines : List Bytes} {event : Event}
    (h : eventOf p lines = some event) :
    ShowsBeginning lines (appendLines (reset p) lines).data event ↔ NoneFitsLater lines := by
  obtain ⟨htruncated, hdata⟩ := eventOf_eq_some h
  constructor
  · intro hshows first long rest hlines hshort hover
    subst hlines
    obtain ⟨-, hcut⟩ := @appendLines_first_long p first long hshort hover
    have hmark : event.truncated = true := by
      rw [htruncated, appendLines_split]
      exact appendLines_truncated rest hcut
    obtain ⟨kept, hkept, hbuffer, -⟩ := hshows.cut hmark
    exact none_fits_of_prefix hshort hover hkept hbuffer
  · intro hnone
    rcases Nat.lt_or_ge maxEventData (written lines).length with hlong | hfits
    · obtain ⟨first, long, rest, rfl, hshort, hover⟩ := exists_first_long hlong
      obtain ⟨hfirst, hcut⟩ := @appendLines_first_long p first long hshort hover
      have hbuffer : (appendLines (reset p) (first ++ long :: rest)).data = written first := by
        rw [appendLines_split, ← hfirst]
        apply appendLines_long
        intro line hmem
        rw [hfirst, ← length_written_snoc]
        exact hnone first long rest rfl hshort hover line hmem
      constructor
      · intro _
        refine ⟨first, List.prefix_append first _, hbuffer, ?_⟩
        rw [hdata, hbuffer, dataOf]
      · intro hwhole
        rw [htruncated, appendLines_split, appendLines_truncated rest hcut] at hwhole
        cases hwhole
    · obtain ⟨hbuffer, hwhole⟩ := @appendLines_whole (reset p) rfl rfl lines hfits
      constructor
      · intro hmark
        rw [htruncated, hwhole] at hmark
        cases hmark
      · intro _
        refine ⟨hbuffer, ?_⟩
        rw [hdata, hbuffer, dataOf]

/-! ## The lines of a stream -/

def dataLine (line : Bytes) : Bytes :=
  encode "data: ".toList ++ line ++ [byte '\n']

theorem consumeText_data (p : EventParser) (line : Bytes) :
    consumeText p (encode "data: ".toList ++ line) = (none, appendData p line) := by
  have hfield : encode "data: ".toList = [100, 97, 116, 97, 58, 32] := by decide
  have hcut : cut (100 :: 97 :: 116 :: 97 :: 58 :: 32 :: line) (byte ':') = ([100, 97, 116, 97], 32 :: line) := by
    simp [cut, byte]
  have htrim : trimPrefix (32 :: line) [byte ' '] = line := by
    simp [trimPrefix, byte]
  rw [hfield]
  change consumeText p (100 :: 97 :: 116 :: 97 :: 58 :: 32 :: line) = _
  unfold consumeText
  rw [if_neg (List.cons_ne_nil _ _), if_neg (by simp [byte]), hcut]
  dsimp only
  rw [htrim]
  rfl

structure AtLineStart (p : EventParser) : Prop where
  line : p.line = []
  skipLF : p.skipLF = false
  started : p.started = true

theorem AtLineStart.appendData {p : EventParser} (h : AtLineStart p) (value : Bytes) :
    AtLineStart (appendData p value) := by
  unfold Stream.appendData
  split_ifs
  · exact ⟨h.line, h.skipLF, h.started⟩
  · exact ⟨h.line, h.skipLF, h.started⟩

theorem AtLineStart.appendLines {p : EventParser} (h : AtLineStart p) (lines : List Bytes) :
    AtLineStart (appendLines p lines) := by
  induction lines generalizing p with
  | nil => exact h
  | cons line rest ih => exact ih (h.appendData line)

theorem AtLineStart.consumeLine {p : EventParser} (h : AtLineStart p) (line : Bytes) :
    consumeLine { p with line := p.line ++ line, skipLF := byte '\n' = byte '\r' } = consumeText p line := by
  obtain ⟨begun, skipLF, started, data, hasData, truncated, name, lastID, retryMs⟩ := p
  obtain ⟨hline, hskip, hstarted⟩ := h
  simp only at hline hskip hstarted
  subst hline hskip hstarted
  rfl

theorem feedBytes_dataLines {p : EventParser} (hp : AtLineStart p) {lines : List Bytes}
    (h : ∀ line ∈ lines, ∀ b ∈ line, isBreak b = false) (after : Bytes) :
    feedBytes p (lines.flatMap dataLine ++ after) = feedBytes (appendLines p lines) after := by
  induction lines generalizing p with
  | nil => rfl
  | cons line rest ih =>
      have hlead : ∀ b ∈ encode "data: ".toList, isBreak b = false := by decide
      have htext : ∀ b ∈ encode "data: ".toList ++ line, isBreak b = false := by
        intro b hb
        rcases List.mem_append.1 hb with hfield | hvalue
        · exact hlead b hfield
        · exact h line List.mem_cons_self b hvalue
      have hbytes : (line :: rest).flatMap dataLine ++ after =
          (encode "data: ".toList ++ line) ++ byte '\n' :: (rest.flatMap dataLine ++ after) := by
        simp [dataLine]
      rw [hbytes, feedBytes_line p _ htext rfl hp.skipLF, hp.consumeLine, consumeText_data]
      exact ih (hp.appendData line) fun other hmem => h other (List.mem_cons_of_mem line hmem)

/-- The event that comes of data lines and an empty line. -/
theorem feed_event {p : EventParser} (hp : AtLineStart p) {lines : List Bytes}
    (h : ∀ line ∈ lines, ∀ b ∈ line, isBreak b = false) :
    (feed (reset p) (lines.flatMap dataLine ++ [byte '\n'])).1 = (eventOf p lines).toList := by
  have hreset : AtLineStart (reset p) := ⟨hp.line, hp.skipLF, hp.started⟩
  have hlast := hreset.appendLines lines
  have hempty := feedBytes_line (appendLines (reset p) lines) [] (List.forall_mem_nil _)
    (rfl : isBreak (byte '\n') = true) hlast.skipLF []
  rw [List.nil_append, hlast.consumeLine] at hempty
  rw [feed_eq, feedBytes_dataLines hreset h, hempty]
  exact List.append_nil _

/-- An event of two short lines. -/
theorem short_lines_shown :
    ∃ event, eventOf .zero [[97], [98]] = some event ∧
      ShowsBeginning [[97], [98]] (appendLines (reset .zero) [[97], [98]]).data event := by
  obtain ⟨event, hevent⟩ := Option.isSome_iff_exists.1 (eventOf_isSome .zero (List.cons_ne_nil [97] [[98]]))
  refine ⟨event, hevent, ?_⟩
  rw [showsBeginning_iff_noneFitsLater hevent]
  intro first long rest hlines _ hover
  have hle := @length_written_of_isPrefix (first ++ [long]) [[97], [98]] ⟨rest, by rw [hlines]; simp⟩
  have hsize : (written [[97], [98]]).length < maxEventData := by decide
  omega

/-- A line of the whole bound is left out and the line behind it is shown. -/
theorem later_line_shown :
    ∃ event, eventOf .zero [List.replicate maxEventData 97, [98]] = some event ∧
      ¬ ShowsBeginning [List.replicate maxEventData 97, [98]]
        (appendLines (reset .zero) [List.replicate maxEventData 97, [98]]).data event := by
  obtain ⟨event, hevent⟩ := Option.isSome_iff_exists.1
    (eventOf_isSome .zero (List.cons_ne_nil (List.replicate maxEventData 97) [[98]]))
  refine ⟨event, hevent, ?_⟩
  rw [showsBeginning_iff_noneFitsLater hevent]
  intro hnone
  have hlong : maxEventData < (written ([] ++ [List.replicate maxEventData 97])).length := by
    rw [length_written_snoc, List.length_replicate]
    omega
  have hshort := hnone [] (List.replicate maxEventData 97) [[98]] rfl (Nat.zero_le _) hlong [98] List.mem_cons_self
  exact absurd hshort (by decide)

end Gostman.Stream
