import Gostman.Lib.Utf8
import Mathlib.Algebra.Group.Nat.Defs
/-!
# The parser of event streams

`engine/stream_parser.go`: bytes come in chunks, events come out.  Texts are
byte strings, as in Go.  An event's `Index` is left out, which the parser never
sets, and its `Time`.
-/

namespace Gostman.Stream

open Gostman.Lib

/-- The most bytes the data of one event takes, line ends counted. -/
def maxEventData : Nat := 1 <<< 20

def byte (c : Char) : UInt8 :=
  UInt8.ofNat c.toNat

def byteOrderMark : Bytes :=
  [0xEF, 0xBB, 0xBF]

structure Event where
  type : Bytes
  id : Bytes
  data : Bytes
  truncated : Bool

structure EventParser where
  line : Bytes
  skipLF : Bool
  started : Bool
  data : Bytes
  hasData : Bool
  truncated : Bool
  name : Bytes
  lastID : Bytes
  retryMs : Nat

def EventParser.zero : EventParser :=
  ⟨[], false, false, [], false, false, [], [], 0⟩

/-! ## What is called of the standard library -/

def trimPrefix (bytes lead : Bytes) : Bytes :=
  if lead <+: bytes then bytes.drop lead.length else bytes

def trimSuffix (bytes : Bytes) (last : UInt8) : Bytes :=
  if bytes.getLast? = some last then bytes.dropLast else bytes

def cut (bytes : Bytes) (separator : UInt8) : Bytes × Bytes :=
  (bytes.takeWhile (· ≠ separator), (bytes.dropWhile (· ≠ separator)).drop 1)

/-- The value of a run of digits, begun with `value`. -/
def digits : Nat → Bytes → Option Nat
  | value, [] => some value
  | value, b :: rest =>
      if 48 ≤ b.toNat ∧ b.toNat ≤ 57 then digits (10 * value + (b.toNat - 48)) rest else none

def parseUint (text : Bytes) : Option Nat :=
  if text = [] then none
  else (digits 0 text).filter (· < 2 ^ 31)

/-- `strings.ToValidUTF8` with U+FFFD: one for each run of bytes that are not
UTF-8. -/
def toValidUTF8 (invalid : Bool) (text : Bytes) : Bytes :=
  match text with
  | [] => []
  | b :: rest =>
      match decodeRune (b :: rest) with
      | some c => (b :: rest).take c.utf8Size ++ toValidUTF8 false (rest.drop (c.utf8Size - 1))
      | none => (if invalid then [] else [0xEF, 0xBF, 0xBD]) ++ toValidUTF8 true rest
termination_by text.length
decreasing_by
  · simp only [List.length_drop, List.length_cons]
    omega
  · simp

/-! ## The parser -/

def reset (p : EventParser) : EventParser :=
  { p with data := [], hasData := false, truncated := false, name := [] }

def dispatch (p : EventParser) : Option Event × EventParser :=
  if !p.hasData then (none, reset p)
  else
    let name := if p.name = [] then encode "message".toList else p.name
    let data := toValidUTF8 false (trimSuffix p.data (byte '\n'))
    (some ⟨name, p.lastID, data, p.truncated⟩, reset p)

def appendData (p : EventParser) (value : Bytes) : EventParser :=
  if p.data.length + value.length + 1 > maxEventData then
    { p with hasData := true, truncated := true }
  else { p with hasData := true, data := p.data ++ value ++ [byte '\n'] }

def apply (p : EventParser) (field value : Bytes) : EventParser :=
  if field = encode "event".toList then { p with name := value }
  else if field = encode "data".toList then appendData p value
  else if field = encode "id".toList then
    if 0 ∈ value then p else { p with lastID := value }
  else if field = encode "retry".toList then
    match parseUint value with
    | some milliseconds => { p with retryMs := milliseconds }
    | none => p
  else p

/-- `consumeLine`, after the byte order mark of the first line is gone. -/
def consumeText (p : EventParser) (line : Bytes) : Option Event × EventParser :=
  if line = [] then dispatch p
  else if line.head? = some (byte ':') then (none, p)
  else
    let (field, value) := cut line (byte ':')
    (none, apply p field (trimPrefix value [byte ' ']))

def consumeLine (p : EventParser) : Option Event × EventParser :=
  let line := p.line
  let p := { p with line := [] }
  if !p.started then consumeText { p with started := true } (trimPrefix line byteOrderMark)
  else consumeText p line

def isBreak (b : UInt8) : Bool :=
  b = byte '\r' || b = byte '\n'

/-- `bytes.IndexAny(chunk, lineBreaks)`, as the bytes before and from it on. -/
def splitBreak (chunk : Bytes) : Bytes × Bytes :=
  (chunk.takeWhile (!isBreak ·), chunk.dropWhile (!isBreak ·))

theorem splitBreak_length (chunk : Bytes) : (splitBreak chunk).2.length ≤ chunk.length :=
  (List.dropWhile_sublist _).length_le

def feed (p : EventParser) (chunk : Bytes) : List Event × EventParser :=
  match chunk with
  | [] => ([], p)
  | first :: rest =>
      if p.skipLF ∧ first = byte '\n' then feed { p with skipLF := false } rest
      else
        let p := { p with skipLF := false }
        match _h : splitBreak (first :: rest) with
        | (_, []) => ([], { p with line := p.line ++ first :: rest })
        | (text, stop :: after) =>
            let (event, p) := consumeLine
              { p with line := p.line ++ text, skipLF := stop = byte '\r' }
            let (events, p) := feed p after
            (event.toList ++ events, p)
termination_by chunk.length
decreasing_by
  · simp
  · have hle := splitBreak_length (first :: rest)
    rw [_h] at hle
    exact hle

/-! ## One byte at a time -/

def feedByte (p : EventParser) (b : UInt8) : Option Event × EventParser :=
  if p.skipLF ∧ b = byte '\n' then (none, { p with skipLF := false })
  else if isBreak b then consumeLine { p with skipLF := b = byte '\r' }
  else (none, { p with line := p.line ++ [b], skipLF := false })

def feedBytes (p : EventParser) : Bytes → List Event × EventParser
  | [] => ([], p)
  | b :: rest =>
      let (event, p) := feedByte p b
      let (events, p) := feedBytes p rest
      (event.toList ++ events, p)

theorem feedBytes_cons (p : EventParser) (b : UInt8) (rest : Bytes) :
    feedBytes p (b :: rest) =
      ((feedByte p b).1.toList ++ (feedBytes (feedByte p b).2 rest).1,
        (feedBytes (feedByte p b).2 rest).2) := rfl

theorem feedBytes_append (p : EventParser) (a b : Bytes) :
    feedBytes p (a ++ b) =
      ((feedBytes p a).1 ++ (feedBytes (feedBytes p a).2 b).1,
        (feedBytes (feedBytes p a).2 b).2) := by
  induction a generalizing p with
  | nil => rfl
  | cons c rest ih => simp only [List.cons_append, feedBytes, ih, List.append_assoc]

theorem feedBytes_text (p : EventParser) {text : Bytes} (hne : text ≠ [])
    (h : ∀ b ∈ text, isBreak b = false) :
    feedBytes p text = ([], { p with line := p.line ++ text, skipLF := false }) := by
  induction text generalizing p with
  | nil => exact absurd rfl hne
  | cons b rest ih =>
    have hb := h b List.mem_cons_self
    have hlf : b ≠ byte '\n' := by
      rintro rfl
      exact absurd hb (by decide)
    have hstep : feedByte p b = (none, { p with line := p.line ++ [b], skipLF := false }) := by
      unfold feedByte
      rw [if_neg (fun hskip => hlf hskip.2), hb]
      rfl
    rw [feedBytes, hstep]
    cases rest with
    | nil => rfl
    | cons c rest =>
      have htail := ih { p with line := p.line ++ [b], skipLF := false } (List.cons_ne_nil c rest)
        (fun d hd => h d (List.mem_cons_of_mem b hd))
      simp [htail]

/-- A line and its end, where no LF is left to skip. -/
theorem feedBytes_line (p : EventParser) (text : Bytes) {stop : UInt8}
    (htext : ∀ b ∈ text, isBreak b = false) (hstop : isBreak stop = true)
    (hskip : p.skipLF = false) (after : Bytes) :
    feedBytes p (text ++ stop :: after) =
      ((consumeLine { p with line := p.line ++ text, skipLF := stop = byte '\r' }).1.toList ++
          (feedBytes (consumeLine
            { p with line := p.line ++ text, skipLF := stop = byte '\r' }).2 after).1,
        (feedBytes (consumeLine
          { p with line := p.line ++ text, skipLF := stop = byte '\r' }).2 after).2) := by
  have hkept : feedBytes p text = ([], { p with line := p.line ++ text }) := by
    by_cases hne : text = []
    · subst hne
      simp [feedBytes]
    · rw [feedBytes_text p hne htext, ← hskip]
  rw [feedBytes_append, hkept, feedBytes]
  have hstep : feedByte { p with line := p.line ++ text } stop =
      consumeLine { p with line := p.line ++ text, skipLF := stop = byte '\r' } := by
    unfold feedByte
    rw [if_neg (by simp [hskip]), if_pos hstop]
  simp [hstep]

theorem splitBreak_append (chunk : Bytes) : (splitBreak chunk).1 ++ (splitBreak chunk).2 = chunk :=
  List.takeWhile_append_dropWhile

theorem splitBreak_text {chunk : Bytes} {b : UInt8} (hb : b ∈ (splitBreak chunk).1) :
    isBreak b = false := by
  have hall := List.all_eq_true.1 (List.all_takeWhile (p := (!isBreak ·)) (l := chunk)) b hb
  simpa using hall

theorem splitBreak_stop {chunk after : Bytes} {stop : UInt8}
    (h : (splitBreak chunk).2 = stop :: after) : isBreak stop = true := by
  have hhead := List.head?_dropWhile_not (fun b => !isBreak b) chunk
  have hdrop : chunk.dropWhile (!isBreak ·) = stop :: after := h
  rw [hdrop] at hhead
  simpa using hhead

/-- Where the next byte is no LF, having one to skip makes no difference. -/
theorem feedBytes_unskipped (p : EventParser) {first : UInt8} (rest : Bytes)
    (h : ¬ (p.skipLF = true ∧ first = byte '\n')) :
    feedBytes { p with skipLF := false } (first :: rest) = feedBytes p (first :: rest) := by
  have hstep : feedByte { p with skipLF := false } first = feedByte p first := by
    unfold feedByte
    rw [if_neg h, if_neg (by simp)]
  rw [feedBytes, feedBytes, hstep]

/-- The parser takes its chunk as the bytes it is made of. -/
theorem feed_eq (p : EventParser) (chunk : Bytes) : feed p chunk = feedBytes p chunk := by
  fun_induction feed p chunk with
  | case1 p => rfl
  | case2 p first rest h ih =>
    rw [ih, feedBytes, feedByte, if_pos h]
    rfl
  | case3 p first rest h q text hsplit =>
    have hall := splitBreak_append (first :: rest)
    rw [hsplit, List.append_nil] at hall
    have htext : ∀ b ∈ first :: rest, isBreak b = false := by
      intro b hb
      refine @splitBreak_text (first :: rest) b ?_
      rw [hsplit, hall]
      exact hb
    rw [← feedBytes_unskipped p rest h, feedBytes_text _ (List.cons_ne_nil first rest) htext]
  | case4 p first rest h q text stop after hsplit event next hline events last hafter ih =>
    have hall := splitBreak_append (first :: rest)
    rw [hsplit] at hall
    have hstop : isBreak stop = true := splitBreak_stop (by rw [hsplit])
    have htext : ∀ b ∈ text, isBreak b = false := by
      intro b hb
      refine @splitBreak_text (first :: rest) b ?_
      rw [hsplit]
      exact hb
    rw [← feedBytes_unskipped p rest h, ← hall, feedBytes_line _ text htext hstop rfl]
    rw [hafter] at ih
    rw [hline, ← ih]

/-- Feeding two chunks one after the other is feeding them as one. -/
theorem feed_append (p : EventParser) (a b : Bytes) :
    feed p (a ++ b) =
      ((feed p a).1 ++ (feed (feed p a).2 b).1, (feed (feed p a).2 b).2) := by
  simp only [feed_eq]
  exact feedBytes_append p a b

end Gostman.Stream
