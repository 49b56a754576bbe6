import Gostman.Lib.Lines
import Gostman.Stream.Parser
/-!
# What an event stream means

The interpretation of event streams that the format itself defines, on the
characters of the stream, and that the parser follows it on the bytes.
-/

namespace Gostman.Stream

open Gostman.Lib

/-! ## The interpretation -/

/-- A message event: its type, its last event ID and its data. -/
structure Message where
  type : List Char
  lastEventId : List Char
  data : List Char

/-- The data buffer, the event type buffer and the last event ID buffer. -/
structure Buffers where
  data : List Char
  eventType : List Char
  lastEventId : List Char

def Buffers.empty : Buffers :=
  ⟨[], [], []⟩

/-- Decoding a stream strips one leading byte order mark. -/
def withoutMark (text : List Char) : List Char :=
  if ['\uFEFF'] <+: text then text.drop 1 else text

/-- Dispatching an event.  There is none where the data buffer is empty. -/
def dispatchMessage (buffers : Buffers) : Option Message × Buffers :=
  let cleared := { buffers with data := [], eventType := [] }
  if buffers.data = [] then (none, cleared)
  else
    let data := if buffers.data.getLast? = some '\n' then buffers.data.dropLast else buffers.data
    let type := if buffers.eventType = [] then "message".toList else buffers.eventType
    (some ⟨type, buffers.lastEventId, data⟩, cleared)

/-- Processing a field.  The reconnection time of `retry` is no part of an
event. -/
def processField (buffers : Buffers) (name value : List Char) : Buffers :=
  if name = "event".toList then { buffers with eventType := value }
  else if name = "data".toList then { buffers with data := buffers.data ++ value ++ ['\n'] }
  else if name = "id".toList then
    if '\x00' ∈ value then buffers else { buffers with lastEventId := value }
  else buffers

/-- The value after the colon of a line, without one leading space. -/
def fieldValue (line : List Char) : List Char :=
  let value := (line.dropWhile (· ≠ ':')).drop 1
  if [' '] <+: value then value.drop 1 else value

/-- Processing a line: an empty line dispatches, a comment is ignored, and a
line without a colon is a field with an empty value. -/
def processLine (buffers : Buffers) (line : List Char) : Option Message × Buffers :=
  if line = [] then dispatchMessage buffers
  else if line.head? = some ':' then (none, buffers)
  else (none, processField buffers (line.takeWhile (· ≠ ':')) (fieldValue line))

def processLines (buffers : Buffers) : List (List Char) → List Message
  | [] => []
  | line :: rest =>
      let (message, buffers) := processLine buffers line
      message.toList ++ processLines buffers rest

/-- The events of a stream.  What is begun and not ended by an empty line at
the end is discarded. -/
def interpret (text : List Char) : List Message :=
  processLines .empty (terminated '\r' '\n' [] (withoutMark text))

def Message.encoded (message : Message) : Bytes × Bytes × Bytes :=
  (encode message.type, encode message.lastEventId, encode message.data)

def Event.parts (event : Event) : Bytes × Bytes × Bytes :=
  (event.type, event.id, event.data)

/-! ## The calls of the standard library on encoded texts -/

theorem toValidUTF8_encode (text : List Char) (invalid : Bool) :
    toValidUTF8 invalid (encode text) = encode text := by
  induction text generalizing invalid with
  | nil => rw [encode_nil, toValidUTF8]
  | cons c text ih =>
    rw [encode_cons]
    cases hbytes : String.utf8EncodeChar c with
    | nil => exact absurd hbytes (encodeChar_ne_nil c)
    | cons b rest =>
      have hlength : c.utf8Size = rest.length + 1 := by
        rw [← String.length_utf8EncodeChar, hbytes, List.length_cons]
      have hdecode := decodeRune_encodeChar c (encode text)
      rw [hbytes] at hdecode
      rw [List.cons_append, toValidUTF8, ← List.cons_append, hdecode]
      simp only [hlength, Nat.add_sub_cancel, List.drop_left', List.take_append_of_le_length,
        List.length_cons, Nat.le_refl]
      rw [List.take_of_length_le (by simp), ih]

theorem trimPrefix_encode (lead text : List Char) :
    trimPrefix (encode text) (encode lead) =
      encode (if lead <+: text then text.drop lead.length else text) := by
  unfold trimPrefix
  by_cases h : lead <+: text
  · rw [if_pos (encode_isPrefix_iff.2 h), if_pos h]
    obtain ⟨rest, rfl⟩ := h
    rw [encode_append, List.drop_left, List.drop_left]
  · rw [if_neg (encode_isPrefix_iff.not.2 h), if_neg h]

theorem byteOrderMark_eq : byteOrderMark = encode ['\uFEFF'] := by
  decide

theorem trimMark_encode (text : List Char) :
    trimPrefix (encode text) byteOrderMark = encode (withoutMark text) := by
  rw [byteOrderMark_eq, trimPrefix_encode]
  rfl

theorem cut_encode (line : List Char) :
    cut (encode line) (byte ':') =
      (encode (line.takeWhile (· ≠ ':')), encode ((line.dropWhile (· ≠ ':')).drop 1)) := by
  have hcolon : (':' : Char).toNat < 128 := by decide
  unfold cut byte
  rw [takeWhile_encode hcolon, dropWhile_encode hcolon]
  cases hrest : line.dropWhile (· ≠ ':') with
  | nil => rfl
  | cons c rest =>
    have hc := List.head?_dropWhile_not (· ≠ ':') line
    rw [hrest] at hc
    obtain rfl : c = ':' := by simpa using hc
    rw [encode_ascii_cons hcolon]
    rfl

theorem head?_encode {a : Char} (h : a.toNat < 128) (text : List Char) :
    (encode text).head? = some (byte a) ↔ text.head? = some a := by
  cases text with
  | nil => simp
  | cons c rest =>
    cases hbytes : String.utf8EncodeChar c with
    | nil => exact absurd hbytes (encodeChar_ne_nil c)
    | cons b others =>
      rw [encode_cons, hbytes, List.cons_append, List.head?_cons, List.head?_cons,
        Option.some_inj, Option.some_inj]
      constructor
      · rintro rfl
        refine ofNat_mem_encodeChar h ?_
        rw [hbytes]
        exact List.mem_cons_self
      · rintro rfl
        rw [encodeChar_of_ascii h] at hbytes
        exact (List.cons.inj hbytes).1.symm

/-! ## The parser follows the interpretation -/

/-- The parser holds what the buffers hold, encoded.  Data beyond the limit is
the exception: of it the parser holds a part. -/
structure Follows (p : EventParser) (buffers : Buffers) : Prop where
  name : p.name = encode buffers.eventType
  lastID : p.lastID = encode buffers.lastEventId
  hasData : p.hasData = true ↔ buffers.data ≠ []
  data : p.data = encode buffers.data ∨ maxEventData < (encode buffers.data).length
  ended : buffers.data ≠ [] → ∃ lines, buffers.data = lines ++ ['\n']

def Message.Fits (message : Message) : Prop :=
  (encode message.data).length < maxEventData

instance (message : Message) : Decidable message.Fits :=
  inferInstanceAs (Decidable (_ < _))

theorem newline_ascii : ('\n' : Char).toNat < 128 := by decide

theorem encode_newline : encode ['\n'] = [byte '\n'] :=
  encodeChar_of_ascii newline_ascii

theorem follows_appendData {p : EventParser} {buffers : Buffers} (h : Follows p buffers)
    (value : List Char) :
    Follows (appendData p (encode value))
      { buffers with data := buffers.data ++ value ++ ['\n'] } := by
  have hlength : (encode (buffers.data ++ value ++ ['\n'])).length =
      (encode buffers.data).length + (encode value).length + 1 := by
    rw [encode_append, encode_append, encode_newline, List.length_append, List.length_append]
    rfl
  unfold appendData
  split
  case isTrue hlong =>
    refine ⟨h.name, h.lastID, by simp, .inr ?_, fun _ => ⟨_, rfl⟩⟩
    rw [hlength]
    rcases h.data with hdata | hdata
    · rw [← hdata]
      exact hlong
    · omega
  case isFalse hshort =>
    refine ⟨h.name, h.lastID, by simp, ?_, fun _ => ⟨_, rfl⟩⟩
    rcases h.data with hdata | hdata
    · left
      change p.data ++ encode value ++ [byte '\n'] = encode (buffers.data ++ value ++ ['\n'])
      rw [hdata, encode_append, encode_append, encode_newline]
    · right
      rw [hlength]
      omega

theorem zero_mem_encode (value : List Char) : (0 : UInt8) ∈ encode value ↔ '\x00' ∈ value :=
  ofNat_mem_encode (a := '\x00') (by decide) value

theorem follows_apply {p : EventParser} {buffers : Buffers} (h : Follows p buffers)
    (field value : List Char) :
    Follows (apply p (encode field) (encode value)) (processField buffers field value) := by
  unfold apply processField
  simp only [encode_injective.eq_iff]
  split
  · exact ⟨rfl, h.lastID, h.hasData, h.data, h.ended⟩
  split
  · exact follows_appendData h value
  split
  · simp only [zero_mem_encode]
    split
    · exact h
    · exact ⟨h.name, rfl, h.hasData, h.data, h.ended⟩
  split
  · split
    · exact ⟨h.name, h.lastID, h.hasData, h.data, h.ended⟩
    · exact h
  · exact h

/-- After a dispatch both sides start a new event. -/
theorem follows_reset {p : EventParser} {buffers : Buffers} (h : Follows p buffers) :
    Follows (reset p) { buffers with data := [], eventType := [] } :=
  ⟨rfl, h.lastID, by simp [reset], .inl rfl, fun hne => absurd rfl hne⟩

/-- An event with data is dispatched with the line end of its last line gone. -/
theorem dispatchMessage_ended {buffers : Buffers} {lines : List Char}
    (h : buffers.data = lines ++ ['\n']) :
    dispatchMessage buffers =
      (some ⟨if buffers.eventType = [] then "message".toList else buffers.eventType,
          buffers.lastEventId, lines⟩,
        { buffers with data := [], eventType := [] }) := by
  have hne : buffers.data ≠ [] := by
    rw [h]
    exact List.concat_ne_nil '\n' lines
  have hlast : buffers.data.getLast? = some '\n' := by
    rw [h]
    exact List.getLast?_concat
  have hlines : buffers.data.dropLast = lines := by
    rw [h]
    exact List.dropLast_concat
  rw [dispatchMessage, if_neg hne, if_pos hlast, hlines]

theorem dispatch_ended {p : EventParser} {lines : List Char} (h : p.hasData = true)
    (hdata : p.data = encode lines ++ [byte '\n']) :
    dispatch p =
      (some ⟨if p.name = [] then encode "message".toList else p.name, p.lastID, encode lines,
        p.truncated⟩, reset p) := by
  have htext : trimSuffix p.data (byte '\n') = encode lines := by
    rw [hdata, trimSuffix, if_pos List.getLast?_concat, List.dropLast_concat]
  rw [dispatch, h, htext, toValidUTF8_encode]
  rfl

theorem follows_dispatch {p : EventParser} {buffers : Buffers} (h : Follows p buffers)
    (hfits : ∀ message, (dispatchMessage buffers).1 = some message → message.Fits) :
    (dispatch p).1.map Event.parts = (dispatchMessage buffers).1.map Message.encoded ∧
      Follows (dispatch p).2 (dispatchMessage buffers).2 := by
  by_cases hempty : buffers.data = []
  · have hnone : p.hasData = false := by
      rw [← Bool.not_eq_true, h.hasData]
      exact not_not.2 hempty
    rw [dispatch, hnone, dispatchMessage, if_pos hempty]
    exact ⟨rfl, follows_reset h⟩
  · obtain ⟨lines, hlines⟩ := h.ended hempty
    rw [dispatchMessage_ended hlines] at hfits ⊢
    have hfit : (encode lines).length < maxEventData := hfits _ rfl
    have hdata : p.data = encode lines ++ [byte '\n'] := by
      rw [← encode_newline, ← encode_append, ← hlines]
      refine h.data.resolve_right ?_
      rw [hlines, encode_append, encode_newline, List.length_append]
      exact Nat.not_lt.2 hfit
    have hname : (if p.name = [] then encode "message".toList else p.name) =
        encode (if buffers.eventType = [] then "message".toList else buffers.eventType) := by
      rw [h.name]
      by_cases htype : buffers.eventType = []
      · rw [if_pos htype, htype, encode_nil, if_pos rfl]
      · rw [if_neg htype, if_neg fun hnil => htype (encode_eq_nil hnil)]
    rw [dispatch_ended (h.hasData.2 hempty) hdata, hname, h.lastID]
    exact ⟨rfl, follows_reset h⟩

theorem follows_consumeText {p : EventParser} {buffers : Buffers} (h : Follows p buffers)
    (line : List Char)
    (hfits : ∀ message, (processLine buffers line).1 = some message → message.Fits) :
    (consumeText p (encode line)).1.map Event.parts =
        (processLine buffers line).1.map Message.encoded ∧
      Follows (consumeText p (encode line)).2 (processLine buffers line).2 := by
  have hnil : encode line = [] ↔ line = [] :=
    ⟨encode_eq_nil, fun hline => by rw [hline, encode_nil]⟩
  have hspace : [byte ' '] = encode [' '] :=
    (encodeChar_of_ascii (c := ' ') (by decide)).symm
  unfold consumeText processLine at *
  simp only [hnil, head?_encode (a := ':') (by decide)]
  split
  case isTrue hline =>
    rw [if_pos hline] at hfits
    exact follows_dispatch h hfits
  split
  · exact ⟨rfl, h⟩
  · refine ⟨rfl, ?_⟩
    rw [cut_encode, hspace, trimPrefix_encode]
    exact follows_apply h _ _

/-! ## Whole streams -/

/-- What is done with lines does not touch what is carried of the next one. -/
structure SameCarry (p q : EventParser) : Prop where
  line : q.line = p.line
  skipLF : q.skipLF = p.skipLF
  started : q.started = p.started

theorem sameCarry_apply (p : EventParser) (field value : Bytes) :
    SameCarry p (apply p field value) := by
  unfold apply appendData
  split
  · exact ⟨rfl, rfl, rfl⟩
  split
  · split <;> exact ⟨rfl, rfl, rfl⟩
  split
  · split <;> exact ⟨rfl, rfl, rfl⟩
  split
  · split <;> exact ⟨rfl, rfl, rfl⟩
  · exact ⟨rfl, rfl, rfl⟩

theorem sameCarry_consumeText (p : EventParser) (line : Bytes) :
    SameCarry p (consumeText p line).2 := by
  unfold consumeText dispatch
  split
  · split <;> exact ⟨rfl, rfl, rfl⟩
  split
  · exact ⟨rfl, rfl, rfl⟩
  · exact sameCarry_apply p _ _

/-- A line that loses the byte order mark when it is the first one read. -/
def unmark (started : Bool) (line : List Char) : List Char :=
  if started then line else withoutMark line

theorem consumeLine_encode {p : EventParser} {line : List Char} (h : p.line = encode line) :
    consumeLine p =
      consumeText { p with line := [], started := true } (encode (unmark p.started line)) := by
  unfold consumeLine unmark
  cases hstarted : p.started with
  | false => simp [h, trimMark_encode]
  | true => simp [h]

theorem byte_ne {c d : Char} (hd : d.toNat < 128) (h : c ≠ d) {b : UInt8}
    (hb : b ∈ String.utf8EncodeChar c) : b ≠ byte d := by
  rintro rfl
  exact h (ofNat_mem_encodeChar hd hb)

theorem return_ascii : ('\r' : Char).toNat < 128 := by decide

/-- The bytes of a character that ends no line end none. -/
theorem isBreak_encodeChar {c : Char} (h : ¬ (c = '\r' ∨ c = '\n')) :
    ∀ b ∈ String.utf8EncodeChar c, isBreak b = false := by
  obtain ⟨hcr, hlf⟩ := not_or.1 h
  intro b hb
  simp [isBreak, byte_ne return_ascii hcr hb, byte_ne newline_ascii hlf hb]

/-- A line end of the text is one of the bytes. -/
theorem feedByte_break {p : EventParser} {c : Char} (hbreak : c = '\r' ∨ c = '\n')
    (hskip : ¬ (p.skipLF = true ∧ c = '\n')) :
    feedByte p (byte c) = consumeLine { p with skipLF := c = '\r' } := by
  rcases hbreak with rfl | rfl
  · rw [feedByte, if_neg (fun h => absurd h.2 (by decide)), if_pos (by decide)]
    rfl
  · rw [feedByte, if_neg (fun h => hskip ⟨h.1, rfl⟩), if_pos (by decide)]
    rfl

theorem modifyHead_unmark_true (lines : List (List Char)) :
    lines.modifyHead (unmark true) = lines := by
  cases lines <;> rfl

/-- The parser on an encoded text: its events are those of the lines the text
ends, the first after what is carried. -/
theorem feedBytes_follows (text : List Char) {p : EventParser} {buffers : Buffers}
    {line : List Char} (h : Follows p buffers) (hline : p.line = encode line)
    (hfits : ∀ message ∈ processLines buffers
      ((scan '\r' '\n' ⟨line, p.skipLF⟩ text).1.modifyHead (unmark p.started)), message.Fits) :
    (feedBytes p (encode text)).1.map Event.parts =
      (processLines buffers
        ((scan '\r' '\n' ⟨line, p.skipLF⟩ text).1.modifyHead (unmark p.started))).map
          Message.encoded := by
  induction text generalizing p buffers line with
  | nil => rfl
  | cons c text ih =>
    by_cases hskip : p.skipLF = true ∧ c = '\n'
    · -- The LF of a line that CR has ended.
      obtain ⟨hskip, rfl⟩ := hskip
      have hscan : (scan '\r' '\n' ⟨line, p.skipLF⟩ ('\n' :: text)).1 =
          (scan '\r' '\n' ⟨line, false⟩ text).1 := by
        rw [scan_cons, hskip, push_skip]
        rfl
      rw [hscan] at hfits ⊢
      have hrest := @ih { p with skipLF := false } buffers line
        ⟨h.name, h.lastID, h.hasData, h.data, h.ended⟩ hline hfits
      rw [encode_ascii_cons newline_ascii, feedBytes_cons, feedByte, if_pos ⟨hskip, rfl⟩]
      exact hrest
    by_cases hbreak : c = '\r' ∨ c = '\n'
    · have hc : c.toNat < 128 := by
        rcases hbreak with rfl | rfl <;> decide
      have hscan : (scan '\r' '\n' ⟨line, p.skipLF⟩ (c :: text)).1 =
          line :: (scan '\r' '\n' ⟨[], decide (c = '\r')⟩ text).1 := by
        rw [scan_cons, push_break line hbreak (fun hs hlf => hskip ⟨hs, hlf⟩)]
        rfl
      rw [hscan, List.modifyHead_cons, processLines] at hfits
      rw [hscan, List.modifyHead_cons, processLines]
      -- The parser after the line end, the line not yet looked at.
      let q : EventParser := { p with skipLF := c = '\r', line := [], started := true }
      have hq : Follows q buffers := ⟨h.name, h.lastID, h.hasData, h.data, h.ended⟩
      obtain ⟨hevent, hnext⟩ := follows_consumeText hq (unmark p.started line)
        (fun message hmessage => hfits message (by simp [hmessage]))
      have hcarry := sameCarry_consumeText q (encode (unmark p.started line))
      have hstep : feedByte p (UInt8.ofNat c.toNat) =
          consumeText q (encode (unmark p.started line)) := by
        refine (feedByte_break hbreak hskip).trans ?_
        exact @consumeLine_encode { p with skipLF := c = '\r' } line hline
      have hrest := @ih (consumeText q (encode (unmark p.started line))).2 _ [] hnext hcarry.line
      rw [hcarry.started, hcarry.skipLF, modifyHead_unmark_true] at hrest
      rw [encode_ascii_cons hc, feedBytes_cons, hstep, List.map_append, List.map_append,
        hrest fun message hmessage => hfits message (List.mem_append_right _ hmessage)]
      congr 1
      have hlists := congrArg Option.toList hevent
      rw [Option.toList_map, Option.toList_map] at hlists
      exact hlists
    · obtain ⟨hcr, hlf⟩ := not_or.1 hbreak
      have hscan : (scan '\r' '\n' ⟨line, p.skipLF⟩ (c :: text)).1 =
          (scan '\r' '\n' ⟨line ++ [c], false⟩ text).1 := by
        rw [scan_cons, push_other line p.skipLF hcr hlf]
        rfl
      rw [hscan] at hfits ⊢
      have hkept : p.line ++ String.utf8EncodeChar c = encode (line ++ [c]) := by
        rw [hline, encode_append, encode_cons, encode_nil, List.append_nil]
      have hrest := @ih { p with line := p.line ++ String.utf8EncodeChar c, skipLF := false }
        buffers (line ++ [c]) ⟨h.name, h.lastID, h.hasData, h.data, h.ended⟩ hkept hfits
      rw [encode_cons, feedBytes_append,
        feedBytes_text p (encodeChar_ne_nil c) (isBreak_encodeChar hbreak)]
      exact hrest

/-- Stripping the mark from the text is stripping it from the first line. -/
theorem terminated_withoutMark (text : List Char) :
    terminated '\r' '\n' [] (withoutMark text) =
      (terminated '\r' '\n' [] text).modifyHead withoutMark := by
  by_cases hmark : ['\uFEFF'] <+: text
  · obtain ⟨rest, rfl⟩ := hmark
    have hdrop : withoutMark (['\uFEFF'] ++ rest) = rest := if_pos (List.prefix_append _ _)
    rw [hdrop, List.singleton_append, terminated_cons (by decide) (by decide)]
    cases terminated '\r' '\n' [] rest with
    | nil => rfl
    | cons first others =>
      have hfirst : withoutMark ('\uFEFF' :: first) = first := if_pos ⟨first, rfl⟩
      rw [List.modifyHead_cons, List.modifyHead_cons, hfirst]
  · have htext : withoutMark text = text := if_neg hmark
    rw [htext]
    cases hlines : terminated '\r' '\n' [] text with
    | nil => rfl
    | cons first others =>
      have hfirst : withoutMark first = first :=
        if_neg fun hlead => hmark (hlead.trans (terminated_isPrefix hlines))
      rw [List.modifyHead_cons, hfirst]

theorem follows_zero : Follows .zero .empty :=
  ⟨rfl, rfl, by simp [EventParser.zero, Buffers.empty], .inl rfl, fun h => absurd rfl h⟩

/-- A fresh parser on a stream of UTF-8 gives the events of the interpretation. -/
theorem feed_interpret (text : List Char) (hfits : ∀ message ∈ interpret text, message.Fits) :
    (feed .zero (encode text)).1.map Event.parts = (interpret text).map Message.encoded := by
  have hrun := @feedBytes_follows text .zero .empty [] follows_zero rfl
  have hlines : (scan '\r' '\n' ⟨[], false⟩ text).1.modifyHead (unmark false) =
      terminated '\r' '\n' [] (withoutMark text) := by
    rw [terminated_withoutMark, scan_terminated]
    rfl
  rw [feed_eq]
  unfold interpret at *
  rw [← hlines] at hfits ⊢
  exact hrun hfits

/-- However a stream is cut, the parser comes to the same events and the same
state; and on a stream of UTF-8 whose events stay below the limit, its events
are those of the interpretation. -/
theorem event_stream_parsed :
    (∀ (p : EventParser) (a b : Bytes),
      (feed p (a ++ b)).1 = (feed p a).1 ++ (feed (feed p a).2 b).1 ∧
        (feed p (a ++ b)).2 = (feed (feed p a).2 b).2) ∧
      ∀ text : List Char, (∀ message ∈ interpret text, message.Fits) →
        (feed .zero (encode text)).1.map Event.parts = (interpret text).map Message.encoded := by
  constructor
  · intro p a b
    rw [feed_append]
    exact ⟨rfl, rfl⟩
  · exact feed_interpret

/-- A byte order mark, an event with an ID and two data lines, and a comment. -/
theorem event_stream_parsed_lines :
    (feed .zero (encode "\uFEFFid: 7\r\ndata: a\rdata:b\n\n:c\n\n".toList)).1.map Event.parts =
      [(encode "message".toList, encode "7".toList, encode "a\nb".toList)] :=
  event_stream_parsed.2 "\uFEFFid: 7\r\ndata: a\rdata:b\n\n:c\n\n".toList fun message hmessage => by
    have hall : interpret "\uFEFFid: 7\r\ndata: a\rdata:b\n\n:c\n\n".toList =
        [⟨"message".toList, "7".toList, "a\nb".toList⟩] := by rfl
    rw [hall, List.mem_singleton] at hmessage
    subst hmessage
    decide

end Gostman.Stream
