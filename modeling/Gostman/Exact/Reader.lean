import Gostman.Lib.Decided
import Gostman.Exact.Json
/-!
# The reader in step with `JSON.parse`

On a text that `JSON.parse` accepts the reader ends, at the end of the value,
with the same value but for its numbers, and what is written of that value is
read as the same value.
-/

namespace Gostman.Exact

open Gostman.Lib.EcmaJson

open scoped Gostman.Lib.Decided

/-! ## Positions -/

structure At (text : Units) (pos : Nat) (rest : Units) : Prop where
  le : pos ≤ text.length
  drop : text.drop pos = rest

section Positions

variable {text rest : Units} {pos : Nat}

theorem at_start (text : Units) : At text 0 text :=
  ⟨Nat.zero_le _, rfl⟩

theorem At.length (h : At text pos rest) : pos + rest.length = text.length := by
  have hle := h.le
  rw [← h.drop, List.length_drop]
  omega

theorem At.head {u : UInt16} (h : At text pos (u :: rest)) : text[pos]? = some u := by
  have hhead := congrArg List.head? h.drop
  rw [List.head?_drop] at hhead
  exact hhead

theorem At.lt {u : UInt16} (h : At text pos (u :: rest)) : pos < text.length := by
  have hlength := h.length
  rw [List.length_cons] at hlength
  omega

theorem At.getElem {u : UInt16} (h : At text pos (u :: rest)) (hlt : pos < text.length) : text[pos] = u := by
  have hhead := h.head
  rw [List.getElem?_eq_getElem hlt, Option.some.injEq] at hhead
  exact hhead

theorem At.next {u : UInt16} (h : At text pos (u :: rest)) : At text (pos + 1) rest := by
  refine ⟨h.lt, ?_⟩
  rw [← List.drop_drop, h.drop, List.drop_one, List.tail_cons]

theorem At.append {front : Units} (h : At text pos (front ++ rest)) : At text (pos + front.length) rest := by
  have hlength := h.length
  rw [List.length_append] at hlength
  refine ⟨by omega, ?_⟩
  rw [← List.drop_drop, h.drop, List.drop_left]

theorem At.ended (h : At text pos []) : ¬ pos < text.length := by
  have hlength := h.length
  rw [List.length_nil] at hlength
  omega

theorem At.none (h : At text pos []) : text[pos]? = none :=
  List.getElem?_eq_none (Nat.le_of_not_lt h.ended)

theorem At.slice {front : Units} (h : At text pos (front ++ rest)) : slice text pos (pos + front.length) = front := by
  unfold Exact.slice
  rw [List.drop_take, h.drop, Nat.add_sub_cancel_left, List.take_left]

theorem At.advance (accepts : UInt16 → Bool) (h : At text pos rest) :
    At text (advance accepts text pos) (rest.dropWhile accepts) := by
  induction rest generalizing pos with
  | nil =>
    rw [Exact.advance, dif_neg h.ended]
    exact h
  | cons u rest ih =>
    rw [Exact.advance, dif_pos h.lt, h.getElem]
    split_ifs with haccepts
    · rw [List.dropWhile_cons_of_pos haccepts]
      exact ih h.next
    · rw [List.dropWhile_cons_of_neg haccepts]
      exact h

theorem At.skipSpace (h : At text pos rest) : At text (skipSpace text pos) (skip rest) :=
  h.advance isSpace

end Positions

/-! ## Strings -/

theorem closing_quote {text rest : Units} {pos : Nat} (h : At text pos (quotationMark :: rest)) : closing text pos = some pos := by
  rw [closing, dif_pos h.lt, h.getElem, if_pos rfl]

theorem closing_unit {text rest : Units} {pos : Nat} {u : UInt16} (h : At text pos (u :: rest)) (hquote : u ≠ quotationMark)
    (hslash : u ≠ backslash) : closing text pos = closing text (pos + 1) := by
  rw [closing, dif_pos h.lt, h.getElem, if_neg hquote, if_neg hslash]

theorem closing_escape {text rest : Units} {pos : Nat} (h : At text pos (backslash :: rest)) :
    closing text pos = closing text (pos + 2) := by
  rw [closing, dif_pos h.lt, h.getElem, if_neg (by decide), if_pos rfl]

/-- The units of a string up to its end, which the loop of the reader finds. -/
def Spans (body units : Units) : Prop :=
  (∀ more, readString (body ++ quotationMark :: more) = some (units, more)) ∧
    ∀ text pos more, At text pos (body ++ quotationMark :: more) → closing text pos = some (pos + body.length)

theorem spans_nil : Spans [] [] := by
  refine ⟨fun more => readString_end more, ?_⟩
  intro text pos more h
  exact closing_quote h

theorem Spans.unit {body units : Units} (h : Spans body units) {u : UInt16} (hlow : ¬ u.toNat < 0x20) (hquote : u ≠ quotationMark)
    (hslash : u ≠ backslash) : Spans (u :: body) (u :: units) := by
  constructor
  · intro more
    rw [List.cons_append, readString_unit hlow hquote hslash, h.1]
    rfl
  · intro text pos more hat
    rw [closing_unit hat hquote hslash, h.2 text (pos + 1) more hat.next, List.length_cons]
    congr 1
    omega

theorem Spans.escape {body units : Units} (h : Spans body units) {e unit : UInt16} (he : e ≠ 0x75) (hunit : escaped e = some unit) :
    Spans (backslash :: e :: body) (unit :: units) := by
  constructor
  · intro more
    rw [List.cons_append, List.cons_append, readString_escape he hunit, h.1]
    rfl
  · intro text pos more hat
    rw [closing_escape hat, h.2 text (pos + 2) more hat.next.next, List.length_cons, List.length_cons]
    congr 1
    omega

theorem ne_of_hexValue {u : UInt16} {n : Nat} (h : hexValue u = some n) : u ≠ quotationMark ∧ u ≠ backslash := by
  constructor
  · rintro rfl
    exact absurd h (by decide +revert)
  · rintro rfl
    exact absurd h (by decide +revert)

theorem Spans.hex {body units : Units} (h : Spans body units) {a b c d unit : UInt16} (hunit : hex4 a b c d = some unit) :
    Spans (backslash :: 0x75 :: a :: b :: c :: d :: body) (unit :: units) := by
  constructor
  · intro more
    rw [List.cons_append, List.cons_append, List.cons_append, List.cons_append, List.cons_append, List.cons_append,
      readString_hex hunit, h.1]
    rfl
  · intro text pos more hat
    obtain ⟨w, ha, hrest⟩ := Option.bind_eq_some_iff.1 hunit
    obtain ⟨x, hb, hrest⟩ := Option.bind_eq_some_iff.1 hrest
    obtain ⟨y, hc, hrest⟩ := Option.bind_eq_some_iff.1 hrest
    obtain ⟨z, hd, -⟩ := Option.bind_eq_some_iff.1 hrest
    have hfirst := hat.next.next
    rw [closing_escape hat, closing_unit hfirst (ne_of_hexValue ha).1 (ne_of_hexValue ha).2,
      closing_unit hfirst.next (ne_of_hexValue hb).1 (ne_of_hexValue hb).2,
      closing_unit hfirst.next.next (ne_of_hexValue hc).1 (ne_of_hexValue hc).2,
      closing_unit hfirst.next.next.next (ne_of_hexValue hd).1 (ne_of_hexValue hd).2,
      h.2 text _ more hfirst.next.next.next.next]
    simp only [List.length_cons]
    congr 1
    omega

/-- A string that is read has a body up to its quotation mark. -/
theorem exists_spans {text units left : Units} (h : readString text = some (units, left)) :
    ∃ body, text = body ++ quotationMark :: left ∧ Spans body units := by
  fun_induction readString text generalizing units left with
  | case1 => cases h
  | case2 rest =>
    cases h
    exact ⟨[], rfl, spans_nil⟩
  | case3 a b c d more hquote ih =>
    obtain ⟨unit, hunit, hrest⟩ := Option.bind_eq_some_iff.1 h
    obtain ⟨⟨others, behind⟩, hread, hresult⟩ := Option.bind_eq_some_iff.1 hrest
    cases hresult
    obtain ⟨body, rfl, hspans⟩ := ih hread
    exact ⟨_, rfl, hspans.hex hunit⟩
  | case4 e a b c d more he hquote ih =>
    obtain ⟨unit, hunit, hrest⟩ := Option.bind_eq_some_iff.1 h
    obtain ⟨⟨others, behind⟩, hread, hresult⟩ := Option.bind_eq_some_iff.1 hrest
    cases hresult
    obtain ⟨body, hbody, hspans⟩ := ih hread
    exact ⟨backslash :: e :: body, by rw [hbody]; rfl, hspans.escape he hunit⟩
  | case5 e more hquote hshort ih =>
    obtain ⟨unit, hunit, hrest⟩ := Option.bind_eq_some_iff.1 h
    obtain ⟨⟨others, behind⟩, hread, hresult⟩ := Option.bind_eq_some_iff.1 hrest
    cases hresult
    obtain ⟨body, rfl, hspans⟩ := ih hread
    have he : e ≠ 0x75 := by
      rintro rfl
      cases hunit
    exact ⟨_, rfl, hspans.escape he hunit⟩
  | case6 => cases h
  | case7 => cases h
  | case8 u rest hquote hslash hlow ih =>
    obtain ⟨⟨others, behind⟩, hread, hresult⟩ := Option.map_eq_some_iff.1 h
    cases hresult
    obtain ⟨body, rfl, hspans⟩ := ih hread
    exact ⟨_, rfl, hspans.unit hlow hquote hslash⟩

theorem string_eq {text rest units left : Units} {pos : Nat} (hat : At text pos (quotationMark :: rest))
    (h : readString rest = some (units, left)) : ∃ stop, string text pos = some (units, stop) ∧ At text stop left := by
  obtain ⟨body, rfl, hreads, hcloses⟩ := exists_spans h
  have hclosing := hcloses text (pos + 1) left hat.next
  have hwhole : At text pos ((quotationMark :: body ++ [quotationMark]) ++ left) := by
    rw [List.append_assoc]
    exact hat
  have hstop := hwhole.append
  have hslice := hwhole.slice
  have hlength : pos + 1 + body.length + 1 = pos + (quotationMark :: body ++ [quotationMark]).length := by
    rw [List.length_append, List.length_cons, List.length_singleton]
    omega
  have hparse : parse id (quotationMark :: body ++ [quotationMark]) = some (.str units) := by
    apply parse_eq_some.2
    refine ⟨1, [], ?_, rfl⟩
    rw [List.cons_append, skip_of_head (by decide), readValue_quote, hreads]
    rfl
  refine ⟨pos + (quotationMark :: body ++ [quotationMark]).length, ?_, hstop⟩
  unfold string
  rw [hclosing]
  dsimp only [Option.bind_eq_bind, Option.bind_some]
  rw [hlength, hslice, hparse]

/-! ## Lists -/

section Lists

variable {text : Units} {close : UInt16} {α σ : Type} {item : Units → Option (α × Units)}
  {readItem : σ → Nat → Option (σ × Nat)} {push : σ → α → σ}

def InStep (text : Units) (close : UInt16) (item : Units → Option (α × Units)) (readItem : σ → Nat → Option (σ × Nat))
    (push : σ → α → σ) : Prop :=
  ∀ pos rest value left, At text pos rest → item rest = some (value, left) → text[pos]? ≠ some close ∧
    ∀ state, ∃ stop, readItem state pos = some (push state value, stop) ∧ At text stop left

theorem items_eq (hstep : InStep text close item readItem push) (hclose : Closes close) {fuel : Nat} {rest left : Units}
    {values : List α} (h : readItems item close fuel rest = some (values, left)) {pos : Nat} (hat : At text pos rest)
    {rounds : Nat} (hrounds : fuel + 1 ≤ rounds) (state : σ) :
    ∃ stop, items text close readItem rounds state pos = some (values.foldl push state, stop) ∧ At text stop left := by
  induction fuel generalizing rest values pos rounds state with
  | zero => cases h
  | succ fuel ih =>
    cases rounds with
    | zero => exact absurd hrounds (Nat.not_succ_le_zero _)
    | succ rounds =>
      obtain ⟨value, behind, hitem, hmore⟩ := exists_of_readItems h
      obtain ⟨hne, hread⟩ := hstep pos rest value behind hat hitem
      obtain ⟨stop, hstop, hbehind⟩ := hread state
      have hskip := hbehind.skipSpace
      rw [items, if_neg hne, hstop]
      dsimp only [Option.bind_eq_bind, Option.bind_some]
      rcases hmore with ⟨more, others, hcomma, hothers, rfl⟩ | ⟨hend, hcloseNe, rfl⟩
      · rw [hcomma] at hskip
        rw [hskip.head, if_pos rfl]
        exact ih hothers hskip.next.skipSpace (Nat.le_of_succ_le_succ hrounds) _
      · rw [hend] at hskip
        have hcomma : ¬ some close = some comma := by
          intro heq
          exact hcloseNe (Option.some.inj heq)
        rw [hskip.head, if_neg hcomma]
        have hagain := hskip.skipSpace
        rw [skip_of_head hclose.isSpace] at hagain
        cases rounds with
        | zero => omega
        | succ rounds =>
          rw [items, if_pos hagain.head]
          exact ⟨_, rfl, hagain.next⟩

theorem list_eq (hstep : InStep text close item readItem push) (hclose : Closes close) {rest left : Units} {values : List α}
    (h : readList item close rest = some (values, left)) {pos : Nat} (hat : At text pos rest) {rounds : Nat}
    (hrounds : text.length + 2 ≤ rounds) (state : σ) :
    ∃ stop, items text close readItem rounds state (skipSpace text pos) = some (values.foldl push state, stop) ∧
      At text stop left := by
  have hskip := hat.skipSpace
  rcases exists_of_readList h with ⟨hempty, rfl⟩ | ⟨u, behind, hitems, -, hread⟩
  · rw [hempty] at hskip
    cases rounds with
    | zero => omega
    | succ rounds =>
      rw [items, if_pos hskip.head]
      exact ⟨_, rfl, hskip.next⟩
  · rw [hitems] at hskip
    have hlength := hskip.length
    rw [List.length_cons] at hlength
    exact items_eq hstep hclose hread hskip (by omega) state

end Lists

/-! ## Values -/

/-- A reader of values in step with a reading of values, blanks in front. -/
def ValueInStep (text : Units) (item : Units → Option (Value Units × Units)) (read : Nat → Option (Value Units × Nat)) : Prop :=
  ∀ pos rest value left, At text pos rest → item (skip rest) = some (value, left) →
    ∃ stop, read pos = some (value, stop) ∧ At text stop left

theorem inStep_element {text : Units} {fuel : Nat} {read : Nat → Option (Value Units × Nat)}
    (h : ValueInStep text (readValue id fuel) read) :
    InStep text closeBracket (readValue id fuel) (readElement read) fun list item => list ++ [item] := by
  intro pos rest value left hat hitem
  obtain ⟨u, behind, rfl, hspace, hne⟩ := head_of_readValue hitem
  refine ⟨?_, ?_⟩
  · rw [hat.head]
    intro heq
    exact hne (Option.some.inj heq)
  · intro state
    obtain ⟨stop, hstop, hleft⟩ := h pos _ value left hat (by rw [skip_of_head hspace]; exact hitem)
    refine ⟨stop, ?_, hleft⟩
    unfold readElement
    rw [hstop]
    rfl

theorem inStep_field {text : Units} {fuel : Nat} {read : Nat → Option (Value Units × Nat)}
    (h : ValueInStep text (readValue id fuel) read) :
    InStep text closeBrace (readMember (readValue id fuel)) (readField text read)
      fun holder member => setOwn holder member.1 member.2 := by
  intro pos rest member left hat hitem
  obtain ⟨behind, others, after, rfl, hkey, hcolon, hvalue⟩ := exists_of_readMember hitem
  refine ⟨?_, ?_⟩
  · rw [hat.head]
    decide
  · intro state
    obtain ⟨stop, hstop, hothers⟩ := string_eq hat hkey
    have hskip := hothers.skipSpace
    rw [hcolon] at hskip
    obtain ⟨ending, hending, hleft⟩ := h _ after member.2 left hskip.next hvalue
    refine ⟨ending, ?_, hleft⟩
    unfold readField
    rw [hstop]
    dsimp only [Option.bind_eq_bind, Option.bind_some]
    rw [hending]
    rfl

theorem foldl_append_singleton {α : Type} (items list : List α) :
    items.foldl (fun list item => list ++ [item]) list = list ++ items := by
  induction items generalizing list with
  | nil => exact (List.append_nil list).symm
  | cons item rest ih => rw [List.foldl_cons, ih, List.append_assoc, List.singleton_append]

/-- The reader reads what `JSON.parse` reads, up to the same position. -/
theorem value_eq {text : Units} {depth fuel : Nat} (hfuel : depth + text.length + 2 ≤ fuel) :
    ValueInStep text (readValue id depth) (value text fuel) := by
  induction depth generalizing fuel with
  | zero =>
    intro pos rest value left _ h
    cases h
  | succ depth ih =>
    cases fuel with
    | zero => exact absurd hfuel (Nat.not_succ_le_zero _)
    | succ fuel =>
      intro pos rest result left hat h
      have hinner : ValueInStep text (readValue id depth) (value text fuel) := ih (by omega)
      have hskip := hat.skipSpace
      obtain ⟨u, behind, hrest, hkind⟩ := exists_of_readValue h
      rw [hrest] at hskip
      have hhead := hskip.head
      have hrounds : text.length + 2 ≤ fuel := by omega
      have hother : ∀ v, u ≠ v → ¬ some u = some v := by
        intro v hne heq
        exact hne (Option.some.inj heq)
      rw [value]
      dsimp only
      rw [hhead]
      rcases hkind with ⟨rfl, members, hread, rfl⟩ | ⟨rfl, list, hread, rfl⟩ | ⟨rfl, units, hread, rfl⟩ | ⟨rfl, heq, rfl⟩ |
        ⟨rfl, heq, rfl⟩ | ⟨rfl, heq, rfl⟩ | ⟨hleft, hnumber, rfl⟩
      · obtain ⟨stop, hstop, hend⟩ := list_eq (inStep_field hinner) closes_brace hread hskip.next hrounds []
        rw [if_pos rfl, hstop]
        exact ⟨stop, rfl, hend⟩
      · obtain ⟨stop, hstop, hend⟩ := list_eq (inStep_element hinner) closes_bracket hread hskip.next hrounds []
        rw [if_neg (by decide), if_pos rfl, hstop, foldl_append_singleton]
        exact ⟨stop, rfl, hend⟩
      · obtain ⟨stop, hstop, hend⟩ := string_eq hskip hread
        rw [if_neg (by decide), if_neg (by decide), if_pos rfl, hstop]
        exact ⟨stop, rfl, hend⟩
      · rw [if_neg (by decide), if_neg (by decide), if_neg (by decide), if_pos rfl]
        rw [← hrest, heq] at hskip
        exact ⟨_, rfl, hskip.append⟩
      · rw [if_neg (by decide), if_neg (by decide), if_neg (by decide), if_neg (by decide), if_pos rfl]
        rw [← hrest, heq] at hskip
        exact ⟨_, rfl, hskip.append⟩
      · rw [if_neg (by decide), if_neg (by decide), if_neg (by decide), if_neg (by decide), if_neg (by decide), if_pos rfl]
        rw [← hrest, heq] at hskip
        exact ⟨_, rfl, hskip.append⟩
      · obtain ⟨first, digits, hdigits⟩ := exists_of_isNumber hnumber
        have hunit : isNumberUnit u = true := by
          by_contra hnot
          rw [hrest, List.takeWhile_cons_of_neg hnot] at hdigits
          cases hdigits
        have hne : ∀ v, isNumberUnit v = false → ¬ some u = some v := by
          intro v hv
          apply hother
          rintro rfl
          rw [hunit] at hv
          cases hv
        rw [if_neg (hne _ (by decide)), if_neg (hne _ (by decide)), if_neg (hne _ (by decide)), if_neg (hne _ (by decide)),
          if_neg (hne _ (by decide)), if_neg (hne _ (by decide))]
        rw [← hrest] at hskip
        have hend := hskip.advance isNumberUnit
        have hsplit := List.takeWhile_append_dropWhile (p := isNumberUnit) (l := skip rest)
        have hstop : advance isNumberUnit text (skipSpace text pos) =
            skipSpace text pos + ((skip rest).takeWhile isNumberUnit).length := by
          have hwhole := congrArg List.length hsplit
          have hbefore := hskip.length
          have hbehind := hend.length
          rw [List.length_append] at hwhole
          omega
        rw [← hsplit] at hskip
        rw [hleft] at hend
        refine ⟨_, ?_, hend⟩
        rw [hstop, hskip.slice]
        rfl

/-! ## What `parseExact` keeps -/

/-- A position at the end of a value: what is left are blanks, and the unit in
front of it is none. -/
def EndsValue (text : Units) (stop : Nat) : Prop :=
  (∀ u ∈ text.drop stop, isSpace u = true) ∧ ∃ last, text[stop - 1]? = some last ∧ isSpace last = false

/-- The reading from the start of a text that `JSON.parse` accepts. -/
theorem value_start {text : Units} {read : Value Units} (h : parse id text = some read) :
    ∃ stop, EndsValue text stop ∧ ∀ fuel, 2 * text.length + 3 ≤ fuel → value text fuel 0 = some (read, stop) := by
  obtain ⟨depth, rest, hread, hend⟩ := parse_eq_some.1 h
  have henough := readValue_enough hread (Nat.le_trans (length_skip_le text) (Nat.le_succ text.length))
  obtain ⟨first, last, hsplit, hlast⟩ := (consumes_readValue depth (skip text) read rest hread).of_skip
  refine ⟨first.length + 1, ⟨?_, last, ?_, hlast⟩, ?_⟩
  · intro u hu
    rw [hsplit, ← List.drop_drop, List.drop_left, List.drop_one, List.tail_cons] at hu
    exact List.dropWhile_eq_nil_iff.1 hend u hu
  · rw [hsplit, Nat.add_sub_cancel, List.getElem?_append_right (Nat.le_refl _), Nat.sub_self]
    rfl
  · intro fuel hfuel
    have hstep := @value_eq text (text.length + 1) fuel (by omega)
    obtain ⟨stop, hstop, hat⟩ := hstep 0 text read rest (at_start text) henough
    have hlength := congrArg List.length hsplit
    have hbehind := hat.length
    rw [List.length_append, List.length_cons] at hlength
    have hsame : stop = first.length + 1 := by omega
    rw [hstop, hsame]

/-- Enough fuel gives what `JSON.parse` gives. -/
theorem parseExact_eq {text : Units} {read : Value Units} (h : parse id text = some read) {fuel : Nat}
    (hfuel : 2 * text.length + 3 ≤ fuel) : parseExact fuel text = some read := by
  obtain ⟨stop, -, hvalue⟩ := value_start h
  unfold parseExact
  rw [h, hvalue fuel hfuel]
  rfl

theorem good_of_parse {text : Units} {read : Value Units} (h : parse id text = some read) : Good read := by
  obtain ⟨depth, rest, hread, -⟩ := parse_eq_some.1 h
  exact good_of_readValue hread

/-- On a text that `JSON.parse` accepts the reader ends at the end of the
value, with the value that has the texts of the numbers for them, and what is
written of it is read as the same value. -/
theorem parseExact_keeps {text : Units} {read : Value Units} (h : parse id text = some read) :
    (∃ stop, EndsValue text stop ∧ ∀ fuel, 2 * text.length + 3 ≤ fuel → value text fuel 0 = some (read, stop)) ∧
      (∀ {ν : Type} (number : Units → ν), parse number text = some (read.mapNumbers number)) ∧
        ∀ indent, ∃ enough, ∀ fuel, enough ≤ fuel → parseExact fuel text = some read ∧
          parseExact fuel (stringifyExact indent 0 read) = some read := by
  refine ⟨value_start h, ?_, ?_⟩
  · intro ν number
    rw [parse_map, h]
    rfl
  · intro indent
    have hwritten := parse_stringifyExact (good_of_parse h) indent
    refine ⟨max (2 * text.length + 3) (2 * (stringifyExact indent 0 read).length + 3), ?_⟩
    intro fuel hfuel
    exact ⟨parseExact_eq h (by omega), parseExact_eq hwritten (by omega)⟩

def protoText : Units :=
  openBrace :: quote (ascii "__proto__") ++ colon :: ascii "1.50" ++ [closeBrace]

theorem proto_kept :
    ∃ enough, ∀ fuel, enough ≤ fuel →
      parseExact fuel protoText = some (.obj [(ascii "__proto__", .num (ascii "1.50"))]) ∧
        parseExact fuel (stringifyExact 2 0 (.obj [(ascii "__proto__", .num (ascii "1.50"))])) =
          some (.obj [(ascii "__proto__", .num (ascii "1.50"))]) := by
  have hwritten : stringifyExact 0 0 (.obj [(ascii "__proto__", .num (ascii "1.50"))]) = protoText := by
    decide +kernel
  have hgood : Good (.obj [(ascii "__proto__", .num (ascii "1.50"))]) := by
    apply Good.obj (ordered_ofMembers [(ascii "__proto__", .num (ascii "1.50"))])
    intro field hfield
    rw [List.mem_singleton.1 hfield]
    exact .num (by decide +kernel) (by decide +kernel)
  have hparse := parse_stringifyExact hgood 0
  rw [hwritten] at hparse
  exact (parseExact_keeps hparse).2.2 2

end Gostman.Exact
