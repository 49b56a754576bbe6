import Gostman.Go.Json
import Mathlib.Data.List.TakeWhile
/-!
# What the decoder reads, it reads anywhere

A value is read the same whatever stands behind it, as long as that does not
go on with a number; a quoted text is read back as the text.
-/

namespace Gostman.Go.Json

open Lib

/-! ## Values -/

def isNumberByte (b : UInt8) : Bool :=
  isDigit b || b == 0x2E || b == 0x65 || b == 0x45 || b == 0x2B || b == 0x2D

def Separate (rest : Bytes) : Prop :=
  ∀ b ∈ rest.head?, isNumberByte b = false

theorem separate_nil : Separate [] := by
  intro b hb
  cases hb

theorem separate_cons {b : UInt8} {rest : Bytes} :
    Separate (b :: rest) ↔ isNumberByte b = false := by
  simp [Separate]

theorem not_isNumberByte_of_isSpace {b : UInt8} (h : isSpace b = true) :
    isNumberByte b = false := by
  simp only [isSpace, Bool.or_eq_true, beq_iff_eq] at h
  rcases h with ((rfl | rfl) | rfl) | rfl <;> decide

theorem endValue_eq_ended {stack : List Inside} {b : UInt8} :
    endValue stack b = .ended ↔ stack = [] := by
  cases stack with
  | nil => simp [endValue]
  | cons inside outer =>
    have hpop : pop outer ≠ .ended := by cases outer <;> simp [pop]
    constructor
    · intro h
      unfold endValue at h
      split at h <;> rename_i heq
      · cases heq
      · cases heq
        split at h
        · cases h
        · cases inside <;> simp only at h <;> split_ifs at h <;> exact absurd h hpop
    · intro h
      cases h

theorem push_ne_ended (mode : Mode) (inside : Inside) (stack : List Inside) :
    push mode inside stack ≠ .ended := by
  unfold push
  split_ifs <;> exact fun h => nomatch h

theorem beginValue_ne_ended (stack : List Inside) (b : UInt8) : beginValue stack b ≠ .ended := by
  unfold beginValue
  split_ifs <;> first | exact push_ne_ended _ _ _ | exact fun h => nomatch h

theorem beginString_ne_ended (stack : List Inside) (b : UInt8) :
    beginString stack b ≠ .ended := by
  unfold beginString
  split_ifs <;> exact fun h => nomatch h

theorem afterSign_ne_ended (stack : List Inside) (b : UInt8) : afterSign stack b ≠ .ended := by
  unfold afterSign
  split_ifs <;> exact fun h => nomatch h

theorem afterZero_ended {stack : List Inside} {b c : UInt8}
    (h : afterZero stack b = .ended) (hc : isNumberByte c = false) :
    afterZero stack c = .ended := by
  have hstack : stack = [] := by
    unfold afterZero at h
    split_ifs at h
    exact endValue_eq_ended.1 h
  simp only [isNumberByte, Bool.or_eq_false_iff, beq_eq_false_iff_ne] at hc
  simp [afterZero, hstack, hc, endValue]

/-- Where a byte finds the value at its end, any byte that does not go on
with a number does. -/
theorem step_ended {scanner : Scanner} {b c : UInt8} (h : step scanner b = .ended)
    (hc : isNumberByte c = false) : step scanner c = .ended := by
  have hdigit : isDigit c = false := by
    simp only [isNumberByte, Bool.or_eq_false_iff] at hc
    exact hc.1.1.1.1.1
  obtain ⟨mode, stack⟩ := scanner
  cases mode with
  | endValue =>
    exact endValue_eq_ended.2 (endValue_eq_ended.1 h)
  | digits =>
    simp only [step] at h ⊢
    split_ifs at h
    rw [hdigit]
    exact afterZero_ended h hc
  | zero => exact afterZero_ended h hc
  | dot0 =>
    simp only [step] at h ⊢
    split_ifs at h
    simp only [isNumberByte, Bool.or_eq_false_iff, beq_eq_false_iff_ne] at hc
    simp only [hc, or_self, Bool.false_eq_true, if_false]
    exact endValue_eq_ended.2 (endValue_eq_ended.1 h)
  | exp0 =>
    simp only [step] at h ⊢
    split_ifs at h
    rw [hdigit]
    exact endValue_eq_ended.2 (endValue_eq_ended.1 h)
  | beginValueOrEmpty =>
    simp only [step] at h
    split_ifs at h
    · split at h
      · exact absurd (endValue_eq_ended.1 h) (by simp)
      · cases h
    · exact absurd h (beginValue_ne_ended _ _)
  | beginValue => exact absurd h (beginValue_ne_ended _ _)
  | beginString => exact absurd h (beginString_ne_ended _ _)
  | beginStringOrEmpty =>
    simp only [step] at h
    split_ifs at h
    · split at h
      · exact absurd (endValue_eq_ended.1 h) (by simp)
      · cases h
    · exact absurd h (beginString_ne_ended _ _)
  | exp =>
    simp only [step] at h
    split_ifs at h
    exact absurd h (afterSign_ne_ended _ _)
  | expSign => exact absurd h (afterSign_ne_ended _ _)
  | inString | inStringEsc | inStringEscU | neg | dot =>
    simp only [step] at h
    split_ifs at h
  | literal left =>
    cases left with
    | nil => cases h
    | cons expected left =>
      simp only [step] at h
      split_ifs at h

theorem scanFrom_nil {scanner : Scanner} {value rest : Bytes}
    (h : scanFrom scanner [] = some (value, rest)) :
    step scanner 0x20 = .ended ∧ value = [] ∧ rest = [] := by
  unfold scanFrom at h
  split_ifs at h with hended
  cases h
  exact ⟨hended, rfl, rfl⟩

theorem scanFrom_of_ended {scanner : Scanner} {b : UInt8} (h : step scanner b = .ended)
    {rest : Bytes} (hrest : Separate rest) : scanFrom scanner rest = some ([], rest) := by
  cases rest with
  | nil => rw [scanFrom, if_pos (step_ended h (by decide))]
  | cons c rest => simp only [scanFrom, step_ended h (separate_cons.1 hrest)]

/-- What the scanner takes does not depend on what stands behind it. -/
theorem scanFrom_kept {scanner : Scanner} {bytes value rest : Bytes}
    (h : scanFrom scanner bytes = some (value, rest)) :
    bytes = value ++ rest ∧
      ∀ other, Separate other → scanFrom scanner (value ++ other) = some (value, other) := by
  induction bytes generalizing scanner value with
  | nil =>
    obtain ⟨hended, rfl, rfl⟩ := scanFrom_nil h
    exact ⟨rfl, fun other hother => scanFrom_of_ended hended hother⟩
  | cons b bytes ih =>
    simp only [scanFrom] at h
    split at h
    case h_1 next hstep =>
      obtain ⟨⟨taken, left⟩, htaken, heq⟩ := Option.map_eq_some_iff.1 h
      cases heq
      obtain ⟨hbytes, hkept⟩ := ih htaken
      refine ⟨by rw [hbytes]; rfl, ?_⟩
      intro other hother
      simp only [List.cons_append, scanFrom, hstep, hkept other hother, Option.map_some]
    case h_2 hstep =>
      cases h
      refine ⟨rfl, ?_⟩
      intro other _
      simp only [List.singleton_append, scanFrom, hstep]
    case h_3 hstep =>
      cases h
      exact ⟨rfl, fun other hother => scanFrom_of_ended hstep hother⟩
    case h_4 => cases h

theorem peek_of_head {b : UInt8} (h : isSpace b = false) (rest : Bytes) :
    peek (b :: rest) = b :: rest := by
  simp [peek, h]

theorem exists_blanks (bytes : Bytes) :
    ∃ blanks, bytes = blanks ++ peek bytes ∧ ∀ b ∈ blanks, isSpace b = true := by
  refine ⟨bytes.takeWhile isSpace, List.takeWhile_append_dropWhile.symm, ?_⟩
  intro b hb
  exact List.mem_takeWhile_imp hb

theorem peek_append {blanks : Bytes} (h : ∀ b ∈ blanks, isSpace b = true) (rest : Bytes) :
    peek (blanks ++ rest) = peek rest := by
  unfold peek
  rw [List.dropWhile_append_of_pos h]

theorem isSpace_of_peek {bytes rest : Bytes} {b : UInt8} (h : peek bytes = b :: rest) :
    isSpace b = false := by
  have hhead := List.head_dropWhile_not (p := isSpace) (l := bytes) (by unfold peek at h; simp [h])
  unfold peek at h
  simpa [h] using hhead

def IsValue (raw : Bytes) : Prop :=
  readValue raw = some (raw, [])

theorem scanFrom_beginValue {bytes value rest : Bytes}
    (h : scanFrom ⟨.beginValue, []⟩ (peek bytes) = some (value, rest)) :
    ∃ b tail, value = b :: tail ∧ isSpace b = false := by
  cases hpeek : peek bytes with
  | nil =>
    rw [hpeek] at h
    cases h
  | cons b tail =>
    have hspace := isSpace_of_peek hpeek
    rw [hpeek] at h
    cases value with
    | nil =>
      simp only [scanFrom] at h
      split at h
      · simp at h
      · cases h
      · rename_i hended
        exact absurd hended (beginValue_ne_ended _ _)
      · cases h
    | cons c taken =>
      have hbytes := (scanFrom_kept h).1
      rw [List.cons_append, List.cons.injEq] at hbytes
      exact ⟨c, taken, rfl, hbytes.1 ▸ hspace⟩

theorem readValue_kept {bytes raw rest : Bytes} (h : readValue bytes = some (raw, rest)) :
    ∀ other, Separate other → readValue (raw ++ other) = some (raw, other) := by
  intro other hother
  obtain ⟨b, tail, rfl, hspace⟩ := scanFrom_beginValue h
  unfold readValue
  rw [List.cons_append, peek_of_head hspace]
  exact (scanFrom_kept h).2 other hother

theorem isValue_of_readValue {bytes raw rest : Bytes} (h : readValue bytes = some (raw, rest)) :
    IsValue raw := by
  have hraw := readValue_kept h [] separate_nil
  rwa [List.append_nil] at hraw

theorem IsValue.append {raw : Bytes} (h : IsValue raw) {rest : Bytes} (hrest : Separate rest) :
    readValue (raw ++ rest) = some (raw, rest) :=
  readValue_kept h rest hrest

theorem readValue_append {blanks : Bytes} (h : ∀ b ∈ blanks, isSpace b = true) (rest : Bytes) :
    readValue (blanks ++ rest) = readValue rest := by
  unfold readValue
  rw [peek_append h]

theorem exists_of_readValue {bytes raw rest : Bytes} (h : readValue bytes = some (raw, rest)) :
    ∃ blanks, bytes = blanks ++ (raw ++ rest) ∧ ∀ b ∈ blanks, isSpace b = true := by
  obtain ⟨blanks, hbytes, hblanks⟩ := exists_blanks bytes
  exact ⟨blanks, by rw [← (scanFrom_kept h).1]; exact hbytes, hblanks⟩

/-! ## Members -/

/-- A byte that has to come is found behind blanks. -/
theorem exists_of_pass {expected : UInt8} {bytes rest : Bytes}
    (h : pass expected bytes = some rest) :
    ∃ blanks, bytes = blanks ++ expected :: rest ∧ (∀ b ∈ blanks, isSpace b = true) ∧
      isSpace expected = false := by
  obtain ⟨blanks, hbytes, hblanks⟩ := exists_blanks bytes
  unfold pass at h
  split at h
  · cases h
  · rename_i b tail hpeek
    split_ifs at h with hb
    cases h
    subst hb
    exact ⟨blanks, by rw [← hpeek]; exact hbytes, hblanks, isSpace_of_peek hpeek⟩

theorem pass_append {expected : UInt8} (hspace : isSpace expected = false) {blanks : Bytes}
    (hblanks : ∀ b ∈ blanks, isSpace b = true) (rest : Bytes) :
    pass expected (blanks ++ expected :: rest) = some rest := by
  unfold pass
  rw [peek_append hblanks, peek_of_head hspace]
  exact if_pos rfl

/-- Blanks and a byte that is no part of a number may stand behind a value. -/
theorem separate_append {b : UInt8} (hb : isNumberByte b = false) {blanks : Bytes}
    (hblanks : ∀ c ∈ blanks, isSpace c = true) (rest : Bytes) :
    Separate (blanks ++ b :: rest) := by
  cases blanks with
  | nil => exact separate_cons.2 hb
  | cons c blanks => exact separate_cons.2 (not_isNumberByte_of_isSpace (hblanks c (by simp)))

theorem head_peek_readValue {bytes raw rest : Bytes} (h : readValue bytes = some (raw, rest)) :
    (peek bytes).head? = raw.head? := by
  obtain ⟨b, tail, rfl, -⟩ := scanFrom_beginValue h
  rw [(scanFrom_kept h).1]
  rfl

theorem exists_of_readString {bytes rest : Bytes} {name : List Char}
    (h : readString bytes = some (name, rest)) :
    ∃ blanks quoted, bytes = blanks ++ (quoted ++ rest) ∧ (∀ b ∈ blanks, isSpace b = true) ∧
      IsValue quoted ∧ quoted.head? = some 0x22 ∧ unquote quoted = some name := by
  unfold readString at h
  split_ifs at h with hhead
  obtain ⟨⟨quoted, left⟩, hvalue, hunquote⟩ := Option.bind_eq_some_iff.1 h
  obtain ⟨text, htext, heq⟩ := Option.map_eq_some_iff.1 hunquote
  cases heq
  obtain ⟨blanks, hbytes, hblanks⟩ := exists_of_readValue hvalue
  rw [head_peek_readValue hvalue] at hhead
  exact ⟨blanks, quoted, hbytes, hblanks, isValue_of_readValue hvalue, hhead, htext⟩

theorem readString_append {blanks quoted rest : Bytes} {name : List Char}
    (hblanks : ∀ b ∈ blanks, isSpace b = true) (hvalue : IsValue quoted)
    (hhead : quoted.head? = some 0x22) (hunquote : unquote quoted = some name)
    (hrest : Separate rest) : readString (blanks ++ (quoted ++ rest)) = some (name, rest) := by
  have hread : readValue (blanks ++ (quoted ++ rest)) = some (quoted, rest) := by
    rw [readValue_append hblanks]
    exact hvalue.append hrest
  unfold readString
  rw [head_peek_readValue hread, if_pos hhead, hread]
  simp [hunquote]

/-- A name behind what leads to it.  Where there is a member before, that
starts with blanks or the comma. -/
theorem exists_of_readName {first : Bool} {bytes rest : Bytes} {name : List Char}
    (h : readName first bytes = some (name, rest)) :
    ∃ lead, bytes = lead ++ rest ∧
      (first = false → ∀ other, Separate (lead ++ other)) ∧
      ∀ other, Separate other → readName first (lead ++ other) = some (name, other) := by
  unfold readName at h ⊢
  cases first with
  | true =>
    obtain ⟨blanks, quoted, hbytes, hblanks, hvalue, hhead, hunquote⟩ :=
      exists_of_readString (by simpa using h)
    refine ⟨blanks ++ quoted, by rw [hbytes, List.append_assoc], by simp, ?_⟩
    intro other hother
    rw [if_pos rfl, List.append_assoc]
    exact readString_append hblanks hvalue hhead hunquote hother
  | false =>
    obtain ⟨behind, hpass, hstring⟩ := Option.bind_eq_some_iff.1 (by simpa using h)
    obtain ⟨before, hbytes, hbefore, hspace⟩ := exists_of_pass hpass
    obtain ⟨blanks, quoted, rfl, hblanks, hvalue, hhead, hunquote⟩ := exists_of_readString hstring
    refine ⟨before ++ 0x2C :: (blanks ++ quoted), by simp [hbytes], ?_, ?_⟩
    · intro _ other
      rw [List.append_assoc]
      exact separate_append (by decide) hbefore _
    · intro other hother
      rw [if_neg (by simp), List.append_assoc, List.cons_append, pass_append hspace hbefore,
        Option.bind_some, List.append_assoc]
      exact readString_append hblanks hvalue hhead hunquote hother

/-- A member: what leads to its value, the value, and what is left.  Any other
value in its place makes the same member with that value. -/
theorem exists_of_readMember {first : Bool} {bytes rest raw : Bytes} {name : List Char}
    (h : readMember first bytes = some ((name, raw), rest)) :
    ∃ lead, bytes = lead ++ (raw ++ rest) ∧ IsValue raw ∧
      (first = false → ∀ other, Separate (lead ++ other)) ∧
      ∀ value other, IsValue value → Separate other →
        readMember first (lead ++ (value ++ other)) = some ((name, value), other) := by
  simp only [readMember, Option.bind_eq_bind, Option.bind_eq_some_iff, Prod.exists, Option.pure_def,
    Option.some.injEq, Prod.mk.injEq] at h
  obtain ⟨readAs, behind, hname, value, hpass, taken, left, hvalue, ⟨rfl, rfl⟩, rfl⟩ := h
  obtain ⟨lead, rfl, hlead, hkept⟩ := exists_of_readName hname
  obtain ⟨before, rfl, hbefore, hspace⟩ := exists_of_pass hpass
  obtain ⟨blanks, rfl, hblanks⟩ := exists_of_readValue hvalue
  refine ⟨lead ++ (before ++ 0x3A :: blanks), by simp, isValue_of_readValue hvalue, ?_, ?_⟩
  · intro hfirst other
    rw [List.append_assoc]
    exact hlead hfirst _
  · intro value other hnew hother
    have hcolon : Separate (before ++ 0x3A :: (blanks ++ (value ++ other))) :=
      separate_append (by decide) hbefore _
    have hlist : lead ++ (before ++ 0x3A :: blanks) ++ (value ++ other) =
        lead ++ (before ++ 0x3A :: (blanks ++ (value ++ other))) := by simp
    rw [hlist]
    simp only [readMember, hkept _ hcolon, pass_append hspace hbefore, readValue_append hblanks,
      hnew.append hother, Option.bind_eq_bind, Option.bind_some, Option.pure_def]

/-! ## Quoted texts -/

/-- Inside a quoted text the scanner passes these bytes. -/
def Stays (body : Bytes) : Prop :=
  ∀ rest, scanFrom ⟨.inString, []⟩ (body ++ rest) =
    (scanFrom ⟨.inString, []⟩ rest).map fun (value, left) => (body ++ value, left)

theorem scanFrom_goes {scanner next : Scanner} {b : UInt8} (h : step scanner b = .goes next)
    (rest : Bytes) :
    scanFrom scanner (b :: rest) =
      (scanFrom next rest).map fun (value, left) => (b :: value, left) := by
  simp only [scanFrom, h]

theorem stays_nil : Stays [] := by
  intro rest
  simp

theorem Stays.append {body more : Bytes} (h : Stays body) (hmore : Stays more) :
    Stays (body ++ more) := by
  intro rest
  rw [List.append_assoc, h, hmore, Option.map_map]
  simp [Function.comp_def]

theorem stays_flatMap {α : Type} {write : α → Bytes} (h : ∀ a, Stays (write a)) (list : List α) :
    Stays (list.flatMap write) := by
  induction list with
  | nil => exact stays_nil
  | cons a list ih =>
    rw [List.flatMap_cons]
    exact (h a).append ih

def Plain (b : UInt8) : Prop :=
  b ≠ 0x22 ∧ b ≠ 0x5C ∧ ¬ b < 0x20

theorem stays_of_plain {body : Bytes} (h : ∀ b ∈ body, Plain b) : Stays body := by
  induction body with
  | nil => exact stays_nil
  | cons b body ih =>
    obtain ⟨hquote, hslash, hlow⟩ := h b (by simp)
    have hstep : step ⟨.inString, []⟩ b = .goes ⟨.inString, []⟩ := by
      simp [step, hquote, hslash, hlow]
    intro rest
    rw [List.cons_append, scanFrom_goes hstep, ih (fun c hc => h c (by simp [hc])), Option.map_map]
    simp [Function.comp_def]

theorem plain_of_le {b : UInt8} (h : 128 ≤ b.toNat) : Plain b := by
  refine ⟨?_, ?_, ?_⟩
  · rintro rfl
    exact absurd h (by decide)
  · rintro rfl
    exact absurd h (by decide)
  · rw [UInt8.lt_iff_toNat_lt]
    simp only [UInt8.reduceToNat]
    omega

theorem plain_ofNat {n : Nat} (h : n < 128) (hquote : n ≠ 0x22) (hslash : n ≠ 0x5C)
    (hlow : 0x20 ≤ n) : Plain (UInt8.ofNat n) := by
  have hn : (UInt8.ofNat n).toNat = n := toNat_ofNat_ascii h
  refine ⟨?_, ?_, ?_⟩
  · intro heq
    rw [heq] at hn
    exact hquote hn.symm
  · intro heq
    rw [heq] at hn
    exact hslash hn.symm
  · rw [UInt8.lt_iff_toNat_lt, hn]
    simp only [UInt8.reduceToNat]
    omega

theorem toNat_ne {c d : Char} (h : c ≠ d) : c.toNat ≠ d.toNat :=
  fun heq => h (Char.toNat_inj.1 heq)

theorem plain_encodeChar {c : Char} (hslash : c ≠ '\\') (hquote : c ≠ '"') (hlow : 0x20 ≤ c.toNat)
    {b : UInt8} (hb : b ∈ String.utf8EncodeChar c) : Plain b := by
  by_cases hascii : c.toNat < 128
  · rw [encodeChar_of_ascii hascii, List.mem_singleton] at hb
    rw [hb]
    exact plain_ofNat hascii (toNat_ne hquote) (toNat_ne hslash) hlow
  · exact plain_of_le (le_of_mem_encodeChar (Nat.le_of_not_lt hascii) hb)

def hexByte (n : Nat) : UInt8 :=
  if n < 10 then UInt8.ofNat (0x30 + n) else UInt8.ofNat (0x57 + n)

theorem encode_hexDigit {n : Nat} (h : n < 16) : String.utf8EncodeChar (hexDigit n) = [hexByte n] := by
  revert n
  decide

theorem isHex_hexByte {n : Nat} (h : n < 16) : isHex (hexByte n) = true := by
  revert n
  decide

theorem hexValue_hexByte {n : Nat} (h : n < 16) : hexValue (hexByte n) = some n := by
  revert n
  decide

theorem stays_escape {e : UInt8} (h : e ∈ [0x62, 0x66, 0x6E, 0x72, 0x74, 0x5C, 0x2F, 0x22]) :
    Stays [0x5C, e] := by
  have hslash : step ⟨.inString, []⟩ 0x5C = .goes ⟨.inStringEsc, []⟩ := by decide
  have hescape : step ⟨.inStringEsc, []⟩ e = .goes ⟨.inString, []⟩ := by simp only [step, if_pos h]
  intro rest
  rw [List.cons_append, List.cons_append, scanFrom_goes hslash, scanFrom_goes hescape,
    Option.map_map]
  simp [Function.comp_def]

theorem stays_unit {a b c d : UInt8} (ha : isHex a = true) (hb : isHex b = true)
    (hc : isHex c = true) (hd : isHex d = true) : Stays [0x5C, 0x75, a, b, c, d] := by
  have hslash : step ⟨.inString, []⟩ 0x5C = .goes ⟨.inStringEsc, []⟩ := by decide
  have hu : step ⟨.inStringEsc, []⟩ 0x75 = .goes ⟨.inStringEscU 4, []⟩ := by decide
  have hfour : step ⟨.inStringEscU 4, []⟩ a = .goes ⟨.inStringEscU 3, []⟩ := by simp [step, ha]
  have hthree : step ⟨.inStringEscU 3, []⟩ b = .goes ⟨.inStringEscU 2, []⟩ := by simp [step, hb]
  have htwo : step ⟨.inStringEscU 2, []⟩ c = .goes ⟨.inStringEscU 1, []⟩ := by simp [step, hc]
  have hone : step ⟨.inStringEscU 1, []⟩ d = .goes ⟨.inString, []⟩ := by simp [step, hd]
  intro rest
  simp only [List.cons_append, List.nil_append, scanFrom_goes hslash, scanFrom_goes hu,
    scanFrom_goes hfour, scanFrom_goes hthree, scanFrom_goes htwo, scanFrom_goes hone,
    Option.map_map]
  rfl

theorem toNat_lt_of_escaped {html : Bool} {c : Char}
    (h : c.toNat < 0x20 ∨ html = true ∧ (c = '<' ∨ c = '>' ∨ c = '&')) : c.toNat < 0x80 := by
  rcases h with h | ⟨-, rfl | rfl | rfl⟩
  · omega
  all_goals decide

theorem encode_unit {x y z w : Char} {a b c d : UInt8} (hx : String.utf8EncodeChar x = [a])
    (hy : String.utf8EncodeChar y = [b]) (hz : String.utf8EncodeChar z = [c])
    (hw : String.utf8EncodeChar w = [d]) :
    encode ['\\', 'u', x, y, z, w] = [0x5C, 0x75, a, b, c, d] := by
  simp only [encode_cons, encode_nil, hx, hy, hz, hw]
  rfl

theorem stays_escapeChar (html : Bool) (c : Char) : Stays (encode (escapeChar html c)) := by
  unfold escapeChar
  simp only
  split_ifs with hslash hquote _ _ _ _ _ hescaped hline
  iterate 7 exact stays_escape (by decide)
  · have hlt := toNat_lt_of_escaped hescaped
    have hhigh : c.toNat / 16 < 16 := by omega
    have hlow : c.toNat % 16 < 16 := by omega
    rw [encode_unit rfl rfl (encode_hexDigit hhigh) (encode_hexDigit hlow)]
    exact stays_unit (by decide) (by decide) (isHex_hexByte hhigh) (isHex_hexByte hlow)
  · have hlow : c.toNat % 16 < 16 := by omega
    rw [encode_unit rfl rfl rfl (encode_hexDigit hlow)]
    exact stays_unit (by decide) (by decide) (by decide) (isHex_hexByte hlow)
  · rw [not_or] at hescaped
    rw [encode_cons, encode_nil, List.append_nil]
    exact stays_of_plain fun b hb => plain_encodeChar hslash hquote (by omega) hb

theorem encode_flatMap {α : Type} (write : α → List Char) (list : List α) :
    encode (list.flatMap write) = list.flatMap fun a => encode (write a) := by
  unfold encode
  rw [List.flatMap_assoc]

theorem encode_quote (html : Bool) (text : List Char) :
    encode (quote html text) = 0x22 :: (text.flatMap (fun c => encode (escapeChar html c)) ++ [0x22]) := by
  rw [quote, encode_cons, encode_append, encode_flatMap]
  rfl

/-- The scanner takes a quoted text as a whole. -/
theorem isValue_quote (html : Bool) (text : List Char) : IsValue (encode (quote html text)) := by
  have hopen : step ⟨.beginValue, []⟩ 0x22 = .goes ⟨.inString, []⟩ := by decide
  have hclose : scanFrom ⟨.inString, []⟩ [0x22] = some ([0x22], []) := by decide
  unfold IsValue readValue
  rw [encode_quote, peek_of_head (by decide), scanFrom_goes hopen,
    stays_flatMap (stays_escapeChar html), hclose]
  rfl

theorem unquoteChar_unit {a b c d : UInt8} {w x y z n : Nat} (ha : hexValue a = some w)
    (hb : hexValue b = some x) (hc : hexValue c = some y) (hd : hexValue d = some z)
    (hn : ((w * 16 + x) * 16 + y) * 16 + z = n) (hlt : n < 0xD800) (rest : Bytes) :
    unquoteChar 0x5C (0x75 :: a :: b :: c :: d :: rest) = some (Char.ofNat n, rest) := by
  have hget : getu4 (0x5C :: 0x75 :: a :: b :: c :: d :: rest) = some n := by
    simp [getu4, ha, hb, hc, hd, hn]
  have hunit : unitChar n rest = (Char.ofNat n, 6) := by
    unfold unitChar
    rw [if_neg (by omega)]
  simp [unquoteChar, hget, hunit]

theorem unquoteChar_encodeChar {c : Char} (hslash : c ≠ '\\') (hquote : c ≠ '"')
    (hlow : 0x20 ≤ c.toNat) {b : UInt8} {bytes : Bytes} (hbytes : String.utf8EncodeChar c = b :: bytes)
    (rest : Bytes) : unquoteChar b (bytes ++ rest) = some (c, rest) := by
  obtain ⟨h22, h5c, h20⟩ := plain_encodeChar hslash hquote hlow (b := b) (by simp [hbytes])
  unfold unquoteChar
  rw [if_neg h5c, if_neg (not_or.2 ⟨h22, h20⟩)]
  by_cases hascii : c.toNat < 128
  · rw [encodeChar_of_ascii hascii, List.cons.injEq] at hbytes
    obtain ⟨rfl, rfl⟩ := hbytes
    have hlt : UInt8.ofNat c.toNat < 0x80 := by
      rw [UInt8.lt_iff_toNat_lt, toNat_ofNat_ascii hascii]
      exact hascii
    rw [if_pos hlt, toNat_ofNat_ascii hascii, Char.ofNat_toNat, List.nil_append]
  · have hle := le_of_mem_encodeChar (Nat.le_of_not_lt hascii) (b := b) (by simp [hbytes])
    have hlt : ¬ b < 0x80 := by
      rw [UInt8.lt_iff_toNat_lt]
      simp only [UInt8.reduceToNat]
      omega
    have hdecode := decodeRune_encodeChar c rest
    have hdrop : (String.utf8EncodeChar c ++ rest).drop c.utf8Size = rest := by
      rw [← String.length_utf8EncodeChar, List.drop_left]
    rw [hbytes, List.cons_append] at hdecode hdrop
    simp only [if_neg hlt, hdecode, hdrop]

theorem unquoteChar_escapeChar (html : Bool) (c : Char) (rest : Bytes) :
    ∃ b bytes, encode (escapeChar html c) = b :: bytes ∧
      unquoteChar b (bytes ++ rest) = some (c, rest) := by
  have hself : ∀ n, c.toNat = n → Char.ofNat n = c := by
    rintro n rfl
    exact Char.ofNat_toNat c
  unfold escapeChar
  simp only
  split_ifs with hslash hquote h8 h12 hn hr ht hescaped hline
  · exact ⟨_, _, rfl, by rw [hslash]; rfl⟩
  · exact ⟨_, _, rfl, by rw [hquote]; rfl⟩
  · exact ⟨_, _, rfl, by rw [← hself 8 h8]; rfl⟩
  · exact ⟨_, _, rfl, by rw [← hself 12 h12]; rfl⟩
  · exact ⟨_, _, rfl, by rw [hn]; rfl⟩
  · exact ⟨_, _, rfl, by rw [hr]; rfl⟩
  · exact ⟨_, _, rfl, by rw [ht]; rfl⟩
  · have hlt := toNat_lt_of_escaped hescaped
    have hhigh : c.toNat / 16 < 16 := by omega
    have hlow : c.toNat % 16 < 16 := by omega
    have hread := unquoteChar_unit (a := 0x30) (b := 0x30) (w := 0) (x := 0) (n := c.toNat) rfl rfl
      (hexValue_hexByte hhigh) (hexValue_hexByte hlow) (by omega) (by omega) rest
    rw [Char.ofNat_toNat] at hread
    exact ⟨_, _, encode_unit rfl rfl (encode_hexDigit hhigh) (encode_hexDigit hlow), hread⟩
  · have hlow : c.toNat % 16 < 16 := by omega
    have hread := unquoteChar_unit (a := 0x32) (b := 0x30) (c := 0x32) (w := 2) (x := 0) (y := 2)
      (n := c.toNat) rfl rfl rfl (hexValue_hexByte hlow) (by omega) (by omega) rest
    rw [Char.ofNat_toNat] at hread
    exact ⟨_, _, encode_unit rfl rfl rfl (encode_hexDigit hlow), hread⟩
  · rw [not_or] at hescaped
    cases hbytes : String.utf8EncodeChar c with
    | nil => exact absurd hbytes (encodeChar_ne_nil c)
    | cons b bytes =>
      refine ⟨b, bytes, ?_, unquoteChar_encodeChar hslash hquote (by omega) hbytes rest⟩
      rw [encode_cons, encode_nil, List.append_nil, hbytes]

section

variable (html : Bool)

theorem unquoteBody_escapeChar (c : Char) (fuel : Nat) (rest : Bytes) :
    unquoteBody (fuel + 1) (encode (escapeChar html c) ++ rest) =
      (unquoteBody fuel rest).map (c :: ·) := by
  obtain ⟨b, bytes, hbytes, hread⟩ := unquoteChar_escapeChar html c rest
  rw [hbytes, List.cons_append, unquoteBody, hread, Option.bind_some]

theorem unquoteBody_quote (text : List Char) {fuel : Nat} (h : text.length ≤ fuel) :
    unquoteBody fuel (text.flatMap fun c => encode (escapeChar html c)) = some text := by
  induction text generalizing fuel with
  | nil => cases fuel <;> rfl
  | cons c text ih =>
    rw [List.length_cons] at h
    obtain ⟨fuel, rfl⟩ := Nat.exists_eq_succ_of_ne_zero (n := fuel) (by omega)
    rw [List.flatMap_cons, unquoteBody_escapeChar, ih (by omega)]
    rfl

theorem length_le_flatMap_escapeChar (text : List Char) :
    text.length ≤ (text.flatMap fun c => encode (escapeChar html c)).length := by
  induction text with
  | nil => exact Nat.le_refl 0
  | cons c text ih =>
    obtain ⟨b, bytes, hbytes, -⟩ := unquoteChar_escapeChar html c []
    rw [List.flatMap_cons, List.length_append, hbytes, List.length_cons, List.length_cons]
    omega

theorem unquote_quote (text : List Char) : unquote (encode (quote html text)) = some text := by
  have hle := length_le_flatMap_escapeChar html text
  rw [encode_quote]
  simp only [unquote]
  rw [if_pos (by simp), List.dropLast_concat]
  exact unquoteBody_quote html text (by rw [List.length_append]; omega)

end

/-- A written member is read as it was written. -/
theorem readMember_quote (first html : Bool) (name : List Char) {raw rest : Bytes}
    (hraw : IsValue raw) (hrest : Separate rest) :
    readMember first
        ((if first then [] else [0x2C]) ++ (encode (quote html name) ++ 0x3A :: (raw ++ rest))) =
      some ((name, raw), rest) := by
  have hnone : ∀ b ∈ ([] : Bytes), isSpace b = true := by simp
  have hhead : (encode (quote html name)).head? = some 0x22 := by rw [encode_quote]; rfl
  have hstring : readString (encode (quote html name) ++ 0x3A :: (raw ++ rest)) =
      some (name, 0x3A :: (raw ++ rest)) :=
    readString_append hnone (isValue_quote html name) hhead (unquote_quote html name)
      (separate_cons.2 (by decide))
  have hname : readName first
      ((if first then [] else [0x2C]) ++ (encode (quote html name) ++ 0x3A :: (raw ++ rest))) =
      some (name, 0x3A :: (raw ++ rest)) := by
    cases first
    · exact hstring
    · exact hstring
  have hcolon : pass 0x3A (0x3A :: (raw ++ rest)) = some (raw ++ rest) :=
    pass_append (by decide) hnone _
  simp only [readMember, hname, hcolon, hraw.append hrest, Option.bind_eq_bind, Option.bind_some,
    Option.pure_def]

end Gostman.Go.Json
