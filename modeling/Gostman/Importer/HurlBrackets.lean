import Gostman.Lib.Decided
import Gostman.Go.JsonKept
import Gostman.Importer.HurlParse
import Gostman.Lib.Lines
import Gostman.Lib.Trimmed
/-!
# Brackets of a JSON text

The reader of Hurl files counts brackets outside of quotes to find the end of a
JSON body.  On a valid text it goes along with the scanner of `encoding/json`.
-/

namespace Gostman.Importer.Hurl

open Gostman.Lib Gostman.Go.Json
open Gostman.Placeholders (Text)

open scoped Gostman.Lib.Decided

/-! ## The scanner outside of quotes -/

def isQuoted : Mode → Bool
  | .inString | .inStringEsc | .inStringEscU _ => true
  | _ => false

def opens (b : UInt8) : Int :=
  if b = 0x7B ∨ b = 0x5B then 1 else if b = 0x7D ∨ b = 0x5D then -1 else 0

def IsTame : Mode → Prop
  | .literal left => ∀ b ∈ left, opens b = 0 ∧ b ≠ 0x22
  | _ => True

def Outside (stack : List Inside) (b : UInt8) : Outcome → Prop
  | .goes next => (next.parseState.length : Int) = stack.length + opens b ∧
      (stack ≠ [] → next.parseState ≠ []) ∧ isQuoted next.mode = decide (b = 0x22) ∧ next.mode ≠ .inStringEsc ∧
      IsTame next.mode
  | .closes => stack.length = 1 ∧ opens b = -1
  | .ended => stack = []
  | .fails => True

theorem opens_of_isSpace {b : UInt8} (h : isSpace b = true) : opens b = 0 ∧ b ≠ 0x22 := by
  simp only [isSpace, Bool.or_eq_true, beq_iff_eq] at h
  rcases h with ((rfl | rfl) | rfl) | rfl <;> decide

theorem opens_of_isDigit {b : UInt8} (h : isDigit b = true) : opens b = 0 ∧ b ≠ 0x22 := by
  have hall : ∀ n : Fin 256, isDigit (UInt8.ofNat n) = true →
      opens (UInt8.ofNat n) = 0 ∧ UInt8.ofNat n ≠ 0x22 := by decide +kernel
  have hb := hall ⟨b.toNat, b.toNat_lt⟩
  rw [UInt8.ofNat_toNat] at hb
  exact hb h

theorem outside_same {stack : List Inside} {b : UInt8} {mode : Mode} (h : opens b = 0 ∧ b ≠ 0x22)
    (hmode : isQuoted mode = false) (htame : IsTame mode) : Outside stack b (.goes ⟨mode, stack⟩) := by
  refine ⟨by rw [h.1, add_zero], id, by rw [hmode]; simp [h.2], ?_, htame⟩
  rintro rfl
  cases hmode

theorem outside_pop {inside : Inside} {outer : List Inside} {b : UInt8} (h : opens b = -1 ∧ b ≠ 0x22) :
    Outside (inside :: outer) b (pop outer) := by
  cases outer with
  | nil => exact ⟨rfl, h.1⟩
  | cons next rest =>
    refine ⟨?_, fun _ => List.cons_ne_nil _ _, by simp [isQuoted, h.2], by simp, trivial⟩
    rw [h.1]
    simp

theorem outside_endValue (stack : List Inside) (b : UInt8) : Outside stack b (endValue stack b) := by
  cases stack with
  | nil => rfl
  | cons inside outer =>
    unfold endValue
    simp only
    by_cases hspace : isSpace b = true
    · rw [if_pos hspace]
      exact outside_same (opens_of_isSpace hspace) rfl trivial
    rw [if_neg hspace]
    cases inside with
    | objectKey =>
      simp only
      split_ifs with hcolon
      · subst hcolon
        exact ⟨by simp [opens], fun _ => List.cons_ne_nil _ _, rfl, by simp, trivial⟩
      · trivial
    | objectValue =>
      simp only
      split_ifs with hcomma hclose
      · subst hcomma
        exact ⟨by simp [opens], fun _ => List.cons_ne_nil _ _, rfl, by simp, trivial⟩
      · subst hclose
        exact outside_pop (by decide)
      · trivial
    | arrayValue =>
      simp only
      split_ifs with hcomma hclose
      · subst hcomma
        exact outside_same (by decide) rfl trivial
      · subst hclose
        exact outside_pop (by decide)
      · trivial

theorem outside_push {mode : Mode} {inside : Inside} {stack : List Inside} {b : UInt8}
    (h : opens b = 1 ∧ b ≠ 0x22) (hmode : isQuoted mode = false) (htame : IsTame mode) :
    Outside stack b (push mode inside stack) := by
  unfold push
  split_ifs
  · refine ⟨by rw [h.1]; simp, fun _ => List.cons_ne_nil _ _, by rw [hmode]; simp [h.2], ?_, htame⟩
    rintro rfl
    cases hmode
  · trivial

theorem outside_quote (stack : List Inside) : Outside stack 0x22 (.goes ⟨.inString, stack⟩) :=
  ⟨by simp [opens], id, rfl, by simp, trivial⟩

theorem outside_beginValue (stack : List Inside) (b : UInt8) : Outside stack b (beginValue stack b) := by
  unfold beginValue
  split_ifs with hspace hobject harray hquote hneg hzero htrue hfalse hnull hdigit
  · exact outside_same (opens_of_isSpace hspace) rfl trivial
  · subst hobject
    exact outside_push (by decide) rfl trivial
  · subst harray
    exact outside_push (by decide) rfl trivial
  · subst hquote
    exact outside_quote stack
  · subst hneg
    exact outside_same (by decide) rfl trivial
  · subst hzero
    exact outside_same (by decide) rfl trivial
  · subst htrue
    exact outside_same (by decide) rfl (by unfold IsTame; decide)
  · subst hfalse
    exact outside_same (by decide) rfl (by unfold IsTame; decide)
  · subst hnull
    exact outside_same (by decide) rfl (by unfold IsTame; decide)
  · exact outside_same (opens_of_isDigit hdigit) rfl trivial
  · trivial

theorem outside_beginString (stack : List Inside) (b : UInt8) : Outside stack b (beginString stack b) := by
  unfold beginString
  split_ifs with hspace hquote
  · exact outside_same (opens_of_isSpace hspace) rfl trivial
  · subst hquote
    exact outside_quote stack
  · trivial

theorem outside_exponent {stack : List Inside} {b : UInt8} (h : b = 0x65 ∨ b = 0x45) :
    Outside stack b (.goes ⟨.exp, stack⟩) := by
  rcases h with rfl | rfl <;> exact outside_same (by decide) rfl trivial

theorem outside_afterZero (stack : List Inside) (b : UInt8) : Outside stack b (afterZero stack b) := by
  unfold afterZero
  split_ifs with hdot hexp
  · subst hdot
    exact outside_same (by decide) rfl trivial
  · exact outside_exponent hexp
  · exact outside_endValue stack b

theorem outside_afterSign (stack : List Inside) (b : UInt8) : Outside stack b (afterSign stack b) := by
  unfold afterSign
  split_ifs with hdigit
  · exact outside_same (opens_of_isDigit hdigit) rfl trivial
  · trivial

theorem outside_congr {first second : Inside} {outer : List Inside} {b : UInt8} {outcome : Outcome}
    (h : Outside (first :: outer) b outcome) : Outside (second :: outer) b outcome := by
  cases outcome with
  | goes next => exact ⟨h.1, fun _ => h.2.1 (List.cons_ne_nil _ _), h.2.2⟩
  | closes => exact h
  | ended => cases h
  | fails => trivial

theorem outside_step {scanner : Scanner} {b : UInt8} (h : isQuoted scanner.mode = false)
    (htame : IsTame scanner.mode) : Outside scanner.parseState b (step scanner b) := by
  obtain ⟨mode, stack⟩ := scanner
  cases mode with
  | beginValueOrEmpty =>
    simp only [step]
    split_ifs with hspace hclose
    · exact outside_same (opens_of_isSpace hspace) rfl trivial
    · cases stack with
      | nil => trivial
      | cons inside outer => exact outside_endValue _ b
    · exact outside_beginValue stack b
  | beginValue => exact outside_beginValue stack b
  | beginStringOrEmpty =>
    simp only [step]
    split_ifs with hspace hclose
    · exact outside_same (opens_of_isSpace hspace) rfl trivial
    · cases stack with
      | nil => trivial
      | cons inside outer => exact outside_congr (outside_endValue (.objectValue :: outer) b)
    · exact outside_beginString stack b
  | beginString => exact outside_beginString stack b
  | endValue => exact outside_endValue stack b
  | inString => cases h
  | inStringEsc => cases h
  | inStringEscU left => cases h
  | neg =>
    simp only [step]
    split_ifs with hzero hdigit
    · subst hzero
      exact outside_same (by decide) rfl trivial
    · exact outside_same (opens_of_isDigit hdigit) rfl trivial
    · trivial
  | digits =>
    simp only [step]
    split_ifs with hdigit
    · exact outside_same (opens_of_isDigit hdigit) rfl trivial
    · exact outside_afterZero stack b
  | zero => exact outside_afterZero stack b
  | dot =>
    simp only [step]
    split_ifs with hdigit
    · exact outside_same (opens_of_isDigit hdigit) rfl trivial
    · trivial
  | dot0 =>
    simp only [step]
    split_ifs with hdigit hexp
    · exact outside_same (opens_of_isDigit hdigit) rfl trivial
    · exact outside_exponent hexp
    · exact outside_endValue stack b
  | exp =>
    simp only [step]
    split_ifs with hsign
    · rcases hsign with rfl | rfl <;> exact outside_same (by decide) rfl trivial
    · exact outside_afterSign stack b
  | expSign => exact outside_afterSign stack b
  | exp0 =>
    simp only [step]
    split_ifs with hdigit
    · exact outside_same (opens_of_isDigit hdigit) rfl trivial
    · exact outside_endValue stack b
  | literal left =>
    simp only [step]
    cases left with
    | nil => trivial
    | cons expected left =>
      simp only
      split_ifs with hexpected hlast
      · subst hexpected
        exact outside_same (htame b (List.mem_cons_self ..)) rfl trivial
      · subst hexpected
        exact outside_same (htame b (List.mem_cons_self ..)) rfl
          fun c hc => htame c (List.mem_cons_of_mem _ hc)
      · trivial

/-! ## The brackets and the scanner -/

def stepByte (state : Brackets) (b : UInt8) : Brackets :=
  if state.escaped then { state with escaped := false }
  else if state.inString ∧ b = 0x5C then { state with escaped := true }
  else if b = 0x22 then { state with inString := !state.inString }
  else if state.inString then state
  else { state with depth := state.depth + opens b }

theorem step_of_ascii (state : Brackets) {c : Char} (h : c.toNat < 128) :
    state.step c = stepByte state (UInt8.ofNat c.toNat) := by
  have hbyte : ∀ d : Char, d.toNat < 128 → (UInt8.ofNat c.toNat = UInt8.ofNat d.toNat ↔ c = d) := by
    intro d hd
    constructor
    · intro heq
      have hnat := congrArg UInt8.toNat heq
      rw [toNat_ofNat_ascii h, toNat_ofNat_ascii hd] at hnat
      exact Char.toNat_inj.1 hnat
    · rintro rfl
      rfl
  have hslash := hbyte '\\' (by decide)
  have hquote := hbyte '"' (by decide)
  have hcurly := hbyte '{' (by decide)
  have hsquare := hbyte '[' (by decide)
  have hcurlyEnd := hbyte '}' (by decide)
  have hsquareEnd := hbyte ']' (by decide)
  obtain ⟨depth, inString, escaped⟩ := state
  unfold Brackets.step stepByte opens
  simp only [show (0x5C : UInt8) = UInt8.ofNat '\\'.toNat from rfl,
    show (0x22 : UInt8) = UInt8.ofNat '"'.toNat from rfl,
    show (0x7B : UInt8) = UInt8.ofNat '{'.toNat from rfl,
    show (0x5B : UInt8) = UInt8.ofNat '['.toNat from rfl,
    show (0x7D : UInt8) = UInt8.ofNat '}'.toNat from rfl,
    show (0x5D : UInt8) = UInt8.ofNat ']'.toNat from rfl,
    hslash, hquote, hcurly, hsquare, hcurlyEnd, hsquareEnd]
  split_ifs <;> simp_all [sub_eq_add_neg]

theorem stepByte_of_high (state : Brackets) {b : UInt8} (h : 128 ≤ b.toNat) :
    stepByte state b = { state with escaped := false } := by
  have hne : ∀ c : UInt8, c.toNat < 128 → b ≠ c := by
    rintro c hc rfl
    exact absurd h (Nat.not_le_of_lt hc)
  have hslash := hne 0x5C (by decide)
  have hquote := hne 0x22 (by decide)
  have hopens : opens b = 0 := by
    unfold opens
    rw [if_neg (not_or.2 ⟨hne 0x7B (by decide), hne 0x5B (by decide)⟩),
      if_neg (not_or.2 ⟨hne 0x7D (by decide), hne 0x5D (by decide)⟩)]
  unfold stepByte
  rw [hopens]
  cases state with
  | mk depth inString escaped => cases escaped <;> simp [hslash, hquote]

theorem foldl_stepByte_high (state : Brackets) {bytes : Bytes} (hne : bytes ≠ [])
    (h : ∀ b ∈ bytes, 128 ≤ b.toNat) : bytes.foldl stepByte state = { state with escaped := false } := by
  induction bytes generalizing state with
  | nil => exact absurd rfl hne
  | cons b rest ih =>
    rw [List.foldl_cons, stepByte_of_high state (h b (List.mem_cons_self ..))]
    cases rest with
    | nil => rfl
    | cons next others =>
      rw [ih _ (List.cons_ne_nil _ _) fun b hb => h b (List.mem_cons_of_mem _ hb)]

theorem foldl_stepByte_encodeChar (state : Brackets) (c : Char) :
    (String.utf8EncodeChar c).foldl stepByte state = state.step c := by
  by_cases h : c.toNat < 128
  · rw [encodeChar_of_ascii h, step_of_ascii state h]
    rfl
  · have hhigh : 128 ≤ c.toNat := Nat.not_lt.1 h
    rw [foldl_stepByte_high state (encodeChar_ne_nil c) fun b hb => le_of_mem_encodeChar hhigh hb]
    have hne : ∀ d : Char, d.toNat < 128 → c ≠ d := by
      rintro d hd rfl
      exact h hd
    unfold Brackets.step
    cases state with
    | mk depth inString escaped =>
      cases escaped <;> simp [hne '\\' (by decide), hne '"' (by decide), hne '{' (by decide),
        hne '[' (by decide), hne '}' (by decide), hne ']' (by decide)]

theorem plain_of_isHex {b : UInt8} (h : isHex b = true) : b ≠ 0x5C ∧ b ≠ 0x22 := by
  constructor <;> (rintro rfl; revert h; decide)

structure Tracks (state : Brackets) (scanner : Scanner) : Prop where
  depth : state.depth = scanner.parseState.length
  inString : state.inString = isQuoted scanner.mode
  escaped : state.escaped = decide (scanner.mode = .inStringEsc)
  tame : IsTame scanner.mode

section

variable {state : Brackets} {scanner next : Scanner} {b : UInt8}

theorem Tracks.outside (h : Tracks state scanner) (hmode : isQuoted scanner.mode = false) :
    state.inString = false ∧ state.escaped = false := by
  rw [h.inString, h.escaped, hmode]
  refine ⟨rfl, decide_eq_false ?_⟩
  intro hesc
  rw [hesc] at hmode
  cases hmode

theorem Tracks.goes (h : Tracks state scanner) (hstep : step scanner b = .goes next) :
    Tracks (stepByte state b) next ∧ (scanner.parseState ≠ [] → next.parseState ≠ []) := by
  by_cases hmode : isQuoted scanner.mode = false
  · obtain ⟨hstring, hescaped⟩ := h.outside hmode
    have hout := outside_step hmode h.tame (b := b)
    rw [hstep] at hout
    obtain ⟨hlength, hne, hquoted, hesc, htame⟩ := hout
    refine ⟨⟨?_, ?_, ?_, htame⟩, hne⟩
    · rw [hlength, ← h.depth]
      unfold stepByte
      by_cases hquote : b = 0x22
      · subst hquote
        simp [hescaped, hstring, opens]
      · simp [hescaped, hstring, hquote]
    · rw [hquoted]
      unfold stepByte
      by_cases hquote : b = 0x22 <;> simp [hescaped, hstring, hquote]
    · rw [decide_eq_false hesc]
      unfold stepByte
      by_cases hquote : b = 0x22 <;> simp [hescaped, hstring, hquote]
  · obtain ⟨mode, stack⟩ := scanner
    have hstring : state.inString = true := by
      rw [h.inString]
      exact Bool.not_eq_false _ ▸ hmode
    cases mode with
    | inString =>
      have hescaped : state.escaped = false := h.escaped
      rw [step] at hstep
      simp only at hstep
      split_ifs at hstep with hquote hslash
      · obtain rfl := Outcome.goes.inj hstep
        subst hquote
        refine ⟨⟨?_, ?_, ?_, trivial⟩, id⟩ <;> simp [stepByte, hescaped, hstring, h.depth, isQuoted]
      · obtain rfl := Outcome.goes.inj hstep
        subst hslash
        refine ⟨⟨?_, ?_, ?_, trivial⟩, id⟩ <;> simp [stepByte, hescaped, hstring, h.depth, isQuoted]
      · obtain rfl := Outcome.goes.inj hstep
        refine ⟨⟨?_, ?_, ?_, trivial⟩, id⟩ <;>
          simp [stepByte, hescaped, hstring, h.depth, isQuoted, hquote, hslash]
    | inStringEsc =>
      have hescaped : state.escaped = true := h.escaped
      rw [step] at hstep
      simp only at hstep
      split_ifs at hstep
      · obtain rfl := Outcome.goes.inj hstep
        refine ⟨⟨?_, ?_, ?_, trivial⟩, id⟩ <;> simp [stepByte, hescaped, hstring, h.depth, isQuoted]
      · obtain rfl := Outcome.goes.inj hstep
        refine ⟨⟨?_, ?_, ?_, trivial⟩, id⟩ <;> simp [stepByte, hescaped, hstring, h.depth, isQuoted]
    | inStringEscU left =>
      have hescaped : state.escaped = false := h.escaped
      rw [step] at hstep
      simp only at hstep
      split_ifs at hstep with hhex hlast
      · obtain rfl := Outcome.goes.inj hstep
        have hbyte := plain_of_isHex hhex
        refine ⟨⟨?_, ?_, ?_, trivial⟩, id⟩ <;>
          simp [stepByte, hescaped, hstring, h.depth, isQuoted, hbyte.1, hbyte.2]
      · obtain rfl := Outcome.goes.inj hstep
        have hbyte := plain_of_isHex hhex
        refine ⟨⟨?_, ?_, ?_, trivial⟩, id⟩ <;>
          simp [stepByte, hescaped, hstring, h.depth, isQuoted, hbyte.1, hbyte.2]
    | _ => exact absurd rfl hmode

theorem Tracks.closes (h : Tracks state scanner) (hstep : step scanner b = .closes) :
    (stepByte state b).depth = 0 ∧ opens b = -1 := by
  have hmode : isQuoted scanner.mode = false := by
    obtain ⟨mode, stack⟩ := scanner
    cases mode with
    | inString =>
      rw [step] at hstep
      simp only at hstep
      split_ifs at hstep
    | inStringEsc =>
      rw [step] at hstep
      simp only at hstep
      split_ifs at hstep
    | inStringEscU left =>
      rw [step] at hstep
      simp only at hstep
      split_ifs at hstep
    | _ => rfl
  obtain ⟨hstring, hescaped⟩ := h.outside hmode
  have hout := outside_step hmode h.tame (b := b)
  rw [hstep] at hout
  have hquote : b ≠ 0x22 := by
    rintro rfl
    exact absurd hout.2 (by decide)
  refine ⟨?_, hout.2⟩
  simp [stepByte, hescaped, hstring, hquote, h.depth, hout.1, hout.2]

/-- A quoted text neither ends a value nor closes a container. -/
theorem step_quoted (hmode : isQuoted scanner.mode = true) :
    step scanner b ≠ .closes ∧ step scanner b ≠ .ended := by
  obtain ⟨mode, stack⟩ := scanner
  cases mode with
  | inString =>
    rw [step]
    simp only
    split_ifs <;> simp
  | inStringEsc =>
    rw [step]
    simp only
    split_ifs <;> simp
  | inStringEscU left =>
    rw [step]
    simp only
    split_ifs <;> simp
  | _ => cases hmode

theorem Tracks.not_ended (h : Tracks state scanner) (hstack : scanner.parseState ≠ []) :
    step scanner b ≠ .ended := by
  intro hstep
  cases hmode : isQuoted scanner.mode with
  | true => exact (step_quoted hmode).2 hstep
  | false =>
    have hout := outside_step hmode h.tame (b := b)
    rw [hstep] at hout
    exact hstack hout

theorem scanFrom_break {tail value rest : Bytes} (hb : b = 0x0A ∨ b = 0x0D)
    (hscan : scanFrom scanner (b :: tail) = some (value, rest)) : isQuoted scanner.mode = false := by
  obtain ⟨mode, stack⟩ := scanner
  rw [scanFrom] at hscan
  cases mode with
  | inString => rcases hb with rfl | rfl <;> simp [step] at hscan
  | inStringEsc => rcases hb with rfl | rfl <;> simp [step] at hscan
  | inStringEscU left => rcases hb with rfl | rfl <;> simp [step, isHex, isDigit] at hscan
  | _ => rfl

/-- What is scanned of some bytes: all of them, or they close the value. -/
theorem scanFrom_append {bytes tail value rest : Bytes} (h : Tracks state scanner)
    (hstack : scanner.parseState ≠ []) (hscan : scanFrom scanner (bytes ++ tail) = some (value, rest)) :
    (∃ next value', Tracks (bytes.foldl stepByte state) next ∧ next.parseState ≠ [] ∧
      scanFrom next tail = some (value', rest)) ∨
    ∃ front b back, bytes = front ++ b :: back ∧ opens b = -1 ∧
      ((front ++ [b]).foldl stepByte state).depth = 0 ∧ rest = back ++ tail := by
  induction bytes generalizing state scanner value with
  | nil => exact .inl ⟨scanner, value, h, hstack, hscan⟩
  | cons b bytes ih =>
    rw [List.cons_append, scanFrom] at hscan
    cases hstep : step scanner b with
    | goes next =>
      rw [hstep] at hscan
      obtain ⟨⟨value', rest'⟩, hnext, heq⟩ := Option.map_eq_some_iff.1 hscan
      obtain ⟨-, rfl⟩ := Prod.mk.inj heq
      obtain ⟨htracks, hkept⟩ := h.goes hstep
      rcases ih htracks (hkept hstack) hnext with hgoes | ⟨front, b', back, rfl, hopens, hdepth, hrest⟩
      · exact .inl hgoes
      · exact .inr ⟨b :: front, b', back, rfl, hopens, hdepth, hrest⟩
    | closes =>
      rw [hstep] at hscan
      obtain ⟨-, rfl⟩ := Prod.mk.inj (Option.some.inj hscan)
      obtain ⟨hdepth, hopens⟩ := h.closes hstep
      exact .inr ⟨[], b, bytes, rfl, hopens, hdepth, rfl⟩
    | ended => exact absurd hstep (h.not_ended hstack)
    | fails =>
      rw [hstep] at hscan
      cases hscan

end

/-! ## The lines of a text -/

def withoutReturn (line : Text) : Text :=
  if line.getLast? = some '\r' then line.dropLast else line

theorem withoutReturn_nil : withoutReturn [] = [] := rfl

theorem withoutReturn_cons {c : Char} {line : Text} (h : line ≠ [] ∨ c ≠ '\r') :
    withoutReturn (c :: line) = c :: withoutReturn line := by
  cases line with
  | nil =>
    have hc : c ≠ '\r' := by simpa using h
    simp [withoutReturn, hc]
  | cons d rest =>
    unfold withoutReturn
    rw [List.getLast?_cons_cons, List.dropLast_cons_of_ne_nil (List.cons_ne_nil _ _)]
    split_ifs <;> rfl

theorem balanced_ends {state : Brackets} {line : Text} (h : (line.foldl Brackets.step state).depth ≤ 0)
    (rest : List Text) : balanced state (line :: rest) = ([line], rest) := by
  rw [balanced]
  exact if_pos h

theorem balanced_goes {state : Brackets} {line : Text} (h : ¬ (line.foldl Brackets.step state).depth ≤ 0)
    (rest : List Text) : balanced state (line :: rest) =
      (line :: (balanced (line.foldl Brackets.step state) rest).1,
        (balanced (line.foldl Brackets.step state) rest).2) := by
  rw [balanced]
  exact if_neg h

theorem balanced_cons {state : Brackets} {c : Char} {first : Text} {others more left : List Text}
    (h : balanced (state.step c) (first :: others) = (first :: more, left)) :
    balanced state ((c :: first) :: others) = ((c :: first) :: more, left) := by
  by_cases hdepth : (first.foldl Brackets.step (state.step c)).depth ≤ 0
  · rw [balanced_ends hdepth] at h
    obtain ⟨hfirst, rfl⟩ := Prod.mk.inj h
    rw [balanced_ends (by rwa [List.foldl_cons]), ← (List.cons.inj hfirst).2]
  · rw [balanced_goes hdepth] at h
    obtain ⟨hfirst, hleft⟩ := Prod.mk.inj h
    rw [balanced_goes (by rwa [List.foldl_cons]), List.foldl_cons, (List.cons.inj hfirst).2, hleft]

theorem step_break {state : Brackets} (h : state.escaped = false) {c : Char} (hc : c = '\n' ∨ c = '\r') :
    state.step c = state := by
  obtain ⟨depth, inString, escaped⟩ := state
  obtain rfl : escaped = false := h
  rcases hc with rfl | rfl <;> simp [Brackets.step]

theorem isSpace_getLast {text : Text} (h : ∀ b ∈ encode text, isSpace b = true) {c : Char}
    (hc : text.getLast? = some c) : Go.isSpace c = true := by
  have hmem : c ∈ text := List.mem_of_getLast? hc
  have hbytes : ∀ b ∈ String.utf8EncodeChar c, isSpace b = true :=
    fun b hb => h b (List.mem_flatMap.2 ⟨c, hmem, hb⟩)
  have hlow : ∀ b : UInt8, isSpace b = true → b.toNat < 128 := by
    intro b hb
    simp only [isSpace, Bool.or_eq_true, beq_iff_eq] at hb
    rcases hb with ((rfl | rfl) | rfl) | rfl <;> decide
  have hascii : c.toNat < 128 := by
    by_contra hhigh
    obtain ⟨b, rest, hb⟩ := List.exists_cons_of_ne_nil (encodeChar_ne_nil c)
    have hmem : b ∈ String.utf8EncodeChar c := by simp [hb]
    have := le_of_mem_encodeChar (Nat.not_lt.1 hhigh) hmem
    have := hlow b (hbytes b hmem)
    omega
  have hbyte := hbytes (UInt8.ofNat c.toNat) (by simp [encodeChar_of_ascii hascii])
  have hall : ∀ n : Fin 128, isSpace (UInt8.ofNat n) = true → Go.isSpace (Char.ofNat n) = true := by
    decide +kernel
  have hspace := hall ⟨c.toNat, hascii⟩ hbyte
  rwa [Char.ofNat_toNat] at hspace

theorem opens_low {b : UInt8} (h : opens b = -1) : b.toNat < 128 ∧ b ≠ 0x0A ∧ b ≠ 0x0D := by
  have hall : ∀ n : Fin 256, opens (UInt8.ofNat n) = -1 →
      (UInt8.ofNat n).toNat < 128 ∧ UInt8.ofNat n ≠ 0x0A ∧ UInt8.ofNat n ≠ 0x0D := by decide +kernel
  have hb := hall ⟨b.toNat, b.toNat_lt⟩
  rw [UInt8.ofNat_toNat] at hb
  exact hb h

/-- Brackets are counted to the end of a value and no further. -/
theorem balanced_scanned {text : Text} {state : Brackets} {scanner : Scanner} {value rest : Bytes}
    (h : Tracks state scanner) (hstack : scanner.parseState ≠ [])
    (hscan : scanFrom scanner (encode text) = some (value, rest)) (hrest : ∀ b ∈ rest, isSpace b = true)
    (hlast : ∀ c, text.getLast? = some c → Go.isSpace c = false) (others : List Text) :
    balanced state ((text.splitOn '\n').map withoutReturn ++ others) =
      ((text.splitOn '\n').map withoutReturn, others) := by
  induction text generalizing state scanner value with
  | nil =>
    rw [encode_nil, scanFrom, if_neg (h.not_ended hstack)] at hscan
    cases hscan
  | cons c text ih =>
    rw [encode_cons] at hscan
    rcases scanFrom_append h hstack hscan with
      ⟨next, value', htracks, hne, hnext⟩ | ⟨front, b, back, hbytes, hopens, hdepth, rfl⟩
    · rw [foldl_stepByte_encodeChar] at htracks
      have hlast' : ∀ d, text.getLast? = some d → Go.isSpace d = false := by
        intro d hd
        apply hlast d
        obtain ⟨e, rest', rfl⟩ := List.exists_cons_of_ne_nil (List.ne_nil_of_mem (List.mem_of_getLast? hd))
        rw [List.getLast?_cons_cons, hd]
      have hbal := ih htracks hne hnext hlast'
      have hsame : c = '\n' ∨ c = '\r' → state.step c = state := by
        intro hc
        have hbyte : ∃ b, (b = 0x0A ∨ b = 0x0D) ∧ String.utf8EncodeChar c = [b] := by
          rcases hc with rfl | rfl
          · exact ⟨0x0A, .inl rfl, rfl⟩
          · exact ⟨0x0D, .inr rfl, rfl⟩
        obtain ⟨b, hb, hencoded⟩ := hbyte
        rw [hencoded] at hscan
        exact step_break (h.outside (scanFrom_break hb hscan)).2 hc
      obtain ⟨first, more, hsplit⟩ := List.exists_cons_of_ne_nil (List.splitOn_ne_nil '\n' text)
      rw [List.splitOn_cons_eq_if_modifyHead]
      rw [hsplit, List.map_cons, List.cons_append] at hbal
      by_cases hnewline : c = '\n'
      · rw [hsame (.inl hnewline)] at hbal
        have hopen : ¬ state.depth ≤ 0 := by
          have hpos := List.length_pos_of_ne_nil hstack
          rw [h.depth]
          omega
        rw [if_pos (by simpa using hnewline), hsplit, List.map_cons, List.map_cons, List.cons_append,
          List.cons_append, withoutReturn_nil, balanced_goes (by simpa using hopen), List.foldl_nil, hbal]
      · rw [if_neg (by simpa using hnewline), hsplit, List.modifyHead_cons, List.map_cons, List.cons_append]
        by_cases hreturn : first = [] ∧ c = '\r'
        · obtain ⟨rfl, rfl⟩ := hreturn
          rw [hsame (.inr rfl)] at hbal
          exact hbal
        · have hkept : first ≠ [] ∨ c ≠ '\r' := by tauto
          rw [withoutReturn_cons hkept]
          exact balanced_cons hbal
    · have hlow := opens_low hopens
      have hascii : c.toNat < 128 := by
        by_contra hhigh
        have := le_of_mem_encodeChar (Nat.not_lt.1 hhigh) (b := b) (by rw [hbytes]; simp)
        omega
      have hsingle : front = [] ∧ back = [] ∧ b = UInt8.ofNat c.toNat := by
        rw [encodeChar_of_ascii hascii] at hbytes
        cases front with
        | nil =>
          obtain ⟨rfl, rfl⟩ := List.cons.inj hbytes
          exact ⟨rfl, rfl, rfl⟩
        | cons d rest =>
          have hlength := congrArg List.length hbytes
          simp at hlength
      obtain ⟨rfl, rfl, rfl⟩ := hsingle
      rw [List.nil_append, List.foldl_cons, List.foldl_nil, ← step_of_ascii state hascii] at hdepth
      rw [List.nil_append] at hrest
      obtain rfl : text = [] := by
        by_contra hne
        have hc := hlast (text.getLast hne) (by rw [List.getLast?_cons, List.getLast?_eq_getLast_of_ne_nil hne]; rfl)
        rw [isSpace_getLast hrest (List.getLast?_eq_some_getLast hne)] at hc
        cases hc
      have hnewline : c ≠ '\n' := by
        rintro rfl
        exact hlow.2.1 rfl
      have hreturn : c ≠ '\r' := by
        rintro rfl
        exact hlow.2.2 rfl
      have hsplit : [c].splitOn '\n' = [[c]] := by
        rw [List.splitOn_cons_eq_if_modifyHead, if_neg (by simpa using hnewline)]
        rfl
      rw [hsplit, List.map_cons, List.map_nil, withoutReturn_cons (.inr hreturn), withoutReturn_nil,
        List.singleton_append, balanced_ends (by simp [hdepth])]

/-- The lines of a valid text in brackets are read to the last. -/
theorem balanced_valid {text : Text} (hvalid : valid (encode text) = true)
    (hopen : ∃ c rest, text = c :: rest ∧ (c = '{' ∨ c = '['))
    (hlast : ∀ c, text.getLast? = some c → Go.isSpace c = false) (others : List Text) :
    balanced {} ((text.splitOn '\n').map withoutReturn ++ others) =
      ((text.splitOn '\n').map withoutReturn, others) := by
  obtain ⟨c, text, rfl, hc⟩ := hopen
  have hfirst : ∃ b next, String.utf8EncodeChar c = [b] ∧ isSpace b = false ∧
      step ⟨.beginValue, []⟩ b = .goes next ∧ next.parseState ≠ [] := by
    rcases hc with rfl | rfl
    · exact ⟨0x7B, _, rfl, by decide, rfl, List.cons_ne_nil _ _⟩
    · exact ⟨0x5B, _, rfl, by decide, rfl, List.cons_ne_nil _ _⟩
  obtain ⟨b, next, hbytes, hspace, hstep, hstack⟩ := hfirst
  have hstart : Tracks {} ⟨.beginValue, []⟩ := ⟨rfl, rfl, rfl, trivial⟩
  have htracks := (hstart.goes hstep).1
  have hbyte : stepByte {} b = Brackets.step {} c := by
    rw [← foldl_stepByte_encodeChar, hbytes]
    rfl
  rw [hbyte] at htracks
  have hread : readValue (encode (c :: text)) =
      (scanFrom next (encode text)).map fun read => (b :: read.1, read.2) := by
    unfold readValue
    rw [encode_cons, hbytes, List.singleton_append, peek_of_head hspace, scanFrom, hstep]
  unfold valid at hvalid
  rw [hread] at hvalid
  cases hscan : scanFrom next (encode text) with
  | none =>
    rw [hscan] at hvalid
    cases hvalid
  | some result =>
    obtain ⟨value, rest⟩ := result
    rw [hscan] at hvalid
    have hrest : ∀ b ∈ rest, isSpace b = true := List.all_eq_true.1 hvalid
    have hlast' : ∀ d, text.getLast? = some d → Go.isSpace d = false := by
      intro d hd
      apply hlast d
      obtain ⟨e, rest', rfl⟩ := List.exists_cons_of_ne_nil (List.ne_nil_of_mem (List.mem_of_getLast? hd))
      rw [List.getLast?_cons_cons, hd]
    have hbal := balanced_scanned htracks hstack hscan hrest hlast' others
    have hplain : c ≠ '\n' ∧ c ≠ '\r' := by
      rcases hc with rfl | rfl <;> decide
    obtain ⟨first, more, hsplit⟩ := List.exists_cons_of_ne_nil (List.splitOn_ne_nil '\n' text)
    rw [hsplit, List.map_cons, List.cons_append] at hbal
    rw [List.splitOn_cons_eq_if_modifyHead, if_neg (by simpa using hplain.1), hsplit, List.modifyHead_cons,
      List.map_cons, List.cons_append, withoutReturn_cons (.inr hplain.2)]
    exact balanced_cons hbal

end Gostman.Importer.Hurl
