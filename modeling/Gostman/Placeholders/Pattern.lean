import Gostman.Go.Text
import Gostman.Js.Value
/-!
# Placeholders in a text

Both the engine and the window find placeholders by the expression
`{{([^}]+)}}`, which means the same to both of their regular expression
libraries.
-/

namespace Gostman.Placeholders

abbrev Text := List Char

/-- What stands between the braces of a placeholder at the start of a text. -/
def placeholderAt : Text → Option Text
  | '{' :: '{' :: rest =>
      match rest.takeWhile (· ≠ '}'), rest.dropWhile (· ≠ '}') with
      | c :: raw, '}' :: '}' :: _ => some (c :: raw)
      | _, _ => none
  | _ => none

/-- One match: the text between it and the match before, and what stands
between its braces. -/
structure Span where
  before : Text
  raw : Text

/-- The matches from here on and the text after the last, where `skip`
characters still belong to the last match and `before` stands since it. -/
def spansFrom : Nat → Text → Text → List Span × Text
  | _, before, [] => ([], before)
  | skip + 1, before, _ :: rest => spansFrom skip before rest
  | 0, before, c :: rest =>
      match placeholderAt (c :: rest) with
      | some raw =>
          let (spans, tail) := spansFrom (raw.length + 3) [] rest
          (⟨before, raw⟩ :: spans, tail)
      | none => spansFrom 0 (before ++ [c]) rest

/-- All matches of the expression in a text, and the text after the last. -/
def spansOf (text : Text) : List Span × Text :=
  spansFrom 0 [] text

def braced (raw : Text) : Text :=
  ['{', '{'] ++ raw ++ ['}', '}']

def Span.placeholder (span : Span) : Text :=
  braced span.raw

def hasPlaceholder (text : Text) : Bool :=
  !(spansOf text).1.isEmpty

/-! ## Names -/

def trimSpace (text : Text) : Text :=
  (text.dropWhile Go.isSpace).rdropWhile Go.isSpace

def trim (text : Text) : Text :=
  Js.trimChars text

/-- The text is a name with ASCII spaces around it, and no other white space of
either runtime. -/
def PaddedBySpaces (raw : Text) : Prop :=
  ∃ (left right : Nat) (name : Text),
    raw = List.replicate left ' ' ++ name ++ List.replicate right ' ' ∧
      (∀ c, name.head? = some c ∨ name.getLast? = some c →
        Go.isSpace c = false ∧ Js.isSpace c = false)

section Trimming

variable {isSpace : Char → Bool}

theorem dropWhile_spaces (hspace : isSpace ' ' = true) (count : Nat) (rest : Text) :
    (List.replicate count ' ' ++ rest).dropWhile isSpace = rest.dropWhile isSpace := by
  apply List.dropWhile_append_of_pos
  intro c hc
  rw [List.eq_of_mem_replicate hc, hspace]

theorem dropWhile_begun {c : Char} {rest : Text} (hc : isSpace c = false) :
    (c :: rest).dropWhile isSpace = c :: rest := by
  rw [List.dropWhile_cons, hc]
  rfl

/-- Trimming takes the spaces around a name away and no more. -/
theorem trimmed_padded (hspace : isSpace ' ' = true) {name : Text}
    (hends : ∀ c, name.head? = some c ∨ name.getLast? = some c → isSpace c = false)
    (left right : Nat) :
    ((List.replicate left ' ' ++ name ++ List.replicate right ' ').dropWhile isSpace).rdropWhile
      isSpace = name := by
  rw [List.append_assoc, dropWhile_spaces hspace]
  cases hname : name with
  | nil =>
    have hnone := dropWhile_spaces hspace right []
    rw [List.append_nil] at hnone
    rw [List.nil_append, hnone]
    rfl
  | cons c rest =>
    have hlast : isSpace ((c :: rest).getLast (List.cons_ne_nil c rest)) = false :=
      hends _ (.inr (by rw [hname, List.getLast?_eq_some_getLast (List.cons_ne_nil c rest)]))
    have hend : (c :: rest).reverse =
        (c :: rest).getLast (List.cons_ne_nil c rest) :: (c :: rest).dropLast.reverse := by
      rw [← List.reverse_concat, List.dropLast_concat_getLast]
    rw [List.cons_append, dropWhile_begun (hends c (.inl (by rw [hname, List.head?_cons]))),
      ← List.cons_append, List.rdropWhile, List.reverse_append, List.reverse_replicate,
      dropWhile_spaces hspace, hend, dropWhile_begun hlast, ← hend, List.reverse_reverse]

end Trimming

/-- On names padded by spaces the two runtimes trim alike. -/
theorem trimSpace_eq_trim {raw : Text} (h : PaddedBySpaces raw) : trimSpace raw = trim raw := by
  obtain ⟨left, right, name, rfl, hends⟩ := h
  have hgo := trimmed_padded (by decide) (fun c hc => (hends c hc).1) left right
  have hjs := trimmed_padded (by decide) (fun c hc => (hends c hc).2) left right
  exact hgo.trans hjs.symm

end Gostman.Placeholders
