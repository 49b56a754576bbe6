import Gostman.Lib.Spans
import Gostman.Lib.Utf8
/-!
# Redaction (`redact/redact.go`, `lib/redact.js`)

What a run has learned is a list of forms, texts that stand for a secret, each
with a label.  Every place at which a form stands in a text is replaced by the
marker of its label.
-/

namespace Gostman.Redact

open Gostman.Lib

variable {α : Type} [DecidableEq α]

/-- A text that is looked for, never an empty one, and its label. -/
structure Form (α : Type) where
  text : List α
  label : List α
  filled : text ≠ []

/-! ## Learning -/

/-- The forms of a value that are long enough, each once (`variants`); the
encodings of a value are `percentEncoded`, `jsonEscaped` and `base64Encoded`. -/
def variants (encodings : Bytes → List Bytes) (value : Bytes) (shortest : Nat) : List Bytes :=
  (value :: encodings value).foldl
    (fun kept candidate =>
      if candidate.length < shortest ∨ candidate ∈ kept then kept else kept ++ [candidate]) []

theorem length_of_mem_variants {encodings : Bytes → List Bytes} {value : Bytes} {shortest : Nat} {variant : Bytes}
    (h : variant ∈ variants encodings value shortest) : shortest ≤ variant.length := by
  have hall : ∀ (candidates kept : List Bytes), (∀ text ∈ kept, shortest ≤ text.length) →
      ∀ text ∈ candidates.foldl (fun kept candidate =>
        if candidate.length < shortest ∨ candidate ∈ kept then kept else kept ++ [candidate]) kept,
        shortest ≤ text.length := by
    intro candidates
    induction candidates with
    | nil => exact fun kept hkept => hkept
    | cons candidate rest ih =>
      intro kept hkept
      apply ih
      simp only
      split_ifs with hskip
      · exact hkept
      · intro text htext
        rcases List.mem_append.1 htext with hold | hnew
        · exact hkept text hold
        · rw [List.mem_singleton.1 hnew]
          rw [not_or] at hskip
          omega
  exact hall _ [] (List.forall_mem_nil _) variant h

structure Redactor where
  known : List Bytes := []
  forms : List (Form UInt8) := []

def minimumLength : Nat := 6

def secretLength : Nat := 3

def Redactor.remember (redactor : Redactor) (encodings : Bytes → List Bytes) (label value : Bytes) (shortest : Nat)
    (hshortest : 0 < shortest) : Redactor :=
  if value ∈ redactor.known then redactor
  else
    { known := value :: redactor.known
      forms := redactor.forms ++ (variants encodings value shortest).attach.map fun variant =>
        { text := variant.1
          label := label
          filled := fun hnil => by
            have hlength := length_of_mem_variants variant.2
            rw [hnil, List.length_nil] at hlength
            omega } }

/-! ## The redactor -/

def index (text wanted : List α) : Option Nat :=
  if wanted.isPrefixOf text then some 0
  else
    match text with
    | [] => none
    | _ :: rest => (index rest wanted).map (· + 1)

theorem prefix_of_index {text wanted : List α} {place : Nat} (h : index text wanted = some place) :
    wanted <+: text.drop place := by
  induction text generalizing place with
  | nil =>
    unfold index at h
    split_ifs at h with hstarts
    obtain rfl := Option.some.inj h
    exact List.isPrefixOf_iff_prefix.1 hstarts
  | cons c rest ih =>
    unfold index at h
    split_ifs at h with hstarts
    · obtain rfl := Option.some.inj h
      exact List.isPrefixOf_iff_prefix.1 hstarts
    · obtain ⟨earlier, hearlier, rfl⟩ := Option.map_eq_some_iff.1 h
      exact ih hearlier

omit [DecidableEq α] in
theorem lt_of_prefix {text wanted : List α} (hfilled : wanted ≠ []) {place : Nat}
    (h : wanted <+: text.drop place) : place < text.length := by
  by_contra hout
  rw [List.drop_eq_nil_of_le (Nat.le_of_not_lt hout), List.prefix_nil] at h
  exact hfilled h

def Form.spanAt (form : Form α) (start : Nat) : Span (List α) :=
  { start, stop := start + form.text.length, width := form.text.length, label := form.label }

def occurrences (text : List α) (wanted : Form α) (offset : Nat) : List (Span (List α)) :=
  match _hindex : index (text.drop offset) wanted.text with
  | none => []
  | some place => wanted.spanAt (offset + place) :: occurrences text wanted (offset + place + 1)
termination_by text.length - offset
decreasing_by
  have hstarts := prefix_of_index _hindex
  rw [List.drop_drop] at hstarts
  have hlt := lt_of_prefix wanted.filled hstarts
  omega

def merge (found : List (Span (List α))) : List (Span (List α)) :=
  (found.mergeSort fun first second => first.start ≤ second.start).foldl addSpan []

def spans (forms : List (Form α)) (text : List α) : List (Span (List α)) :=
  merge (forms.flatMap fun wanted => occurrences text wanted 0)

/-- The loop of `Redactor.Text`: what is kept and the markers, from a position on. -/
def cleaned (marker : List α → List α) (text : List α) (position : Nat) : List (Span (List α)) → List α
  | [] => text.drop position
  | hit :: rest =>
      (text.drop position).take (hit.start - position) ++ marker hit.label ++ cleaned marker text hit.stop rest

def textOf (marker : List α → List α) (forms : List (Form α)) (text : List α) : List α :=
  let found := spans forms text
  if found = [] then text else cleaned marker text 0 found

def marker (label : Bytes) : Bytes :=
  encode ['{', '{'] ++ label ++ encode ['}', '}']

def Redactor.text (redactor : Redactor) (text : Bytes) : Bytes :=
  textOf marker redactor.forms text

/-! ## The GUI -/

namespace Gui

def indexOf (text form : List α) (position : Nat) : Option Nat :=
  (List.range' position (text.length - position)).find? fun place => form.isPrefixOf (text.drop place)

theorem mem_of_indexOf {text form : List α} {position place : Nat} (h : indexOf text form position = some place) :
    position ≤ place ∧ place < text.length := by
  have hmem := List.mem_of_find?_eq_some h
  rw [List.mem_range'_1] at hmem
  omega

def occurrences (text : List α) (form : Form α) (position : Nat) : List (Span (List α)) :=
  match _hindex : indexOf text form.text position with
  | none => []
  | some start => form.spanAt start :: occurrences text form (start + 1)
termination_by text.length - position
decreasing_by
  have hmem := mem_of_indexOf _hindex
  omega

def merged (spans : List (Span (List α))) : List (Span (List α)) :=
  (spans.mergeSort fun first second => first.start ≤ second.start).foldl addSpan []

def scrubWith (marker : List α → List α) (text : List α) (forms : List (Form α)) : List α :=
  let spans := merged (forms.flatMap fun form => occurrences text form 0)
  if spans = [] then text else cleaned marker text 0 spans

end Gui

end Gostman.Redact
