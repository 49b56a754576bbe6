import Gostman.Lib.Decided
import Gostman.Lib.Base64
import Gostman.Redact.Clean
import Mathlib.Data.List.Dedup
import Mathlib.Data.List.Induction
import Mathlib.Data.Nat.Basic
/-!
# What a redactor learns (`redact/redact.go`, `redact/forms.go`)

A secret is looked for in its Base64 too, at each of the three places where it
can begin in a group of three bytes.  Trimming, case mapping, the names that
count as sensitive and the two other encodings of a value are parameters.
-/

namespace Gostman.Redact

open Gostman.Lib

open scoped Gostman.Lib.Decided

/-! ## Base64 -/

structure Encoding where
  alphabet : Bytes
  pad : Nat → Bytes

def Encoding.unpadded (encoding : Encoding) : Encoding :=
  { encoding with pad := Lib.unpadded }

def Encoding.encodeToString (encoding : Encoding) (bytes : Bytes) : Bytes :=
  base64 (fun n => encoding.alphabet.getD n 0) encoding.pad bytes

def equalsSigns (missing : Nat) : Bytes :=
  List.replicate missing 61

def stdEncoding : Encoding where
  alphabet := encode "ABCDEFGHIJKLMNOPQRSTUVWXYZabcdefghijklmnopqrstuvwxyz0123456789+/".toList
  pad := equalsSigns

def urlEncoding : Encoding where
  alphabet := encode "ABCDEFGHIJKLMNOPQRSTUVWXYZabcdefghijklmnopqrstuvwxyz0123456789-_".toList
  pad := equalsSigns

def bitsPerByte : Nat := 8

def bitsPerSymbol : Nat := 6

def alignments : Nat := 3

def embedded (encoding : Encoding) (value : Bytes) (offset : Nat) : Bytes :=
  let shifted := List.replicate offset 0 ++ value
  let encoded := encoding.encodeToString shifted
  let start := (bitsPerByte * offset + bitsPerSymbol - 1) / bitsPerSymbol
  let stop := bitsPerByte * shifted.length / bitsPerSymbol
  (encoded.take stop).drop start

def base64Encoded (value : Bytes) : List Bytes :=
  [stdEncoding, urlEncoding].flatMap fun encoding =>
    encoding.encodeToString value :: (List.range alignments).map (embedded encoding.unpadded value)

theorem embedded_eq_inside (encoding : Encoding) (value : Bytes) (offset : Nat) :
    embedded encoding.unpadded value offset = inside (fun n => encoding.alphabet.getD n 0) value offset := rfl

/-- Wherever a value stands in bytes, the form for its place stands in their
Base64, padded or not. -/
theorem embedded_isInfix (encoding : Encoding) (pad : Nat → Bytes) (before value after : Bytes) :
    embedded encoding.unpadded value (before.length % alignments) <:+:
      ({ encoding with pad } : Encoding).encodeToString (before ++ value ++ after) := by
  rw [embedded_eq_inside]
  exact inside_infix_base64 _ pad before value after

theorem le_length_embedded (encoding : Encoding) {value : Bytes} (h : 2 ≤ value.length) (offset : Nat) :
    value.length ≤ (embedded encoding.unpadded value offset).length := by
  rw [embedded_eq_inside]
  exact le_length_inside _ h offset

theorem mem_base64Encoded {encoding : Encoding} (h : encoding ∈ [stdEncoding, urlEncoding]) (value : Bytes) {offset : Nat}
    (hoffset : offset < alignments) : embedded encoding.unpadded value offset ∈ base64Encoded value := by
  apply List.mem_flatMap.2
  refine ⟨encoding, h, List.mem_cons_of_mem _ ?_⟩
  exact List.mem_map_of_mem (List.mem_range.2 hoffset)

/-! ## Learning -/

inductive Scope
  | allValues
  | secretValues
  | noValues
deriving DecidableEq

structure Texts where
  trimSpace : Bytes → Bytes
  toLower : Bytes → Bytes
  isSensitiveName : Bytes → Bool
  percentEncoded : Bytes → List Bytes
  jsonEscaped : Bytes → List Bytes

section Learning

variable (lib : Texts)

def minimumDistinct : Nat := 4

def literals : List Bytes :=
  ["true", "false", "null", "undefined"].map fun word => encode word.toList

def distinctBytes (value : Bytes) : Nat :=
  value.dedup.length

def isMeaningful (value : Bytes) : Bool :=
  let trimmed := lib.trimSpace value
  trimmed.length ≥ minimumLength && distinctBytes trimmed ≥ minimumDistinct && lib.toLower trimmed ∉ literals

def isSecret (value : Bytes) : Bool :=
  let trimmed := lib.trimSpace value
  trimmed.length ≥ secretLength && lib.toLower trimmed ∉ literals

def keeps (scope : Scope) (label : Bytes) : Bool :=
  scope = .allValues || (scope = .secretValues && lib.isSensitiveName label)

/-- The candidates of `variants` behind the value itself. -/
def encodings (value : Bytes) : List Bytes :=
  lib.percentEncoded value ++ lib.jsonEscaped value ++ base64Encoded value

def Redactor.learn (scope : Scope) (redactor : Redactor) (label value : Bytes) : Redactor :=
  if keeps lib scope label && isMeaningful lib value then
    redactor.remember (encodings lib) label (lib.trimSpace value) minimumLength (by decide)
  else redactor

def Redactor.learnSecret (scope : Scope) (redactor : Redactor) (label value : Bytes) : Redactor :=
  if scope ≠ .noValues && isSecret lib value then
    redactor.remember (encodings lib) label (lib.trimSpace value) secretLength (by decide)
  else redactor

/-- A call of `Learn` or of `LearnSecret`. -/
inductive Lesson
  | value (label value : Bytes)
  | secret (label value : Bytes)

def Redactor.take (scope : Scope) (redactor : Redactor) : Lesson → Redactor
  | .value label value => redactor.learn lib scope label value
  | .secret label value => redactor.learnSecret lib scope label value

def taught (scope : Scope) (lessons : List Lesson) : Redactor :=
  lessons.foldl (Redactor.take lib scope) {}

end Learning

/-- A candidate that is long enough is among the variants. -/
theorem mem_variants {encodings : Bytes → List Bytes} {value candidate : Bytes} {shortest : Nat}
    (h : candidate ∈ value :: encodings value) (hlength : shortest ≤ candidate.length) :
    candidate ∈ variants encodings value shortest := by
  have hall : ∀ (candidates kept : List Bytes), candidate ∈ candidates ∨ candidate ∈ kept →
      candidate ∈ candidates.foldl (fun kept candidate =>
        if candidate.length < shortest ∨ candidate ∈ kept then kept else kept ++ [candidate]) kept := by
    intro candidates
    induction candidates with
    | nil => exact fun kept hkept => hkept.resolve_left List.not_mem_nil
    | cons first rest ih =>
        intro kept hin
        apply ih
        simp only
        rcases hin with hcandidates | hkept
        · rcases List.mem_cons.1 hcandidates with rfl | hrest
          · right
            split_ifs with hskip
            · exact hskip.resolve_left (not_lt.2 hlength)
            · exact List.mem_append_right _ List.mem_cons_self
          · exact .inl hrest
        · right
          split_ifs
          · exact hkept
          · exact List.mem_append_left _ hkept
  exact hall _ [] (.inl h)

/-- The Base64 forms of every value the redactor knows are looked for. -/
def KnowsBase64 (redactor : Redactor) : Prop :=
  ∀ value ∈ redactor.known, ∀ encoding ∈ [stdEncoding, urlEncoding], ∀ offset < alignments,
    ∃ form ∈ redactor.forms, form.text = embedded encoding.unpadded value offset

section Remembering

variable {lib : Texts} {redactor : Redactor}

theorem KnowsBase64.remember (h : KnowsBase64 redactor) (label : Bytes) {value : Bytes} {shortest : Nat}
    (hshortest : 0 < shortest) (htwo : 2 ≤ value.length) (hlength : shortest ≤ value.length) :
    KnowsBase64 (redactor.remember (encodings lib) label value shortest hshortest) := by
  unfold Redactor.remember
  split_ifs with hknown
  · exact h
  · intro other hother encoding hencoding offset hoffset
    rcases List.mem_cons.1 hother with rfl | hold
    · have hmem : embedded encoding.unpadded other offset ∈ variants (encodings lib) other shortest := by
        apply mem_variants
        · exact List.mem_cons_of_mem _ (List.mem_append_right _ (mem_base64Encoded hencoding other hoffset))
        · exact Nat.le_trans hlength (le_length_embedded encoding htwo offset)
      refine ⟨_, List.mem_append_right _ (List.mem_map_of_mem (List.mem_attach _ ⟨_, hmem⟩)), rfl⟩
    · obtain ⟨form, hform, htext⟩ := h other hold encoding hencoding offset hoffset
      exact ⟨form, List.mem_append_left _ hform, htext⟩

theorem known_remember (encodings : Bytes → List Bytes) (label value : Bytes) {shortest : Nat} (hshortest : 0 < shortest) :
    value ∈ (redactor.remember encodings label value shortest hshortest).known ∧
      redactor.known ⊆ (redactor.remember encodings label value shortest hshortest).known := by
  unfold Redactor.remember
  split_ifs with hknown
  · exact ⟨hknown, fun _ hmem => hmem⟩
  · exact ⟨List.mem_cons_self, List.subset_cons_self value redactor.known⟩

theorem KnowsBase64.take (h : KnowsBase64 redactor) (scope : Scope) (lesson : Lesson) :
    KnowsBase64 (redactor.take lib scope lesson) := by
  cases lesson with
  | value label value =>
      rw [Redactor.take, Redactor.learn]
      split_ifs with hlearn
      · rw [Bool.and_eq_true, isMeaningful, Bool.and_eq_true, Bool.and_eq_true] at hlearn
        have hlength : minimumLength ≤ (lib.trimSpace value).length := of_decide_eq_true hlearn.2.1.1
        exact h.remember label _ (le_trans (by decide) hlength) hlength
      · exact h
  | secret label value =>
      rw [Redactor.take, Redactor.learnSecret]
      split_ifs with hlearn
      · rw [Bool.and_eq_true, isSecret, Bool.and_eq_true] at hlearn
        have hlength : secretLength ≤ (lib.trimSpace value).length := of_decide_eq_true hlearn.2.1
        exact h.remember label _ (le_trans (by decide) hlength) hlength
      · exact h

theorem known_take (scope : Scope) (lesson : Lesson) : redactor.known ⊆ (redactor.take lib scope lesson).known := by
  cases lesson with
  | value label value =>
      rw [Redactor.take, Redactor.learn]
      split_ifs
      · exact (known_remember _ label _ _).2
      · exact fun _ hmem => hmem
  | secret label value =>
      rw [Redactor.take, Redactor.learnSecret]
      split_ifs
      · exact (known_remember _ label _ _).2
      · exact fun _ hmem => hmem

variable (lib)

theorem knowsBase64_taught (scope : Scope) (lessons : List Lesson) : KnowsBase64 (taught lib scope lessons) := by
  induction lessons using List.reverseRecOn with
  | nil => exact List.forall_mem_nil _
  | append_singleton lessons lesson ih =>
      rw [taught, List.foldl_append]
      exact KnowsBase64.take ih scope lesson

theorem mem_known_taught {scope : Scope} {lessons : List Lesson} {label value : Bytes}
    (h : Lesson.secret label value ∈ lessons) (hscope : scope ≠ .noValues) (hsecret : isSecret lib value = true) :
    lib.trimSpace value ∈ (taught lib scope lessons).known := by
  induction lessons using List.reverseRecOn with
  | nil => cases h
  | append_singleton lessons lesson ih =>
      rw [taught, List.foldl_append]
      rcases List.mem_append.1 h with hold | hlast
      · exact known_take scope lesson (ih hold)
      · rw [← List.mem_singleton.1 hlast]
        change lib.trimSpace value ∈ (Redactor.learnSecret lib scope _ label value).known
        rw [Redactor.learnSecret, if_pos (by rw [hsecret, Bool.and_true]; exact decide_eq_true hscope)]
        exact (known_remember _ label _ _).1

end Remembering

/-! ## The window -/

namespace Gui

def widen (text : Bytes) : List UInt16 :=
  text.map UInt8.toUInt16

def bytesToBase64 (bytes : Bytes) : List UInt16 :=
  base64 (fun n => (widen stdEncoding.alphabet).getD n 0) (fun missing => List.replicate missing 61) bytes

def unpadded (encoded : List UInt16) : List UInt16 :=
  encoded.filter (· ≠ 61)

def embedded (bytes : Bytes) (offset : Nat) : List UInt16 :=
  let shifted := List.replicate offset 0 ++ bytes
  let start := (bitsPerByte * offset + bitsPerSymbol - 1) / bitsPerSymbol
  let stop := bitsPerByte * shifted.length / bitsPerSymbol
  ((unpadded (bytesToBase64 shifted)).take stop).drop start

def urlSymbol (unit : UInt16) : UInt16 :=
  if unit = 43 then 45 else if unit = 47 then 95 else unit

/-- `base64Encoded`, of the bytes that the encoder makes of a text. -/
def base64Encoded (bytes : Bytes) : List (List UInt16) :=
  let standard := bytesToBase64 bytes :: (List.range alignments).map (embedded bytes)
  standard ++ standard.map (List.map urlSymbol)

theorem map_getD {β γ : Type*} (f : β → γ) (list : List β) (fallback : β) (n : Nat) :
    f (list.getD n fallback) = (list.map f).getD n (f fallback) := by
  rw [List.getD_eq_getElem?_getD, List.getD_eq_getElem?_getD, List.getElem?_map]
  cases list[n]? <;> rfl

/-- A symbol of the standard alphabet is no padding. -/
theorem gui_symbol_ne (n : Nat) : (widen stdEncoding.alphabet).getD n 0 ≠ 61 := by
  have hall : ∀ unit ∈ 0 :: widen stdEncoding.alphabet, unit ≠ 61 := by decide
  apply hall
  rw [List.getD_eq_getElem?_getD]
  cases hunit : (widen stdEncoding.alphabet)[n]? with
  | none => exact List.mem_cons_self
  | some unit => exact List.mem_cons_of_mem 0 (List.mem_of_getElem? hunit)

theorem widen_encodeToString (encoding : Encoding) (bytes : Bytes) :
    widen (encoding.encodeToString bytes) =
      base64 (fun n => (widen encoding.alphabet).getD n 0) (fun missing => widen (encoding.pad missing)) bytes := by
  rw [widen, Encoding.encodeToString, map_base64]
  apply congrArg (base64 · _ bytes)
  funext n
  exact map_getD UInt8.toUInt16 encoding.alphabet 0 n

theorem widen_equalsSigns (missing : Nat) : List.replicate missing 61 = widen (equalsSigns missing) := by
  rw [widen, equalsSigns, List.map_replicate]
  rfl

theorem bytesToBase64_eq (bytes : Bytes) : bytesToBase64 bytes = widen (stdEncoding.encodeToString bytes) := by
  rw [widen_encodeToString, bytesToBase64]
  apply congrArg (base64 _ · bytes)
  funext missing
  exact widen_equalsSigns missing

theorem unpadded_bytesToBase64 (bytes : Bytes) :
    unpadded (bytesToBase64 bytes) = widen (stdEncoding.unpadded.encodeToString bytes) := by
  rw [widen_encodeToString, unpadded, bytesToBase64, filter_base64]
  · rfl
  · intro n
    exact decide_eq_true (gui_symbol_ne n)
  · intro missing
    rw [List.filter_replicate]
    rfl

theorem urlSymbol_base64 {pad : Nat → List UInt16} (hpad : ∀ missing, (pad missing).map urlSymbol = pad missing)
    (bytes : Bytes) :
    (base64 (fun n => (widen stdEncoding.alphabet).getD n 0) pad bytes).map urlSymbol =
      base64 (fun n => (widen urlEncoding.alphabet).getD n 0) pad bytes := by
  have halphabet : (widen stdEncoding.alphabet).map urlSymbol = widen urlEncoding.alphabet := by decide
  rw [map_base64]
  apply congrArg₂ (base64 · · bytes)
  · funext n
    rw [← halphabet]
    exact map_getD urlSymbol _ 0 n
  · funext missing
    exact hpad missing

theorem embedded_eq (bytes : Bytes) (offset : Nat) :
    embedded bytes offset = widen (Redact.embedded stdEncoding.unpadded bytes offset) := by
  rw [embedded, Redact.embedded, unpadded_bytesToBase64]
  simp only [widen, List.map_drop, List.map_take]

theorem urlSymbol_embedded (bytes : Bytes) (offset : Nat) :
    (embedded bytes offset).map urlSymbol = widen (Redact.embedded urlEncoding.unpadded bytes offset) := by
  have hurl : ∀ shifted : Bytes, (widen (stdEncoding.unpadded.encodeToString shifted)).map urlSymbol =
      widen (urlEncoding.unpadded.encodeToString shifted) := by
    intro shifted
    rw [widen_encodeToString, widen_encodeToString]
    exact urlSymbol_base64 (fun _ => rfl) shifted
  rw [embedded, Redact.embedded, unpadded_bytesToBase64]
  simp only [List.map_drop, List.map_take, hurl]
  simp only [widen, List.map_drop, List.map_take]

theorem base64Encoded_eq (bytes : Bytes) : base64Encoded bytes = (Redact.base64Encoded bytes).map widen := by
  have hurl : (bytesToBase64 bytes).map urlSymbol = widen (urlEncoding.encodeToString bytes) := by
    rw [widen_encodeToString, bytesToBase64, urlSymbol_base64]
    · apply congrArg (base64 _ · bytes)
      funext missing
      exact widen_equalsSigns missing
    · intro missing
      rw [List.map_replicate]
      rfl
  unfold base64Encoded Redact.base64Encoded
  simp only [List.flatMap_cons, List.flatMap_nil, List.append_nil, List.map_append, List.map_cons, List.map_map, hurl]
  apply congrArg₂ (· ++ ·)
  · rw [bytesToBase64_eq]
    apply congrArg (List.cons _)
    apply List.map_congr_left
    intro offset _
    exact embedded_eq bytes offset
  · apply congrArg (List.cons _)
    apply List.map_congr_left
    intro offset _
    exact urlSymbol_embedded bytes offset

end Gui

/-! ## No hiding in Base64 -/

/-- Whatever stands around a learned secret, its Base64, with any padding, holds the form of the
place where the secret begins; the form is long enough to be looked for, and
the redactor and the window look for it, so that every place where it stands is
replaced. -/
theorem base64_hides_no_secret (lib : Texts) {scope : Scope} {lessons : List Lesson} {label secret : Bytes}
    (hscope : scope ≠ .noValues) (hlesson : Lesson.secret label secret ∈ lessons) (hsecret : isSecret lib secret = true)
    (htrimmed : lib.trimSpace secret = secret) {encoding : Encoding} (hencoding : encoding ∈ [stdEncoding, urlEncoding])
    (pad : Nat → Bytes) (before after : Bytes) :
    let redactor := taught lib scope lessons
    let form := embedded encoding.unpadded secret (before.length % 3)
    form <:+: ({ encoding with pad } : Encoding).encodeToString (before ++ secret ++ after) ∧
      secretLength ≤ form.length ∧
      Gui.widen form ∈ Gui.base64Encoded secret ∧
      (∃ known ∈ redactor.forms, known.text = form) ∧
      ∀ text, redactor.text text = weave (keptPieces text 0 (spans redactor.forms text))
          ((spans redactor.forms text).map fun span => marker span.label) ∧
        (∀ place, form <+: text.drop place →
          ∃ span ∈ spans redactor.forms text, span.start ≤ place ∧ place + form.length ≤ span.stop) ∧
        ∀ piece ∈ keptPieces text 0 (spans redactor.forms text), ¬ form <:+: piece := by
  have hoffset : before.length % 3 < alignments := Nat.mod_lt _ (by decide)
  have hlength : secretLength ≤ secret.length := by
    rw [isSecret, htrimmed, Bool.and_eq_true] at hsecret
    exact of_decide_eq_true hsecret.1
  have hknown : secret ∈ (taught lib scope lessons).known := by
    have hmem := mem_known_taught lib hlesson hscope hsecret
    rw [htrimmed] at hmem
    exact hmem
  obtain ⟨known, hform, htext⟩ := knowsBase64_taught lib scope lessons secret hknown encoding hencoding _ hoffset
  refine ⟨embedded_isInfix encoding pad before secret after, ?_, ?_, ⟨known, hform, htext⟩, ?_⟩
  · exact Nat.le_trans hlength (le_length_embedded encoding (Nat.le_trans (by decide) hlength) _)
  · rw [Gui.base64Encoded_eq]
    exact List.mem_map_of_mem (mem_base64Encoded hencoding secret hoffset)
  · intro text
    refine ⟨textOf_eq marker _ text, ?_, ?_⟩
    · intro place hplace
      rw [← htext] at hplace ⊢
      exact occurrence_within hform hplace
    · intro piece hpiece
      rw [← htext]
      exact kept_without_form hpiece hform

/-- Of a secret of three letters, which is its own trimmed form. -/
def plainTexts : Texts where
  trimSpace text := text
  toLower text := text
  isSensitiveName _ := false
  percentEncoded value := [value]
  jsonEscaped value := [value]

theorem three_letters_found :
    embedded stdEncoding.unpadded [97, 98, 99] 1 = encode "FiY".toList ∧
      embedded stdEncoding.unpadded [97, 98, 99] 1 <:+: stdEncoding.encodeToString ([33] ++ [97, 98, 99] ++ [33]) := by
  refine ⟨by decide, ?_⟩
  exact (base64_hides_no_secret plainTexts (by decide : Scope.allValues ≠ .noValues)
    (List.mem_singleton.2 rfl : Lesson.secret [116] [97, 98, 99] ∈ [.secret [116] [97, 98, 99]]) (by decide) rfl
    (List.mem_cons_self : stdEncoding ∈ [stdEncoding, urlEncoding]) equalsSigns [33] [33]).1

end Gostman.Redact
