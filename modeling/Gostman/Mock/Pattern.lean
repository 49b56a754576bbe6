import Gostman.Lib.Decided
import Gostman.Go.Text
import Gostman.Lib.Percent
import Gostman.Lib.Record
import Gostman.Placeholders.Pattern
import Mathlib.Algebra.Group.Nat.Defs
/-!
# Path patterns of the mock server (`mock/pattern.go`)

The path of a served request is a list of segments, each a literal text or a
parameter.  A pattern has a key, by which routes are kept apart, and a rank, by
which they are sorted.

Paths and addresses are texts; what stands in a literal segment, and the parts
of a request's path, are bytes, since any byte can be written with `%`.
-/

namespace Gostman.Mock

open Gostman.Lib
open Gostman.Placeholders (Text spansOf)

open scoped Gostman.Lib.Decided

/-- What is used of the standard library, for which no definition is needed
here: case mapping, `http.CanonicalHeaderKey`, Base64, and whether
`strconv.ParseFloat` reads a finite number. -/
structure Library where
  toUpper : Text → Text
  toLower : Text → Text
  canonicalHeaderKey : Text → Text
  decodeBase64 : Text → Option Bytes
  parsesFinite : Bytes → Bool

inductive Kind where
  | integer
  | number
  | boolean
  | other
  deriving DecidableEq

structure Segment where
  text : Bytes
  name : Text := []
  kind : Kind := .other
  wildcard : Bool := false
  deriving DecidableEq

abbrev Pattern := List Segment

/-! ## Reading a pattern -/

def index (sub : Text) : Text → Option Nat
  | [] => if sub = [] then some 0 else none
  | c :: rest => if sub <+: c :: rest then some 0 else (index sub rest).map (· + 1)

def indexAny (text chars : Text) : Option Nat :=
  text.findIdx? (· ∈ chars)

def pathEnd : Text := ['?', '#']

def withoutLeadingPlaceholder (text : Text) : Text :=
  match (spansOf text).1 with
  | [] => text
  | span :: _ => if span.before = [] then text.drop span.placeholder.length else text

def withoutOrigin (text : Text) : Text :=
  if ['/'] <+: text then text
  else
    let authority := match index "://".toList text with
      | some scheme =>
          if indexAny text ('/' :: pathEnd) = some (scheme + 1) then text.drop (scheme + 3) else text
      | none => text
    match indexAny authority ('/' :: pathEnd) with
    | none => []
    | some start => authority.drop start

def unescaped (part : Bytes) : Bytes :=
  (Percent.unescape part).getD part

def parameterName (part : Text) : Option Text :=
  match Go.cutPrefix [':'] part with
  | some (c :: name) => some (c :: name)
  | _ =>
      match spansOf part with
      | ([⟨[], raw⟩], []) => some (Placeholders.trimSpace raw)
      | _ =>
          match (Go.cutPrefix ['{'] part).bind (Go.cutSuffix ['}']) with
          | some name => if name ≠ [] ∧ ∀ c ∈ name, c ≠ '{' ∧ c ≠ '}' then some name else none
          | none => none

def isTemplated (part : Text) : Bool :=
  Placeholders.hasPlaceholder part ||
    match index ['{'] part with
    | some opened => '}' ∈ part.drop opened
    | none => false

def toSegment (part : Text) : Segment :=
  match parameterName part with
  | some name => { text := encode part, name := name, wildcard := true }
  | none =>
      if isTemplated part then { text := encode part, wildcard := true }
      else { text := unescaped (encode part) }

def parsePattern (path : Text) : Pattern :=
  let path := match indexAny path pathEnd with
    | some ended => path.take ended
    | none => path
  ((path.splitOn '/').filter (· ≠ [])).map toSegment

def routePattern (rawURL : Text) : Pattern :=
  parsePattern (withoutOrigin (withoutLeadingPlaceholder (Placeholders.trimSpace rawURL)))

/-- `templatePattern`; a name without a type has the kind of no type. -/
def templatePattern (path : Text) (kinds : Record Text Kind) : Pattern :=
  (parsePattern path).map fun part => { part with kind := (kinds.read part.name).getD .other }

/-! ## Keys, ranks and matches -/

def isPathByte (b : UInt8) : Bool :=
  let n := b.toNat
  (0x61 ≤ n && n ≤ 0x7A) || (0x41 ≤ n && n ≤ 0x5A) || (0x30 ≤ n && n ≤ 0x39) ||
    n ∈ [0x2D, 0x5F, 0x2E, 0x7E, 0x24, 0x26, 0x2B, 0x3A, 0x3D, 0x40]

def pathEscape (text : Bytes) : Bytes :=
  Percent.escape isPathByte text

def separator : UInt8 := 0x2F

def wildcardKey : Bytes := [0]

def Segment.key (part : Segment) : Bytes :=
  if part.wildcard then wildcardKey else pathEscape part.text

def key (shape : Pattern) : Bytes :=
  [separator].intercalate (shape.map Segment.key)

def string (shape : Pattern) : Bytes :=
  separator :: [separator].intercalate (shape.map Segment.text)

def literalRank : Char := '0'
def wildcardRank : Char := '1'

def rank (shape : Pattern) : Text :=
  shape.map fun part => if part.wildcard then wildcardRank else literalRank

/-- `strconv.ParseInt(text, 10, 64)` succeeds. -/
def parsesInt (text : Bytes) : Bool :=
  let (negative, digits) : Bool × Bytes := match text with
    | 0x2D :: rest => (true, rest)
    | 0x2B :: rest => (false, rest)
    | other => (false, other)
  let value := digits.foldl (fun n b => n * 10 + (b.toNat - 0x30)) 0
  digits ≠ [] && digits.all (fun b => 0x30 ≤ b.toNat && b.toNat ≤ 0x39) &&
    value < (if negative then 2 ^ 63 + 1 else 2 ^ 63)

section Matching

variable (lib : Library)

def Segment.accepts (part : Segment) (text : Bytes) : Bool :=
  if part.wildcard then
    match part.kind with
    | .integer => parsesInt text
    | .number => lib.parsesFinite text
    | .boolean => text = encode "true".toList || text = encode "false".toList
    | .other => true
  else part.text = text

abbrev Params := Record Text Bytes

/-- The loop of `match`, with the parameters found so far. -/
def matchFrom : Pattern → List Bytes → Params → Option Params
  | part :: shape, text :: parts, params =>
      if part.accepts lib text then
        matchFrom shape parts (if part.name = [] then params else params.put part.name text)
      else none
  | _, _, params => some params

def matchParts (shape : Pattern) (parts : List Bytes) : Option Params :=
  if shape.length ≠ parts.length then none else matchFrom lib shape parts []

end Matching

/-! ## Shapes -/

/-- The same literals in the same places, whatever the parameters are called. -/
def SameShape (p q : Pattern) : Prop :=
  List.Forall₂ (fun a b : Segment => a.wildcard = b.wildcard ∧ (a.wildcard = false → a.text = b.text)) p q

def Solid (shape : Pattern) : Prop :=
  ∀ part ∈ shape, part.wildcard = false → part.text ≠ []

theorem encode_ne_nil {text : Text} (h : text ≠ []) : encode text ≠ [] := by
  obtain ⟨c, rest, rfl⟩ := List.exists_cons_of_ne_nil h
  rw [encode_cons]
  intro hnil
  have hlen := congrArg List.length hnil
  rw [List.length_append, String.length_utf8EncodeChar] at hlen
  have hpos := c.utf8Size_pos
  simp at hlen
  omega

theorem solid_toSegment {part : Text} (h : part ≠ []) : (toSegment part).text ≠ [] := by
  have hne := encode_ne_nil h
  unfold toSegment
  split
  · exact hne
  split_ifs
  · exact hne
  · dsimp only
    unfold unescaped
    cases hread : Percent.unescape (encode part) with
    | none => exact hne
    | some decoded => exact Percent.unescape_ne_nil hread hne

theorem solid_parsePattern (path : Text) : Solid (parsePattern path) := by
  intro part hmem _
  unfold parsePattern at hmem
  obtain ⟨source, hsource, rfl⟩ := List.mem_map.1 hmem
  exact solid_toSegment (by simpa using (List.mem_filter.1 hsource).2)

theorem solid_templatePattern (path : Text) (kinds : Record Text Kind) : Solid (templatePattern path kinds) := by
  intro part hmem hliteral
  obtain ⟨source, hsource, rfl⟩ := List.mem_map.1 hmem
  exact solid_parsePattern path source hsource hliteral

/-! ## Keys keep shapes apart -/

theorem ne_of_mem_pathEscape {text : Bytes} {b : UInt8} (h : b ∈ pathEscape text) :
    b ≠ separator ∧ b ≠ 0x20 ∧ b ≠ 0 := by
  rcases Percent.mem_escape h with hkeep | rfl | ⟨n, hn, rfl⟩
  · refine ⟨?_, ?_, ?_⟩ <;> rintro rfl <;> exact absurd hkeep (by decide)
  · decide
  · have hall : ∀ m : Fin 16, Percent.hexDigit m.val ≠ separator ∧ Percent.hexDigit m.val ≠ 0x20 ∧
        Percent.hexDigit m.val ≠ 0 := by decide
    exact hall ⟨n, hn⟩

theorem ne_of_mem_segmentKey {part : Segment} {b : UInt8} (h : b ∈ part.key) :
    b ≠ separator ∧ b ≠ 0x20 := by
  unfold Segment.key at h
  split_ifs at h
  · rw [List.mem_singleton.1 h]
    decide
  · exact ⟨(ne_of_mem_pathEscape h).1, (ne_of_mem_pathEscape h).2.1⟩

theorem segmentKey_ne_nil {part : Segment} (h : part.wildcard = false → part.text ≠ []) : part.key ≠ [] := by
  unfold Segment.key
  split_ifs with hwildcard
  · decide
  · exact Percent.escape_ne_nil (h (by simpa using hwildcard))

theorem segmentKey_inj {a b : Segment} (h : a.key = b.key) :
    a.wildcard = b.wildcard ∧ (a.wildcard = false → a.text = b.text) := by
  unfold Segment.key at h
  have hzero : ∀ text : Bytes, wildcardKey ≠ pathEscape text := by
    intro text heq
    have hmem : (0 : UInt8) ∈ pathEscape text := by
      rw [← heq]
      exact List.mem_singleton.2 rfl
    exact (ne_of_mem_pathEscape hmem).2.2 rfl
  cases ha : a.wildcard <;> cases hb : b.wildcard <;> simp only [ha, hb, if_true, Bool.false_eq_true, if_false] at h
  · exact ⟨rfl, fun _ => Percent.escape_injective (by decide) h⟩
  · exact absurd h.symm (hzero _)
  · exact absurd h (hzero _)
  · exact ⟨rfl, fun h => absurd h (by decide)⟩

theorem segmentKey_congr {a b : Segment} (h : a.wildcard = b.wildcard ∧ (a.wildcard = false → a.text = b.text)) :
    a.key = b.key := by
  unfold Segment.key
  rw [← h.1]
  split_ifs with hwildcard
  · rfl
  · rw [h.2 (by simpa using hwildcard)]

theorem separator_not_mem {shape : Pattern} {part : Bytes} (h : part ∈ shape.map Segment.key) :
    separator ∉ part := by
  obtain ⟨source, -, rfl⟩ := List.mem_map.1 h
  exact fun hmem => (ne_of_mem_segmentKey hmem).1 rfl

theorem key_eq_nil_iff {shape : Pattern} (h : Solid shape) : key shape = [] ↔ shape = [] := by
  constructor
  · intro hkey
    cases shape with
    | nil => rfl
    | cons part rest =>
        have hpart := segmentKey_ne_nil (h part List.mem_cons_self)
        cases rest with
        | nil => simp [key, List.intercalate, hpart] at hkey
        | cons next more => simp [key, List.intercalate, hpart] at hkey
  · rintro rfl
    rfl

theorem sameShape_iff_keys {p q : Pattern} :
    SameShape p q ↔ p.map Segment.key = q.map Segment.key := by
  induction p generalizing q with
  | nil => cases q <;> simp [SameShape]
  | cons a rest ih =>
      cases q with
      | nil => simp [SameShape]
      | cons b others =>
          rw [SameShape, List.forall₂_cons, List.map_cons, List.map_cons, List.cons.injEq, ← ih]
          exact and_congr_left fun _ => ⟨segmentKey_congr, segmentKey_inj⟩

/-- Two patterns have the same key exactly when they have the same shape. -/
theorem key_eq_iff {p q : Pattern} (hp : Solid p) (hq : Solid q) : key p = key q ↔ SameShape p q := by
  rw [sameShape_iff_keys]
  constructor
  · intro hkey
    by_cases hnil : p = []
    · subst hnil
      rw [(key_eq_nil_iff hq).1 hkey.symm]
    · have hother : q ≠ [] := fun heq => hnil ((key_eq_nil_iff hp).1 (hkey.trans ((key_eq_nil_iff hq).2 heq)))
      have hparts := congrArg (List.splitOn separator) hkey
      rwa [key, key, List.splitOn_intercalate separator (fun _ => separator_not_mem) (by simpa using hnil),
        List.splitOn_intercalate separator (fun _ => separator_not_mem) (by simpa using hother)] at hparts
  · intro hsame
    rw [key, hsame, key]

theorem space_not_mem_key (shape : Pattern) : (0x20 : UInt8) ∉ key shape := by
  induction shape with
  | nil => simp [key]
  | cons part rest ih =>
      have hpart : (0x20 : UInt8) ∉ part.key := fun hmem => (ne_of_mem_segmentKey hmem).2 rfl
      cases rest with
      | nil => simpa [key] using hpart
      | cons next more =>
          rw [key, List.map_cons, List.map_cons, List.intercalate_cons_cons, ← List.map_cons, ← key]
          simp only [List.mem_append, List.mem_singleton, not_or]
          exact ⟨⟨hpart, by decide⟩, ih⟩

/-- What stands after the last space is found. -/
theorem append_space_inj {a b c d : Bytes} (hc : (0x20 : UInt8) ∉ c) (hd : (0x20 : UInt8) ∉ d)
    (h : a ++ 0x20 :: c = b ++ 0x20 :: d) : a = b ∧ c = d := by
  rcases List.append_eq_append_iff.1 h with ⟨more, hmore, hrest⟩ | ⟨more, hmore, hrest⟩
  · cases more with
    | nil => simp_all
    | cons x more =>
        simp only [List.cons_append, List.cons.injEq] at hrest
        exact absurd (hrest.2 ▸ List.mem_append_right _ List.mem_cons_self) hc
  · cases more with
    | nil => simp_all
    | cons x more =>
        simp only [List.cons_append, List.cons.injEq] at hrest
        exact absurd (hrest.2 ▸ List.mem_append_right _ List.mem_cons_self) hd

/-! ## Matches -/

section Matching

variable {lib : Library}

theorem accepts_of_matchFrom {shape : Pattern} {parts : List Bytes} {params found : Params}
    (hlen : shape.length = parts.length) (h : matchFrom lib shape parts params = some found) :
    List.Forall₂ (fun part text => part.accepts lib text = true) shape parts := by
  induction shape generalizing parts params with
  | nil =>
      rw [List.eq_nil_of_length_eq_zero hlen.symm]
      exact .nil
  | cons part rest ih =>
      cases parts with
      | nil => cases hlen
      | cons text others =>
          unfold matchFrom at h
          split_ifs at h with haccepts
          · exact .cons haccepts (ih (Nat.succ.inj hlen) h)
          · exact .cons haccepts (ih (Nat.succ.inj hlen) h)

theorem accepts_of_matchParts {shape : Pattern} {parts : List Bytes} {found : Params}
    (h : matchParts lib shape parts = some found) :
    List.Forall₂ (fun part text => part.accepts lib text = true) shape parts := by
  unfold matchParts at h
  split_ifs at h with hlen
  exact accepts_of_matchFrom (not_not.1 hlen) h

/-- Patterns of one rank that match the same path have the same shape. -/
theorem sameShape_of_rank {p q : Pattern} {parts : List Bytes}
    (hp : List.Forall₂ (fun part text => part.accepts lib text = true) p parts)
    (hq : List.Forall₂ (fun part text => part.accepts lib text = true) q parts)
    (hrank : rank p = rank q) : SameShape p q := by
  induction hp generalizing q with
  | nil => rw [List.forall₂_nil_right_iff.1 hq]; exact .nil
  | @cons a text rest parts ha _ ih =>
      obtain ⟨b, others, hb, hothers, rfl⟩ := List.forall₂_cons_right_iff.1 hq
      rw [rank, rank, List.map_cons, List.map_cons, List.cons.injEq] at hrank
      refine .cons ?_ (ih hothers hrank.2)
      have hflag : a.wildcard = b.wildcard := by
        have hfirst := hrank.1
        cases hwa : a.wildcard <;> cases hwb : b.wildcard <;>
          simp [hwa, hwb, wildcardRank, literalRank] at hfirst ⊢
      refine ⟨hflag, fun hliteral => ?_⟩
      have hother : b.wildcard = false := hflag ▸ hliteral
      simp only [Segment.accepts, hliteral, hother, Bool.false_eq_true, if_false, decide_eq_true_eq] at ha hb
      rw [ha, hb]

end Matching

end Gostman.Mock
