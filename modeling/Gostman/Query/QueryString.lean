import Gostman.Lib.Leftmost
import Gostman.Lib.UriComponent
import Mathlib.Data.List.TakeWhile
import Mathlib.Data.Nat.Basic
/-!
# Query parameter rows (`lib/queryString.js`, `lib/rows.js`)

Texts are lists of UTF-16 units.  The rows that are switched off go into a side
list, given as the array that its JSON text holds.
-/

namespace Gostman.Query

open Gostman.Lib Gostman.Lib.UriComponent

abbrev Text := List UInt16

def leftBrace : UInt16 := 0x7B

def rightBrace : UInt16 := 0x7D

def blank : UInt16 := 0x20

def plus : UInt16 := 0x2B

def queryMark : UInt16 := 0x3F

def fragmentMark : UInt16 := 0x23

def pairSeparator : UInt16 := 0x26

def valueSeparator : UInt16 := 0x3D

/-! ## Placeholders -/

def closed (name : Text) : Text :=
  leftBrace :: leftBrace :: (name ++ [rightBrace, rightBrace])

def placeholder : Text → Option Text
  | first :: second :: rest =>
      let name := rest.takeWhile (· ≠ rightBrace)
      if first = leftBrace ∧ second = leftBrace ∧ name ≠ [] ∧
          [rightBrace, rightBrace] <+: rest.dropWhile (· ≠ rightBrace) then some (closed name)
      else none
  | _ => none

theorem takeWhile_name {name : Text} (h : rightBrace ∉ name) (rest : Text) :
    (name ++ rightBrace :: rest).takeWhile (· ≠ rightBrace) = name ∧
      (name ++ rightBrace :: rest).dropWhile (· ≠ rightBrace) = rightBrace :: rest := by
  have hall : ∀ u ∈ name, decide (u ≠ rightBrace) = true := by
    intro u hu
    rw [decide_eq_true_eq]
    intro heq
    exact h (heq ▸ hu)
  constructor
  · rw [List.takeWhile_append_of_pos hall, List.takeWhile_cons_of_neg (by decide), List.append_nil]
  · rw [List.dropWhile_append_of_pos hall, List.dropWhile_cons_of_neg (by decide)]

theorem placeholder_eq_some {text items : Text} :
    placeholder text = some items ↔
      ∃ name rest, name ≠ [] ∧ rightBrace ∉ name ∧ items = closed name ∧ text = closed name ++ rest := by
  constructor
  · intro h
    match text, h with
    | first :: second :: rest, h =>
      rw [placeholder] at h
      split_ifs at h with hplaceholder
      obtain ⟨hfirst, hsecond, hname, behind, hbehind⟩ := hplaceholder
      have hrest := List.takeWhile_append_dropWhile (p := (· ≠ rightBrace)) (l := rest)
      refine ⟨_, behind, hname, ?_, (Option.some.inj h).symm, ?_⟩
      · intro hmem
        exact absurd (List.mem_takeWhile_imp hmem) (by decide)
      · rw [hfirst, hsecond]
        unfold closed
        rw [List.cons_append, List.cons_append, List.append_assoc, hbehind, hrest]
  · intro h
    obtain ⟨name, rest, hname, hmem, rfl, rfl⟩ := h
    obtain ⟨htake, hdrop⟩ := takeWhile_name hmem (rightBrace :: rest)
    have hrest : name ++ [rightBrace, rightBrace] ++ rest = name ++ rightBrace :: rightBrace :: rest := by
      rw [List.append_assoc]
      rfl
    unfold closed
    rw [List.cons_append, List.cons_append, hrest, placeholder]
    rw [htake, hdrop, if_pos ⟨rfl, rfl, hname, rest, rfl⟩]
    rfl

def placeholders : Pattern UInt16 where
  find := placeholder
  find_ne_nil h := by
    obtain ⟨name, rest, -, -, rfl, -⟩ := placeholder_eq_some.1 h
    exact List.cons_ne_nil _ _
  find_prefix h := by
    obtain ⟨name, rest, -, -, rfl, rfl⟩ := placeholder_eq_some.1 h
    exact List.prefix_append _ _
  find_append h more := by
    obtain ⟨name, rest, hname, hmem, rfl, rfl⟩ := placeholder_eq_some.1 h
    exact placeholder_eq_some.2 ⟨name, rest ++ more, hname, hmem, rfl, List.append_assoc _ _ _⟩
  find_self h := by
    obtain ⟨name, rest, hname, hmem, rfl, -⟩ := placeholder_eq_some.1 h
    exact placeholder_eq_some.2 ⟨name, [], hname, hmem, rfl, (List.append_nil _).symm⟩

def mapOutsidePlaceholders (text : Text) (transform : Text → Text) : Text :=
  placeholders.mapOutside transform text

/-- `decodePart`: a text that cannot be decoded stays as it is. -/
def decodePart (text : Text) : Text :=
  (decodeURIComponent (text.map fun u => if u = plus then blank else u)).getD text

def encodePart (text : Text) : Text :=
  (encodeURIComponent text).getD text

def decode (text : Text) : Text :=
  mapOutsidePlaceholders text decodePart

def encode (text : Text) : Text :=
  mapOutsidePlaceholders text encodePart

def masked (text : Text) : Text :=
  Token.masks blank (placeholders.tokens text)

def indexOutsidePlaceholders (text : Text) (mark : UInt16) : Option Nat :=
  (masked text).idxOf? mark

/-! ## The parts of a URL -/

structure UrlParts where
  base : Text
  query : Text
  fragment : Text
deriving DecidableEq, Repr

def splitUrl (url : Text) : UrlParts :=
  let fragmentStart := indexOutsidePlaceholders url fragmentMark
  let beforeFragment := fragmentStart.elim url url.take
  let fragment := fragmentStart.elim [] url.drop
  match indexOutsidePlaceholders beforeFragment queryMark with
  | none => ⟨beforeFragment, [], fragment⟩
  | some queryStart => ⟨beforeFragment.take queryStart, beforeFragment.drop (queryStart + 1), fragment⟩

/-! ## Rows -/

/-- A row; `file` says that its `type` is that of a file. -/
structure Row where
  key : Text
  value : Text
  enabled : Bool
  file : Bool
deriving DecidableEq, Repr

/-- An object of the side list; a property can be missing. -/
structure StoredRow where
  key : Text
  value : Text
  enabled : Option Bool
  file : Bool
  position : Option Int
deriving DecidableEq, Repr

def isBlankRow (row : Row) : Bool :=
  row.key = [] && row.value = [] && !row.file

def StoredRow.toRow (stored : StoredRow) : Row :=
  ⟨stored.key, stored.value, stored.enabled ≠ some false, stored.file⟩

def parsePair (pair : Text) : Row :=
  match pair.idxOf? valueSeparator with
  | none => ⟨decode pair, decode [], true, false⟩
  | some separator => ⟨decode (pair.take separator), decode (pair.drop (separator + 1)), true, false⟩

def parseUrlParams (url : Text) : List Row :=
  (((splitUrl url).query.splitOn pairSeparator).filter (· ≠ [])).map parsePair

def pairText (row : Row) : Text :=
  encode row.key ++ valueSeparator :: encode row.value

def withUrlParams (url : Text) (rows : List Row) : Text :=
  let query := List.intercalate [pairSeparator] ((rows.filter fun row => !isBlankRow row).map pairText)
  (splitUrl url).base ++ (if query = [] then [] else queryMark :: query) ++ (splitUrl url).fragment

def byPosition (first second : StoredRow) : Bool :=
  match first.position, second.position with
  | some p, some q => p ≤ q
  | _, _ => true

def spliceIndex (length : Nat) : Option Int → Nat
  | none => length
  | some position =>
      let index := min position length
      if index < 0 then (length + index).toNat else index.toNat

def insertRow (rows : List Row) (stored : StoredRow) : List Row :=
  rows.insertIdx (spliceIndex rows.length stored.position) stored.toRow

def readParamRows (url : Text) (queryParams : List StoredRow) : List Row :=
  ((queryParams.filter fun stored => !stored.toRow.enabled).mergeSort byPosition).foldl insertRow (parseUrlParams url)

def storedAt (row : Row) (position : Nat) : StoredRow :=
  ⟨row.key, row.value, some row.enabled, row.file, some position⟩

structure Written where
  url : Text
  queryParams : List StoredRow
deriving DecidableEq, Repr

def writeParamRows (url : Text) (rows : List Row) : Written where
  url := withUrlParams url (rows.filter fun row => row.enabled)
  queryParams := (rows.zipIdx.filter fun row => !row.1.enabled).map fun row => storedAt row.1 row.2

end Gostman.Query
