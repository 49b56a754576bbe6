import Gostman.Lib.Utf8
import Mathlib.Data.List.DropRight
/-!
# Texts in Go

The parts of the packages `strings` and `unicode` the modelled code calls.  Code that
takes texts apart has them as lists of characters.
-/

namespace Gostman.Go

def isSpace (c : Char) : Bool :=
  let n := c.toNat
  (0x9 ≤ n && n ≤ 0xD) || n == 0x20 || n == 0x85 || n == 0xA0 || n == 0x1680 ||
    (0x2000 ≤ n && n ≤ 0x200A) || n == 0x2028 || n == 0x2029 || n == 0x202F || n == 0x205F ||
    n == 0x3000

def trimSpace (text : String) : String :=
  String.ofList ((text.toList.dropWhile isSpace).rdropWhile isSpace)

def isControl (c : Char) : Bool :=
  c.toNat < 0x20 || (0x7F ≤ c.toNat && c.toNat < 0xA0)

def trimRight (isCut : Char → Bool) (text : List Char) : List Char :=
  text.rdropWhile isCut

def trim (isCut : Char → Bool) (text : List Char) : List Char :=
  (text.dropWhile isCut).rdropWhile isCut

def cutPrefix (lead text : List Char) : Option (List Char) :=
  if lead.isPrefixOf text then some (text.drop lead.length) else none

def cutSuffix (tail text : List Char) : Option (List Char) :=
  if tail.isSuffixOf text then some (text.take (text.length - tail.length)) else none

/-- `strings.Cut` at a character, where it is found. -/
def cutAt (separator : Char) : List Char → Option (List Char × List Char)
  | [] => none
  | c :: rest =>
      if c = separator then some ([], rest)
      else (cutAt separator rest).map fun (before, after) => (c :: before, after)

/-- `strings.Replace` of the first occurrence. -/
def replaceFirst (old new : List Char) : List Char → List Char
  | [] => if old = [] then new else []
  | c :: rest =>
      if old.isPrefixOf (c :: rest) then new ++ (c :: rest).drop old.length
      else c :: replaceFirst old new rest

/-- `strings.ReplaceAll` of CR LF by LF. -/
def normalizeNewlines : List Char → List Char
  | '\r' :: '\n' :: rest => '\n' :: normalizeNewlines rest
  | c :: rest => c :: normalizeNewlines rest
  | [] => []

theorem cutAt_append {separator : Char} {front : List Char} (h : separator ∉ front) (rest : List Char) :
    cutAt separator (front ++ separator :: rest) = some (front, rest) := by
  induction front with
  | nil => simp [cutAt]
  | cons c front ih =>
    rw [List.mem_cons, not_or] at h
    rw [List.cons_append, cutAt, if_neg (Ne.symm h.1), ih h.2]
    rfl

theorem cutAt_eq_some {separator : Char} {text front rest : List Char}
    (h : cutAt separator text = some (front, rest)) :
    text = front ++ separator :: rest ∧ separator ∉ front := by
  induction text generalizing front with
  | nil => cases h
  | cons c text ih =>
    rw [cutAt] at h
    split_ifs at h with hc
    · obtain ⟨rfl, rfl⟩ := Prod.mk.inj (Option.some.inj h)
      exact ⟨by rw [hc]; rfl, List.not_mem_nil⟩
    · obtain ⟨⟨front', rest'⟩, hcut, heq⟩ := Option.map_eq_some_iff.1 h
      obtain ⟨rfl, rfl⟩ := Prod.mk.inj heq
      obtain ⟨rfl, hmem⟩ := ih hcut
      refine ⟨rfl, ?_⟩
      rw [List.mem_cons, not_or]
      exact ⟨Ne.symm hc, hmem⟩

theorem cutAt_eq_none {separator : Char} {text : List Char} (h : separator ∉ text) :
    cutAt separator text = none := by
  induction text with
  | nil => rfl
  | cons c text ih =>
    rw [List.mem_cons, not_or] at h
    rw [cutAt, if_neg (Ne.symm h.1), ih h.2]
    rfl

theorem cutPrefix_append (lead rest : List Char) : cutPrefix lead (lead ++ rest) = some rest := by
  simp [cutPrefix]

theorem cutPrefix_eq_some {lead text rest : List Char} (h : cutPrefix lead text = some rest) : text = lead ++ rest := by
  unfold cutPrefix at h
  split_ifs at h with hlead
  obtain ⟨more, rfl⟩ := List.isPrefixOf_iff_prefix.1 hlead
  rw [List.drop_left] at h
  rw [Option.some.inj h]

theorem normalizeNewlines_of_not_mem {text : List Char} (h : '\r' ∉ text) :
    normalizeNewlines text = text := by
  fun_induction normalizeNewlines text with
  | case1 rest ih => exact absurd (List.mem_cons_self ..) h
  | case2 c rest _ ih => rw [ih fun hmem => h (List.mem_cons_of_mem _ hmem)]
  | case3 => rfl

theorem mem_normalizeNewlines {text : List Char} {c : Char} (h : c ∈ normalizeNewlines text) :
    c ∈ text := by
  fun_induction normalizeNewlines text with
  | case1 rest ih =>
    rcases List.mem_cons.1 h with rfl | hmem
    · simp
    · simp [ih hmem]
  | case2 d rest _ ih =>
    rcases List.mem_cons.1 h with rfl | hmem
    · simp
    · simp [ih hmem]
  | case3 => exact h

end Gostman.Go

/-!
# Byte strings of Go

What the readers of text files use of `strings` and `bufio`, on bytes.
-/

namespace Gostman.Go.Bytes

open Gostman.Lib

/-! ## White space -/

def spaceCodes : List Nat :=
  [0x9, 0xA, 0xB, 0xC, 0xD, 0x20, 0x85, 0xA0, 0x1680, 0x2000, 0x2001, 0x2002, 0x2003, 0x2004, 0x2005, 0x2006, 0x2007,
    0x2008, 0x2009, 0x200A, 0x2028, 0x2029, 0x202F, 0x205F, 0x3000]

def spaceTexts : List Bytes :=
  spaceCodes.map fun code => String.utf8EncodeChar (Char.ofNat code)

def trimLeft : Nat → Bytes → Bytes
  | 0, text => text
  | steps + 1, text =>
      match spaceTexts.find? (·.isPrefixOf text) with
      | none => text
      | some space => trimLeft steps (text.drop space.length)

def trimRight : Nat → Bytes → Bytes
  | 0, text => text
  | steps + 1, text =>
      match spaceTexts.find? (·.isSuffixOf text) with
      | none => text
      | some space => trimRight steps (text.take (text.length - space.length))

def trimSpace (text : Bytes) : Bytes :=
  trimRight text.length (trimLeft text.length text)

/-- White space in front or at the end is a whole character of it. -/
theorem exists_of_mem_spaceTexts {space : Bytes} (h : space ∈ spaceTexts) :
    ∃ c, isSpace c = true ∧ space = String.utf8EncodeChar c := by
  have hall : ∀ code ∈ spaceCodes, isSpace (Char.ofNat code) = true := by decide
  obtain ⟨code, hcode, rfl⟩ := List.mem_map.1 h
  exact ⟨Char.ofNat code, hall code hcode, rfl⟩

/-- Only the first byte of a character can be the first byte of one. -/
theorem eq_of_encodeChar_suffix {c d : Char} {text : Bytes} (hc : String.utf8EncodeChar c <:+ text)
    (hd : String.utf8EncodeChar d <:+ text) : c = d := by
  have hwithin {c d : Char} (h : String.utf8EncodeChar c <:+ String.utf8EncodeChar d) : c = d := by
    obtain ⟨front, hfront⟩ := h
    have hpos : 0 < (String.utf8EncodeChar c).length := List.length_pos_iff.2 (encodeChar_ne_nil c)
    have hplace : front.length < (String.utf8EncodeChar d).length := by
      rw [← hfront, List.length_append]
      omega
    have hfirst : ((String.utf8EncodeChar c)[0]).IsUTF8FirstByte := UInt8.isUTF8FirstByte_getElem_utf8EncodeChar.2 rfl
    have hbyte : (String.utf8EncodeChar d)[front.length] = (String.utf8EncodeChar c)[0] := by
      simp only [← hfront]
      rw [List.getElem_append_right (Nat.le_refl _)]
      simp
    rw [← hbyte] at hfirst
    have hzero : front.length = 0 := UInt8.isUTF8FirstByte_getElem_utf8EncodeChar.1 hfirst
    rw [List.length_eq_zero_iff.1 hzero, List.nil_append] at hfront
    have hsame : String.utf8EncodeChar c ++ [] = String.utf8EncodeChar d ++ [] := by rw [hfront]
    exact (encodeChar_append_inj hsame).1
  rcases List.suffix_or_suffix_of_suffix hc hd with h | h
  · exact hwithin h
  · exact (hwithin h).symm

theorem trimLeft_of_begun {text : Bytes} {c : Char} (hc : isSpace c = false) (h : String.utf8EncodeChar c <+: text)
    (steps : Nat) : trimLeft steps text = text := by
  have hnone : spaceTexts.find? (·.isPrefixOf text) = none := by
    rw [List.find?_eq_none]
    intro space hspace hstarts
    obtain ⟨d, hd, rfl⟩ := exists_of_mem_spaceTexts hspace
    obtain ⟨rest, hrest⟩ := List.isPrefixOf_iff_prefix.1 hstarts
    obtain ⟨rest', hrest'⟩ := h
    obtain ⟨rfl, -⟩ := encodeChar_append_inj (hrest.trans hrest'.symm)
    rw [hc] at hd
    cases hd
  cases steps with
  | zero => rfl
  | succ steps => rw [trimLeft, hnone]

theorem trimRight_of_ended {text : Bytes} {c : Char} (hc : isSpace c = false) (h : String.utf8EncodeChar c <:+ text)
    (steps : Nat) : trimRight steps text = text := by
  have hnone : spaceTexts.find? (·.isSuffixOf text) = none := by
    rw [List.find?_eq_none]
    intro space hspace hends
    obtain ⟨d, hd, rfl⟩ := exists_of_mem_spaceTexts hspace
    rw [eq_of_encodeChar_suffix (List.isSuffixOf_iff_suffix.1 hends) h, hc] at hd
    cases hd
  cases steps with
  | zero => rfl
  | succ steps => rw [trimRight, hnone]

/-- A text between characters that are not white space is left as it is. -/
theorem trimSpace_eq {text : Bytes} {first last : Char} (hfirst : isSpace first = false)
    (hbegun : String.utf8EncodeChar first <+: text) (hlast : isSpace last = false)
    (hended : String.utf8EncodeChar last <:+ text) : trimSpace text = text := by
  rw [trimSpace, trimLeft_of_begun hfirst hbegun, trimRight_of_ended hlast hended]

/-! ## Parts of a text -/

def trimPrefix (lead text : Bytes) : Bytes :=
  if lead.isPrefixOf text then text.drop lead.length else text

def cut (mark : UInt8) (text : Bytes) : Option (Bytes × Bytes) :=
  if mark ∈ text then some (text.takeWhile (· ≠ mark), (text.dropWhile (· ≠ mark)).drop 1) else none

theorem cut_append {mark : UInt8} {front : Bytes} (h : mark ∉ front) (rest : Bytes) :
    cut mark (front ++ mark :: rest) = some (front, rest) := by
  have hne : ∀ b ∈ front, decide (b ≠ mark) = true := by
    intro b hb
    apply decide_eq_true
    intro heq
    exact h (heq ▸ hb)
  rw [cut, if_pos (List.mem_append_right _ List.mem_cons_self), List.takeWhile_append_of_pos hne,
    List.dropWhile_append_of_pos hne, List.takeWhile_cons, List.dropWhile_cons, if_neg (by simp), if_neg (by simp),
    List.append_nil]
  rfl

/-! ## Lines -/

def lineFeed : UInt8 := 0x0A

def maxScanTokenSize : Nat := 64 * 1024

def dropCR (line : Bytes) : Bytes :=
  if line.getLast? = some 0x0D then line.dropLast else line

def linesOf (content : Bytes) : List Bytes :=
  let parts := content.splitOn lineFeed
  if parts.getLast? = some [] then parts.dropLast else parts

/-- What a `bufio.Scanner` gives: the lines up to the first that does not fit into
its buffer together with a line feed. -/
def scanLines (content : Bytes) : List Bytes :=
  ((linesOf content).takeWhile fun line => line.length < maxScanTokenSize).map dropCR

theorem linesOf_flatMap {lines : List Bytes} (h : ∀ line ∈ lines, lineFeed ∉ line) :
    linesOf (lines.flatMap (· ++ [lineFeed])) = lines := by
  have hparts : (lines.flatMap (· ++ [lineFeed])).splitOn lineFeed = lines ++ [[]] := by
    induction lines with
    | nil => rfl
    | cons line rest ih =>
      rw [List.flatMap_cons, List.append_assoc, List.singleton_append,
        List.splitOn_append_cons_self_of_not_mem (h line List.mem_cons_self),
        ih fun other hother => h other (List.mem_cons_of_mem _ hother)]
      rfl
  rw [linesOf, hparts]
  simp

end Gostman.Go.Bytes
