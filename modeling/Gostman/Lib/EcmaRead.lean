import Gostman.Lib.EcmaJson
/-!
# What `JSON.parse` reads

The steps of a reading, where it ends, that enough fuel is enough, and that it
does not depend on what becomes of the numbers.
-/

namespace Gostman.Lib.EcmaJson

/-! ## Steps -/

section Steps

variable {α : Type} {item : Units → Option (α × Units)} {close : UInt16}

theorem exists_blanks (text : Units) : ∃ blanks, text = blanks ++ skip text ∧ ∀ u ∈ blanks, isSpace u = true := by
  refine ⟨text.takeWhile isSpace, List.takeWhile_append_dropWhile.symm, ?_⟩
  intro u hu
  exact List.mem_takeWhile_imp hu

theorem skip_append {blanks : Units} (h : ∀ u ∈ blanks, isSpace u = true) (rest : Units) : skip (blanks ++ rest) = skip rest :=
  List.dropWhile_append_of_pos h

theorem skip_of_head {u : UInt16} (h : isSpace u = false) (rest : Units) : skip (u :: rest) = u :: rest := by
  apply List.dropWhile_cons_of_neg
  rw [h]
  exact Bool.false_ne_true

theorem readItems_more {fuel : Nat} {text rest more left : Units} {value : α} {values : List α}
    (hitem : item text = some (value, rest)) (hcomma : skip rest = comma :: more)
    (hmore : readItems item close fuel (skip more) = some (values, left)) :
    readItems item close (fuel + 1) text = some (value :: values, left) := by
  rw [readItems, hitem]
  dsimp only [Option.bind_eq_bind, Option.bind_some]
  rw [hcomma]
  dsimp only
  rw [if_pos rfl, hmore]
  rfl

theorem readItems_last {text rest more : Units} {value : α} (fuel : Nat) (hclose : close ≠ comma)
    (hitem : item text = some (value, rest)) (hend : skip rest = close :: more) :
    readItems item close (fuel + 1) text = some ([value], more) := by
  rw [readItems, hitem]
  dsimp only [Option.bind_eq_bind, Option.bind_some]
  rw [hend]
  dsimp only
  rw [if_neg hclose, if_pos rfl]

/-- A list of items is one item and more, or the last. -/
theorem exists_of_readItems {fuel : Nat} {text left : Units} {values : List α}
    (h : readItems item close (fuel + 1) text = some (values, left)) :
    ∃ value rest, item text = some (value, rest) ∧
      ((∃ more others, skip rest = comma :: more ∧ readItems item close fuel (skip more) = some (others, left) ∧
        values = value :: others) ∨ (skip rest = close :: left ∧ close ≠ comma ∧ values = [value])) := by
  rw [readItems] at h
  obtain ⟨⟨value, rest⟩, hitem, hrest⟩ := Option.bind_eq_some_iff.1 h
  refine ⟨value, rest, hitem, ?_⟩
  cases hskip : skip rest with
  | nil =>
    dsimp only at hrest
    rw [hskip] at hrest
    cases hrest
  | cons u more =>
    dsimp only at hrest
    rw [hskip] at hrest
    dsimp only at hrest
    split_ifs at hrest with hcomma hclose
    · obtain ⟨⟨others, after⟩, hothers, hvalues⟩ := Option.bind_eq_some_iff.1 hrest
      cases hvalues
      exact .inl ⟨more, others, by rw [hcomma], hothers, rfl⟩
    · cases hrest
      exact .inr ⟨by rw [hclose], hclose ▸ hcomma, rfl⟩

theorem readList_empty {text rest : Units} (h : skip text = close :: rest) : readList item close text = some ([], rest) := by
  unfold readList
  rw [h]
  dsimp only
  rw [if_pos rfl]

theorem readList_items {text rest left : Units} {u : UInt16} {values : List α} (h : skip text = u :: rest) (hu : u ≠ close)
    (hitems : readItems item close (rest.length + 1) (u :: rest) = some (values, left)) :
    readList item close text = some (values, left) := by
  unfold readList
  rw [h]
  dsimp only
  rw [if_neg hu, hitems]

theorem exists_of_readList {text left : Units} {values : List α} (h : readList item close text = some (values, left)) :
    (skip text = close :: left ∧ values = []) ∨ ∃ u rest, skip text = u :: rest ∧ u ≠ close ∧
      readItems item close (rest.length + 1) (u :: rest) = some (values, left) := by
  unfold readList at h
  cases hskip : skip text with
  | nil =>
    rw [hskip] at h
    cases h
  | cons u rest =>
    rw [hskip] at h
    dsimp only at h
    split_ifs at h with hclose
    · cases h
      exact .inl ⟨by rw [hclose], rfl⟩
    · exact .inr ⟨u, rest, rfl, hclose, h⟩

theorem readMember_of {text rest after left key : Units} {value : α} (hkey : readString text = some (key, rest))
    (hcolon : skip rest = colon :: after) (hvalue : item (skip after) = some (value, left)) :
    readMember item (quotationMark :: text) = some ((key, value), left) := by
  rw [readMember, if_pos rfl, hkey]
  dsimp only [Option.bind_eq_bind, Option.bind_some]
  rw [hcolon]
  dsimp only
  rw [if_pos rfl, hvalue]
  rfl

theorem exists_of_readMember {text left : Units} {member : Units × α} (h : readMember item text = some (member, left)) :
    ∃ behind rest after, text = quotationMark :: behind ∧ readString behind = some (member.1, rest) ∧
      skip rest = colon :: after ∧ item (skip after) = some (member.2, left) := by
  cases text with
  | nil => cases h
  | cons u behind =>
    rw [readMember] at h
    split_ifs at h with hquote
    obtain ⟨⟨key, rest⟩, hkey, hrest⟩ := Option.bind_eq_some_iff.1 h
    cases hskip : skip rest with
    | nil =>
      dsimp only at hrest
      rw [hskip] at hrest
      cases hrest
    | cons v after =>
      dsimp only at hrest
      rw [hskip] at hrest
      dsimp only at hrest
      split_ifs at hrest with hcolon
      obtain ⟨⟨value, more⟩, hvalue, hmember⟩ := Option.bind_eq_some_iff.1 hrest
      cases hmember
      exact ⟨behind, rest, after, by rw [hquote], hkey, by rw [hskip, hcolon], hvalue⟩

end Steps

/-! ## Where a reading ends -/

/-- A text ends, by a unit that is no blank, in front of what is left. -/
def Ends (text left : Units) : Prop :=
  ∃ first last, text = first ++ last :: left ∧ isSpace last = false

theorem ends_here {u : UInt16} (h : isSpace u = false) (left : Units) : Ends (u :: left) left :=
  ⟨[], u, rfl, h⟩

theorem Ends.append {text left : Units} (h : Ends text left) (front : Units) : Ends (front ++ text) left := by
  obtain ⟨first, last, rfl, hlast⟩ := h
  exact ⟨front ++ first, last, by rw [List.append_assoc], hlast⟩

theorem Ends.cons {text left : Units} (h : Ends text left) (u : UInt16) : Ends (u :: text) left :=
  h.append [u]

theorem Ends.of_skip {text left : Units} (h : Ends (skip text) left) : Ends text left := by
  obtain ⟨blanks, htext, -⟩ := exists_blanks text
  rw [htext]
  exact h.append blanks

theorem Ends.trans {text middle left : Units} (h : Ends text middle) (hmiddle : Ends middle left) : Ends text left := by
  obtain ⟨first, last, rfl, -⟩ := h
  exact (hmiddle.cons last).append first

theorem Ends.length_lt {text left : Units} (h : Ends text left) : left.length < text.length := by
  obtain ⟨first, last, rfl, -⟩ := h
  rw [List.length_append, List.length_cons]
  omega

theorem length_skip_le (text : Units) : (skip text).length ≤ text.length :=
  (List.dropWhile_suffix isSpace).length_le

def Consumes {α : Type} (item : Units → Option (α × Units)) : Prop :=
  ∀ text value left, item text = some (value, left) → Ends text left

theorem consumes_readString : Consumes readString := by
  intro text
  have hmap : ∀ {value : Units × Units} {unit : UInt16} {read : Option (Units × Units)},
      (read.bind fun part => some (unit :: part.1, part.2)) = some value → ∃ units, read = some (units, value.2) := by
    intro value unit read h
    obtain ⟨⟨units, left⟩, hread, hvalue⟩ := Option.bind_eq_some_iff.1 h
    cases hvalue
    exact ⟨units, hread⟩
  fun_induction readString text with
  | case1 => exact fun value left h => by cases h
  | case2 rest =>
    intro value left h
    cases h
    exact ends_here (by decide) rest
  | case3 a b c d more hquote ih =>
    intro value left h
    obtain ⟨unit, -, hrest⟩ := Option.bind_eq_some_iff.1 h
    obtain ⟨units, hread⟩ := hmap hrest
    exact ((ih units left hread).append [backslash, 0x75, a, b, c, d])
  | case4 e a b c d more hquote he ih =>
    intro value left h
    obtain ⟨unit, -, hrest⟩ := Option.bind_eq_some_iff.1 h
    obtain ⟨units, hread⟩ := hmap hrest
    exact ((ih units left hread).append [backslash, e])
  | case5 e more hquote hshort ih =>
    intro value left h
    obtain ⟨unit, -, hrest⟩ := Option.bind_eq_some_iff.1 h
    obtain ⟨units, hread⟩ := hmap hrest
    exact ((ih units left hread).append [backslash, e])
  | case6 => exact fun value left h => by cases h
  | case7 => exact fun value left h => by cases h
  | case8 u rest hquote hslash hlow ih =>
    intro value left h
    obtain ⟨⟨units, after⟩, hread, hvalue⟩ := Option.map_eq_some_iff.1 h
    cases hvalue
    exact (ih units left hread).cons u

section Consumes

variable {α : Type} {item : Units → Option (α × Units)} {close : UInt16}

theorem consumes_readItems (h : Consumes item) (hclose : isSpace close = false) (fuel : Nat) :
    Consumes (readItems item close fuel) := by
  induction fuel with
  | zero => exact fun text values left hread => by cases hread
  | succ fuel ih =>
    intro text values left hread
    obtain ⟨value, rest, hitem, hmore⟩ := exists_of_readItems hread
    apply (h text value rest hitem).trans
    rcases hmore with ⟨more, others, hcomma, hothers, -⟩ | ⟨hend, -, -⟩
    · apply Ends.of_skip
      rw [hcomma]
      exact (ih (skip more) others left hothers).of_skip.cons comma
    · apply Ends.of_skip
      rw [hend]
      exact ends_here hclose left

theorem consumes_readList (h : Consumes item) (hclose : isSpace close = false) : Consumes (readList item close) := by
  intro text values left hread
  apply Ends.of_skip
  rcases exists_of_readList hread with ⟨hskip, -⟩ | ⟨u, rest, hskip, -, hitems⟩
  · rw [hskip]
    exact ends_here hclose left
  · rw [hskip]
    exact consumes_readItems h hclose _ _ values left hitems

theorem consumes_readMember (h : Consumes item) : Consumes (readMember item) := by
  intro text member left hread
  obtain ⟨behind, rest, after, rfl, hkey, hcolon, hvalue⟩ := exists_of_readMember hread
  apply Ends.cons
  apply (consumes_readString behind member.1 rest hkey).trans
  apply Ends.of_skip
  rw [hcolon]
  exact ((h (skip after) member.2 left hvalue).of_skip).cons colon

end Consumes

/-- A value begins with a unit that is none of those between values, and is not
empty. -/
theorem exists_of_isNumber {digits : Units} (h : isNumber digits = true) : ∃ first rest, digits = first :: rest := by
  cases digits with
  | nil => cases h
  | cons first rest => exact ⟨first, rest, rfl⟩

theorem isSpace_of_isNumberUnit {u : UInt16} (h : isNumberUnit u = true) : isSpace u = false := by
  unfold isNumberUnit isDigit at h
  unfold isSpace
  simp only [Bool.or_eq_true, Bool.and_eq_true, decide_eq_true_eq] at h
  simp only [Bool.or_eq_false_iff, decide_eq_false_iff_not]
  refine ⟨⟨⟨?_, ?_⟩, ?_⟩, ?_⟩
  all_goals
    rintro rfl
    revert h
    decide

section Value

variable {ν : Type} {number : Units → ν}

/-- The kinds of values, by the unit they begin with. -/
theorem exists_of_readValue {fuel : Nat} {text left : Units} {value : Value ν}
    (h : readValue number (fuel + 1) text = some (value, left)) :
    ∃ u rest, text = u :: rest ∧
      ((u = openBrace ∧ ∃ members, readList (readMember (readValue number fuel)) closeBrace rest = some (members, left) ∧
          value = .obj (ofMembers members)) ∨
        (u = openBracket ∧ ∃ items, readList (readValue number fuel) closeBracket rest = some (items, left) ∧ value = .arr items) ∨
        (u = quotationMark ∧ ∃ units, readString rest = some (units, left) ∧ value = .str units) ∨
        (u = 0x74 ∧ text = ascii "true" ++ left ∧ value = .bool true) ∨
        (u = 0x66 ∧ text = ascii "false" ++ left ∧ value = .bool false) ∨
        (u = 0x6E ∧ text = ascii "null" ++ left ∧ value = .null) ∨
        (text.dropWhile isNumberUnit = left ∧ isNumber (text.takeWhile isNumberUnit) = true ∧
          value = .num (number (text.takeWhile isNumberUnit)))) := by
  have hword : ∀ {word : Units} {found : Value ν} {whole : Units}, readWord word found whole = some (value, left) →
      whole = word ++ left ∧ value = found := by
    intro word found whole hread
    unfold readWord at hread
    split_ifs at hread with hstarts
    obtain ⟨behind, rfl⟩ := hstarts
    rw [List.drop_left] at hread
    cases hread
    exact ⟨rfl, rfl⟩
  cases text with
  | nil => cases h
  | cons u rest =>
    refine ⟨u, rest, rfl, ?_⟩
    rw [readValue] at h
    dsimp only at h
    split_ifs at h with hbrace hbracket hquote htrue hfalse hnull hnumber
    · obtain ⟨⟨members, behind⟩, hread, hvalue⟩ := Option.map_eq_some_iff.1 h
      cases hvalue
      exact .inl ⟨hbrace, members, hread, rfl⟩
    · obtain ⟨⟨items, behind⟩, hread, hvalue⟩ := Option.map_eq_some_iff.1 h
      cases hvalue
      exact .inr (.inl ⟨hbracket, items, hread, rfl⟩)
    · obtain ⟨⟨units, behind⟩, hread, hvalue⟩ := Option.map_eq_some_iff.1 h
      cases hvalue
      exact .inr (.inr (.inl ⟨hquote, units, hread, rfl⟩))
    · exact .inr (.inr (.inr (.inl ⟨htrue, hword h⟩)))
    · exact .inr (.inr (.inr (.inr (.inl ⟨hfalse, hword h⟩))))
    · exact .inr (.inr (.inr (.inr (.inr (.inl ⟨hnull, hword h⟩)))))
    · cases h
      exact .inr (.inr (.inr (.inr (.inr (.inr ⟨rfl, hnumber, rfl⟩)))))

theorem consumes_readValue (fuel : Nat) : Consumes (readValue number fuel) := by
  induction fuel with
  | zero => exact fun text value left h => by cases h
  | succ fuel ih =>
    intro text value left h
    obtain ⟨u, rest, htext, hkind⟩ := exists_of_readValue h
    rcases hkind with ⟨-, members, hread, -⟩ | ⟨-, items, hread, -⟩ | ⟨-, units, hread, -⟩ | ⟨-, heq, -⟩ | ⟨-, heq, -⟩ |
      ⟨-, heq, -⟩ | ⟨hleft, hnumber, -⟩
    · rw [htext]
      exact (consumes_readList (consumes_readMember ih) (by decide) rest members left hread).cons u
    · rw [htext]
      exact (consumes_readList ih (by decide) rest items left hread).cons u
    · rw [htext]
      exact (consumes_readString rest units left hread).cons u
    · rw [heq]
      exact (ends_here (by decide) left).append (ascii "tru")
    · rw [heq]
      exact (ends_here (by decide) left).append (ascii "fals")
    · rw [heq]
      exact (ends_here (by decide) left).append (ascii "nul")
    · have hsplit := List.takeWhile_append_dropWhile (p := isNumberUnit) (l := text)
      obtain ⟨first, digits, hdigits⟩ := exists_of_isNumber hnumber
      obtain ⟨front, last, hlast⟩ : ∃ front last, text.takeWhile isNumberUnit = front ++ [last] := by
        rw [hdigits]
        exact ⟨_, _, (List.dropLast_append_getLast (List.cons_ne_nil first digits)).symm⟩
      have hunit : isNumberUnit last = true := by
        apply List.mem_takeWhile_imp (l := text)
        rw [hlast]
        exact List.mem_append_right _ (List.mem_singleton_self last)
      rw [← hsplit, hleft, hlast, List.append_assoc, List.singleton_append]
      exact (ends_here (isSpace_of_isNumberUnit hunit) left).append front

/-- A value begins with no blank and no closing bracket. -/
theorem head_of_readValue {fuel : Nat} {text left : Units} {value : Value ν} (h : readValue number fuel text = some (value, left)) :
    ∃ u rest, text = u :: rest ∧ isSpace u = false ∧ u ≠ closeBracket := by
  cases fuel with
  | zero => cases h
  | succ fuel =>
    obtain ⟨u, rest, htext, hkind⟩ := exists_of_readValue h
    refine ⟨u, rest, htext, ?_⟩
    rcases hkind with ⟨rfl, -⟩ | ⟨rfl, -⟩ | ⟨rfl, -⟩ | ⟨rfl, -⟩ | ⟨rfl, -⟩ | ⟨rfl, -⟩ | ⟨-, hnumber, -⟩
    · decide
    · decide
    · decide
    · decide
    · decide
    · decide
    · obtain ⟨first, digits, hdigits⟩ := exists_of_isNumber hnumber
      have hunit : isNumberUnit u = true := by
        by_contra hnot
        rw [htext, List.takeWhile_cons_of_neg hnot] at hdigits
        cases hdigits
      refine ⟨isSpace_of_isNumberUnit hunit, ?_⟩
      rintro rfl
      exact absurd hunit (by decide)

theorem readValue_brace (number : Units → ν) (fuel : Nat) (rest : Units) :
    readValue number (fuel + 1) (openBrace :: rest) =
      (readList (readMember (readValue number fuel)) closeBrace rest).map
        fun (members, left) => (.obj (ofMembers members), left) := by
  rw [readValue, if_pos rfl]

theorem readValue_bracket (number : Units → ν) (fuel : Nat) (rest : Units) :
    readValue number (fuel + 1) (openBracket :: rest) =
      (readList (readValue number fuel) closeBracket rest).map fun (items, left) => (.arr items, left) := by
  rw [readValue, if_neg (by decide), if_pos rfl]

theorem readValue_quote (number : Units → ν) (fuel : Nat) (rest : Units) :
    readValue number (fuel + 1) (quotationMark :: rest) = (readString rest).map fun (units, left) => (.str units, left) := by
  rw [readValue, if_neg (by decide), if_neg (by decide), if_pos rfl]

/-- A value that is no list is read the same with any fuel. -/
theorem readValue_plain {u : UInt16} (hbrace : u ≠ openBrace) (hbracket : u ≠ openBracket) (fuel other : Nat) (rest : Units) :
    readValue number (fuel + 1) (u :: rest) = readValue number (other + 1) (u :: rest) := by
  rw [readValue, readValue, if_neg hbrace, if_neg hbracket, if_neg hbrace, if_neg hbracket]

end Value

/-! ## Enough fuel -/

section Fuel

variable {α : Type} {item item' : Units → Option (α × Units)} {close : UInt16}

theorem readItems_congr (hconsumes : Consumes item) {fuel : Nat} {text : Units} {result : List α × Units}
    (h : ∀ inner found, inner.length ≤ text.length → item inner = some found → item' inner = some found)
    (hread : readItems item close fuel text = some result) : readItems item' close fuel text = some result := by
  induction fuel generalizing text result with
  | zero => cases hread
  | succ fuel ih =>
    obtain ⟨values, left⟩ := result
    obtain ⟨value, rest, hitem, hmore⟩ := exists_of_readItems hread
    have hitem' := h text _ (Nat.le_refl _) hitem
    have hlt := (hconsumes text value rest hitem).length_lt
    have hrest := length_skip_le rest
    rcases hmore with ⟨more, others, hcomma, hothers, rfl⟩ | ⟨hend, hclose, rfl⟩
    · have hmore := length_skip_le more
      rw [hcomma, List.length_cons] at hrest
      apply readItems_more hitem' hcomma
      apply ih _ hothers
      intro inner found hinner
      exact h inner found (by omega)
    · exact readItems_last fuel hclose hitem' hend

theorem readList_congr (hconsumes : Consumes item) {text : Units} {result : List α × Units}
    (h : ∀ inner found, inner.length ≤ text.length → item inner = some found → item' inner = some found)
    (hread : readList item close text = some result) : readList item' close text = some result := by
  obtain ⟨values, left⟩ := result
  have hlength := length_skip_le text
  rcases exists_of_readList hread with ⟨hskip, rfl⟩ | ⟨u, rest, hskip, hu, hitems⟩
  · exact readList_empty hskip
  · apply readList_items hskip hu
    apply readItems_congr hconsumes _ hitems
    intro inner found hinner
    rw [hskip] at hlength
    exact h inner found (by omega)

theorem readMember_congr {text : Units} {result : (Units × α) × Units}
    (h : ∀ inner found, inner.length ≤ text.length → item inner = some found → item' inner = some found)
    (hread : readMember item text = some result) : readMember item' text = some result := by
  obtain ⟨member, left⟩ := result
  obtain ⟨behind, rest, after, rfl, hkey, hcolon, hvalue⟩ := exists_of_readMember hread
  have hstring := (consumes_readString behind member.1 rest hkey).length_lt
  have hrest := length_skip_le rest
  have hafter := length_skip_le after
  rw [hcolon, List.length_cons] at hrest
  refine readMember_of hkey hcolon (h _ _ ?_ hvalue)
  rw [List.length_cons]
  omega

/-- No value is nested deeper than its text is long. -/
theorem readValue_enough {ν : Type} {number : Units → ν} {fuel : Nat} {text : Units} {result : Value ν × Units}
    (h : readValue number fuel text = some result) {other : Nat} (hother : text.length ≤ other) :
    readValue number other text = some result := by
  induction fuel generalizing text result other with
  | zero => cases h
  | succ fuel ih =>
    cases text with
    | nil => cases h
    | cons u rest =>
      cases other with
      | zero => exact absurd hother (Nat.not_succ_le_zero _)
      | succ other =>
        rw [List.length_cons, Nat.add_le_add_iff_right] at hother
        have hinner : ∀ inner found, inner.length ≤ rest.length → readValue number fuel inner = some found →
            readValue number other inner = some found := by
          intro inner found hle hfound
          exact ih hfound (Nat.le_trans hle hother)
        have hconsumes := @consumes_readValue ν number fuel
        by_cases hbrace : u = openBrace
        · rw [hbrace, readValue_brace] at h ⊢
          obtain ⟨found, hlist, hresult⟩ := Option.map_eq_some_iff.1 h
          rw [readList_congr (consumes_readMember hconsumes) _ hlist, ← hresult]
          · rfl
          · intro inner found hle hmember
            apply readMember_congr _ hmember
            intro value read hvalue
            exact hinner value read (Nat.le_trans hvalue hle)
        · by_cases hbracket : u = openBracket
          · rw [hbracket, readValue_bracket] at h ⊢
            obtain ⟨found, hlist, hresult⟩ := Option.map_eq_some_iff.1 h
            rw [readList_congr hconsumes hinner hlist, ← hresult]
            rfl
          · rw [← readValue_plain hbrace hbracket fuel other]
            exact h

/-- A text is accepted just where some fuel reads a value up to blanks. -/
theorem parse_eq_some {number : Units → ν} {text : Units} {value : Value ν} :
    parse number text = some value ↔ ∃ fuel rest, readValue number fuel (skip text) = some (value, rest) ∧ skip rest = [] := by
  have henough := length_skip_le text
  unfold parse
  constructor
  · intro h
    cases hread : readValue number (text.length + 1) (skip text) with
    | none =>
      rw [hread] at h
      cases h
    | some result =>
      rw [hread] at h
      dsimp only at h
      split_ifs at h with hend
      cases h
      exact ⟨_, _, hread, hend⟩
  · intro h
    obtain ⟨fuel, rest, hread, hend⟩ := h
    rw [readValue_enough hread (Nat.le_succ_of_le henough)]
    dsimp only
    rw [if_pos hend]

end Fuel

/-! ## What becomes of the numbers -/

mutual

def Value.mapNumbers {ν μ : Type} (convert : ν → μ) : Value ν → Value μ
  | .null => .null
  | .bool value => .bool value
  | .num value => .num (convert value)
  | .str value => .str value
  | .arr items => .arr (mapItems convert items)
  | .obj fields => .obj (mapFields convert fields)

def mapItems {ν μ : Type} (convert : ν → μ) : List (Value ν) → List (Value μ)
  | [] => []
  | item :: rest => item.mapNumbers convert :: mapItems convert rest

def mapFields {ν μ : Type} (convert : ν → μ) : List (Units × Value ν) → List (Units × Value μ)
  | [] => []
  | (key, value) :: rest => (key, value.mapNumbers convert) :: mapFields convert rest

end

theorem mapItems_eq {ν μ : Type} (convert : ν → μ) (items : List (Value ν)) :
    mapItems convert items = items.map (Value.mapNumbers convert) := by
  induction items with
  | nil => rw [mapItems, List.map_nil]
  | cons item rest ih => rw [mapItems, ih, List.map_cons]

theorem mapFields_eq {ν μ : Type} (convert : ν → μ) (fields : List (Units × Value ν)) :
    mapFields convert fields = fields.map fun field => (field.1, field.2.mapNumbers convert) := by
  induction fields with
  | nil => rw [mapFields, List.map_nil]
  | cons field rest ih => rw [mapFields, ih, List.map_cons]

/-- Values are put into an object the same whatever they are. -/
theorem ofMembers_map {α β : Type} (convert : α → β) (members : List (Units × α)) :
    ofMembers (members.map fun member => (member.1, convert member.2)) =
      (ofMembers members).map fun field => (field.1, convert field.2) := by
  have hset : ∀ (fields : List (Units × α)) (key : Units) (value : α),
      setOwn (fields.map fun field => (field.1, convert field.2)) key (convert value) =
        (setOwn fields key value).map fun field => (field.1, convert field.2) := by
    intro fields key value
    have hkeys : (fields.map fun field => (field.1, convert field.2)).map Prod.fst = fields.map Prod.fst := by
      rw [List.map_map]
      rfl
    unfold setOwn
    rw [hkeys]
    split_ifs with hmem
    · rw [List.map_map, List.map_map]
      apply List.map_congr_left
      intro field _
      change (if field.1 = key then (key, convert value) else (field.1, convert field.2)) =
        (fun field : Units × α => (field.1, convert field.2)) (if field.1 = key then (key, value) else field)
      split_ifs <;> rfl
    · rw [List.takeWhile_map, List.dropWhile_map, List.map_append, List.map_cons]
      rfl
  have hall : ∀ members fields : List (Units × α),
      (members.map fun member => (member.1, convert member.2)).foldl (fun fields member => setOwn fields member.1 member.2)
          (fields.map fun field => (field.1, convert field.2)) =
        (members.foldl (fun fields member => setOwn fields member.1 member.2) fields).map
          fun field => (field.1, convert field.2) := by
    intro members
    induction members with
    | nil => exact fun fields => rfl
    | cons member rest ih =>
      intro fields
      rw [List.map_cons, List.foldl_cons, List.foldl_cons, hset, ih]
  exact hall members []

section Map

variable {α β : Type} {item : Units → Option (α × Units)} {item' : Units → Option (β × Units)} {convert : α → β}

def converted (convert : α → β) (result : Option (α × Units)) : Option (β × Units) :=
  result.map fun (value, left) => (convert value, left)

variable (h : ∀ text, item' text = converted convert (item text))
include h

theorem readItems_map (close : UInt16) (fuel : Nat) (text : Units) :
    readItems item' close fuel text = converted (List.map convert) (readItems item close fuel text) := by
  induction fuel generalizing text with
  | zero => rfl
  | succ fuel ih =>
    rw [readItems, readItems, h]
    cases hitem : item text with
    | none => rfl
    | some result =>
      obtain ⟨value, rest⟩ := result
      simp only [converted, Option.map_some, Option.bind_eq_bind, Option.bind_some]
      cases skip rest with
      | nil => rfl
      | cons u more =>
        dsimp only
        split_ifs with hcomma hclose
        · rw [ih]
          cases readItems item close fuel (skip more) <;> rfl
        · rfl
        · rfl

theorem readList_map (close : UInt16) (text : Units) :
    readList item' close text = converted (List.map convert) (readList item close text) := by
  unfold readList
  cases skip text with
  | nil => rfl
  | cons u rest =>
    dsimp only
    split_ifs with hclose
    · rfl
    · exact readItems_map h close _ _

theorem readMember_map (text : Units) :
    readMember item' text = converted (fun member => (member.1, convert member.2)) (readMember item text) := by
  unfold readMember
  cases text with
  | nil => rfl
  | cons u rest =>
    dsimp only
    split_ifs with hquote
    · cases readString rest with
      | none => rfl
      | some result =>
        obtain ⟨key, behind⟩ := result
        dsimp only [Option.bind_eq_bind, Option.bind_some]
        cases skip behind with
        | nil => rfl
        | cons v after =>
          dsimp only
          split_ifs with hcolon
          · rw [h]
            cases item (skip after) <;> rfl
          · rfl
    · rfl

end Map

theorem readValue_map {ν : Type} (number : Units → ν) (fuel : Nat) (text : Units) :
    readValue number fuel text = converted (Value.mapNumbers number) (readValue id fuel text) := by
  induction fuel generalizing text with
  | zero => rfl
  | succ fuel ih =>
    cases text with
    | nil => rfl
    | cons u rest =>
      by_cases hbrace : u = openBrace
      · rw [hbrace, readValue_brace, readValue_brace, readList_map (readMember_map ih)]
        cases readList (readMember (readValue id fuel)) closeBrace rest with
        | none => rfl
        | some result =>
          unfold converted
          dsimp only [Option.map_some]
          rw [ofMembers_map, Value.mapNumbers, mapFields_eq]
      · by_cases hbracket : u = openBracket
        · rw [hbracket, readValue_bracket, readValue_bracket, readList_map ih]
          cases readList (readValue id fuel) closeBracket rest with
          | none => rfl
          | some result =>
            unfold converted
            dsimp only [Option.map_some]
            rw [Value.mapNumbers, mapItems_eq]
        · rw [readValue, readValue, if_neg hbrace, if_neg hbracket, if_neg hbrace, if_neg hbracket]
          have hword : ∀ (word : Units) (found : Value Units) (text : Units),
              readWord word (found.mapNumbers number) text = converted (Value.mapNumbers number) (readWord word found text) := by
            intro word found text
            unfold readWord
            split_ifs <;> rfl
          split_ifs
          · cases readString rest <;> rfl
          · exact hword _ (.bool true) _
          · exact hword _ (.bool false) _
          · exact hword _ .null _
          · dsimp only
            split_ifs <;> rfl

/-- Two readings of a text differ in nothing but its numbers. -/
theorem parse_map {ν : Type} (number : Units → ν) (text : Units) :
    parse number text = (parse id text).map (Value.mapNumbers number) := by
  unfold parse
  rw [readValue_map]
  cases readValue id (text.length + 1) (skip text) with
  | none => rfl
  | some result =>
    obtain ⟨value, rest⟩ := result
    unfold converted
    dsimp only [Option.map_some]
    split_ifs <;> rfl

end Gostman.Lib.EcmaJson
