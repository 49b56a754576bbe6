import Gostman.Lib.Spaced
/-!
# Segments of a path

`matchesSegment` of `contract.js`: whether a segment of a path is one of the
template, which may hold parameters in braces.  Texts are in UTF-16 units.
-/

namespace Gostman.Contract

open Gostman.Lib

abbrev Text := List UInt16

def openBrace : UInt16 := 0x7B
def closeBrace : UInt16 := 0x7D

/-- `text.indexOf(literal, start)`, where a start behind the text is its end. -/
def indexOf (text literal : Text) (start : Nat) : Option Nat :=
  let start := min start text.length
  (firstAt literal (text.drop start)).map (start + ·)

/-- What a part of the template holds behind its first closing brace, all of it
without one. -/
def literalOf (part : Text) : Text :=
  if closeBrace ∈ part then (part.dropWhile (· ≠ closeBrace)).drop 1 else part

/-- The loop of `matchesSegment` over the literals. -/
def matchLiterals (actual : Text) : Nat → List Text → Bool
  | _, [] => true
  | cursor, [literal] => decide (cursor < actual.length - literal.length) && literal.isSuffixOf actual
  | cursor, literal :: rest =>
      match indexOf actual literal (cursor + 1) with
      | none => false
      | some found => matchLiterals actual (found + literal.length) rest

def matchesSegment (template actual : Text) : Bool :=
  match template.splitOn openBrace with
  | [] | [_] => template = actual
  | head :: rest => head.isPrefixOf actual && matchLiterals actual head.length (rest.map literalOf)

/-! ## What a template stands for -/

/-- Each opening brace is closed by a later one before the next. -/
def Closed (template : Text) : Prop :=
  ∀ part ∈ (template.splitOn openBrace).drop 1, closeBrace ∈ part

instance (template : Text) : Decidable (Closed template) :=
  inferInstanceAs (Decidable (∀ part ∈ (template.splitOn openBrace).drop 1, closeBrace ∈ part))

/-- The template with a text that is not empty in place of each parameter. -/
inductive Fills : Text → Text → Prop where
  | literal {text : Text} (hplain : openBrace ∉ text) : Fills text text
  | parameter {head name value rest actual : Text} (hhead : openBrace ∉ head) (hopen : openBrace ∉ name)
      (hclose : closeBrace ∉ name) (hvalue : value ≠ []) (hrest : Fills rest actual) :
      Fills (head ++ openBrace :: (name ++ closeBrace :: rest)) (head ++ (value ++ actual))

/-! ## The loop and the gaps -/

theorem indexOf_eq {actual literal : Text} {cursor : Nat} (h : cursor ≤ actual.length) :
    indexOf actual literal (cursor + 1) =
      (firstAt literal ((actual.drop cursor).drop 1)).map (min (cursor + 1) actual.length + ·) := by
  unfold indexOf
  simp only
  rw [List.drop_drop]
  by_cases hend : cursor + 1 ≤ actual.length
  · rw [Nat.min_eq_left hend]
  · rw [Nat.min_eq_right (by omega), List.drop_length, List.drop_eq_nil_of_le (by omega)]

/-- The loop finds the literals spaced in the rest of the text just when they are. -/
theorem matchLiterals_iff {actual : Text} {cursor : Nat} (hcursor : cursor ≤ actual.length) {literals : List Text}
    (hsome : literals ≠ []) :
    matchLiterals actual cursor literals = true ↔ Spaced literals (actual.drop cursor) := by
  induction literals generalizing cursor with
  | nil => exact absurd rfl hsome
  | cons literal rest ih =>
    cases rest with
    | nil =>
      rw [matchLiterals, spaced_singleton_iff, Bool.and_eq_true, decide_eq_true_iff, List.isSuffixOf_iff_suffix,
        List.length_drop]
      have hlength : cursor < actual.length - literal.length ↔ literal.length < actual.length - cursor := by omega
      rw [hlength]
      apply and_congr_right
      intro hshort
      constructor
      · intro hsuffix
        apply List.suffix_of_suffix_length_le hsuffix (List.drop_suffix _ _)
        rw [List.length_drop]
        omega
      · intro hsuffix
        exact hsuffix.trans (List.drop_suffix _ _)
    | cons next rest =>
      rw [matchLiterals, spaced_cons_iff, indexOf_eq hcursor]
      · cases hfirst : firstAt literal ((actual.drop cursor).drop 1) with
        | none => simp
        | some place =>
          obtain ⟨front, behind, htext, hplace⟩ := firstAt_spec hfirst
          have hlength := congrArg List.length htext
          simp only [List.length_drop, List.length_append] at hlength
          rw [Option.map_some]
          simp only
          rw [ih (by omega) (List.cons_ne_nil _ _)]
          have hdrop : actual.drop (min (cursor + 1) actual.length + place + literal.length) =
              (actual.drop cursor).drop (1 + place + literal.length) := by
            rw [List.drop_drop]
            by_cases hend : cursor + 1 ≤ actual.length
            · rw [Nat.min_eq_left hend]
              congr 1
              omega
            · rw [List.drop_eq_nil_of_le (by omega), List.drop_eq_nil_of_le (by omega)]
          rw [hdrop]
          constructor
          · intro hspaced
            exact ⟨place, rfl, hspaced⟩
          · rintro ⟨other, hother, hspaced⟩
            cases hother
            exact hspaced
      · intro hnil
        cases hnil

/-! ## The parts of a template -/

def headOf (template : Text) : Text :=
  (template.splitOn openBrace).headD []

def literalsOf (template : Text) : List Text :=
  ((template.splitOn openBrace).drop 1).map literalOf

theorem splitOn_ne_nil (template : Text) : template.splitOn openBrace ≠ [] :=
  List.splitOn_ne_nil openBrace template

theorem matchesSegment_iff (template actual : Text) :
    matchesSegment template actual = true ↔
      ∃ behind, actual = headOf template ++ behind ∧ Spaced (literalsOf template) behind := by
  unfold matchesSegment headOf literalsOf
  have hjoin : [openBrace].intercalate (template.splitOn openBrace) = template := List.intercalate_splitOn openBrace
  match hparts : template.splitOn openBrace with
  | [] => exact absurd hparts (splitOn_ne_nil template)
  | [head] =>
    rw [hparts, List.intercalate_singleton] at hjoin
    subst hjoin
    change decide (head = actual) = true ↔ ∃ behind, actual = head ++ behind ∧ behind = []
    rw [decide_eq_true_iff]
    constructor
    · rintro rfl
      exact ⟨[], (List.append_nil _).symm, rfl⟩
    · rintro ⟨behind, rfl, rfl⟩
      exact (List.append_nil _).symm
  | head :: part :: rest =>
    change (head.isPrefixOf actual && matchLiterals actual head.length ((part :: rest).map literalOf)) = true ↔
      ∃ behind, actual = head ++ behind ∧ Spaced ((part :: rest).map literalOf) behind
    have hloop (behind : Text) : matchLiterals (head ++ behind) head.length ((part :: rest).map literalOf) = true ↔
        Spaced ((part :: rest).map literalOf) behind := by
      have hcursor : head.length ≤ (head ++ behind).length := by
        rw [List.length_append]
        omega
      have hsome : (part :: rest).map literalOf ≠ [] := List.cons_ne_nil _ _
      rw [matchLiterals_iff hcursor hsome, List.drop_left]
    rw [Bool.and_eq_true, List.isPrefixOf_iff_prefix]
    constructor
    · intro ⟨⟨behind, hactual⟩, hmatch⟩
      rw [← hactual, hloop] at hmatch
      exact ⟨behind, hactual.symm, hmatch⟩
    · intro ⟨behind, hactual, hspaced⟩
      rw [hactual, hloop]
      exact ⟨List.prefix_append _ _, hspaced⟩

theorem literalOf_closed {name rest : Text} (h : closeBrace ∉ name) : literalOf (name ++ closeBrace :: rest) = rest := by
  unfold literalOf
  rw [if_pos (List.mem_append_right _ List.mem_cons_self), List.dropWhile_append_of_pos]
  · rw [List.dropWhile_cons, if_neg (by simp)]
    rfl
  · intro unit hunit
    apply decide_eq_true
    rintro rfl
    exact h hunit

theorem splitOn_append {front : Text} (h : openBrace ∉ front) (rest : Text) :
    (front ++ rest).splitOn openBrace = (rest.splitOn openBrace).modifyHead (front ++ ·) := by
  induction front with
  | nil =>
    obtain ⟨part, parts, hparts⟩ := List.exists_cons_of_ne_nil (List.splitOn_ne_nil openBrace rest)
    rw [List.nil_append, hparts]
    rfl
  | cons unit front ih =>
    have hunit : (unit == openBrace) = false := beq_false_of_ne fun heq => h (heq ▸ List.mem_cons_self)
    have hfront : openBrace ∉ front := fun hmem => h (List.mem_cons_of_mem _ hmem)
    obtain ⟨part, parts, hparts⟩ := List.exists_cons_of_ne_nil (List.splitOn_ne_nil openBrace rest)
    rw [List.cons_append, List.splitOn_cons_eq_if_modifyHead, hunit, ih hfront, hparts]
    rfl

theorem headOf_plain {text : Text} (h : openBrace ∉ text) : headOf text = text := by
  rw [headOf, List.splitOn_eq_singleton h]
  rfl

theorem literalsOf_plain {text : Text} (h : openBrace ∉ text) : literalsOf text = [] := by
  rw [literalsOf, List.splitOn_eq_singleton h]
  rfl

section Parameter

variable {head name rest : Text} (hhead : openBrace ∉ head) (hopen : openBrace ∉ name)

include hhead hopen

theorem splitOn_parameter :
    (head ++ openBrace :: (name ++ closeBrace :: rest)).splitOn openBrace =
      head :: (name ++ closeBrace :: headOf rest) :: (rest.splitOn openBrace).drop 1 := by
  have hname : openBrace ∉ name ++ [closeBrace] := by
    intro hmem
    rcases List.mem_append.1 hmem with hmem | hmem
    · exact hopen hmem
    · exact absurd (List.mem_singleton.1 hmem) (by decide)
  obtain ⟨part, parts, hparts⟩ := List.exists_cons_of_ne_nil (List.splitOn_ne_nil openBrace rest)
  have hregroup : name ++ closeBrace :: rest = (name ++ [closeBrace]) ++ rest := by
    rw [List.append_assoc]
    rfl
  rw [List.splitOn_append_cons_self_of_not_mem hhead, hregroup, splitOn_append hname, headOf, hparts]
  change [head, (name ++ [closeBrace]) ++ part] ++ parts = _
  rw [List.append_assoc]
  rfl

theorem headOf_parameter : headOf (head ++ openBrace :: (name ++ closeBrace :: rest)) = head := by
  rw [headOf, splitOn_parameter hhead hopen]
  rfl

theorem literalsOf_parameter (hclose : closeBrace ∉ name) :
    literalsOf (head ++ openBrace :: (name ++ closeBrace :: rest)) = headOf rest :: literalsOf rest := by
  rw [literalsOf, splitOn_parameter hhead hopen, List.drop_succ_cons, List.drop_zero, List.map_cons,
    literalOf_closed hclose]
  rfl

theorem closed_rest (h : Closed (head ++ openBrace :: (name ++ closeBrace :: rest))) : Closed rest := by
  intro part hpart
  apply h part
  rw [splitOn_parameter hhead hopen]
  exact List.mem_cons_of_mem _ hpart

end Parameter

/-- A template whose braces are closed is a plain text or has a first parameter. -/
theorem Closed.exists_parameter {template : Text} (h : Closed template) (hopen : openBrace ∈ template) :
    ∃ head name rest, openBrace ∉ head ∧ openBrace ∉ name ∧ closeBrace ∉ name ∧
      template = head ++ openBrace :: (name ++ closeBrace :: rest) := by
  obtain ⟨head, tail, rfl, hhead⟩ := List.eq_append_cons_of_mem hopen
  have hpart : ∃ part behind, openBrace ∉ part ∧ closeBrace ∈ part ∧ tail = part ++ behind := by
    unfold Closed at h
    rw [List.splitOn_append_cons_self_of_not_mem hhead, List.drop_succ_cons, List.drop_zero] at h
    by_cases hagain : openBrace ∈ tail
    · obtain ⟨part, behind, rfl, hpart⟩ := List.eq_append_cons_of_mem hagain
      rw [List.splitOn_append_cons_self_of_not_mem hpart] at h
      exact ⟨part, openBrace :: behind, hpart, h part List.mem_cons_self, rfl⟩
    · rw [List.splitOn_eq_singleton hagain] at h
      exact ⟨tail, [], hagain, h tail List.mem_cons_self, (List.append_nil _).symm⟩
  obtain ⟨part, behind, hpart, hclose, rfl⟩ := hpart
  obtain ⟨name, literal, rfl, hname⟩ := List.eq_append_cons_of_mem hclose
  refine ⟨head, name, literal ++ behind, hhead, ?_, hname, ?_⟩
  · intro hmem
    exact hpart (List.mem_append_left _ hmem)
  · rw [List.append_assoc]
    rfl

/-! ## Templates and their fillings -/

theorem Fills.spaced {template actual : Text} (h : Fills template actual) :
    ∃ behind, actual = headOf template ++ behind ∧ Spaced (literalsOf template) behind := by
  induction h with
  | @literal text hplain =>
    rw [headOf_plain hplain, literalsOf_plain hplain]
    exact ⟨[], (List.append_nil _).symm, rfl⟩
  | @parameter head name value rest actual hhead hopen hclose hvalue hrest ih =>
    obtain ⟨behind, hactual, hspaced⟩ := ih
    rw [headOf_parameter hhead hopen, literalsOf_parameter hhead hopen hclose, hactual]
    exact ⟨value ++ (headOf rest ++ behind), rfl, value, behind, hvalue, rfl, hspaced⟩

theorem fills_of_spaced {template : Text} (h : Closed template) {behind : Text}
    (hspaced : Spaced (literalsOf template) behind) : Fills template (headOf template ++ behind) := by
  -- on the length of the template, which a parameter shortens
  induction hlength : template.length using Nat.strongRecOn generalizing template behind with
  | _ length ih =>
    by_cases hopen : openBrace ∈ template
    · obtain ⟨head, name, rest, hhead, hname, hclose, rfl⟩ := h.exists_parameter hopen
      rw [literalsOf_parameter hhead hname hclose] at hspaced
      obtain ⟨value, after, hvalue, rfl, hafter⟩ := hspaced
      have hshorter : rest.length < length := by
        rw [← hlength]
        simp only [List.length_append, List.length_cons]
        omega
      have hrest := ih rest.length hshorter (closed_rest hhead hname h) hafter rfl
      rw [headOf_parameter hhead hname]
      exact .parameter hhead hname hclose hvalue hrest
    · rw [literalsOf_plain hopen] at hspaced
      cases hspaced
      rw [headOf_plain hopen, List.append_nil]
      exact .literal hopen

/-- Taking the first occurrence of each literal misses no match. -/
theorem matchesSegment_iff_fills (template actual : Text) (h : Closed template) :
    matchesSegment template actual = true ↔ Fills template actual := by
  rw [matchesSegment_iff]
  constructor
  · intro ⟨behind, hactual, hspaced⟩
    rw [hactual]
    exact fills_of_spaced h hspaced
  · exact Fills.spaced

/-- `{a}-{b}` matches `x-y-z`, and so some values make one of the other. -/
theorem dashes_inside_a_value :
    Closed [0x7B, 0x61, 0x7D, 0x2D, 0x7B, 0x62, 0x7D] ∧
      matchesSegment [0x7B, 0x61, 0x7D, 0x2D, 0x7B, 0x62, 0x7D] [0x78, 0x2D, 0x79, 0x2D, 0x7A] = true ∧
        Fills [0x7B, 0x61, 0x7D, 0x2D, 0x7B, 0x62, 0x7D] [0x78, 0x2D, 0x79, 0x2D, 0x7A] :=
  ⟨by decide, by decide, (matchesSegment_iff_fills _ _ (by decide)).1 (by decide)⟩

end Gostman.Contract
