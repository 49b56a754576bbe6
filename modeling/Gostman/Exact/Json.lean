import Gostman.Lib.Decided
import Gostman.Lib.EcmaRead
import Gostman.Lib.EcmaWritten
/-!
# JSON that keeps the digits of its numbers (`lib/exactJson.js`)

A number is kept as its text.  The reader relies on a text that `JSON.parse`
accepts: on others it may run past the end or go round for ever, which is `none`
here, as is running out of fuel.
-/

namespace Gostman.Exact

open Gostman.Lib.EcmaJson

def advance (accepts : UInt16 → Bool) (text : Units) (pos : Nat) : Nat :=
  if h : pos < text.length then
    if accepts text[pos] then advance accepts text (pos + 1) else pos
  else pos
termination_by text.length - pos

/-- The position of the quotation mark that ends a string; past the end of the
text there is none. -/
def closing (text : Units) (pos : Nat) : Option Nat :=
  if h : pos < text.length then
    if text[pos] = quotationMark then some pos
    else closing text (pos + if text[pos] = backslash then 2 else 1)
  else none
termination_by text.length - pos
decreasing_by
  split_ifs <;> omega

section Reader

variable (text : Units)

def skipSpace (pos : Nat) : Nat :=
  advance isSpace text pos

def slice (start stop : Nat) : Units :=
  (text.take stop).drop start

def string (start : Nat) : Option (Units × Nat) := do
  let last ← closing text (start + 1)
  match parse id (slice text start (last + 1)) with
  | some (.str units) => some (units, last + 1)
  | _ => none

def items {σ : Type} (close : UInt16) (readItem : σ → Nat → Option (σ × Nat)) : Nat → σ → Nat → Option (σ × Nat)
  | 0, _, _ => none
  | fuel + 1, state, pos =>
      if text[pos]? = some close then some (state, pos + 1)
      else do
        let (state, pos) ← readItem state pos
        let pos := skipSpace text pos
        let pos := if text[pos]? = some comma then pos + 1 else pos
        items close readItem fuel state (skipSpace text pos)

def readField (value : Nat → Option (Value Units × Nat)) (holder : List (Units × Value Units)) (pos : Nat) :
    Option (List (Units × Value Units) × Nat) := do
  let (key, pos) ← string text pos
  let (item, pos) ← value (skipSpace text pos + 1)
  return (setOwn holder key item, pos)

def readElement (value : Nat → Option (Value Units × Nat)) (list : List (Value Units)) (pos : Nat) :
    Option (List (Value Units) × Nat) := do
  let (item, pos) ← value pos
  return (list ++ [item], pos)

/-- `value`; the fuel bounds the depth and the rounds of each loop. -/
def value : Nat → Nat → Option (Value Units × Nat)
  | 0, _ => none
  | fuel + 1, pos =>
      let start := skipSpace text pos
      let first := text[start]?
      if first = some openBrace then
        (items text closeBrace (readField text (value fuel)) fuel [] (skipSpace text (start + 1))).map
          fun (holder, pos) => (.obj holder, pos)
      else if first = some openBracket then
        (items text closeBracket (readElement (value fuel)) fuel [] (skipSpace text (start + 1))).map
          fun (list, pos) => (.arr list, pos)
      else if first = some quotationMark then (string text start).map fun (units, pos) => (.str units, pos)
      else if first = some 0x74 then some (.bool true, start + 4)
      else if first = some 0x66 then some (.bool false, start + 5)
      else if first = some 0x6E then some (.null, start + 4)
      else
        let stop := advance isNumberUnit text start
        some (.num (slice text start stop), stop)

end Reader

def parseExact (fuel : Nat) (text : Units) : Option (Value Units) :=
  match parse id text with
  | some _ => (value text fuel 0).map Prod.fst
  | none => none

/-! ## Writing -/

def newline : UInt16 := 0x0A

def blank : UInt16 := 0x20

def wrap (opening closing : UInt16) (parts : List Units) (indent depth : Nat) : Units :=
  if parts = [] then [opening, closing]
  else if indent = 0 then opening :: List.intercalate [comma] parts ++ [closing]
  else
    let inner := List.replicate (indent * (depth + 1)) blank
    opening :: newline :: inner ++ List.intercalate (comma :: newline :: inner) parts ++
      newline :: List.replicate (indent * depth) blank ++ [closing]

def separator (indent : Nat) : Units :=
  if indent = 0 then [colon] else [colon, blank]

mutual

def stringifyExact (indent depth : Nat) : Value Units → Units
  | .null => ascii "null"
  | .bool value => if value then ascii "true" else ascii "false"
  | .num text => text
  | .str units => quote units
  | .arr items => wrap openBracket closeBracket (stringifyItems indent (depth + 1) items) indent depth
  | .obj fields => wrap openBrace closeBrace (stringifyFields indent (depth + 1) fields) indent depth

def stringifyItems (indent depth : Nat) : List (Value Units) → List Units
  | [] => []
  | item :: rest => stringifyExact indent depth item :: stringifyItems indent depth rest

def stringifyFields (indent depth : Nat) : List (Units × Value Units) → List Units
  | [] => []
  | (key, item) :: rest =>
      (quote key ++ separator indent ++ stringifyExact indent depth item) :: stringifyFields indent depth rest

end

/-!
## What is written is read again

The text of a value, with any indent, is read by `JSON.parse` as the value,
each number with the same digits.
-/

open scoped Gostman.Lib.Decided

theorem stringifyItems_eq (indent depth : Nat) (items : List (Value Units)) :
    stringifyItems indent depth items = items.map (stringifyExact indent depth) := by
  induction items with
  | nil => rw [stringifyItems, List.map_nil]
  | cons item rest ih => rw [stringifyItems, ih, List.map_cons]

theorem stringifyFields_eq (indent depth : Nat) (fields : List (Units × Value Units)) :
    stringifyFields indent depth fields =
      fields.map fun field => quote field.1 ++ separator indent ++ stringifyExact indent depth field.2 := by
  induction fields with
  | nil => rw [stringifyFields, List.map_nil]
  | cons field rest ih => rw [stringifyFields, ih, List.map_cons]

/-- The text of a list that is not empty, with blanks around its parts. -/
theorem exists_wrap (opening closing : UInt16) {parts : List Units} (h : parts ≠ []) (indent depth : Nat) :
    ∃ lead gap ending, (∀ u ∈ lead, isSpace u = true) ∧ (∀ u ∈ gap, isSpace u = true) ∧ (∀ u ∈ ending, isSpace u = true) ∧
      ∀ more, wrap opening closing parts indent depth ++ more =
        opening :: (lead ++ (List.intercalate (comma :: gap) parts ++ (ending ++ closing :: more))) := by
  have hnil : ∀ u ∈ ([] : Units), isSpace u = true := fun u hu => absurd hu List.not_mem_nil
  have hblanks : ∀ n, ∀ u ∈ newline :: List.replicate n blank, isSpace u = true := by
    intro n u hu
    rcases List.mem_cons.1 hu with rfl | hin
    · decide
    · rw [List.eq_of_mem_replicate hin]
      decide
  by_cases hindent : indent = 0
  · refine ⟨[], [], [], hnil, hnil, hnil, ?_⟩
    intro more
    unfold wrap
    rw [if_neg h, if_pos hindent]
    simp only [List.cons_append, List.append_assoc, List.nil_append]
  · refine ⟨newline :: List.replicate (indent * (depth + 1)) blank, newline :: List.replicate (indent * (depth + 1)) blank,
      newline :: List.replicate (indent * depth) blank, hblanks _, hblanks _, hblanks _, ?_⟩
    intro more
    unfold wrap
    rw [if_neg h, if_neg hindent]
    simp only [List.cons_append, List.append_assoc, List.nil_append]

theorem closes_bracket : Closes closeBracket :=
  ⟨by decide, by decide, by decide⟩

theorem closes_brace : Closes closeBrace :=
  ⟨by decide, by decide, by decide⟩

/-- A text that is read as a value in front of whatever is no number. -/
def ReadAs (text : Units) (value : Value Units) : Prop :=
  ∀ more fuel, Separate more → (text ++ more).length ≤ fuel → readValue id fuel (text ++ more) = some (value, more)

theorem ReadAs.head {text : Units} {value : Value Units} (h : ReadAs text value) :
    ∃ u rest, text = u :: rest ∧ isSpace u = false ∧ u ≠ closeBracket := by
  have hread := h [] _ separate_nil (Nat.le_refl _)
  rw [List.append_nil] at hread
  exact head_of_readValue hread

/-- A reading with fuel for one unit at least. -/
theorem readAs_of {text : Units} {value : Value Units} (hne : text ≠ [])
    (h : ∀ more fuel, Separate more → (text ++ more).length ≤ fuel + 1 →
      readValue id (fuel + 1) (text ++ more) = some (value, more)) : ReadAs text value := by
  intro more fuel hseparate hfuel
  cases fuel with
  | zero =>
    have hpos := List.length_pos_of_ne_nil hne
    rw [List.length_append] at hfuel
    omega
  | succ fuel => exact h more fuel hseparate hfuel

theorem readAs_word {word : Units} {value : Value Units}
    (h : ∀ fuel more, readValue id (fuel + 1) (word ++ more) = readWord word value (word ++ more)) (hne : word ≠ []) :
    ReadAs word value := by
  apply readAs_of hne
  intro more fuel _ _
  rw [h, readWord, if_pos (List.prefix_append word more), List.drop_left]

theorem readAs_num {text : Units} (hnumber : isNumber text = true) (hunits : ∀ u ∈ text, isNumberUnit u = true) :
    ReadAs text (.num text) := by
  obtain ⟨first, rest, rfl⟩ := exists_of_isNumber hnumber
  apply readAs_of (List.cons_ne_nil _ _)
  intro more fuel hseparate _
  have hdigits : ((first :: rest) ++ more).takeWhile isNumberUnit = first :: rest ∧
      ((first :: rest) ++ more).dropWhile isNumberUnit = more := by
    rw [List.takeWhile_append_of_pos hunits, List.dropWhile_append_of_pos hunits]
    cases more with
    | nil => exact ⟨List.append_nil _, rfl⟩
    | cons u more =>
      have hu : ¬ isNumberUnit u = true := by
        rw [hseparate u more rfl]
        exact Bool.false_ne_true
      rw [List.takeWhile_cons_of_neg hu, List.dropWhile_cons_of_neg hu]
      exact ⟨List.append_nil _, rfl⟩
  have hfirst := hunits first List.mem_cons_self
  have hne : ∀ u, isNumberUnit u = false → first ≠ u := by
    rintro u hu rfl
    rw [hfirst] at hu
    cases hu
  rw [List.cons_append] at hdigits ⊢
  rw [readValue, if_neg (hne _ (by decide)), if_neg (hne _ (by decide)), if_neg (hne _ (by decide)), if_neg (hne _ (by decide)),
    if_neg (hne _ (by decide)), if_neg (hne _ (by decide))]
  dsimp only
  rw [hdigits.1, hdigits.2, if_pos hnumber]
  rfl

theorem readAs_quote (units : Units) : ReadAs (quote units) (.str units) := by
  have hne : quote units ≠ [] := List.cons_ne_nil _ _
  apply readAs_of hne
  intro more fuel _ _
  have hquote : quote units ++ more = quotationMark :: (quotedUnits units ++ quotationMark :: more) := by
    unfold quote
    rw [List.append_assoc]
    rfl
  rw [hquote, readValue_quote, readString_quotedUnits]
  rfl

theorem readAs_arr {items : List (Value Units)} {indent depth : Nat}
    (h : ∀ item ∈ items, ReadAs (stringifyExact indent (depth + 1) item) item) :
    ReadAs (stringifyExact indent depth (.arr items)) (.arr items) := by
  rw [stringifyExact, stringifyItems_eq]
  by_cases hne : items.map (stringifyExact indent (depth + 1)) = []
  · rw [List.map_eq_nil_iff] at hne
    rw [hne]
    apply readAs_of (List.cons_ne_nil _ _)
    intro more fuel _ _
    change readValue id (fuel + 1) (openBracket :: closeBracket :: more) = _
    rw [readValue_bracket, readList_empty (skip_of_head (by decide) more)]
    rfl
  · obtain ⟨lead, gap, ending, hlead, hgap, hending, hwrap⟩ := exists_wrap openBracket closeBracket hne indent depth
    have hstart := hwrap []
    rw [List.append_nil] at hstart
    apply readAs_of
    · rw [hstart]
      exact List.cons_ne_nil _ _
    · intro more fuel _ hfuel
      rw [hwrap] at hfuel ⊢
      rw [List.length_cons, List.length_append, Nat.add_le_add_iff_right] at hfuel
      have hparts : List.Forall₂ (Part (readValue id fuel) closeBracket fuel) (items.map (stringifyExact indent (depth + 1))) items := by
        rw [List.forall₂_map_left_iff, List.forall₂_same]
        intro item hitem
        exact ⟨(h item hitem).head, fun more hseparate hlength => h item hitem more fuel hseparate hlength⟩
      rw [readValue_bracket, readList_written closes_bracket hlead hgap hending hparts hne (by omega)]
      rfl

theorem skip_separator (indent : Nat) {u : UInt16} (h : isSpace u = false) (rest : Units) :
    ∃ after, skip (separator indent ++ u :: rest) = colon :: after ∧ skip after = u :: rest := by
  unfold separator
  split_ifs
  · exact ⟨u :: rest, skip_of_head (by decide) _, skip_of_head h rest⟩
  · refine ⟨blank :: u :: rest, skip_of_head (by decide) _, ?_⟩
    have hblank : ∀ v ∈ [blank], isSpace v = true := by decide
    exact (skip_append hblank (u :: rest)).trans (skip_of_head h rest)

theorem part_member {key : Units} {item : Value Units} {indent depth fuel : Nat}
    (h : ReadAs (stringifyExact indent depth item) item) :
    Part (readMember (readValue id fuel)) closeBrace fuel (quote key ++ separator indent ++ stringifyExact indent depth item)
      (key, item) := by
  obtain ⟨u, rest, htext, hspace, -⟩ := h.head
  constructor
  · exact ⟨quotationMark, _, rfl, by decide, by decide⟩
  · intro more hseparate hlength
    obtain ⟨after, hcolon, hafter⟩ := skip_separator indent hspace (rest ++ more)
    have hsplit : quote key ++ separator indent ++ stringifyExact indent depth item ++ more =
        quotationMark :: (quotedUnits key ++ quotationMark :: (separator indent ++ u :: (rest ++ more))) := by
      rw [htext]
      unfold quote
      simp only [List.cons_append, List.append_assoc, List.nil_append]
    rw [List.append_assoc, List.length_append] at hlength
    rw [hsplit]
    apply readMember_of (readString_quotedUnits key _) hcolon
    rw [hafter, ← List.cons_append, ← htext]
    exact h more fuel hseparate (by omega)

theorem readAs_obj {fields : List (Units × Value Units)} {indent depth : Nat} (hordered : Ordered fields)
    (h : ∀ field ∈ fields, ReadAs (stringifyExact indent (depth + 1) field.2) field.2) :
    ReadAs (stringifyExact indent depth (.obj fields)) (.obj fields) := by
  rw [stringifyExact, stringifyFields_eq]
  by_cases hne : (fields.map fun field => quote field.1 ++ separator indent ++ stringifyExact indent (depth + 1) field.2) = []
  · rw [List.map_eq_nil_iff] at hne
    rw [hne]
    apply readAs_of (List.cons_ne_nil _ _)
    intro more fuel _ _
    change readValue id (fuel + 1) (openBrace :: closeBrace :: more) = _
    rw [readValue_brace, readList_empty (skip_of_head (by decide) more)]
    rfl
  · obtain ⟨lead, gap, ending, hlead, hgap, hending, hwrap⟩ := exists_wrap openBrace closeBrace hne indent depth
    have hstart := hwrap []
    rw [List.append_nil] at hstart
    apply readAs_of
    · rw [hstart]
      exact List.cons_ne_nil _ _
    · intro more fuel _ hfuel
      rw [hwrap] at hfuel ⊢
      rw [List.length_cons, List.length_append, Nat.add_le_add_iff_right] at hfuel
      have hparts : List.Forall₂ (Part (readMember (readValue id fuel)) closeBrace fuel)
          (fields.map fun field => quote field.1 ++ separator indent ++ stringifyExact indent (depth + 1) field.2) fields := by
        rw [List.forall₂_map_left_iff, List.forall₂_same]
        intro field hfield
        exact part_member (h field hfield)
      rw [readValue_brace, readList_written closes_brace hlead hgap hending hparts hne (by omega)]
      dsimp only [Option.map_some]
      rw [ofMembers_of_ordered hordered]

theorem readAs_stringifyExact {value : Value Units} (h : Good value) (indent depth : Nat) :
    ReadAs (stringifyExact indent depth value) value := by
  induction value using Value.induction generalizing depth with
  | null =>
    rw [stringifyExact]
    exact readAs_word (fun fuel more => rfl) (by decide)
  | bool flag =>
    rw [stringifyExact]
    cases flag with
    | true => exact readAs_word (fun fuel more => rfl) (by decide)
    | false => exact readAs_word (fun fuel more => rfl) (by decide)
  | num text =>
    obtain ⟨hnumber, hunits⟩ : isNumber text = true ∧ ∀ u ∈ text, isNumberUnit u = true := by
      cases h with
      | num number units => exact ⟨number, units⟩
    rw [stringifyExact]
    exact readAs_num hnumber hunits
  | str units =>
    rw [stringifyExact]
    exact readAs_quote units
  | arr items ih =>
    apply readAs_arr
    intro item hitem
    cases h with
    | arr hitems => exact ih item hitem (hitems item hitem) (depth + 1)
  | obj fields ih =>
    cases h with
    | obj hordered hfields =>
      apply readAs_obj hordered
      intro field hfield
      exact ih field hfield (hfields field hfield) (depth + 1)

theorem parse_stringifyExact {value : Value Units} (h : Good value) (indent : Nat) :
    parse id (stringifyExact indent 0 value) = some value := by
  have hread := readAs_stringifyExact h indent 0
  obtain ⟨u, rest, htext, hspace, -⟩ := hread.head
  have hwhole := hread [] _ separate_nil (Nat.le_refl _)
  rw [List.append_nil] at hwhole
  apply parse_eq_some.2
  refine ⟨(stringifyExact indent 0 value).length, [], ?_, rfl⟩
  rw [htext, skip_of_head hspace, ← htext]
  exact hwhole

end Gostman.Exact
