import Mathlib.Data.List.Basic
/-!
# Lines of a stream

A line ends with CR, with LF or with CR LF.  `terminated` reads the lines of a
whole text by looking one character ahead, `scan` reads them piece by piece
and remembers instead that an LF may still belong to the line before.
-/

namespace Gostman.Lib

variable {α : Type*} [DecidableEq α]

/-- The lines of a text that are ended, the first of them after `line`. -/
def terminated (cr lf : α) (line : List α) : List α → List (List α)
  | [] => []
  | [c] => if c = cr ∨ c = lf then [line] else []
  | c :: d :: rest =>
      if c = cr then
        if d = lf then line :: terminated cr lf [] rest
        else line :: terminated cr lf [] (d :: rest)
      else if c = lf then line :: terminated cr lf [] (d :: rest)
      else terminated cr lf (line ++ [c]) (d :: rest)

/-- What a scanner carries from piece to piece: the line begun, and whether an
LF coming next still belongs to the line end before. -/
structure Scan (α : Type*) where
  line : List α
  skip : Bool

def Scan.push (cr lf : α) (state : Scan α) (c : α) : Option (List α) × Scan α :=
  if state.skip ∧ c = lf then (none, { state with skip := false })
  else if c = cr ∨ c = lf then (some state.line, ⟨[], c = cr⟩)
  else (none, ⟨state.line ++ [c], false⟩)

/-- A piece of the stream: the lines it ends, and what is carried on. -/
def scan (cr lf : α) (state : Scan α) : List α → List (List α) × Scan α
  | [] => ([], state)
  | c :: rest =>
      let (line, state) := state.push cr lf c
      let (lines, state) := scan cr lf state rest
      (line.toList ++ lines, state)

section Scan

variable {cr lf : α}

theorem scan_cons (state : Scan α) (c : α) (rest : List α) :
    scan cr lf state (c :: rest) =
      ((state.push cr lf c).1.toList ++ (scan cr lf (state.push cr lf c).2 rest).1,
        (scan cr lf (state.push cr lf c).2 rest).2) := rfl

theorem push_skip (line : List α) : Scan.push cr lf ⟨line, true⟩ lf = (none, ⟨line, false⟩) := by
  simp [Scan.push]

theorem push_break {c : α} (line : List α) {skip : Bool} (hc : c = cr ∨ c = lf)
    (hskip : skip = true → c ≠ lf) :
    Scan.push cr lf ⟨line, skip⟩ c = (some line, ⟨[], decide (c = cr)⟩) := by
  unfold Scan.push
  rw [if_neg (fun h => hskip h.1 h.2), if_pos hc]

theorem push_other {c : α} (line : List α) (skip : Bool) (hcr : c ≠ cr) (hlf : c ≠ lf) :
    Scan.push cr lf ⟨line, skip⟩ c = (none, ⟨line ++ [c], false⟩) := by
  unfold Scan.push
  rw [if_neg (fun h => hlf h.2), if_neg (fun h => h.elim hcr hlf)]

/-- Looking back gives the lines that looking ahead gives. -/
theorem scan_terminated (line text : List α) :
    (scan cr lf ⟨line, false⟩ text).1 = terminated cr lf line text := by
  fun_induction terminated cr lf line text with
  | case1 line => rfl
  | case2 line c h => simp [scan, push_break line h]
  | case3 line c h =>
    obtain ⟨hcr, hlf⟩ := not_or.1 h
    simp [scan, push_other line false hcr hlf]
  | case4 line rest ih =>
    have hskip : Scan.push cr lf ⟨[], true⟩ lf = (none, ⟨[], false⟩) := push_skip []
    simp [scan, push_break line (.inl rfl), hskip, ih]
  | case5 line d rest hd ih =>
    -- A character that is not LF makes no difference to a scanner that may skip one.
    have hpush : ∀ skip, Scan.push cr lf ⟨([] : List α), skip⟩ d =
        Scan.push cr lf ⟨[], false⟩ d := by
      intro skip
      simp [Scan.push, hd]
    rw [scan] at ih
    simp [scan, push_break line (.inl rfl), hpush true, ← ih]
  | case6 line d rest hc ih =>
    simp [scan, push_break line (.inr rfl), hc, ← ih]
  | case7 line c d rest hcr hlf ih =>
    simp [scan, push_other line false hcr hlf, ← ih]

end Scan

/-- The line begun only stands before the first line. -/
theorem terminated_begun {cr lf : α} (line more text : List α) :
    terminated cr lf (line ++ more) text =
      match terminated cr lf more text with
      | [] => []
      | first :: others => (line ++ first) :: others := by
  fun_induction terminated cr lf more text with
  | case1 => rfl
  | case2 more c h => simp [terminated, h]
  | case3 more c h => simp [terminated, h]
  | case4 more rest ih => simp [terminated]
  | case5 more d rest hd ih => simp [terminated, hd]
  | case6 more d rest hc ih => simp [terminated, hc]
  | case7 more c d rest hcr hlf ih => simp [terminated, hcr, hlf, ← ih]

/-- The first line is what the text starts with. -/
theorem terminated_isPrefix {cr lf : α} {line text first : List α} {others : List (List α)}
    (h : terminated cr lf line text = first :: others) : first <+: line ++ text := by
  fun_induction terminated cr lf line text with
  | case1 => exact absurd h (List.cons_ne_nil _ _).symm
  | case2 line c _ =>
    obtain rfl := (List.cons.inj h).1
    exact List.prefix_append _ _
  | case3 => exact absurd h (List.cons_ne_nil _ _).symm
  | case4 | case5 | case6 =>
    obtain rfl := (List.cons.inj h).1
    exact List.prefix_append _ _
  | case7 line c d rest hcr hlf ih =>
    rw [List.append_cons]
    exact ih h

/-- A character that ends no line at the start of a text is the start of its
first line. -/
theorem terminated_cons {cr lf c : α} (hcr : c ≠ cr) (hlf : c ≠ lf) (text : List α) :
    terminated cr lf [] (c :: text) = (terminated cr lf [] text).modifyHead (c :: ·) := by
  have hbegun := @terminated_begun _ _ cr lf [c] [] text
  rw [List.append_nil] at hbegun
  have hstep : terminated cr lf [] (c :: text) = terminated cr lf [c] text := by
    cases text with
    | nil => simp [terminated, hcr, hlf]
    | cons d rest => simp [terminated, hcr, hlf]
  rw [hstep, hbegun]
  cases terminated cr lf [] text <;> rfl

end Gostman.Lib

/-!
# Texts made of lines

`ended` writes lines one after another, each with its line end, and
`List.splitOn` finds them again.
-/

namespace Gostman.Lib

variable {α : Type*}

def ended (lf : α) (lines : List (List α)) : List α :=
  lines.flatMap fun line => line ++ [lf]

theorem ended_nil (lf : α) : ended lf [] = [] := rfl

theorem ended_cons (lf : α) (line : List α) (rest : List (List α)) :
    ended lf (line :: rest) = line ++ lf :: ended lf rest := by
  simp [ended]

theorem ended_append (lf : α) (first second : List (List α)) :
    ended lf (first ++ second) = ended lf first ++ ended lf second :=
  List.flatMap_append

theorem ended_flatMap {β : Type*} (lf : α) (items : List β) (linesOf : β → List (List α)) :
    ended lf (items.flatMap linesOf) = items.flatMap fun item => ended lf (linesOf item) :=
  List.flatMap_assoc ..

/-- Lines put together with line ends between them, and one at the end. -/
theorem intercalate_concat (lf : α) {lines : List (List α)} (h : lines ≠ []) :
    [lf].intercalate lines ++ [lf] = ended lf lines := by
  induction lines with
  | nil => exact absurd rfl h
  | cons line rest ih =>
    cases rest with
    | nil => simp [ended, List.intercalate]
    | cons next rest =>
      rw [List.intercalate_cons_cons, ended_cons, ← ih (List.cons_ne_nil _ _)]
      simp

/-- Lines put together with line ends between them, by the last one. -/
theorem intercalate_append_singleton (lf : α) (lines : List (List α)) (last : List α) :
    [lf].intercalate (lines ++ [last]) = ended lf lines ++ last := by
  induction lines with
  | nil => simp [ended]
  | cons line rest ih =>
    rw [List.cons_append, ended_cons]
    cases hrest : rest ++ [last] with
    | nil => simp at hrest
    | cons next more =>
      rw [List.intercalate_cons_cons, ← hrest, ih]
      simp

theorem infix_intercalate (lf : α) {lines : List (List α)} {line : List α} (h : line ∈ lines) :
    line <:+: [lf].intercalate lines := by
  induction lines with
  | nil => cases h
  | cons first rest ih =>
    cases rest with
    | nil =>
      have hline : line = first := List.mem_singleton.1 h
      rw [List.intercalate_singleton]
      exact hline ▸ List.infix_refl _
    | cons next rest =>
      rw [List.intercalate_cons_cons]
      rcases List.mem_cons.1 h with rfl | hrest
      · exact ((List.prefix_append ..).trans (List.prefix_append ..)).isInfix
      · exact (ih hrest).trans (List.suffix_append ..).isInfix

/-- What is written line by line is read line by line. -/
theorem splitOn_ended [DecidableEq α] {lf : α} {lines : List (List α)} (h : ∀ line ∈ lines, lf ∉ line) :
    (ended lf lines).splitOn lf = lines ++ [[]] := by
  induction lines with
  | nil => rfl
  | cons line rest ih =>
    rw [ended_cons, List.splitOn_append_cons_self_of_not_mem (h line (by simp)),
      ih fun other hother => h other (by simp [hother]), List.cons_append]

/-- A line that was split off has no line end in it, and only characters of the text. -/
theorem mem_splitOn [DecidableEq α] {lf : α} {text line : List α} (h : line ∈ text.splitOn lf) :
    ∀ a ∈ line, a ∈ text ∧ a ≠ lf := by
  induction text generalizing line with
  | nil =>
    obtain rfl : line = [] := by simpa using h
    simp
  | cons c rest ih =>
    rw [List.splitOn_cons_eq_if_modifyHead] at h
    have hrest : ∀ {other}, other ∈ rest.splitOn lf → ∀ a ∈ other, a ∈ c :: rest ∧ a ≠ lf := by
      intro other hother a ha
      exact ⟨List.mem_cons_of_mem _ (ih hother a ha).1, (ih hother a ha).2⟩
    split_ifs at h with hc
    · rcases List.mem_cons.1 h with rfl | hmem
      · simp
      · exact hrest hmem
    · obtain ⟨first, others, hsplit⟩ := List.exists_cons_of_ne_nil (List.splitOn_ne_nil lf rest)
      rw [hsplit] at h hrest
      rcases List.mem_cons.1 h with rfl | hmem
      · intro a ha
        rcases List.mem_cons.1 ha with rfl | hfirst
        · exact ⟨List.mem_cons_self .., by simpa using hc⟩
        · exact hrest (List.mem_cons_self ..) a hfirst
      · exact hrest (List.mem_cons_of_mem _ hmem)

theorem mem_intercalate {sep : List α} {lines : List (List α)} {a : α}
    (h : a ∈ sep.intercalate lines) : a ∈ sep ∨ ∃ line ∈ lines, a ∈ line := by
  induction lines with
  | nil => simp at h
  | cons line rest ih =>
    cases rest with
    | nil => exact .inr ⟨line, by simp, by simpa using h⟩
    | cons next rest =>
      rw [List.intercalate_cons_cons, List.mem_append, List.mem_append] at h
      rcases h with (hline | hsep) | hrest
      · exact .inr ⟨line, by simp, hline⟩
      · exact .inl hsep
      · rcases ih hrest with hsep | ⟨other, hother, ha⟩
        · exact .inl hsep
        · exact .inr ⟨other, List.mem_cons_of_mem _ hother, ha⟩

end Gostman.Lib
