import Gostman.Lib.CommonSublist
/-!
# The difference of two texts, line by line (`lib/lineDiff.js`)

Texts are lists of UTF-16 units.  The table of the lengths of common sublists
is one array, row after row, as in the source; its numbers stay far below the
bound of its 32 bits, since it is only built for `cellLimit` cells.
-/

namespace Gostman.Diff

open Gostman.Lib

def cellLimit : Nat := 4000000

abbrev Line := List UInt16

def newline : UInt16 := 10

/-- The markers of a line: a blank, `-` and `+`. -/
inductive Marker
  | kept
  | removed
  | added
deriving DecidableEq, Repr

structure Marked (α : Type) where
  marker : Marker
  text : α
deriving DecidableEq, Repr

def splitLines (text : Line) : List Line :=
  if text = [] then []
  else
    let lines := text.splitOn newline
    if lines.getLast? = some [] then lines.dropLast else lines

section Lists

variable {α : Type} [DecidableEq α]

def commonStart (a b : List α) (start : Nat) : Nat :=
  if start < a.length ∧ start < b.length ∧ a[start]? = b[start]? then commonStart a b (start + 1) else start
termination_by a.length - start

def commonEnd (a b : List α) (start stop : Nat) : Nat :=
  if stop < a.length - start ∧ stop < b.length - start ∧
      a[a.length - 1 - stop]? = b[b.length - 1 - stop]? then commonEnd a b start (stop + 1)
  else stop
termination_by a.length - start - stop

/-- How many lines both begin with, and how many of the others both end with. -/
def commonEdges (a b : List α) : Nat × Nat :=
  (commonStart a b 0, commonEnd a b (commonStart a b 0) 0)

def slice (list : List α) (start stop : Nat) : List α :=
  (list.take stop).drop start

def cell (a b : List α) (table : Array Nat) (i j : Nat) : Nat :=
  let width := b.length + 1
  if a[i]? = b[j]? then table.getD ((i + 1) * width + j + 1) 0 + 1
  else max (table.getD ((i + 1) * width + j) 0) (table.getD (i * width + j + 1) 0)

/-- The inner loop of `lcsTable`: the columns below `j`, the last of them first. -/
def fillRow (a b : List α) (i : Nat) (table : Array Nat) : Nat → Array Nat
  | 0 => table
  | j + 1 => fillRow a b i (table.setIfInBounds (i * (b.length + 1) + j) (cell a b table i j)) j

/-- The outer loop of `lcsTable`: the rows below `i`, the last of them first. -/
def fillRows (a b : List α) (table : Array Nat) : Nat → Array Nat
  | 0 => table
  | i + 1 => fillRows a b (fillRow a b i table b.length) i

def lcsTable (a b : List α) : Array Nat :=
  fillRows a b (Array.replicate ((a.length + 1) * (b.length + 1)) 0) a.length

def walkFrom (a b : List α) (table : Array Nat) (i j : Nat) : List (Marked α) :=
  if h : i < a.length ∧ j < b.length then
    if a[i] = b[j] then ⟨.kept, a[i]⟩ :: walkFrom a b table (i + 1) (j + 1)
    else if table.getD ((i + 1) * (b.length + 1) + j) 0 ≥ table.getD (i * (b.length + 1) + j + 1) 0 then
      ⟨.removed, a[i]⟩ :: walkFrom a b table (i + 1) j
    else ⟨.added, b[j]⟩ :: walkFrom a b table i (j + 1)
  else (a.drop i).map (Marked.mk .removed) ++ (b.drop j).map (Marked.mk .added)
termination_by a.length - i + (b.length - j)

def walk (a b : List α) : List (Marked α) :=
  if a.length * b.length > cellLimit then a.map (Marked.mk .removed) ++ b.map (Marked.mk .added)
  else walkFrom a b (lcsTable a b) 0 0

/-- The lines left where both ends that are common are gone. -/
def leftOver (a b : List α) : List α × List α :=
  let (start, stop) := commonEdges a b
  (slice a start (a.length - stop), slice b start (b.length - stop))

def diffOf (a b : List α) : List (Marked α) :=
  let (start, stop) := commonEdges a b
  let head := (a.take start).map (Marked.mk .kept)
  let tail := (a.drop (a.length - stop)).map (Marked.mk .kept)
  head ++ walk (leftOver a b).1 (leftOver a b).2 ++ (if stop > 0 then tail else [])

end Lists

def diffLines (before after : Line) : List (Marked Line) :=
  diffOf (splitLines before) (splitLines after)

/-! ## What the marks say -/

section Marks

variable {α : Type}

def without (marker : Marker) (lines : List (Marked α)) : List α :=
  (lines.filter (·.marker ≠ marker)).map Marked.text

def keptCount (lines : List (Marked α)) : Nat :=
  lines.countP (·.marker = .kept)

theorem without_append (marker : Marker) (first second : List (Marked α)) :
    without marker (first ++ second) = without marker first ++ without marker second := by
  simp [without]

theorem without_map_same (marker : Marker) (lines : List α) : without marker (lines.map (Marked.mk marker)) = [] := by
  simp [without]

theorem without_map_other {marker other : Marker} (h : other ≠ marker) (lines : List α) :
    without marker (lines.map (Marked.mk other)) = lines := by
  have hmap : (Marked.text ∘ Marked.mk other : α → α) = id := rfl
  simp [without, List.filter_map, Function.comp_def, h]

theorem without_cons_same (marker : Marker) (line : α) (lines : List (Marked α)) :
    without marker (⟨marker, line⟩ :: lines) = without marker lines := by
  simp [without]

theorem without_cons_other {marker other : Marker} (h : other ≠ marker) (line : α) (lines : List (Marked α)) :
    without marker (⟨other, line⟩ :: lines) = line :: without marker lines := by
  simp [without, h]

theorem keptCount_append (first second : List (Marked α)) :
    keptCount (first ++ second) = keptCount first + keptCount second :=
  List.countP_append

theorem keptCount_map_kept (lines : List α) : keptCount (lines.map (Marked.mk .kept)) = lines.length := by
  simp [keptCount, List.countP_map, Function.comp_def]

theorem keptCount_map_other {marker : Marker} (h : marker ≠ .kept) (lines : List α) :
    keptCount (lines.map (Marked.mk marker)) = 0 := by
  simp [keptCount, List.countP_map, Function.comp_def, h]

structure Faithful (a b : List α) (lines : List (Marked α)) : Prop where
  before : without .added lines = a
  after : without .removed lines = b

theorem Faithful.append {a b a' b' : List α} {first second : List (Marked α)} (h : Faithful a b first)
    (h' : Faithful a' b' second) : Faithful (a ++ a') (b ++ b') (first ++ second) := by
  constructor
  · rw [without_append, h.before, h'.before]
  · rw [without_append, h.after, h'.after]

theorem Faithful.kept (lines : List α) : Faithful lines lines (lines.map (Marked.mk .kept)) := by
  constructor
  · exact without_map_other (by decide) lines
  · exact without_map_other (by decide) lines

theorem Faithful.apart (a b : List α) : Faithful a b (a.map (Marked.mk .removed) ++ b.map (Marked.mk .added)) := by
  constructor
  · rw [without_append, without_map_other (by decide), without_map_same, List.append_nil]
  · rw [without_append, without_map_same, without_map_other (by decide), List.nil_append]

end Marks

/-! ## The table -/

section Table

variable {α : Type} [DecidableEq α] {a b : List α}

def entry (a b : List α) (i j : Nat) : Nat :=
  commonLength (a.drop i) (b.drop j)

theorem entry_last_row (a b : List α) (j : Nat) : entry a b a.length j = 0 := by
  rw [entry, List.drop_length, commonLength_nil_left]

theorem entry_last_column (a b : List α) (i : Nat) : entry a b i b.length = 0 := by
  rw [entry, List.drop_length, commonLength_nil_right]

theorem entry_step {i j : Nat} (hi : i < a.length) (hj : j < b.length) :
    entry a b i j =
      if a[i] = b[j] then entry a b (i + 1) (j + 1) + 1 else max (entry a b (i + 1) j) (entry a b i (j + 1)) := by
  unfold entry
  rw [List.drop_eq_getElem_cons hi, List.drop_eq_getElem_cons hj, commonLength_cons_cons]

/-- The cells that are done before row `i`, column `j` is filled. -/
def Done (a b : List α) (i j i' j' : Nat) : Prop :=
  j' ≤ b.length ∧ (i < i' ∧ i' ≤ a.length ∨ i' = i ∧ j ≤ j' ∨ j' = b.length ∧ i' ≤ a.length)

structure Filled (a b : List α) (table : Array Nat) (i j : Nat) : Prop where
  size : table.size = (a.length + 1) * (b.length + 1)
  holds : ∀ i' j', Done a b i j i' j' → table.getD (i' * (b.length + 1) + j') 0 = entry a b i' j'

theorem index_lt {i j height width : Nat} (hi : i < height) (hj : j < width) : i * width + j < height * width := by
  calc i * width + j < i * width + width := by omega
    _ = (i + 1) * width := (Nat.succ_mul i width).symm
    _ ≤ height * width := Nat.mul_le_mul_right width hi

theorem index_inj {i j i' j' width : Nat} (hj : j < width) (hj' : j' < width) (h : i * width + j = i' * width + j') :
    i = i' ∧ j = j' := by
  have hwidth : 0 < width := by omega
  have hrow : ∀ {r c : Nat}, c < width → (r * width + c) / width = r := by
    intro r c hc
    rw [Nat.add_comm, Nat.add_mul_div_right _ _ hwidth, Nat.div_eq_of_lt hc, Nat.zero_add]
  have hi : i = i' := by rw [← @hrow i j hj, h, hrow hj']
  subst hi
  exact ⟨rfl, by omega⟩

theorem cell_eq_entry {table : Array Nat} {i j : Nat} (h : Filled a b table i (j + 1)) (hi : i < a.length)
    (hj : j < b.length) : cell a b table i j = entry a b i j := by
  have hdiagonal := h.holds (i + 1) (j + 1) ⟨hj, .inl ⟨Nat.lt_succ_self i, hi⟩⟩
  have hbelow := h.holds (i + 1) j ⟨hj.le, .inl ⟨Nat.lt_succ_self i, hi⟩⟩
  have hright := h.holds i (j + 1) ⟨hj, .inr (.inl ⟨rfl, le_rfl⟩)⟩
  rw [← Nat.add_assoc] at hdiagonal hright
  rw [entry_step hi hj, cell]
  simp only [List.getElem?_eq_getElem hi, List.getElem?_eq_getElem hj, Option.some.injEq]
  rw [hdiagonal, hbelow, hright]

theorem filled_set {table : Array Nat} {i j : Nat} (h : Filled a b table i (j + 1)) (hi : i < a.length)
    (hj : j < b.length) :
    Filled a b (table.setIfInBounds (i * (b.length + 1) + j) (cell a b table i j)) i j := by
  have hbound : i * (b.length + 1) + j < table.size := by
    rw [h.size]
    exact index_lt (by omega) (by omega)
  constructor
  · rw [Array.size_setIfInBounds, h.size]
  · intro i' j' hdone
    rw [Array.getD_eq_getD_getElem?, Array.getElem?_setIfInBounds]
    split_ifs with hsame
    · obtain ⟨rfl, rfl⟩ := index_inj (by omega) (Nat.lt_succ_of_le hdone.1) hsame
      rw [Option.getD_some, cell_eq_entry h hi hj]
    · rw [← Array.getD_eq_getD_getElem?]
      apply h.holds
      obtain ⟨hcolumn, hrow⟩ := hdone
      refine ⟨hcolumn, ?_⟩
      by_cases hj' : i' = i ∧ j' = j
      · obtain ⟨rfl, rfl⟩ := hj'
        exact absurd rfl hsame
      · omega

theorem filled_row {table : Array Nat} {i : Nat} (hi : i < a.length) (j : Nat) (hj : j ≤ b.length)
    (h : Filled a b table i j) : Filled a b (fillRow a b i table j) i 0 := by
  induction j generalizing table with
  | zero => exact h
  | succ j ih => exact ih (by omega) (filled_set h hi hj)

theorem filled_rows {table : Array Nat} (i : Nat) (hi : i ≤ a.length) (h : Filled a b table i 0) :
    Filled a b (fillRows a b table i) 0 0 := by
  induction i generalizing table with
  | zero => exact h
  | succ i ih =>
      apply ih (by omega)
      apply filled_row hi b.length le_rfl
      constructor
      · exact h.size
      · intro i' j' hdone
        apply h.holds
        obtain ⟨hcolumn, hrow⟩ := hdone
        exact ⟨hcolumn, by omega⟩

/-- The table holds the length of a longest common sublist for each pair of ends. -/
theorem lcsTable_getD {i j : Nat} (hi : i ≤ a.length) (hj : j ≤ b.length) :
    (lcsTable a b).getD (i * (b.length + 1) + j) 0 = entry a b i j := by
  have hempty : Filled a b (Array.replicate ((a.length + 1) * (b.length + 1)) 0) a.length 0 := by
    constructor
    · exact Array.size_replicate
    · intro i' j' hdone
      have hzero : entry a b i' j' = 0 := by
        by_cases hrow : i' = a.length
        · rw [hrow, entry_last_row]
        · have hcolumn : j' = b.length := by
            obtain ⟨-, hdone⟩ := hdone
            omega
          rw [hcolumn, entry_last_column]
      rw [hzero, Array.getD_eq_getD_getElem?, Array.getElem?_replicate]
      split_ifs <;> rfl
  apply (filled_rows a.length le_rfl hempty).holds
  exact ⟨hj, by omega⟩

end Table

/-! ## The walk -/

section Walk

variable {α : Type} [DecidableEq α] {a b : List α}

theorem walkFrom_faithful (a b : List α) (table : Array Nat) (i j : Nat) :
    Faithful (a.drop i) (b.drop j) (walkFrom a b table i j) := by
  fun_induction walkFrom a b table i j with
  | case1 i j h hsame ih =>
      rw [List.drop_eq_getElem_cons h.1, List.drop_eq_getElem_cons h.2]
      constructor
      · rw [without_cons_other (by decide), ih.before]
      · rw [without_cons_other (by decide), ih.after, hsame]
  | case2 i j h hother hstep ih =>
      rw [List.drop_eq_getElem_cons h.1]
      constructor
      · rw [without_cons_other (by decide), ih.before]
      · rw [without_cons_same, ih.after]
  | case3 i j h hother hstep ih =>
      rw [List.drop_eq_getElem_cons h.2]
      constructor
      · rw [without_cons_same, ih.before]
      · rw [without_cons_other (by decide), ih.after]
  | case4 i j h => exact Faithful.apart _ _

/-- The walk keeps as many lines as its table promises. -/
theorem walkFrom_keptCount (a b : List α) (i j : Nat) :
    keptCount (walkFrom a b (lcsTable a b) i j) = entry a b i j := by
  fun_induction walkFrom a b (lcsTable a b) i j with
  | case1 i j h hsame ih =>
      rw [entry_step h.1 h.2, if_pos hsame, ← ih]
      simp [keptCount]
  | case2 i j h hother hstep ih =>
      rw [Nat.add_assoc, lcsTable_getD h.1 h.2.le, lcsTable_getD h.1.le h.2] at hstep
      rw [entry_step h.1 h.2, if_neg hother, max_eq_left hstep, ← ih]
      simp [keptCount]
  | case3 i j h hother hstep ih =>
      rw [Nat.add_assoc, lcsTable_getD h.1 h.2.le, lcsTable_getD h.1.le h.2] at hstep
      rw [entry_step h.1 h.2, if_neg hother, max_eq_right (not_le.1 hstep).le, ← ih]
      simp [keptCount]
  | case4 i j h =>
      rw [keptCount_append, keptCount_map_other (by decide), keptCount_map_other (by decide), entry]
      rcases Nat.lt_or_ge i a.length with hi | hi
      · have hj : b.length ≤ j := not_lt.1 fun hj => h ⟨hi, hj⟩
        rw [List.drop_eq_nil_of_le hj, commonLength_nil_right]
      · rw [List.drop_eq_nil_of_le hi, commonLength_nil_left]

theorem walk_faithful (a b : List α) : Faithful a b (walk a b) := by
  unfold walk
  split_ifs
  · exact Faithful.apart a b
  · exact walkFrom_faithful a b (lcsTable a b) 0 0

theorem walk_keptCount (h : a.length * b.length ≤ cellLimit) : keptCount (walk a b) = commonLength a b := by
  rw [walk, if_neg (not_lt.2 h), walkFrom_keptCount]
  rfl

end Walk

/-! ## The whole difference -/

section Whole

variable {α : Type} [DecidableEq α] {a b : List α}

theorem commonStart_spec (a b : List α) (start : Nat) (h : start ≤ a.length ∧ start ≤ b.length)
    (hsame : a.take start = b.take start) :
    commonStart a b start ≤ a.length ∧ commonStart a b start ≤ b.length ∧
      a.take (commonStart a b start) = b.take (commonStart a b start) := by
  fun_induction commonStart a b start with
  | case1 start hstep ih =>
      apply ih ⟨hstep.1, hstep.2.1⟩
      rw [List.take_add_one, List.take_add_one, hsame, hstep.2.2]
  | case2 start _ => exact ⟨h.1, h.2, hsame⟩

theorem commonEnd_spec (a b : List α) (start stop : Nat) (h : stop ≤ a.length - start ∧ stop ≤ b.length - start)
    (hsame : a.drop (a.length - stop) = b.drop (b.length - stop)) :
    commonEnd a b start stop ≤ a.length - start ∧ commonEnd a b start stop ≤ b.length - start ∧
      a.drop (a.length - commonEnd a b start stop) = b.drop (b.length - commonEnd a b start stop) := by
  fun_induction commonEnd a b start stop with
  | case1 stop hstep ih =>
      apply ih ⟨hstep.1, hstep.2.1⟩
      obtain ⟨ha, hb, hlast⟩ := hstep
      have hline : ∀ {list : List α}, stop < list.length →
          list.drop (list.length - (stop + 1)) = list[list.length - 1 - stop]?.toList ++ list.drop (list.length - stop) := by
        intro list hlist
        have hindex : list.length - (stop + 1) = list.length - 1 - stop := by omega
        rw [hindex, List.drop_eq_getElem_cons (by omega), List.getElem?_eq_getElem (by omega)]
        have hnext : list.length - 1 - stop + 1 = list.length - stop := by omega
        rw [hnext]
        rfl
      rw [hline (by omega), hline (by omega), hlast, hsame]
  | case2 stop _ => exact ⟨h.1, h.2, hsame⟩

/-- Both lists are what is left over, between lines they have in common. -/
theorem common_ends (a b : List α) :
    ∃ lead last : List α, lead = a.take (commonEdges a b).1 ∧ last = a.drop (a.length - (commonEdges a b).2) ∧
      a = lead ++ (leftOver a b).1 ++ last ∧ b = lead ++ (leftOver a b).2 ++ last := by
  obtain ⟨hstarta, hstartb, hlead⟩ := commonStart_spec a b 0 ⟨Nat.zero_le _, Nat.zero_le _⟩ rfl
  obtain ⟨henda, hendb, hlast⟩ := commonEnd_spec a b (commonStart a b 0) 0 ⟨Nat.zero_le _, Nat.zero_le _⟩ (by simp)
  have hparts : ∀ {list : List α} {start stop : Nat}, start ≤ stop → stop ≤ list.length →
      list = list.take start ++ slice list start stop ++ list.drop stop := by
    intro list start stop hstart hstop
    have hfirst : list.take start = (list.take stop).take start := by rw [List.take_take, min_eq_left hstart]
    rw [slice, hfirst, List.take_append_drop, List.take_append_drop]
  refine ⟨_, _, rfl, rfl, ?_, ?_⟩
  · change a = a.take (commonStart a b 0) ++ _ ++ a.drop (a.length - commonEnd a b (commonStart a b 0) 0)
    exact hparts (by omega) (by omega)
  · change b = a.take (commonStart a b 0) ++ _ ++ a.drop (a.length - commonEnd a b (commonStart a b 0) 0)
    rw [hlead, hlast]
    exact hparts (by omega) (by omega)

/-- The difference, from what is common at both ends. -/
theorem diffOf_eq (a b : List α) :
    diffOf a b =
      (a.take (commonEdges a b).1).map (Marked.mk .kept) ++ walk (leftOver a b).1 (leftOver a b).2 ++
        (a.drop (a.length - (commonEdges a b).2)).map (Marked.mk .kept) := by
  unfold diffOf
  dsimp only
  split_ifs with hstop
  · rfl
  · rw [Nat.eq_zero_of_not_pos hstop, Nat.sub_zero, List.drop_length, List.map_nil]

theorem diffOf_faithful (a b : List α) : Faithful a b (diffOf a b) := by
  obtain ⟨lead, last, hlead, hlast, ha, hb⟩ := common_ends a b
  have h := ((Faithful.kept lead).append (walk_faithful (leftOver a b).1 (leftOver a b).2)).append (Faithful.kept last)
  rw [← ha, ← hb, hlead, hlast] at h
  rw [diffOf_eq]
  exact h

theorem diffOf_keptCount (h : (leftOver a b).1.length * (leftOver a b).2.length ≤ cellLimit) :
    keptCount (diffOf a b) = commonLength a b := by
  obtain ⟨lead, last, hlead, hlast, ha, hb⟩ := common_ends a b
  have hcommon : commonLength a b = lead.length + commonLength (leftOver a b).1 (leftOver a b).2 + last.length := by
    calc commonLength a b = commonLength (lead ++ (leftOver a b).1 ++ last) (lead ++ (leftOver a b).2 ++ last) :=
          congrArg₂ commonLength ha hb
      _ = _ := by rw [commonLength_append_right, commonLength_append_left]
  rw [hcommon, diffOf_eq, ← hlead, ← hlast, keptCount_append, keptCount_append, keptCount_map_kept, keptCount_map_kept,
    walk_keptCount h]

end Whole

/-- The marks give back both texts, and no difference keeps more lines, where
the lines left over are few enough for the table. -/
theorem diffLines_faithful_and_minimal (before after : Line) :
    without .added (diffLines before after) = splitLines before ∧
      without .removed (diffLines before after) = splitLines after ∧
        ((leftOver (splitLines before) (splitLines after)).1.length *
            (leftOver (splitLines before) (splitLines after)).2.length ≤ cellLimit →
          IsGreatest (commonLengths (splitLines before) (splitLines after)) (keptCount (diffLines before after))) := by
  have hfaithful := diffOf_faithful (splitLines before) (splitLines after)
  refine ⟨hfaithful.before, hfaithful.after, ?_⟩
  intro h
  rw [diffLines, diffOf_keptCount h]
  exact commonLength_isGreatest (splitLines before) (splitLines after)

/-- Of the lines a, b, c and b, c, a two are kept. -/
theorem two_lines_kept :
    without .added (diffLines [97, 10, 98, 10, 99] [98, 10, 99, 10, 97]) = splitLines [97, 10, 98, 10, 99] ∧
      IsGreatest (commonLengths (splitLines [97, 10, 98, 10, 99]) (splitLines [98, 10, 99, 10, 97]))
        (keptCount (diffLines [97, 10, 98, 10, 99] [98, 10, 99, 10, 97])) ∧
          keptCount (diffLines [97, 10, 98, 10, 99] [98, 10, 99, 10, 97]) = 2 := by
  have h := diffLines_faithful_and_minimal [97, 10, 98, 10, 99] [98, 10, 99, 10, 97]
  exact ⟨h.1, h.2.2 (by decide +kernel), by decide +kernel⟩

end Gostman.Diff
