import Mathlib.Data.Fintype.Pigeonhole
import Mathlib.Data.List.Basic
import Mathlib.Logic.Function.Iterate
import Mathlib.Logic.Relation
/-!
# Putting items after those they use

Round by round the items that use none of those left are taken out.  What is
left in the end are the items that lead to a cycle.
-/

namespace Gostman.Lib.Peel

open Relation

variable {α : Type*} {uses : α → α → Prop} [DecidableRel uses]

section Rounds

variable (uses)

def waits (items : List α) (a : α) : Bool :=
  items.any fun b => uses a b

def peel : Nat → List α → List α → List α × List α
  | 0, waiting, order => (order, waiting)
  | rounds + 1, waiting, order =>
      let ready := waiting.filter fun a => !waits uses waiting a
      if ready = [] then (order, waiting)
      else peel rounds (waiting.filter (waits uses waiting)) (order ++ ready)

end Rounds

theorem waits_iff {items : List α} {a : α} : waits uses items a = true ↔ ∃ b ∈ items, uses a b := by
  unfold waits
  rw [List.any_eq_true]
  simp only [decide_eq_true_eq]

theorem mem_ready {waiting : List α} {a : α} :
    a ∈ waiting.filter (fun a => !waits uses waiting a) ↔ a ∈ waiting ∧ ∀ b ∈ waiting, ¬ uses a b := by
  rw [List.mem_filter, Bool.not_eq_true', Bool.eq_false_iff, Ne, waits_iff]
  push Not
  rfl

theorem length_waiting {waiting : List α} (h : waiting.filter (fun a => !waits uses waiting a) ≠ []) :
    (waiting.filter (waits uses waiting)).length < waiting.length := by
  obtain ⟨a, ha⟩ := List.exists_mem_of_ne_nil _ h
  obtain ⟨hmem, hready⟩ := List.mem_filter.1 ha
  apply List.length_filter_lt_length_iff_exists.2
  exact ⟨a, hmem, by simpa using hready⟩

/-- As many rounds as there are items are enough. -/
theorem peel_enough {rounds more : Nat} {waiting : List α} (order : List α) (h : waiting.length ≤ rounds)
    (hmore : waiting.length ≤ more) : peel uses rounds waiting order = peel uses more waiting order := by
  induction rounds generalizing more waiting order with
  | zero =>
    have hnil : waiting = [] := List.length_eq_zero_iff.1 (Nat.le_zero.1 h)
    rw [hnil]
    cases more <;> rfl
  | succ rounds ih =>
    cases more with
    | zero =>
      have hnil : waiting = [] := List.length_eq_zero_iff.1 (Nat.le_zero.1 hmore)
      rw [hnil]
      rfl
    | succ more =>
      rw [peel, peel]
      split_ifs with hready
      · rfl
      · have hlength := length_waiting hready
        exact ih _ (by omega) (by omega)

theorem peel_perm (rounds : Nat) (waiting order : List α) :
    ((peel uses rounds waiting order).1 ++ (peel uses rounds waiting order).2).Perm (order ++ waiting) := by
  induction rounds generalizing waiting order with
  | zero => exact .refl _
  | succ rounds ih =>
    rw [peel]
    split_ifs with hready
    · exact .refl _
    · apply (ih _ _).trans
      rw [List.append_assoc]
      apply List.Perm.append_left
      have hsplit := List.filter_append_perm (waits uses waiting) waiting
      exact List.perm_append_comm.trans hsplit

/-- In the end each item left uses an item left. -/
theorem exists_uses_of_left {rounds : Nat} {waiting : List α} (order : List α) (h : waiting.length ≤ rounds) :
    ∀ a ∈ (peel uses rounds waiting order).2, ∃ b ∈ (peel uses rounds waiting order).2, uses a b := by
  induction rounds generalizing waiting order with
  | zero =>
    intro a ha
    have hnil : waiting = [] := List.length_eq_zero_iff.1 (Nat.le_zero.1 h)
    rw [hnil] at ha
    cases ha
  | succ rounds ih =>
    rw [peel]
    split_ifs with hready
    · intro a ha
      by_contra hnone
      have hmem : a ∈ waiting.filter (fun a => !waits uses waiting a) := by
        rw [mem_ready]
        exact ⟨ha, fun b hb huses => hnone ⟨b, hb, huses⟩⟩
      rw [hready] at hmem
      cases hmem
    · have hlength := length_waiting hready
      exact ih _ (by omega)

/-! ## The order -/

def After (uses : α → α → Prop) (items order : List α) : Prop :=
  ∀ before a after, order = before ++ a :: after → ∀ b ∈ items, uses a b → b ∈ before

omit [DecidableRel uses] in
theorem After.append {items order ready : List α} (h : After uses items order)
    (hready : ∀ a ∈ ready, ∀ b ∈ items, uses a b → b ∈ order) : After uses items (order ++ ready) := by
  intro before a after hsplit b hb huses
  rcases List.append_eq_append_iff.1 hsplit with ⟨middle, hbefore, hrest⟩ | ⟨middle, horder, hrest⟩
  · rw [hbefore]
    apply List.mem_append_left
    have ha : a ∈ ready := by
      rw [hrest]
      exact List.mem_append_right _ List.mem_cons_self
    exact hready a ha b hb huses
  · cases middle with
    | nil =>
      rw [List.append_nil] at horder
      have ha : a ∈ ready := by
        rw [← List.nil_append ready, ← hrest]
        exact List.mem_cons_self
      rw [← horder]
      exact hready a ha b hb huses
    | cons first middle =>
      cases hrest
      exact h before a middle horder b hb huses

theorem peel_after {rounds : Nat} {items waiting order : List α} (h : After uses items order)
    (hitems : ∀ b ∈ items, b ∈ order ∨ b ∈ waiting) : After uses items (peel uses rounds waiting order).1 := by
  induction rounds generalizing waiting order with
  | zero => exact h
  | succ rounds ih =>
    rw [peel]
    split_ifs with hready
    · exact h
    · apply ih
      · apply h.append
        intro a ha b hb huses
        rcases hitems b hb with horder | hwaiting
        · exact horder
        · exact absurd huses ((mem_ready.1 ha).2 b hwaiting)
      · intro b hb
        rcases hitems b hb with horder | hwaiting
        · exact .inl (List.mem_append_left _ horder)
        · by_cases hwaits : waits uses waiting b = true
          · exact .inr (List.mem_filter.2 ⟨hwaiting, hwaits⟩)
          · refine .inl (List.mem_append_right _ (List.mem_filter.2 ⟨hwaiting, ?_⟩))
            rw [Bool.not_eq_true', Bool.eq_false_iff]
            exact hwaits

/-! ## Cycles -/

def Uses (uses : α → α → Prop) (items : List α) (a b : α) : Prop :=
  a ∈ items ∧ b ∈ items ∧ uses a b

/-- Some item that is used, directly or not, uses itself, directly or not. -/
def Cyclic (uses : α → α → Prop) (items : List α) (a : α) : Prop :=
  ∃ c, ReflTransGen (Uses uses items) a c ∧ TransGen (Uses uses items) c c

omit [DecidableRel uses] in
/-- Among finitely many items one cannot go on for ever without coming back. -/
theorem cyclic_of_closed {items left : List α} (hsub : left ⊆ items) (h : ∀ a ∈ left, ∃ b ∈ left, uses a b) {a : α}
    (ha : a ∈ left) : Cyclic uses items a := by
  classical
  choose next hnext huses using h
  let step (x : {b // b ∈ left}) : {b // b ∈ left} := ⟨next x.1 x.2, hnext x.1 x.2⟩
  have hstep (x : {b // b ∈ left}) : Uses uses items x.1 (step x).1 := ⟨hsub x.2, hsub (step x).2, huses x.1 x.2⟩
  have hfinite : Finite {b // b ∈ left} := Finite.of_fintype _
  obtain ⟨m, n, hne, heq⟩ := Finite.exists_ne_map_eq_of_infinite fun n : Nat => step^[n] ⟨a, ha⟩
  have hreach (x : {b // b ∈ left}) (n : Nat) : ReflTransGen (Uses uses items) x.1 (step^[n] x).1 := by
    induction n with
    | zero => exact .refl
    | succ n ih =>
      rw [Function.iterate_succ_apply']
      exact ih.tail (hstep _)
  -- The walk comes to one item twice.
  have hloop {m n : Nat} (hlt : m < n) (heq : step^[m] ⟨a, ha⟩ = step^[n] ⟨a, ha⟩) : Cyclic uses items a := by
    refine ⟨(step^[m] ⟨a, ha⟩).1, hreach ⟨a, ha⟩ m, ?_⟩
    have hback : step^[n - m - 1] (step (step^[m] ⟨a, ha⟩)) = step^[m] ⟨a, ha⟩ := by
      rw [← Function.iterate_succ_apply' step, ← Function.iterate_add_apply, heq]
      congr 1
      omega
    have hrest := hreach (step (step^[m] ⟨a, ha⟩)) (n - m - 1)
    rw [hback] at hrest
    exact TransGen.head' (hstep _) hrest
  rcases Nat.lt_or_gt_of_ne hne with hlt | hgt
  · exact hloop hlt heq
  · exact hloop hgt heq.symm

omit [DecidableRel uses] in
/-- What an ordered item uses comes earlier in the order. -/
theorem After.idxOf_lt [DecidableEq α] {items order : List α} (h : After uses items order) {a b : α} (ha : a ∈ order)
    (huses : Uses uses items a b) : b ∈ order ∧ order.idxOf b < order.idxOf a := by
  obtain ⟨before, after, hsplit, hfirst⟩ := List.eq_append_cons_of_mem ha
  have hb := h before a after hsplit b huses.2.1 huses.2.2
  rw [hsplit, List.idxOf_append_of_mem hb, List.idxOf_append_of_notMem hfirst, List.idxOf_cons_self]
  exact ⟨List.mem_append_left _ hb, Nat.lt_of_lt_of_le (List.idxOf_lt_length_of_mem hb) (Nat.le_add_right _ _)⟩

omit [DecidableRel uses] in
theorem After.not_cyclic {items order : List α} (h : After uses items order) {a : α} (ha : a ∈ order) :
    ¬ Cyclic uses items a := by
  classical
  intro ⟨c, hreach, hcycle⟩
  have hstays {d : α} (hpath : ReflTransGen (Uses uses items) a d) : d ∈ order := by
    induction hpath with
    | refl => exact ha
    | tail _ huses ih => exact (h.idxOf_lt ih huses).1
  have hc := hstays hreach
  have hearlier {d : α} (hpath : TransGen (Uses uses items) c d) : d ∈ order ∧ order.idxOf d < order.idxOf c := by
    induction hpath with
    | single huses => exact h.idxOf_lt hc huses
    | tail _ huses ih =>
      have hnext := h.idxOf_lt ih.1 huses
      exact ⟨hnext.1, Nat.lt_trans hnext.2 ih.2⟩
  exact Nat.lt_irrefl _ (hearlier hcycle).2

/-- The items left are those that lead to a cycle. -/
theorem mem_left_iff {rounds : Nat} {items : List α} (h : items.length ≤ rounds) {a : α} :
    a ∈ (peel uses rounds items []).2 ↔ a ∈ items ∧ Cyclic uses items a := by
  have hperm : ((peel uses rounds items []).1 ++ (peel uses rounds items []).2).Perm items := peel_perm rounds items []
  have hsub : (peel uses rounds items []).2 ⊆ items := by
    intro b hb
    exact hperm.subset (List.mem_append_right _ hb)
  constructor
  · intro ha
    exact ⟨hsub ha, cyclic_of_closed hsub (exists_uses_of_left [] h) ha⟩
  · intro ⟨hmem, hcyclic⟩
    rcases List.mem_append.1 (hperm.symm.subset hmem) with horder | hleft
    · have hafter : After uses items (peel uses rounds items []).1 := by
        apply peel_after
        · intro before b after hnil
          simp at hnil
        · exact fun b hb => .inr hb
      exact absurd hcyclic (hafter.not_cyclic horder)
    · exact hleft

end Gostman.Lib.Peel
