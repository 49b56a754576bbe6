import Mathlib.Data.Fintype.EquivFin
import Mathlib.Data.Fintype.Sets
import Mathlib.Data.Set.Basic
import Gostman.Lib.Forest
/-!
# Breaking cycles

Items are taken one by one; an item whose way up comes to no end, or leads to
something unknown at once, is put at the top.  In the end every way up ends,
what was well placed stays where it was, and each cycle is broken at one link.
-/

namespace Gostman.Lib

variable {α : Type*} {up up' : α → Option α}

def Rooted (up : α → Option α) (start : Option α) : Prop :=
  ∃ count, Climbs up start count

theorem Rooted.step {a : α} (h : Rooted up (up a)) : Rooted up (some a) := by
  obtain ⟨count, hclimbs⟩ := h
  exact ⟨count + 1, .step hclimbs⟩

theorem Rooted.next {a : α} (h : Rooted up (some a)) : Rooted up (up a) := by
  obtain ⟨count, hclimbs⟩ := h
  cases hclimbs with
  | step hrest => exact ⟨_, hrest⟩

/-- What is above ends sooner, by as many levels as are between. -/
theorem Climbs.drop {a above : α} {count levels : Nat} (h : Climbs up (some a) count)
    (hbelow : Below up above levels a) : ∃ rest, Climbs up (some above) rest ∧ count = rest + levels := by
  induction levels generalizing a count with
  | zero =>
      have hsame : a = above := hbelow
      exact ⟨count, hsame ▸ h, rfl⟩
  | succ levels ih =>
      obtain ⟨next, hnext, hrest⟩ := hbelow
      cases h with
      | @step _ count hclimbs =>
          rw [hnext] at hclimbs
          obtain ⟨rest, hroot, hcount⟩ := ih hclimbs hrest
          exact ⟨rest, hroot, by omega⟩

/-- Nothing whose way up ends is above itself. -/
theorem Rooted.not_below_self {a : α} (h : Rooted up (some a)) (levels : Nat) : ¬ Below up a (levels + 1) a := by
  intro hbelow
  obtain ⟨count, hclimbs⟩ := h
  obtain ⟨rest, hroot, hcount⟩ := hclimbs.drop hbelow
  have hsame := hclimbs.unique hroot
  omega

/-- Putting items at the top leaves every way up ending. -/
theorem Rooted.of_cut {start : Option α} (h : Rooted up start) (hcut : ∀ a, up' a = up a ∨ up' a = none) :
    Rooted up' start := by
  obtain ⟨count, hclimbs⟩ := h
  induction hclimbs with
  | top => exact ⟨0, .top⟩
  | @step a count hrest ih =>
      apply Rooted.step
      rcases hcut a with hkept | htop
      · rw [hkept]
        exact ih
      · rw [htop]
        exact ⟨0, .top⟩

structure WellPlaced (up : α → Option α) (known : α → Prop) (a : α) : Prop where
  rooted : Rooted up (some a)
  known : ∀ b, OnWay up b (some a) → known b

theorem OnWay.self (a : α) : OnWay up a (some a) :=
  ⟨0, a, rfl, rfl⟩

theorem Below.trans {a b c : α} {first second : Nat} (h : Below up b first a) (h' : Below up c second b) :
    Below up c (first + second) a := by
  induction first generalizing a with
  | zero =>
      have hsame : a = b := h
      rw [hsame, Nat.zero_add]
      exact h'
  | succ first ih =>
      obtain ⟨next, hnext, hrest⟩ := h
      rw [Nat.add_right_comm]
      exact ⟨next, hnext, ih hrest⟩

theorem WellPlaced.above {known : α → Prop} {a b : α} (h : WellPlaced up known a) (hway : OnWay up b (some a)) :
    WellPlaced up known b := by
  obtain ⟨levels, a', ha, hbelow⟩ := hway
  rw [Option.some.injEq] at ha
  subst ha
  constructor
  · obtain ⟨count, hclimbs⟩ := h.rooted
    obtain ⟨rest, hroot, -⟩ := hclimbs.drop hbelow
    exact ⟨rest, hroot⟩
  · intro c hc
    obtain ⟨more, b', hb, hbelow'⟩ := hc
    rw [Option.some.injEq] at hb
    subst hb
    exact h.known c ⟨levels + more, a, rfl, hbelow.trans hbelow'⟩

/-- Where only finitely many items are below others and none is below itself, every way
up ends. -/
theorem rooted_of_acyclic {items : List α} (hitems : ∀ a, (up a).isSome → a ∈ items)
    (hacyclic : ∀ a levels, ¬ Below up a (levels + 1) a) (start : Option α) : Rooted up start := by
  classical
  let isAbove (b a : {a // a ∈ items}) : Prop := ∃ levels, Below up b.1 (levels + 1) a.1
  have : IsTrans _ isAbove := ⟨by
    rintro c b a ⟨second, hsecond⟩ ⟨first, hfirst⟩
    exact ⟨first + 1 + second, hfirst.trans hsecond⟩⟩
  have : Std.Irrefl isAbove := ⟨fun a ⟨levels, hbelow⟩ => hacyclic a.1 levels hbelow⟩
  have hwf : WellFounded isAbove := Finite.wellFounded_of_trans_of_irrefl isAbove
  have hlisted (a : {a // a ∈ items}) : Rooted up (some a.1) := by
    induction a using hwf.induction with
    | _ a ih =>
      apply Rooted.step
      cases hup : up a.1 with
      | none => exact ⟨0, .top⟩
      | some b =>
        by_cases hb : (up b).isSome
        · exact ih ⟨b, hitems b hb⟩ ⟨0, b, hup, rfl⟩
        · apply Rooted.step
          rw [Option.not_isSome_iff_eq_none.1 hb]
          exact ⟨0, .top⟩
  cases start with
  | none => exact ⟨0, .top⟩
  | some a =>
    by_cases ha : (up a).isSome
    · exact hlisted ⟨a, hitems a ha⟩
    · apply Rooted.step
      rw [Option.not_isSome_iff_eq_none.1 ha]
      exact ⟨0, .top⟩

/-- A cycle: each of its items is below another of them, and each leads to each. -/
structure IsCycle (up : α → Option α) (cycle : Set α) : Prop where
  nonempty : cycle.Nonempty
  closed : ∀ a ∈ cycle, ∃ b ∈ cycle, up a = some b
  leads : ∀ a ∈ cycle, ∀ b ∈ cycle, ∃ levels, Below up b levels a

theorem IsCycle.not_rooted {cycle : Set α} (h : IsCycle up cycle) {a : α} (ha : a ∈ cycle) : ¬ Rooted up (some a) := by
  intro hrooted
  obtain ⟨b, hb, hnext⟩ := h.closed a ha
  obtain ⟨levels, hback⟩ := h.leads b hb a ha
  exact hrooted.not_below_self levels ⟨b, hnext, hback⟩

section Keeping

variable {known : α → Prop}

/-- Where an item is put: to where it was, if that is known and its way up ends. -/
noncomputable def keep (known : α → Prop) (up : α → Option α) (a : α) : Option α :=
  open Classical in
  if (∀ b, up a = some b → known b) ∧ Rooted up (up a) then up a else none

theorem keep_eq_or_none (a : α) : keep known up a = up a ∨ keep known up a = none := by
  unfold keep
  split_ifs
  · exact .inl rfl
  · exact .inr rfl

theorem keep_of_wellPlaced {a : α} (h : WellPlaced up known a) : keep known up a = up a := by
  rw [keep, if_pos]
  constructor
  · intro b hb
    exact h.known b ⟨1, a, rfl, b, hb, rfl⟩
  · exact h.rooted.next

theorem keep_of_not_rooted {a : α} (h : ¬ Rooted up (some a)) : keep known up a = none := by
  rw [keep, if_neg]
  intro hkeep
  exact h hkeep.2.step

theorem keep_rooted (a : α) : Rooted up (keep known up a) := by
  unfold keep
  split_ifs with hkeep
  · exact hkeep.2
  · exact ⟨0, .top⟩

end Keeping

section Cutting

variable [DecidableEq α] {known : α → Prop}

noncomputable def cutAll (known : α → Prop) (up : α → Option α) : List α → (α → Option α)
  | [] => up
  | a :: rest => cutAll known (Function.update up a (keep known up a)) rest

theorem update_cut (a b : α) :
    Function.update up a (keep known up a) b = up b ∨ Function.update up a (keep known up a) b = none := by
  by_cases hb : b = a
  · rw [hb, Function.update_self]
    exact keep_eq_or_none a
  · rw [Function.update_of_ne hb]
    exact .inl rfl

theorem cutAll_cut (items : List α) (a : α) : cutAll known up items a = up a ∨ cutAll known up items a = none := by
  induction items generalizing up with
  | nil => exact .inl rfl
  | cons item rest ih =>
      rcases @ih (Function.update up item (keep known up item)) with hkept | htop
      · rw [cutAll, hkept]
        exact update_cut item a
      · exact .inr htop

theorem cutAll_of_notMem {items : List α} {a : α} (h : a ∉ items) : cutAll known up items a = up a := by
  induction items generalizing up with
  | nil => rfl
  | cons item rest ih =>
      rw [List.mem_cons, not_or] at h
      rw [cutAll, ih h.2, Function.update_of_ne h.1]

theorem cutAll_rooted {items : List α} {a : α} (h : a ∈ items) : Rooted (cutAll known up items) (some a) := by
  induction items generalizing up with
  | nil => cases h
  | cons item rest ih =>
      rcases List.mem_cons.1 h with rfl | hrest
      · have hplaced : Rooted (Function.update up a (keep known up a)) (some a) := by
          apply Rooted.step
          rw [Function.update_self]
          exact (keep_rooted a).of_cut (update_cut a)
        exact hplaced.of_cut (cutAll_cut rest)
      · exact ih hrest

/-- In the end each item is below a known one, or at the top. -/
theorem cutAll_known {items : List α} {a b : α} (h : a ∈ items) (hup : cutAll known up items a = some b) : known b := by
  induction items generalizing up with
  | nil => cases h
  | cons item rest ih =>
      rcases List.mem_cons.1 h with rfl | hrest
      · have hkeep : keep known up a = some b := by
          rcases @cutAll_cut α (Function.update up a (keep known up a)) _ known rest a with hsame | htop
          · rw [Function.update_self] at hsame
            rw [← hsame]
            exact hup
          · rw [cutAll, htop] at hup
            cases hup
        unfold keep at hkeep
        split_ifs at hkeep with hcond
        exact hcond.1 b hkeep
      · exact ih hrest hup

theorem below_of_update {a b c : α} {place : Option α} {levels : Nat} (hnot : ¬ OnWay up a (some b))
    (h : Below (Function.update up a place) c levels b) : Below up c levels b := by
  induction levels generalizing b with
  | zero => exact h
  | succ levels ih =>
      obtain ⟨next, hnext, hrest⟩ := h
      have hne : b ≠ a := by
        intro hb
        exact hnot (hb ▸ OnWay.self b)
      rw [Function.update_of_ne hne] at hnext
      refine ⟨next, hnext, ih ?_ hrest⟩
      intro hway
      apply hnot
      rw [← hnext] at hway
      exact hway.step

theorem cutAll_of_wellPlaced {items : List α} {b : α} (h : WellPlaced up known b) : cutAll known up items b = up b := by
  induction items generalizing up with
  | nil => rfl
  | cons a rest ih =>
      by_cases hway : OnWay up a (some b)
      · have hsame : Function.update up a (keep known up a) = up := by
          rw [keep_of_wellPlaced (h.above hway), Function.update_eq_self]
        rw [cutAll, hsame, ih h]
      · have hne : b ≠ a := by
          intro hb
          exact hway (hb ▸ OnWay.self b)
        have hplaced : WellPlaced (Function.update up a (keep known up a)) known b := by
          constructor
          · obtain ⟨count, hclimbs⟩ := h.rooted
            exact ⟨count, hclimbs.update_of_not hway⟩
          · intro c hc
            obtain ⟨levels, b', hb, hbelow⟩ := hc
            rw [Option.some.injEq] at hb
            subst hb
            exact h.known c ⟨levels, b, rfl, below_of_update hway hbelow⟩
        rw [cutAll, ih hplaced, Function.update_of_ne hne]

/-- Around a broken cycle the way up ends at the break. -/
theorem IsCycle.wellPlaced_update {cycle : Set α} (h : IsCycle up cycle) (hknown : ∀ a ∈ cycle, known a) {a b : α}
    (ha : a ∈ cycle) (hb : b ∈ cycle) : WellPlaced (Function.update up a none) known b := by
  constructor
  · obtain ⟨levels, hbelow⟩ := h.leads b hb a ha
    clear hb
    induction levels generalizing b with
    | zero =>
        have hsame : b = a := hbelow
        apply Rooted.step
        rw [hsame, Function.update_self]
        exact ⟨0, .top⟩
    | succ levels ih =>
        apply Rooted.step
        by_cases hsame : b = a
        · rw [hsame, Function.update_self]
          exact ⟨0, .top⟩
        · obtain ⟨next, hnext, hrest⟩ := hbelow
          rw [Function.update_of_ne hsame, hnext]
          exact ih hrest
  · intro c hc
    obtain ⟨levels, b', hb', hbelow⟩ := hc
    rw [Option.some.injEq] at hb'
    subst hb'
    apply hknown
    induction levels generalizing b with
    | zero =>
        have hsame : b = c := hbelow
        exact hsame ▸ hb
    | succ levels ih =>
        obtain ⟨next, hnext, hrest⟩ := hbelow
        by_cases hsame : b = a
        · rw [hsame, Function.update_self] at hnext
          cases hnext
        · obtain ⟨other, hother, hup⟩ := h.closed b hb
          rw [Function.update_of_ne hsame, hup, Option.some.injEq] at hnext
          subst hnext
          exact ih hother hrest

/-- A cycle of items that are all taken loses exactly one link. -/
theorem cutAll_cycle {items : List α} {cycle : Set α} (hnodup : items.Nodup) (h : IsCycle up cycle)
    (hknown : ∀ a ∈ cycle, known a) (hitems : ∀ a ∈ cycle, a ∈ items) :
    ∃! a, a ∈ cycle ∧ cutAll known up items a ≠ up a := by
  induction items generalizing up with
  | nil =>
      obtain ⟨a, ha⟩ := h.nonempty
      cases hitems a ha
  | cons item rest ih =>
      obtain ⟨hfresh, hrest⟩ := List.nodup_cons.1 hnodup
      by_cases hin : item ∈ cycle
      · have hcut : keep known up item = none := keep_of_not_rooted (h.not_rooted hin)
        refine ⟨item, ⟨hin, ?_⟩, ?_⟩
        · obtain ⟨next, -, hnext⟩ := h.closed item hin
          rw [cutAll, cutAll_of_notMem hfresh, Function.update_self, hcut, hnext]
          exact (Option.some_ne_none next).symm
        · intro b hb
          by_contra hne
          apply hb.2
          rw [cutAll, hcut, cutAll_of_wellPlaced (h.wellPlaced_update hknown hin hb.1), Function.update_of_ne hne]
      · have hsame : ∀ a ∈ cycle, Function.update up item (keep known up item) a = up a := by
          intro a ha
          apply Function.update_of_ne
          rintro rfl
          exact hin ha
        have hcycle : IsCycle (Function.update up item (keep known up item)) cycle := by
          constructor
          · exact h.nonempty
          · intro a ha
            rw [hsame a ha]
            exact h.closed a ha
          · intro a ha b hb
            obtain ⟨levels, hbelow⟩ := h.leads a ha b hb
            refine ⟨levels, ?_⟩
            induction levels generalizing a with
            | zero => exact hbelow
            | succ levels ihlevels =>
                obtain ⟨next, hnext, hmore⟩ := hbelow
                obtain ⟨other, hother, hup⟩ := h.closed a ha
                rw [hnext, Option.some.injEq] at hup
                subst hup
                exact ⟨next, by rw [hsame a ha, hnext], ihlevels next hother hmore⟩
        have hremaining : ∀ a ∈ cycle, a ∈ rest := by
          intro a ha
          rcases List.mem_cons.1 (hitems a ha) with rfl | hmem
          · exact absurd ha hin
          · exact hmem
        obtain ⟨a, ⟨ha, hlost⟩, honly⟩ := ih hrest hcycle hremaining
        refine ⟨a, ⟨ha, ?_⟩, ?_⟩
        · rw [cutAll, ← hsame a ha]
          exact hlost
        · intro b hb
          apply honly b
          rw [hsame b hb.1]
          exact hb

end Cutting

end Gostman.Lib
