import Gostman.Flows.Runs
import Gostman.Lib.Peel
import Gostman.Placeholders.Pattern
/-!
# The order of the declared variables

`declarationOrder` takes the variables out round by round, each after those its
value names, and is left with those that lead to a cycle.
-/

namespace Gostman.Flows

open Gostman.Lib Relation

variable (lib : Library) (isFixed : Declared → Bool)

/-- The value of a variable that is not fixed has a placeholder with the name of
another one. -/
def NamesOther (entry other : Declared) : Prop :=
  isFixed entry = false ∧ other.name ∈ lib.placeholderNames entry.value ∧ other.name ≠ entry.name

instance : DecidableRel (NamesOther lib isFixed) := fun entry other =>
  inferInstanceAs (Decidable (isFixed entry = false ∧ other.name ∈ lib.placeholderNames entry.value ∧
    other.name ≠ entry.name))

def byName (entries : List Declared) : Record String Declared :=
  entries.map fun entry => (entry.name, entry)

theorem keys_byName (entries : List Declared) : (byName entries).keys = entries.map Declared.name := by
  unfold byName Record.keys
  rw [List.map_map]
  rfl

theorem values_byName (entries : List Declared) : (byName entries).map Prod.snd = entries := by
  unfold byName
  rw [List.map_map]
  exact List.map_id _

theorem ofEntries_byName {entries : List Declared} (h : (entries.map Declared.name).Nodup) :
    Record.ofEntries (byName entries) = byName entries :=
  Record.ofEntries_of_nodup _ (by rwa [keys_byName])

theorem waitsFor_eq (entries : List Declared) (entry : Declared) :
    (!isFixed entry && (lib.placeholderNames entry.value).any fun name =>
      name ≠ entry.name && (byName entries).has name) = Peel.waits (NamesOther lib isFixed) entries entry := by
  rw [Bool.eq_iff_iff, Peel.waits_iff]
  simp only [Bool.and_eq_true, Bool.not_eq_true', List.any_eq_true, decide_eq_true_eq, Record.has_iff, keys_byName,
    List.mem_map]
  constructor
  · rintro ⟨hfixed, name, hname, hne, other, hother, rfl⟩
    exact ⟨other, hother, hfixed, hname, hne⟩
  · rintro ⟨other, hother, hfixed, hname, hne⟩
    exact ⟨hfixed, other.name, hname, hne, other, hother, rfl⟩

theorem without_ready {entries : List Declared} (h : (entries.map Declared.name).Nodup) (p : Declared → Bool) :
    (byName entries).without ((entries.filter fun entry => !p entry).map Declared.name) = byName (entries.filter p) := by
  unfold byName Record.without
  rw [List.filter_map]
  congr 1
  apply List.filter_congr
  intro entry hentry
  simp only [Function.comp_apply]
  rw [Bool.eq_iff_iff, decide_eq_true_iff, List.mem_map]
  constructor
  · intro hnot
    by_contra hp
    exact hnot ⟨entry, List.mem_filter.2 ⟨hentry, by simpa using hp⟩, rfl⟩
  · rintro hp ⟨other, hother, hname⟩
    obtain ⟨hmem, hnot⟩ := List.mem_filter.1 hother
    rw [List.inj_on_of_nodup_map h hmem hentry hname, hp] at hnot
    cases hnot

theorem declarationRounds_eq {entries : List Declared} (h : (entries.map Declared.name).Nodup) (rounds : Nat)
    (order : List Declared) :
    declarationRounds lib isFixed rounds (byName entries) order =
      ((Peel.peel (NamesOther lib isFixed) rounds entries order).1,
        (Peel.peel (NamesOther lib isFixed) rounds entries order).2.map Declared.name) := by
  induction rounds generalizing entries order with
  | zero =>
    rw [declarationRounds, keys_byName]
    rfl
  | succ rounds ih =>
    have hrest : ((entries.filter (Peel.waits (NamesOther lib isFixed) entries)).map Declared.name).Nodup :=
      h.sublist (List.filter_sublist.map _)
    rw [declarationRounds, Peel.peel]
    simp only [values_byName, waitsFor_eq, without_ready h, keys_byName, ih hrest, List.isEmpty_iff]
    by_cases hempty : entries = []
    · subst hempty
      rfl
    · have hne : byName entries ≠ [] := by
        intro hnil
        exact hempty (List.map_eq_nil_iff.1 hnil)
      rw [if_neg hne]
      split_ifs <;> rfl

/-- Each variable comes after those its value names, and those that are left are
those that lead to a cycle. -/
theorem declarationOrder_complete (declared : List Declared) (hdistinct : (declared.map Declared.name).Nodup) :
    (∀ rounds, declared.length ≤ rounds →
      declarationRounds lib isFixed rounds (Record.ofEntries (declared.map fun entry => (entry.name, entry))) [] =
        declarationOrder lib declared isFixed) ∧
    (declarationOrder lib declared isFixed).1 ⊆ declared ∧
    ((declarationOrder lib declared isFixed).1.map Declared.name ++ (declarationOrder lib declared isFixed).2).Perm
      (declared.map Declared.name) ∧
    (∀ before entry after, (declarationOrder lib declared isFixed).1 = before ++ entry :: after →
      ∀ other ∈ declared, NamesOther lib isFixed entry other → other ∈ before) ∧
    ∀ name, name ∈ (declarationOrder lib declared isFixed).2 ↔
      ∃ entry ∈ declared, entry.name = name ∧ Peel.Cyclic (NamesOther lib isFixed) declared entry := by
  have hrounds (rounds : Nat) : declarationRounds lib isFixed rounds
      (Record.ofEntries (declared.map fun entry => (entry.name, entry))) [] =
        ((Peel.peel (NamesOther lib isFixed) rounds declared []).1,
          (Peel.peel (NamesOther lib isFixed) rounds declared []).2.map Declared.name) := by
    have hrecord : Record.ofEntries (declared.map fun entry => (entry.name, entry)) = byName declared :=
      ofEntries_byName hdistinct
    rw [hrecord, declarationRounds_eq lib isFixed hdistinct]
  have hlength : (Record.ofEntries (declared.map fun entry => (entry.name, entry))).length = declared.length := by
    have hrecord : Record.ofEntries (declared.map fun entry => (entry.name, entry)) = byName declared :=
      ofEntries_byName hdistinct
    rw [hrecord, byName, List.length_map]
  have horder : declarationOrder lib declared isFixed =
      ((Peel.peel (NamesOther lib isFixed) declared.length declared []).1,
        (Peel.peel (NamesOther lib isFixed) declared.length declared []).2.map Declared.name) := by
    rw [declarationOrder, hlength, hrounds]
  refine ⟨?_, declarationOrder_subset lib declared isFixed, ?_, ?_, ?_⟩
  · intro rounds henough
    rw [hrounds, horder, Peel.peel_enough [] henough (Nat.le_refl _)]
  · rw [horder, ← List.map_append]
    exact (Peel.peel_perm declared.length declared []).map Declared.name
  · rw [horder]
    apply Peel.peel_after
    · intro before entry after hnil
      simp at hnil
    · exact fun other hother => .inr hother
  · intro name
    rw [horder, List.mem_map]
    constructor
    · rintro ⟨entry, hleft, rfl⟩
      obtain ⟨hmem, hcyclic⟩ := (Peel.mem_left_iff (Nat.le_refl _)).1 hleft
      exact ⟨entry, hmem, rfl, hcyclic⟩
    · rintro ⟨entry, hmem, rfl, hcyclic⟩
      exact ⟨entry, (Peel.mem_left_iff (Nat.le_refl _)).2 ⟨hmem, hcyclic⟩, rfl⟩

/-- `plainLibrary` with the placeholders of a text. -/
def placeholderLibrary : Library :=
  { plainLibrary with
    placeholderNames := fun text =>
      (Placeholders.spansOf text.toList).1.map fun span => String.ofList (Placeholders.trim span.raw) }

/-- Two variables that name each other, and one that names neither of them. -/
def mutualVariables : List Declared :=
  [⟨"first", .string, "\x7b\x7bsecond\x7d\x7d", false, false⟩, ⟨"second", .string, "\x7b\x7b first \x7d\x7d", false, false⟩,
    ⟨"host", .string, "local", false, false⟩]

theorem first_is_cyclic :
    ∃ entry ∈ mutualVariables, entry.name = "first" ∧
      Peel.Cyclic (NamesOther placeholderLibrary Declared.input) mutualVariables entry := by
  have hcomplete := declarationOrder_complete placeholderLibrary Declared.input mutualVariables (by decide)
  exact (hcomplete.2.2.2.2 "first").1 (by decide +kernel)

end Gostman.Flows
