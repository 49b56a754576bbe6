import Mathlib.Data.List.Basic
import Mathlib.Data.List.Nodup
import Mathlib.Tactic.Tauto
/-!
# Records

Finite maps kept as association lists, in insertion order.  They stand for
JavaScript objects and for Go maps: reading, setting, removing and overlaying
keys, with the equations that say what each of them does to a later read.
-/

namespace Gostman.Lib

universe u v

/-- A finite map from keys to values, as the list of its entries. -/
abbrev Record (κ : Type u) (α : Type v) := List (κ × α)

namespace Record

variable {κ : Type u} {α : Type v} [DecidableEq κ]

def read : Record κ α → κ → Option α
  | [], _ => none
  | (name, value) :: rest, key => if name = key then some value else read rest key

def has (record : Record κ α) (key : κ) : Bool :=
  (record.read key).isSome

/-- Set one key: in place when it is kept already, at the end otherwise. -/
def put : Record κ α → κ → α → Record κ α
  | [], key, value => [(key, value)]
  | (name, old) :: rest, key, value =>
      if name = key then (key, value) :: rest else (name, old) :: put rest key value

def remove (record : Record κ α) (key : κ) : Record κ α :=
  record.filter fun entry => entry.1 ≠ key

def without (record : Record κ α) (keys : List κ) : Record κ α :=
  record.filter fun entry => entry.1 ∉ keys

/-- Set every entry of `other`, first to last. -/
def overlay (record other : Record κ α) : Record κ α :=
  other.foldl (fun result entry => result.put entry.1 entry.2) record

/-- The record with these entries; a later entry replaces an earlier one of
the same key. -/
def ofEntries (entries : List (κ × α)) : Record κ α :=
  overlay [] entries

def keys (record : Record κ α) : List κ :=
  record.map Prod.fst

@[simp] theorem read_nil (key : κ) : read ([] : Record κ α) key = none := rfl

theorem read_cons (name key : κ) (value : α) (rest : Record κ α) :
    read ((name, value) :: rest) key = if name = key then some value else read rest key := rfl

@[simp] theorem read_put_self (record : Record κ α) (key : κ) (value : α) :
    (record.put key value).read key = some value := by
  induction record with
  | nil => simp [put, read]
  | cons entry rest ih =>
      obtain ⟨name, old⟩ := entry
      by_cases h : name = key
      · simp [put, read, h]
      · simp [put, read, h, ih]

theorem read_put_ne (record : Record κ α) {key other : κ} (h : other ≠ key) (value : α) :
    (record.put key value).read other = record.read other := by
  induction record with
  | nil => simp [put, read, h.symm]
  | cons entry rest ih =>
      obtain ⟨name, old⟩ := entry
      by_cases hname : name = key
      · subst hname
        simp [put, read, h.symm]
      · by_cases hother : name = other
        · have hput : put ((name, old) :: rest) key value = (name, old) :: put rest key value := by
            simp [put, hname]
          rw [hput, read_cons, read_cons, if_pos hother, if_pos hother]
        · simp [put, read, hname, hother, ih]

theorem read_put (record : Record κ α) (key other : κ) (value : α) :
    (record.put key value).read other = if other = key then some value else record.read other := by
  split_ifs with h
  · rw [h, read_put_self]
  · exact read_put_ne record h value

theorem read_filter (record : Record κ α) (keep : κ → Bool) (key : κ) :
    read (record.filter fun entry => keep entry.1) key =
      if keep key then record.read key else none := by
  induction record with
  | nil => simp
  | cons entry rest ih =>
      obtain ⟨name, value⟩ := entry
      by_cases hkeep : keep name
      · by_cases hname : name = key
        · subst hname
          simp [hkeep, read]
        · simp [hkeep, read, hname, ih]
      · by_cases hname : name = key
        · subst hname
          simp [hkeep, ih]
        · simp [hkeep, read, hname, ih]

theorem read_remove (record : Record κ α) (key other : κ) :
    (record.remove key).read other = if other = key then none else record.read other := by
  have h := read_filter record (fun name => decide (name ≠ key)) other
  by_cases hother : other = key
  · subst hother
    simpa [remove] using h
  · simpa [remove, hother] using h

theorem read_without (record : Record κ α) (names : List κ) (key : κ) :
    (record.without names).read key = if key ∈ names then none else record.read key := by
  have h := read_filter record (fun name => decide (name ∉ names)) key
  by_cases hkey : key ∈ names <;> simpa [without, hkey] using h

@[simp] theorem overlay_nil (record : Record κ α) : record.overlay [] = record := rfl

theorem overlay_cons (record : Record κ α) (entry : κ × α) (rest : Record κ α) :
    record.overlay (entry :: rest) = (record.put entry.1 entry.2).overlay rest := rfl

/-- Overlaying a record without repeated keys reads from it first. -/
theorem read_overlay (record other : Record κ α) (hnodup : other.keys.Nodup) (key : κ) :
    (record.overlay other).read key = (other.read key).or (record.read key) := by
  induction other generalizing record with
  | nil => simp
  | cons entry rest ih =>
      obtain ⟨name, value⟩ := entry
      simp only [keys, List.map_cons, List.nodup_cons] at hnodup
      rw [overlay_cons, ih _ hnodup.2, read_put, read_cons]
      by_cases hname : name = key
      · subst hname
        have hnone : read rest name = none := by
          have hmem := hnodup.1
          clear ih hnodup
          induction rest with
          | nil => rfl
          | cons head tail ih =>
              simp only [List.map_cons, List.mem_cons, not_or] at hmem
              rw [show head = (head.1, head.2) from rfl, read_cons,
                if_neg (fun h => hmem.1 h.symm), ih hmem.2]
        simp [hnone]
      · simp [hname, Ne.symm hname]

theorem read_eq_none_iff (record : Record κ α) (key : κ) :
    record.read key = none ↔ key ∉ record.keys := by
  induction record with
  | nil => simp [keys]
  | cons entry rest ih =>
      obtain ⟨name, value⟩ := entry
      by_cases h : name = key
      · simp [read, keys, h]
      · have hne : ¬key = name := fun heq => h heq.symm
        simpa [read, keys, h, hne] using ih

theorem mem_of_read {record : Record κ α} {key : κ} {value : α}
    (h : record.read key = some value) : (key, value) ∈ record := by
  induction record with
  | nil => simp at h
  | cons entry rest ih =>
      obtain ⟨name, old⟩ := entry
      by_cases hname : name = key
      · simp only [read, hname, if_true, Option.some.injEq] at h
        simp [hname, h]
      · simp only [read, hname, if_false] at h
        simp [ih h]

theorem read_of_mem {record : Record κ α} (hnodup : record.keys.Nodup) {key : κ} {value : α}
    (h : (key, value) ∈ record) : record.read key = some value := by
  induction record with
  | nil => simp at h
  | cons entry rest ih =>
      obtain ⟨name, old⟩ := entry
      simp only [keys, List.map_cons, List.nodup_cons] at hnodup
      rcases List.mem_cons.1 h with heq | hmem
      · simp only [Prod.mk.injEq] at heq
        simp [read, heq.1, heq.2]
      · have hne : name ≠ key := by
          rintro rfl
          exact hnodup.1 (List.mem_map.2 ⟨(name, value), hmem, rfl⟩)
        simp [read, hne, ih hnodup.2 hmem]

theorem keys_put_of_notMem (record : Record κ α) (key : κ) (value : α)
    (h : key ∉ record.keys) : record.put key value = record ++ [(key, value)] := by
  induction record with
  | nil => rfl
  | cons entry rest ih =>
      obtain ⟨name, old⟩ := entry
      simp only [keys, List.map_cons, List.mem_cons, not_or] at h
      simp [put, Ne.symm h.1, ih h.2]

/-- Setting fresh keys one by one appends them. -/
theorem overlay_of_fresh (record other : Record κ α)
    (hnodup : (record.keys ++ other.keys).Nodup) : record.overlay other = record ++ other := by
  induction other generalizing record with
  | nil => simp
  | cons entry rest ih =>
      have hfresh : entry.1 ∉ record.keys := by
        intro hmem
        have h := List.disjoint_of_nodup_append hnodup hmem
        simp [keys] at h
      rw [overlay_cons, keys_put_of_notMem record _ _ hfresh, ih]
      · simp
      · simpa [keys] using hnodup

/-- A record without repeated keys is what its entries make. -/
theorem ofEntries_of_nodup (record : Record κ α) (hnodup : record.keys.Nodup) :
    ofEntries record = record := by
  have h := overlay_of_fresh ([] : Record κ α) record (by simpa [keys] using hnodup)
  simpa [ofEntries] using h

theorem keys_put (record : Record κ α) (key : κ) (value : α) :
    (record.put key value).keys = if key ∈ record.keys then record.keys else record.keys ++ [key] := by
  induction record with
  | nil => simp [put, keys]
  | cons entry rest ih =>
      obtain ⟨name, old⟩ := entry
      by_cases h : name = key
      · simp [put, keys, h]
      · have hne : ¬key = name := fun heq => h heq.symm
        have hput : put ((name, old) :: rest) key value = (name, old) :: put rest key value := by
          simp [put, h]
        rw [hput]
        simp only [keys, List.map_cons, List.mem_cons, hne, false_or] at ih ⊢
        rw [ih]
        by_cases hmem : key ∈ List.map Prod.fst rest <;> simp [hmem]

omit [DecidableEq κ] in
theorem length_keys (record : Record κ α) : record.keys.length = record.length :=
  List.length_map Prod.fst

theorem length_put (record : Record κ α) (key : κ) (value : α) :
    (record.put key value).length =
      if key ∈ record.keys then record.length else record.length + 1 := by
  rw [← length_keys, keys_put]
  split_ifs
  · exact length_keys record
  · rw [List.length_append, length_keys, List.length_singleton]

theorem mem_keys_put {record : Record κ α} {key other : κ} {value : α} :
    other ∈ (record.put key value).keys ↔ other = key ∨ other ∈ record.keys := by
  rw [keys_put]
  split_ifs with h
  · exact ⟨.inr, fun hor => hor.elim (fun heq => heq ▸ h) id⟩
  · rw [List.mem_append, List.mem_singleton, or_comm]

theorem mem_keys_overlay {record other : Record κ α} {key : κ} :
    key ∈ (record.overlay other).keys ↔ key ∈ record.keys ∨ key ∈ other.keys := by
  induction other generalizing record with
  | nil => simp [keys]
  | cons entry rest ih =>
      rw [overlay_cons, ih, mem_keys_put]
      simp only [keys, List.map_cons, List.mem_cons]
      tauto

theorem mem_put {record : Record κ α} {key : κ} {value : α} {entry : κ × α}
    (h : entry ∈ record.put key value) : entry = (key, value) ∨ entry ∈ record := by
  induction record with
  | nil => simpa [put] using h
  | cons head rest ih =>
      obtain ⟨name, old⟩ := head
      by_cases hname : name = key
      · simp only [put, hname, if_true, List.mem_cons] at h
        exact h.imp_right fun hmem => by simp [hmem]
      · simp only [put, hname, if_false, List.mem_cons] at h
        rcases h with rfl | hmem
        · simp
        · exact (ih hmem).imp_right fun hrest => by simp [hrest]

theorem mem_overlay {record other : Record κ α} {entry : κ × α} (h : entry ∈ record.overlay other) :
    entry ∈ record ∨ entry ∈ other := by
  induction other generalizing record with
  | nil => exact .inl h
  | cons head rest ih =>
      rw [overlay_cons] at h
      rcases ih h with hput | hrest
      · rcases mem_put hput with rfl | hmem
        · simp
        · exact .inl hmem
      · exact .inr (by simp [hrest])

theorem nodup_put {record : Record κ α} (hnodup : record.keys.Nodup) (key : κ) (value : α) :
    (record.put key value).keys.Nodup := by
  rw [keys_put]
  split_ifs with h
  · exact hnodup
  · exact List.nodup_append.2 ⟨hnodup, by simp, by
      intro a ha b hb heq
      simp only [List.mem_singleton] at hb
      exact h (hb ▸ heq ▸ ha)⟩

theorem nodup_overlay {record : Record κ α} (hnodup : record.keys.Nodup) (other : Record κ α) :
    (record.overlay other).keys.Nodup := by
  induction other generalizing record with
  | nil => simpa using hnodup
  | cons entry rest ih => exact ih (nodup_put hnodup _ _)

theorem nodup_ofEntries (entries : List (κ × α)) : (ofEntries entries).keys.Nodup :=
  nodup_overlay (by simp [keys]) entries

/-- Reading values that were changed one by one. -/
theorem read_map {β : Type*} (record : Record κ α) (f : α → β) (key : κ) :
    read (record.map fun entry => (entry.1, f entry.2)) key = (record.read key).map f := by
  induction record with
  | nil => rfl
  | cons entry rest ih =>
      obtain ⟨name, value⟩ := entry
      rw [List.map_cons, read_cons, read_cons, ih]
      split_ifs <;> rfl

omit [DecidableEq κ] in
theorem keys_map {β : Type*} (record : Record κ α) (f : α → β) :
    keys (record.map fun entry => (entry.1, f entry.2)) = record.keys := by
  simp [keys]

theorem has_iff {record : Record κ α} {key : κ} : record.has key = true ↔ key ∈ record.keys := by
  rw [has, ← not_iff_not, Bool.not_eq_true, Option.isSome_eq_false_iff, Option.isNone_iff_eq_none,
    read_eq_none_iff]

/-- A record made of values that depend on their keys only. -/
theorem read_ofEntries_map (names : List κ) (f : κ → α) (key : κ) :
    (ofEntries (names.map fun name => (name, f name))).read key =
      if key ∈ names then some (f key) else none := by
  have hgo : ∀ record : Record κ α, (record.overlay (names.map fun name => (name, f name))).read key =
      if key ∈ names then some (f key) else record.read key := by
    induction names with
    | nil => simp
    | cons name rest ih =>
      intro record
      rw [List.map_cons, overlay_cons, ih, read_put]
      by_cases hrest : key ∈ rest
      · simp [hrest]
      · by_cases hname : key = name <;> simp [hrest, hname]
  exact hgo []

theorem read_ofEntries_of_mem {entries : List (κ × α)} (hnodup : (keys entries).Nodup) {key : κ}
    {value : α} (h : (key, value) ∈ entries) : (ofEntries entries).read key = some value := by
  rw [ofEntries_of_nodup entries hnodup]
  exact read_of_mem hnodup h

theorem read_ofEntries_mapped {β : Type*} (entries : List (κ × α)) (f : α → β) (key : κ) :
    (ofEntries (entries.map fun entry => (entry.1, f entry.2))).read key =
      ((ofEntries entries).read key).map f := by
  have hgo : ∀ (record : Record κ α) (record' : Record κ β),
      (∀ key, record'.read key = (record.read key).map f) →
      (record'.overlay (entries.map fun entry => (entry.1, f entry.2))).read key =
        ((record.overlay entries).read key).map f := by
    induction entries with
    | nil => exact fun record record' h => h key
    | cons entry rest ih =>
      intro record record' h
      rw [List.map_cons, overlay_cons, overlay_cons]
      apply ih
      intro other
      rw [read_put, read_put, h]
      split_ifs <;> rfl
  exact hgo [] [] fun _ => rfl

theorem mem_of_read_ofEntries {entries : List (κ × α)} {key : κ} {value : α}
    (h : (ofEntries entries).read key = some value) : (key, value) ∈ entries := by
  rcases mem_overlay (mem_of_read h) with hnil | hmem
  · cases hnil
  · exact hmem

/-- Reading what passes a test, where no key is repeated. -/
theorem read_filter_of_nodup {record : Record κ α} (hnodup : record.keys.Nodup) (keep : κ × α → Bool)
    (key : κ) : read (record.filter keep) key = (record.read key).filter fun value => keep (key, value) := by
  have hkept : (keys (record.filter keep)).Nodup := hnodup.sublist (List.filter_sublist.map _)
  cases hread : record.read key with
  | none =>
    rw [read_eq_none_iff] at hread
    rw [Option.filter_none, read_eq_none_iff]
    exact fun hmem => hread ((List.filter_sublist.map _).subset hmem)
  | some value =>
    by_cases hkeep : keep (key, value) = true
    · rw [Option.filter_some, if_pos hkeep]
      exact read_of_mem hkept (List.mem_filter.2 ⟨mem_of_read hread, hkeep⟩)
    · rw [Option.filter_some, if_neg hkeep, read_eq_none_iff]
      intro hin
      obtain ⟨entry, hentry, rfl⟩ := List.mem_map.1 hin
      obtain ⟨hfirst, hsecond⟩ := List.mem_filter.1 hentry
      rw [read_of_mem hnodup (show (entry.1, entry.2) ∈ record from hfirst)] at hread
      exact hkeep (Option.some.inj hread ▸ hsecond)

end Record

end Gostman.Lib
