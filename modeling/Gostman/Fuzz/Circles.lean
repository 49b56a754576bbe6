import Gostman.Fuzz.Schema
import Gostman.Lib.Reading
import Mathlib.Data.Fintype.Order
import Mathlib.Data.Set.Finite.List
import Mathlib.Logic.Relation
import Mathlib.Order.WellFounded
/-!
# Where `flatten` ends

`flatten` calls itself for the parts of an `allOf`, and counts its hops afresh
in each call.  A schema has finitely many schemas in it, and so has the root
that references lead to.  So `flatten` ends just where the schema leads to none
that leads back to itself.
-/

namespace Gostman.Fuzz

open Gostman.Lib Gostman.Openapi

section

variable (targets : Targets)

/-- From a schema to an `allOf`, in fewer hops than are left. -/
inductive Arrives : Nat → Fields → Fields → Prop
  | here {hops : Nat} {schema : Fields} (merge : hopOf targets schema = .merge) : Arrives (hops + 1) schema schema
  | hop {hops : Nat} {schema target reached : Fields} (next : hopOf targets schema = .next target)
      (rest : Arrives hops target reached) : Arrives (hops + 1) schema reached

/-- From a schema to the parts of the `allOf` it arrives at. -/
def Leads (schema part : Fields) : Prop :=
  ∃ reached, Arrives targets maxRefHops schema reached ∧ part ∈ partsOf reached

end

variable {targets : Targets}

theorem Arrives.unique {hops : Nat} {schema first second : Fields} (h : Arrives targets hops schema first)
    (h' : Arrives targets hops schema second) : first = second := by
  induction h with
  | here hmerge =>
      cases h' with
      | here => rfl
      | hop hnext _ =>
          rw [hmerge] at hnext
          cases hnext
  | hop hnext _ ih =>
      cases h' with
      | here hmerge =>
          rw [hnext] at hmerge
          cases hmerge
      | hop hnext' hrest =>
          rw [hnext] at hnext'
          cases hnext'
          exact ih hrest

/-! ## What was flattened needs no hop -/

def Quiet (key : String) (value : Value) : Prop :=
  (key = "$ref" → value.isNil = true) ∧ (key ∈ ["allOf", "oneOf", "anyOf"] → list value = [])

def Settled (schema : Fields) : Prop :=
  ∀ key, Quiet key (Value.lookup schema key)

theorem quiet_null (key : String) : Quiet key .null :=
  ⟨fun _ => rfl, fun _ => rfl⟩

theorem settled_nil : Settled [] :=
  fun key => quiet_null key

theorem hopOf_eq_done {schema : Fields} : hopOf targets schema = .done ↔ Settled schema := by
  unfold hopOf
  constructor
  · intro h
    split_ifs at h with href hall
    · split at h <;> cases h
    · rw [Bool.not_eq_true, Bool.not_eq_false'] at href
      rw [ne_eq, not_not] at hall
      split at h
      · cases h
      · cases h
      · rename_i hone hany
        intro key
        refine ⟨fun hkey => hkey ▸ href, ?_⟩
        simp only [List.mem_cons, List.not_mem_nil, or_false]
        rintro (rfl | rfl | rfl)
        · exact hall
        · exact hone
        · exact hany
  · intro h
    have href := (h "$ref").1 rfl
    have hall := (h "allOf").2 (by decide)
    have hone := (h "oneOf").2 (by decide)
    have hany := (h "anyOf").2 (by decide)
    simp [href, hall, hone, hany]

theorem lookup_put (fields : Fields) (key other : String) (value : Value) :
    Value.lookup (fields.put key value) other = if other = key then value else Value.lookup fields other := by
  unfold Value.lookup
  rw [Record.read_put]
  split_ifs <;> rfl

theorem settled_put {fields : Fields} (h : Settled fields) {key : String} {value : Value} (hvalue : Quiet key value) :
    Settled (fields.put key value) := by
  intro other
  rw [lookup_put]
  split_ifs with heq
  · exact heq ▸ hvalue
  · exact h other

theorem settled_part {merging : Merging} (h : Settled merging.out) {flat : Fields} (hflat : Settled flat) :
    Settled (merging.part flat).out := by
  unfold Merging.part entriesOf
  generalize flat.keys.dedup = keys
  induction keys generalizing merging with
  | nil => exact h
  | cons key rest ih =>
      rw [List.map_cons, List.foldl_cons]
      apply ih
      dsimp only
      unfold Merging.entry
      split_ifs
      · exact h
      · exact h
      · exact settled_put h (hflat key)

theorem settled_fields {merging : Merging} (h : Settled merging.out) : Settled merging.fields := by
  have hquiet : ∀ key value, key ∈ ["properties", "required"] → Quiet key value := by
    intro key value hkey
    simp only [List.mem_cons, List.not_mem_nil, or_false] at hkey
    constructor
    · rcases hkey with rfl | rfl
      · exact fun heq => absurd heq (by decide)
      · exact fun heq => absurd heq (by decide)
    · rcases hkey with rfl | rfl
      · exact fun hmem => absurd hmem (by decide)
      · exact fun hmem => absurd hmem (by decide)
  unfold Merging.fields
  dsimp only
  split_ifs
  · exact settled_put (settled_put h (hquiet _ _ (by decide))) (hquiet _ _ (by decide))
  · exact settled_put h (hquiet _ _ (by decide))
  · exact settled_put h (hquiet _ _ (by decide))
  · exact h

theorem settled_mergedWith {f : Fields → Option Fields} (hf : ∀ schema flat, f schema = some flat → Settled flat)
    {schema out : Fields} (h : mergedWith f schema = some out) : Settled out := by
  unfold mergedWith at h
  obtain ⟨flats, hflats, rfl⟩ := Option.map_eq_some_iff.1 h
  have hall : ∀ flat ∈ flats, Settled flat := by
    intro flat hmem
    obtain ⟨part, -, hpart⟩ := exists_of_mapM hflats flat hmem
    exact hf part flat hpart
  apply settled_fields
  have hfold : ∀ (merging : Merging), Settled merging.out → Settled (flats.foldl Merging.part merging).out := by
    intro merging hout
    clear hflats h
    induction flats generalizing merging with
    | nil => exact hout
    | cons flat rest ih =>
        apply ih (fun other hother => hall other (List.mem_cons_of_mem _ hother))
        exact settled_part hout (hall flat List.mem_cons_self)
  exact hfold {} settled_nil

theorem settled_flattenHops {merge : Fields → Option Fields} {hops : Nat} {schema flat : Fields}
    (h : flattenHops targets merge hops schema = some flat) : Settled flat := by
  induction hops generalizing schema with
  | zero =>
      cases h
      exact settled_nil
  | succ hops ih =>
      unfold flattenHops at h
      cases hhop : hopOf targets schema with
      | unresolved =>
          rw [hhop] at h
          cases h
          exact settled_nil
      | merge =>
          rw [hhop] at h
          obtain ⟨out, -, hflat⟩ := Option.bind_eq_some_iff.1 h
          exact ih hflat
      | next target =>
          rw [hhop] at h
          exact ih h
      | done =>
          rw [hhop] at h
          cases h
          exact hopOf_eq_done.1 hhop

theorem settled_flatten {fuel : Nat} {schema flat : Fields} (h : flatten targets fuel schema = some flat) :
    Settled flat := by
  cases fuel with
  | zero => cases h
  | succ fuel => exact settled_flattenHops h

/-! ## Where it ends -/

/-- The loop of `flatten` ends where the `allOf` it arrives at, if any, can be
merged. -/
theorem flattenHops_isSome_iff {merge : Fields → Option Fields}
    (hmerge : ∀ schema out, merge schema = some out → Settled out) {hops : Nat} {schema : Fields} :
    (flattenHops targets merge hops schema).isSome = true ↔
      ∀ reached, Arrives targets hops schema reached → (merge reached).isSome = true := by
  have hsettled : ∀ hops out, Settled out → (flattenHops targets merge hops out).isSome = true := by
    intro hops out hout
    cases hops with
    | zero => rfl
    | succ hops =>
        rw [flattenHops, hopOf_eq_done.2 hout]
        rfl
  induction hops generalizing schema with
  | zero =>
      constructor
      · intro _ reached h
        cases h
      · intro _
        rfl
  | succ hops ih =>
      unfold flattenHops
      cases hhop : hopOf targets schema with
      | unresolved =>
          refine iff_of_true rfl ?_
          intro reached h
          cases h with
          | here hmerged => cases hhop.symm.trans hmerged
          | hop hnext _ => cases hhop.symm.trans hnext
      | done =>
          refine iff_of_true rfl ?_
          intro reached h
          cases h with
          | here hmerged => cases hhop.symm.trans hmerged
          | hop hnext _ => cases hhop.symm.trans hnext
      | merge =>
          constructor
          · intro hsome reached h
            cases h with
            | here _ =>
                cases hout : merge schema with
                | none => simp [hout] at hsome
                | some out => rfl
            | hop hnext _ => cases hhop.symm.trans hnext
          · intro h
            obtain ⟨out, hout⟩ := Option.isSome_iff_exists.1 (h schema (.here hhop))
            dsimp only
            rw [hout]
            exact hsettled hops out (hmerge schema out hout)
      | next target =>
          refine Iff.trans ih ?_
          constructor
          · intro hall reached h
            cases h with
            | here hmerged => cases hhop.symm.trans hmerged
            | hop hnext hrest =>
                cases hhop.symm.trans hnext
                exact hall reached hrest
          · exact fun hall reached h => hall reached (.hop hhop h)

theorem mergedWith_isSome_iff {f : Fields → Option Fields} {schema : Fields} :
    (mergedWith f schema).isSome = true ↔ ∀ part ∈ partsOf schema, (f part).isSome = true := by
  unfold mergedWith
  rw [Option.isSome_map, isSome_mapM]

/-- One depth more is enough for a schema when the depth is for the parts it
leads to. -/
theorem flatten_succ_isSome_iff {fuel : Nat} {schema : Fields} :
    (flatten targets (fuel + 1) schema).isSome = true ↔
      ∀ part, Leads targets schema part → (flatten targets fuel part).isSome = true := by
  rw [flatten, flattenHops_isSome_iff fun schema out hout =>
    settled_mergedWith (fun schema flat hflat => settled_flatten hflat) hout]
  simp only [mergedWith_isSome_iff]
  constructor
  · rintro h part ⟨reached, harrives, hpart⟩
    exact h reached harrives part hpart
  · intro h reached harrives part hpart
    exact h part ⟨reached, harrives, hpart⟩

/-! ## More depth gives the same -/

theorem mapM_mono {α β : Type} {f g : α → Option β} (hfg : ∀ item result, f item = some result → g item = some result)
    {items : List α} {results : List β} (h : items.mapM f = some results) : items.mapM g = some results := by
  induction items generalizing results with
  | nil => exact h
  | cons item rest ih =>
      rw [List.mapM_cons] at h ⊢
      obtain ⟨first, hfirst, hrest⟩ := Option.bind_eq_some_iff.1 h
      obtain ⟨others, hothers, heq⟩ := Option.bind_eq_some_iff.1 hrest
      rw [hfg item first hfirst, ih hothers]
      exact heq

theorem mergedWith_mono {f g : Fields → Option Fields} (hfg : ∀ schema flat, f schema = some flat → g schema = some flat)
    {schema out : Fields} (h : mergedWith f schema = some out) : mergedWith g schema = some out := by
  unfold mergedWith at h ⊢
  obtain ⟨flats, hflats, rfl⟩ := Option.map_eq_some_iff.1 h
  rw [mapM_mono hfg hflats]
  rfl

theorem flattenHops_mono {merge more : Fields → Option Fields}
    (hmore : ∀ schema out, merge schema = some out → more schema = some out) {hops : Nat} {schema flat : Fields}
    (h : flattenHops targets merge hops schema = some flat) : flattenHops targets more hops schema = some flat := by
  induction hops generalizing schema with
  | zero => exact h
  | succ hops ih =>
      unfold flattenHops at h ⊢
      cases hhop : hopOf targets schema with
      | unresolved => rwa [hhop] at h
      | done => rwa [hhop] at h
      | next target =>
          rw [hhop] at h
          exact ih h
      | merge =>
          rw [hhop] at h
          obtain ⟨out, hout, hflat⟩ := Option.bind_eq_some_iff.1 h
          dsimp only
          rw [hmore schema out hout]
          exact ih hflat

theorem flatten_mono {fuel : Nat} {schema flat : Fields} (h : flatten targets fuel schema = some flat) :
    flatten targets (fuel + 1) schema = some flat := by
  induction fuel generalizing schema flat with
  | zero => cases h
  | succ fuel ih => exact flattenHops_mono (fun schema out hout => mergedWith_mono (fun schema flat hflat => ih hflat) hout) h

theorem flatten_mono_le {fuel more : Nat} (hle : fuel ≤ more) {schema flat : Fields}
    (h : flatten targets fuel schema = some flat) : flatten targets more schema = some flat := by
  induction hle with
  | refl => exact h
  | step _ ih => exact flatten_mono ih

/-! ## Ways through parts -/

def FlattenEnds (targets : Targets) (schema : Fields) : Prop :=
  ∃ fuel, (flatten targets fuel schema).isSome = true

theorem flattenEnds_of_parts {parts : List Fields} (h : ∀ part ∈ parts, FlattenEnds targets part) :
    ∃ fuel, ∀ part ∈ parts, (flatten targets fuel part).isSome = true := by
  induction parts with
  | nil => exact ⟨0, by simp⟩
  | cons part rest ih =>
      obtain ⟨first, hfirst⟩ := h part List.mem_cons_self
      obtain ⟨others, hothers⟩ := ih fun other hother => h other (List.mem_cons_of_mem _ hother)
      refine ⟨max first others, ?_⟩
      intro other hother
      rcases List.mem_cons.1 hother with rfl | hother
      · obtain ⟨flat, hflat⟩ := Option.isSome_iff_exists.1 hfirst
        rw [flatten_mono_le (Nat.le_max_left _ _) hflat]
        rfl
      · obtain ⟨flat, hflat⟩ := Option.isSome_iff_exists.1 (hothers other hother)
        rw [flatten_mono_le (Nat.le_max_right _ _) hflat]
        rfl

/-- `flatten` ends where every way through parts does. -/
theorem flattenEnds_iff_acc {schema : Fields} :
    FlattenEnds targets schema ↔ Acc (fun part schema => Leads targets schema part) schema := by
  constructor
  · rintro ⟨fuel, h⟩
    induction fuel generalizing schema with
    | zero => cases h
    | succ fuel ih =>
        rw [flatten_succ_isSome_iff] at h
        exact Acc.intro schema fun part hpart => ih (h part hpart)
  · intro h
    induction h with
    | intro schema _ ih =>
        by_cases harrives : ∃ reached, Arrives targets maxRefHops schema reached
        · obtain ⟨reached, hreached⟩ := harrives
          obtain ⟨fuel, hfuel⟩ := @flattenEnds_of_parts targets (partsOf reached) fun part hpart =>
            ih part ⟨reached, hreached, hpart⟩
          refine ⟨fuel + 1, ?_⟩
          rw [flatten_succ_isSome_iff]
          rintro part ⟨other, hother, hpart⟩
          exact hfuel part (hreached.unique hother ▸ hpart)
        · refine ⟨1, ?_⟩
          rw [flatten_succ_isSome_iff]
          rintro part ⟨reached, hreached, -⟩
          exact absurd ⟨reached, hreached⟩ harrives

/-! ## The schemas there are -/

mutual

def subValues : Value → List Value
  | .list items => .list items :: subItems items
  | .object fields => .object fields :: subFields fields
  | .null => [.null]
  | .bool value => [.bool value]
  | .int value => [.int value]
  | .float value => [.float value]
  | .text value => [.text value]

def subItems : List Value → List Value
  | [] => []
  | item :: rest => subValues item ++ subItems rest

def subFields : List (String × Value) → List Value
  | [] => []
  | (_, value) :: rest => subValues value ++ subFields rest

end

theorem mem_subValues_self (value : Value) : value ∈ subValues value := by
  cases value <;> simp [subValues]

theorem subItems_subset {items : List Value} {item : Value} (h : item ∈ items) : subValues item ⊆ subItems items := by
  induction items with
  | nil => cases h
  | cons first rest ih =>
      rw [subItems]
      rcases List.mem_cons.1 h with rfl | h
      · exact List.subset_append_left _ _
      · exact List.Subset.trans (ih h) (List.subset_append_right _ _)

theorem subFields_subset {fields : List (String × Value)} {entry : String × Value} (h : entry ∈ fields) :
    subValues entry.2 ⊆ subFields fields := by
  induction fields with
  | nil => cases h
  | cons first rest ih =>
      obtain ⟨key, value⟩ := first
      rw [subFields]
      rcases List.mem_cons.1 h with rfl | h
      · exact List.subset_append_left _ _
      · exact List.Subset.trans (ih h) (List.subset_append_right _ _)

theorem exists_of_subItems {items : List Value} {value : Value} (h : value ∈ subItems items) :
    ∃ item ∈ items, value ∈ subValues item := by
  induction items with
  | nil => simp [subItems] at h
  | cons first rest ih =>
      rw [subItems, List.mem_append] at h
      rcases h with h | h
      · exact ⟨first, List.mem_cons_self, h⟩
      · obtain ⟨item, hitem, hvalue⟩ := ih h
        exact ⟨item, List.mem_cons_of_mem _ hitem, hvalue⟩

theorem exists_of_subFields {fields : List (String × Value)} {value : Value} (h : value ∈ subFields fields) :
    ∃ entry ∈ fields, value ∈ subValues entry.2 := by
  induction fields with
  | nil => simp [subFields] at h
  | cons first rest ih =>
      obtain ⟨key, found⟩ := first
      rw [subFields, List.mem_append] at h
      rcases h with h | h
      · exact ⟨(key, found), List.mem_cons_self, h⟩
      · obtain ⟨entry, hentry, hvalue⟩ := ih h
        exact ⟨entry, List.mem_cons_of_mem _ hentry, hvalue⟩

/-- What is in a value in a value is in the value. -/
theorem subValues_subset {outer inner : Value} (h : inner ∈ subValues outer) : subValues inner ⊆ subValues outer := by
  cases outer with
  | list items =>
      rw [subValues] at h ⊢
      rcases List.mem_cons.1 h with rfl | h
      · rw [subValues]
        exact fun _ hmem => hmem
      · obtain ⟨item, hitem, hinner⟩ := exists_of_subItems h
        have hsize : sizeOf item < sizeOf (Value.list items) := by
          have hlt := List.sizeOf_lt_of_mem hitem
          simp only [Value.list.sizeOf_spec]
          omega
        exact List.Subset.trans (List.Subset.trans (subValues_subset hinner) (subItems_subset hitem)) (List.subset_cons_self _ _)
  | object fields =>
      rw [subValues] at h ⊢
      rcases List.mem_cons.1 h with rfl | h
      · rw [subValues]
        exact fun _ hmem => hmem
      · obtain ⟨entry, hentry, hinner⟩ := exists_of_subFields h
        have hsize : sizeOf entry.2 < sizeOf (Value.object fields) := by
          have hlt := List.sizeOf_lt_of_mem hentry
          obtain ⟨key, value⟩ := entry
          simp only [Value.object.sizeOf_spec, Prod.mk.sizeOf_spec] at hlt ⊢
          omega
        exact List.Subset.trans (List.Subset.trans (subValues_subset hinner) (subFields_subset hentry))
          (List.subset_cons_self _ _)
  | null | bool | int | float | text =>
      simp only [subValues, List.mem_singleton] at h ⊢
      rw [h]
      simp [subValues]
termination_by sizeOf outer

def schemasIn (root schema : Value) : List Fields :=
  [] :: (subValues root ++ subValues schema).map object

/-- The schemas that `flatten` may come to. -/
def reachable (root schema : Value) : List Fields :=
  schemasIn root schema ++ (schemasIn root schema).map (without · "allOf")

section Reachable

variable {targets : Targets} {start : Value}

theorem mem_schemasIn {value : Value} (h : value ∈ subValues targets.root ++ subValues start) :
    object value ∈ schemasIn targets.root start :=
  List.mem_cons_of_mem _ (List.mem_map_of_mem h)

theorem lookup_mem {value : Value} (h : value ∈ subValues targets.root ++ subValues start) (key : String) :
    Value.lookup (object value) key = .null ∨
      Value.lookup (object value) key ∈ subValues targets.root ++ subValues start := by
  cases value with
  | object fields =>
      change Value.lookup fields key = .null ∨ Value.lookup fields key ∈ _
      unfold Value.lookup
      cases hread : Record.read fields key with
      | none => exact .inl rfl
      | some value =>
          right
          have hin : value ∈ subValues (.object fields) := by
            rw [subValues]
            exact List.mem_cons_of_mem _ (subFields_subset (Record.mem_of_read hread) (mem_subValues_self value))
          rcases List.mem_append.1 h with h | h
          · exact List.mem_append_left _ (subValues_subset h hin)
          · exact List.mem_append_right _ (subValues_subset h hin)
  | null | bool | int | float | text | list => exact .inl rfl

theorem item_mem {value item : Value} (h : value = .null ∨ value ∈ subValues targets.root ++ subValues start)
    (hitem : item ∈ list value) : item ∈ subValues targets.root ++ subValues start := by
  cases value with
  | list items =>
      have hin : item ∈ subValues (.list items) := by
        rw [subValues]
        exact List.mem_cons_of_mem _ (subItems_subset hitem (mem_subValues_self item))
      rcases h with h | h
      · cases h
      · rcases List.mem_append.1 h with h | h
        · exact List.mem_append_left _ (subValues_subset h hin)
        · exact List.mem_append_right _ (subValues_subset h hin)
  | null | bool | int | float | text | object => cases hitem

theorem lookup_without (schema : Fields) {key : String} (h : key ≠ "allOf") :
    Value.lookup (without schema "allOf") key = Value.lookup schema key := by
  unfold Value.lookup without
  rw [Record.read_remove, if_neg h]

theorem lookup_schemasIn {schema : Fields} (h : schema ∈ schemasIn targets.root start) (key : String) :
    Value.lookup schema key = .null ∨ Value.lookup schema key ∈ subValues targets.root ++ subValues start := by
  rcases List.mem_cons.1 h with rfl | h
  · exact .inl rfl
  · obtain ⟨value, hvalue, rfl⟩ := List.mem_map.1 h
    exact lookup_mem hvalue key

theorem lookup_reachable {schema : Fields} (h : schema ∈ reachable targets.root start) {key : String}
    (hkey : key ≠ "allOf") :
    Value.lookup schema key = .null ∨ Value.lookup schema key ∈ subValues targets.root ++ subValues start := by
  rcases List.mem_append.1 h with h | h
  · exact lookup_schemasIn h key
  · obtain ⟨whole, hwhole, rfl⟩ := List.mem_map.1 h
    rw [lookup_without whole hkey]
    exact lookup_schemasIn hwhole key

theorem followToken_mem {current found : Value} {raw : List Char} (h : current ∈ subValues targets.root)
    (hfollow : followToken targets current raw = some found) : found ∈ subValues targets.root := by
  unfold followToken at hfollow
  cases current with
  | object fields =>
      apply subValues_subset h
      rw [subValues]
      exact List.mem_cons_of_mem _ (subFields_subset (Record.mem_of_read hfollow) (mem_subValues_self found))
  | list items =>
      obtain ⟨index, -, hitem⟩ := Option.bind_eq_some_iff.1 hfollow
      apply subValues_subset h
      rw [subValues]
      exact List.mem_cons_of_mem _ (subItems_subset (List.mem_of_getElem? hitem) (mem_subValues_self found))
  | null | bool | int | float | text => cases hfollow

theorem walk_mem {path : List (List Char)} {current found : Value} (h : current ∈ subValues targets.root)
    (hwalk : path.foldlM (followToken targets) current = some found) : found ∈ subValues targets.root := by
  induction path generalizing current with
  | nil =>
      cases hwalk
      exact h
  | cons raw rest ih =>
      rw [List.foldlM_cons] at hwalk
      obtain ⟨next, hnext, hrest⟩ := Option.bind_eq_some_iff.1 hwalk
      exact ih (followToken_mem h hnext) hrest

theorem resolve_mem {ref : String} {target : Fields} (h : targets.resolve ref = some target) :
    target ∈ schemasIn targets.root start := by
  unfold Targets.resolve at h
  split at h
  · obtain ⟨found, hfound, htarget⟩ := Option.bind_eq_some_iff.1 h
    have hmem : found ∈ subValues targets.root := by
      unfold walkPointer at hfound
      split at hfound
      · cases hfound
        exact mem_subValues_self _
      · cases hfound
        exact mem_subValues_self _
      · exact walk_mem (mem_subValues_self _) hfound
      · cases hfound
    have hobject : object found = target := by
      unfold object
      rw [htarget]
      rfl
    rw [← hobject]
    exact mem_schemasIn (List.mem_append_left _ hmem)
  · cases h

theorem next_mem {schema target : Fields} (h : schema ∈ reachable targets.root start)
    (hnext : hopOf targets schema = .next target) : target ∈ schemasIn targets.root start := by
  unfold hopOf at hnext
  split_ifs at hnext
  · split at hnext
    · cases hnext
    · rename_i found hfound
      cases hnext
      exact resolve_mem hfound
  · split at hnext
    · rename_i first rest hlist
      cases hnext
      exact mem_schemasIn (item_mem (lookup_reachable h (by decide)) (hlist ▸ List.mem_cons_self))
    · rename_i first rest hlist
      cases hnext
      exact mem_schemasIn (item_mem (lookup_reachable h (by decide)) (hlist ▸ List.mem_cons_self))
    · cases hnext

theorem arrives_mem {hops : Nat} {schema reached : Fields} (h : Arrives targets hops schema reached)
    (hmem : schema ∈ reachable targets.root start) : reached ∈ schemasIn targets.root start := by
  induction h with
  | @here hops schema hmerge =>
      rcases List.mem_append.1 hmem with hmem | hmem
      · exact hmem
      · exfalso
        obtain ⟨whole, -, rfl⟩ := List.mem_map.1 hmem
        have hnone : Value.lookup (without whole "allOf") "allOf" = .null := by
          unfold Value.lookup without
          rw [Record.read_remove, if_pos rfl]
          rfl
        unfold hopOf at hmerge
        rw [hnone] at hmerge
        split_ifs at hmerge
        · split at hmerge <;> cases hmerge
        · exact absurd rfl ‹list .null ≠ []›
        · split at hmerge <;> cases hmerge
  | hop hnext _ ih => exact ih (List.mem_append_left _ (next_mem hmem hnext))

theorem leads_mem {schema part : Fields} (h : Leads targets schema part) (hmem : schema ∈ reachable targets.root start) :
    part ∈ reachable targets.root start := by
  obtain ⟨reached, harrives, hpart⟩ := h
  have hreached := arrives_mem harrives hmem
  rcases List.mem_cons.1 hpart with rfl | hitem
  · exact List.mem_append_right _ (List.mem_map_of_mem hreached)
  · obtain ⟨item, hin, rfl⟩ := List.mem_map.1 hitem
    exact List.mem_append_left _ (mem_schemasIn (item_mem (lookup_schemasIn hreached "allOf") hin))

end Reachable

/-! ## Circles -/

def Circular (targets : Targets) (schema : Fields) : Prop :=
  Relation.TransGen (Leads targets) schema schema

def Straight (targets : Targets) (schema : Fields) : Prop :=
  ∀ other, Relation.ReflTransGen (Leads targets) schema other → ¬ Circular targets other

section Circles

variable {targets : Targets}

theorem not_circular_of_acc {schema : Fields} (h : Acc (fun part schema => Leads targets schema part) schema) :
    ¬ Circular targets schema := by
  intro hcircle
  have hback : Relation.TransGen (fun part schema => Leads targets schema part) schema schema :=
    Relation.transGen_swap.2 hcircle
  induction h.transGen with
  | intro schema _ ih => exact ih schema hback h hcircle hback

theorem straight_of_acc {schema : Fields} (h : Acc (fun part schema => Leads targets schema part) schema) :
    Straight targets schema := by
  intro other hother
  apply not_circular_of_acc
  induction hother with
  | refl => exact h
  | tail _ hlast ih => exact ih.inv hlast

/-- The schemas that a schema leads to are among finitely many. -/
theorem acc_of_straight {start : Fields} (h : Straight targets start) :
    Acc (fun part schema => Leads targets schema part) start := by
  have hstart : start ∈ reachable targets.root (.object start) :=
    List.mem_append_left _ (mem_schemasIn (List.mem_append_right _ (mem_subValues_self (.object start))))
  let Led := {schema // schema ∈ reachable targets.root (.object start) ∧
    Relation.ReflTransGen (Leads targets) start schema}
  let back := fun first second : Led => Relation.TransGen (Leads targets) second.1 first.1
  have hfinite : Finite Led :=
    ((List.finite_toSet (reachable targets.root (.object start))).subset fun _ hled => hled.1).to_subtype
  have htrans : IsTrans _ back := ⟨fun _ _ _ hfirst hsecond => hsecond.trans hfirst⟩
  have hirrefl : Std.Irrefl back := ⟨fun schema => h schema.1 schema.2.2⟩
  have hwell : WellFounded back := Finite.wellFounded_of_trans_of_irrefl back
  have hacc : ∀ schema : Led, Acc (fun part schema => Leads targets schema part) schema.1 := by
    intro schema
    induction schema using hwell.induction with
    | _ schema ih =>
        apply Acc.intro
        intro part hpart
        exact ih ⟨part, leads_mem hpart schema.2.1, schema.2.2.tail hpart⟩ (.single hpart)
  exact hacc ⟨start, hstart, .refl⟩

/-- `flatten` ends for the schemas that lead to none that leads back to itself. -/
theorem flattenEnds_iff_straight {schema : Fields} : FlattenEnds targets schema ↔ Straight targets schema :=
  flattenEnds_iff_acc.trans ⟨straight_of_acc, acc_of_straight⟩

theorem mergedEnds_iff_straight {schema : Fields} :
    (∃ fuel, (merged targets fuel schema).isSome = true) ↔ ∀ part ∈ partsOf schema, Straight targets part := by
  unfold merged
  simp only [mergedWith_isSome_iff, ← flattenEnds_iff_straight]
  exact ⟨fun ⟨fuel, h⟩ part hpart => ⟨fuel, h part hpart⟩, flattenEnds_of_parts⟩

end Circles

end Gostman.Fuzz
