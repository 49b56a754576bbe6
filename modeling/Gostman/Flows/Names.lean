import Gostman.Flows.Model
/-!
# The ids of a normal flow

`withUniqueIds` gives every step an id of its own that is not empty, not the
end target and not the name of a member of `Object.prototype`.
-/

namespace Gostman.Flows

open Gostman.Lib Gostman.Js

/-- What `uniqueId` keeps an id from being. -/
structure PlainId (id : String) : Prop where
  ne_empty : id ≠ ""
  ne_end : id ≠ endTarget
  notMem_prototype : id ∉ prototypeNames
  trim_eq : trim id = id

/-! ## One id -/

theorem numberedId_injective (base : String) : Function.Injective (numberedId base) := by
  intro m n h
  apply toString_injective
  simpa [numberedId] using h

/-- The name of a step does not come out reserved once a hyphen is put in. -/
theorem hyphen_notMem_reserved {id : String} (h : '-' ∈ id.toList) :
    id ≠ endTarget ∧ id ∉ prototypeNames := by
  constructor
  · rintro rfl
    exact absurd h (by decide)
  · intro hmem
    simp only [prototypeNames, List.mem_cons, List.not_mem_nil, or_false] at hmem
    rcases hmem with rfl | rfl | rfl | rfl | rfl | rfl | rfl | rfl | rfl | rfl | rfl | rfl <;>
      exact absurd h (by decide)

private theorem plainId_append {stem suffix : String} (hne : stem ≠ "") (htrim : trim stem = stem)
    (hhyphen : '-' ∈ suffix.toList)
    (hlast : ∀ c, suffix.toList.getLast? = some c → isSpace c = false) :
    PlainId (stem ++ suffix) := by
  have hmem : '-' ∈ (stem ++ suffix).toList := by simp [hhyphen]
  exact
    { ne_empty := by simp [hne]
      ne_end := (hyphen_notMem_reserved hmem).1
      notMem_prototype := (hyphen_notMem_reserved hmem).2
      trim_eq := trim_append htrim hne hlast }

private theorem isSpace_of_isDigit {c : Char} (h : c.isDigit = true) : isSpace c = false := by
  have hbounds : 48 ≤ c.toNat ∧ c.toNat ≤ 57 := by
    simp only [Char.isDigit, Bool.and_eq_true, decide_eq_true_eq, ge_iff_le,
      UInt32.le_iff_toNat_le] at h
    exact h
  generalize hn : c.toNat = n at hbounds
  simp only [isSpace, hn]
  have hn' : n = 48 ∨ n = 49 ∨ n = 50 ∨ n = 51 ∨ n = 52 ∨ n = 53 ∨ n = 54 ∨ n = 55 ∨ n = 56 ∨
      n = 57 := by omega
  rcases hn' with rfl | rfl | rfl | rfl | rfl | rfl | rfl | rfl | rfl | rfl <;> decide

private theorem plainId_numbered {base : String} (hne : base ≠ "") (htrim : trim base = base)
    (number : Nat) : PlainId (numberedId base number) := by
  have heq : numberedId base number = base ++ ("-" ++ toString number) := by
    simp [numberedId, String.append_assoc]
  rw [heq]
  refine plainId_append hne htrim (by simp) fun c hc => ?_
  rw [String.toList_append, List.getLast?_append] at hc
  cases hdigit : (toString number).toList.getLast? with
  | none =>
      rw [List.getLast?_eq_none_iff] at hdigit
      exact absurd (String.toList_eq_nil_iff.1 hdigit) (toString_ne_empty number)
  | some d =>
      rw [hdigit, Option.some_or, Option.some.injEq] at hc
      exact isSpace_of_isDigit (hc ▸ isDigit_getLast_toString hdigit)

theorem uniqueId_notMem (wanted : String) (taken : List String) : uniqueId wanted taken ∉ taken := by
  unfold uniqueId
  simp only
  split_ifs with h
  · have hname : ∀ n, decide (numberedId (baseId wanted) n ∉ taken) = false →
        numberedId (baseId wanted) n ∈ taken := by simp
    have hfree := free_firstFree (numberedId_injective (baseId wanted)) hname
      (le_refl taken.length) 2
    exact of_decide_eq_true hfree
  · exact h

theorem plainId_baseId {wanted : String} (hne : wanted ≠ "") (htrim : trim wanted = wanted) :
    PlainId (baseId wanted) := by
  unfold baseId
  split_ifs with h
  · refine plainId_append hne htrim (by decide) ?_
    intro c hlast
    obtain rfl : 'p' = c := by simpa using hlast
    decide
  · exact ⟨hne, fun heq => h (.inl heq), fun hmem => h (.inr hmem), htrim⟩

theorem plainId_uniqueId {wanted : String} (hne : wanted ≠ "") (htrim : trim wanted = wanted)
    (taken : List String) : PlainId (uniqueId wanted taken) := by
  have hbase := plainId_baseId hne htrim
  unfold uniqueId
  simp only
  split_ifs with h
  · exact plainId_numbered hbase.ne_empty hbase.trim_eq _
  · exact hbase

theorem uniqueId_of_plain {id : String} {taken : List String} (hplain : PlainId id)
    (hfree : id ∉ taken) : uniqueId id taken = id := by
  have hbase : baseId id = id := by
    simp [baseId, hplain.ne_end, hplain.notMem_prototype]
  simp [uniqueId, hbase, hfree]

/-! ## All ids of a list of steps -/

/-- What `normalizeStep` makes of ids and kinds before they become unique. -/
structure Nameable (head : StepHead) : Prop where
  trim_id : trim head.id = head.id
  kind_ne_empty : head.kind.text ≠ ""
  trim_kind : trim head.kind.text = head.kind.text

theorem allStepIds_eq (steps : List Step) :
    allStepIds steps = (Outline.flatten opensInner steps).map fun step => step.head.id := by
  rw [allStepIds, walkSteps, ← Outline.walk_map_item steps "", List.map_map]
  rfl

theorem allStepIds_cons (step : Step) (rest : List Step) :
    allStepIds (step :: rest) = allStepIds [step] ++ allStepIds rest := by
  simp [allStepIds_eq, Outline.flatten]

theorem plainId_of_nameable {head : StepHead} (h : Nameable head) (taken : List String) :
    PlainId (uniqueId (if head.id = "" then head.kind.text else head.id) taken) := by
  split_ifs with hid
  · exact plainId_uniqueId h.kind_ne_empty h.trim_kind taken
  · exact plainId_uniqueId hid h.trim_id taken

/-- What `uniqueSteps` made of a list: the ids it took are new, distinct and
plain, and every step keeps its head but for the id. -/
structure Renamed (taken : List String) (steps result : List Step) (after : List String) : Prop where
  after_eq : after = taken ++ allStepIds result
  nodup : taken.Nodup → after.Nodup
  plain : ∀ id ∈ allStepIds result, PlainId id
  heads : ∀ step ∈ Outline.flatten opensInner result,
    ∃ old ∈ Outline.flatten opensInner steps, ∃ id, step.head = { old.head with id := id }

theorem opensInner_withId (head : StepHead) (id : String) :
    opensInner { head with id := id } = opensInner head := rfl

theorem nodup_snoc_uniqueId {taken : List String} (h : taken.Nodup) (wanted : String) :
    (taken ++ [uniqueId wanted taken]).Nodup := by
  refine List.nodup_append.2 ⟨h, by simp, ?_⟩
  intro a ha b hb heq
  simp only [List.mem_singleton] at hb
  exact uniqueId_notMem wanted taken (hb ▸ heq ▸ ha)

mutual

private theorem renamed_uniqueSteps (taken : List String) :
    ∀ steps : List Step, (∀ step ∈ Outline.flatten opensInner steps, Nameable step.head) →
      Renamed taken steps (uniqueSteps taken steps).1 (uniqueSteps taken steps).2
  | [], _ =>
      { after_eq := by simp [uniqueSteps, allStepIds_eq, Outline.flatten]
        nodup := by simp [uniqueSteps]
        plain := by simp [uniqueSteps, allStepIds_eq, Outline.flatten]
        heads := by simp [uniqueSteps, Outline.flatten] }
  | step :: rest, hnames => by
      have hstep := renamed_uniqueStep taken step (fun other hother => hnames other (by
        simp only [Outline.flatten, List.mem_cons, List.mem_append] at hother ⊢
        rcases hother with h | h | h
        · exact .inl h
        · exact .inr (.inl h)
        · simp at h))
      have hrest := renamed_uniqueSteps (uniqueStep taken step).2 rest (fun other hother =>
        hnames other (by simp [Outline.flatten, hother]))
      refine
        { after_eq := ?_
          nodup := fun h => hrest.nodup (hstep.nodup h)
          plain := ?_
          heads := ?_ }
      · calc
          (uniqueSteps taken (step :: rest)).2 =
              (uniqueStep taken step).2 ++
                allStepIds (uniqueSteps (uniqueStep taken step).2 rest).1 := hrest.after_eq
          _ = taken ++ allStepIds [(uniqueStep taken step).1] ++
                allStepIds (uniqueSteps (uniqueStep taken step).2 rest).1 :=
              congrArg (· ++ _) hstep.after_eq
          _ = taken ++ allStepIds (uniqueSteps taken (step :: rest)).1 := by
              rw [List.append_assoc, ← allStepIds_cons]
              rfl
      · intro id hid
        simp only [uniqueSteps] at hid
        rw [allStepIds_cons] at hid
        rcases List.mem_append.1 hid with h | h
        · exact hstep.plain id h
        · exact hrest.plain id h
      · intro other hother
        have hcases : other ∈ Outline.flatten opensInner [(uniqueStep taken step).1] ∨
            other ∈ Outline.flatten opensInner (uniqueSteps (uniqueStep taken step).2 rest).1 := by
          simpa [uniqueSteps, Outline.flatten, or_assoc] using hother
        rcases hcases with h | h
        · obtain ⟨old, hold, id, heq⟩ := hstep.heads other h
          refine ⟨old, ?_, id, heq⟩
          simp only [Outline.flatten, List.mem_cons, List.mem_append, List.not_mem_nil,
            or_false] at hold ⊢
          tauto
        · obtain ⟨old, hold, id, heq⟩ := hrest.heads other h
          exact ⟨old, by simp [Outline.flatten, hold], id, heq⟩

private theorem renamed_uniqueStep (taken : List String) :
    ∀ step : Step, (∀ other ∈ Outline.flatten opensInner [step], Nameable other.head) →
      Renamed taken [step] [(uniqueStep taken step).1] (uniqueStep taken step).2
  | .node head inner, hnames => by
      have hhead : Nameable head := hnames (.node head inner) (by simp [Outline.flatten])
      have hplain := plainId_of_nameable hhead taken
      have hnodup : taken.Nodup → (taken ++ [uniqueId (if head.id = "" then head.kind.text
          else head.id) taken]).Nodup := fun h => nodup_snoc_uniqueId h _
      revert hplain hnodup
      generalize hid : uniqueId (if head.id = "" then head.kind.text else head.id) taken = id
      intro hplain hnodup
      by_cases hopen : head.kind.isContainer
      · have hinner := renamed_uniqueSteps (taken ++ [id]) inner (fun other hother =>
          hnames other (by simp [Outline.flatten, Outline.beneath, opensInner, hopen, hother]))
        have hstep : uniqueStep taken (.node head inner) =
            (.node { head with id := id } (uniqueSteps (taken ++ [id]) inner).1,
              (uniqueSteps (taken ++ [id]) inner).2) := by
          simp [uniqueStep, hopen, hid]
        have hopen' : opensInner { head with id := id } = true := hopen
        have hids : allStepIds [.node { head with id := id } (uniqueSteps (taken ++ [id]) inner).1] =
            id :: allStepIds (uniqueSteps (taken ++ [id]) inner).1 := by
          simp [allStepIds_eq, Outline.flatten, Outline.beneath, hopen']
        rw [hstep]
        refine
          { after_eq := ?_
            nodup := fun h => hinner.nodup (hnodup h)
            plain := ?_
            heads := ?_ }
        · rw [hids, hinner.after_eq]
          simp
        · intro other hother
          rw [hids] at hother
          rcases List.mem_cons.1 hother with rfl | h
          · exact hplain
          · exact hinner.plain other h
        · intro other hother
          simp only [Outline.flatten, Outline.beneath, hopen', if_true, List.append_nil,
            List.mem_cons] at hother
          rcases hother with rfl | h
          · exact ⟨.node head inner, by simp [Outline.flatten], id, rfl⟩
          · obtain ⟨old, hold, id', heq⟩ := hinner.heads other h
            exact ⟨old, by simp [Outline.flatten, Outline.beneath, opensInner, hopen, hold], id', heq⟩
      · have hstep : uniqueStep taken (.node head inner) =
            (.node { head with id := id } inner, taken ++ [id]) := by
          simp [uniqueStep, hopen, hid]
        have hopen' : opensInner { head with id := id } = false := by
          rw [opensInner_withId]
          simpa [opensInner] using hopen
        have hids : allStepIds [.node { head with id := id } inner] = [id] := by
          simp [allStepIds_eq, Outline.flatten, Outline.beneath, hopen']
        rw [hstep]
        refine
          { after_eq := by rw [hids]
            nodup := hnodup
            plain := ?_
            heads := ?_ }
        · intro other hother
          rw [hids, List.mem_singleton] at hother
          exact hother ▸ hplain
        · intro other hother
          have heq : other = .node { head with id := id } inner := by
            simpa [Outline.flatten, Outline.beneath, hopen'] using hother
          exact ⟨.node head inner, by simp [Outline.flatten], id, by simp [heq]⟩

end

/-! ## The steps `normalizeList` reads -/

theorem kind_ofText_text (name : String) : (Kind.ofText name).text = name := by
  unfold Kind.ofText
  split_ifs <;> simp_all [Kind.text]

theorem kind_fieldsOf (numerals : Numerals) (raw : Json) (kind : Kind) :
    (fieldsOf numerals raw kind).kind = kind := by
  cases kind <;> rfl

theorem kind_headOf (numerals : Numerals) (raw : Json) :
    (headOf numerals raw).kind.text = trimmedOr numerals (raw.field "kind") "request" := by
  rw [StepHead.kind, headOf, kind_fieldsOf, kind_ofText_text]

theorem nameable_headOf (numerals : Numerals) (raw : Json) : Nameable (headOf numerals raw) where
  trim_id := trim_trimmed numerals _
  kind_ne_empty := by
    rw [kind_headOf, trimmedOr]
    split_ifs with h
    · decide
    · exact h
  trim_kind := by
    rw [kind_headOf, trimmedOr]
    split_ifs with h
    · decide
    · exact trim_trimmed numerals _

section Read

variable (numerals : Numerals)

mutual

private theorem headOf_normalizeStep (depth : Nat) :
    ∀ raw : Json, ∀ step ∈ Outline.flatten opensInner (normalizeStep numerals depth raw).toList,
      ∃ source, step.head = headOf numerals source
  | .obj fields, step, hstep => by
      simp only [normalizeStep, Option.toList_some, Outline.flatten, Outline.beneath,
        List.append_nil, List.mem_cons] at hstep
      rcases hstep with rfl | hinner
      · exact ⟨.obj fields, rfl⟩
      · split_ifs at hinner
        · exact headOf_stepsField (depth + 1) fields step hinner
        · simp [Outline.flatten] at hinner
        · simp at hinner
  | .null, _, hstep => by simp [normalizeStep, Outline.flatten] at hstep
  | .bool _, _, hstep => by simp [normalizeStep, Outline.flatten] at hstep
  | .num _, _, hstep => by simp [normalizeStep, Outline.flatten] at hstep
  | .str _, _, hstep => by simp [normalizeStep, Outline.flatten] at hstep
  | .arr _, _, hstep => by simp [normalizeStep, Outline.flatten] at hstep

private theorem headOf_stepsField (depth : Nat) :
    ∀ fields : List (String × Json),
      ∀ step ∈ Outline.flatten opensInner (stepsField numerals depth fields),
        ∃ source, step.head = headOf numerals source
  | [], _, hstep => by simp [stepsField, Outline.flatten] at hstep
  | (key, value) :: rest, step, hstep => by
      simp only [stepsField] at hstep
      split_ifs at hstep
      · exact headOf_stepsValue depth value step hstep
      · exact headOf_stepsField depth rest step hstep

private theorem headOf_stepsValue (depth : Nat) :
    ∀ value : Json, ∀ step ∈ Outline.flatten opensInner (stepsValue numerals depth value),
      ∃ source, step.head = headOf numerals source
  | .arr items, step, hstep => headOf_normalizeList depth items step hstep
  | .null, _, hstep => by simp [stepsValue, Outline.flatten] at hstep
  | .bool _, _, hstep => by simp [stepsValue, Outline.flatten] at hstep
  | .num _, _, hstep => by simp [stepsValue, Outline.flatten] at hstep
  | .str _, _, hstep => by simp [stepsValue, Outline.flatten] at hstep
  | .obj _, _, hstep => by simp [stepsValue, Outline.flatten] at hstep

private theorem headOf_normalizeList (depth : Nat) :
    ∀ items : List Json, ∀ step ∈ Outline.flatten opensInner (normalizeList numerals depth items),
      ∃ source, step.head = headOf numerals source
  | [], _, hstep => by simp [normalizeList, Outline.flatten] at hstep
  | item :: rest, step, hstep => by
      rw [normalizeList, Outline.flatten_append, List.mem_append] at hstep
      rcases hstep with h | h
      · exact headOf_normalizeStep depth item step h
      · exact headOf_normalizeList depth rest step h

end

private theorem renamed_normalizeFlow (raw : Json) :
    ∃ steps after, (∀ step ∈ Outline.flatten opensInner steps,
        ∃ source, step.head = headOf numerals source) ∧
      Renamed [] steps (normalizeFlow numerals raw).steps after := by
  have key : ∀ fields, ∃ after,
      Renamed [] (stepsField numerals 0 fields) (withUniqueIds (stepsField numerals 0 fields))
        after := by
    intro fields
    refine ⟨_, renamed_uniqueSteps [] _ fun step hstep => ?_⟩
    obtain ⟨source, heq⟩ := headOf_stepsField numerals 0 fields step hstep
    exact heq ▸ nameable_headOf numerals source
  cases raw with
  | obj fields =>
      obtain ⟨after, h⟩ := key fields
      exact ⟨_, after, headOf_stepsField numerals 0 fields, h⟩
  | _ =>
      obtain ⟨after, h⟩ := key []
      exact ⟨_, after, headOf_stepsField numerals 0 [], h⟩

/-- The steps of a normal flow have distinct ids. -/
theorem nodup_allStepIds (raw : Json) : (allStepIds (normalizeFlow numerals raw).steps).Nodup := by
  obtain ⟨steps, after, _, hrenamed⟩ := renamed_normalizeFlow numerals raw
  have h := hrenamed.nodup List.nodup_nil
  rwa [hrenamed.after_eq, List.nil_append] at h

theorem plainId_of_mem_allStepIds {raw : Json} {id : String}
    (h : id ∈ allStepIds (normalizeFlow numerals raw).steps) : PlainId id := by
  obtain ⟨steps, after, _, hrenamed⟩ := renamed_normalizeFlow numerals raw
  exact hrenamed.plain id h

/-- The head of every step of a normal flow was read by `headOf`, but for its
id. -/
theorem exists_headOf {raw : Json} {step : Step}
    (h : step ∈ Outline.flatten opensInner (normalizeFlow numerals raw).steps) :
    ∃ source id, step.head = { headOf numerals source with id := id } := by
  obtain ⟨steps, after, hheads, hrenamed⟩ := renamed_normalizeFlow numerals raw
  obtain ⟨old, hold, id, heq⟩ := hrenamed.heads step h
  obtain ⟨source, hsource⟩ := hheads old hold
  exact ⟨source, id, by rw [heq, hsource]⟩

end Read

end Gostman.Flows
