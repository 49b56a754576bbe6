import Gostman.Fuzz.Circles
import Gostman.Fuzz.Generate
/-!
# Where the generator ends

`valid` and `mutations` flatten the schema they are called with and go on with
its items and its properties, some levels deep.  They give a result just where
`flatten` ends in all these calls and no text is cut at a length below zero.
-/

namespace Gostman.Fuzz

open Gostman.Lib Gostman.Openapi

/-! ## What a schema is put together to -/

mutual

/-- With so many hops left, the schema is put together to the flat one: references and
first branches are followed, and the parts of an `allOf` are merged. -/
inductive Flattens (targets : Targets) : Nat → Fields → Fields → Prop
  | spent {schema : Fields} : Flattens targets 0 schema []
  | unresolved {hops : Nat} {schema : Fields} (hop : hopOf targets schema = .unresolved) :
      Flattens targets (hops + 1) schema []
  | done {hops : Nat} {schema : Fields} (hop : hopOf targets schema = .done) :
      Flattens targets (hops + 1) schema schema
  | next {hops : Nat} {schema target flat : Fields} (hop : hopOf targets schema = .next target)
      (rest : Flattens targets hops target flat) : Flattens targets (hops + 1) schema flat
  | merge {hops : Nat} {schema flat : Fields} {flats : List Fields} (hop : hopOf targets schema = .merge)
      (parts : FlattenAll targets (partsOf schema) flats)
      (rest : Flattens targets hops (flats.foldl Merging.part {}).fields flat) : Flattens targets (hops + 1) schema flat

/-- The schemas are put together to the flat ones, each with all hops. -/
inductive FlattenAll (targets : Targets) : List Fields → List Fields → Prop
  | nil : FlattenAll targets [] []
  | cons {schema flat : Fields} {schemas flats : List Fields} (first : Flattens targets maxRefHops schema flat)
      (rest : FlattenAll targets schemas flats) : FlattenAll targets (schema :: schemas) (flat :: flats)

end

section Flat

variable {targets : Targets}

theorem flattenAll_of_mapM {f : Fields → Option Fields}
    (hf : ∀ schema flat, f schema = some flat → Flattens targets maxRefHops schema flat) {schemas flats : List Fields}
    (h : schemas.mapM f = some flats) : FlattenAll targets schemas flats := by
  induction schemas generalizing flats with
  | nil =>
      cases h
      exact .nil
  | cons schema rest ih =>
      rw [List.mapM_cons] at h
      obtain ⟨flat, hflat, hrest⟩ := Option.bind_eq_some_iff.1 h
      obtain ⟨others, hothers, heq⟩ := Option.bind_eq_some_iff.1 hrest
      cases heq
      exact .cons (hf schema flat hflat) (ih hothers)

theorem flattens_of_flattenHops {f : Fields → Option Fields}
    (hf : ∀ schema flat, f schema = some flat → Flattens targets maxRefHops schema flat) {hops : Nat}
    {schema flat : Fields} (h : flattenHops targets (mergedWith f) hops schema = some flat) :
    Flattens targets hops schema flat := by
  induction hops generalizing schema with
  | zero =>
      cases h
      exact .spent
  | succ hops ih =>
      unfold flattenHops at h
      cases hhop : hopOf targets schema with
      | unresolved =>
          rw [hhop] at h
          cases h
          exact .unresolved hhop
      | done =>
          rw [hhop] at h
          cases h
          exact .done hhop
      | next target =>
          rw [hhop] at h
          exact .next hhop (ih h)
      | merge =>
          rw [hhop] at h
          obtain ⟨out, hout, hflat⟩ := Option.bind_eq_some_iff.1 h
          obtain ⟨flats, hflats, rfl⟩ := Option.map_eq_some_iff.1 hout
          exact .merge hhop (flattenAll_of_mapM hf hflats) (ih hflat)

theorem flattens_of_flatten {fuel : Nat} {schema flat : Fields} (h : flatten targets fuel schema = some flat) :
    Flattens targets maxRefHops schema flat := by
  induction fuel generalizing schema flat with
  | zero => cases h
  | succ fuel ih => exact flattens_of_flattenHops (fun schema flat hflat => ih hflat) h

theorem Flattens.unique {hops : Nat} {schema first second : Fields} (h : Flattens targets hops schema first)
    (h' : Flattens targets hops schema second) : first = second := by
  refine @Flattens.rec targets
    (fun hops schema first _ => ∀ second, Flattens targets hops schema second → first = second)
    (fun schemas firsts _ => ∀ seconds, FlattenAll targets schemas seconds → firsts = seconds)
    ?_ ?_ ?_ ?_ ?_ ?_ ?_ hops schema first h second h'
  · intro schema second h'
    cases h'
    rfl
  · intro hops schema hop second h'
    cases h' with
    | unresolved => rfl
    | done hother => cases hop.symm.trans hother
    | next hother _ => cases hop.symm.trans hother
    | merge hother _ _ => cases hop.symm.trans hother
  · intro hops schema hop second h'
    cases h' with
    | unresolved hother => cases hop.symm.trans hother
    | done => rfl
    | next hother _ => cases hop.symm.trans hother
    | merge hother _ _ => cases hop.symm.trans hother
  · intro hops schema target flat hop _ ih second h'
    cases h' with
    | unresolved hother => cases hop.symm.trans hother
    | done hother => cases hop.symm.trans hother
    | next hother hrest =>
        cases hop.symm.trans hother
        exact ih second hrest
    | merge hother _ _ => cases hop.symm.trans hother
  · intro hops schema flat flats hop _ _ ihParts ih second h'
    cases h' with
    | unresolved hother => cases hop.symm.trans hother
    | done hother => cases hop.symm.trans hother
    | next hother _ => cases hop.symm.trans hother
    | merge _ hparts hrest =>
        obtain rfl := ihParts _ hparts
        exact ih second hrest
  · intro seconds h'
    cases h'
    rfl
  · intro schema flat schemas flats _ _ ihFirst ihRest seconds h'
    cases h' with
    | cons hfirst hrest => rw [ihFirst _ hfirst, ihRest _ hrest]

end Flat

/-! ## Calls -/

/-- A call of `valid`, of `mutations`, or for one property of an object, with the levels
that are left. -/
inductive Call where
  | valid (left : Nat) (schema : Fields)
  | property (left : Nat) (schema : Fields)
  | mutations (left : Nat) (schema : Fields)

def Call.schema : Call → Fields
  | .valid _ schema | .property _ schema | .mutations _ schema => schema

/-- The value is one of an `enum`, or a `const`. -/
def isGiven (flat : Fields) : Bool :=
  list (Value.lookup flat "enum") ≠ [] || Record.has flat "const"

def itemsOf (flat : Fields) : Fields :=
  object (Value.lookup flat "items")

def propertiesOf (flat : Fields) : List Fields :=
  let properties := object (Value.lookup flat "properties")
  (sortedKeys properties).map fun name => object (Value.lookup properties name)

def allowsTooMany (flat : Fields) : Bool :=
  match number (Value.lookup flat "maxItems") with
  | some most => !most.less (.ofNat 0) && most.less (.ofNat maxItems)
  | none => false

/-- The calls of `valid` with one level less, where the schema is put together to the
flat one. -/
def validCalls (left : Nat) (flat : Fields) : List Call :=
  if isGiven flat then []
  else if kindOf flat = "array" then List.replicate (itemCount flat) (.valid left (itemsOf flat))
  else if kindOf flat = "object" then (propertiesOf flat).map (.property left)
  else []

def mutationCalls (left : Nat) (flat : Fields) : List Call :=
  if kindOf flat = "array" then
    (if allowsTooMany flat then [.valid left (itemsOf flat)] else []) ++ [.mutations left (itemsOf flat)]
  else if kindOf flat = "object" then .valid (left + 1) flat :: (propertiesOf flat).map (.mutations left)
  else []

def Call.inner : Call → Fields → List Call
  | .valid (left + 1) _, flat => validCalls left flat
  | .property left _, flat => if (Value.lookup flat "readOnly").isTrue then [] else [.valid left flat]
  | .mutations (left + 1) _, flat => mutationCalls left flat
  | .valid 0 _, _ | .mutations 0 _, _ => []

/-- A `minLength` below one, where the text below it would have a length below zero. -/
def breaksSlice (flat : Fields) : Bool :=
  match number (Value.lookup flat "minLength") with
  | some least => (Number.ofNat 0).less least && least.less (.ofNat 1)
  | none => false

def Call.panics : Call → Fields → Bool
  | .mutations (_ + 1) _, flat => kindOf flat = "string" && breaksSlice flat
  | _, _ => false

def Makes (targets : Targets) (call inner : Call) : Prop :=
  ∃ flat, Flattens targets maxRefHops call.schema flat ∧ inner ∈ call.inner flat

/-- No call that a call makes, itself or through others, has a schema that leads to one
that leads back to itself; and none panics, unless it may. -/
def Tame (panicking : Prop) (targets : Targets) (call : Call) : Prop :=
  ∀ other, Relation.ReflTransGen (Makes targets) call other → Straight targets other.schema ∧
    (panicking ∨ ∀ flat, Flattens targets maxRefHops other.schema flat → other.panics flat = false)

section Calls

variable {targets : Targets} {panicking : Prop}

theorem tame_iff {call : Call} : Tame panicking targets call ↔ Straight targets call.schema ∧
    ∀ flat, Flattens targets maxRefHops call.schema flat → (panicking ∨ call.panics flat = false) ∧
      ∀ inner ∈ call.inner flat, Tame panicking targets inner := by
  constructor
  · intro h
    have hself := h call .refl
    refine ⟨hself.1, fun flat hflat => ⟨hself.2.imp_right fun hnone => hnone flat hflat, ?_⟩⟩
    intro inner hinner other hother
    exact h other (.head ⟨flat, hflat, hinner⟩ hother)
  · rintro ⟨hstraight, hflat⟩ other hother
    obtain rfl | ⟨inner, ⟨flat, hflattens, hinner⟩, hrest⟩ := hother.cases_head
    · refine ⟨hstraight, ?_⟩
      by_cases hpanicking : panicking
      · exact .inl hpanicking
      · exact .inr fun flat hflattens => (hflat flat hflattens).1.resolve_left hpanicking
    · exact (hflat flat hflattens).2 inner hinner other hrest

variable {σ : Type}

theorem gives_flattened {fuel : Nat} {schema flat : Fields}
    (h : Returns (flattened targets fuel schema : Deep σ Panic Fields) flat) :
    flatten targets fuel schema = some flat := by
  obtain ⟨start, state, h⟩ := h
  obtain ⟨found, hfound, heq⟩ := Option.map_eq_some_iff.1 (show (flatten targets fuel schema).map _ = some _ from h)
  cases heq
  exact hfound

theorem ends_flattened {schema : Fields} (h : Straight targets schema) :
    Ends panicking fun fuel => (flattened targets fuel schema : Deep σ Panic Fields) where
  mono := by
    intro fuel state result hresult
    obtain ⟨flat, hflat, rfl⟩ := Option.map_eq_some_iff.1 (show (flatten targets fuel schema).map _ = some _ from hresult)
    change (flatten targets (fuel + 1) schema).map _ = _
    rw [flatten_mono hflat]
    rfl
  total := by
    intro state
    obtain ⟨fuel, hfuel⟩ := flattenEnds_iff_straight.2 h
    obtain ⟨flat, hflat⟩ := Option.isSome_iff_exists.1 hfuel
    refine ⟨fuel, .ok (flat, state), ?_, .inr ⟨_, rfl⟩⟩
    change (flatten targets fuel schema).map _ = _
    rw [hflat]
    rfl

/-- A call ends that first flattens its schema, where what it goes on with ends. -/
theorem ends_call {α : Type} {call : Call} {d : Nat → Fields → Deep σ Panic α} (h : Tame panicking targets call)
    (hd : ∀ flat, (panicking ∨ call.panics flat = false) →
      (∀ inner ∈ call.inner flat, Tame panicking targets inner) → Ends panicking fun fuel => d fuel flat) :
    Ends panicking fun fuel => flattened targets fuel call.schema >>= d fuel := by
  obtain ⟨hstraight, hflat⟩ := tame_iff.1 h
  apply Ends.bind (ends_flattened hstraight)
  intro fuel flat hreturns
  have hinner := hflat flat (flattens_of_flatten (gives_flattened hreturns))
  exact hd flat hinner.1 hinner.2

/-- A call is tame that succeeds, where those it makes then are. -/
theorem tame_of_succeeds {α : Type} {call : Call} {fuel : Nat} {d : Fields → Deep σ Panic α}
    (h : Succeeds (flattened targets fuel call.schema >>= d))
    (hd : ∀ flat, Succeeds (d flat) → call.panics flat = false ∧ ∀ inner ∈ call.inner flat, Tame False targets inner) :
    Tame False targets call := by
  obtain ⟨flat, hreturns, hrest⟩ := h.of_bind
  have hflatten := gives_flattened hreturns
  refine tame_iff.2 ⟨flattenEnds_iff_straight.1 ⟨fuel, Option.isSome_of_eq_some hflatten⟩, ?_⟩
  intro other hother
  obtain rfl := (flattens_of_flatten hflatten).unique hother
  exact ⟨.inr (hd flat hrest).1, (hd flat hrest).2⟩

theorem ends_drawn {α : Type} (draw : σ → α × σ) : Ends panicking fun _ : Nat => (drawn draw : Deep σ Panic α) :=
  Ends.constant fun state => ⟨draw state, rfl⟩

theorem ends_checked {α : Type} {result : Except Panic α} (h : panicking ∨ ∃ value, result = .ok value) :
    Ends panicking fun _ : Nat => (checked result : Deep σ Panic α) where
  mono _ _ _ h := h
  total := by
    intro state
    refine ⟨0, result.map (·, state), rfl, h.imp_right ?_⟩
    rintro ⟨value, rfl⟩
    exact ⟨(value, state), rfl⟩

theorem padded_ok {base : List Char} {least most : Int} (h : 0 ≤ most) : ∃ text, padded base least most = .ok text := by
  unfold padded
  dsimp only
  rw [if_neg (Int.not_lt.2 h)]
  split_ifs
  · exact ⟨_, rfl⟩
  · exact ⟨_, rfl⟩

theorem textOf_ok (schema : Fields) : ∃ text, textOf schema = .ok text := by
  unfold textOf
  cases Record.read sampleFormats (text (Value.lookup schema "format")) with
  | some sample => exact ⟨sample, rfl⟩
  | none => exact padded_ok (Int.natCast_nonneg _)

/-! ## Values -/

variable (random : Random σ)

theorem ends_property {left : Nat} (ih : ∀ {schema}, Tame panicking targets (.valid left schema) →
      Ends panicking fun fuel => validTo targets random fuel left schema)
    {properties out : Fields} {name : String}
    (h : Tame panicking targets (.property left (object (Value.lookup properties name)))) :
    Ends panicking fun fuel => property targets fuel (validTo targets random fuel left) properties out name := by
  refine ends_call h fun flat _ hinner => ?_
  change ∀ inner ∈ (if (Value.lookup flat "readOnly").isTrue then [] else [Call.valid left flat]), _ at hinner
  split_ifs at hinner with hread
  · simp only [hread, if_true]
    exact Ends.pure out
  · simp only [hread, Bool.false_eq_true, if_false]
    exact Ends.andThen (ih (hinner _ (List.mem_singleton_self _))) fun value => Ends.pure _

theorem isGiven_eq_false {flat : Fields} (henum : list (Value.lookup flat "enum") = [])
    (hconst : Record.read flat "const" = none) : isGiven flat = false := by
  simp [isGiven, Record.has, henum, hconst]

theorem ends_validTo {left : Nat} {schema : Fields} (h : Tame panicking targets (.valid left schema)) :
    Ends panicking fun fuel => validTo targets random fuel left schema := by
  induction left generalizing schema with
  | zero => exact Ends.andThen (ends_flattened (tame_iff.1 h).1) fun _ => Ends.pure Value.null
  | succ left ih =>
      refine ends_call h fun flat _ hinner => ?_
      change ∀ inner ∈ validCalls left flat, _ at hinner
      dsimp only
      cases henum : list (Value.lookup flat "enum") with
      | cons first rest => exact Ends.andThen (ends_drawn _) fun index => Ends.pure _
      | nil =>
          dsimp only
          cases hconst : Record.read flat "const" with
          | some constant => exact Ends.pure constant
          | none =>
              unfold validCalls at hinner
              rw [isGiven_eq_false henum hconst, if_neg Bool.false_ne_true] at hinner
              dsimp only
              split_ifs with hnumber hboolean harray hobject
              · exact ends_drawn _
              · exact Ends.andThen (ends_drawn _) fun index => Ends.pure _
              · rw [if_pos harray] at hinner
                apply Ends.andThen
                · apply Ends.mapM
                  intro item hitem
                  obtain ⟨hcount, rfl⟩ := List.mem_replicate.1 hitem
                  exact ih (hinner _ (List.mem_replicate.2 ⟨hcount, rfl⟩))
                · exact fun items => Ends.pure _
              · rw [if_neg harray, if_pos hobject] at hinner
                apply Ends.andThen
                · apply Ends.foldlM
                  intro out name hname
                  exact ends_property random ih (hinner _ (List.mem_map_of_mem (List.mem_map_of_mem hname)))
                · exact fun out => Ends.pure _
              · exact Ends.andThen (ends_checked (.inr (textOf_ok flat))) fun text => Ends.pure _

theorem tame_property {left fuel : Nat} (ih : ∀ {schema}, Succeeds (validTo targets random fuel left schema) →
      Tame False targets (.valid left schema)) {properties out : Fields} {name : String}
    (h : Succeeds (property targets fuel (validTo targets random fuel left) properties out name)) :
    Tame False targets (.property left (object (Value.lookup properties name))) := by
  refine tame_of_succeeds h fun flat hrest => ⟨rfl, ?_⟩
  change ∀ inner ∈ (if (Value.lookup flat "readOnly").isTrue then [] else [Call.valid left flat]), _
  split_ifs with hread
  · exact List.forall_mem_nil _
  · simp only [hread, Bool.false_eq_true, if_false] at hrest
    exact List.forall_mem_singleton.2 (ih hrest.left)

theorem tame_validTo {left fuel : Nat} {schema : Fields} (h : Succeeds (validTo targets random fuel left schema)) :
    Tame False targets (.valid left schema) := by
  induction left generalizing schema with
  | zero => exact tame_of_succeeds h fun flat _ => ⟨rfl, List.forall_mem_nil _⟩
  | succ left ih =>
      refine tame_of_succeeds h fun flat hrest => ⟨rfl, ?_⟩
      change ∀ inner ∈ validCalls left flat, _
      unfold validCalls
      by_cases hgiven : isGiven flat = true
      · rw [if_pos hgiven]
        exact List.forall_mem_nil _
      · rw [if_neg hgiven]
        simp only [isGiven, Bool.or_eq_true, decide_eq_true_eq, not_or, not_not, Record.has, Bool.not_eq_true,
          Option.isSome_eq_false_iff, Option.isNone_iff_eq_none] at hgiven
        simp only [hgiven.1, hgiven.2] at hrest
        split_ifs with harray hobject
        · have hnumber : ¬ (kindOf flat = "integer" ∨ kindOf flat = "number") ∧ kindOf flat ≠ "boolean" := by
            rw [harray]
            decide
          rw [if_neg hnumber.1, if_neg hnumber.2, if_pos harray] at hrest
          intro inner hinner
          obtain ⟨hcount, rfl⟩ := List.mem_replicate.1 hinner
          exact ih (hrest.left.of_mapM (List.mem_replicate.2 ⟨hcount, rfl⟩))
        · have hnumber : ¬ (kindOf flat = "integer" ∨ kindOf flat = "number") ∧ kindOf flat ≠ "boolean" := by
            rw [hobject]
            decide
          rw [if_neg hnumber.1, if_neg hnumber.2, if_neg harray, if_pos hobject] at hrest
          intro inner hinner
          obtain ⟨schema, hschema, rfl⟩ := List.mem_map.1 hinner
          obtain ⟨name, hname, rfl⟩ := List.mem_map.1 hschema
          obtain ⟨out, hproperty⟩ := hrest.left.of_foldlM hname
          exact tame_property random ih hproperty
        · exact List.forall_mem_nil _

/-! ## Mutations -/

theorem padded_ok_iff {length : Int} : (∃ text, padded [] length length = .ok text) ↔ 0 ≤ length := by
  constructor
  · rintro ⟨text, h⟩
    by_contra hneg
    unfold padded at h
    dsimp only at h
    rw [if_pos (by omega), if_pos (by omega)] at h
    cases h
  · exact padded_ok

theorem lengthMutations_ok_iff {within beyond : String} {length other : Int} (h : 0 ≤ length) :
    (∃ found, lengthMutations within beyond length other = .ok found) ↔ 0 ≤ other := by
  obtain ⟨fitting, hfitting⟩ := padded_ok_iff.2 h
  unfold lengthMutations
  rw [hfitting]
  constructor
  · rintro ⟨found, hfound⟩
    apply padded_ok_iff.1
    cases hother : padded [] other other with
    | error panic =>
        rw [hother] at hfound
        cases hfound
    | ok text => exact ⟨text, rfl⟩
  · intro hother
    obtain ⟨breaking, hbreaking⟩ := padded_ok_iff.2 hother
    rw [hbreaking]
    exact ⟨_, rfl⟩

theorem whole_pos_iff {least : Number} (hpos : (Number.ofNat 0).less least = true)
    (hmost : (Number.ofNat maxTextLength).less least = false) :
    0 < least.whole ↔ least.less (.ofNat 1) = false := by
  have hone : (0 : Int) < one := Int.natCast_pos.2 (by decide +kernel)
  cases least with
  | nan => cases hpos
  | infinite negative =>
      cases negative with
      | true => cases hpos
      | false => cases hmost
  | finite multiple =>
      change 0 < (multiple / one).toNat ↔ decide (multiple < ((1 * one : Nat) : Int)) = false
      rw [decide_eq_false_iff_not, Int.not_lt, Nat.one_mul, Int.lt_toNat, Int.natCast_zero, ← Int.add_one_le_iff,
        Int.zero_add, Int.le_ediv_iff_mul_le hone, Int.one_mul]

theorem shortestMutations_ok_iff {flat : Fields} :
    (∃ found, shortestMutations flat = .ok found) ↔ breaksSlice flat = false := by
  unfold shortestMutations breaksSlice
  cases number (Value.lookup flat "minLength") with
  | none => exact iff_of_true ⟨[], rfl⟩ rfl
  | some least =>
      dsimp only
      split_ifs with h
      · rw [Bool.and_eq_true, Bool.not_eq_true'] at h
        have hwhole := whole_pos_iff h.1 h.2
        rw [lengthMutations_ok_iff (Int.natCast_nonneg _), h.1, Bool.true_and, ← hwhole]
        omega
      · refine iff_of_true ⟨[], rfl⟩ ?_
        cases least with
        | nan => rfl
        | infinite negative => cases negative <;> rfl
        | finite multiple =>
            simp only [Number.less, Number.ofNat, Bool.and_eq_true, decide_eq_true_eq, Bool.not_eq_true',
              decide_eq_false_iff_not, not_and, Bool.and_eq_false_iff] at h ⊢
            by_contra hbroken
            refine h (by omega) ?_
            have hlarge : ((1 * one : Nat) : Int) ≤ (maxTextLength * one : Nat) :=
              Int.ofNat_le.2 (Nat.mul_le_mul_right one (by decide))
            omega

theorem longestMutations_ok (flat : Fields) : ∃ found, longestMutations flat = .ok found := by
  unfold longestMutations
  cases number (Value.lookup flat "maxLength") with
  | none => exact ⟨[], rfl⟩
  | some most =>
      dsimp only
      split_ifs
      · exact (lengthMutations_ok_iff (Int.natCast_nonneg _)).2 (by omega)
      · exact ⟨[], rfl⟩

theorem textMutations_ok_iff {flat : Fields} :
    (∃ found, textMutations flat = .ok found) ↔ breaksSlice flat = false := by
  rw [← shortestMutations_ok_iff]
  obtain ⟨longest, hlongest⟩ := longestMutations_ok flat
  unfold textMutations
  constructor
  · rintro ⟨found, hfound⟩
    cases hshortest : shortestMutations flat with
    | error panic =>
        rw [hshortest] at hfound
        cases hfound
    | ok shortest => exact ⟨shortest, rfl⟩
  · rintro ⟨shortest, hshortest⟩
    rw [hshortest, hlongest]
    exact ⟨_, rfl⟩

theorem ends_mutationsTo {left : Nat} {schema : Fields} (h : Tame panicking targets (.mutations left schema)) :
    Ends panicking fun fuel => mutationsTo targets random fuel left schema := by
  induction left generalizing schema with
  | zero => exact Ends.andThen (ends_flattened (tame_iff.1 h).1) fun _ => Ends.pure []
  | succ left ih =>
      refine ends_call h fun flat hpanics hinner => ?_
      change ∀ inner ∈ mutationCalls left flat, _ at hinner
      change _ ∨ (decide (kindOf flat = "string") && breaksSlice flat) = false at hpanics
      apply Ends.andThen
      · unfold kindMutations
        unfold mutationCalls at hinner
        dsimp only
        split_ifs with hnumber harray hobject htext
        · exact Ends.pure _
        · rw [if_pos harray] at hinner
          apply Ends.andThen
          · unfold aboveMaxItems
            unfold allowsTooMany at hinner
            cases hmost : number (Value.lookup flat "maxItems") with
            | none => exact Ends.pure []
            | some most =>
                rw [hmost] at hinner
                dsimp only at hinner ⊢
                split_ifs with hbeyond
                · rw [if_pos hbeyond] at hinner
                  exact Ends.andThen (ends_validTo random (hinner _ List.mem_cons_self)) fun item => Ends.pure _
                · exact Ends.pure []
          · intro above
            exact Ends.andThen (ih (hinner _ (List.mem_append_right _ (List.mem_singleton_self _)))) fun inner => Ends.pure _
        · rw [if_neg harray, if_pos hobject] at hinner
          apply Ends.andThen (ends_validTo random (hinner _ List.mem_cons_self))
          intro base
          apply Ends.andThen
          · apply Ends.mapM
            intro name hname
            have hproperty := hinner _ (List.mem_cons_of_mem _ (List.mem_map_of_mem (List.mem_map_of_mem hname)))
            exact Ends.andThen (ih hproperty) fun found => Ends.pure _
          · exact fun inner => Ends.pure _
        · rw [decide_eq_true htext, Bool.true_and] at hpanics
          exact ends_checked (hpanics.imp_right textMutations_ok_iff.2)
        · exact Ends.pure _
      · exact fun found => Ends.pure _

theorem tame_mutationsTo {left fuel : Nat} {schema : Fields}
    (h : Succeeds (mutationsTo targets random fuel left schema)) : Tame False targets (.mutations left schema) := by
  induction left generalizing schema with
  | zero => exact tame_of_succeeds h fun flat _ => ⟨rfl, List.forall_mem_nil _⟩
  | succ left ih =>
      refine tame_of_succeeds h fun flat hrest => ?_
      change (decide (kindOf flat = "string") && breaksSlice flat) = false ∧ ∀ inner ∈ mutationCalls left flat, _
      replace hrest := hrest.left
      unfold kindMutations at hrest
      unfold mutationCalls
      have hkinds : ∀ kind, kindOf flat = kind → kind ∈ ["array", "object", "string"] →
          ¬ (kindOf flat = "integer" ∨ kindOf flat = "number") := by
        rintro kind rfl hkind
        simp only [List.mem_cons, List.not_mem_nil, or_false] at hkind
        obtain h | h | h := hkind <;> rw [h] <;> decide
      by_cases harray : kindOf flat = "array"
      · rw [if_neg (hkinds _ harray (by decide)), if_pos harray] at hrest
        rw [if_pos harray, harray]
        refine ⟨rfl, fun inner hinner => ?_⟩
        obtain hvalid | hmutate := List.mem_append.1 hinner
        · split_ifs at hvalid with hbeyond
          · obtain rfl := List.mem_singleton.1 hvalid
            replace hrest := hrest.left
            unfold aboveMaxItems at hrest
            unfold allowsTooMany at hbeyond
            cases hmost : number (Value.lookup flat "maxItems") with
            | none =>
                rw [hmost] at hbeyond
                cases hbeyond
            | some most =>
                rw [hmost] at hrest hbeyond
                simp only [hbeyond, if_true] at hrest
                exact tame_validTo random hrest.left
          · cases hvalid
        · obtain rfl := List.mem_singleton.1 hmutate
          obtain ⟨above, -, hmutated⟩ := hrest.of_bind
          exact ih hmutated.left
      by_cases hobject : kindOf flat = "object"
      · rw [if_neg (hkinds _ hobject (by decide)), if_neg harray, if_pos hobject] at hrest
        rw [if_neg harray, if_pos hobject, hobject]
        refine ⟨rfl, fun inner hinner => ?_⟩
        obtain rfl | hproperty := List.mem_cons.1 hinner
        · exact tame_validTo random hrest.left
        · obtain ⟨property, hmem, rfl⟩ := List.mem_map.1 hproperty
          obtain ⟨name, hname, rfl⟩ := List.mem_map.1 hmem
          obtain ⟨base, -, hrest⟩ := hrest.of_bind
          exact ih (hrest.left.of_mapM hname).left
      rw [if_neg harray, if_neg hobject]
      refine ⟨?_, List.forall_mem_nil _⟩
      by_cases htext : kindOf flat = "string"
      · rw [if_neg (hkinds _ htext (by decide)), if_neg harray, if_neg hobject, if_pos htext] at hrest
        rw [decide_eq_true htext, Bool.true_and, ← textMutations_ok_iff]
        obtain ⟨found, start, state, hfound⟩ := hrest
        cases htexts : textMutations flat with
        | error panic =>
            rw [htexts] at hfound
            cases hfound
        | ok texts => exact ⟨texts, rfl⟩
      · rw [decide_eq_false htext, Bool.false_and]

end Calls

/-- For one schema, `flatten` and `merged` end where no schema they come to leads back to
itself; `valid` and `mutations` give a result, whatever is drawn, where no call they make
comes to such a schema and none panics, and `mutations` ends, maybe with the panic, where
none comes to such a schema. -/
theorem generatorEnds_iff_tame (targets : Targets) (schema : Fields) :
    (FlattenEnds targets schema ↔ Straight targets schema) ∧
      ((∃ fuel, (merged targets fuel schema).isSome = true) ↔ ∀ part ∈ partsOf schema, Straight targets part) ∧
      ∀ {σ : Type} (random : Random σ) (depth : Nat) (state : σ),
        ((∃ fuel found, Gives (valid targets random fuel schema depth) state found) ↔
          Tame False targets (.valid (maxDepth + 1 - depth) schema)) ∧
        ((∃ fuel found, Gives (mutations targets random fuel schema depth) state found) ↔
          Tame False targets (.mutations (maxDepth + 1 - depth) schema)) ∧
        (Tame True targets (.mutations (maxDepth + 1 - depth) schema) →
          ∃ fuel result, (mutations targets random fuel schema depth state).run = some result) := by
  refine ⟨flattenEnds_iff_straight, mergedEnds_iff_straight, fun random depth state => ⟨?_, ?_, ?_⟩⟩
  · constructor
    · rintro ⟨fuel, found, h⟩
      exact tame_validTo random ⟨found.1, state, found.2, h⟩
    · exact fun h => (ends_validTo random h).gives state
  · constructor
    · rintro ⟨fuel, found, h⟩
      exact tame_mutationsTo random ⟨found.1, state, found.2, h⟩
    · exact fun h => (ends_mutationsTo random h).gives state
  · intro h
    obtain ⟨fuel, result, hresult, -⟩ := (ends_mutationsTo random h).total state
    exact ⟨fuel, result, hresult⟩

/-- A schema that is an `allOf` of a reference to it. -/
def circularTargets : Targets where
  root := .object [("a", .object [("allOf", .list [.object [("$ref", .text "#/a")]])])]
  pathUnescape token := some token

-- a schema that does not come to it
example : ∃ fuel found, Gives (valid circularTargets .zero fuel [("type", .text "boolean")] 0) () found :=
  ⟨1, (.bool true, ()), rfl⟩

-- half a character at least
example : (textMutations [("minLength", .float (.finite (one / 2 : Nat)))]).isOk = false := by decide +kernel

def circularSchema : Fields :=
  [("$ref", .text "#/a")]

theorem flatten_circularSchema (fuel : Nat) : flatten circularTargets fuel circularSchema = none := by
  have hleads : Leads circularTargets circularSchema circularSchema := by
    refine ⟨[("allOf", .list [.object [("$ref", .text "#/a")]])], .hop ?_ (.here ?_), ?_⟩
    · rfl
    · rfl
    · exact List.mem_cons_of_mem _ List.mem_cons_self
  induction fuel with
  | zero => rfl
  | succ fuel ih =>
      by_contra hsome
      have hpart := flatten_succ_isSome_iff.1 (Option.isSome_iff_ne_none.2 hsome) circularSchema hleads
      rw [ih] at hpart
      cases hpart

theorem flatten_circular_never_ends : ¬ ∃ fuel, (flatten circularTargets fuel circularSchema).isSome = true := by
  rintro ⟨fuel, hfuel⟩
  rw [flatten_circularSchema] at hfuel
  cases hfuel

end Gostman.Fuzz
