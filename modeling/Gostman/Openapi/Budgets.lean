import Gostman.Openapi.Diff
/-!
# What a budget lets see

A view depends on the budget only where the budget ends while it is made.
Otherwise it shows what the objects say that the schema is composed of.
-/

namespace Gostman.Openapi

open Gostman.Lib

variable {cancelled : Nat → Bool} {root : Value} {b w : Budget}

/-! ## Spending -/

/-- Two budgets that are spent alike; that something was too deep is not
looked at. -/
structure Tied (b w : Budget) : Prop where
  visits : b.visits = w.visits
  exhausted : b.exhausted = w.exhausted
  compared : b.compared = w.compared

theorem Tied.refl (b : Budget) : Tied b b :=
  ⟨rfl, rfl, rfl⟩

theorem Tied.symm (h : Tied b w) : Tied w b :=
  ⟨h.visits.symm, h.exhausted.symm, h.compared.symm⟩

theorem Tied.trans {u : Budget} (h : Tied b w) (h' : Tied w u) : Tied b u :=
  ⟨h.visits.trans h'.visits, h.exhausted.trans h'.exhausted, h.compared.trans h'.compared⟩

theorem tied_cut (b : Budget) : Tied { b with cut := true } b :=
  ⟨rfl, rfl, rfl⟩

theorem spend_of_exhausted (h : b.exhausted = true) : b.spend cancelled = (false, b) := by
  simp [Budget.spend, h]

theorem Tied.spend (h : Tied b w) (cancelled : Nat → Bool) :
    (b.spend cancelled).1 = (w.spend cancelled).1 ∧ Tied (b.spend cancelled).2 (w.spend cancelled).2 := by
  unfold Budget.spend
  rw [h.exhausted, h.visits]
  split_ifs
  · exact ⟨rfl, h⟩
  · exact ⟨rfl, rfl, rfl, h.compared⟩

theorem Tied.firstVisit (h : Tied b w) (oldSchema newSchema : Value) (way : Direction) (depth : Nat) :
    (b.firstVisit oldSchema newSchema way depth).1 = (w.firstVisit oldSchema newSchema way depth).1 ∧
      Tied (b.firstVisit oldSchema newSchema way depth).2 (w.firstVisit oldSchema newSchema way depth).2 := by
  unfold Budget.firstVisit
  simp only [h.compared]
  split_ifs
  · exact ⟨rfl, h⟩
  · split
    · split_ifs
      · exact ⟨rfl, h⟩
      · exact ⟨rfl, h.visits, h.exhausted, rfl⟩
    · exact ⟨rfl, h.visits, h.exhausted, rfl⟩

/-- A visit is paid for unless the budget is exhausted after it. -/
theorem spend_exhausted : (b.spend cancelled).2.exhausted = !(b.spend cancelled).1 := by
  unfold Budget.spend
  split_ifs with h
  · exact h
  · exact (Bool.not_not _).symm

/-! ## Collecting -/

/-- The parts of `allOf`, collected one after another. -/
def collectParts (cancelled : Nat → Bool) (root : Value) (levels : Nat) (parts : List Value)
    (state : View × Budget) : View × Budget :=
  parts.foldl (fun state part => collect cancelled root levels part state) state

/-- What `collect` does with any budget: nothing, or it is too deep, or it
pays for a visit and goes on to the parts. -/
theorem collect_cases (cancelled : Nat → Bool) (root : Value) (levels : Nat) (schema : Value) (view : View) :
    (∃ view', ∀ b, collect cancelled root levels schema (view, b) = (view', b)) ∨
    (∃ view', ∀ b, collect cancelled root levels schema (view, b) = (view', { b with cut := true })) ∨
    ∃ view' object rest parts, levels = rest + 1 ∧
      (∀ b, (b.spend cancelled).1 = false →
        collect cancelled root levels schema (view, b) = (view', (b.spend cancelled).2)) ∧
      ∀ b, (b.spend cancelled).1 = true →
        collect cancelled root levels schema (view, b) =
          ((collectParts cancelled root rest parts (view'.gather object, (b.spend cancelled).2)).1.compose object,
            (collectParts cancelled root rest parts (view'.gather object, (b.spend cancelled).2)).2) := by
  by_cases hmerged : (schema.field "$ref").textOf ≠ "" ∧ (schema.field "$ref").textOf ∈ view.merged
  · left
    refine ⟨view, fun b => ?_⟩
    unfold collect
    exact if_pos hmerged
  · cases hobject : (resolve root schema).objectOf with
    | none =>
      left
      refine ⟨view.merge (schema.field "$ref").textOf, fun b => ?_⟩
      unfold collect
      rw [if_neg hmerged]
      simp only [hobject]
    | some object =>
      right
      cases levels with
      | zero =>
        left
        refine ⟨view.merge (schema.field "$ref").textOf, fun b => ?_⟩
        unfold collect
        rw [if_neg hmerged]
        simp only [hobject]
      | succ rest =>
        right
        refine ⟨view.merge (schema.field "$ref").textOf, object, rest,
          (Value.lookup object "allOf").listOf, rfl, fun b hspend => ?_, fun b hspend => ?_⟩
        · unfold collect
          rw [if_neg hmerged]
          rcases hresult : b.spend cancelled with ⟨spent, b'⟩
          rw [hresult] at hspend
          obtain rfl : spent = false := hspend
          simp only [hobject]
        · unfold collect
          rw [if_neg hmerged]
          rcases hresult : b.spend cancelled with ⟨spent, b'⟩
          rw [hresult] at hspend
          obtain rfl : spent = true := hspend
          simp only [hobject]
          rfl

/-- A relation between what two budgets let collect holds of all the parts
where it holds of each. -/
theorem collectParts_rel {levels : Nat} {motive : View × Budget → View × Budget → Prop}
    (hpart : ∀ part s s', motive s s' →
      motive (collect cancelled root levels part s) (collect cancelled root levels part s'))
    (parts : List Value) {s s' : View × Budget} (h : motive s s') :
    motive (collectParts cancelled root levels parts s) (collectParts cancelled root levels parts s') := by
  induction parts generalizing s s' with
  | nil => exact h
  | cons part rest ih => exact ih (hpart part s s' h)

/-- Budgets that are spent alike see the same. -/
theorem collect_tied {levels : Nat} {schema : Value} {view : View} (h : Tied b w) :
    (collect cancelled root levels schema (view, b)).1 = (collect cancelled root levels schema (view, w)).1 ∧
      Tied (collect cancelled root levels schema (view, b)).2
        (collect cancelled root levels schema (view, w)).2 := by
  induction levels using Nat.strong_induction_on generalizing schema view b w with
  | _ levels ih =>
    obtain ⟨view', hnone⟩ | ⟨view', hcut⟩ | ⟨view', object, rest, parts, rfl, hunpaid, hpaid⟩ :=
      collect_cases cancelled root levels schema view
    · rw [hnone, hnone]
      exact ⟨rfl, h⟩
    · rw [hcut, hcut]
      exact ⟨rfl, (tied_cut b).trans (h.trans (tied_cut w).symm)⟩
    · obtain ⟨hspent, htied⟩ := h.spend cancelled
      cases hpay : (b.spend cancelled).1 with
      | false =>
        rw [hunpaid b hpay, hunpaid w (hspent ▸ hpay)]
        exact ⟨rfl, htied⟩
      | true =>
        rw [hpaid b hpay, hpaid w (hspent ▸ hpay)]
        have hparts : ∀ part (s s' : View × Budget), s.1 = s'.1 ∧ Tied s.2 s'.2 →
            (collect cancelled root rest part s).1 = (collect cancelled root rest part s').1 ∧
              Tied (collect cancelled root rest part s).2 (collect cancelled root rest part s').2 := by
          rintro part ⟨view, b⟩ ⟨view', b'⟩ ⟨rfl, htied⟩
          exact ih rest (Nat.lt_succ_self rest) htied
        have hstart : ((view'.gather object, (b.spend cancelled).2) : View × Budget).1 =
            ((view'.gather object, (w.spend cancelled).2) : View × Budget).1 ∧
            Tied (b.spend cancelled).2 (w.spend cancelled).2 := ⟨rfl, htied⟩
        obtain ⟨hview, hbudget⟩ := collectParts_rel hparts parts hstart
        exact ⟨congrArg (View.compose object) hview, hbudget⟩

theorem collect_of_exhausted {levels : Nat} {schema : Value} {view : View} (h : b.exhausted = true) :
    Tied (collect cancelled root levels schema (view, b)).2 b := by
  obtain ⟨view', hnone⟩ | ⟨view', hcut⟩ | ⟨view', object, rest, parts, -, hunpaid, -⟩ :=
    collect_cases cancelled root levels schema view
  · rw [hnone]
    exact .refl b
  · rw [hcut]
    exact tied_cut b
  · have hspend : b.spend cancelled = (false, b) := spend_of_exhausted h
    rw [hunpaid b (by rw [hspend]), hspend]
    exact .refl b

theorem exhausted_of_collect {levels : Nat} {schema : Value} {view : View}
    (h : (collect cancelled root levels schema (view, b)).2.exhausted = false) : b.exhausted = false := by
  cases hexhausted : b.exhausted with
  | false => rfl
  | true =>
    rw [(collect_of_exhausted hexhausted).exhausted, hexhausted] at h
    cases h

theorem exhausted_of_collectParts {levels : Nat} {parts : List Value} {state : View × Budget}
    (h : (collectParts cancelled root levels parts state).2.exhausted = false) :
    state.2.exhausted = false := by
  induction parts generalizing state with
  | nil => exact h
  | cons part rest ih => exact exhausted_of_collect (ih h)

theorem collect_congr {levels : Nat} {schema : Value} {view : View}
    (hb : (collect cancelled root levels schema (view, b)).2.exhausted = false)
    (hw : (collect cancelled root levels schema (view, w)).2.exhausted = false) :
    (collect cancelled root levels schema (view, b)).1 =
      (collect cancelled root levels schema (view, w)).1 := by
  induction levels using Nat.strong_induction_on generalizing schema view b w with
  | _ levels ih =>
    obtain ⟨view', hnone⟩ | ⟨view', hcut⟩ | ⟨view', object, rest, parts, rfl, hunpaid, hpaid⟩ :=
      collect_cases cancelled root levels schema view
    · rw [hnone, hnone]
    · rw [hcut, hcut]
    · have hpay : ∀ b, (collect cancelled root (rest + 1) schema (view, b)).2.exhausted = false →
          (b.spend cancelled).1 = true := by
        intro b hlive
        cases hspend : (b.spend cancelled).1 with
        | true => rfl
        | false =>
          rw [hunpaid b hspend] at hlive
          rw [spend_exhausted, hspend] at hlive
          cases hlive
      have hbpay := hpay b hb
      have hwpay := hpay w hw
      rw [hpaid b hbpay] at hb
      rw [hpaid w hwpay] at hw
      rw [hpaid b hbpay, hpaid w hwpay]
      have hparts : ∀ (parts : List Value) (view : View) (b w : Budget),
          (collectParts cancelled root rest parts (view, b)).2.exhausted = false →
          (collectParts cancelled root rest parts (view, w)).2.exhausted = false →
          (collectParts cancelled root rest parts (view, b)).1 =
            (collectParts cancelled root rest parts (view, w)).1 := by
        intro parts
        induction parts with
        | nil => exact fun _ _ _ _ _ => rfl
        | cons part others ihparts =>
          intro view b w hb hw
          have hfirst := ih rest (Nat.lt_succ_self rest) (exhausted_of_collectParts hb)
            (exhausted_of_collectParts hw)
          have hw' : (collectParts cancelled root rest others ((collect cancelled root rest part (view, b)).1,
              (collect cancelled root rest part (view, w)).2)).2.exhausted = false := by
            rw [hfirst]
            exact hw
          calc (collectParts cancelled root rest (part :: others) (view, b)).1
              = (collectParts cancelled root rest others ((collect cancelled root rest part (view, b)).1,
                  (collect cancelled root rest part (view, w)).2)).1 := ihparts _ _ _ hb hw'
            _ = (collectParts cancelled root rest (part :: others) (view, w)).1 := by
                rw [hfirst]
                rfl
      exact congrArg (View.compose object) (hparts parts _ _ _ hb hw)

/-! ## Views -/

theorem view_tied (cancelled : Nat → Bool) (root schema : Value) (h : Tied b w) :
    (view cancelled root schema b).1 = (view cancelled root schema w).1 ∧
      Tied (view cancelled root schema b).2 (view cancelled root schema w).2 := by
  have hcollect : (collect cancelled root (maxSchemaDepth + 1) schema ({}, b)).1 =
      (collect cancelled root (maxSchemaDepth + 1) schema ({}, w)).1 ∧
      Tied (view cancelled root schema b).2 (view cancelled root schema w).2 := collect_tied h
  refine ⟨?_, hcollect.2⟩
  unfold view
  simp only [hcollect.1]

/-- A budget that does not end sees the same a second time. -/
theorem view_twice {schema : Value}
    (h : (view cancelled root schema (view cancelled root schema b).2).2.exhausted = false) :
    (view cancelled root schema (view cancelled root schema b).2).1 = (view cancelled root schema b).1 := by
  have hfirst : (view cancelled root schema b).2.exhausted = false := exhausted_of_collect h
  have hsame := collect_congr h hfirst
  unfold view
  simp only
  unfold view at hsame
  simp only at hsame
  rw [hsame]

def propertiesOf (fields : Fields) : Fields :=
  ((Value.lookup fields "properties").objectOf).getD []

def live : Nat → Bool := fun _ => false

/-! ## What a schema is composed of -/

/-- The objects that a schema is composed of, in order, and the references that were
followed: those of `allOf` are among them, each reference once. -/
def composition (root : Value) : Nat → Value → List String → List Fields × List String
  | levels, schema, followed =>
      let reference := (schema.field "$ref").textOf
      if reference ≠ "" ∧ reference ∈ followed then ([], followed)
      else
        let followed := if reference = "" then followed else reference :: followed
        match (resolve root schema).objectOf with
        | none => ([], followed)
        | some object =>
            match levels with
            | 0 => ([], followed)
            | levels + 1 =>
                let (parts, followed) := (Value.lookup object "allOf").listOf.foldl (fun (found, followed) part =>
                  let (more, followed) := composition root levels part followed
                  (found ++ more, followed)) ([], followed)
                (object :: parts, followed)

def compositions (root : Value) (levels : Nat) (parts : List Value) (state : List Fields × List String) :
    List Fields × List String :=
  parts.foldl (fun (found, followed) part =>
    let (more, followed) := composition root levels part followed
    (found ++ more, followed)) state

theorem compositions_append (levels : Nat) (parts : List Value) (found : List Fields) (followed : List String) :
    compositions root levels parts (found, followed) =
      (found ++ (compositions root levels parts ([], followed)).1, (compositions root levels parts ([], followed)).2) := by
  induction parts generalizing found followed with
  | nil => simp [compositions]
  | cons part rest ih =>
    have hstep : ∀ found followed, compositions root levels (part :: rest) (found, followed) =
        compositions root levels rest (found ++ (composition root levels part followed).1,
          (composition root levels part followed).2) := fun _ _ => rfl
    rw [hstep, hstep, ih, ih ([] ++ _), List.nil_append, List.append_assoc]

def itemsOf (objects : List Fields) : Value :=
  ((objects.map fun object => Value.lookup object "items").find? fun items => !items.isNil).getD .null

/-- The number that the last object with the limit gives. -/
def limitOf (objects : List Fields) (limit : String) : Option Number :=
  (objects.filterMap fun object => (Value.lookup object limit).numberOf).getLast?

/-- The objects add their properties, their items and their limits to a view. -/
structure Composes (before : View) (objects : List Fields) (after : View) : Prop where
  properties : after.properties = before.properties ++ objects.flatMap propertiesOf
  items : after.items = if before.items.isNil then itemsOf objects else before.items
  limits : ∀ limit ∈ numericLimits, after.numbers.read limit = (limitOf objects limit).or (before.numbers.read limit)

theorem eq_null_of_isNil {value : Value} (h : value.isNil = true) : value = .null := by
  cases value <;> first | rfl | cases h

theorem Composes.nil (view : View) : Composes view [] view where
  properties := (List.append_nil _).symm
  items := by
    split_ifs with h
    · exact eq_null_of_isNil h
    · rfl
  limits _ _ := rfl

theorem itemsOf_append (objects others : List Fields) :
    itemsOf (objects ++ others) = if (itemsOf objects).isNil then itemsOf others else itemsOf objects := by
  unfold itemsOf
  rw [List.map_append, List.find?_append]
  cases hfound : (objects.map fun object => Value.lookup object "items").find? fun items => !items.isNil with
  | none => rfl
  | some items =>
    have hitems := List.find?_some (p := fun items : Value => !items.isNil) hfound
    rw [Bool.not_eq_true'] at hitems
    simp [hitems]

theorem limitOf_append (objects others : List Fields) (limit : String) :
    limitOf (objects ++ others) limit = (limitOf others limit).or (limitOf objects limit) := by
  unfold limitOf
  rw [List.filterMap_append, List.getLast?_append]

theorem Composes.append {first second third : View} {objects others : List Fields}
    (h : Composes first objects second) (h' : Composes second others third) :
    Composes first (objects ++ others) third where
  properties := by rw [h'.properties, h.properties, List.flatMap_append, List.append_assoc]
  items := by
    rw [h'.items, h.items, itemsOf_append]
    by_cases hfirst : first.items.isNil = true
    · rw [if_pos hfirst, if_pos hfirst]
    · rw [if_neg hfirst, if_neg hfirst, if_neg hfirst]
  limits := by
    intro limit hlimit
    rw [h'.limits limit hlimit, h.limits limit hlimit, limitOf_append, Option.or_assoc]

theorem read_foldl_limits (object : Fields) {limits : List String} (numbers : Record String Number) (limit : String) :
    (limits.foldl (fun numbers limit =>
        match (Value.lookup object limit).numberOf with
        | some number => numbers.put limit number
        | none => numbers) numbers).read limit =
      (if limit ∈ limits then (Value.lookup object limit).numberOf else none).or (numbers.read limit) := by
  induction limits generalizing numbers with
  | nil => simp
  | cons other rest ih =>
    rw [List.foldl_cons, ih]
    cases hnumber : (Value.lookup object other).numberOf with
    | none =>
      by_cases heq : limit = other
      · subst heq
        simp [hnumber]
      · simp [heq]
    | some number =>
      simp only [Record.read_put]
      by_cases heq : limit = other
      · subst heq
        split_ifs <;> simp_all
      · simp [heq]

/-- The views have the same properties, items and limits. -/
structure Keeps (before after : View) : Prop where
  properties : after.properties = before.properties
  items : after.items = before.items
  numbers : after.numbers = before.numbers
  merged : after.merged = before.merged

theorem Keeps.trans {first second third : View} (h : Keeps first second) (h' : Keeps second third) :
    Keeps first third :=
  ⟨h'.properties.trans h.properties, h'.items.trans h.items, h'.numbers.trans h.numbers, h'.merged.trans h.merged⟩

theorem keeps_addTypes (view : View) (value : Value) : Keeps view (view.addTypes value) := by
  have hfold : ∀ (items : List Value) (view : View), Keeps view (items.foldl (fun view item =>
      if item.textOf = "null" then { view with nullable := true }
      else { view with types := appendOnce view.types item.textOf }) view) := by
    intro items
    induction items with
    | nil => exact fun _ => ⟨rfl, rfl, rfl, rfl⟩
    | cons item rest ih =>
      intro view
      rw [List.foldl_cons]
      refine Keeps.trans ?_ (ih _)
      split_ifs <;> exact ⟨rfl, rfl, rfl, rfl⟩
  cases value with
  | list items => exact hfold items view
  | null | bool | int | float | text | object => exact ⟨rfl, rfl, rfl, rfl⟩

theorem keeps_addEnum (view : View) (value : Value) : Keeps view (view.addEnum value) := by
  cases value <;> exact ⟨rfl, rfl, rfl, rfl⟩

theorem keeps_gathered (object : Fields) (view : View) (nullable : Bool) :
    Keeps view (View.addEnum { view.addTypes (Value.lookup object "type") with nullable }
      (Value.lookup object "enum")) := by
  have htypes := keeps_addTypes view (Value.lookup object "type")
  refine Keeps.trans ?_ (keeps_addEnum _ _)
  exact ⟨htypes.properties, htypes.items, htypes.numbers, htypes.merged⟩

theorem gather_merged (object : Fields) (view : View) : (view.gather object).merged = view.merged :=
  (keeps_gathered object view _).merged

theorem limitOf_singleton (object : Fields) (limit : String) :
    limitOf [object] limit = (Value.lookup object limit).numberOf := by
  unfold limitOf
  cases hnumber : (Value.lookup object limit).numberOf with
  | none => simp [hnumber]
  | some number => simp [hnumber]

theorem composes_gather (object : Fields) (view : View) : Composes view [object] (view.gather object) := by
  have hkeeps := keeps_gathered object view
  unfold View.gather
  constructor
  · dsimp only
    rw [(hkeeps _).properties, List.flatMap_singleton]
    rfl
  · dsimp only
    rw [(hkeeps _).items]
    unfold itemsOf
    by_cases hnil : (Value.lookup object "items").isNil = true
    · simp [eq_null_of_isNil hnil, Value.isNil]
    · simp [hnil]
  · intro limit hlimit
    dsimp only
    rw [(hkeeps _).numbers, limitOf_singleton]
    refine (read_foldl_limits object view.numbers limit).trans ?_
    rw [if_pos hlimit]

theorem composes_compose {before after : View} {objects : List Fields} (object : Fields)
    (h : Composes before objects after) : Composes before objects (after.compose object) :=
  ⟨h.properties, h.items, h.limits⟩

theorem composes_merge {before after : View} {objects : List Fields} {reference : String}
    (h : Composes (before.merge reference) objects after) : Composes before objects after := by
  unfold View.merge at h
  split_ifs at h
  · exact h
  · exact ⟨h.properties, h.items, h.limits⟩

theorem merge_merged (view : View) (reference : String) :
    (view.merge reference).merged = if reference = "" then view.merged else reference :: view.merged := by
  unfold View.merge
  split_ifs <;> rfl

def Budget.after (b : Budget) (visits : Nat) : Budget :=
  { b with visits := b.visits + visits }

theorem spend_within (hlive : b.exhausted = false) (hfits : b.visits + 1 ≤ maxVisits) :
    b.spend live = (true, b.after 1) := by
  have hle : ¬ maxVisits < b.visits + 1 := by omega
  obtain ⟨visits, exhausted, cut, compared⟩ := b
  obtain rfl : exhausted = false := hlive
  simp [Budget.spend, Budget.after, live, hle]

theorem after_visits (b : Budget) (visits : Nat) : (b.after visits).visits = b.visits + visits := rfl

theorem after_after (b : Budget) (first second : Nat) : (b.after first).after second = b.after (first + second) := by
  unfold Budget.after
  rw [Nat.add_assoc]

theorem Tied.after (h : Tied b w) (visits : Nat) : Tied (b.after visits) (w.after visits) :=
  ⟨congrArg (· + visits) h.visits, h.exhausted, h.compared⟩

theorem compositions_cons (levels : Nat) (part : Value) (rest : List Value) (followed : List String) :
    compositions root levels (part :: rest) ([], followed) =
      ((composition root levels part followed).1 ++
          (compositions root levels rest ([], (composition root levels part followed).2)).1,
        (compositions root levels rest ([], (composition root levels part followed).2)).2) :=
  compositions_append levels rest _ _

/-- A budget that does not end lets all be collected that a schema is composed of, at one
visit for each object. -/
theorem collect_composition {levels : Nat} {schema : Value} {view : View} (hlive : b.exhausted = false)
    (hfits : b.visits + (composition root levels schema view.merged).1.length ≤ maxVisits) :
    Composes view (composition root levels schema view.merged).1 (collect live root levels schema (view, b)).1 ∧
      (collect live root levels schema (view, b)).1.merged = (composition root levels schema view.merged).2 ∧
      Tied (collect live root levels schema (view, b)).2
        (b.after (composition root levels schema view.merged).1.length) := by
  induction levels using Nat.strong_induction_on generalizing schema view b with
  | _ levels ih =>
    unfold composition at hfits ⊢
    unfold collect
    dsimp only at hfits ⊢
    by_cases hmerged : (schema.field "$ref").textOf ≠ "" ∧ (schema.field "$ref").textOf ∈ view.merged
    · simp only [if_pos hmerged]
      exact ⟨.nil view, trivial, .refl b⟩
    simp only [if_neg hmerged, ← merge_merged] at hfits ⊢
    refine And.imp_left (@composes_merge view _ _ (schema.field "$ref").textOf) ?_
    generalize view.merge (schema.field "$ref").textOf = merging at hfits ⊢
    cases hobject : (resolve root schema).objectOf with
    | none => exact ⟨.nil merging, rfl, .refl b⟩
    | some object =>
      rw [hobject] at hfits
      cases levels with
      | zero => exact ⟨.nil merging, rfl, tied_cut b⟩
      | succ levels =>
        have hparts : ∀ (parts : List Value) (view : View) (b : Budget), b.exhausted = false →
            b.visits + (compositions root levels parts ([], view.merged)).1.length ≤ maxVisits →
            Composes view (compositions root levels parts ([], view.merged)).1
                (collectParts live root levels parts (view, b)).1 ∧
              (collectParts live root levels parts (view, b)).1.merged =
                (compositions root levels parts ([], view.merged)).2 ∧
              Tied (collectParts live root levels parts (view, b)).2
                (b.after (compositions root levels parts ([], view.merged)).1.length) := by
          intro parts
          induction parts with
          | nil => exact fun view b _ _ => ⟨.nil view, rfl, .refl b⟩
          | cons part rest ihparts =>
            intro view b hlive hfits
            rw [compositions_cons, List.length_append] at hfits
            obtain ⟨hfirst, hfollowed, htied⟩ :=
              @ih levels (Nat.lt_succ_self levels) b part view hlive (by omega)
            rw [← hfollowed] at hfits
            obtain ⟨hrest, hall, htied'⟩ := ihparts (collect live root levels part (view, b)).1
              (collect live root levels part (view, b)).2 (htied.exhausted.trans hlive)
              (by rw [htied.visits, after_visits]; omega)
            rw [compositions_cons, ← hfollowed]
            refine ⟨hfirst.append hrest, hall, htied'.trans ?_⟩
            rw [List.length_append, ← after_after]
            exact htied.after _
        change b.visits + (compositions root levels (Value.lookup object "allOf").listOf ([], merging.merged)).1.length.succ ≤
          maxVisits at hfits
        have hspend := spend_within hlive (show b.visits + 1 ≤ maxVisits by omega)
        obtain ⟨hcomposes, hfollowed, htied⟩ := hparts (Value.lookup object "allOf").listOf (merging.gather object)
          (b.after 1) hlive (by rw [gather_merged, after_visits]; omega)
        rw [gather_merged] at hcomposes hfollowed htied
        simp only [hspend]
        refine ⟨composes_compose object ((composes_gather object merging).append hcomposes), hfollowed, ?_⟩
        refine htied.trans ?_
        rw [after_after, Nat.add_comm]
        exact .refl _

end Gostman.Openapi
