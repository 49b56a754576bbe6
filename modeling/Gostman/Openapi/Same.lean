import Gostman.Openapi.Budgets
/-!
# A schema compared with itself

Both sides make their own view of the schema, one after the other from the same
budget.  What is reported is what the two views show differently.
-/

namespace Gostman.Openapi

open Gostman.Lib

/-! ## One after another -/

/-- What each item comes to, with the state, such as a budget, that the ones before
leave. -/
def each {α β σ : Type} (f : α → σ → List β × σ) : List α → σ → List β × σ
  | [], b => ([], b)
  | item :: rest, b =>
      ((f item b).1 ++ (each f rest (f item b).2).1, (each f rest (f item b).2).2)

theorem foldl_each {α β : Type} (f : α → Budget → List β × Budget) (items : List α) (found : List β)
    (b : Budget) :
    items.foldl (fun (found, b) item => (found ++ (f item b).1, (f item b).2)) (found, b) =
      (found ++ (each f items b).1, (each f items b).2) := by
  induction items generalizing found b with
  | nil => simp [each]
  | cons item rest ih =>
    rw [List.foldl_cons, ih, each, List.append_assoc]

/-! ## What two views show -/

/-- The properties have the same names and are needed alike. -/
structure SameProperties (before after : View) : Prop where
  names : ∀ name, before.properties.has name = after.properties.has name
  required : ∀ name, before.properties.has name = true →
    (name ∈ before.required ↔ name ∈ after.required)

structure ShowsSame (before after : View) : Prop where
  types : before.types = [] ∨ after.types = [] ∨ before.types = after.types
  nullable : before.nullable = after.nullable
  hasEnum : before.hasEnum = after.hasEnum
  enum : ∀ value, value ∈ before.enum ↔ value ∈ after.enum
  limits : ∀ limit ∈ numericLimits,
    sameLimit (before.numbers.read limit) (after.numbers.read limit) = true
  format : before.format = after.format ∨ before.format = ""
  pattern : before.pattern = after.pattern
  composed : ∀ keyword ∈ ["oneOf", "anyOf"], before.composedOf keyword = after.composedOf keyword
  properties : SameProperties before after

section

variable {before after : View} {way : Direction} {place : String}

theorem difference_eq_nil {first second : List String} :
    difference first second = [] ↔ ∀ item ∈ first, item ∈ second := by
  simp [difference, List.filter_eq_nil_iff]

theorem compareTypeNames_eq_nil : compareTypeNames before after way place = [] ↔
    before.types = [] ∨ after.types = [] ∨ before.types = after.types := by
  unfold compareTypeNames
  split_ifs with h
  · have hnot : ¬ (before.types = [] ∨ after.types = [] ∨ before.types = after.types) := by tauto
    simp only [hnot, iff_false]
    cases way <;> simp only <;> split_ifs <;> simp
  · simp only [true_iff]
    tauto

theorem compareNullable_eq_nil : compareNullable before after way place = [] ↔
    before.nullable = after.nullable := by
  unfold compareNullable
  cases before.nullable <;> cases after.nullable <;> cases way <;> simp

theorem compareEnums_eq_nil : compareEnums before after way place = [] ↔
    before.hasEnum = after.hasEnum ∧ ∀ value, value ∈ before.enum ↔ value ∈ after.enum := by
  have hsets : difference before.enum after.enum = [] ∧ difference after.enum before.enum = [] ↔
      ∀ value, value ∈ before.enum ↔ value ∈ after.enum := by
    rw [difference_eq_nil, difference_eq_nil]
    exact ⟨fun h value => ⟨h.1 value, h.2 value⟩, fun h => ⟨fun value => (h value).1, fun value => (h value).2⟩⟩
  unfold compareEnums
  rw [← hsets]
  cases before.hasEnum <;> cases after.hasEnum <;> simp [List.append_eq_nil_iff]

theorem compareLimits_eq_nil : compareLimits before after way place = [] ↔ ∀ limit ∈ numericLimits,
    sameLimit (before.numbers.read limit) (after.numbers.read limit) = true := by
  unfold compareLimits
  rw [List.flatMap_eq_nil_iff]
  apply forall₂_congr
  intro limit _
  unfold compareLimit
  simp only
  split_ifs with h <;> simp [h]

theorem compareFormats_eq_nil : compareFormats before after place = [] ↔
    before.format = after.format ∨ before.format = "" := by
  unfold compareFormats
  split_ifs with h
  · simp [h.1, h.2]
  · simp only [true_iff]
    tauto

theorem comparePatterns_eq_nil : comparePatterns before after place = [] ↔
    before.pattern = after.pattern := by
  unfold comparePatterns
  split_ifs with h
  · simp [h.1]
  · simp only [true_iff]
    by_contra hne
    apply h
    refine ⟨hne, ?_⟩
    by_contra hboth
    rw [not_or, not_not, not_not] at hboth
    exact hne (hboth.1.trans hboth.2.symm)

theorem compareComposed_eq_nil : compareComposed before after place = [] ↔
    ∀ keyword ∈ ["oneOf", "anyOf"], before.composedOf keyword = after.composedOf keyword := by
  unfold compareComposed
  rw [List.flatMap_eq_nil_iff]
  apply forall₂_congr
  intro keyword _
  split_ifs with h <;> simp_all

theorem compareRequired_eq_nil {name : String} : compareRequired before after way place name = [] ↔
    (name ∈ before.required ↔ name ∈ after.required) := by
  unfold compareRequired
  by_cases hwas : name ∈ before.required <;> by_cases his : name ∈ after.required <;>
    cases way <;> simp [hwas, his]

theorem mem_sortedKeys {α : Type} {values : Record String α} {key : String} :
    key ∈ sortedKeys values ↔ values.has key = true := by
  unfold sortedKeys
  rw [List.mem_insertionSort, List.mem_dedup, Record.has_iff]

theorem addedProperties_eq_nil : addedProperties before after way place = [] ↔
    ∀ name, after.properties.has name = true → before.properties.has name = true := by
  unfold addedProperties
  rw [List.map_eq_nil_iff, List.filter_eq_nil_iff]
  apply forall_congr'
  intro name
  rw [mem_sortedKeys]
  simp

theorem compareViews_eq_nil (way : Direction) (place : String) :
    compareViews before after way place = [] ∧ SameProperties before after ↔
    ShowsSame before after := by
  unfold compareViews compareTypes
  simp only [List.append_eq_nil_iff, compareTypeNames_eq_nil, compareNullable_eq_nil, compareEnums_eq_nil,
    compareLimits_eq_nil, compareFormats_eq_nil, comparePatterns_eq_nil, compareComposed_eq_nil]
  simp only [and_assoc]
  constructor
  · rintro ⟨htypes, hnullable, hasEnum, henum, hlimits, hformat, hpattern, hcomposed, hproperties⟩
    exact ⟨htypes, hnullable, hasEnum, henum, hlimits, hformat, hpattern, hcomposed, hproperties⟩
  · intro h
    exact ⟨h.types, h.nullable, h.hasEnum, h.enum, h.limits, h.format, h.pattern, h.composed, h.properties⟩

/-! ## The parts of two views -/

/-- The properties that both views have, with their places. -/
def kids (before after : View) (place : String) : List (Value × Value × String) :=
  (sortedKeys before.properties).filterMap fun name =>
    (after.properties.read name).map fun next =>
      (Value.lookup before.properties name, next, place ++ "." ++ name)

def compareKid (compare : Comparing) (kid : Value × Value × String) (b : Budget) : List Reported × Budget :=
  compare kid.1 kid.2.1 kid.2.2 b

theorem compareProperties_each (compare : Comparing) (b : Budget) :
    compareProperties compare before after way place b =
      ((each (compareProperty compare before after way place) (sortedKeys before.properties) b).1 ++
        addedProperties before after way place,
        (each (compareProperty compare before after way place) (sortedKeys before.properties) b).2) := by
  have hfold := foldl_each (compareProperty compare before after way place)
    (sortedKeys before.properties) [] b
  rw [List.nil_append] at hfold
  unfold compareProperties
  exact congrArg (fun result : List Reported × Budget =>
    (result.1 ++ addedProperties before after way place, result.2)) hfold

/-- The reports of a property, apart from those of its schema. -/
theorem each_compareProperty (compare : Comparing) (names : List String) (b : Budget) :
    let kids := names.filterMap fun name => (after.properties.read name).map fun next =>
      (Value.lookup before.properties name, next, place ++ "." ++ name)
    (each (compareProperty compare before after way place) names b).2 = (each (compareKid compare) kids b).2 ∧
      ((each (compareProperty compare before after way place) names b).1 = [] ↔
        (each (compareKid compare) kids b).1 = [] ∧ ∀ name ∈ names, after.properties.has name = true ∧
          (name ∈ before.required ↔ name ∈ after.required)) := by
  induction names generalizing b with
  | nil => simp [each]
  | cons name rest ih =>
    rw [each]
    cases hread : after.properties.read name with
    | none =>
      have hproperty : compareProperty compare before after way place name b =
          ([⟨way.pick .nonBreaking .breaking, place ++ "." ++ name, .propertyRemoved⟩], b) := by
        unfold compareProperty
        simp only [hread]
      have hhas : after.properties.has name = false := by simp [Record.has, hread]
      simp only [hproperty, List.filterMap_cons, hread, Option.map_none]
      exact ⟨(ih b).1, by simp [hhas]⟩
    | some next =>
      have hproperty : compareProperty compare before after way place name b =
          ((compare (Value.lookup before.properties name) next (place ++ "." ++ name) b).1 ++
            compareRequired before after way (place ++ "." ++ name) name,
            (compare (Value.lookup before.properties name) next (place ++ "." ++ name) b).2) := by
        unfold compareProperty
        simp only [hread]
      have hhas : after.properties.has name = true := by simp [Record.has, hread]
      simp only [hproperty, List.filterMap_cons, hread, Option.map_some, each, compareKid]
      obtain ⟨hbudget, hnil⟩ := ih (compare (Value.lookup before.properties name) next
        (place ++ "." ++ name) b).2
      refine ⟨hbudget, ?_⟩
      simp only [List.append_eq_nil_iff, compareRequired_eq_nil, hnil, List.forall_mem_cons, hhas, true_and]
      tauto

theorem compareProperties_budget (compare : Comparing) (b : Budget) :
    (compareProperties compare before after way place b).2 =
      (each (compareKid compare) (kids before after place) b).2 := by
  rw [compareProperties_each]
  exact (each_compareProperty compare (sortedKeys before.properties) b).1

theorem compareProperties_eq_nil (compare : Comparing) (b : Budget) :
    (compareProperties compare before after way place b).1 = [] ↔
      (each (compareKid compare) (kids before after place) b).1 = [] ∧ SameProperties before after := by
  rw [compareProperties_each, List.append_eq_nil_iff, addedProperties_eq_nil,
    (each_compareProperty compare (sortedKeys before.properties) b).2, and_assoc]
  apply and_congr_right
  intro _
  simp only [mem_sortedKeys]
  constructor
  · rintro ⟨hkept, hadded⟩
    refine ⟨fun name => ?_, fun name hname => (hkept name hname).2⟩
    rw [Bool.eq_iff_iff]
    exact ⟨fun hname => (hkept name hname).1, hadded name⟩
  · intro h
    exact ⟨fun name hname => ⟨h.names name ▸ hname, h.required name hname⟩,
      fun name hname => (h.names name).symm ▸ hname⟩

end

/-! ## The walk -/

/-- The two views of a schema, and whether the budget ended while they were
made. -/
structure Meeting where
  first : View
  second : View
  ended : Bool

/-- A view that was cut short shows the same as the other one, and one that
was not has no limit that is not a number. -/
def Meeting.Steady (meeting : Meeting) : Prop :=
  if meeting.ended then ShowsSame meeting.first meeting.second
  else ∀ limit ∈ numericLimits, meeting.first.numbers.read limit ≠ some .nan

/-- A view shows the same as itself but for a limit that is not a number,
which Go does not take for equal to itself. -/
theorem showsSame_self (found : View) :
    ShowsSame found found ↔ ∀ limit ∈ numericLimits, found.numbers.read limit ≠ some .nan := by
  have hlimit : ∀ number : Option Number, sameLimit number number = true ↔ number ≠ some .nan := by
    intro number
    cases number with
    | none => simp [sameLimit]
    | some number => cases number <;> simp [sameLimit, sameNumber]
  constructor
  · intro h limit hmem
    exact (hlimit _).1 (h.limits limit hmem)
  · intro h
    exact ⟨.inr (.inr rfl), rfl, rfl, fun _ => Iff.rfl, fun limit hmem => (hlimit _).2 (h limit hmem),
      .inl rfl, rfl, fun _ _ => rfl, fun _ => rfl, fun _ _ => Iff.rfl⟩

def View.below (view : View) : List Value :=
  (sortedKeys view.properties).map (Value.lookup view.properties) ++
    if view.items.isNil then [] else [view.items]

/-- The schemas that are met from one on, each viewed twice with what is left
of the budget, until the budget ends. -/
def meet (cancelled : Nat → Bool) (root : Value) (way : Direction) :
    Nat → Value → Budget → List Meeting × Budget
  | 0, _, b => ([], b)
  | levels + 1, schema, b =>
      let paid := b.spend cancelled
      let first := paid.2.firstVisit schema schema way (maxSchemaDepth - levels)
      if !paid.1 then ([], paid.2)
      else if !first.1 then ([], first.2)
      else
        let one := view cancelled root schema first.2
        let two := view cancelled root schema one.2
        if two.2.exhausted then ([⟨one.1, two.1, true⟩], two.2)
        else
          let rest := each (meet cancelled root way levels) one.1.below two.2
          (⟨one.1, two.1, false⟩ :: rest.1, rest.2)

theorem each_append {α β : Type} (f : α → Budget → List β × Budget) (first second : List α) (b : Budget) :
    each f (first ++ second) b =
      ((each f first b).1 ++ (each f second (each f first b).2).1, (each f second (each f first b).2).2) := by
  induction first generalizing b with
  | nil => rfl
  | cons item rest ih => simp only [List.cons_append, each, ih, List.append_assoc]

/-- Nothing is reported, and the budget is as after the walk, exactly where
all that was met is all right. -/
def Follows {β : Type} (ok : β → Prop) (reported : List Reported × Budget) (met : List β × Budget) : Prop :=
  Tied reported.2 met.2 ∧ (reported.1 = [] ↔ ∀ meeting ∈ met.1, ok meeting)

theorem Follows.each {α β γ : Type} {ok : β → Prop} {f : α → Budget → List Reported × Budget}
    {g : γ → Budget → List β × Budget} {items : List α} (h : α → γ)
    (hitem : ∀ item ∈ items, ∀ b w, Tied b w → Follows ok (f item b) (g (h item) w)) {b w : Budget}
    (htied : Tied b w) : Follows ok (Openapi.each f items b) (Openapi.each g (items.map h) w) := by
  induction items generalizing b w with
  | nil => exact ⟨htied, by simp [Openapi.each]⟩
  | cons item rest ih =>
    obtain ⟨hbudget, hnil⟩ := hitem item (List.mem_cons_self ..) b w htied
    obtain ⟨hbudget', hnil'⟩ := ih (fun other hother => hitem other (List.mem_cons_of_mem _ hother)) hbudget
    refine ⟨hbudget', ?_⟩
    simp only [Openapi.each, List.map_cons, List.append_eq_nil_iff, hnil, hnil', List.forall_mem_append]

section

variable {cancelled : Nat → Bool} {root : Value} {way : Direction} {b w : Budget}

theorem compareSchemas_succ (r : Resolver) (levels : Nat) (oldSchema newSchema : Value) (place : String) :
    compareSchemas r way (levels + 1) oldSchema newSchema place b =
      let paid := b.spend r.cancelled
      let first := paid.2.firstVisit oldSchema newSchema way (maxSchemaDepth - levels)
      if !paid.1 then ([], paid.2)
      else if !first.1 then ([], first.2)
      else
        let before := view r.cancelled r.old oldSchema first.2
        let after := view r.cancelled r.new newSchema before.2
        let properties := compareProperties (compareSchemas r way levels) before.1 after.1 way place after.2
        let items := compareItems (compareSchemas r way levels) before.1 after.1 place properties.2
        (compareViews before.1 after.1 way place ++ properties.1 ++ items.1, items.2) := by
  rw [compareSchemas]
  rcases hpaid : b.spend r.cancelled with ⟨paid, b'⟩
  cases paid with
  | false => rfl
  | true =>
    simp only [Bool.not_true, Bool.false_eq_true, if_false]
    rcases hfirst : b'.firstVisit oldSchema newSchema way (maxSchemaDepth - levels) with ⟨first, b''⟩
    cases first <;> rfl

/-- With a budget that has ended nothing is reported any more. -/
theorem compareSchemas_of_exhausted (r : Resolver) (way : Direction) (levels : Nat)
    (oldSchema newSchema : Value) (place : String) (h : b.exhausted = true) :
    (compareSchemas r way levels oldSchema newSchema place b).1 = [] ∧
      Tied (compareSchemas r way levels oldSchema newSchema place b).2 b := by
  cases levels with
  | zero => exact ⟨rfl, tied_cut b⟩
  | succ levels =>
    rw [compareSchemas_succ, spend_of_exhausted h]
    exact ⟨rfl, .refl b⟩

theorem each_of_exhausted (r : Resolver) (way : Direction) (levels : Nat) (items : List (Value × Value × String))
    (h : b.exhausted = true) :
    (each (compareKid (compareSchemas r way levels)) items b).1 = [] ∧
      Tied (each (compareKid (compareSchemas r way levels)) items b).2 b := by
  induction items generalizing b with
  | nil => exact ⟨rfl, .refl b⟩
  | cons kid rest ih =>
    obtain ⟨hnil, htied⟩ := compareSchemas_of_exhausted r way levels kid.1 kid.2.1 kid.2.2 h
    obtain ⟨hnil', htied'⟩ := ih (htied.exhausted.trans h)
    exact ⟨List.append_eq_nil_iff.2 ⟨hnil, hnil'⟩, htied'.trans htied⟩

theorem kids_self (found : View) (place : String) :
    kids found found place = (sortedKeys found.properties).map fun name =>
      (Value.lookup found.properties name, Value.lookup found.properties name, place ++ "." ++ name) := by
  unfold kids
  rw [← List.filterMap_eq_map]
  apply List.filterMap_congr
  intro name hname
  have hhas := mem_sortedKeys.1 hname
  obtain ⟨value, hvalue⟩ := Option.isSome_iff_exists.1 hhas
  simp [Value.lookup, hvalue]

/-- What `compareSchemas` does with two views. -/
def compareFound (r : Resolver) (way : Direction) (levels : Nat) (before after : View) (place : String)
    (b : Budget) : List Reported × Budget :=
  let properties := compareProperties (compareSchemas r way levels) before after way place b
  let items := compareItems (compareSchemas r way levels) before after place properties.2
  (compareViews before after way place ++ properties.1 ++ items.1, items.2)

/-- Where the budget has ended, only the views count. -/
theorem compareFound_of_exhausted (r : Resolver) (way : Direction) (levels : Nat) (before after : View)
    (place : String) (h : b.exhausted = true) :
    Tied (compareFound r way levels before after place b).2 b ∧
      ((compareFound r way levels before after place b).1 = [] ↔ ShowsSame before after) := by
  have hkids := each_of_exhausted r way levels (kids before after place) h
  have hproperties : Tied (compareProperties (compareSchemas r way levels) before after way place b).2 b := by
    rw [compareProperties_budget]
    exact hkids.2
  have hitems : (compareItems (compareSchemas r way levels) before after place
      (compareProperties (compareSchemas r way levels) before after way place b).2).1 = [] ∧
      Tied (compareItems (compareSchemas r way levels) before after place
        (compareProperties (compareSchemas r way levels) before after way place b).2).2 b := by
    unfold compareItems
    split_ifs
    · exact ⟨rfl, hproperties⟩
    · obtain ⟨hnil, htied⟩ := compareSchemas_of_exhausted r way levels before.items after.items
        (place ++ "[]") (hproperties.exhausted.trans h)
      exact ⟨hnil, htied.trans hproperties⟩
  refine ⟨hitems.2, ?_⟩
  unfold compareFound
  simp only [List.append_eq_nil_iff, hitems.1, and_true, compareProperties_eq_nil, hkids.1, true_and]
  exact compareViews_eq_nil way place

/-- Where it has not, the parts follow their own walks. -/
theorem compareFound_self {levels : Nat} (found : View) (place : String)
    (hbelow : ∀ schema place b w, Tied b w →
      Follows Meeting.Steady
        (compareSchemas ⟨root, root, cancelled⟩ way levels schema schema place b)
        (meet cancelled root way levels schema w)) (h : Tied b w) :
    Follows Meeting.Steady
      (compareFound ⟨root, root, cancelled⟩ way levels found found place b)
      (⟨found, found, false⟩ :: (each (meet cancelled root way levels) found.below w).1,
        (each (meet cancelled root way levels) found.below w).2) := by
  have hkids : Follows Meeting.Steady
      (each (compareKid (compareSchemas ⟨root, root, cancelled⟩ way levels)) (kids found found place) b)
      (each (meet cancelled root way levels)
        ((sortedKeys found.properties).map (Value.lookup found.properties)) w) := by
    have hmap : (sortedKeys found.properties).map (Value.lookup found.properties) =
        (kids found found place).map (·.1) := by
      rw [kids_self, List.map_map]
      rfl
    rw [hmap]
    apply Follows.each _ _ h
    intro kid hkid b w htied
    rw [kids_self] at hkid
    obtain ⟨name, -, rfl⟩ := List.mem_map.1 hkid
    exact hbelow _ _ b w htied
  have hproperties : (compareProperties (compareSchemas ⟨root, root, cancelled⟩ way levels) found found way
      place b).2 = (each (compareKid (compareSchemas ⟨root, root, cancelled⟩ way levels))
        (kids found found place) b).2 := compareProperties_budget _ _
  have hitems : Follows Meeting.Steady
      (compareItems (compareSchemas ⟨root, root, cancelled⟩ way levels) found found place
        (compareProperties (compareSchemas ⟨root, root, cancelled⟩ way levels) found found way place b).2)
      (each (meet cancelled root way levels) (if found.items.isNil then [] else [found.items])
        (each (meet cancelled root way levels)
          ((sortedKeys found.properties).map (Value.lookup found.properties)) w).2) := by
    rw [hproperties]
    unfold compareItems
    rw [Bool.or_self]
    split_ifs
    · exact ⟨hkids.1, by simp [each]⟩
    · have hmeet := hbelow found.items (place ++ "[]") _ _ hkids.1
      simpa [each] using hmeet
  unfold View.below
  rw [each_append]
  refine ⟨hitems.1, ?_⟩
  unfold compareFound
  simp only [List.append_eq_nil_iff, compareProperties_eq_nil, hkids.2, hitems.2, List.forall_mem_cons,
    List.forall_mem_append]
  have hsteady : Meeting.Steady ⟨found, found, false⟩ ↔ ShowsSame found found := (showsSame_self found).symm
  rw [hsteady, ← compareViews_eq_nil way place]
  tauto

/-- What `compareSchemas` reports of a schema and itself follows the walk. -/
theorem compareSchemas_self (cancelled : Nat → Bool) (root : Value) (way : Direction) (levels : Nat)
    (schema : Value) (place : String) (h : Tied b w) :
    Follows Meeting.Steady
      (compareSchemas ⟨root, root, cancelled⟩ way levels schema schema place b)
      (meet cancelled root way levels schema w) := by
  induction levels generalizing schema place b w with
  | zero =>
    refine ⟨(tied_cut b).trans h, ?_⟩
    simp [compareSchemas, meet]
  | succ levels ih =>
    obtain ⟨hpaid, hspent⟩ := h.spend cancelled
    obtain ⟨hfirst, hvisited⟩ := hspent.firstVisit schema schema way (maxSchemaDepth - levels)
    rw [compareSchemas_succ, meet]
    simp only [hpaid, hfirst]
    by_cases hunpaid : (!(w.spend cancelled).1) = true
    · rw [if_pos hunpaid, if_pos hunpaid]
      exact ⟨hspent, by simp⟩
    rw [if_neg hunpaid, if_neg hunpaid]
    by_cases hseen : (!((w.spend cancelled).2.firstVisit schema schema way (maxSchemaDepth - levels)).1) = true
    · rw [if_pos hseen, if_pos hseen]
      exact ⟨hvisited, by simp⟩
    rw [if_neg hseen, if_neg hseen]
    obtain ⟨hbefore, hone⟩ := view_tied cancelled root schema hvisited
    obtain ⟨hafter, htwo⟩ := view_tied cancelled root schema hone
    rw [hbefore, hafter]
    split_ifs with hexhausted
    · obtain ⟨htied, hnil⟩ := compareFound_of_exhausted ⟨root, root, cancelled⟩ way levels _ _ place
        (htwo.exhausted.trans hexhausted)
      exact ⟨htied.trans htwo, hnil.trans (by simp [Meeting.Steady])⟩
    · have hsame := view_twice (Bool.not_eq_true _ ▸ hexhausted)
      rw [hsame]
      exact compareFound_self _ place (fun schema place _ _ htied => ih schema place htied) htwo

end

variable {root : Value} {b : Budget}

/-! ## What the budget covers -/

theorem view_composition {schema : Value} (hlive : b.exhausted = false)
    (hfits : b.visits + (composition root (maxSchemaDepth + 1) schema []).1.length ≤ maxVisits) :
    Composes {} (composition root (maxSchemaDepth + 1) schema []).1 (view live root schema b).1 ∧
      Tied (view live root schema b).2 (b.after (composition root (maxSchemaDepth + 1) schema []).1.length) := by
  obtain ⟨hcomposes, -, htied⟩ := collect_composition hlive
    (show b.visits + (composition root (maxSchemaDepth + 1) schema ({} : View).merged).1.length ≤ maxVisits from hfits)
  exact ⟨⟨hcomposes.properties, hcomposes.items, hcomposes.limits⟩, htied⟩

abbrev Depths := Record (String × String × Direction) Nat

/-- Whether a schema is compared here, and the depths after it. -/
def firstTime (depths : Depths) (schema : Value) (way : Direction) (depth : Nat) : Bool × Depths :=
  let reference := (schema.field "$ref").textOf
  if reference = "" then (true, depths)
  else
    match depths.read (reference, reference, way) with
    | some earlier => if earlier ≤ depth then (false, depths) else (true, depths.put (reference, reference, way) depth)
    | none => (true, depths.put (reference, reference, way) depth)

theorem firstVisit_self (b : Budget) (schema : Value) (way : Direction) (depth : Nat) :
    b.firstVisit schema schema way depth =
      ((firstTime b.compared schema way depth).1, { b with compared := (firstTime b.compared schema way depth).2 }) := by
  unfold Budget.firstVisit firstTime
  simp only [or_self]
  split_ifs
  · rfl
  · cases b.compared.read ((schema.field "$ref").textOf, (schema.field "$ref").textOf, way) with
    | none => rfl
    | some earlier =>
      dsimp only
      split_ifs <;> rfl

def schemasBelow (objects : List Fields) : List Value :=
  let properties := objects.flatMap propertiesOf
  (sortedKeys properties).map (Value.lookup properties) ++ if (itemsOf objects).isNil then [] else [itemsOf objects]

/-- The schemas that are compared from one on, down to `maxSchemaDepth`: what each is
composed of, and nothing for one that was compared before. -/
def walkFrom (root : Value) (way : Direction) : Nat → Value → Depths → List (List Fields) × Depths
  | 0, _, depths => ([], depths)
  | levels + 1, schema, depths =>
      let first := firstTime depths schema way (maxSchemaDepth - levels)
      if first.1 then
        let objects := (composition root (maxSchemaDepth + 1) schema []).1
        let rest := each (walkFrom root way levels) (schemasBelow objects) first.2
        (objects :: rest.1, rest.2)
      else ([[]], first.2)

/-- The visits that are spent on them: one for each, and one for each object on each side. -/
def visitsOf : List (List Fields) → Nat
  | [] => 0
  | objects :: rest => 1 + 2 * objects.length + visitsOf rest

theorem visitsOf_append (first second : List (List Fields)) :
    visitsOf (first ++ second) = visitsOf first + visitsOf second := by
  induction first with
  | nil => exact (Nat.zero_add _).symm
  | cons objects rest ih => rw [List.cons_append, visitsOf, visitsOf, ih, ← Nat.add_assoc]

def LimitsAreNumbers (objects : List Fields) : Prop :=
  ∀ limit ∈ numericLimits, limitOf objects limit ≠ some .nan

/-- The budget covers the first of the schemas that are walked through, and the rest is
empty or begins where the budget ends. -/
structure Covers (b : Budget) (walked first rest : List (List Fields)) : Prop where
  split : walked = first ++ rest
  fits : b.visits + visitsOf first ≤ maxVisits
  ends : rest = [] ∨ b.visits + visitsOf first = maxVisits

/-- What is met are the schemas that the budget covers. -/
structure Walks (b : Budget) (met : List Meeting × Budget) (walked : List (List Fields) × Depths)
    (first rest : List (List Fields)) : Prop where
  steady : (∀ meeting ∈ met.1, meeting.Steady) ↔ ∀ objects ∈ first, LimitsAreNumbers objects
  covered : rest = [] → met.2.exhausted = false ∧ met.2.compared = walked.2 ∧ met.2.visits = b.visits + visitsOf first
  ended : rest ≠ [] → met.2.exhausted = true

/-- A walk that follows a step does so for whatever the budget covers. -/
def Treads (meet : Budget → List Meeting × Budget) (walk : Depths → List (List Fields) × Depths) : Prop :=
  (∀ b first rest, b.exhausted = false → Covers b (walk b.compared).1 first rest →
      Walks b (meet b) (walk b.compared) first rest) ∧
    ∀ b, b.exhausted = true → (meet b).1 = [] ∧ (meet b).2.exhausted = true

theorem Treads.each {α : Type} {meet : α → Budget → List Meeting × Budget}
    {walk : α → Depths → List (List Fields) × Depths} {items : List α}
    (h : ∀ item ∈ items, Treads (meet item) (walk item)) : Treads (each meet items) (each walk items) := by
  induction items with
  | nil =>
    constructor
    · intro b first rest hlive hcovers
      obtain ⟨rfl, rfl⟩ := List.append_eq_nil_iff.1 hcovers.split.symm
      exact ⟨by simp [Openapi.each], fun _ => ⟨hlive, rfl, rfl⟩, fun hne => absurd rfl hne⟩
    · exact fun b hended => ⟨rfl, hended⟩
  | cons item others ih =>
    have hitem := h item List.mem_cons_self
    have hothers := ih fun other hother => h other (List.mem_cons_of_mem _ hother)
    constructor
    · intro b first rest hlive hcovers
      have hsplit : (walk item b.compared).1 ++ (Openapi.each walk others (walk item b.compared).2).1 = first ++ rest :=
        hcovers.split
      -- where the budget covers the item, it goes on with the others
      have hcovered : ∀ left, first = (walk item b.compared).1 ++ left →
          (Openapi.each walk others (walk item b.compared).2).1 = left ++ rest →
          Walks b (Openapi.each meet (item :: others) b) (Openapi.each walk (item :: others) b.compared) first rest := by
        rintro left rfl hrest
        have hfits := hcovers.fits
        have hends := hcovers.ends
        rw [visitsOf_append, ← Nat.add_assoc] at hfits hends
        have hmet := hitem.1 b (walk item b.compared).1 [] hlive ⟨(List.append_nil _).symm, by omega, .inl rfl⟩
        obtain ⟨hlive', hcompared, hvisits⟩ := hmet.covered rfl
        have hmet' := hothers.1 (meet item b).2 left rest hlive'
          ⟨by rw [hcompared]; exact hrest, by omega, by rwa [hvisits]⟩
        rw [hcompared] at hmet'
        refine ⟨?_, fun hnil => ?_, hmet'.ended⟩
        · simp only [Openapi.each, List.forall_mem_append]
          rw [hmet.steady, hmet'.steady]
        · obtain ⟨hlive'', hcompared', hvisits'⟩ := hmet'.covered hnil
          refine ⟨hlive'', hcompared', ?_⟩
          rw [visitsOf_append, ← Nat.add_assoc, ← hvisits]
          exact hvisits'
      obtain ⟨left, hfirst, hrest⟩ | ⟨left, hwalked, hleft⟩ := List.append_eq_append_iff.1 hsplit
      · exact hcovered left hfirst hrest
      · by_cases hnil : left = []
        · subst hnil
          exact hcovered [] (by rw [hwalked, List.append_nil, List.append_nil]) hleft.symm
        · have hmore : rest ≠ [] := by
            rw [hleft]
            exact List.append_ne_nil_of_left_ne_nil hnil _
          have hmet := hitem.1 b first left hlive ⟨hwalked, hcovers.fits, .inr (hcovers.ends.resolve_left hmore)⟩
          obtain ⟨hnone, hended⟩ := hothers.2 _ (hmet.ended hnil)
          refine ⟨?_, fun hempty => absurd hempty hmore, fun _ => hended⟩
          simp only [Openapi.each, hnone, List.append_nil]
          exact hmet.steady
    · intro b hended
      obtain ⟨hnil, hended⟩ := hitem.2 b hended
      obtain ⟨hnil', hended⟩ := hothers.2 _ hended
      exact ⟨List.append_eq_nil_iff.2 ⟨hnil, hnil'⟩, hended⟩

theorem below_composes {objects : List Fields} {found : View} (h : Composes {} objects found) :
    found.below = schemasBelow objects := by
  unfold View.below schemasBelow
  rw [h.properties, h.items]
  rfl

theorem steady_composes {objects : List Fields} {found other : View} (h : Composes {} objects found) :
    Meeting.Steady ⟨found, other, false⟩ ↔ LimitsAreNumbers objects := by
  change (∀ limit ∈ numericLimits, found.numbers.read limit ≠ some .nan) ↔ _
  refine forall₂_congr fun limit hlimit => ?_
  rw [h.limits limit hlimit]
  exact Iff.of_eq (congrArg (· ≠ _) (Option.or_none ..))

theorem meet_of_exhausted (way : Direction) (levels : Nat) (schema : Value) (h : b.exhausted = true) :
    (meet live root way levels schema b).1 = [] ∧ (meet live root way levels schema b).2.exhausted = true := by
  cases levels with
  | zero => exact ⟨rfl, h⟩
  | succ levels =>
    rw [meet, spend_of_exhausted h]
    exact ⟨rfl, h⟩

theorem meet_within {way : Direction} {levels : Nat} {schema : Value} (hlive : b.exhausted = false)
    (hfits : b.visits + 1 ≤ maxVisits) : meet live root way (levels + 1) schema b =
      let first := firstTime b.compared schema way (maxSchemaDepth - levels)
      let paid := { b.after 1 with compared := first.2 }
      if first.1 then
        let one := view live root schema paid
        let two := view live root schema one.2
        if two.2.exhausted then ([⟨one.1, two.1, true⟩], two.2)
        else
          let rest := each (meet live root way levels) one.1.below two.2
          (⟨one.1, two.1, false⟩ :: rest.1, rest.2)
      else ([], paid) := by
  rw [meet, spend_within hlive hfits]
  dsimp only
  rw [firstVisit_self]
  change (if (!(firstTime b.compared schema way (maxSchemaDepth - levels)).1) = true then _ else _) = _
  cases (firstTime b.compared schema way (maxSchemaDepth - levels)).1 <;> rfl

theorem walkFrom_succ_ne_nil (root : Value) (way : Direction) (levels : Nat) (schema : Value) (depths : Depths) :
    (walkFrom root way (levels + 1) schema depths).1 ≠ [] := by
  unfold walkFrom
  dsimp only
  split_ifs <;> exact List.cons_ne_nil _ _

/-- Nothing is met by a budget that has nothing left. -/
theorem meet_at_end {way : Direction} {levels : Nat} {schema : Value} (hlive : b.exhausted = false)
    (hvisits : b.visits = maxVisits) : meet live root way (levels + 1) schema b =
      ([], { b with visits := maxVisits + 1, exhausted := true }) := by
  have hspend : b.spend live = (false, { b with visits := maxVisits + 1, exhausted := true }) := by
    unfold Budget.spend
    rw [hlive, hvisits]
    rfl
  rw [meet, hspend]
  rfl

/-- The schemas that are met with a budget are those walked through that it covers. -/
theorem treads_meet (root : Value) (way : Direction) (levels : Nat) (schema : Value) :
    Treads (meet live root way levels schema) (walkFrom root way levels schema) := by
  induction levels generalizing schema with
  | zero =>
    refine ⟨?_, fun b h => meet_of_exhausted way 0 schema h⟩
    intro b first rest hlive hcovers
    obtain ⟨rfl, rfl⟩ := List.append_eq_nil_iff.1 hcovers.split.symm
    exact ⟨by simp [meet], fun _ => ⟨hlive, rfl, rfl⟩, fun hne => absurd rfl hne⟩
  | succ levels ih =>
    refine ⟨?_, fun b h => meet_of_exhausted way _ schema h⟩
    rintro b first rest hlive ⟨hsplit, hfits, hends⟩
    cases first with
    | nil =>
      -- the budget ends before the schema
      have hmore : rest ≠ [] := fun hnil =>
        walkFrom_succ_ne_nil root way levels schema b.compared (hsplit.trans hnil)
      rw [meet_at_end hlive (hends.resolve_left hmore)]
      exact ⟨by simp, fun hempty => absurd hempty hmore, fun _ => rfl⟩
    | cons objects first =>
      rw [visitsOf] at hfits hends
      rw [meet_within hlive (by omega)]
      unfold walkFrom at hsplit ⊢
      dsimp only at hsplit ⊢
      generalize firstTime b.compared schema way (maxSchemaDepth - levels) = found at hsplit ⊢
      obtain ⟨isFirst, depths⟩ := found
      cases isFirst with
      | false =>
        obtain ⟨rfl, hnil⟩ := List.cons.inj hsplit
        obtain ⟨rfl, rfl⟩ := List.append_eq_nil_iff.1 hnil.symm
        refine ⟨?_, fun _ => ⟨hlive, rfl, rfl⟩, fun hne => absurd rfl hne⟩
        simp [LimitsAreNumbers, limitOf]
      | true =>
        rw [if_pos rfl] at hsplit
        rw [if_pos rfl, if_pos rfl]
        dsimp only at hsplit ⊢
        obtain ⟨rfl, hbelow⟩ := List.cons.inj hsplit
        have hpaid : ∃ paid : Budget, paid = { b.after 1 with compared := depths } ∧ paid.visits = b.visits + 1 ∧
            paid.exhausted = false ∧ paid.compared = depths := ⟨_, rfl, rfl, hlive, rfl⟩
        obtain ⟨paid, heq, hvisits, hlive, hdepths⟩ := hpaid
        rw [← heq]
        obtain ⟨hone, htied⟩ := @view_composition root paid schema hlive (by omega)
        generalize view live root schema paid = one at hone htied ⊢
        obtain ⟨-, htied'⟩ := @view_composition root one.2 schema (htied.exhausted.trans hlive) (by
          rw [htied.visits, after_visits]
          omega)
        generalize view live root schema one.2 = two at htied' ⊢
        have hspent := htied'.visits
        rw [after_visits, htied.visits, after_visits, hvisits] at hspent
        have hlive' := htied'.exhausted.trans (htied.exhausted.trans hlive)
        have hcompared := htied'.compared.trans (htied.compared.trans hdepths)
        rw [← hcompared] at hbelow ⊢
        have hrest := (Treads.each fun schema _ => ih schema).1 two.2 first rest hlive'
          ⟨hbelow, by omega, hends.imp_right fun hend => by omega⟩
        rw [if_neg (by rw [hlive']; exact Bool.false_ne_true), below_composes hone]
        refine ⟨?_, fun hempty => ?_, fun hmore => ?_⟩
        · rw [List.forall_mem_cons, List.forall_mem_cons, steady_composes hone]
          exact and_congr_right fun _ => hrest.steady
        · obtain ⟨hlive'', hafter, hmore⟩ := hrest.covered hempty
          dsimp only
          refine ⟨hlive'', hafter, ?_⟩
          rw [visitsOf]
          exact hmore.trans (by omega)
        · dsimp only
          exact hrest.ended hmore

end Gostman.Openapi
