import Gostman.Openapi.Sound
import Mathlib.Algebra.Order.Field.Rat
import Mathlib.Algebra.Order.Field.Basic
/-!
# What a request schema still accepts

Where two schemas are compared as those of a request and nothing that is
reported is breaking, a value of the old schema is one of the new schema.  The
comparison passes over some of what a new schema asks for, so the two have to
be comparable.
-/

namespace Gostman.Openapi

open Gostman.Lib Gostman.Js

def Harmless (reports : List Reported) : Prop :=
  ∀ reported ∈ reports, reported.severity ≠ .breaking

theorem harmless_append {first second : List Reported} :
    Harmless (first ++ second) ↔ Harmless first ∧ Harmless second :=
  List.forall_mem_append

theorem not_harmless_breaking {place : String} {message : Message} :
    ¬ Harmless [⟨.breaking, place, message⟩] :=
  fun h => h _ (List.mem_singleton_self _) rfl

section

variable {old new : Fields} {before after : View} {place : String} {value : Json}

/-! ## The types -/

theorem types_subset (h : Harmless (compareTypeNames before after .asRequest place))
    (hbefore : before.types ≠ []) (hafter : after.types ≠ []) :
    ∀ name ∈ before.types, name ∈ after.types := by
  unfold compareTypeNames at h
  by_cases hsame : before.types = after.types
  · exact fun name hname => hsame ▸ hname
  · rw [if_pos ⟨hbefore, hafter, hsame⟩] at h
    simp only at h
    split_ifs at h with hremoved
    · exact difference_eq_nil.1 hremoved
    · exact (not_harmless_breaking h).elim

theorem nullable_kept (h : Harmless (compareNullable before after .asRequest place))
    (hbefore : before.nullable = true) : after.nullable = true := by
  by_contra hafter
  unfold compareNullable at h
  rw [if_pos ⟨hbefore, hafter, rfl⟩] at h
  exact not_harmless_breaking h

theorem hasType_null {name : String} (h : hasType name value = true) (hname : name = "null") :
    value = .null := by
  subst hname
  cases value <;> simp_all [hasType]

theorem mem_namedTypes {type : Value} {name : String} (h : name ∈ typeNames type) :
    name ∈ namedTypes type ∨ name = "null" ∧ listsNull type = true := by
  cases type with
  | text text => exact .inl h
  | list items =>
    by_cases hname : name = "null"
    · subst hname
      exact .inr ⟨rfl, by simpa [listsNull, typeNames] using h⟩
    · exact .inl (List.mem_filter.2 ⟨h, by simpa using hname⟩)
  | _ => cases h

theorem namedTypes_subset {type : Value} {name : String} (h : name ∈ namedTypes type) :
    name ∈ typeNames type := by
  cases type with
  | text text => exact h
  | list items => exact (List.mem_filter.1 h).1
  | _ => cases h

theorem null_listed {type : Value} (h : listsNull type = true) : "null" ∈ typeNames type := by
  cases type with
  | list items => simpa [listsNull, typeNames] using h
  | _ => cases h

/-- Null is accepted where the view is nullable. -/
theorem allowsType_null (hafter : Holds new after) (h : after.nullable = true) :
    AllowsType new .null := by
  rw [hafter.nullable, Bool.or_eq_true] at h
  rcases h with hlisted | hnullable
  · exact .inr (.inl ⟨"null", null_listed hlisted, rfl⟩)
  · exact .inr (.inr ⟨hnullable, rfl⟩)

/-- The new schema names types only where the old one does, and one at least
besides null if the old one does. -/
def TypesComparable (old new : Fields) : Prop :=
  (Value.lookup new "type").isNil = false → (Value.lookup old "type").isNil = false ∧
    (namedTypes (Value.lookup old "type") = [] ∨ namedTypes (Value.lookup new "type") ≠ [])

theorem AllowsType.kept (hbefore : Holds old before) (hafter : Holds new after)
    (hcomparable : TypesComparable old new) (h : Harmless (compareTypes before after .asRequest place))
    (hold : AllowsType old value) : AllowsType new value := by
  obtain ⟨hnames, hnullable⟩ := harmless_append.1 h
  by_cases hnew : (Value.lookup new "type").isNil = true
  · exact .inl hnew
  obtain ⟨hnil, hnamed⟩ := hcomparable (by simpa using hnew)
  have hnull : (listsNull (Value.lookup old "type") || (Value.lookup old "nullable").isTrue) = true →
      AllowsType new .null := by
    intro hlisted
    rw [← hbefore.nullable] at hlisted
    exact allowsType_null hafter (nullable_kept hnullable hlisted)
  rcases hold with hmissing | ⟨name, hname, htype⟩ | ⟨htrue, rfl⟩
  · rw [hnil] at hmissing
    cases hmissing
  · rcases mem_namedTypes hname with hmem | ⟨hisnull, hlisted⟩
    · have hsome : namedTypes (Value.lookup old "type") ≠ [] := List.ne_nil_of_mem hmem
      have hsomenew := hnamed.resolve_left hsome
      have hin := (hbefore.types hsome name).2 hmem
      have hafterne : after.types ≠ [] := by
        obtain ⟨other, hother⟩ := List.exists_mem_of_ne_nil _ hsomenew
        exact List.ne_nil_of_mem ((hafter.types hsomenew other).2 hother)
      have hkept := types_subset hnames (List.ne_nil_of_mem hin) hafterne name hin
      exact .inr (.inl ⟨name, namedTypes_subset ((hafter.types hsomenew name).1 hkept), htype⟩)
    · rw [hasType_null htype hisnull]
      exact hnull (by rw [hlisted]; rfl)
  · exact hnull (by rw [htrue, Bool.or_true])

/-! ## The enum -/

theorem AllowsEnum.kept (hbefore : Holds old before) (hafter : Holds new after)
    (htexts : Value.lookup new "enum" = .null ∨ IsTexts (Value.lookup new "enum"))
    (h : Harmless (compareEnums before after .asRequest place))
    (hold : AllowsEnum old value) : AllowsEnum new value := by
  intro values hvalues
  obtain ⟨texts, htexts⟩ := htexts.resolve_left (by rw [hvalues]; simp)
  obtain rfl : values = texts.map .text := Value.list.inj (hvalues.symm.trans htexts)
  have hhas : after.hasEnum = true := hafter.hasEnum.2 ⟨_, hvalues⟩
  unfold compareEnums at h
  by_cases hhad : before.hasEnum = true
  · obtain ⟨oldValues, holdValues⟩ := hbefore.hasEnum.1 hhad
    obtain ⟨text, hmem, rfl⟩ := hold oldValues holdValues
    have hin : text ∈ before.enum :=
      (hbefore.enum oldValues holdValues text).2 (List.mem_map.2 ⟨.text text, hmem, by simp [sprint]⟩)
    have hremoved : difference before.enum after.enum = [] := by
      by_contra hne
      rw [if_neg (by simp [hhad]), if_neg (by simp [hhas])] at h
      simp only at h
      rw [if_pos hne] at h
      exact not_harmless_breaking (harmless_append.1 h).1
    have hkept := difference_eq_nil.1 hremoved text hin
    rw [hafter.enum _ hvalues, List.map_map] at hkept
    obtain ⟨other, hother, heq⟩ := List.mem_map.1 hkept
    obtain rfl : other = text := by simpa [sprint] using heq
    exact ⟨other, List.mem_map.2 ⟨other, hother, rfl⟩, rfl⟩
  · rw [if_pos ⟨by simpa using hhad, hhas⟩] at h
    exact (not_harmless_breaking h).elim

/-! ## The limits -/

theorem one_pos : (0 : ℚ) < one := by
  have hone : 0 < one := by decide +kernel
  exact_mod_cast hone

theorem AllowsLimit.kept {limit : String} (hlimit : limit ∈ numericLimits) (hbefore : Holds old before)
    (hafter : Holds new after) (hisold : IsLimit (Value.lookup old limit))
    (hisnew : IsLimit (Value.lookup new limit))
    (h : Harmless (compareLimit before after .asRequest place limit))
    (hold : AllowsLimit limit (Value.lookup old limit) value) :
    AllowsLimit limit (Value.lookup new limit) value := by
  intro size hsize number hnumber
  obtain hnil | ⟨bound, hbound, hmeant⟩ := hisnew
  · rw [hnil] at hnumber
    cases hnumber
  obtain rfl : (bound : ℚ) / one = number := by
    rw [hmeant] at hnumber
    exact Option.some.inj hnumber
  unfold compareLimit at h
  simp only [hbefore.limits limit hlimit, hafter.limits limit hlimit, hbound] at h
  obtain hnil | ⟨earlier, hearlier, hwas⟩ := hisold
  · -- a limit that there was none of is a breaking one
    rw [hnil] at h
    simp only [Value.numberOf, sameLimit, isTighter, Bool.false_eq_true, if_false, and_self, true_or,
      if_true] at h
    exact (not_harmless_breaking h).elim
  have hheld := hold size hsize (earlier / one) hwas
  simp only [hearlier, sameLimit, sameNumber, isTighter, lessNumber, decide_eq_true_eq, true_and] at h
  have hscale : ∀ {a c : Int}, a ≤ c → (a / one : ℚ) ≤ c / one := by
    intro a c hle
    have hcast : (a : ℚ) ≤ c := by exact_mod_cast hle
    exact div_le_div_of_nonneg_right hcast one_pos.le
  split_ifs at h with hsame hlower htighter htighter
  · subst hsame
    exact hheld
  · exact (not_harmless_breaking h).elim
  · rw [if_pos hlower] at hheld ⊢
    have hle : bound ≤ earlier := by
      by_contra hlt
      exact htighter (.inl (decide_eq_true (by omega)))
    exact (hscale hle).trans hheld
  · exact (not_harmless_breaking h).elim
  · rw [if_neg hlower] at hheld ⊢
    have hle : earlier ≤ bound := by
      by_contra hlt
      exact htighter (.inl (decide_eq_true (by omega)))
    exact hheld.trans (hscale hle)

/-! ## The properties -/

section

variable {compare : Comparing} {b : Budget}

theorem Clean.of_compareProperty {way : Direction} (hcompare : ∀ old new place b,
    Clean (compare old new place b).2 → Clean b) {name : String}
    (h : Clean (compareProperty compare before after way place name b).2) : Clean b := by
  unfold compareProperty at h
  cases hread : after.properties.read name with
  | none =>
    rw [hread] at h
    exact h
  | some next =>
    rw [hread] at h
    exact hcompare _ _ _ _ h

/-- A property that both have is compared, and it is not newly required. -/
theorem property_kept (hcompare : ∀ old new place b, Clean (compare old new place b).2 → Clean b)
    (hclean : Clean (compareProperties compare before after .asRequest place b).2)
    (h : Harmless (compareProperties compare before after .asRequest place b).1)
    {name : String} {oldSchema newSchema : Value} (hold : before.properties.read name = some oldSchema)
    (hnew : after.properties.read name = some newSchema) :
    (∃ place b', Clean (compare oldSchema newSchema place b').2 ∧
      Harmless (compare oldSchema newSchema place b').1) ∧
      (name ∈ after.required → name ∈ before.required) := by
  have hmem : name ∈ sortedKeys before.properties := by
    rw [mem_sortedKeys, Record.has, hold]
    rfl
  rw [compareProperties_each] at hclean h
  obtain ⟨b', hclean', hsub⟩ := each_mem
    (fun name b hclean => Clean.of_compareProperty hcompare hclean) hmem hclean
  have hproperty : compareProperty compare before after .asRequest place name b' =
      ((compare oldSchema newSchema (place ++ "." ++ name) b').1 ++
        compareRequired before after .asRequest (place ++ "." ++ name) name,
        (compare oldSchema newSchema (place ++ "." ++ name) b').2) := by
    unfold compareProperty
    simp only [hnew, Value.lookup, hold, Option.getD_some]
  rw [hproperty] at hclean' hsub
  have hreports := harmless_append.1 fun found hfound => (harmless_append.1 h).1 found (hsub found hfound)
  refine ⟨⟨_, b', hclean', hreports.1⟩, fun his => ?_⟩
  by_contra hwas
  have hrequired := hreports.2
  unfold compareRequired at hrequired
  simp only [hwas, his, decide_false, decide_true, Bool.not_false, Bool.and_self, if_true] at hrequired
  exact not_harmless_breaking hrequired

theorem added_optional (h : Harmless (compareProperties compare before after .asRequest place b).1)
    {name : String} (hold : before.properties.has name = false) (hnew : after.properties.has name = true) :
    name ∉ after.required := by
  intro hrequired
  rw [compareProperties_each] at h
  apply (harmless_append.1 h).2 ⟨.breaking, place ++ "." ++ name, .requiredPropertyAdded⟩ _ rfl
  apply List.mem_map.2
  refine ⟨name, List.mem_filter.2 ⟨mem_sortedKeys.2 hnew, by rw [hold]; rfl⟩, ?_⟩
  rw [if_pos ⟨rfl, hrequired⟩]

end

end

/-! ## Schemas that can be compared -/

/-- What the new schema asks for shows in the comparison: it names types only
where the old one does, what it requires is a property of it or was required
before, and the properties and the items that it adds accept any value. -/
inductive Comparable : Value → Value → Prop
  | intro {old new : Fields} (types : TypesComparable old new)
      (required : ∀ name ∈ requiredOf new, name ∈ requiredOf old ∨ (propertiesOf new).has name = true)
      (added : ∀ name schema, (propertiesOf new).read name = some schema →
        (propertiesOf old).has name = false → ∀ value, Valid schema value)
      (kept : ∀ name oldSchema newSchema, (propertiesOf old).read name = some oldSchema →
        (propertiesOf new).read name = some newSchema → Comparable oldSchema newSchema)
      (itemsAdded : (Value.lookup old "items").isNil = true → (Value.lookup new "items").isNil = false →
        ∀ value, Valid (Value.lookup new "items") value)
      (itemsKept : (Value.lookup old "items").isNil = false → (Value.lookup new "items").isNil = false →
        Comparable (Value.lookup old "items") (Value.lookup new "items")) :
      Comparable (.object old) (.object new)

/-! ## The comparison of two of them -/

/-- Two schemas of the known keywords are compared by their views. -/
theorem compareSchemas_found {r : Resolver} {way : Direction} {levels : Nat} {old new : Fields}
    {place : String} {b : Budget} (hold : ∀ key ∈ old.keys, key ∈ keywords)
    (hnew : ∀ key ∈ new.keys, key ∈ keywords)
    (h : Clean (compareSchemas r way (levels + 1) (.object old) (.object new) place b).2) :
    ∃ before after b', Holds old before ∧ Holds new after ∧
      compareSchemas r way (levels + 1) (.object old) (.object new) place b =
        compareFound r way levels before after place b' := by
  have hreference : ((Value.object old).field "$ref").textOf = "" := by
    show (Value.lookup old "$ref").textOf = ""
    rw [lookup_of_unknown hold (by decide)]
    rfl
  have hvisit : ∀ b : Budget,
      b.firstVisit (.object old) (.object new) way (maxSchemaDepth - levels) = (true, b) := by
    intro b
    unfold Budget.firstVisit
    rw [hreference]
    exact if_pos (.inl rfl)
  rw [compareSchemas_succ] at h ⊢
  simp only [hvisit, Bool.not_true, Bool.false_eq_true, if_false] at h ⊢
  split_ifs at h ⊢ with hpaid
  · have hended : (b.spend r.cancelled).2.exhausted = !(b.spend r.cancelled).1 := spend_exhausted
    rw [hpaid, h.exhausted] at hended
    cases hended
  · have hfound : Clean (compareFound r way levels (view r.cancelled r.old (.object old)
        (b.spend r.cancelled).2).1 (view r.cancelled r.new (.object new)
        (view r.cancelled r.old (.object old) (b.spend r.cancelled).2).2).1 place
        (view r.cancelled r.new (.object new)
          (view r.cancelled r.old (.object old) (b.spend r.cancelled).2).2).2).2 := h
    have hafter := (Clean.of_compareFound hfound).2
    exact ⟨_, _, _, holds_view hold hafter.of_view, holds_view hnew hafter, rfl⟩

/-- The parts of a harmless comparison of two views. -/
theorem harmless_compareFound {r : Resolver} {way : Direction} {levels : Nat} {before after : View}
    {place : String} {b : Budget} (h : Harmless (compareFound r way levels before after place b).1) :
    Harmless (compareViews before after way place) ∧
      Harmless (compareProperties (compareSchemas r way levels) before after way place b).1 ∧
      Harmless (compareItems (compareSchemas r way levels) before after place
        (compareProperties (compareSchemas r way levels) before after way place b).2).1 := by
  unfold compareFound at h
  simp only [harmless_append] at h
  exact ⟨h.1.1, h.1.2, h.2⟩

/-- What was valid stays valid where nothing breaking is reported. -/
theorem valid_of_harmless (r : Resolver) (levels : Nat) {old new : Value} {place : String} {b : Budget}
    {value : Json} (hold : Plain old) (hnew : Plain new) (hcomparable : Comparable old new)
    (hclean : Clean (compareSchemas r .asRequest levels old new place b).2)
    (hharmless : Harmless (compareSchemas r .asRequest levels old new place b).1)
    (h : Valid old value) : Valid new value := by
  induction levels generalizing old new place b value with
  | zero => cases hclean.cut
  | succ levels ih =>
    cases hcomparable with
    | @intro old new types required added kept itemsAdded itemsKept =>
    cases hold with
    | intro knownOld _ _ limitsOld propertiesOld itemsOld =>
    cases hnew with
    | intro knownNew _ enumNew limitsNew propertiesNew itemsNew =>
    cases h with
    | intro vtype venum vlimits vrequired vproperties vitems =>
    obtain ⟨before, after, b', hbefore, hafter, hfound⟩ := compareSchemas_found knownOld knownNew hclean
    rw [hfound] at hclean hharmless
    have hcompare : ∀ old new place b, Clean (compareSchemas r .asRequest levels old new place b).2 → Clean b :=
      fun _ _ _ _ hclean => hclean.of_compareSchemas
    obtain ⟨hviews, hproperties, hitems⟩ := harmless_compareFound hharmless
    have hpropertiesClean := hclean.of_compareFound.1
    unfold compareViews at hviews
    simp only [harmless_append] at hviews
    obtain ⟨⟨⟨⟨⟨htypes, henums⟩, hlimits⟩, -⟩, -⟩, -⟩ := hviews
    refine .intro (vtype.kept hbefore hafter types htypes) (venum.kept hbefore hafter enumNew henums)
      ?limits ?required ?properties ?items
    case limits =>
      intro limit hmem
      have hlimit : Harmless (compareLimit before after .asRequest place limit) :=
        fun reported hreported => hlimits reported (List.mem_flatMap.2 ⟨limit, hmem, hreported⟩)
      exact AllowsLimit.kept hmem hbefore hafter (limitsOld limit hmem) (limitsNew limit hmem) hlimit
        (vlimits limit hmem)
    case required =>
      intro members hvalue name hname
      rcases required name hname with hwas | hhas
      · exact vrequired members hvalue name hwas
      · rw [← hafter.required] at hname
        rw [← hafter.properties] at hhas
        obtain ⟨newSchema, hread⟩ := Option.isSome_iff_exists.1 hhas
        cases hreadOld : before.properties.read name with
        | none =>
          have hmissing : before.properties.has name = false := by rw [Record.has, hreadOld]; rfl
          exact (added_optional hproperties hmissing hhas hname).elim
        | some oldSchema =>
          have hwas := (property_kept hcompare hpropertiesClean hproperties hreadOld hread).2 hname
          rw [hbefore.required] at hwas
          exact vrequired members hvalue name hwas
    case properties =>
      intro members name newSchema member hvalue hread hmember
      cases hreadOld : (propertiesOf old).read name with
      | none => exact added name newSchema hread (by rw [Record.has, hreadOld]; rfl) member
      | some oldSchema =>
        have hkept := kept name oldSchema newSchema hreadOld hread
        have hplainOld := propertiesOld name oldSchema hreadOld
        have hplainNew := propertiesNew name newSchema hread
        have hvalid := vproperties members name oldSchema member hvalue hreadOld hmember
        rw [← hbefore.properties] at hreadOld
        rw [← hafter.properties] at hread
        obtain ⟨place', b', hclean', hharmless'⟩ :=
          (property_kept hcompare hpropertiesClean hproperties hreadOld hread).1
        exact ih hplainOld hplainNew hkept hclean' hharmless' hvalid
    case items =>
      intro list hvalue hsome item hitem
      cases hnil : (Value.lookup old "items").isNil with
      | true => exact itemsAdded hnil hsome item
      | false =>
        have hboth : (before.items.isNil || after.items.isNil) = false := by
          rw [hbefore.items, hafter.items, hnil, hsome]
          rfl
        rw [compareFound_snd] at hclean
        unfold compareItems at hclean hitems
        rw [if_neg (by simp [hboth])] at hclean hitems
        rw [hbefore.items, hafter.items] at hclean hitems
        exact ih (itemsOld hnil) (itemsNew hsome) (itemsKept hnil hsome) hclean hitems
          (vitems list hvalue hnil item hitem)

/-! ## Schemas without properties and items -/

theorem forall_numericLimits {good : String → Prop} :
    (∀ limit ∈ numericLimits, good limit) ↔ good "minimum" ∧ good "maximum" ∧ good "minLength" ∧
      good "maxLength" ∧ good "minItems" ∧ good "maxItems" ∧ good "minProperties" ∧ good "maxProperties" := by
  simp [numericLimits]

theorem isLimit_int {value : Int} (h : Value.ofInt value = .finite (value * one)) : IsLimit (.int value) := by
  have hone : ((one : Nat) : ℚ) ≠ 0 := one_pos.ne'
  refine .inr ⟨value * one, congrArg some h, ?_⟩
  rw [limitValue, Int.cast_mul, Int.cast_natCast, mul_div_cancel_right₀ _ hone]

section Leaf

variable {old fields : Fields} (hproperties : propertiesOf fields = []) (hitems : Value.lookup fields "items" = .null)

include hproperties hitems

theorem Plain.leaf (known : ∀ key ∈ fields.keys, key ∈ keywords)
    (type : Value.lookup fields "type" = .null ∨ (∃ name, Value.lookup fields "type" = .text name) ∨
      IsTexts (Value.lookup fields "type"))
    (enum : Value.lookup fields "enum" = .null) (limits : ∀ limit ∈ numericLimits, IsLimit (Value.lookup fields limit)) :
    Plain (.object fields) := by
  refine .intro known type (.inl enum) limits ?_ ?_
  · intro name schema hread
    rw [hproperties] at hread
    cases hread
  · intro hsome
    rw [hitems] at hsome
    cases hsome

theorem Comparable.leaf (types : TypesComparable old fields) (required : requiredOf fields = []) :
    Comparable (.object old) (.object fields) := by
  refine .intro types ?_ ?_ ?_ ?_ ?_
  · rw [required]
    exact fun _ h => absurd h List.not_mem_nil
  · intro _ _ hread
    rw [hproperties] at hread
    cases hread
  · intro _ _ _ _ hread
    rw [hproperties] at hread
    cases hread
  · intro _ hsome
    rw [hitems] at hsome
    cases hsome
  · intro _ hsome
    rw [hitems] at hsome
    cases hsome

theorem Valid.leaf {value : Json} (type : AllowsType fields value) (enum : Value.lookup fields "enum" = .null)
    (limits : ∀ limit ∈ numericLimits, AllowsLimit limit (Value.lookup fields limit) value)
    (required : requiredOf fields = []) : Valid (.object fields) value := by
  refine .intro type ?_ limits ?_ ?_ ?_
  · intro values hvalues
    rw [enum] at hvalues
    cases hvalues
  · rw [required]
    exact fun _ _ _ h => absurd h List.not_mem_nil
  · intro _ _ _ _ _ hread
    rw [hproperties] at hread
    cases hread
  · intro _ _ hsome
    rw [hitems] at hsome
    cases hsome

end Leaf

theorem allowsLimit_null (limit : String) (value : Json) : AllowsLimit limit .null value := by
  intro _ _ _ hnumber
  cases hnumber

section

variable (type : Value)

def typed : Value := .object [("type", type)]

theorem lookup_typed {key : String} (h : key ≠ "type") : Value.lookup [("type", type)] key = .null := by
  have hread : Record.read [("type", type)] key = none := by
    simp [Record.read, Ne.symm h]
  rw [Value.lookup, hread]
  rfl

theorem numericLimits_ne_type {limit : String} (h : limit ∈ numericLimits) : limit ≠ "type" := by
  rintro rfl
  revert h
  decide

theorem plain_typed (h : (∃ name, type = .text name) ∨ IsTexts type) : Plain (typed type) := by
  refine .leaf rfl rfl (by simp [Record.keys, keywords]) (.inr h) rfl ?_
  exact fun limit hlimit => .inl (lookup_typed type (numericLimits_ne_type hlimit))

theorem valid_typed (h : type.isNil = false) {value : Json} :
    Valid (typed type) value ↔ ∃ name ∈ typeNames type, hasType name value = true := by
  constructor
  · intro hvalid
    cases hvalid with
    | intro vtype _ _ _ _ _ =>
    rcases vtype with hnil | hnamed | ⟨hnullable, -⟩
    · exact absurd (hnil.symm.trans h) (by simp)
    · exact hnamed
    · cases hnullable
  · intro hnamed
    refine .leaf rfl rfl (.inr (.inl hnamed)) rfl ?_ rfl
    intro limit hlimit
    rw [lookup_typed type (numericLimits_ne_type hlimit)]
    exact allowsLimit_null limit value

end

/-! ## Schemas of a pet -/

def textsOf (type : Value) (longest : Int) : Value := .object [("type", type), ("maxLength", .int longest)]

def listsOf (item : Value) : Value := .object [("type", .text "array"), ("items", item)]

/-- A pet has an id, tags, and what else it may have. -/
def petSchema (id tag : Value) (more : Fields) : Value :=
  .object [("type", .text "object"), ("required", .list [.text "id"]),
    ("properties", .object ([("id", id), ("tags", listsOf tag)] ++ more))]

def oldPet : Value := petSchema (textsOf (.text "string") 8) (typed (.text "string")) []

/-- An id may be longer or missing, a tag may be null, and there may be a note. -/
def newPet : Value :=
  petSchema (textsOf (.list [.text "string", .text "null"]) 12) (typed (.list [.text "string", .text "null"]))
    [("note", .object [])]

theorem plain_textsOf {type : Value} {longest : Int} (htype : (∃ name, type = .text name) ∨ IsTexts type)
    (hlongest : Value.ofInt longest = .finite (longest * one)) : Plain (textsOf type longest) := by
  refine .leaf rfl rfl (by simp [Record.keys, keywords, numericLimits]) (.inr htype) rfl ?_
  exact forall_numericLimits.2 ⟨.inl rfl, .inl rfl, .inl rfl, isLimit_int hlongest, .inl rfl, .inl rfl, .inl rfl, .inl rfl⟩

theorem plain_petSchema {id tag : Value} {more : Fields} (hid : Plain id) (htag : Plain tag)
    (hmore : ∀ entry ∈ more, Plain entry.2) : Plain (petSchema id tag more) := by
  have hlists : Plain (listsOf tag) := by
    refine .intro (by simp [Record.keys, keywords]) (.inr (.inl ⟨"array", rfl⟩)) (.inl rfl)
      (forall_numericLimits.2 (by repeat' constructor)) ?_ fun _ => htag
    intro name schema hread
    cases hread
  refine .intro (by simp [Record.keys, keywords]) (.inr (.inl ⟨"object", rfl⟩)) (.inl rfl)
    (forall_numericLimits.2 (by repeat' constructor)) ?_ ?_
  · intro name schema hread
    rcases List.mem_append.1 (Record.mem_of_read hread) with hpet | hadded
    · simp only [List.mem_cons, Prod.mk.injEq, List.not_mem_nil, or_false] at hpet
      rcases hpet with ⟨-, rfl⟩ | ⟨-, rfl⟩
      · exact hid
      · exact hlists
    · exact hmore _ hadded
  · intro hitems
    cases hitems

theorem comparable_pets : Comparable oldPet newPet := by
  have hnamed : namedTypes (.list [.text "string", .text "null"]) ≠ [] := by decide
  have hid : Comparable (textsOf (.text "string") 8) (textsOf (.list [.text "string", .text "null"]) 12) :=
    .leaf rfl rfl (fun _ => ⟨rfl, .inr hnamed⟩) rfl
  have htag : Comparable (typed (.text "string")) (typed (.list [.text "string", .text "null"])) :=
    .leaf rfl rfl (fun _ => ⟨rfl, .inr hnamed⟩) rfl
  have hlists : Comparable (listsOf (typed (.text "string"))) (listsOf (typed (.list [.text "string", .text "null"]))) := by
    refine .intro (fun _ => ⟨rfl, .inr (by decide)⟩) ?_ ?_ ?_ ?_ fun _ _ => htag
    · intro name hname
      cases hname
    · intro _ _ hread
      cases hread
    · intro _ _ _ hread
      cases hread
    · intro hnil
      cases hnil
  refine .intro (fun _ => ⟨rfl, .inr (by decide)⟩) ?_ ?_ ?_ ?_ ?_
  · exact fun name hname => .inl hname
  · intro name schema hread hhas value
    have hmem : (name, schema) ∈ [("id", _), ("tags", _), ("note", .object [])] := Record.mem_of_read hread
    simp only [List.mem_cons, Prod.mk.injEq, List.not_mem_nil, or_false] at hmem
    rcases hmem with ⟨rfl, -⟩ | ⟨rfl, -⟩ | ⟨-, rfl⟩
    · cases hhas
    · cases hhas
    · exact .leaf rfl rfl (.inl rfl) rfl (fun _ _ => allowsLimit_null _ _) rfl
  · intro name before after hbefore hafter
    have hmem : (name, before) ∈ [("id", _), ("tags", _)] := Record.mem_of_read hbefore
    simp only [List.mem_cons, Prod.mk.injEq, List.not_mem_nil, or_false] at hmem
    rcases hmem with ⟨rfl, rfl⟩ | ⟨rfl, rfl⟩
    · obtain rfl := Option.some.inj hafter
      exact hid
    · obtain rfl := Option.some.inj hafter
      exact hlists
  · intro _ hsome
    cases hsome
  · intro hnil
    cases hnil

def pet : Json := .obj [("id", .str "cat"), ("tags", .arr [.str "small"])]

theorem valid_oldPet : Valid oldPet pet := by
  have hid : Valid (textsOf (.text "string") 8) (.str "cat") := by
    refine .leaf rfl rfl (.inr (.inl ⟨"string", List.mem_singleton_self _, rfl⟩)) rfl ?_ rfl
    refine forall_numericLimits.2 ⟨allowsLimit_null _ _, allowsLimit_null _ _, allowsLimit_null _ _, ?_,
      allowsLimit_null _ _, allowsLimit_null _ _, allowsLimit_null _ _, allowsLimit_null _ _⟩
    intro size hsize number hnumber
    obtain rfl := Option.some.inj hsize
    obtain rfl := Option.some.inj hnumber
    decide
  have htag (text : String) : Valid (typed (.text "string")) (.str text) :=
    (valid_typed _ rfl).2 ⟨"string", List.mem_singleton_self _, rfl⟩
  have htags : Valid (listsOf (typed (.text "string"))) (.arr [.str "small"]) := by
    refine .intro (.inr (.inl ⟨"array", List.mem_singleton_self _, rfl⟩)) ?_
      (forall_numericLimits.2 (by simp [allowsLimit_null, Value.lookup, Record.read])) ?_ ?_ ?_
    · intro values hvalues
      cases hvalues
    · intro members hmembers
      cases hmembers
    · intro members _ _ _ hmembers
      cases hmembers
    · rintro list hlist - item hitem
      obtain rfl := Json.arr.inj hlist
      obtain rfl := List.mem_singleton.1 hitem
      exact htag "small"
  refine .intro (.inr (.inl ⟨"object", List.mem_singleton_self _, rfl⟩)) ?_
    (forall_numericLimits.2 (by simp [allowsLimit_null, Value.lookup, Record.read])) ?_ ?_ ?_
  · intro values hvalues
    cases hvalues
  · rintro members hmembers name hname
    obtain rfl := Json.obj.inj hmembers
    obtain rfl := List.mem_singleton.1 hname
    rfl
  · intro members name schema member hmembers hschema hmember
    obtain rfl := Json.obj.inj hmembers
    have hmem : (name, schema) ∈ [("id", _), ("tags", _)] := Record.mem_of_read hschema
    simp only [List.mem_cons, Prod.mk.injEq, List.not_mem_nil, or_false] at hmem
    rcases hmem with ⟨rfl, rfl⟩ | ⟨rfl, rfl⟩
    · obtain rfl := Option.some.inj hmember
      exact hid
    · obtain rfl := Option.some.inj hmember
      exact htags
  · intro list hlist
    cases hlist

/-- A pet is still valid where ids and tags may be null and a note is added. -/
theorem valid_of_harmless_pet : Valid newPet pet := by
  have hold : Plain oldPet := by
    refine plain_petSchema (plain_textsOf (.inl ⟨"string", rfl⟩) (by decide +kernel)) (plain_typed _ (.inl ⟨"string", rfl⟩)) ?_
    exact fun _ h => absurd h List.not_mem_nil
  have hnew : Plain newPet := by
    refine plain_petSchema (plain_textsOf (.inr ⟨["string", "null"], rfl⟩) (by decide +kernel))
      (plain_typed _ (.inr ⟨["string", "null"], rfl⟩)) ?_
    rintro entry hentry
    obtain rfl := List.mem_singleton.1 hentry
    exact .leaf rfl rfl (by simp [Record.keys]) (.inl rfl) rfl fun _ _ => .inl rfl
  exact @valid_of_harmless ⟨.null, .null, fun _ => false⟩ 3 _ _ "body" {} _ hold hnew comparable_pets
    ⟨by decide +kernel, by decide +kernel⟩ (by unfold Harmless; decide +kernel) valid_oldPet
/-- A property that is added is not breaking, whatever it asks of a value that
had one of that name. -/
theorem added_property_refuses : ¬ ∀ (old new : Value) (value : Json), Plain old → Plain new →
    Clean (schemas ⟨.null, .null, fun _ => false⟩ old new .asRequest "body" {}).2 →
    Harmless (schemas ⟨.null, .null, fun _ => false⟩ old new .asRequest "body" {}).1 →
    Valid old value → Valid new value := by
  intro h
  have hvalid := h (typed (.text "object"))
    (.object [("type", .text "object"), ("properties", .object [("a", typed (.text "string"))])])
    (.obj [("a", .num 5)]) (plain_typed _ (.inl ⟨"object", rfl⟩)) ?_
    ⟨by decide +kernel, by decide +kernel⟩ (by unfold Harmless; decide +kernel)
    ((valid_typed _ rfl).2 ⟨"object", List.mem_singleton_self _, rfl⟩)
  · cases hvalid with
    | intro _ _ _ _ vproperties _ =>
    have hmember := vproperties _ "a" _ (.num 5) rfl rfl rfl
    obtain ⟨name, hname, htype⟩ := (valid_typed _ rfl).1 hmember
    obtain rfl := List.mem_singleton.1 hname
    cases htype
  · refine .intro (by decide) (.inr (.inl ⟨"object", rfl⟩)) (.inl rfl) ?_ ?_ ?_
    · exact forall_numericLimits.2 (by repeat' constructor)
    · intro name schema hread
      have hname : (name, schema) ∈ [("a", typed (.text "string"))] := Record.mem_of_read hread
      obtain ⟨-, rfl⟩ := Prod.mk.inj (List.mem_singleton.1 hname)
      exact plain_typed _ (.inl ⟨"string", rfl⟩)
    · intro hitems
      cases hitems

end Gostman.Openapi
