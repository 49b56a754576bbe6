import Gostman.Openapi.Meaning
/-!
# What is not breaking

Where the comparison of two schemas as those of a request reports nothing that
is breaking, what was valid stays valid.
-/

namespace Gostman.Openapi

open Gostman.Lib Gostman.Js

/-! ## Budgets that suffice -/

structure Clean (b : Budget) : Prop where
  exhausted : b.exhausted = false
  cut : b.cut = false

section

variable {cancelled : Nat → Bool} {root : Value} {b : Budget}

theorem Clean.of_spend (h : Clean (b.spend cancelled).2) : Clean b := by
  unfold Budget.spend at h
  split_ifs at h with hexhausted
  · exact h
  · exact ⟨by simpa using hexhausted, h.cut⟩

theorem Clean.of_firstVisit {oldSchema newSchema : Value} {way : Direction} {depth : Nat}
    (h : Clean (b.firstVisit oldSchema newSchema way depth).2) : Clean b := by
  unfold Budget.firstVisit at h
  simp only at h
  split_ifs at h
  · exact h
  · split at h
    · split_ifs at h
      · exact h
      · exact ⟨h.exhausted, h.cut⟩
    · exact ⟨h.exhausted, h.cut⟩

theorem Clean.of_collect {levels : Nat} {schema : Value} {found : View}
    (h : Clean (collect cancelled root levels schema (found, b)).2) : Clean b := by
  induction levels using Nat.strong_induction_on generalizing schema found b with
  | _ levels ih =>
    obtain ⟨view', hnone⟩ | ⟨view', hcut⟩ | ⟨view', object, rest, parts, rfl, hunpaid, hpaid⟩ :=
      collect_cases cancelled root levels schema found
    · rw [hnone] at h
      exact h
    · rw [hcut] at h
      cases h.cut
    · cases hspend : (b.spend cancelled).1 with
      | false =>
        rw [hunpaid b hspend] at h
        exact h.of_spend
      | true =>
        rw [hpaid b hspend] at h
        have hparts : ∀ (parts : List Value) (state : View × Budget),
            Clean (collectParts cancelled root rest parts state).2 → Clean state.2 := by
          intro parts
          induction parts with
          | nil => exact fun _ hclean => hclean
          | cons part others ihparts =>
            intro state hclean
            exact ih rest (Nat.lt_succ_self rest) (ihparts _ hclean)
        exact (hparts parts _ h).of_spend

theorem Clean.of_view {schema : Value} (h : Clean (view cancelled root schema b).2) : Clean b := by
  have hcollect : (view cancelled root schema b).2 =
      (collect cancelled root (maxSchemaDepth + 1) schema ({}, b)).2 := rfl
  rw [hcollect] at h
  exact h.of_collect

/-- A schema of the known keywords is seen whole. -/
theorem holds_view {fields : Fields} (known : ∀ key ∈ fields.keys, key ∈ keywords)
    (h : Clean (view cancelled root (.object fields) b).2) :
    Holds fields (view cancelled root (.object fields) b).1 := by
  have hreference : ((Value.object fields).field "$ref").textOf = "" := by
    show (Value.lookup fields "$ref").textOf = ""
    rw [lookup_of_unknown known (by decide)]
    rfl
  have hresolve : resolve root (.object fields) = .object fields := by
    unfold resolve maxSchemaDepth resolveHops
    rw [hreference]
    rfl
  have hparts : (Value.lookup fields "allOf").listOf = [] := by
    rw [lookup_of_unknown known (by decide)]
    rfl
  have hpaid : (b.spend cancelled).1 = true := by
    cases hspend : (b.spend cancelled).1 with
    | true => rfl
    | false =>
      exfalso
      have hexhausted : (view cancelled root (.object fields) b).2.exhausted = true := by
        unfold view collect
        rw [if_neg (by rw [hreference]; simp), hresolve]
        rcases hresult : b.spend cancelled with ⟨paid, b'⟩
        rw [hresult] at hspend
        obtain rfl : paid = false := hspend
        have hended : (b.spend cancelled).2.exhausted = !(b.spend cancelled).1 := spend_exhausted
        rw [hresult] at hended
        exact hended
      rw [h.exhausted] at hexhausted
      cases hexhausted
  have hview : (view cancelled root (.object fields) b).1 =
      { (View.gather fields {}).compose fields with
        types := ((View.gather fields {}).compose fields).types.insertionSort (· ≤ ·) } := by
    unfold view collect
    rw [if_neg (by rw [hreference]; simp), hresolve]
    rcases hresult : b.spend cancelled with ⟨paid, b'⟩
    rw [hresult] at hpaid
    obtain rfl : paid = true := hpaid
    simp only [Value.objectOf, hparts, List.foldl_nil, hreference, View.merge, if_true]
  have hholds := holds_gather fields
  rw [hview]
  refine ⟨fun hnamed name => ?_, hholds.nullable, hholds.hasEnum, hholds.enum, hholds.limits,
    hholds.properties, hholds.required, hholds.items⟩
  rw [List.mem_insertionSort]
  exact hholds.types hnamed name

/-! ## Parts of a comparison -/

theorem Clean.of_each {α β : Type} {f : α → Budget → List β × Budget}
    (hf : ∀ item b, Clean (f item b).2 → Clean b) {items : List α} (h : Clean (each f items b).2) :
    Clean b := by
  induction items generalizing b with
  | nil => exact h
  | cons item rest ih => exact hf item b (ih h)

/-- Each item is compared at some time, and what it reports is reported. -/
theorem each_mem {α β : Type} {f : α → Budget → List β × Budget}
    (hf : ∀ item b, Clean (f item b).2 → Clean b) {items : List α} {item : α} (hmem : item ∈ items)
    (h : Clean (each f items b).2) :
    ∃ b', Clean (f item b').2 ∧ ∀ found ∈ (f item b').1, found ∈ (each f items b).1 := by
  induction items generalizing b with
  | nil => cases hmem
  | cons first rest ih =>
    rcases List.mem_cons.1 hmem with rfl | hrest
    · exact ⟨b, Clean.of_each hf h, fun found hfound => List.mem_append_left _ hfound⟩
    · obtain ⟨b', hclean, hsub⟩ := ih hrest h
      exact ⟨b', hclean, fun found hfound => List.mem_append_right _ (hsub found hfound)⟩

theorem Clean.of_compareItems {compare : Comparing}
    (hcompare : ∀ old new place b, Clean (compare old new place b).2 → Clean b) {before after : View}
    {place : String} (h : Clean (compareItems compare before after place b).2) : Clean b := by
  unfold compareItems at h
  split_ifs at h
  · exact h
  · exact hcompare _ _ _ _ h

theorem Clean.of_compareProperties {compare : Comparing}
    (hcompare : ∀ old new place b, Clean (compare old new place b).2 → Clean b) {before after : View}
    {way : Direction} {place : String}
    (h : Clean (compareProperties compare before after way place b).2) : Clean b := by
  rw [compareProperties_budget] at h
  exact Clean.of_each (fun (kid : Value × Value × String) b => hcompare kid.1 kid.2.1 kid.2.2 b) h

theorem compareFound_snd (r : Resolver) (way : Direction) (levels : Nat) (before after : View)
    (place : String) (b : Budget) :
    (compareFound r way levels before after place b).2 =
      (compareItems (compareSchemas r way levels) before after place
        (compareProperties (compareSchemas r way levels) before after way place b).2).2 := rfl

theorem Clean.of_compareSchemas {r : Resolver} {way : Direction} {levels : Nat} {old new : Value}
    {place : String} (h : Clean (compareSchemas r way levels old new place b).2) : Clean b := by
  induction levels generalizing old new place b with
  | zero => cases h.cut
  | succ levels ih =>
    have hcompare : ∀ old new place b, Clean (compareSchemas r way levels old new place b).2 → Clean b :=
      fun _ _ _ _ hclean => ih hclean
    have hfound : ∀ before after b, Clean (compareFound r way levels before after place b).2 → Clean b := by
      intro before after b hclean
      rw [compareFound_snd] at hclean
      exact Clean.of_compareProperties hcompare (Clean.of_compareItems hcompare hclean)
    rw [compareSchemas_succ] at h
    simp only at h
    split_ifs at h
    · exact h.of_spend
    · exact h.of_firstVisit.of_spend
    · have hviews := hfound _ _ _ h
      exact hviews.of_view.of_view.of_firstVisit.of_spend

/-- The budget of what is compared in two views. -/
theorem Clean.of_compareFound {r : Resolver} {way : Direction} {levels : Nat} {before after : View}
    {place : String} (h : Clean (compareFound r way levels before after place b).2) :
    Clean (compareProperties (compareSchemas r way levels) before after way place b).2 ∧ Clean b := by
  have hcompare : ∀ old new place b, Clean (compareSchemas r way levels old new place b).2 → Clean b :=
    fun _ _ _ _ hclean => hclean.of_compareSchemas
  rw [compareFound_snd] at h
  have hproperties := Clean.of_compareItems hcompare h
  exact ⟨hproperties, Clean.of_compareProperties hcompare hproperties⟩

end

end Gostman.Openapi
