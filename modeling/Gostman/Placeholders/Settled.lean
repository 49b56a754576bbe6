import Gostman.Placeholders.Fill
/-!
# Texts filled one after another

One substitution may fill many texts.  It keeps what is left of its budgets and
the built-in values it made for a variable.  As long as it does not fail, a
text is filled as if it were the first, whatever was filled before.
-/

namespace Gostman.Placeholders

open Gostman.Lib

variable {generators : Generators} {values : Text → Option Text}

/-- One of the limits has been passed, or a file was asked for. -/
def Substitution.Broken (s : Substitution) : Prop :=
  s.failed = true ∨ s.exceeded = true ∨ s.overworked = true

variable (generators values) in
/-- A substitution that refuses files, with the values it made. -/
structure Settled (s : Substitution) : Prop where
  kept : s.values = values
  files : s.files = some fun _ => none
  read : s.read = []
  generates : s.generates = true
  budget : s.budget ≤ maxEncodedBody
  generated : ∀ slot made, s.generated.lookup slot = some made → slot.owner ≠ [] ∧
    ∃ text span, values slot.owner = some text ∧ (spansOf text).1[slot.index]? = some span ∧
      generators.dynamicValue (trimSpace span.raw) = some made

variable (generators values) in
/-- A substitution late in its life, and one that has filled less. -/
structure Beside (s t : Substitution) : Prop where
  late : Settled generators values s
  early : Settled generators values t
  sound : ¬t.Broken
  expansions : s.expansions = t.expansions
  total : t.total ≤ s.total

variable (generators values) in
/-- The late call breaks its substitution, or gives what the early one gives. -/
def Agrees (late early : Option Text × Substitution) : Prop :=
  late.2.Broken ∨ early.1 = late.1 ∧ Beside generators values late.2 early.2

/-! ## What is broken stays broken -/

def Lasting (call : Substitution → Option Text × Substitution) : Prop :=
  ∀ s, s.Broken → (call s).2.Broken

theorem broken_spend {s : Substitution} (h : s.Broken) : (spend s).2.Broken := by
  unfold spend Substitution.Broken at *
  rcases h with h | h | h
  · dsimp only
    split <;> simp [h]
  · simp [h]
  · simp [h]

theorem lasting_nested {fill : Text → Text → Substitution → Option Text × Substitution}
    (hfill : ∀ name value, Lasting (fill name value)) (filling : List Text) (name value : Text) :
    Lasting (nested fill filling name value) := by
  intro s h
  unfold nested
  split
  · exact h
  split
  · exact h
  · have hspend := broken_spend h
    generalize spend s = result at hspend ⊢
    obtain ⟨spent, next⟩ := result
    cases spent with
    | true => exact hfill name value next hspend
    | false => exact hspend

theorem lasting_resolve {nested : Text → Text → Substitution → Option Text × Substitution}
    (hnested : ∀ name value, Lasting (nested name value)) (name : Text) : Lasting (resolve nested name) := by
  intro s h
  unfold resolve
  split
  · exact hnested _ _ s h
  · exact h

theorem lasting_file (name : Text) (reference : FileReference) : Lasting (file name reference) := by
  intro s h
  unfold file
  split
  · exact h
  split
  · exact h
  split
  · exact h
  split
  · exact .inl rfl
  · dsimp only
    split
    · exact .inr (.inl rfl)
    · exact h

theorem lasting_generate (name : Text) (slot : Slot) : Lasting (generate generators name slot) := by
  intro s h
  unfold generate
  split
  · exact h
  split
  · split_ifs
    · exact h
    · exact h
  · exact h

variable (generators) in
/-- What `lookup` does with a name that is no variable. -/
def elsewhere (readsFiles : Bool) (name : Text) (slot : Slot) (s : Substitution) : Option Text × Substitution :=
  match parseFileReference name with
  | some reference => if readsFiles then file name reference s else (none, s)
  | none => if s.generates then generate generators name slot s else (none, s)

theorem lookup_of_resolve {nested : Text → Text → Substitution → Option Text × Substitution}
    {readsFiles : Bool} {raw : Text} {slot : Slot} {s next : Substitution} {found : Option Text} :
    resolve nested (trimSpace raw) s = (found, next) →
    lookup generators nested readsFiles raw slot s =
      match found with
      | some value => (some value, next)
      | none => elsewhere generators readsFiles (trimSpace raw) slot next := by
  intro h
  unfold lookup
  dsimp only
  rw [h]
  cases found <;> rfl

theorem lasting_elsewhere (readsFiles : Bool) (name : Text) (slot : Slot) :
    Lasting (elsewhere generators readsFiles name slot) := by
  intro s h
  unfold elsewhere
  split
  · split_ifs
    · exact lasting_file _ _ s h
    · exact h
  · split_ifs
    · exact lasting_generate _ _ s h
    · exact h

theorem lasting_lookup {nested : Text → Text → Substitution → Option Text × Substitution}
    (hnested : ∀ name value, Lasting (nested name value)) (readsFiles : Bool) (raw : Text) (slot : Slot) :
    Lasting (lookup generators nested readsFiles raw slot) := by
  intro s h
  have hresolve := lasting_resolve hnested (trimSpace raw) s h
  cases hfound : resolve nested (trimSpace raw) s with
  | mk found next =>
      rw [hfound] at hresolve
      rw [lookup_of_resolve hfound]
      cases found with
      | some value => exact hresolve
      | none => exact lasting_elsewhere readsFiles _ slot next hresolve

theorem broken_noteMissing {s : Substitution} {name : Text} : (noteMissing s name).Broken ↔ s.Broken := by
  unfold noteMissing
  split <;> exact Iff.rfl

theorem lasting_fillSpans {lookup : Text → Slot → Substitution → Option Text × Substitution}
    (hlookup : ∀ raw slot, Lasting (lookup raw slot)) (limit : Nat) (owner tail : Text) (index : Nat)
    (spans : List Span) (filled : Text) : Lasting (fillSpans lookup limit owner tail index spans filled) := by
  intro s h
  induction spans generalizing index filled s with
  | nil =>
      simp only [fillSpans]
      split_ifs
      · exact .inr (.inl rfl)
      · exact h
  | cons span rest ih =>
      have hfound := hlookup span.raw ⟨owner, index⟩ s h
      simp only [fillSpans]
      generalize lookup span.raw ⟨owner, index⟩ s = result at hfound ⊢
      obtain ⟨found, next⟩ := result
      cases found with
      | some value =>
          dsimp only
          split_ifs
          · exact .inr (.inl rfl)
          · exact ih _ _ next hfound
      | none =>
          dsimp only
          split_ifs
          · exact .inr (.inl rfl)
          · exact ih _ _ _ (broken_noteMissing.2 hfound)

theorem lasting_fill (room : Nat) (filling : List Text) (input : Text) (readsFiles : Bool) (limit : Nat)
    (owner : Text) : Lasting (fill generators room filling input readsFiles limit owner) := by
  induction room generalizing filling input readsFiles limit owner with
  | zero =>
      exact lasting_fillSpans (fun raw slot => lasting_lookup
        (fun name value => lasting_nested (fun _ _ _ h => h) filling name value) readsFiles raw slot) _ _ _ _ _ _
  | succ room ih =>
      exact lasting_fillSpans (fun raw slot => lasting_lookup
        (fun name value => lasting_nested (fun name value => ih _ _ _ _ _) filling name value) readsFiles raw slot)
        _ _ _ _ _ _

/-! ## Call by call -/

theorem spend_sound {s : Substitution} (h : ¬(spend s).2.Broken) :
    s.overworked = false ∧ s.total < maxRequestExpansions ∧ s.exceeded = false ∧ s.failed = false := by
  unfold spend Substitution.Broken at h
  dsimp only at h
  split at h <;> simp_all

theorem spend_of_sound {s : Substitution} (hoverworked : s.overworked = false)
    (htotal : s.total < maxRequestExpansions) (hexceeded : s.exceeded = false) :
    spend s = if s.expansions ≥ maxExpansions then (false, s)
      else (true, { s with expansions := s.expansions + 1, total := s.total + 1 }) := by
  have hguard : (s.overworked || decide (s.total ≥ maxRequestExpansions)) = s.overworked := by
    rw [decide_eq_false (Nat.not_le_of_lt htotal), Bool.or_false]
  unfold spend
  rw [hguard]
  change (if (s.exceeded || s.overworked || decide (s.expansions ≥ maxExpansions)) = true then
    (false, s) else (true, { s with expansions := s.expansions + 1, total := s.total + 1 })) = _
  rw [hexceeded, hoverworked, Bool.false_or, Bool.false_or]
  simp only [decide_eq_true_eq]

theorem not_broken_iff {s : Substitution} :
    ¬s.Broken ↔ s.failed = false ∧ s.exceeded = false ∧ s.overworked = false := by
  simp [Substitution.Broken]

theorem Settled.counted {s : Substitution} (h : Settled generators values s) (expansions total : Nat) :
    Settled generators values { s with expansions := expansions, total := total } :=
  ⟨h.kept, h.files, h.read, h.generates, h.budget, h.generated⟩

theorem spend_beside {s t : Substitution} (h : Beside generators values s t) :
    (spend s).2.Broken ∨ (spend t).1 = (spend s).1 ∧ Beside generators values (spend s).2 (spend t).2 := by
  by_cases hbroken : (spend s).2.Broken
  · exact .inl hbroken
  right
  obtain ⟨hoverworked, htotal, hexceeded, -⟩ := spend_sound hbroken
  obtain ⟨-, hexceededt, hoverworkedt⟩ := not_broken_iff.1 h.sound
  rw [spend_of_sound hoverworked htotal hexceeded,
    spend_of_sound hoverworkedt (Nat.lt_of_le_of_lt h.total htotal) hexceededt, ← h.expansions]
  split_ifs
  · exact ⟨rfl, h⟩
  · exact ⟨rfl, h.late.counted _ _, h.early.counted _ _, h.sound, rfl, Nat.succ_le_succ h.total⟩

section Calls

variable {late early : Text → Text → Substitution → Option Text × Substitution}

variable (generators values) in
/-- Two ways to put a variable in agree on the variables there are. -/
def AgreeOn (late early : Text → Text → Substitution → Option Text × Substitution) : Prop :=
  ∀ name value, values name = some value → ∀ s t, Beside generators values s t →
    Agrees generators values (late name value s) (early name value t)

theorem nested_agrees (hfill : AgreeOn generators values late early)
    (hlasting : ∀ name value, Lasting (late name value)) (filling : List Text) :
    AgreeOn generators values (nested late filling) (nested early filling) := by
  intro name value hvalue s t h
  unfold nested
  split
  · exact .inr ⟨rfl, h⟩
  split
  · exact .inr ⟨rfl, h⟩
  · have hspend := spend_beside h
    generalize spend s = first at hspend ⊢
    generalize spend t = second at hspend ⊢
    obtain ⟨spent, s'⟩ := first
    obtain ⟨spentt, t'⟩ := second
    rcases hspend with hbroken | ⟨heq, hbeside⟩
    · cases spent with
      | true => exact .inl (hlasting name value s' hbroken)
      | false => exact .inl hbroken
    · dsimp only at heq
      subst heq
      cases spentt with
      | true => exact hfill name value hvalue s' t' hbeside
      | false => exact .inr ⟨rfl, hbeside⟩

theorem values_of_variableOf {s : Substitution} {name key value : Text}
    (h : s.variableOf name = some (key, value)) : s.values key = some value := by
  unfold Substitution.variableOf at h
  cases hname : s.values name with
  | some found =>
      simp only [hname, Option.some.injEq, Prod.mk.injEq] at h
      rw [← h.1, hname, h.2]
  | none =>
      simp only [hname] at h
      cases hprompt : promptName name with
      | none => simp [hprompt] at h
      | some asked =>
          simp only [hprompt, Option.map_eq_some_iff, Prod.mk.injEq] at h
          obtain ⟨found, hfound, rfl, rfl⟩ := h
          exact hfound

theorem variableOf_congr {s t : Substitution} (h : s.values = t.values) (name : Text) :
    s.variableOf name = t.variableOf name := by
  unfold Substitution.variableOf
  rw [h]

theorem resolve_agrees (hnested : AgreeOn generators values late early) (name : Text) {s t : Substitution}
    (h : Beside generators values s t) :
    Agrees generators values (resolve late name s) (resolve early name t) := by
  have hsame := variableOf_congr (h.late.kept.trans h.early.kept.symm) name
  unfold resolve
  rw [← hsame]
  cases hfound : s.variableOf name with
  | none => exact .inr ⟨rfl, h⟩
  | some entry =>
      obtain ⟨key, value⟩ := entry
      have hvalue := values_of_variableOf hfound
      rw [h.late.kept] at hvalue
      exact hnested key value hvalue s t h

theorem file_broken {s : Substitution} (h : Settled generators values s) (name : Text)
    (reference : FileReference) : (file name reference s).2.Broken := by
  unfold file
  rw [h.files, h.read]
  dsimp only [List.lookup]
  split_ifs with hguard
  · rcases Bool.or_eq_true_iff.1 hguard with hexceeded | hfailed
    · exact .inr (.inl hexceeded)
    · exact .inl hfailed
  · exact .inl rfl

variable (values) in
/-- The name stands at this place, if the place is in the value of a variable. -/
def StandsAt (slot : Slot) (name : Text) : Prop :=
  slot.owner ≠ [] → ∃ text span, values slot.owner = some text ∧
    (spansOf text).1[slot.index]? = some span ∧ trimSpace span.raw = name

/-- A built-in value is the same whether it was made before or is made now. -/
theorem generate_settled {s : Substitution} (h : Settled generators values s) {name : Text} {slot : Slot}
    (hplace : StandsAt values slot name) :
    (generate generators name slot s).1 = generators.dynamicValue name ∧
      ∃ made, (generate generators name slot s).2 = { s with generated := made } ∧
        Settled generators values { s with generated := made } := by
  unfold generate
  cases hmade : s.generated.lookup slot with
  | some value =>
      obtain ⟨howner, text, span, htext, hspan, hvalue⟩ := h.generated slot value hmade
      obtain ⟨text', span', htext', hspan', hname⟩ := hplace howner
      rw [htext, Option.some.injEq] at htext'
      subst htext'
      rw [hspan, Option.some.injEq] at hspan'
      subst hspan'
      rw [hname] at hvalue
      exact ⟨hvalue.symm, s.generated, rfl, h⟩
  | none =>
      cases hvalue : generators.dynamicValue name with
      | none => exact ⟨rfl, s.generated, rfl, h⟩
      | some value =>
          dsimp only
          split_ifs with howner
          · refine ⟨rfl, (slot, value) :: s.generated, rfl, h.kept, h.files, h.read, h.generates, h.budget, ?_⟩
            intro other found hfound
            rw [List.lookup_cons] at hfound
            by_cases hother : other = slot
            · subst hother
              simp only [beq_self_eq_true, Option.some.injEq] at hfound
              subst hfound
              obtain ⟨text, span, htext, hspan, hname⟩ := hplace howner
              exact ⟨howner, text, span, htext, hspan, by rw [hname, hvalue]⟩
            · rw [beq_false_of_ne hother] at hfound
              exact h.generated other found hfound
          · exact ⟨rfl, s.generated, rfl, h⟩

theorem elsewhere_agrees (readsFiles : Bool) {name : Text} {slot : Slot} (hplace : StandsAt values slot name)
    {s t : Substitution} (h : Beside generators values s t) :
    Agrees generators values (elsewhere generators readsFiles name slot s)
      (elsewhere generators readsFiles name slot t) := by
  unfold elsewhere
  split
  · split_ifs
    · exact .inl (file_broken h.late _ _)
    · exact .inr ⟨rfl, h⟩
  · rw [h.late.generates, h.early.generates, if_pos rfl, if_pos rfl]
    obtain ⟨hvalue, made, hstate, hsettled⟩ := generate_settled h.late hplace
    obtain ⟨hvaluet, madet, hstatet, hsettledt⟩ := generate_settled h.early hplace
    refine .inr ⟨hvaluet.trans hvalue.symm, ?_⟩
    rw [hstate, hstatet]
    exact ⟨hsettled, hsettledt, h.sound, h.expansions, h.total⟩

theorem lookup_agrees (hnested : AgreeOn generators values late early) (readsFiles : Bool) {raw : Text}
    {slot : Slot} (hplace : StandsAt values slot (trimSpace raw)) {s t : Substitution}
    (h : Beside generators values s t) :
    Agrees generators values (lookup generators late readsFiles raw slot s)
      (lookup generators early readsFiles raw slot t) := by
  have hresolve := resolve_agrees hnested (trimSpace raw) h
  cases hlate : resolve late (trimSpace raw) s with
  | mk found s' =>
  cases hearly : resolve early (trimSpace raw) t with
  | mk foundt t' =>
      rw [hlate, hearly] at hresolve
      rw [lookup_of_resolve hlate, lookup_of_resolve hearly]
      rcases hresolve with hbroken | ⟨heq, hbeside⟩
      · left
        cases found with
        | some value => exact hbroken
        | none => exact lasting_elsewhere readsFiles _ slot s' hbroken
      · dsimp only at heq
        subst heq
        cases foundt with
        | some value => exact .inr ⟨rfl, hbeside⟩
        | none => exact elsewhere_agrees readsFiles hplace hbeside

theorem noteMissing_settled {s : Substitution} (h : Settled generators values s) (name : Text) :
    Settled generators values (noteMissing s name) := by
  unfold noteMissing
  split
  · exact ⟨h.kept, h.files, h.read, h.generates, h.budget, h.generated⟩
  · exact h

theorem noteMissing_beside {s t : Substitution} (h : Beside generators values s t) (name : Text) :
    Beside generators values (noteMissing s name) (noteMissing t name) := by
  refine ⟨noteMissing_settled h.late name, noteMissing_settled h.early name,
    fun hbroken => h.sound (broken_noteMissing.1 hbroken), ?_, ?_⟩
  · unfold noteMissing
    split <;> split <;> exact h.expansions
  · unfold noteMissing
    split <;> split <;> exact h.total

/-- The loop over the matches of a text, where the early one has more room. -/
theorem fillSpans_agrees (hnested : AgreeOn generators values late early)
    (hlasting : ∀ name value, Lasting (late name value)) (readsFiles : Bool) {limit room : Nat}
    (hroom : limit ≤ room) (owner tail : Text) (spans : List Span) (index : Nat)
    (hplace : owner ≠ [] → ∃ text, values owner = some text ∧ (spansOf text).1.drop index = spans)
    (filled : Text) {s t : Substitution} (h : Beside generators values s t) :
    Agrees generators values
      (fillSpans (lookup generators late readsFiles) limit owner tail index spans filled s)
      (fillSpans (lookup generators early readsFiles) room owner tail index spans filled t) := by
  induction spans generalizing index filled s t with
  | nil =>
      simp only [fillSpans]
      by_cases hsize : size (filled ++ tail) > limit
      · rw [if_pos hsize]
        exact .inl (.inr (.inl rfl))
      · rw [if_neg hsize, if_neg (by omega)]
        exact .inr ⟨rfl, h⟩
  | cons span rest ih =>
      have hslot : StandsAt values ⟨owner, index⟩ (trimSpace span.raw) := by
        intro howner
        obtain ⟨text, htext, hdrop⟩ := hplace howner
        refine ⟨text, span, htext, ?_, rfl⟩
        have hhead := congrArg List.head? hdrop
        rwa [List.head?_drop, List.head?_cons] at hhead
      have hrest : owner ≠ [] → ∃ text, values owner = some text ∧ (spansOf text).1.drop (index + 1) = rest := by
        intro howner
        obtain ⟨text, htext, hdrop⟩ := hplace howner
        refine ⟨text, htext, ?_⟩
        rw [← List.tail_drop, hdrop, List.tail_cons]
      have hlookup := lookup_agrees hnested readsFiles hslot h
      have hstays := fun i filled => lasting_fillSpans
        (fun raw slot => @lasting_lookup generators _ hlasting readsFiles raw slot) limit owner tail i rest filled
      simp only [fillSpans]
      generalize lookup generators late readsFiles span.raw ⟨owner, index⟩ s = result at hlookup ⊢
      generalize lookup generators early readsFiles span.raw ⟨owner, index⟩ t = resultt at hlookup ⊢
      obtain ⟨found, s'⟩ := result
      obtain ⟨foundt, t'⟩ := resultt
      rcases hlookup with hbroken | ⟨heq, hbeside⟩
      · left
        cases found with
        | some value =>
            dsimp only
            split_ifs
            · exact .inr (.inl rfl)
            · exact hstays _ _ s' hbroken
        | none =>
            dsimp only
            split_ifs
            · exact .inr (.inl rfl)
            · exact hstays _ _ _ (broken_noteMissing.2 hbroken)
      · dsimp only at heq
        subst heq
        cases foundt with
        | some value =>
            dsimp only
            by_cases hsize : size (filled ++ span.before ++ value) > limit
            · rw [if_pos hsize]
              exact .inl (.inr (.inl rfl))
            · rw [if_neg hsize, if_neg (by omega)]
              exact ih (index + 1) hrest _ hbeside
        | none =>
            dsimp only
            by_cases hsize : size (filled ++ span.before ++ span.placeholder) > limit
            · rw [if_pos hsize]
              exact .inl (.inr (.inl rfl))
            · rw [if_neg hsize, if_neg (by omega)]
              exact ih (index + 1) hrest _ (noteMissing_beside hbeside _)

theorem fill_agrees (room : Nat) (filling : List Text) (input : Text) (readsFiles : Bool) {limit more : Nat}
    (hmore : limit ≤ more) (owner : Text) (howner : owner ≠ [] → values owner = some input)
    {s t : Substitution} (h : Beside generators values s t) :
    Agrees generators values (fill generators room filling input readsFiles limit owner s)
      (fill generators room filling input readsFiles more owner t) := by
  induction room generalizing filling input readsFiles limit more owner s t with
  | zero =>
      refine fillSpans_agrees (nested_agrees ?_ (fun _ _ _ h => h) filling)
        (fun name value => lasting_nested (fun _ _ _ h => h) filling name value) readsFiles hmore owner _ _ 0
        (fun hne => ⟨input, howner hne, rfl⟩) [] h
      intro name value _ s t hbeside
      exact .inr ⟨rfl, hbeside⟩
  | succ room ih =>
      refine fillSpans_agrees (nested_agrees ?_ (fun name value => lasting_fill _ _ _ _ _ _) filling)
        (fun name value => lasting_nested (fun name value => lasting_fill _ _ _ _ _ _) filling name value)
        readsFiles hmore owner _ _ 0 (fun hne => ⟨input, howner hne, rfl⟩) [] h
      intro name value hvalue s t hbeside
      exact ih _ value false (Nat.le_refl _) name (fun _ => hvalue) hbeside

end Calls

/-! ## Text by text -/

def newExpansion (values : Text → Option Text) : Substitution :=
  { substitutionOf values with files := some fun _ => none }

variable (generators) in
def filledFirst (values : Text → Option Text) (text : Text) : Text :=
  ((newExpansion values).apply generators text).1

theorem settled_newExpansion (values : Text → Option Text) :
    Settled generators values (newExpansion values) :=
  ⟨rfl, rfl, rfl, rfl, Nat.le_refl _, by simp [newExpansion, substitutionOf]⟩

theorem apply_of_not_exceeded {s : Substitution} (h : s.exceeded = false) (text : Text) :
    s.apply generators text =
      ((fill generators maxNesting [] text true s.budget [] { s with expansions := 0 }).1.getD text,
        match fill generators maxNesting [] text true s.budget [] { s with expansions := 0 } with
        | (some filled, s) => { s with budget := s.budget - size filled }
        | (none, s) => s) := by
  unfold Substitution.apply
  rw [if_neg (by rw [h]; exact Bool.false_ne_true)]
  cases fill generators maxNesting [] text true s.budget [] { s with expansions := 0 } with
  | mk found next => cases found <;> rfl

theorem broken_apply {s : Substitution} (h : s.Broken) (text : Text) : (s.apply generators text).2.Broken := by
  unfold Substitution.apply
  split_ifs
  · exact h
  · have hfill := @lasting_fill generators maxNesting [] text true s.budget [] { s with expansions := 0 } h
    split
    · next hresult => rw [hresult] at hfill; exact hfill
    · next hresult => rw [hresult] at hfill; exact hfill

/-- A text is filled as if it were the first, or the substitution is broken. -/
theorem apply_settled {s : Substitution} (h : Settled generators values s) {text : Text}
    (hsound : ¬(s.apply generators text).2.Broken) :
    (s.apply generators text).1 = filledFirst generators values text ∧
      Settled generators values (s.apply generators text).2 := by
  have hbefore : ¬s.Broken := fun hbroken => hsound (broken_apply hbroken text)
  have hbeside : Beside generators values { s with expansions := 0 }
      { newExpansion values with expansions := 0 } :=
    ⟨h.counted 0 s.total, settled_newExpansion values, by simp [Substitution.Broken, newExpansion, substitutionOf],
      rfl, Nat.zero_le _⟩
  have hfill := fill_agrees maxNesting [] text true h.budget [] (fun hne => absurd rfl hne) hbeside
  have hearly := @apply_of_not_exceeded generators (newExpansion values) rfl text
  rw [apply_of_not_exceeded (not_broken_iff.1 hbefore).2.1] at hsound ⊢
  rw [filledFirst, hearly]
  generalize fill generators maxNesting [] text true s.budget [] { s with expansions := 0 } = result
    at hfill hsound ⊢
  obtain ⟨found, s'⟩ := result
  rcases hfill with hbroken | ⟨heq, hnext⟩
  · cases found with
    | some filled => exact absurd hbroken hsound
    | none => exact absurd hbroken hsound
  · refine ⟨congrArg (Option.getD · text) heq.symm, ?_⟩
    have hsettled := hnext.late
    cases found with
    | none => exact hsettled
    | some filled =>
        exact ⟨hsettled.kept, hsettled.files, hsettled.read, hsettled.generates,
          (Nat.sub_le _ _).trans hsettled.budget, hsettled.generated⟩

end Gostman.Placeholders
