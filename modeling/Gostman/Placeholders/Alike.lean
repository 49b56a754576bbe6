import Gostman.Placeholders.Fill
/-!
# The engine and the window fill alike

The engine's state is followed through its run: as long as no text outgrows
its limit, the expansions counted are the work spent by the window, and each
match is filled by the same text.
-/

namespace Gostman.Placeholders

open Gostman.Lib

/-- What a placeholder may be for the comparison: its name is padded by spaces
only and is neither a prompt nor a built-in value nor a file reference. -/
structure Ordinary (raw : Text) : Prop where
  padded : PaddedBySpaces raw
  noPrompt : (trimSpace raw).head? ≠ some '?'
  noDollar : (trimSpace raw).head? ≠ some '$'
  noFile : parseFileReference (trimSpace raw) = none

def Plain (text : Text) : Prop :=
  ∀ span ∈ (spansOf text).1, Ordinary span.raw

/-- The engine in the middle of a run, with as many expansions as the window
has spent. -/
structure Level (valueOf : Text → Option Text) (s : Substitution) (spent : Nat) : Prop where
  values : s.values = valueOf
  exceeded : s.exceeded = false
  overworked : s.overworked = false
  expansions : s.expansions = spent
  total : s.total = spent
  bounded : spent ≤ maxExpansions
  generated : s.generated = []

/-- A call of the engine comes out as the window's, or outgrows a limit. -/
def Outcome (valueOf : Text → Option Text) (fallback : Option Text)
    (result : Option Text × Substitution) (filled : Text × Nat) : Prop :=
  result.2.exceeded = true ∨
    (result.1 <|> fallback) = some filled.1 ∧ Level valueOf result.2 filled.2

section Calls

variable {generators : Generators} {valueOf : Text → Option Text}

theorem promptName_ordinary {raw : Text} (h : Ordinary raw) : promptName (trimSpace raw) = none := by
  have hhead := h.noPrompt
  unfold promptName
  split
  · next hname => exact absurd (by rw [hname, List.head?_cons]) hhead
  · rfl

theorem variableOf_ordinary {s : Substitution} {raw : Text} (h : Ordinary raw) :
    s.variableOf (trimSpace raw) =
      (s.values (trimSpace raw)).map fun value => (trimSpace raw, value) := by
  unfold Substitution.variableOf
  cases hvalue : s.values (trimSpace raw) with
  | some value => rfl
  | none => rw [promptName_ordinary h]; rfl

theorem generate_ordinary {s : Substitution} {raw : Text} (h : Ordinary raw) (slot : Slot)
    (hgenerated : s.generated = []) : generate generators (trimSpace raw) slot s = (none, s) := by
  unfold generate
  rw [hgenerated]
  cases hvalue : generators.dynamicValue (trimSpace raw) with
  | some value => exact absurd (generators.dollar hvalue) h.noDollar
  | none => rfl

/-- Where the name is not resolved, nothing else fills an ordinary placeholder. -/
theorem lookup_ordinary {nested : Text → Text → Substitution → Option Text × Substitution}
    {readsFiles : Bool} {raw : Text} {slot : Slot} {s : Substitution} (h : Ordinary raw)
    (hgenerated : (resolve nested (trimSpace raw) s).2.generated = []) :
    lookup generators nested readsFiles raw slot s = resolve nested (trimSpace raw) s := by
  simp only [lookup]
  generalize resolve nested (trimSpace raw) s = result at hgenerated ⊢
  obtain ⟨found, next⟩ := result
  cases found with
  | some value => rfl
  | none =>
    have hnone := @generate_ordinary generators next raw h slot hgenerated
    simp only [h.noFile, hnone, ite_self]

theorem spend_level {s : Substitution} {spent : Nat} (h : Level valueOf s spent) :
    spend s =
      if spent ≥ maxExpansions then (false, s)
      else (true, { s with expansions := spent + 1, total := spent + 1 }) := by
  have hroom : ¬ s.total ≥ maxRequestExpansions := by
    have hle := h.bounded
    rw [h.total]
    unfold maxExpansions maxRequestExpansions at *
    omega
  have hworked : (s.overworked || decide (s.total ≥ maxRequestExpansions)) = s.overworked := by
    rw [decide_eq_false hroom, Bool.or_false]
  have hguard : (s.exceeded || s.overworked || decide (s.expansions ≥ maxExpansions)) =
      decide (spent ≥ maxExpansions) := by
    rw [h.exceeded, h.overworked, h.expansions, Bool.false_or, Bool.false_or]
  unfold spend
  rw [hworked]
  change (if (s.exceeded || s.overworked || decide (s.expansions ≥ maxExpansions)) = true then
    (false, s) else (true, { s with expansions := s.expansions + 1, total := s.total + 1 })) = _
  rw [hguard, h.expansions, h.total]
  simp only [decide_eq_true_eq]

theorem level_missing {s : Substitution} {spent : Nat} (h : Level valueOf s spent) (name : Text) :
    Level valueOf (noteMissing s name) spent := by
  unfold noteMissing
  split
  · exact ⟨h.values, h.exceeded, h.overworked, h.expansions, h.total, h.bounded, h.generated⟩
  · exact h

/-! ## A limit that is passed stays passed -/

theorem spend_exceeded {s : Substitution} (h : s.exceeded = true) :
    (spend s).1 = false ∧ (spend s).2.exceeded = true := by
  unfold spend
  simp [h]

theorem nested_exceeded {fill : Text → Text → Substitution → Option Text × Substitution}
    {filling : List Text} {name value : Text} {s : Substitution} (h : s.exceeded = true) :
    (nested fill filling name value s).2.exceeded = true := by
  obtain ⟨hspend, hkept⟩ := spend_exceeded h
  unfold nested
  split
  · exact h
  split
  · exact h
  · generalize spend s = result at hspend hkept ⊢
    obtain ⟨spent, next⟩ := result
    obtain rfl : spent = false := hspend
    exact hkept

theorem file_exceeded {name : Text} {reference : FileReference} {s : Substitution}
    (h : s.exceeded = true) : (file name reference s).2.exceeded = true := by
  unfold file
  split
  · exact h
  split
  · exact h
  · rw [h]
    exact h

theorem generate_exceeded {name : Text} {slot : Slot} {s : Substitution} (h : s.exceeded = true) :
    (generate generators name slot s).2.exceeded = true := by
  unfold generate
  split
  · exact h
  split
  · split <;> exact h
  · exact h

/-- What comes after `resolve` does not undo it either. -/
theorem lookup_of_resolve_exceeded
    {nested : Text → Text → Substitution → Option Text × Substitution} {readsFiles : Bool}
    {raw : Text} {slot : Slot} {s : Substitution}
    (h : (resolve nested (trimSpace raw) s).2.exceeded = true) :
    (lookup generators nested readsFiles raw slot s).2.exceeded = true := by
  simp only [lookup]
  generalize resolve nested (trimSpace raw) s = result at h ⊢
  obtain ⟨found, next⟩ := result
  cases found with
  | some value => exact h
  | none =>
    simp only
    split
    · split
      · exact file_exceeded h
      · exact h
    · split
      · exact generate_exceeded h
      · exact h

theorem lookup_exceeded {fill : Text → Text → Substitution → Option Text × Substitution}
    {filling : List Text} {readsFiles : Bool} {raw : Text} {slot : Slot} {s : Substitution}
    (h : s.exceeded = true) :
    (lookup generators (nested fill filling) readsFiles raw slot s).2.exceeded = true := by
  apply lookup_of_resolve_exceeded
  unfold resolve
  split
  · exact nested_exceeded h
  · exact h

theorem noteMissing_exceeded (s : Substitution) (name : Text) :
    (noteMissing s name).exceeded = s.exceeded := by
  unfold noteMissing
  split <;> rfl

theorem fillSpans_exceeded
    {lookup : Text → Slot → Substitution → Option Text × Substitution}
    (hlookup : ∀ raw slot s, s.exceeded = true → (lookup raw slot s).2.exceeded = true)
    {limit : Nat} {owner tail : Text} (spans : List Span) (index : Nat) (filled : Text)
    {s : Substitution} (h : s.exceeded = true) :
    (fillSpans lookup limit owner tail index spans filled s).2.exceeded = true := by
  induction spans generalizing index filled s with
  | nil =>
    unfold fillSpans
    simp only
    split
    · rfl
    · exact h
  | cons span rest ih =>
    have hnext := hlookup span.raw ⟨owner, index⟩ s h
    unfold fillSpans
    generalize lookup span.raw ⟨owner, index⟩ s = result at hnext ⊢
    obtain ⟨found, next⟩ := result
    cases found with
    | some value =>
      simp only
      split
      · rfl
      · exact ih _ _ hnext
    | none =>
      simp only
      split
      · rfl
      · exact ih _ _ ((noteMissing_exceeded next _).trans hnext)

/-! ## Call by call -/

/-- The fillings of a variable's value on the two sides. -/
def Alike (valueOf : Text → Option Text)
    (fill : Text → Text → Substitution → Option Text × Substitution)
    (fillText : Text → Text → Nat → Text × Nat) : Prop :=
  ∀ {name value s spent}, valueOf name = some value → Level valueOf s spent →
    Outcome valueOf none (fill name value s) (fillText name value spent)

theorem found_of_found {found fallback : Option Text} {text : Text}
    (h : (found <|> none) = some text) : (found <|> fallback) = some text := by
  cases found with
  | none => exact absurd h (by simp)
  | some value => exact h

theorem nested_outcome {fill : Text → Text → Substitution → Option Text × Substitution}
    {fillText : Text → Text → Nat → Text × Nat} {filling : List Text} {name value found' : Text}
    {s : Substitution} {spent : Nat}
    (hroom : filling.length < maxNesting → Alike valueOf fill fillText)
    (hvalue : valueOf name = some value) (h : Level valueOf s spent) :
    Outcome valueOf (some found') (nested fill filling name value s)
      (if !hasPlaceholder value then (value, spent)
        else if name ∈ filling ∨ filling.length ≥ maxNesting ∨ spent ≥ maxExpansions then
          (found', spent)
        else fillText name value (spent + 1)) := by
  unfold nested
  split
  · exact .inr ⟨rfl, h⟩
  split
  case isTrue hstop =>
    rw [if_pos (or_assoc.1 (.inl hstop))]
    exact .inr ⟨rfl, h⟩
  case isFalse hfree =>
    rw [spend_level h]
    by_cases hspent : spent ≥ maxExpansions
    · rw [if_pos hspent, if_pos (.inr (.inr hspent))]
      exact .inr ⟨rfl, h⟩
    · rw [if_neg hspent, if_neg fun hor => (or_assoc.2 hor).elim hfree hspent]
      have hnext : Level valueOf { s with expansions := spent + 1, total := spent + 1 }
          (spent + 1) :=
        ⟨h.values, h.exceeded, h.overworked, rfl, rfl, Nat.lt_of_not_le hspent, h.generated⟩
      have hdeeper : filling.length < maxNesting :=
        Nat.lt_of_not_le fun hle => hfree (.inr hle)
      rcases hroom hdeeper hvalue hnext with hover | ⟨hfilled, hlevel⟩
      · exact .inl hover
      · refine .inr ⟨?_, hlevel⟩
        exact found_of_found hfilled

/-- One match: the engine resolves it to the window's replacement, or leaves
the match where the window does. -/
theorem lookup_outcome {fill : Text → Text → Substitution → Option Text × Substitution}
    {fillText : Text → Text → Nat → Text × Nat} {filling : List Text} {readsFiles : Bool}
    {span : Span} {slot : Slot} {s : Substitution} {spent : Nat}
    (hroom : filling.length < maxNesting → Alike valueOf fill fillText)
    (hspan : Ordinary span.raw) (h : Level valueOf s spent) :
    Outcome valueOf (some span.placeholder)
      (lookup generators (nested fill filling) readsFiles span.raw slot s)
      (replacement valueOf fillText filling span spent) := by
  have hresolve : Outcome valueOf (some span.placeholder)
      (resolve (nested fill filling) (trimSpace span.raw) s)
      (replacement valueOf fillText filling span spent) := by
    simp only [resolve, replacement, variableOf_ordinary hspan, h.values,
      ← trimSpace_eq_trim hspan.padded]
    cases hvalue : valueOf (trimSpace span.raw) with
    | none => exact .inr ⟨rfl, h⟩
    | some value => exact nested_outcome hroom hvalue h
  rcases hresolve with hover | ⟨hfilled, hlevel⟩
  · exact .inl (lookup_of_resolve_exceeded hover)
  · rw [lookup_ordinary hspan hlevel.generated]
    exact .inr ⟨hfilled, hlevel⟩

theorem fillSpans_outcome {fill : Text → Text → Substitution → Option Text × Substitution}
    {fillText : Text → Text → Nat → Text × Nat} {filling : List Text} {readsFiles : Bool}
    {limit : Nat} {owner tail : Text}
    (hroom : filling.length < maxNesting → Alike valueOf fill fillText)
    (spans : List Span) (hspans : ∀ span ∈ spans, Ordinary span.raw) (index : Nat) (filled : Text)
    {s : Substitution} {spent : Nat} (h : Level valueOf s spent) :
    Outcome valueOf none
      (fillSpans (lookup generators (nested fill filling) readsFiles) limit owner tail index spans
        filled s)
      (replaced (replacement valueOf fillText filling) tail spans filled spent) := by
  induction spans generalizing index filled s spent with
  | nil =>
    simp only [fillSpans, replaced]
    split
    · exact .inl rfl
    · exact .inr ⟨rfl, h⟩
  | cons span rest ih =>
    have hmatch := @lookup_outcome generators valueOf fill fillText filling readsFiles span
      ⟨owner, index⟩ s spent hroom (hspans span List.mem_cons_self) h
    simp only [fillSpans, replaced]
    generalize lookup generators (nested fill filling) readsFiles span.raw ⟨owner, index⟩ s = result
      at hmatch ⊢
    generalize replacement valueOf fillText filling span spent = shown at hmatch ⊢
    obtain ⟨found, next⟩ := result
    obtain ⟨value, spent'⟩ := shown
    rcases hmatch with hover | ⟨hfound, hlevel⟩
    · -- A text that outgrew its limit: nothing after it matters.
      left
      have hstays := fun i filled s =>
        @fillSpans_exceeded (lookup generators (nested fill filling) readsFiles)
          (fun _ _ _ hs => lookup_exceeded hs) limit owner tail rest i filled s
      cases found with
      | some text =>
        simp only
        split
        · rfl
        · exact hstays _ _ _ hover
      | none =>
        simp only
        split
        · rfl
        · exact hstays _ _ _ ((noteMissing_exceeded next _).trans hover)
    · have htail := fun i filled => @ih (fun span hspan => hspans span (List.mem_cons_of_mem _ hspan))
        i filled
      cases found with
      | some text =>
        obtain rfl : text = value := Option.some.inj hfound
        simp only
        split
        · exact .inl rfl
        · exact htail _ _ hlevel
      | none =>
        obtain rfl : span.placeholder = value := Option.some.inj hfound
        simp only
        split
        · exact .inl rfl
        · exact htail _ _ (level_missing hlevel _)

/-- A text filled with some room for the nesting left, by induction on the
room. -/
theorem fill_outcome (hvalues : ∀ name value, valueOf name = some value → Plain value)
    (room : Nat) {filling : List Text} (hroom : maxNesting ≤ filling.length + room) {input : Text}
    (hinput : Plain input) (readsFiles : Bool) (limit : Nat) (owner : Text) {s : Substitution}
    {spent : Nat} (h : Level valueOf s spent) :
    Outcome valueOf none (fill generators room filling input readsFiles limit owner s)
      (fillText valueOf room input filling spent) := by
  induction room generalizing filling input readsFiles limit owner s spent with
  | zero =>
    have hfull : filling.length < maxNesting → Alike valueOf (fun _ _ s => (none, s))
        (fun _ value spent => (value, spent)) := fun hlt => absurd hroom (Nat.not_le_of_lt hlt)
    exact fillSpans_outcome hfull _ hinput 0 [] h
  | succ room ih =>
    refine fillSpans_outcome (fun _ => ?_) _ hinput 0 [] h
    intro name value s spent hvalue hlevel
    refine ih ?_ (hvalues name value hvalue) false maxEncodedBody name hlevel
    rw [List.length_append, List.length_singleton]
    omega

end Calls

/-- On a fresh substitution, where no filled text outgrows its limit, the
engine fills a text as the window does. -/
theorem apply_eq_fillPlaceholders (generators : Generators) (valueOf : Text → Option Text)
    (text : Text) (htext : Plain text)
    (hvalues : ∀ name value, valueOf name = some value → Plain value)
    (hsize : ((substitutionOf valueOf).apply generators text).2.exceeded = false) :
    ((substitutionOf valueOf).apply generators text).1 = fillPlaceholders valueOf text := by
  have hstart : Level valueOf (substitutionOf valueOf) 0 :=
    ⟨rfl, rfl, rfl, rfl, rfl, Nat.zero_le _, rfl⟩
  have hfill := @fill_outcome generators valueOf hvalues maxNesting [] (Nat.le_add_left _ _) text
    htext true maxEncodedBody [] (substitutionOf valueOf) 0 hstart
  unfold fillPlaceholders
  simp only [Substitution.apply] at hsize ⊢
  change Outcome valueOf none (fill generators maxNesting [] text true
    (substitutionOf valueOf).budget [] { substitutionOf valueOf with expansions := 0 }) _ at hfill
  generalize fill generators maxNesting [] text true (substitutionOf valueOf).budget []
    { substitutionOf valueOf with expansions := 0 } = result at hfill hsize ⊢
  obtain ⟨filled, last⟩ := result
  cases filled with
  | some filled =>
    rcases hfill with hover | ⟨hfilled, -⟩
    · exact absurd hover (by rw [Bool.not_eq_true]; exact hsize)
    · exact Option.some.inj hfilled
  | none =>
    rcases hfill with hover | ⟨hfilled, -⟩
    · exact absurd hover (by rw [Bool.not_eq_true]; exact hsize)
    · exact absurd hfilled (by simp)

def ring : Text → Option Text := fun name =>
  if name = ['a'] then some (braced ['b'] ++ ['!'])
  else if name = ['b'] then some (['<'] ++ braced [' ', 'a', ' '] ++ ['>'])
  else none

def timestamp : Generators where
  dynamicValue name := if name = "$timestamp".toList then some "1700000000".toList else none
  dollar := by
    intro name value h
    split at h
    · next hname => rw [hname]; rfl
    · exact absurd h (by simp)

theorem ordinary_padded (left right : Nat) {c : Char}
    (hspace : Go.isSpace c = false ∧ Js.isSpace c = false)
    (hname : trimSpace (List.replicate left ' ' ++ [c] ++ List.replicate right ' ') = [c])
    (hprompt : c ≠ '?') (hdollar : c ≠ '$') (hfile : parseFileReference [c] = none) :
    Ordinary (List.replicate left ' ' ++ [c] ++ List.replicate right ' ') := by
  refine ⟨⟨left, right, [c], rfl, ?_⟩, ?_, ?_, ?_⟩
  · intro d hd
    obtain rfl : c = d := by simpa using hd
    exact hspace
  · rw [hname]
    simpa using hprompt
  · rw [hname]
    simpa using hdollar
  · rw [hname]
    exact hfile

theorem plain_of_raws {text : Text} {raws : List Text}
    (h : (spansOf text).1.map Span.raw = raws) (hall : ∀ raw ∈ raws, Ordinary raw) :
    Plain text := by
  intro span hspan
  refine hall span.raw ?_
  rw [← h]
  exact List.mem_map_of_mem hspan

/-- A name that is being filled is left where it stands, on both sides. -/
theorem apply_eq_fillPlaceholders_ring :
    ((substitutionOf ring).apply timestamp (braced ['a'] ++ braced ['c'])).1 =
        fillPlaceholders ring (braced ['a'] ++ braced ['c']) ∧
      fillPlaceholders ring (braced ['a'] ++ braced ['c']) =
        ['<'] ++ braced [' ', 'a', ' '] ++ ['>', '!'] ++ braced ['c'] := by
  have hletter : ∀ c, c = 'a' ∨ c = 'b' ∨ c = 'c' → Ordinary [c] := by
    rintro c (rfl | rfl | rfl) <;>
      exact ordinary_padded 0 0 (by decide) (by decide) (by decide) (by decide) (by decide)
  have hspaced : Ordinary [' ', 'a', ' '] :=
    ordinary_padded 1 1 (by decide) (by decide) (by decide) (by decide) (by decide)
  have htext : Plain (braced ['a'] ++ braced ['c']) :=
    @plain_of_raws _ [['a'], ['c']] (by decide) (by simp [hletter])
  have hvalues : ∀ name value, ring name = some value → Plain value := by
    intro name value hvalue
    unfold ring at hvalue
    split at hvalue
    · obtain rfl := Option.some.inj hvalue
      exact @plain_of_raws _ [['b']] (by decide) (by simp [hletter])
    split at hvalue
    · obtain rfl := Option.some.inj hvalue
      exact @plain_of_raws _ [[' ', 'a', ' ']] (by decide) (by simp [hspaced])
    · exact absurd hvalue (by simp)
  exact ⟨apply_eq_fillPlaceholders timestamp ring _ htext hvalues (by decide), by decide⟩

end Gostman.Placeholders
