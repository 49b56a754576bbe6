import Mathlib.Order.Basic
/-!
# Computations that end

A recursion that may not end is a family of computations, one for each depth to
which it may go, that give nothing where the depth is not enough.  More depth
does not change what was computed, be it a value or an error.  A family that
computes something from every state ends, and what is put together from such
families ends too.
-/

namespace Gostman.Lib

/-- A computation with a state that may end with an error or not at all. -/
abbrev Deep (σ ε α : Type) := StateT σ (ExceptT ε Option) α

variable {σ ε α β : Type}

/-- From the state, the computation ends with the value and the state. -/
def Gives (c : Deep σ ε α) (state : σ) (found : α × σ) : Prop :=
  (c state).run = some (.ok found)

/-- The computation ends with the value from some state. -/
def Returns (c : Deep σ ε α) (value : α) : Prop :=
  ∃ start state, Gives c start (value, state)

/-- The computation ends with some value from some state. -/
def Succeeds (c : Deep σ ε α) : Prop :=
  ∃ value, Returns c value

theorem run_bind (c : Deep σ ε α) (d : α → Deep σ ε β) (state : σ) :
    ((c >>= d) state).run = (c state).run.bind fun result =>
      match result with
      | .ok found => (d found.1 found.2).run
      | .error error => some (.error error) := by
  apply congrArg (Option.bind (c state).run)
  funext result
  cases result <;> rfl

theorem gives_bind {c : Deep σ ε α} {d : α → Deep σ ε β} {state : σ} {found : β × σ} :
    Gives (c >>= d) state found ↔ ∃ first, Gives c state first ∧ Gives (d first.1) first.2 found := by
  unfold Gives
  rw [run_bind]
  constructor
  · intro h
    obtain ⟨result, hresult, hfound⟩ := Option.bind_eq_some_iff.1 h
    cases result with
    | error error => cases hfound
    | ok first => exact ⟨first, hresult, hfound⟩
  · rintro ⟨first, hfirst, hfound⟩
    rw [hfirst]
    exact hfound

theorem Succeeds.of_bind {c : Deep σ ε α} {d : α → Deep σ ε β} (h : Succeeds (c >>= d)) :
    ∃ value, Returns c value ∧ Succeeds (d value) := by
  obtain ⟨value, start, state, h⟩ := h
  obtain ⟨first, hfirst, hfound⟩ := gives_bind.1 h
  exact ⟨first.1, ⟨start, first.2, hfirst⟩, value, first.2, state, hfound⟩

theorem Succeeds.left {c : Deep σ ε α} {d : α → Deep σ ε β} (h : Succeeds (c >>= d)) : Succeeds c := by
  obtain ⟨value, hvalue, -⟩ := h.of_bind
  exact ⟨value, hvalue⟩

theorem Succeeds.of_mapM {c : α → Deep σ ε β} {items : List α} (h : Succeeds (items.mapM c)) {item : α}
    (hitem : item ∈ items) : Succeeds (c item) := by
  induction items with
  | nil => cases hitem
  | cons first rest ih =>
      rw [List.mapM_cons] at h
      rcases List.mem_cons.1 hitem with rfl | hitem
      · exact h.left
      · obtain ⟨value, -, hrest⟩ := h.of_bind
        exact ih hrest.left hitem

theorem Succeeds.of_foldlM {c : β → α → Deep σ ε β} {items : List α} {start : β} (h : Succeeds (items.foldlM c start))
    {item : α} (hitem : item ∈ items) : ∃ value, Succeeds (c value item) := by
  induction items generalizing start with
  | nil => cases hitem
  | cons first rest ih =>
      rw [List.foldlM_cons] at h
      rcases List.mem_cons.1 hitem with rfl | hitem
      · exact ⟨start, h.left⟩
      · obtain ⟨value, -, hrest⟩ := h.of_bind
        exact ih hrest hitem

/-- More depth gives the same, and from every state some depth is enough: for a value
or, where it may fail, for an error. -/
structure Ends (failing : Prop) (c : Nat → Deep σ ε α) : Prop where
  mono : ∀ fuel state result, (c fuel state).run = some result → (c (fuel + 1) state).run = some result
  total : ∀ state, ∃ fuel result, (c fuel state).run = some result ∧ (failing ∨ ∃ found, result = .ok found)

namespace Ends

variable {failing : Prop}

theorem mono_le {c : Nat → Deep σ ε α} (h : Ends failing c) {fuel more : Nat} (hle : fuel ≤ more) {state : σ}
    {result : Except ε (α × σ)} (hc : (c fuel state).run = some result) : (c more state).run = some result := by
  induction hle with
  | refl => exact hc
  | step _ ih => exact h.mono _ _ _ ih

theorem pure (value : α) : Ends failing fun _ : Nat => (Pure.pure value : Deep σ ε α) where
  mono _ _ _ h := h
  total state := ⟨0, .ok (value, state), rfl, .inr ⟨_, rfl⟩⟩

theorem constant {c : Deep σ ε α} (h : ∀ state, ∃ found, Gives c state found) : Ends failing fun _ : Nat => c where
  mono _ _ _ h := h
  total := by
    intro state
    obtain ⟨found, hfound⟩ := h state
    exact ⟨0, .ok found, hfound, .inr ⟨found, rfl⟩⟩

theorem bind {c : Nat → Deep σ ε α} {d : Nat → α → Deep σ ε β} (hc : Ends failing c)
    (hd : ∀ fuel value, Returns (c fuel) value → Ends failing fun fuel => d fuel value) :
    Ends failing fun fuel => c fuel >>= d fuel where
  mono := by
    intro fuel state result h
    rw [run_bind] at h ⊢
    obtain ⟨first, hfirst, hresult⟩ := Option.bind_eq_some_iff.1 h
    rw [hc.mono _ _ _ hfirst, Option.bind_some]
    cases first with
    | error error => exact hresult
    | ok found => exact (hd fuel found.1 ⟨state, found.2, hfirst⟩).mono _ _ _ hresult
  total := by
    intro state
    obtain ⟨first, result, hfirst, hgood⟩ := hc.total state
    cases result with
    | error error =>
        refine ⟨first, .error error, ?_, ?_⟩
        · rw [run_bind, hfirst]
          rfl
        · obtain hfailing | ⟨found, hfound⟩ := hgood
          · exact .inl hfailing
          · cases hfound
    | ok found =>
        have hd := hd first found.1 ⟨state, found.2, hfirst⟩
        obtain ⟨second, result, hsecond, hgood⟩ := hd.total found.2
        refine ⟨max first second, result, ?_, hgood⟩
        rw [run_bind, hc.mono_le (Nat.le_max_left _ _) hfirst, Option.bind_some]
        exact hd.mono_le (Nat.le_max_right _ _) hsecond

theorem andThen {c : Nat → Deep σ ε α} {d : Nat → α → Deep σ ε β} (hc : Ends failing c)
    (hd : ∀ value, Ends failing fun fuel => d fuel value) : Ends failing fun fuel => c fuel >>= d fuel :=
  Ends.bind hc fun _ value _ => hd value

theorem mapM {c : Nat → α → Deep σ ε β} {items : List α} (h : ∀ item ∈ items, Ends failing fun fuel => c fuel item) :
    Ends failing fun fuel => items.mapM (c fuel) := by
  induction items with
  | nil => exact Ends.pure []
  | cons item rest ih =>
      simp only [List.mapM_cons]
      apply Ends.andThen (h item List.mem_cons_self)
      intro value
      apply Ends.andThen (ih fun other hother => h other (List.mem_cons_of_mem _ hother))
      exact fun values => Ends.pure _

theorem foldlM {c : Nat → β → α → Deep σ ε β} {items : List α}
    (h : ∀ value, ∀ item ∈ items, Ends failing fun fuel => c fuel value item) (start : β) :
    Ends failing fun fuel => items.foldlM (c fuel) start := by
  induction items generalizing start with
  | nil => exact Ends.pure start
  | cons item rest ih =>
      simp only [List.foldlM_cons]
      apply Ends.andThen (h start item List.mem_cons_self)
      exact ih fun value other hother => h value other (List.mem_cons_of_mem _ hother)

/-- From every state a family that may not fail ends with a value. -/
theorem gives {c : Nat → Deep σ ε α} (h : Ends False c) (state : σ) : ∃ fuel found, Gives (c fuel) state found := by
  obtain ⟨fuel, result, hresult, hgood⟩ := h.total state
  obtain ⟨found, rfl⟩ := hgood.resolve_left id
  exact ⟨fuel, found, hresult⟩

end Ends

end Gostman.Lib
