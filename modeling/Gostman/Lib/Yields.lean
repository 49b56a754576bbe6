import Mathlib.Data.List.Basic
/-!
# Computations that succeed

`Yields x Q` says that a computation that may fail does not, and that its
result satisfies `Q`: total correctness for `Except`.  `Ensures x Q` says the same
of its result if it has one: partial correctness.  The rules below follow the
shape of a program, so that a proof about it never unfolds the monad.
-/

namespace Gostman.Lib

universe u v w

variable {ε : Type u} {α : Type v} {β : Type v}

/-- The computation succeeds with a result of which `Q` holds. -/
def Yields (x : Except ε α) (Q : α → Prop) : Prop := ∃ result, x = .ok result ∧ Q result

theorem ok_bind {β : Type v} (value : α) (next : α → Except ε β) : (.ok value >>= next) = next value := rfl

namespace Yields

theorem ok {Q : α → Prop} {result : α} (h : Q result) :
    Yields (.ok result : Except ε α) Q :=
  ⟨result, rfl, h⟩

theorem mono {x : Except ε α} {P Q : α → Prop} (hx : Yields x P) (h : ∀ a, P a → Q a) :
    Yields x Q := by
  obtain ⟨result, hresult, hP⟩ := hx
  exact ⟨result, hresult, h result hP⟩

theorem mono_eq {x : Except ε α} {P Q : α → Prop} (hx : Yields x P)
    (h : ∀ a, x = .ok a → P a → Q a) : Yields x Q := by
  obtain ⟨result, hresult, hP⟩ := hx
  exact ⟨result, hresult, h result hresult hP⟩

theorem bind {x : Except ε α} {f : α → Except ε β} {P : α → Prop} {Q : β → Prop}
    (hx : Yields x P) (hf : ∀ a, P a → Yields (f a) Q) : Yields (x >>= f) Q := by
  obtain ⟨a, rfl, ha⟩ := hx
  exact hf a ha

/-- An invariant of every round holds at the end of a fold. -/
theorem foldlM {γ : Type w} {f : α → γ → Except ε α} {Inv : List γ → α → Prop} {items : List γ}
    {start : α} (hstart : Inv items start)
    (hround : ∀ item rest a, Inv (item :: rest) a → Yields (f a item) (Inv rest)) :
    Yields (items.foldlM f start) (Inv []) := by
  induction items generalizing start with
  | nil => exact ok hstart
  | cons item rest ih =>
      rw [List.foldlM_cons]
      exact (hround item rest start hstart).bind fun a ha => ih ha

/-- A property of every result holds of all of them. -/
theorem mapM {γ : Type v} {f : γ → Except ε α} {P : γ → α → Prop} {items : List γ}
    (h : ∀ item ∈ items, Yields (f item) (P item)) :
    Yields (items.mapM f) fun results => List.Forall₂ P items results := by
  induction items with
  | nil => exact ok .nil
  | cons item rest ih =>
      rw [List.mapM_cons]
      refine (h item (by simp)).bind fun a ha => ?_
      refine (ih fun other hother => h other (by simp [hother])).bind fun others hothers => ?_
      exact ok (.cons ha hothers)

theorem result {x : Except ε α} {Q : α → Prop} (hx : Yields x Q) {a : α} (ha : x = .ok a) : Q a := by
  obtain ⟨result, hresult, hQ⟩ := hx
  rw [hresult, Except.ok.injEq] at ha
  exact ha ▸ hQ

end Yields

/-- If the computation succeeds, `Q` holds of its result. -/
def Ensures (x : Except ε α) (Q : α → Prop) : Prop := ∀ result, x = .ok result → Q result

namespace Ensures

theorem ok {Q : α → Prop} {result : α} (h : Q result) :
    Ensures (.ok result : Except ε α) Q := by
  rintro other heq
  obtain rfl := Except.ok.inj heq
  exact h

theorem error {Q : α → Prop} {failure : ε} : Ensures (.error failure : Except ε α) Q := by
  rintro other heq
  cases heq

theorem trivial (x : Except ε α) : Ensures x fun _ => True := fun _ _ => True.intro

theorem mono {x : Except ε α} {P Q : α → Prop} (hx : Ensures x P) (h : ∀ a, P a → Q a) :
    Ensures x Q := fun a ha => h a (hx a ha)

theorem bind {x : Except ε α} {f : α → Except ε β} {P : α → Prop} {Q : β → Prop}
    (hx : Ensures x P) (hf : ∀ a, P a → Ensures (f a) Q) : Ensures (x >>= f) Q := by
  cases x with
  | error failure => exact error
  | ok a => exact hf a (hx a rfl)

/-- An invariant of every round holds at the end of a fold. -/
theorem foldlM {γ : Type w} {f : α → γ → Except ε α} {Inv : List γ → α → Prop} {items : List γ}
    {start : α} (hstart : Inv items start)
    (hround : ∀ item rest a, Inv (item :: rest) a → Ensures (f a item) (Inv rest)) :
    Ensures (items.foldlM f start) (Inv []) := by
  induction items generalizing start with
  | nil => exact ok hstart
  | cons item rest ih =>
      rw [List.foldlM_cons]
      exact (hround item rest start hstart).bind fun a ha => ih ha

end Ensures

end Gostman.Lib
