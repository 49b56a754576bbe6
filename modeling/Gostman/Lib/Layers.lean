import Mathlib.Data.List.Basic
/-!
# Named rows in layers

Layers of rows, outermost first, over a last source of rows.  A naming gives a
row its name, or none.  A row of a layer is kept when it has a name that no
row further in has.
-/

namespace Gostman.Lib

variable {ρ ν α : Type*} [DecidableEq ν]

def kept (name : ρ → Option ν) (row : ρ) (later : List ρ) : Bool :=
  (name row).isSome && later.all fun other => name other ≠ name row

/-- The live rows of the layers that are kept, in order. -/
def survivors (name : ρ → Option ν) (live : ρ → Bool) : List (List ρ) → List ρ → List ρ
  | [], _ => []
  | layer :: rest, last =>
      (layer.filter fun row => live row && kept name row (rest.flatten ++ last)) ++
        survivors name live rest last

theorem kept_iff (name : ρ → Option ν) (row : ρ) (later : List ρ) :
    kept name row later = true ↔
      (name row).isSome = true ∧ ∀ other ∈ later, name other ≠ name row := by
  simp [kept]

theorem kept_congr {name : ρ → Option ν} {row other : ρ} (h : name row = name other)
    (later : List ρ) : kept name row later = kept name other later := by
  unfold kept
  rw [h]

/-- A row survives exactly where it is live and kept in its layer. -/
theorem mem_survivors (name : ρ → Option ν) (live : ρ → Bool) (layers : List (List ρ))
    (last : List ρ) (row : ρ) :
    row ∈ survivors name live layers last ↔
      ∃ before layer after, layers = before ++ layer :: after ∧ row ∈ layer ∧
        live row = true ∧ kept name row (after.flatten ++ last) = true := by
  induction layers with
  | nil => simp [survivors]
  | cons layer rest ih =>
    rw [survivors, List.mem_append, ih, List.mem_filter]
    constructor
    · rintro (⟨hmem, hlive⟩ | ⟨before, inner, after, rfl, hrest⟩)
      · rw [Bool.and_eq_true] at hlive
        exact ⟨[], layer, rest, rfl, hmem, hlive⟩
      · exact ⟨layer :: before, inner, after, rfl, hrest⟩
    · rintro ⟨before, inner, after, hsplit, hmem, hlive, hkept⟩
      cases before with
      | nil =>
        obtain ⟨rfl, rfl⟩ := List.cons.inj hsplit
        exact .inl ⟨hmem, by rw [hlive, hkept, Bool.and_self]⟩
      | cons first before =>
        obtain ⟨rfl, rfl⟩ := List.cons.inj hsplit
        exact .inr ⟨before, inner, after, rfl, hmem, hlive, hkept⟩

/-- Two namings that keep the same live rows have the same survivors. -/
theorem survivors_congr {p q : ρ → Option ν} {live : ρ → Bool} {layers : List (List ρ)}
    {last : List ρ}
    (h : ∀ before layer after, layers = before ++ layer :: after → ∀ row ∈ layer,
      live row = true → kept p row (after.flatten ++ last) = kept q row (after.flatten ++ last)) :
    survivors p live layers last = survivors q live layers last := by
  induction layers with
  | nil => rfl
  | cons layer rest ih =>
    have hhead : ∀ row ∈ layer,
        (live row && kept p row (rest.flatten ++ last)) =
          (live row && kept q row (rest.flatten ++ last)) := by
      intro row hrow
      cases hlive : live row with
      | false => rfl
      | true => rw [h [] layer rest rfl row hrow hlive]
    have htail := ih fun before inner after hsplit =>
      h (layer :: before) inner after (by rw [hsplit, List.cons_append])
    rw [survivors, survivors, htail, List.filter_congr hhead]

section Views

variable {p q : ρ → Option ν} {live : ρ → Bool} {layers : List (List ρ)} {last : List ρ}
  {view : ρ → α}

/-- A row kept under one naming is kept under the other when what is seen of it
is seen among the other's survivors: a row seen alike in a layer further in
would hide it from the one naming, and a row seen alike in a layer further out
would be hidden by it from the other. -/
theorem kept_of_seen (hp : ∀ row other, view row = view other → p row = p other)
    (hq : ∀ row other, view row = view other → q row = q other)
    {before after : List (List ρ)} {layer : List ρ} (hsplit : layers = before ++ layer :: after)
    {row : ρ} (hrow : row ∈ layer) (hkept : kept p row (after.flatten ++ last) = true)
    (hseen : view row ∈ (survivors q live layers last).map view) :
    kept q row (after.flatten ++ last) = true := by
  obtain ⟨other, hother, hview⟩ := List.mem_map.1 hseen
  obtain ⟨before', layer', after', hsplit', hmem, -, hkept'⟩ :=
    (mem_survivors q live layers last other).1 hother
  rw [hsplit] at hsplit'
  obtain ⟨hnamed, hlater⟩ := (kept_iff p row _).1 hkept
  obtain ⟨-, hlater'⟩ := (kept_iff q other _).1 hkept'
  rcases List.append_eq_append_iff.1 hsplit' with ⟨mid, hbefore, hrest⟩ | ⟨mid, hbefore, hrest⟩
  · cases mid with
    | nil =>
      obtain ⟨rfl, rfl⟩ := List.cons.inj hrest
      rw [kept_congr (hq row other hview.symm)]
      exact hkept'
    | cons head mid =>
      obtain ⟨rfl, rfl⟩ := List.cons.inj hrest
      refine absurd (hp other row hview) (hlater other ?_)
      simp [hmem]
  · cases mid with
    | nil =>
      obtain ⟨rfl, rfl⟩ := List.cons.inj hrest
      rw [kept_congr (hq row other hview.symm)]
      exact hkept'
    | cons head mid =>
      obtain ⟨rfl, rfl⟩ := List.cons.inj hrest
      refine absurd (hq row other hview.symm) (hlater' row ?_)
      simp [hrow]

/-- The survivors under two namings are seen alike exactly when the namings
keep the same live rows. -/
theorem map_survivors_eq_iff (hp : ∀ row other, view row = view other → p row = p other)
    (hq : ∀ row other, view row = view other → q row = q other) :
    (survivors p live layers last).map view = (survivors q live layers last).map view ↔
      ∀ before layer after, layers = before ++ layer :: after → ∀ row ∈ layer,
        live row = true →
          (kept p row (after.flatten ++ last) = true ↔ kept q row (after.flatten ++ last) = true) := by
  constructor
  · intro heq before layer after hsplit row hrow hlive
    have hsurvive : ∀ {name : ρ → Option ν}, kept name row (after.flatten ++ last) = true →
        view row ∈ (survivors name live layers last).map view := by
      intro name hkept
      exact List.mem_map_of_mem ((mem_survivors name live layers last row).2
        ⟨before, layer, after, hsplit, hrow, hlive, hkept⟩)
    constructor
    · intro hkept
      exact kept_of_seen hp hq hsplit hrow hkept (heq ▸ hsurvive hkept)
    · intro hkept
      exact kept_of_seen hq hp hsplit hrow hkept (heq ▸ hsurvive hkept)
  · intro h
    congr 1
    apply survivors_congr
    intro before layer after hsplit row hrow hlive
    exact Bool.eq_iff_iff.2 (h before layer after hsplit row hrow hlive)

end Views

end Gostman.Lib
