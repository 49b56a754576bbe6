import Mathlib.Data.List.Nodup
import Mathlib.Data.Option.Basic
import Mathlib.Logic.Function.Basic
/-!
# Climbing to the top

In a forest each item is below another or at the top.  `Climbs` counts the
items on the way up, and says what becomes of the count when one item is put
below another.
-/

namespace Gostman.Lib

variable {α : Type*} {up : α → Option α}

inductive Climbs (up : α → Option α) : Option α → Nat → Prop
  | top : Climbs up none 0
  | step {a count} : Climbs up (up a) count → Climbs up (some a) (count + 1)

def Below (up : α → Option α) (above : α) : Nat → α → Prop
  | 0, a => a = above
  | levels + 1, a => ∃ next, up a = some next ∧ Below up above levels next

def OnWay (up : α → Option α) (above : α) (start : Option α) : Prop :=
  ∃ levels a, start = some a ∧ Below up above levels a

theorem OnWay.step {above a : α} (h : OnWay up above (up a)) : OnWay up above (some a) := by
  obtain ⟨levels, next, hnext, hbelow⟩ := h
  exact ⟨levels + 1, a, rfl, next, hnext, hbelow⟩

theorem Climbs.unique {start : Option α} {first second : Nat} (h : Climbs up start first)
    (h' : Climbs up start second) : first = second := by
  induction h generalizing second with
  | top => cases h'; rfl
  | step _ ih =>
    cases h' with
    | step hrest => rw [ih hrest]

/-- Something below another has a longer way up. -/
theorem Below.lt_count {above a : α} {levels count : Nat} (h : Below up above levels a)
    (hclimbs : Climbs up (some a) count) : levels < count := by
  induction levels generalizing a count with
  | zero =>
    cases hclimbs
    omega
  | succ levels ih =>
    obtain ⟨next, hnext, hbelow⟩ := h
    cases hclimbs with
    | step hrest =>
      rw [hnext] at hrest
      have hlt := ih hbelow hrest
      omega

theorem Below.last {above a : α} {levels : Nat} (h : Below up above (levels + 1) a) :
    ∃ child, up child = some above ∧ Below up child levels a := by
  induction levels generalizing a with
  | zero =>
    obtain ⟨next, hnext, rfl⟩ := h
    exact ⟨a, hnext, rfl⟩
  | succ levels ih =>
    obtain ⟨next, hnext, hbelow⟩ := h
    obtain ⟨child, hchild, hrest⟩ := ih hbelow
    exact ⟨child, hchild, next, hnext, hrest⟩

/-- If some of the items are on the way up, one is the last of them. -/
theorem Climbs.exists_last {start : Option α} {count : Nat} (h : Climbs up start count) {P : α → Prop}
    (hsome : ∃ a, P a ∧ OnWay up a start) : ∃ a, P a ∧ OnWay up a start ∧ ∀ b, P b → ¬ OnWay up b (up a) := by
  induction h with
  | top =>
    obtain ⟨_, -, _, _, hstart, -⟩ := hsome
    cases hstart
  | @step a count _ ih =>
    by_cases hmore : ∃ b, P b ∧ OnWay up b (up a)
    · obtain ⟨last, hlast, hway, hnone⟩ := ih hmore
      exact ⟨last, hlast, hway.step, hnone⟩
    · obtain ⟨b, hb, levels, next, hnext, hbelow⟩ := hsome
      obtain rfl := Option.some.inj hnext
      cases levels with
      | zero =>
        obtain rfl : a = b := hbelow
        exact ⟨a, hb, ⟨0, a, rfl, rfl⟩, fun other hother hway => hmore ⟨other, hother, hway⟩⟩
      | succ levels =>
        obtain ⟨next, hnext, hrest⟩ := hbelow
        exact absurd ⟨b, hb, levels, next, hnext, hrest⟩ hmore

section Reparented

variable [DecidableEq α] {moved : α} {place : Option α}

/-- A way up that does not pass the moved item stays as it is. -/
theorem Climbs.update_of_not {start : Option α} {count : Nat} (h : Climbs up start count)
    (hnot : ¬ OnWay up moved start) : Climbs (Function.update up moved place) start count := by
  induction h with
  | top => exact .top
  | @step a count _ ih =>
    have hne : a ≠ moved := by
      rintro rfl
      exact hnot ⟨0, a, rfl, rfl⟩
    refine .step ?_
    rw [Function.update_of_ne hne]
    exact ih fun hway => hnot hway.step

/-- Each way up after the move: as long as before, or through the moved item. -/
theorem Climbs.update {start : Option α} {count placeCount : Nat} (h : Climbs up start count)
    (hplace : Climbs up place placeCount) (hnot : ¬ OnWay up moved place) :
    Climbs (Function.update up moved place) start count ∨
      ∃ levels a, start = some a ∧ Below up moved levels a ∧
        Climbs (Function.update up moved place) start (levels + 1 + placeCount) := by
  induction h with
  | top => exact .inl .top
  | @step a count _ ih =>
    by_cases hmoved : a = moved
    · subst hmoved
      refine .inr ⟨0, a, rfl, rfl, ?_⟩
      rw [Nat.add_comm]
      refine .step ?_
      rw [Function.update_self]
      exact hplace.update_of_not hnot
    · rcases ih with hsame | ⟨levels, next, hnext, hbelow, hclimbs⟩
      · refine .inl (.step ?_)
        rwa [Function.update_of_ne hmoved]
      · refine .inr ⟨levels + 1, a, rfl, ⟨next, hnext, hbelow⟩, ?_⟩
        have hcount : levels + 1 + 1 + placeCount = levels + 1 + placeCount + 1 := by omega
        rw [hcount]
        refine .step ?_
        rwa [Function.update_of_ne hmoved]

end Reparented

end Gostman.Lib

/-!
# Walking down a forest

Rows stand in containers, and some of them open a container of their own.  A walk
from the root lists the rows of a container, each followed by what it opens.  Where
every container is at most so far from the root, the walk ends, and it lists each row
once that can be reached through open containers.
-/

namespace Gostman.Lib

variable {α β : Type*}

/-- A row, and what is below it if it opens a container. -/
def walkRow (opens : β → Option α) (below : α → Option (List β)) (row : β) : Option (List β) :=
  match opens row with
  | none => some [row]
  | some a => (below a).map (row :: ·)

/-- The rows of a container, and what the rows open.  The walk goes down no more
levels than the fuel. -/
def walkDown (rowsIn : Option α → List β) (opens : β → Option α) : Nat → Option α → Option (List β)
  | 0, _ => none
  | levels + 1, container =>
      ((rowsIn container).mapM (walkRow opens fun a => walkDown rowsIn opens levels (some a))).map List.flatten

theorem exists_mapM {γ : Type*} {f : β → Option γ} {P : β → γ → Prop} {items : List β}
    (h : ∀ item ∈ items, ∃ part, f item = some part ∧ P item part) :
    ∃ parts, items.mapM f = some parts ∧ List.Forall₂ P items parts := by
  induction items with
  | nil => exact ⟨[], rfl, .nil⟩
  | cons item items ih =>
    obtain ⟨⟨part, hpart, hitem⟩, hothers⟩ := List.forall_mem_cons.1 h
    obtain ⟨parts, hparts, hall⟩ := ih hothers
    refine ⟨part :: parts, ?_, .cons hitem hall⟩
    rw [List.mapM_cons, hpart, hparts]
    rfl

theorem exists_of_mem_left {γ : Type*} {P : β → γ → Prop} {items : List β} {parts : List γ} (h : List.Forall₂ P items parts)
    {item : β} (hmem : item ∈ items) : ∃ part ∈ parts, P item part := by
  induction h with
  | nil => cases hmem
  | cons hitem _ ih =>
    obtain rfl | hmem := List.mem_cons.1 hmem
    · exact ⟨_, List.mem_cons_self, hitem⟩
    · obtain ⟨part, hpart, hitem⟩ := ih hmem
      exact ⟨part, List.mem_cons_of_mem _ hpart, hitem⟩

theorem exists_of_mem_right {γ : Type*} {P : β → γ → Prop} {items : List β} {parts : List γ} (h : List.Forall₂ P items parts)
    {part : γ} (hmem : part ∈ parts) : ∃ item ∈ items, P item part :=
  exists_of_mem_left h.flip hmem

/-- Lists for distinct items that share nothing are distinct together. -/
theorem nodup_flatten_of_forall₂ {P : β → List β → Prop} {items : List β} {parts : List (List β)}
    (h : List.Forall₂ P items parts) (hitems : items.Nodup) (hnodup : ∀ item ∈ items, ∀ part, P item part → part.Nodup)
    (hapart : ∀ first ∈ items, ∀ second ∈ items, first ≠ second → ∀ part other, P first part → P second other →
      ∀ b ∈ part, b ∉ other) : parts.flatten.Nodup := by
  induction h with
  | nil => exact List.nodup_nil
  | @cons item part items parts hitem hothers ih =>
    obtain ⟨hfresh, hitems⟩ := List.nodup_cons.1 hitems
    rw [List.flatten_cons]
    apply List.Nodup.append (hnodup item List.mem_cons_self part hitem)
    · apply ih hitems
      · exact fun other hmem => hnodup other (List.mem_cons_of_mem _ hmem)
      · exact fun first hfirst second hsecond =>
          hapart first (List.mem_cons_of_mem _ hfirst) second (List.mem_cons_of_mem _ hsecond)
    · intro b hb hflat
      obtain ⟨other, hother, hmem⟩ := List.mem_flatten.1 hflat
      obtain ⟨second, hsecond, hother⟩ := exists_of_mem_right hothers hother
      exact hapart item List.mem_cons_self _ (List.mem_cons_of_mem _ hsecond)
        (fun heq => hfresh (heq ▸ hsecond)) part _ hitem hother b hb hmem

/-- Rows in the containers that hold them.  The row that opens a container stands in
the one above it. -/
structure Forest (α β : Type*) where
  all : β → Prop
  hold : β → Option α
  opens : β → Option α
  up : α → Option α
  opened : ∀ {row a}, all row → opens row = some a → hold row = up a
  single : ∀ {row other a}, all row → all other → opens row = some a → opens other = some a → row = other

namespace Forest

variable (f : Forest α β)

def IsOpen (a : α) : Prop := ∃ row, f.all row ∧ f.opens row = some a

/-- The way up from here through open containers comes to the container. -/
inductive Reaches (container : Option α) : Option α → Prop
  | here : Reaches container container
  | step {a} : f.IsOpen a → Reaches container (f.up a) → Reaches container (some a)

variable {f}

theorem Reaches.last {container start : Option α} (h : f.Reaches container start) :
    start = container ∨ ∃ a, f.IsOpen a ∧ f.up a = container ∧ f.Reaches (some a) start := by
  induction h with
  | here => exact .inl rfl
  | @step b hopen _ ih =>
    right
    obtain heq | ⟨a, ha, hup, hway⟩ := ih
    · exact ⟨b, hopen, heq, .here⟩
    · exact ⟨a, ha, hup, .step hopen hway⟩

theorem Reaches.trans_up {a : α} {start : Option α} (h : f.Reaches (some a) start) (ha : f.IsOpen a) :
    f.Reaches (f.up a) start := by
  induction h with
  | here => exact .step ha .here
  | step hopen _ ih => exact .step hopen ih

/-- From the root everything is reached that is in open containers all the way up. -/
theorem reaches_root_iff {start : Option α} {count : Nat} (h : Climbs f.up start count) :
    f.Reaches none start ↔ ∀ a, OnWay f.up a start → f.IsOpen a := by
  induction h with
  | top =>
    constructor
    · rintro - a ⟨levels, b, hb, -⟩
      cases hb
    · exact fun _ => .here
  | @step a count _ ih =>
    constructor
    · rintro h b ⟨levels, start, hstart, hbelow⟩
      cases hstart
      cases h with
      | step hopen hway =>
        cases levels with
        | zero =>
          obtain rfl : a = b := hbelow
          exact hopen
        | succ levels =>
          obtain ⟨next, hnext, hrest⟩ := hbelow
          exact ih.1 hway b ⟨levels, next, hnext, hrest⟩
    · intro h
      exact .step (h a ⟨0, a, rfl, rfl⟩) (ih.2 fun b hb => h b hb.step)

/-- What is reached is not farther from the root. -/
theorem Reaches.le {container start : Option α} (h : f.Reaches container start) {count more : Nat}
    (hcount : Climbs f.up container count) (hmore : Climbs f.up start more) : count ≤ more := by
  induction h generalizing more with
  | here => exact Nat.le_of_eq (hcount.unique hmore)
  | step _ _ ih =>
    cases hmore with
    | step hrest => exact Nat.le_succ_of_le (ih hrest)

/-- At each distance from the root the way up passes one container. -/
theorem Reaches.unique {first second start : Option α} (h : f.Reaches first start) (h' : f.Reaches second start)
    {count more : Nat} (hfirst : Climbs f.up first count) (hsecond : Climbs f.up second count)
    (hstart : Climbs f.up start more) : first = second := by
  induction h generalizing more with
  | here =>
    cases h' with
    | here => rfl
    | step hopen hway =>
      cases hstart with
      | step hrest =>
        have hle := hway.le hsecond hrest
        have heq := hfirst.unique (.step hrest)
        omega
  | step hopen hway ih =>
    cases h' with
    | here =>
      cases hstart with
      | step hrest =>
        have hle := hway.le hfirst hrest
        have heq := hsecond.unique (.step hrest)
        omega
    | step hopen' hway' =>
      cases hstart with
      | step hrest => exact ih hway' hrest

/-- Where the containers have a way up, so has what reaches one. -/
theorem exists_climbs {height : Nat} (hheight : ∀ a, f.IsOpen a → ∃ count ≤ height, Climbs f.up (some a) count)
    {container start : Option α} {count : Nat} (hcontainer : Climbs f.up container count)
    (h : f.Reaches container start) : ∃ more, count ≤ more ∧ Climbs f.up start more := by
  cases h with
  | here => exact ⟨count, Nat.le_refl _, hcontainer⟩
  | step hopen hway =>
    obtain ⟨more, -, hstart⟩ := hheight _ hopen
    exact ⟨more, (Reaches.step hopen hway).le hcontainer hstart, hstart⟩

variable {rowsIn : Option α → List β}

/-- The walk ends, and it lists what can be reached. -/
theorem walkDown_spec (hrows : ∀ container, (rowsIn container).Nodup)
    (hmem : ∀ container, (∀ a, container = some a → f.IsOpen a) →
      ∀ row, row ∈ rowsIn container ↔ f.all row ∧ f.hold row = container) {height : Nat}
    (hheight : ∀ a, f.IsOpen a → ∃ count ≤ height, Climbs f.up (some a) count) {levels count : Nat}
    {container : Option α} (hopen : ∀ a, container = some a → f.IsOpen a) (hclimbs : Climbs f.up container count)
    (hcount : count ≤ height) (hlevels : height < levels + count) :
    ∃ rows, walkDown rowsIn f.opens levels container = some rows ∧ rows.Nodup ∧
      ∀ row, row ∈ rows ↔ f.all row ∧ f.Reaches container (f.hold row) := by
  induction levels generalizing container count with
  | zero => omega
  | succ levels ih =>
    have hmem := hmem container hopen
    have hparts : ∀ row ∈ rowsIn container, ∃ part,
        walkRow f.opens (fun a => walkDown rowsIn f.opens levels (some a)) row = some part ∧ part.Nodup ∧
        ∀ other, other ∈ part ↔ other = row ∨
          ∃ a, f.opens row = some a ∧ f.all other ∧ f.Reaches (some a) (f.hold other) := by
      intro row hrow
      obtain ⟨hall, hhold⟩ := (hmem row).1 hrow
      cases hopens : f.opens row with
      | none =>
        have hpart : walkRow f.opens (fun a => walkDown rowsIn f.opens levels (some a)) row = some [row] := by
          rw [walkRow, hopens]
        refine ⟨[row], hpart, List.nodup_singleton row, fun other => ?_⟩
        simp
      | some a =>
        have hup : f.up a = container := (f.opened hall hopens).symm.trans hhold
        have hbelow : Climbs f.up (some a) (count + 1) := .step (hup.symm ▸ hclimbs)
        obtain ⟨most, hmost, hfar⟩ := hheight a ⟨row, hall, hopens⟩
        have hcountMost := hbelow.unique hfar
        have hself : ∀ b, some a = some b → f.IsOpen b := by
          rintro b ⟨⟩
          exact ⟨row, hall, hopens⟩
        obtain ⟨rows, hwalk, hnodup, hrows'⟩ := ih hself hbelow (by omega) (by omega)
        have hpart : walkRow f.opens (fun a => walkDown rowsIn f.opens levels (some a)) row = some (row :: rows) := by
          rw [walkRow, hopens]
          simp only
          rw [hwalk]
          rfl
        refine ⟨row :: rows, hpart, List.nodup_cons.2 ⟨?_, hnodup⟩, fun other => ?_⟩
        · -- A row is not in what it opens.
          intro hself
          obtain ⟨-, hway⟩ := (hrows' row).1 hself
          have hle := hway.le hbelow (hhold.symm ▸ hclimbs)
          omega
        · rw [List.mem_cons, hrows']
          simp
    obtain ⟨parts, hwalk, hall⟩ := exists_mapM hparts
    refine ⟨parts.flatten, by rw [walkDown, hwalk]; rfl, ?_, fun other => ?_⟩
    · apply nodup_flatten_of_forall₂ hall (hrows container) (fun _ _ _ hpart => hpart.1)
      rintro first hfirst second hsecond hne part more ⟨-, hpart⟩ ⟨-, hmore⟩ b hb hb'
      obtain ⟨hallFirst, hholdFirst⟩ := (hmem first).1 hfirst
      obtain ⟨hallSecond, hholdSecond⟩ := (hmem second).1 hsecond
      have hfar {row a} (hrow : f.all row) (hhold : f.hold row = container) (hopens : f.opens row = some a) :
          Climbs f.up (some a) (count + 1) := by
        rw [f.opened hrow hopens] at hhold
        exact .step (hhold.symm ▸ hclimbs)
      have hnot {row a} (hrow : f.all row) (hhold : f.hold row = container) (hopens : f.opens row = some a) {other : β}
          (hother : f.hold other = container) : ¬ f.Reaches (some a) (f.hold other) := by
        intro hway
        have hle := hway.le (hfar hrow hhold hopens) (hother.symm ▸ hclimbs)
        omega
      obtain rfl | ⟨a, hopens, -, hway⟩ := (hpart b).1 hb
      · obtain rfl | ⟨a', hopens', -, hway'⟩ := (hmore b).1 hb'
        · exact hne rfl
        · exact hnot hallSecond hholdSecond hopens' hholdFirst hway'
      · obtain rfl | ⟨a', hopens', -, hway'⟩ := (hmore b).1 hb'
        · exact hnot hallFirst hholdFirst hopens hholdSecond hway
        · obtain ⟨most, -, hstart⟩ := exists_climbs hheight (hfar hallFirst hholdFirst hopens) hway
          have hsame := hway.unique hway' (hfar hallFirst hholdFirst hopens) (hfar hallSecond hholdSecond hopens') hstart
          cases hsame
          exact hne (f.single hallFirst hallSecond hopens hopens')
    · rw [List.mem_flatten]
      constructor
      · rintro ⟨part, hpart, hother⟩
        obtain ⟨row, hrow, -, hspec⟩ := exists_of_mem_right hall hpart
        obtain ⟨hrow, hhold⟩ := (hmem row).1 hrow
        obtain rfl | ⟨a, hopens, hother, hway⟩ := (hspec other).1 hother
        · refine ⟨hrow, ?_⟩
          rw [hhold]
          exact .here
        · refine ⟨hother, ?_⟩
          have hup := hway.trans_up ⟨_, hrow, hopens⟩
          rwa [← f.opened hrow hopens, hhold] at hup
      · rintro ⟨hother, hway⟩
        have hpart {row : β} (hrow : row ∈ rowsIn container)
            (h : other = row ∨ ∃ a, f.opens row = some a ∧ f.all other ∧ f.Reaches (some a) (f.hold other)) :
            ∃ part ∈ parts, other ∈ part := by
          obtain ⟨part, hpart, -, hspec⟩ := exists_of_mem_left hall hrow
          exact ⟨part, hpart, (hspec other).2 h⟩
        obtain heq | ⟨a, ⟨row, hrow, hopens⟩, hup, hbelow⟩ := hway.last
        · exact hpart ((hmem other).2 ⟨hother, heq⟩) (.inl rfl)
        · exact hpart ((hmem row).2 ⟨hrow, (f.opened hrow hopens).trans hup⟩) (.inr ⟨a, hopens, hother, hbelow⟩)

end Forest

end Gostman.Lib
