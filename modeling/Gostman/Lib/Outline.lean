import Mathlib.Data.List.Basic
import Mathlib.Data.List.Nodup
/-!
# Outlines

A tree whose nodes hold an ordered list of inner nodes, and the preorder walk
that visits every node together with its place: the list it stands in, its
position there, and what the walk carries down from the nodes above it.  A
node whose head is not open hides its inner list from the walk.

`Located` describes the visited places without recursion on the tree, so that
facts about them are proved by induction on how deep they lie.
-/

namespace Gostman.Lib

universe u v w

inductive Outline (α : Type u) where
  | node (head : α) (inner : List (Outline α))

namespace Outline

variable {α : Type u} {π : Type v} {ρ : Type w}

def head : Outline α → α
  | node head _ => head

def inner : Outline α → List (Outline α)
  | node _ inner => inner

def shown (opens : α → Bool) (item : Outline α) : List (Outline α) :=
  if opens item.head then item.inner else []

structure Spot (α : Type u) (π : Type v) where
  item : Outline α
  list : List (Outline α)
  position : Nat
  parent : π

mutual

/-- Visit `rest`, the part of `list` from `position` on. -/
def walkFrom (opens : α → Bool) (next : π → α → π) (list : List (Outline α)) (parent : π) :
    Nat → List (Outline α) → List (Spot α π)
  | _, [] => []
  | position, item :: rest =>
      ⟨item, list, position, parent⟩ ::
        (walkInner opens next parent item ++ walkFrom opens next list parent (position + 1) rest)

def walkInner (opens : α → Bool) (next : π → α → π) (parent : π) :
    Outline α → List (Spot α π)
  | node head inner =>
      if opens head then walkFrom opens next inner (next parent head) 0 inner else []

end

/-- Visit every node of a list of outlines, each before what lies below it. -/
def walk (opens : α → Bool) (next : π → α → π) (list : List (Outline α)) (parent : π) :
    List (Spot α π) :=
  walkFrom opens next list parent 0 list

/-- The places of a walk: a node of the list itself, or a node shown inside a
node that is placed already. -/
inductive Located (opens : α → Bool) (next : π → α → π) (list : List (Outline α)) (parent : π) :
    Spot α π → Prop where
  | root {item : Outline α} {position : Nat} (hitem : list[position]? = some item) :
      Located opens next list parent ⟨item, list, position, parent⟩
  | inner {spot : Spot α π} {item : Outline α} {position : Nat}
      (hspot : Located opens next list parent spot)
      (hitem : (spot.item.shown opens)[position]? = some item) :
      Located opens next list parent
        ⟨item, spot.item.shown opens, position, next spot.parent spot.item.head⟩

@[simp] theorem head_node (head : α) (inner : List (Outline α)) :
    (node head inner).head = head := rfl

@[simp] theorem inner_node (head : α) (inner : List (Outline α)) :
    (node head inner).inner = inner := rfl

variable {opens : α → Bool} {next : π → α → π}

theorem walkInner_eq (parent : π) (item : Outline α) :
    walkInner opens next parent item =
      walk opens next (item.shown opens) (next parent item.head) := by
  obtain ⟨head, inner⟩ := item
  by_cases h : opens head
  · simp [walkInner, walk, shown, h]
  · simp [walkInner, walk, shown, h, walkFrom]

/-! ## The walk visits the located places -/

mutual

private theorem located_of_mem_walkFrom {roots : List (Outline α)} {top : π}
    {list : List (Outline α)} {parent : π} {spot : Spot α π} :
    ∀ (position : Nat) (rest : List (Outline α)),
      (∀ k item, rest[k]? = some item →
        Located opens next roots top ⟨item, list, position + k, parent⟩) →
      spot ∈ walkFrom opens next list parent position rest →
      Located opens next roots top spot
  | _, [], _, hspot => by simp [walkFrom] at hspot
  | position, item :: rest, hlist, hspot => by
      have hitem := hlist 0 item (by simp)
      simp only [walkFrom, List.mem_cons, List.mem_append] at hspot
      rcases hspot with rfl | hinner | hrest
      · simpa using hitem
      · exact located_of_mem_walkInner item (by simpa using hitem) hinner
      · refine located_of_mem_walkFrom (position + 1) rest (fun k other hk => ?_) hrest
        have h := hlist (k + 1) other (by simpa using hk)
        rwa [show position + 1 + k = position + (k + 1) by omega]

private theorem located_of_mem_walkInner {roots : List (Outline α)} {top : π}
    {list : List (Outline α)} {parent : π} {position : Nat} {spot : Spot α π} :
    ∀ (item : Outline α), Located opens next roots top ⟨item, list, position, parent⟩ →
      spot ∈ walkInner opens next parent item → Located opens next roots top spot
  | node head inner, hitem, hspot => by
      by_cases hopen : opens head
      · simp only [walkInner, hopen, if_true] at hspot
        refine located_of_mem_walkFrom 0 inner (fun k child hk => ?_) hspot
        have hchild : ((node head inner).shown opens)[k]? = some child := by
          simpa [shown, hopen] using hk
        simpa [shown, hopen] using Located.inner hitem hchild
      · simp [walkInner, hopen] at hspot

end

mutual

private theorem walkInner_subset_walkFrom {list : List (Outline α)} {parent : π}
    {spot : Spot α π} :
    ∀ (position : Nat) (rest : List (Outline α)),
      spot ∈ walkFrom opens next list parent position rest →
      walkInner opens next spot.parent spot.item ⊆ walkFrom opens next list parent position rest
  | _, [], hspot => by simp [walkFrom] at hspot
  | position, item :: rest, hspot => by
      simp only [walkFrom, List.mem_cons, List.mem_append] at hspot
      intro other hother
      simp only [walkFrom, List.mem_cons, List.mem_append]
      rcases hspot with rfl | hinner | hrest
      · exact .inr (.inl hother)
      · exact .inr (.inl (walkInner_subset_walkInner item hinner hother))
      · exact .inr (.inr (walkInner_subset_walkFrom (position + 1) rest hrest hother))

private theorem walkInner_subset_walkInner {parent : π} {spot : Spot α π} :
    ∀ (item : Outline α), spot ∈ walkInner opens next parent item →
      walkInner opens next spot.parent spot.item ⊆ walkInner opens next parent item
  | node head inner, hspot => by
      by_cases hopen : opens head
      · simp only [walkInner, hopen, if_true] at hspot ⊢
        exact walkInner_subset_walkFrom 0 inner hspot
      · simp [walkInner, hopen] at hspot

end

private theorem mem_walkFrom_of_getElem? (opens : α → Bool) (next : π → α → π)
    (list : List (Outline α)) (parent : π) :
    ∀ (rest : List (Outline α)) (position k : Nat) (item : Outline α), rest[k]? = some item →
      (⟨item, list, position + k, parent⟩ : Spot α π) ∈
        walkFrom opens next list parent position rest
  | [], _, _, _, hk => by simp at hk
  | head :: rest, position, 0, item, hk => by
      obtain rfl : head = item := by simpa using hk
      simp [walkFrom]
  | head :: rest, position, k + 1, item, hk => by
      have h := mem_walkFrom_of_getElem? opens next list parent rest (position + 1) k item
        (by simpa using hk)
      rw [show position + 1 + k = position + (k + 1) by omega] at h
      simp [walkFrom, h]

/-- The walk visits exactly the located places. -/
theorem mem_walk_iff {list : List (Outline α)} {parent : π} {spot : Spot α π} :
    spot ∈ walk opens next list parent ↔ Located opens next list parent spot := by
  constructor
  · refine located_of_mem_walkFrom 0 list (fun k item hk => ?_)
    have hroot : Located opens next list parent ⟨item, list, k, parent⟩ := .root hk
    simpa using hroot
  · intro hspot
    induction hspot with
    | @root item position hitem =>
        have h := mem_walkFrom_of_getElem? opens next list parent list 0 position item hitem
        simpa [walk] using h
    | @inner spot item position _ hitem ih =>
        apply walkInner_subset_walkFrom 0 list ih
        rw [walkInner_eq]
        have h := mem_walkFrom_of_getElem? opens next (spot.item.shown opens)
          (next spot.parent spot.item.head) (spot.item.shown opens) 0 position item hitem
        simpa [walk] using h

/-! ## The visited nodes without their places -/

mutual

def flatten (opens : α → Bool) : List (Outline α) → List (Outline α)
  | [] => []
  | item :: rest => item :: (beneath opens item ++ flatten opens rest)

def beneath (opens : α → Bool) : Outline α → List (Outline α)
  | node head inner => if opens head then flatten opens inner else []

end

theorem flatten_append (first second : List (Outline α)) :
    flatten opens (first ++ second) = flatten opens first ++ flatten opens second := by
  induction first with
  | nil => simp [flatten]
  | cons item rest ih => simp [flatten, ih]

mutual

private theorem walkFrom_map_item (list : List (Outline α)) (parent : π) :
    ∀ (position : Nat) (rest : List (Outline α)),
      (walkFrom opens next list parent position rest).map Spot.item = flatten opens rest
  | _, [] => by simp [walkFrom, flatten]
  | position, item :: rest => by
      simp only [walkFrom, flatten, List.map_cons, List.map_append]
      rw [walkFrom_map_item list parent (position + 1) rest, walkInner_map_item parent item]

private theorem walkInner_map_item (parent : π) :
    ∀ item : Outline α, (walkInner opens next parent item).map Spot.item = beneath opens item
  | node head inner => by
      by_cases hopen : opens head
      · simp only [walkInner, beneath, hopen, if_true]
        exact walkFrom_map_item inner (next parent head) 0 inner
      · simp [walkInner, beneath, hopen]

end

theorem walk_map_item (list : List (Outline α)) (parent : π) :
    (walk opens next list parent).map Spot.item = flatten opens list :=
  walkFrom_map_item list parent 0 list

/-! ## What the walk carries down -/

/-- The same place, seen through another way of naming the nodes above. -/
def Spot.mapParent (f : π → ρ) (spot : Spot α π) : Spot α ρ :=
  ⟨spot.item, spot.list, spot.position, f spot.parent⟩

mutual

private theorem walkFrom_mapParent {next' : ρ → α → ρ} {f : π → ρ}
    (hf : ∀ parent head, f (next parent head) = next' (f parent) head)
    (list : List (Outline α)) (parent : π) :
    ∀ (position : Nat) (rest : List (Outline α)),
      walkFrom opens next' list (f parent) position rest =
        (walkFrom opens next list parent position rest).map (Spot.mapParent f)
  | _, [] => by simp [walkFrom]
  | position, item :: rest => by
      simp only [walkFrom, List.map_cons, List.map_append]
      rw [walkFrom_mapParent hf list parent (position + 1) rest, walkInner_mapParent hf parent item]
      rfl

private theorem walkInner_mapParent {next' : ρ → α → ρ} {f : π → ρ}
    (hf : ∀ parent head, f (next parent head) = next' (f parent) head) (parent : π) :
    ∀ item : Outline α, walkInner opens next' (f parent) item =
      (walkInner opens next parent item).map (Spot.mapParent f)
  | node head inner => by
      by_cases hopen : opens head
      · simp only [walkInner, hopen, if_true]
        rw [← hf, walkFrom_mapParent hf inner (next parent head) 0 inner]
      · simp [walkInner, hopen]

end

/-- Two walks over one list that name the nodes above alike visit the same
places. -/
theorem walk_mapParent {next' : ρ → α → ρ} {f : π → ρ}
    (hf : ∀ parent head, f (next parent head) = next' (f parent) head)
    (list : List (Outline α)) (parent : π) :
    walk opens next' list (f parent) = (walk opens next list parent).map (Spot.mapParent f) :=
  walkFrom_mapParent hf list parent 0 list

/-- The walk that carries down the names of the nodes above, outermost first. -/
def trail (name : α → ρ) (above : List ρ) (head : α) : List ρ :=
  above ++ [name head]

mutual

private theorem trail_length_walkFrom {name : α → ρ} {list : List (Outline α)} {above : List ρ}
    {spot : Spot α (List ρ)} :
    ∀ (position : Nat) (rest : List (Outline α)),
      spot ∈ walkFrom opens (trail name) list above position rest →
      spot.parent.length < above.length + (walkFrom opens (trail name) list above position rest).length
  | _, [], hspot => by simp [walkFrom] at hspot
  | position, item :: rest, hspot => by
      simp only [walkFrom, List.mem_cons, List.mem_append] at hspot
      simp only [walkFrom, List.length_cons, List.length_append]
      rcases hspot with rfl | hinner | hrest
      · simp only
        omega
      · have h := trail_length_walkInner item hinner
        omega
      · have h := trail_length_walkFrom (position + 1) rest hrest
        omega

private theorem trail_length_walkInner {name : α → ρ} {above : List ρ} {spot : Spot α (List ρ)} :
    ∀ item : Outline α, spot ∈ walkInner opens (trail name) above item →
      spot.parent.length < above.length + 1 + (walkInner opens (trail name) above item).length
  | node head inner, hspot => by
      by_cases hopen : opens head
      · simp only [walkInner, hopen, if_true] at hspot ⊢
        have h := trail_length_walkFrom 0 inner hspot
        simpa [trail] using h
      · simp [walkInner, hopen] at hspot

end

/-- A place lies less deep than there are places. -/
theorem trail_length_lt {name : α → ρ} {list : List (Outline α)} {spot : Spot α (List ρ)}
    (hspot : spot ∈ walk opens (trail name) list []) :
    spot.parent.length < (walk opens (trail name) list []).length := by
  simpa [walk] using trail_length_walkFrom 0 list hspot

/-! ## Changing the heads -/

section Heads

variable {β : Type v} {γ : Type w}

mutual

def mapHead (f : α → β) : Outline α → Outline β
  | node head inner => node (f head) (mapHeads f inner)

def mapHeads (f : α → β) : List (Outline α) → List (Outline β)
  | [] => []
  | item :: rest => mapHead f item :: mapHeads f rest

end

mutual

/-- Every head of an outline, shown or not, each before those below it. -/
def heads : Outline α → List α
  | node head inner => head :: allHeads inner

def allHeads : List (Outline α) → List α
  | [] => []
  | item :: rest => heads item ++ allHeads rest

end

mutual

theorem mapHead_eq_iff (f g : α → β) : ∀ item : Outline α,
    mapHead f item = mapHead g item ↔ ∀ head ∈ heads item, f head = g head
  | node head inner => by
      simp only [mapHead, heads, node.injEq, List.mem_cons, forall_eq_or_imp]
      rw [mapHeads_eq_iff f g inner]

/-- Two changes come to the same exactly when they agree on every head. -/
theorem mapHeads_eq_iff (f g : α → β) : ∀ items : List (Outline α),
    mapHeads f items = mapHeads g items ↔ ∀ head ∈ allHeads items, f head = g head
  | [] => by simp [mapHeads, allHeads]
  | item :: rest => by
      simp only [mapHeads, allHeads, List.cons.injEq, List.mem_append]
      rw [mapHead_eq_iff f g item, mapHeads_eq_iff f g rest]
      exact ⟨fun h head hhead => hhead.elim (h.1 head) (h.2 head),
        fun h => ⟨fun head hhead => h head (.inl hhead), fun head hhead => h head (.inr hhead)⟩⟩

end

mutual

theorem heads_mapHead (f : α → β) : ∀ item : Outline α, heads (mapHead f item) = (heads item).map f
  | .node head inner => by rw [mapHead, heads, heads, allHeads_mapHeads f inner, List.map_cons]

theorem allHeads_mapHeads (f : α → β) : ∀ items : List (Outline α),
    allHeads (mapHeads f items) = (allHeads items).map f
  | [] => rfl
  | item :: rest => by
      rw [mapHeads, allHeads, allHeads, heads_mapHead f item, allHeads_mapHeads f rest, List.map_append]

end

theorem allHeads_append (first second : List (Outline α)) :
    allHeads (first ++ second) = allHeads first ++ allHeads second := by
  induction first with
  | nil => rfl
  | cons item rest ih => rw [List.cons_append, allHeads, allHeads, ih, List.append_assoc]

mutual

theorem mapHead_mapHead (f : α → β) (g : β → γ) : ∀ item : Outline α,
    mapHead g (mapHead f item) = mapHead (fun head => g (f head)) item
  | node head inner => by
      simp only [mapHead]
      rw [mapHeads_mapHeads f g inner]

theorem mapHeads_mapHeads (f : α → β) (g : β → γ) : ∀ items : List (Outline α),
    mapHeads g (mapHeads f items) = mapHeads (fun head => g (f head)) items
  | [] => rfl
  | item :: rest => by
      simp only [mapHeads]
      rw [mapHead_mapHead f g item, mapHeads_mapHeads f g rest]

end

end Heads

end Outline

end Gostman.Lib
