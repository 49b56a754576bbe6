import Mathlib.Data.List.Basic
import Mathlib.Tactic.Basic
/-!
# The matches of a pattern, from the left

A text falls into the matches of a pattern, each the leftmost behind the one
before, and the single items outside of them.
-/

namespace Gostman.Lib

/-- What a text begins with, if it begins with a match. -/
structure Pattern (α : Type) where
  find : List α → Option (List α)
  find_ne_nil : ∀ {text found}, find text = some found → found ≠ []
  find_prefix : ∀ {text found}, find text = some found → found <+: text
  find_append : ∀ {text found}, find text = some found → ∀ more, find (text ++ more) = some found
  find_self : ∀ {text found}, find text = some found → find found = some found

inductive Token (α : Type)
  | unit (a : α)
  | found (match' : List α)
deriving DecidableEq, Repr

namespace Token

variable {α : Type}

def text : Token α → List α
  | unit a => [a]
  | found items => items

def masked (blank : α) : Token α → List α
  | unit a => [a]
  | found items => List.replicate items.length blank

def texts (tokens : List (Token α)) : List α :=
  tokens.flatMap text

def masks (blank : α) (tokens : List (Token α)) : List α :=
  tokens.flatMap (masked blank)

@[simp] theorem texts_nil : texts ([] : List (Token α)) = [] := rfl

@[simp] theorem texts_unit (a : α) (rest : List (Token α)) : texts (unit a :: rest) = a :: texts rest := rfl

@[simp] theorem texts_found (items : List α) (rest : List (Token α)) : texts (found items :: rest) = items ++ texts rest := rfl

@[simp] theorem texts_append (first rest : List (Token α)) : texts (first ++ rest) = texts first ++ texts rest :=
  List.flatMap_append

@[simp] theorem texts_map_unit (items : List α) : texts (items.map unit) = items := by
  induction items with
  | nil => rfl
  | cons a rest ih => rw [List.map_cons, texts_unit, ih]

@[simp] theorem masks_nil (blank : α) : masks blank ([] : List (Token α)) = [] := rfl

@[simp] theorem masks_unit (blank a : α) (rest : List (Token α)) : masks blank (unit a :: rest) = a :: masks blank rest := rfl

@[simp] theorem masks_found (blank : α) (items : List α) (rest : List (Token α)) :
    masks blank (found items :: rest) = List.replicate items.length blank ++ masks blank rest := rfl

@[simp] theorem masks_append (blank : α) (first rest : List (Token α)) :
    masks blank (first ++ rest) = masks blank first ++ masks blank rest :=
  List.flatMap_append

theorem length_masks (blank : α) (tokens : List (Token α)) : (masks blank tokens).length = (texts tokens).length := by
  induction tokens with
  | nil => rfl
  | cons token rest ih =>
    cases token with
    | unit a => rw [masks_unit, texts_unit, List.length_cons, List.length_cons, ih]
    | found items =>
      rw [masks_found, texts_found, List.length_append, List.length_append, List.length_replicate, ih]

/-- An item that is not covered is a token of its own. -/
theorem unit_mem_of_mem_masks {blank a : α} (hblank : a ≠ blank) {tokens : List (Token α)} (h : a ∈ masks blank tokens) :
    unit a ∈ tokens := by
  induction tokens with
  | nil => cases h
  | cons token rest ih =>
    cases token with
    | unit b =>
      rcases List.mem_cons.1 h with heq | hmem
      · rw [heq]
        exact List.mem_cons_self
      · exact List.mem_cons_of_mem _ (ih hmem)
    | found items =>
      rcases List.mem_append.1 h with hmem | hmem
      · exact absurd (List.eq_of_mem_replicate hmem) hblank
      · exact List.mem_cons_of_mem _ (ih hmem)

theorem mem_masks_of_unit_mem (blank : α) {a : α} {tokens : List (Token α)} (h : unit a ∈ tokens) : a ∈ masks blank tokens :=
  List.mem_flatMap.2 ⟨_, h, List.mem_singleton_self a⟩

end Token

namespace Pattern

open Token

variable {α : Type} (pattern : Pattern α)

/-- The tokens of a text behind so many items of a match. -/
def tokensFrom : Nat → List α → List (Token α)
  | _, [] => []
  | skip + 1, _ :: rest => tokensFrom skip rest
  | 0, a :: rest =>
      match pattern.find (a :: rest) with
      | some items => found items :: tokensFrom (items.length - 1) rest
      | none => unit a :: tokensFrom 0 rest

def tokens (text : List α) : List (Token α) :=
  pattern.tokensFrom 0 text

theorem tokensFrom_eq (skip : Nat) (text : List α) : pattern.tokensFrom skip text = pattern.tokens (text.drop skip) := by
  induction text generalizing skip with
  | nil => rw [List.drop_nil]; cases skip <;> rfl
  | cons a rest ih =>
    cases skip with
    | zero => rfl
    | succ skip => rw [tokensFrom, ih, List.drop_succ_cons]

@[simp] theorem tokens_nil : pattern.tokens [] = [] := rfl

theorem tokens_unit {a : α} {rest : List α} (h : pattern.find (a :: rest) = none) :
    pattern.tokens (a :: rest) = unit a :: pattern.tokens rest := by
  rw [tokens, tokensFrom, h]
  rfl

theorem tokens_found {items rest : List α} (h : pattern.find (items ++ rest) = some items) :
    pattern.tokens (items ++ rest) = found items :: pattern.tokens rest := by
  cases items with
  | nil => exact absurd rfl (pattern.find_ne_nil h)
  | cons a items =>
    rw [List.cons_append] at h ⊢
    rw [tokens, tokensFrom, h]
    dsimp only
    rw [tokensFrom_eq, List.length_cons, Nat.add_sub_cancel, List.drop_left]

theorem tokens_induction {motive : List α → Prop} (nil : motive [])
    (unit : ∀ a rest, pattern.find (a :: rest) = none → motive rest → motive (a :: rest))
    (found : ∀ items rest, pattern.find (items ++ rest) = some items → motive rest → motive (items ++ rest))
    (text : List α) : motive text := by
  induction hn : text.length using Nat.strongRecOn generalizing text with
  | _ n ih =>
    cases text with
    | nil => exact nil
    | cons a rest =>
      cases hfind : pattern.find (a :: rest) with
      | none =>
        apply unit a rest hfind
        apply ih rest.length ?_ rest rfl
        rw [← hn, List.length_cons]
        omega
      | some items =>
        obtain ⟨more, hmore⟩ := pattern.find_prefix hfind
        rw [← hmore] at hfind hn ⊢
        apply found items more hfind
        apply ih more.length ?_ more rfl
        have hpos := List.length_pos_of_ne_nil (pattern.find_ne_nil hfind)
        rw [← hn, List.length_append]
        omega

@[simp] theorem texts_tokens (text : List α) : texts (pattern.tokens text) = text := by
  induction text using pattern.tokens_induction with
  | nil => rfl
  | unit a rest h ih => rw [pattern.tokens_unit h, texts_unit, ih]
  | found items rest h ih => rw [pattern.tokens_found h, texts_found, ih]

def Leads (rest : List α) : Token α → Prop
  | unit a => pattern.find (a :: rest) = none
  | found items => pattern.find (items ++ rest) = some items

/-- No match begins at an item outside, and each match is one. -/
theorem tokens_leftmost (text : List α) {first rest : List (Token α)} {token : Token α}
    (h : pattern.tokens text = first ++ token :: rest) : pattern.Leads (texts rest) token := by
  induction text using pattern.tokens_induction generalizing first with
  | nil => exact absurd h.symm (List.append_ne_nil_of_right_ne_nil _ (List.cons_ne_nil _ _))
  | unit a more hfind ih =>
    rw [pattern.tokens_unit hfind] at h
    cases first with
    | nil =>
      cases h
      rw [texts_tokens]
      exact hfind
    | cons other first =>
      rw [List.cons_append, List.cons.injEq] at h
      exact ih h.2
  | found items more hfind ih =>
    rw [pattern.tokens_found hfind] at h
    cases first with
    | nil =>
      cases h
      rw [texts_tokens]
      exact hfind
    | cons other first =>
      rw [List.cons_append, List.cons.injEq] at h
      exact ih h.2

theorem find_of_found_mem {text items : List α} (h : found items ∈ pattern.tokens text) :
    pattern.find items = some items := by
  obtain ⟨first, rest, heq⟩ := List.append_of_mem h
  exact pattern.find_self (pattern.tokens_leftmost text heq)

/-- Texts side by side have the tokens of both, if no match begins in the first
and ends in the other. -/
theorem tokens_append {text : List α} (more : List α)
    (h : ∀ first a rest, pattern.tokens text = first ++ unit a :: rest → pattern.find (a :: (texts rest ++ more)) = none) :
    pattern.tokens (text ++ more) = pattern.tokens text ++ pattern.tokens more := by
  induction text using pattern.tokens_induction with
  | nil => rfl
  | unit a rest hfind ih =>
    have htokens := pattern.tokens_unit hfind
    have hnone := h [] a _ htokens
    rw [texts_tokens] at hnone
    rw [List.cons_append, pattern.tokens_unit hnone, htokens, List.cons_append, ih]
    intro first b others heq
    exact h (unit a :: first) b others (by rw [htokens, heq]; rfl)
  | found items rest hfind ih =>
    have htokens := pattern.tokens_found hfind
    have hmatch := pattern.find_append hfind more
    rw [List.append_assoc] at hmatch
    rw [List.append_assoc, pattern.tokens_found hmatch, htokens, List.cons_append, ih]
    intro first b others heq
    exact h (found items :: first) b others (by rw [htokens, heq]; rfl)

/-- The first tokens of a text are those of its beginning, the others those of
what is left. -/
theorem tokens_take {text : List α} {first rest : List (Token α)} (h : pattern.tokens text = first ++ rest) :
    pattern.tokens (texts first) = first ∧ pattern.tokens (texts rest) = rest := by
  induction text using pattern.tokens_induction generalizing first with
  | nil =>
    obtain ⟨hfirst, hrest⟩ := List.append_eq_nil_iff.1 h.symm
    rw [hfirst, hrest]
    exact ⟨rfl, rfl⟩
  | unit a more hfind ih =>
    have htokens := pattern.tokens_unit hfind
    cases first with
    | nil =>
      rw [List.nil_append] at h
      rw [← h, texts_tokens]
      exact ⟨rfl, rfl⟩
    | cons token first =>
      rw [htokens, List.cons_append, List.cons.injEq] at h
      obtain ⟨hfirst, hrest⟩ := ih h.2
      refine ⟨?_, hrest⟩
      have hmore : more = texts first ++ texts rest := by rw [← texts_append, ← h.2, texts_tokens]
      rw [← h.1, texts_unit, pattern.tokens_unit, hfirst]
      cases hshort : pattern.find (a :: texts first) with
      | none => rfl
      | some items =>
        have hlong := pattern.find_append hshort (texts rest)
        rw [List.cons_append, ← hmore, hfind] at hlong
        cases hlong
  | found items more hfind ih =>
    have htokens := pattern.tokens_found hfind
    cases first with
    | nil =>
      rw [List.nil_append] at h
      rw [← h, texts_tokens]
      exact ⟨rfl, rfl⟩
    | cons token first =>
      rw [htokens, List.cons_append, List.cons.injEq] at h
      obtain ⟨hfirst, hrest⟩ := ih h.2
      refine ⟨?_, hrest⟩
      have hitems := pattern.find_append (pattern.find_self hfind) (texts first)
      rw [← h.1, texts_found, pattern.tokens_found hitems, hfirst]

end Pattern

/-! ## Parts -/

/-- The parts of a text outside of matches: each but the last comes with the
match behind it. -/
structure Pieces (α : Type) where
  pairs : List (List α × List α)
  last : List α
deriving DecidableEq, Repr

namespace Pieces

open Token

variable {α : Type}

def gather : List α → List (Token α) → Pieces α
  | part, [] => ⟨[], part⟩
  | part, unit a :: rest => gather (part ++ [a]) rest
  | part, found items :: rest => ⟨(part, items) :: (gather [] rest).pairs, (gather [] rest).last⟩

def map (convert : List α → List α) (pieces : Pieces α) : Pieces α :=
  ⟨pieces.pairs.map fun pair => (convert pair.1, pair.2), convert pieces.last⟩

def join (pieces : Pieces α) : List α :=
  (pieces.pairs.flatMap fun pair => pair.1 ++ pair.2) ++ pieces.last

def tokens (pieces : Pieces α) : List (Token α) :=
  (pieces.pairs.flatMap fun pair => pair.1.map unit ++ [found pair.2]) ++ pieces.last.map unit

@[simp] theorem join_cons (pair : List α × List α) (rest : List (List α × List α)) (last : List α) :
    (mk (pair :: rest) last).join = pair.1 ++ (pair.2 ++ (mk rest last).join) := by
  unfold join
  simp only [List.flatMap_cons, List.append_assoc]

@[simp] theorem tokens_cons (pair : List α × List α) (rest : List (List α × List α)) (last : List α) :
    (mk (pair :: rest) last).tokens = pair.1.map unit ++ found pair.2 :: (mk rest last).tokens := by
  unfold tokens
  simp only [List.flatMap_cons, List.append_assoc, List.nil_append, List.cons_append]

theorem texts_tokens (pieces : Pieces α) : texts pieces.tokens = pieces.join := by
  obtain ⟨pairs, last⟩ := pieces
  induction pairs with
  | nil => exact texts_map_unit last
  | cons pair rest ih => rw [tokens_cons, texts_append, texts_map_unit, texts_found, ih, join_cons]

theorem tokens_gather (part : List α) (tokens : List (Token α)) :
    (gather part tokens).tokens = part.map unit ++ tokens := by
  induction tokens generalizing part with
  | nil => rw [List.append_nil]; rfl
  | cons token rest ih =>
    cases token with
    | unit a => rw [gather, ih, List.map_append, List.append_assoc]; rfl
    | found items =>
      have hrest := ih []
      rw [List.map_nil, List.nil_append] at hrest
      rw [gather, tokens_cons]
      change _ ++ found items :: (gather [] rest).tokens = _
      rw [hrest]

theorem gather_map_unit (part more : List α) (rest : List (Token α)) :
    gather part (more.map unit ++ rest) = gather (part ++ more) rest := by
  induction more generalizing part with
  | nil => rw [List.map_nil, List.nil_append, List.append_nil]
  | cons a more ih => rw [List.map_cons, List.cons_append, gather, ih, List.append_assoc, List.singleton_append]

theorem gather_tokens (pieces : Pieces α) : gather [] pieces.tokens = pieces := by
  obtain ⟨pairs, last⟩ := pieces
  induction pairs with
  | nil =>
    have h := gather_map_unit [] last []
    rw [List.append_nil, List.nil_append] at h
    exact h
  | cons pair rest ih =>
    rw [tokens_cons, gather_map_unit, gather, ih]
    rfl

end Pieces

namespace Pattern

open Token

variable {α : Type} (pattern : Pattern α)

def pieces (text : List α) : Pieces α :=
  Pieces.gather [] (pattern.tokens text)

theorem tokens_pieces (text : List α) : (pattern.pieces text).tokens = pattern.tokens text :=
  Pieces.tokens_gather [] (pattern.tokens text)

theorem pieces_of_tokens {text : List α} {pieces : Pieces α} (h : pattern.tokens text = pieces.tokens) :
    pattern.pieces text = pieces := by
  unfold Pattern.pieces
  rw [h, Pieces.gather_tokens]

@[simp] theorem join_pieces (text : List α) : (pattern.pieces text).join = text := by
  rw [← Pieces.texts_tokens, tokens_pieces, texts_tokens]

theorem find_of_mem_pairs {text : List α} {pair : List α × List α} (h : pair ∈ (pattern.pieces text).pairs) :
    pattern.find pair.2 = some pair.2 := by
  apply @find_of_found_mem _ pattern text
  rw [← tokens_pieces]
  apply List.mem_append_left
  exact List.mem_flatMap.2 ⟨pair, h, List.mem_append_right _ (List.mem_singleton_self _)⟩

def mapOutside (convert : List α → List α) (text : List α) : List α :=
  ((pattern.pieces text).map convert).join

/-- No match begins with an item of the part, whatever follows. -/
def Inert (part : List α) : Prop :=
  ∀ a ∈ part, ∀ rest, pattern.find (a :: rest) = none

theorem tokens_inert {part : List α} (h : pattern.Inert part) (rest : List α) :
    pattern.tokens (part ++ rest) = part.map unit ++ pattern.tokens rest := by
  induction part with
  | nil => rfl
  | cons a part ih =>
    rw [List.cons_append, pattern.tokens_unit (h a List.mem_cons_self _),
      ih fun b hb => h b (List.mem_cons_of_mem _ hb)]
    rfl

/-- A text that is made up of parts and matches has them for its pieces. -/
theorem tokens_join {pairs : List (List α × List α)} {last : List α}
    (hpairs : ∀ pair ∈ pairs, pattern.Inert pair.1 ∧ pattern.find pair.2 = some pair.2)
    (hlast : pattern.tokens last = last.map unit) :
    pattern.tokens (Pieces.mk pairs last).join = (Pieces.mk pairs last).tokens := by
  induction pairs with
  | nil => exact hlast
  | cons pair rest ih =>
    obtain ⟨hinert, hfind⟩ := hpairs pair List.mem_cons_self
    have hrest := ih fun other hmem => hpairs other (List.mem_cons_of_mem _ hmem)
    rw [Pieces.join_cons, pattern.tokens_inert hinert, pattern.tokens_found (pattern.find_append hfind _), hrest,
      Pieces.tokens_cons]

theorem tokens_of_inert {part : List α} (h : pattern.Inert part) : pattern.tokens part = part.map unit := by
  have hall := pattern.tokens_inert h []
  rw [List.append_nil, tokens_nil, List.append_nil] at hall
  exact hall

/-- Parts that are written without the beginning of a match are pieces again. -/
theorem pieces_mapOutside {convert : List α → List α} {text : List α}
    (hpairs : ∀ pair ∈ (pattern.pieces text).pairs, pattern.Inert (convert pair.1))
    (hlast : pattern.Inert (convert (pattern.pieces text).last)) :
    pattern.pieces (pattern.mapOutside convert text) = (pattern.pieces text).map convert := by
  apply pattern.pieces_of_tokens
  apply pattern.tokens_join
  · intro pair hmem
    obtain ⟨source, hsource, rfl⟩ := List.mem_map.1 hmem
    have hfind : pattern.find source.2 = some source.2 := pattern.find_of_mem_pairs hsource
    exact ⟨hpairs source hsource, hfind⟩
  · exact pattern.tokens_of_inert hlast

end Pattern

end Gostman.Lib
