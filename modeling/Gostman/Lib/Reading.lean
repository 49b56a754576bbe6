import Gostman.Lib.Utf8
import Mathlib.Tactic.Ring
/-!
# Reading from the front of a byte string

A reading takes what it needs from the front and gives the rest, or fails.
Each reading comes with the lemma that it reads what was written, whatever
follows.
-/

namespace Gostman.Lib

universe u

abbrev Reading (α : Type u) := Bytes → Option (α × Bytes)

def takeBytes (count : Nat) : Reading Bytes := fun bytes =>
  if count > bytes.length then none else some (bytes.take count, bytes.drop count)

def times {α : Type u} (read : Reading α) : Nat → Reading (List α)
  | 0, bytes => some ([], bytes)
  | count + 1, bytes => do
      let (value, bytes) ← read bytes
      let (values, bytes) ← times read count bytes
      return (value :: values, bytes)

def untilEnd {α ε : Type u} (read : Reading (ε ⊕ α)) : Nat → Reading (List α × ε)
  | 0, _ => none
  | fuel + 1, bytes =>
      match read bytes with
      | none => none
      | some (.inl stop, rest) => some (([], stop), rest)
      | some (.inr value, rest) =>
          (untilEnd read fuel rest).map fun ((values, stop), rest) => ((value :: values, stop), rest)

/-- Values up to an end, where each takes a byte at least, so that there are
no more values than bytes. -/
def toEnd {α ε : Type u} (read : Reading (ε ⊕ α)) : Reading (List α × ε) := fun bytes =>
  untilEnd read (bytes.length + 1) bytes

def through {α β : Type u} (read : Reading α) (meaning : α → Option β) : Reading β := fun bytes =>
  (read bytes).bind fun (value, rest) => (meaning value).map (·, rest)

def inTurn {α β : Type u} (first : Reading α) (second : Reading β) : Reading (α × β) := fun bytes =>
  (first bytes).bind fun (value, rest) => (second rest).map fun (other, rest) => ((value, other), rest)

def orEnd {α ε : Type u} (ends : α → Option ε) (read : Reading α) : Reading (ε ⊕ α) :=
  through read fun value => some ((ends value).elim (.inr value) .inl)

def inTurnOrEnd {α β ε : Type u} (ends : α → Option ε) (first : Reading α) (second : Reading β) :
    Reading (ε ⊕ (α × β)) := fun bytes =>
  (first bytes).bind fun (value, rest) =>
    match ends value with
    | some stop => some (.inl stop, rest)
    | none => (second rest).map fun (other, rest) => (.inr (value, other), rest)

theorem takeBytes_append {count : Nat} {front : Bytes} (h : front.length = count) (rest : Bytes) :
    takeBytes count (front ++ rest) = some (front, rest) := by
  unfold takeBytes
  rw [if_neg (by rw [List.length_append]; omega), List.take_left' h, List.drop_left' h]

/-- Values written one after the other are read one after the other. -/
theorem times_append {α β : Type u} {write : β → Bytes} {read : Reading α} {meaning : β → α}
    (values : List β)
    (h : ∀ value ∈ values, ∀ rest, read (write value ++ rest) = some (meaning value, rest))
    (rest : Bytes) :
    times read values.length (values.flatMap write ++ rest) = some (values.map meaning, rest) := by
  induction values with
  | nil => rfl
  | cons value values ih =>
    have hhead := h value List.mem_cons_self (values.flatMap write ++ rest)
    have htail := ih fun other hother => h other (List.mem_cons_of_mem value hother)
    rw [List.flatMap_cons, List.append_assoc, List.length_cons, times, hhead]
    simp [htail]

/-- Values read one after the other: where reading what was written for a
value gives something related to it only if all is well with it, all is well
with every value. -/
theorem forall_of_times {α β : Type u} {write : β → Bytes} {read : Reading α}
    {related : β → α → Prop} {well : β → Prop} {values : List β} {results : List α}
    {rest rest' : Bytes}
    (h : ∀ value ∈ values, ∀ rest result rest', read (write value ++ rest) = some (result, rest') →
      related value result → well value ∧ rest' = rest)
    (hrelated : List.Forall₂ related values results)
    (htimes : times read values.length (values.flatMap write ++ rest) = some (results, rest')) :
    ∀ value ∈ values, well value := by
  induction hrelated with
  | nil => exact fun value hvalue => absurd hvalue List.not_mem_nil
  | cons hfirst hrelated ih =>
    rw [List.flatMap_cons, List.append_assoc, List.length_cons, times] at htimes
    obtain ⟨⟨result, bytes⟩, hread, htimes⟩ := Option.bind_eq_some_iff.1 htimes
    obtain ⟨⟨results, rest''⟩, htail, htimes⟩ := Option.bind_eq_some_iff.1 htimes
    obtain ⟨heq, rfl⟩ := Prod.mk.inj (Option.some.inj htimes)
    obtain ⟨rfl, rfl⟩ := List.cons.inj heq
    obtain ⟨hwell, rfl⟩ := h _ List.mem_cons_self _ _ _ hread hfirst
    exact List.forall_mem_cons.2
      ⟨hwell, ih (fun value hvalue => h value (List.mem_cons_of_mem _ hvalue)) htail⟩

theorem length_of_times {α : Type u} {read : Reading α} {count : Nat} {bytes rest : Bytes}
    {values : List α} (h : times read count bytes = some (values, rest)) :
    values.length = count := by
  induction count generalizing bytes values with
  | zero =>
    obtain ⟨rfl, -⟩ := Prod.mk.inj (Option.some.inj h)
    rfl
  | succ count ih =>
    rw [times] at h
    obtain ⟨⟨value, bytes'⟩, -, h⟩ := Option.bind_eq_some_iff.1 h
    obtain ⟨⟨values', rest'⟩, htimes, h⟩ := Option.bind_eq_some_iff.1 h
    obtain ⟨rfl, rfl⟩ := Prod.mk.inj (Option.some.inj h)
    rw [List.length_cons, ih htimes]

/-- What is written is as long as the number of values, if each takes so many
bytes at least. -/
theorem mul_length_le_flatMap {β : Type u} {write : β → Bytes} {least : Nat}
    (h : ∀ value, least ≤ (write value).length) (values : List β) :
    values.length * least ≤ (values.flatMap write).length := by
  induction values with
  | nil => exact Nat.le_of_eq (Nat.zero_mul least)
  | cons value values ih =>
    have hvalue := h value
    rw [List.flatMap_cons, List.length_append, List.length_cons, Nat.succ_mul]
    omega

/-! ## Readings taken further -/

section Through

variable {α β ε δ : Type u}

theorem through_eq_some {read : Reading α} {meaning : α → Option β} {bytes rest : Bytes}
    {result : β} : through read meaning bytes = some (result, rest) ↔
      ∃ value, read bytes = some (value, rest) ∧ meaning value = some result := by
  unfold through
  constructor
  · intro h
    obtain ⟨⟨value, rest'⟩, hread, h⟩ := Option.bind_eq_some_iff.1 h
    obtain ⟨other, hmeaning, h⟩ := Option.map_eq_some_iff.1 h
    obtain ⟨rfl, rfl⟩ := Prod.mk.inj h
    exact ⟨value, hread, hmeaning⟩
  · rintro ⟨value, hread, hmeaning⟩
    rw [hread, Option.bind_some]
    exact Option.map_eq_some_iff.2 ⟨result, hmeaning, rfl⟩

/-- Two readings are the same when they give the same. -/
theorem Reading.ext_iff {read other : Reading α} :
    read = other ↔ ∀ bytes value rest,
      read bytes = some (value, rest) ↔ other bytes = some (value, rest) := by
  constructor
  · rintro rfl bytes value rest
    exact Iff.rfl
  · intro h
    funext bytes
    exact Option.ext fun ⟨value, rest⟩ => h bytes value rest

theorem times_succ_eq_some {read : Reading α} {count : Nat} {bytes rest : Bytes}
    {values : List α} : times read (count + 1) bytes = some (values, rest) ↔
      ∃ value bytes' others, read bytes = some (value, bytes') ∧
        times read count bytes' = some (others, rest) ∧ values = value :: others := by
  rw [times]
  constructor
  · intro h
    obtain ⟨⟨value, bytes'⟩, hread, h⟩ := Option.bind_eq_some_iff.1 h
    obtain ⟨⟨others, rest'⟩, htimes, h⟩ := Option.bind_eq_some_iff.1 h
    obtain ⟨rfl, rfl⟩ := Prod.mk.inj (Option.some.inj h)
    exact ⟨value, bytes', others, hread, htimes, rfl⟩
  · rintro ⟨value, bytes', others, hread, htimes, rfl⟩
    simp [hread, htimes]

theorem mapM_cons_eq_some {meaning : α → Option β} {value : α} {values : List α}
    {results : List β} : (value :: values).mapM meaning = some results ↔
      ∃ result others, meaning value = some result ∧ values.mapM meaning = some others ∧
        results = result :: others := by
  rw [List.mapM_cons]
  constructor
  · intro h
    obtain ⟨result, hresult, h⟩ := Option.bind_eq_some_iff.1 h
    obtain ⟨others, hothers, h⟩ := Option.bind_eq_some_iff.1 h
    exact ⟨result, others, hresult, hothers, (Option.some.inj h).symm⟩
  · rintro ⟨result, others, hresult, hothers, rfl⟩
    simp [hresult, hothers]

theorem isSome_mapM {meaning : α → Option β} {values : List α} :
    (values.mapM meaning).isSome = true ↔ ∀ value ∈ values, (meaning value).isSome = true := by
  induction values with
  | nil => simp
  | cons value values ih =>
    rw [List.forall_mem_cons, ← ih, List.mapM_cons]
    cases meaning value <;> cases values.mapM meaning <;> simp

theorem exists_of_mapM {meaning : α → Option β} {values : List α} {results : List β}
    (h : values.mapM meaning = some results) :
    ∀ result ∈ results, ∃ value ∈ values, meaning value = some result := by
  induction values generalizing results with
  | nil =>
    obtain rfl := Option.some.inj h
    exact fun result hresult => absurd hresult List.not_mem_nil
  | cons value values ih =>
    obtain ⟨result, others, hresult, hothers, rfl⟩ := mapM_cons_eq_some.1 h
    refine List.forall_mem_cons.2 ⟨⟨value, List.mem_cons_self, hresult⟩, ?_⟩
    intro other hother
    obtain ⟨found, hfound, hmeaning⟩ := ih hothers other hother
    exact ⟨found, List.mem_cons_of_mem value hfound, hmeaning⟩

theorem mem_of_mapM {meaning : α → Option β} {values : List α} {results : List β}
    (h : values.mapM meaning = some results) {value : α} {result : β} (hvalue : value ∈ values)
    (hresult : meaning value = some result) : result ∈ results := by
  induction values generalizing results with
  | nil => exact absurd hvalue List.not_mem_nil
  | cons first values ih =>
    obtain ⟨firstResult, others, hfirst, hothers, rfl⟩ := mapM_cons_eq_some.1 h
    rcases List.mem_cons.1 hvalue with rfl | hvalue
    · obtain rfl := Option.some.inj (hfirst.symm.trans hresult)
      exact List.mem_cons_self
    · exact List.mem_cons_of_mem firstResult (ih hothers hvalue)

theorem forall₂_of_mapM {meaning : α → Option β} {related : α → β → Prop} {values : List α}
    {results : List β} (h : values.mapM meaning = some results)
    (hrelated : ∀ value ∈ values, ∀ {result}, meaning value = some result → related value result) :
    List.Forall₂ related values results := by
  induction values generalizing results with
  | nil =>
    obtain rfl := Option.some.inj h
    exact .nil
  | cons value values ih =>
    obtain ⟨result, others, hresult, hothers, rfl⟩ := mapM_cons_eq_some.1 h
    exact .cons (hrelated value List.mem_cons_self hresult)
      (ih hothers fun other hother => hrelated other (List.mem_cons_of_mem value hother))

/-- Values taken together give something when each does and each result is
fit for it. -/
theorem isSome_mapM_bind {γ : Type u} {meaning : α → Option β} {values : List α}
    {further : List β → Option γ} {fit : β → Prop}
    (h : ∀ results, (further results).isSome = true ↔ ∀ result ∈ results, fit result) :
    ((values.mapM meaning).bind further).isSome = true ↔
      (∀ value ∈ values, (meaning value).isSome = true) ∧
        ∀ value ∈ values, ∀ result, meaning value = some result → fit result := by
  rw [← isSome_mapM]
  cases hmap : values.mapM meaning with
  | none => simp
  | some results =>
    rw [Option.bind_some, h]
    constructor
    · intro hfit
      exact ⟨rfl, fun value hvalue result hresult =>
        hfit result (mem_of_mapM hmap hvalue hresult)⟩
    · rintro ⟨-, hfit⟩ result hresult
      obtain ⟨value, hvalue, hmeaning⟩ := exists_of_mapM hmap result hresult
      exact hfit value hvalue result hmeaning

theorem times_through (read : Reading α) (meaning : α → Option β) (count : Nat) :
    times (through read meaning) count = through (times read count) (List.mapM meaning) := by
  induction count with
  | zero =>
    funext bytes
    rfl
  | succ count ih =>
    refine Reading.ext_iff.2 fun bytes results rest => ?_
    rw [times_succ_eq_some, through_eq_some]
    constructor
    · rintro ⟨result, bytes', others, hread, htimes, rfl⟩
      obtain ⟨value, hvalue, hresult⟩ := through_eq_some.1 hread
      rw [ih] at htimes
      obtain ⟨values, hvalues, hothers⟩ := through_eq_some.1 htimes
      exact ⟨value :: values, times_succ_eq_some.2 ⟨value, bytes', values, hvalue, hvalues, rfl⟩,
        mapM_cons_eq_some.2 ⟨result, others, hresult, hothers, rfl⟩⟩
    · rintro ⟨values, htimes, hmap⟩
      obtain ⟨value, bytes', others, hvalue, hothers, rfl⟩ := times_succ_eq_some.1 htimes
      obtain ⟨result, results, hresult, hresults, rfl⟩ := mapM_cons_eq_some.1 hmap
      refine ⟨result, bytes', results, through_eq_some.2 ⟨value, hvalue, hresult⟩, ?_, rfl⟩
      rw [ih]
      exact through_eq_some.2 ⟨others, hothers, hresults⟩

theorem through_through {γ : Type u} (read : Reading α) (meaning : α → Option β)
    (further : β → Option γ) :
    through (through read meaning) further =
      through read fun value => (meaning value).bind further := by
  funext bytes
  unfold through
  rcases read bytes with - | ⟨value, rest⟩
  · rfl
  · cases hmeaning : meaning value <;> simp [hmeaning]

theorem through_congr {read : Reading α} {meaning other : α → Option β}
    (h : ∀ bytes value rest, read bytes = some (value, rest) → meaning value = other value) :
    through read meaning = through read other := by
  funext bytes
  unfold through
  cases hread : read bytes with
  | none => rfl
  | some found => simp only [Option.bind_some, h bytes found.1 found.2 hread]

def either (stops : ε → Option δ) (meaning : α → Option β) : ε ⊕ α → Option (δ ⊕ β)
  | .inl stop => (stops stop).map .inl
  | .inr value => (meaning value).map .inr

def eitherAll (stops : ε → Option δ) (meaning : α → Option β) (found : List α × ε) :
    Option (List β × δ) :=
  (found.1.mapM meaning).bind fun results => (stops found.2).map (results, ·)

theorem eitherAll_eq_some {stops : ε → Option δ} {meaning : α → Option β} {found : List α × ε}
    {results : List β × δ} : eitherAll stops meaning found = some results ↔
      found.1.mapM meaning = some results.1 ∧ stops found.2 = some results.2 := by
  unfold eitherAll
  constructor
  · intro h
    obtain ⟨values, hvalues, h⟩ := Option.bind_eq_some_iff.1 h
    obtain ⟨stop, hstop, rfl⟩ := Option.map_eq_some_iff.1 h
    exact ⟨hvalues, hstop⟩
  · rintro ⟨hvalues, hstop⟩
    rw [hvalues, Option.bind_some, hstop, Option.map_some]

theorem untilEnd_succ_eq_some {read : Reading (ε ⊕ α)} {fuel : Nat} {bytes rest : Bytes}
    {found : List α × ε} : untilEnd read (fuel + 1) bytes = some (found, rest) ↔
      (∃ stop, read bytes = some (.inl stop, rest) ∧ found = ([], stop)) ∨
      ∃ value bytes' values stop, read bytes = some (.inr value, bytes') ∧
        untilEnd read fuel bytes' = some ((values, stop), rest) ∧
        found = (value :: values, stop) := by
  rw [untilEnd]
  rcases hread : read bytes with - | ⟨stop | value, bytes'⟩
  · simp
  · simp [eq_comm, and_comm]
  · constructor
    · intro h
      obtain ⟨⟨⟨values, stop⟩, rest'⟩, huntil, h⟩ := Option.map_eq_some_iff.1 h
      obtain ⟨rfl, rfl⟩ := Prod.mk.inj h
      exact .inr ⟨value, bytes', values, stop, rfl, huntil, rfl⟩
    · rintro (⟨stop, h, -⟩ | ⟨value', bytes'', values, stop, h, huntil, rfl⟩)
      · exact absurd (Prod.mk.inj (Option.some.inj h)).1 Sum.inr_ne_inl
      · obtain ⟨hvalue, rfl⟩ := Prod.mk.inj (Option.some.inj h)
        obtain rfl := Sum.inr.inj hvalue
        simp [huntil]

theorem untilEnd_through (read : Reading (ε ⊕ α)) (stops : ε → Option δ)
    (meaning : α → Option β) (fuel : Nat) :
    untilEnd (through read (either stops meaning)) fuel =
      through (untilEnd read fuel) (eitherAll stops meaning) := by
  induction fuel with
  | zero =>
    funext bytes
    rfl
  | succ fuel ih =>
    refine Reading.ext_iff.2 fun bytes results rest => ?_
    rw [untilEnd_succ_eq_some, through_eq_some]
    constructor
    · rintro (⟨stop', hread, rfl⟩ | ⟨result, bytes', others, stop', hread, huntil, rfl⟩)
      · obtain ⟨stop | value, hvalue, hmeaning⟩ := through_eq_some.1 hread
        · obtain ⟨other, hstop, h⟩ := Option.map_eq_some_iff.1 hmeaning
          obtain rfl := Sum.inl.inj h
          exact ⟨([], stop), untilEnd_succ_eq_some.2 (.inl ⟨stop, hvalue, rfl⟩),
            eitherAll_eq_some.2 ⟨rfl, hstop⟩⟩
        · obtain ⟨other, -, h⟩ := Option.map_eq_some_iff.1 hmeaning
          exact absurd h Sum.inr_ne_inl
      · obtain ⟨stop | value, hvalue, hmeaning⟩ := through_eq_some.1 hread
        · obtain ⟨other, -, h⟩ := Option.map_eq_some_iff.1 hmeaning
          exact absurd h Sum.inl_ne_inr
        · obtain ⟨other, hresult, h⟩ := Option.map_eq_some_iff.1 hmeaning
          obtain rfl := Sum.inr.inj h
          rw [ih] at huntil
          obtain ⟨⟨values, stop⟩, hvalues, hothers⟩ := through_eq_some.1 huntil
          obtain ⟨hothers, hstop⟩ := eitherAll_eq_some.1 hothers
          exact ⟨(value :: values, stop),
            untilEnd_succ_eq_some.2 (.inr ⟨value, bytes', values, stop, hvalue, hvalues, rfl⟩),
            eitherAll_eq_some.2 ⟨mapM_cons_eq_some.2 ⟨other, others, hresult, hothers, rfl⟩, hstop⟩⟩
    · rintro ⟨found, huntil, hall⟩
      obtain ⟨hmap, hstop⟩ := eitherAll_eq_some.1 hall
      rcases untilEnd_succ_eq_some.1 huntil with
        ⟨stop, hread, rfl⟩ | ⟨value, bytes', values, stop, hread, hnext, rfl⟩
      · refine .inl ⟨results.2, through_eq_some.2 ⟨.inl stop, hread, ?_⟩, ?_⟩
        · exact Option.map_eq_some_iff.2 ⟨results.2, hstop, rfl⟩
        · exact Prod.ext (Option.some.inj hmap).symm rfl
      · obtain ⟨result, others, hresult, hothers, hresults⟩ := mapM_cons_eq_some.1 hmap
        refine .inr ⟨result, bytes', others, results.2,
          through_eq_some.2 ⟨.inr value, hread, Option.map_eq_some_iff.2 ⟨result, hresult, rfl⟩⟩,
          ?_, Prod.ext hresults rfl⟩
        rw [ih]
        exact through_eq_some.2 ⟨(values, stop), hnext, eitherAll_eq_some.2 ⟨hothers, hstop⟩⟩

/-- What holds of every value that is not the end holds of every value up to
the end. -/
theorem forall_of_toEnd {read : Reading (ε ⊕ α)} {good : α → Prop}
    (h : ∀ bytes value rest, read bytes = some (.inr value, rest) → good value)
    {bytes rest : Bytes} {found : List α × ε} (hread : toEnd read bytes = some (found, rest)) :
    ∀ value ∈ found.1, good value := by
  unfold toEnd at hread
  generalize bytes.length + 1 = fuel at hread
  induction fuel generalizing bytes found with
  | zero => exact absurd hread (Option.some_ne_none _).symm
  | succ fuel ih =>
    rcases untilEnd_succ_eq_some.1 hread with
      ⟨stop, -, rfl⟩ | ⟨value, bytes', values, stop, hfirst, hnext, rfl⟩
    · exact fun value hvalue => absurd hvalue List.not_mem_nil
    · exact List.forall_mem_cons.2 ⟨h bytes value bytes' hfirst, ih hnext⟩

theorem toEnd_through (read : Reading (ε ⊕ α)) (stops : ε → Option δ) (meaning : α → Option β) :
    toEnd (through read (either stops meaning)) =
      through (toEnd read) (eitherAll stops meaning) := by
  funext bytes
  unfold toEnd
  rw [untilEnd_through]
  rfl

/-! ## Pairs -/

section Pairs

variable {α' β' : Type u} {first : Reading α} {second : Reading β} {meaning : α → Option α'}
  {meaning' : β → Option β'}

theorem inTurn_eq_some {pair : α × β} {bytes rest : Bytes} :
    inTurn first second bytes = some (pair, rest) ↔
      ∃ bytes', first bytes = some (pair.1, bytes') ∧ second bytes' = some (pair.2, rest) := by
  unfold inTurn
  constructor
  · intro h
    obtain ⟨⟨value, bytes'⟩, hfirst, h⟩ := Option.bind_eq_some_iff.1 h
    obtain ⟨⟨other, rest'⟩, hsecond, h⟩ := Option.map_eq_some_iff.1 h
    obtain ⟨rfl, rfl⟩ := Prod.mk.inj h
    exact ⟨bytes', hfirst, hsecond⟩
  · rintro ⟨bytes', hfirst, hsecond⟩
    rw [hfirst, Option.bind_some]
    exact Option.map_eq_some_iff.2 ⟨(pair.2, rest), hsecond, rfl⟩

theorem goesOn_of_orEnd {ends : α → Option ε} {bytes rest : Bytes} {value : α}
    (h : orEnd ends first bytes = some (.inr value, rest)) : ends value = none := by
  obtain ⟨found, -, h⟩ := through_eq_some.1 h
  have hvalue := Option.some.inj h
  cases hend : ends found with
  | none =>
    rw [hend] at hvalue
    obtain rfl := Sum.inr.inj hvalue
    exact hend
  | some stop =>
    rw [hend] at hvalue
    exact absurd hvalue Sum.inl_ne_inr

theorem goesOn_of_inTurnOrEnd {ends : α → Option ε} {bytes rest : Bytes} {pair : α × β}
    (h : inTurnOrEnd ends first second bytes = some (.inr pair, rest)) : ends pair.1 = none := by
  obtain ⟨⟨value, bytes'⟩, -, h⟩ := Option.bind_eq_some_iff.1 h
  simp only at h
  split at h
  case h_1 => exact absurd (Prod.mk.inj (Option.some.inj h)).1 Sum.inl_ne_inr
  case h_2 hend =>
    obtain ⟨other, -, h⟩ := Option.map_eq_some_iff.1 h
    obtain rfl := Sum.inr.inj (Prod.mk.inj h).1
    exact hend

def bothMean (meaning : α → Option α') (meaning' : β → Option β') (pair : α × β) :
    Option (α' × β') :=
  (meaning pair.1).bind fun value => (meaning' pair.2).map (value, ·)

theorem bothMean_eq_some {pair : α × β} {results : α' × β'} :
    bothMean meaning meaning' pair = some results ↔
      meaning pair.1 = some results.1 ∧ meaning' pair.2 = some results.2 := by
  unfold bothMean
  constructor
  · intro h
    obtain ⟨value, hvalue, h⟩ := Option.bind_eq_some_iff.1 h
    obtain ⟨other, hother, rfl⟩ := Option.map_eq_some_iff.1 h
    exact ⟨hvalue, hother⟩
  · rintro ⟨hvalue, hother⟩
    rw [hvalue, Option.bind_some, hother, Option.map_some]

theorem inTurn_through :
    inTurn (through first meaning) (through second meaning') =
      through (inTurn first second) (bothMean meaning meaning') := by
  refine Reading.ext_iff.2 fun bytes results rest => ?_
  rw [inTurn_eq_some, through_eq_some]
  constructor
  · rintro ⟨bytes', hfirst, hsecond⟩
    obtain ⟨value, hvalue, hresult⟩ := through_eq_some.1 hfirst
    obtain ⟨other, hother, hresult'⟩ := through_eq_some.1 hsecond
    exact ⟨(value, other), inTurn_eq_some.2 ⟨bytes', hvalue, hother⟩,
      bothMean_eq_some.2 ⟨hresult, hresult'⟩⟩
  · rintro ⟨pair, hpair, hresults⟩
    obtain ⟨bytes', hvalue, hother⟩ := inTurn_eq_some.1 hpair
    obtain ⟨hresult, hresult'⟩ := bothMean_eq_some.1 hresults
    exact ⟨bytes', through_eq_some.2 ⟨pair.1, hvalue, hresult⟩,
      through_eq_some.2 ⟨pair.2, hother, hresult'⟩⟩

/-- The ends of values and of what they mean are the same ends. -/
structure EndsAlike (meaning : α → Option α') (ends : α → Option ε) (ends' : α' → Option δ)
    (stops : ε → Option δ) : Prop where
  ended : ∀ value stop, ends value = some stop → (meaning value).bind ends' = stops stop ∧
    ∀ result, meaning value = some result → (ends' result).isSome
  goesOn : ∀ value result, ends value = none → meaning value = some result → ends' result = none

variable {ends : α → Option ε} {ends' : α' → Option δ} {stops : ε → Option δ}

theorem EndsAlike.of_end (h : EndsAlike meaning ends ends' stops) {value : α} {stop : ε}
    (hend : ends value = some stop) :
    (meaning value = none ∧ stops stop = none) ∨
      ∃ result stop', meaning value = some result ∧ ends' result = some stop' ∧
        stops stop = some stop' := by
  obtain ⟨hstops, hends⟩ := h.ended value stop hend
  cases hmeaning : meaning value with
  | none =>
    rw [hmeaning] at hstops
    exact .inl ⟨rfl, hstops.symm⟩
  | some result =>
    obtain ⟨stop', hstop'⟩ := Option.isSome_iff_exists.1 (hends result hmeaning)
    rw [hmeaning, Option.bind_some, hstop'] at hstops
    exact .inr ⟨result, stop', rfl, hstop', hstops.symm⟩

theorem orEnd_through (h : EndsAlike meaning ends ends' stops) :
    orEnd ends' (through first meaning) = through (orEnd ends first) (either stops meaning) := by
  unfold orEnd
  rw [through_through, through_through]
  refine through_congr fun bytes value rest _ => ?_
  cases hend : ends value with
  | none =>
    cases hmeaning : meaning value with
    | none => simp [either, hmeaning]
    | some result => simp [either, hmeaning, h.goesOn value result hend hmeaning]
  | some stop =>
    rcases h.of_end hend with ⟨hmeaning, hstop⟩ | ⟨result, stop', hmeaning, hstop', hstop⟩
    · simp [either, hmeaning, hstop]
    · simp [either, hmeaning, hstop, hstop']

theorem inTurnOrEnd_through (h : EndsAlike meaning ends ends' stops) :
    inTurnOrEnd ends' (through first meaning) (through second meaning') =
      through (inTurnOrEnd ends first second) (either stops (bothMean meaning meaning')) := by
  funext bytes
  unfold inTurnOrEnd through
  beta_reduce
  rcases first bytes with - | ⟨value, bytes'⟩
  · rfl
  simp only [Option.bind_some]
  cases hend : ends value with
  | none =>
    cases hmeaning : meaning value with
    | none => cases second bytes' <;> simp [either, bothMean, hmeaning]
    | some result =>
      rcases hsecond : second bytes' with - | ⟨other, rest⟩
      · simp [h.goesOn value result hend hmeaning, hsecond]
      · cases hother : meaning' other <;>
          simp [either, bothMean, hmeaning, h.goesOn value result hend hmeaning, hsecond, hother]
  | some stop =>
    rcases h.of_end hend with ⟨hmeaning, hstop⟩ | ⟨result, stop', hmeaning, hstop', hstop⟩
    · simp [either, hmeaning, hstop]
    · simp [either, hmeaning, hstop, hstop']

end Pairs

/-! ## How much is read -/

def Takes (least : Nat) (read : Reading α) : Prop :=
  ∀ bytes value rest, read bytes = some (value, rest) → rest.length + least ≤ bytes.length

theorem takes_through {least : Nat} {read : Reading α} (h : Takes least read)
    (meaning : α → Option β) : Takes least (through read meaning) := by
  intro bytes value rest hread
  obtain ⟨found, hfound, -⟩ := through_eq_some.1 hread
  exact h bytes found rest hfound

theorem takes_times {least : Nat} {read : Reading α} (h : Takes least read) (count : Nat) :
    Takes (count * least) (times read count) := by
  induction count with
  | zero =>
    intro bytes values rest htimes
    obtain ⟨-, rfl⟩ := Prod.mk.inj (Option.some.inj htimes)
    rw [Nat.zero_mul, Nat.add_zero]
  | succ count ih =>
    intro bytes values rest htimes
    obtain ⟨value, bytes', others, hread, hothers, -⟩ := times_succ_eq_some.1 htimes
    have hfirst := h bytes value bytes' hread
    have hrest := ih bytes' others rest hothers
    rw [Nat.succ_mul]
    omega

theorem takes_untilEnd {read : Reading (ε ⊕ α)} (h : Takes 0 read) (fuel : Nat) :
    Takes 0 (untilEnd read fuel) := by
  induction fuel with
  | zero =>
    intro bytes found rest huntil
    exact absurd huntil (Option.some_ne_none _).symm
  | succ fuel ih =>
    intro bytes found rest huntil
    rcases untilEnd_succ_eq_some.1 huntil with
      ⟨stop, hread, -⟩ | ⟨value, bytes', values, stop, hread, hnext, -⟩
    · exact h bytes _ rest hread
    · have hfirst := h bytes _ bytes' hread
      have hrest := ih bytes' _ rest hnext
      omega

theorem takes_toEnd {read : Reading (ε ⊕ α)} (h : Takes 0 read) : Takes 0 (toEnd read) := by
  intro bytes found rest hread
  exact takes_untilEnd h (bytes.length + 1) bytes found rest hread

theorem takes_inTurn {least least' : Nat} {first : Reading α} {second : Reading β}
    (h : Takes least first) (h' : Takes least' second) :
    Takes (least + least') (inTurn first second) := by
  intro bytes pair rest hread
  obtain ⟨bytes', hfirst, hsecond⟩ := inTurn_eq_some.1 hread
  have htaken := h bytes pair.1 bytes' hfirst
  have htaken' := h' bytes' pair.2 rest hsecond
  omega

theorem takes_inTurnOrEnd {ends : α → Option ε} {first : Reading α} {second : Reading β}
    (h : Takes 0 first) (h' : Takes 0 second) : Takes 0 (inTurnOrEnd ends first second) := by
  intro bytes found rest hread
  obtain ⟨⟨value, bytes'⟩, hfirst, hread⟩ := Option.bind_eq_some_iff.1 hread
  have htaken := h bytes value bytes' hfirst
  simp only at hread
  split at hread
  · obtain ⟨-, rfl⟩ := Prod.mk.inj (Option.some.inj hread)
    exact htaken
  · obtain ⟨⟨other, rest'⟩, hsecond, hread⟩ := Option.map_eq_some_iff.1 hread
    have htaken' := h' bytes' other rest' hsecond
    rw [← (Prod.mk.inj hread).2]
    exact Nat.le_trans htaken' htaken

theorem Takes.weaken {least less : Nat} {read : Reading α} (h : Takes least read)
    (hle : less ≤ least) : Takes less read := by
  intro bytes value rest hread
  have hbytes := h bytes value rest hread
  omega

theorem takes_pure (value : α) : Takes 0 (fun bytes => some (value, bytes)) := by
  intro bytes found rest hread
  obtain ⟨-, rfl⟩ := Prod.mk.inj (Option.some.inj hread)
  exact Nat.le_refl _

theorem takes_none (least : Nat) : Takes least (fun _ => (none : Option (α × Bytes))) :=
  fun _ _ _ hread => absurd hread (Option.some_ne_none _).symm

theorem takes_takeBytes (count : Nat) : Takes 0 (takeBytes count) := by
  intro bytes front rest hread
  obtain ⟨hcount, hread⟩ := Option.ite_none_left_eq_some.1 hread
  obtain ⟨-, rfl⟩ := Prod.mk.inj (Option.some.inj hread)
  rw [List.length_drop]
  omega

end Through

/-! ## Numbers, most significant byte first -/

def bigEndian : Nat → Nat → Bytes
  | 0, _ => []
  | width + 1, value => UInt8.ofNat (value / 256 ^ width) :: bigEndian width value

def ofBigEndian (bytes : Bytes) : Nat :=
  bytes.foldl (fun value b => 256 * value + b.toNat) 0

def unsigned (width : Nat) : Reading Nat := fun bytes =>
  (takeBytes width bytes).map fun (front, rest) => (ofBigEndian front, rest)

@[simp] theorem length_bigEndian (width value : Nat) : (bigEndian width value).length = width := by
  induction width with
  | zero => rfl
  | succ width ih => rw [bigEndian, List.length_cons, ih]

theorem foldl_bigEndian (width value start : Nat) :
    (bigEndian width value).foldl (fun value b => 256 * value + b.toNat) start =
      start * 256 ^ width + value % 256 ^ width := by
  induction width generalizing start with
  | zero => simp [bigEndian, Nat.mod_one]
  | succ width ih =>
    have hbyte : (UInt8.ofNat (value / 256 ^ width)).toNat = value / 256 ^ width % 256 := by
      simp
    rw [bigEndian, List.foldl_cons, ih, hbyte, Nat.pow_succ, Nat.mod_mul]
    ring

theorem ofBigEndian_bigEndian (width value : Nat) :
    ofBigEndian (bigEndian width value) = value % 256 ^ width := by
  unfold ofBigEndian
  rw [foldl_bigEndian, Nat.zero_mul, Nat.zero_add]

/-- What does not fit the width loses its upper bytes. -/
theorem unsigned_bigEndian (width value : Nat) (rest : Bytes) :
    unsigned width (bigEndian width value ++ rest) = some (value % 256 ^ width, rest) := by
  unfold unsigned
  rw [takeBytes_append (length_bigEndian width value), Option.map_some]
  simp only [ofBigEndian_bigEndian]

theorem unsigned_append {width value : Nat} (h : value < 256 ^ width) (rest : Bytes) :
    unsigned width (bigEndian width value ++ rest) = some (value, rest) := by
  rw [unsigned_bigEndian, Nat.mod_eq_of_lt h]

theorem takes_unsigned (width : Nat) : Takes 0 (unsigned width) := by
  intro bytes value rest hread
  obtain ⟨⟨front, rest'⟩, htake, hread⟩ := Option.map_eq_some_iff.1 hread
  have htaken := takes_takeBytes width bytes front rest' htake
  rw [← (Prod.mk.inj hread).2]
  exact htaken

/-! ## Two's complement -/

/-- The number that bits of some width are in two's complement. -/
def ofTwosComplement (width bits : Nat) : Int :=
  if 2 * bits < 256 ^ width then bits else bits - 256 ^ width

def toTwosComplement (width : Nat) (value : Int) : Nat :=
  (value % 256 ^ width).toNat

theorem ofTwosComplement_toTwosComplement {width : Nat} {value : Int} (hneg : value < 0)
    (h : -(256 ^ width : Int) ≤ 2 * value) :
    ofTwosComplement width (toTwosComplement width value) = value := by
  have hpos : (0 : Int) < 256 ^ width := Int.pow_pos (by decide)
  have hmod : value % (256 ^ width : Int) = value + 256 ^ width := by
    rw [← Int.add_emod_right, Int.emod_eq_of_lt (by omega) (by omega)]
  have hbits : ((toTwosComplement width value : Nat) : Int) = value + 256 ^ width := by
    unfold toTwosComplement
    rw [hmod]
    omega
  unfold ofTwosComplement
  rw [if_neg]
  · rw [hbits]
    omega
  · intro hlt
    have hcast : (2 * (toTwosComplement width value : Nat) : Int) < 256 ^ width := by
      exact_mod_cast hlt
    omega

end Gostman.Lib
