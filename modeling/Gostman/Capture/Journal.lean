import Mathlib.Algebra.BigOperators.Group.List.Basic
import Mathlib.Algebra.Ring.Nat
import Mathlib.Data.List.Infix
import Mathlib.Data.List.Range
/-!
# Journals (`capture/journal.go`, `mock/log.go`)

What came by is numbered and kept, the oldest dropped first when there are too many
entries or their bodies are too large.  A journal that was cleared goes on counting.
-/

namespace Gostman.Capture

/-! ## The newest entries of a log -/

section

variable {α : Type} {fits : List α → Prop}

/-- `kept` is the longest end of `log` that fits. -/
structure Newest (fits : List α → Prop) (log kept : List α) : Prop where
  suffix : kept <:+ log
  holds : fits kept
  longest : ∀ other, other <:+ log → fits other → other <:+ kept

def newestOf (fits : List α → Prop) [DecidablePred fits] : List α → List α
  | [] => []
  | entry :: rest => if fits (entry :: rest) then entry :: rest else newestOf fits rest

variable [DecidablePred fits]

theorem newestOf_of_fits {log : List α} (h : fits log) : newestOf fits log = log := by
  cases log with
  | nil => rfl
  | cons entry rest => exact if_pos h

theorem newestOf_spec (hnil : fits []) (log : List α) : Newest fits log (newestOf fits log) := by
  induction log with
  | nil => exact ⟨List.suffix_rfl, hnil, fun _ hother _ => hother⟩
  | cons entry rest ih =>
    unfold newestOf
    split_ifs with hfits
    · exact ⟨List.suffix_rfl, hfits, fun _ hother _ => hother⟩
    · refine ⟨ih.suffix.trans (List.suffix_cons entry rest), ih.holds, ?_⟩
      intro other hother hother_fits
      obtain heq | hother := List.suffix_cons_iff.1 hother
      · exact absurd (heq ▸ hother_fits) hfits
      · exact ih.longest other hother hother_fits

/-- What is newest of a longer log is newest of what was kept. -/
theorem Newest.append (hnil : fits []) (hinit : ∀ log entry, fits (log ++ [entry]) → fits log) {log kept : List α}
    (h : Newest fits log kept) (entry : α) : Newest fits (log ++ [entry]) (newestOf fits (kept ++ [entry])) := by
  have hspec := newestOf_spec hnil (kept ++ [entry])
  refine ⟨hspec.suffix.trans ?_, hspec.holds, ?_⟩
  · obtain ⟨dropped, hdropped⟩ := h.suffix
    exact ⟨dropped, by rw [← hdropped, List.append_assoc]⟩
  · intro other hother hfits
    apply hspec.longest other _ hfits
    obtain rfl | ⟨first, last, rfl⟩ := List.eq_nil_or_concat other
    · exact List.nil_suffix
    · rw [List.concat_eq_append] at *
      obtain ⟨dropped, hdropped⟩ := hother
      rw [← List.append_assoc] at hdropped
      obtain ⟨hlog, hlast⟩ := List.append_inj' hdropped rfl
      obtain ⟨more, hmore⟩ := h.longest first ⟨dropped, hlog⟩ (hinit first last hfits)
      exact ⟨more, by rw [hlast, ← List.append_assoc, hmore]⟩

end

/-! ## Numbered logs -/

inductive Call (α : Type) where
  | add (entry : α)
  | clear

/-- How many entries were added, and those since the journal was last cleared. -/
structure Log (α : Type) where
  last : Nat
  recent : List α

def Log.call {α : Type} (number : Nat → α → α) (log : Log α) : Call α → Log α
  | .add entry => ⟨log.last + 1, log.recent ++ [number (log.last + 1) entry]⟩
  | .clear => { log with recent := [] }

def Log.after {α : Type} (number : Nat → α → α) (calls : List (Call α)) : Log α :=
  calls.foldl (Log.call number) ⟨0, []⟩

section

variable {α : Type} {number : Nat → α → α}

/-- What every call keeps of a journal beside its log holds after all calls. -/
theorem Log.simulates {σ : Type} {call : σ → Call α → σ} {holds : Log α → σ → Prop}
    (hcall : ∀ log s next, holds log s → holds (log.call number next) (call s next)) {log : Log α} {s : σ} (h : holds log s)
    (calls : List (Call α)) : holds (calls.foldl (Log.call number) log) (calls.foldl call s) := by
  induction calls generalizing log s with
  | nil => exact h
  | cons next rest ih => exact ih (hcall log s next h)

variable (idOf : α → Nat)

theorem Log.numbered (hnumber : ∀ id entry, idOf (number id entry) = id) (calls : List (Call α)) :
    (Log.after number calls).recent.length ≤ (Log.after number calls).last ∧
      (Log.after number calls).recent.map idOf =
        List.range' ((Log.after number calls).last + 1 - (Log.after number calls).recent.length)
          (Log.after number calls).recent.length := by
  have hgo (log : Log α) (hle : log.recent.length ≤ log.last)
      (hids : log.recent.map idOf = List.range' (log.last + 1 - log.recent.length) log.recent.length) :
      (calls.foldl (Log.call number) log).recent.length ≤ (calls.foldl (Log.call number) log).last ∧
        (calls.foldl (Log.call number) log).recent.map idOf =
          List.range' ((calls.foldl (Log.call number) log).last + 1 - (calls.foldl (Log.call number) log).recent.length)
            (calls.foldl (Log.call number) log).recent.length := by
    induction calls generalizing log with
    | nil => exact ⟨hle, hids⟩
    | cons next rest ih =>
      cases next with
      | clear => exact ih _ (Nat.zero_le _) rfl
      | add entry =>
        refine ih _ ?_ ?_
        · simp only [Log.call, List.length_append, List.length_singleton]
          omega
        · have hstart : log.last + 1 + 1 - (log.recent.length + 1) = log.last + 1 - log.recent.length := by omega
          have hend : log.last + 1 = log.last + 1 - log.recent.length + log.recent.length := by omega
          simp only [Log.call, List.map_append, List.map_singleton, List.length_append, List.length_singleton, hids, hstart,
            hnumber]
          rw [List.range'_concat, Nat.one_mul, ← hend]
  exact hgo ⟨0, []⟩ (Nat.le_refl _) rfl

theorem Log.numbered_suffix (hnumber : ∀ id entry, idOf (number id entry) = id) (calls : List (Call α)) {kept : List α}
    (h : kept <:+ (Log.after number calls).recent) :
    kept.map idOf = List.range' ((Log.after number calls).last + 1 - kept.length) kept.length := by
  obtain ⟨hle, hids⟩ := Log.numbered idOf hnumber calls
  obtain ⟨dropped, hdropped⟩ := h
  have hkept : kept = (Log.after number calls).recent.drop dropped.length := by
    rw [← hdropped, List.drop_left]
  have hlength : (Log.after number calls).recent.length = dropped.length + kept.length := by
    rw [← hdropped, List.length_append]
  rw [hkept, List.map_drop, hids, List.drop_range', ← hkept]
  congr 1
  · omega
  · omega

end

/-! ## The journal of captured exchanges -/

def journalLimit : Nat := 500
def journalBytes : Nat := 128 * 2 ^ 20

structure Exchange (ε : Type) where
  id : Nat
  requestBody : List UInt8
  responseBody : List UInt8
  rest : ε

structure Journal (ε : Type) where
  exchanges : List (Exchange ε)
  held : Nat
  lastID : Nat

variable {ε : Type}

def weightOf (exchange : Exchange ε) : Nat :=
  exchange.requestBody.length + exchange.responseBody.length

namespace Journal

def trimmed : List (Exchange ε) → Nat → List (Exchange ε) × Nat
  | [], held => ([], held)
  | exchange :: rest, held =>
      if rest.length + 1 > journalLimit ∨ held > journalBytes ∧ rest.length + 1 > 1 then
        trimmed rest (held - weightOf exchange)
      else (exchange :: rest, held)

def trim (j : Journal ε) : Journal ε :=
  let (exchanges, held) := trimmed j.exchanges j.held
  { j with exchanges, held }

def add (j : Journal ε) (exchange : Exchange ε) : Journal ε :=
  trim
    { exchanges := j.exchanges ++ [{ exchange with id := j.lastID + 1 }]
      held := j.held + weightOf exchange
      lastID := j.lastID + 1 }

def clear (j : Journal ε) : Journal ε :=
  { j with exchanges := [], held := 0 }

def call (j : Journal ε) : Call (Exchange ε) → Journal ε
  | .add exchange => j.add exchange
  | .clear => j.clear

def weight (exchanges : List (Exchange ε)) : Nat :=
  (exchanges.map weightOf).sum

/-- What a journal may hold: one exchange may be of any size. -/
def Fits (exchanges : List (Exchange ε)) : Prop :=
  exchanges.length ≤ journalLimit ∧ (weight exchanges ≤ journalBytes ∨ exchanges.length ≤ 1)

instance : DecidablePred (Fits : List (Exchange ε) → Prop) :=
  fun _ => inferInstanceAs (Decidable (_ ∧ _))

theorem fits_nil : Fits ([] : List (Exchange ε)) :=
  ⟨Nat.zero_le _, .inr (Nat.zero_le _)⟩

theorem weight_append (first second : List (Exchange ε)) : weight (first ++ second) = weight first + weight second := by
  rw [weight, List.map_append, List.sum_append]
  rfl

theorem fits_init (log : List (Exchange ε)) (exchange : Exchange ε) (h : Fits (log ++ [exchange])) : Fits log := by
  obtain ⟨hlength, hweight⟩ := h
  rw [List.length_append, List.length_singleton] at hlength hweight
  rw [weight_append] at hweight
  refine ⟨Nat.le_of_succ_le hlength, ?_⟩
  obtain hweight | hweight := hweight
  · exact .inl ((Nat.le_add_right _ _).trans hweight)
  · exact .inr (Nat.le_of_succ_le hweight)

/-- The loop stops at the longest end that fits. -/
theorem trimmed_weight (exchanges : List (Exchange ε)) :
    trimmed exchanges (weight exchanges) = (newestOf Fits exchanges, weight (newestOf Fits exchanges)) := by
  induction exchanges with
  | nil => rfl
  | cons exchange rest ih =>
    have hfits : Fits (exchange :: rest) ↔
        ¬ (rest.length + 1 > journalLimit ∨ weight (exchange :: rest) > journalBytes ∧ rest.length + 1 > 1) := by
      unfold Fits
      rw [List.length_cons]
      omega
    have hrest : weight (exchange :: rest) - weightOf exchange = weight rest := Nat.add_sub_cancel_left _ _
    unfold trimmed newestOf
    by_cases h : Fits (exchange :: rest)
    · rw [if_neg (hfits.1 h), if_pos h]
    · rw [if_pos (not_not.1 (mt hfits.2 h)), if_neg h, hrest, ih]

structure Keeps (log : Log (Exchange ε)) (j : Journal ε) : Prop where
  newest : Newest Fits log.recent j.exchanges
  held : j.held = weight j.exchanges
  last : j.lastID = log.last

variable {log : Log (Exchange ε)} {j : Journal ε}

theorem Keeps.call (h : Keeps log j) (next : Call (Exchange ε)) :
    Keeps (log.call (fun id exchange => { exchange with id }) next) (j.call next) := by
  cases next with
  | clear =>
    exact ⟨⟨List.suffix_rfl, fits_nil, fun _ hother _ => hother⟩, rfl, h.last⟩
  | add exchange =>
    have hheld : j.held + weightOf exchange = weight (j.exchanges ++ [{ exchange with id := j.lastID + 1 }]) := by
      rw [weight_append, h.held]
      rfl
    have hadd : j.add exchange =
        ⟨newestOf Fits (j.exchanges ++ [{ exchange with id := j.lastID + 1 }]),
          weight (newestOf Fits (j.exchanges ++ [{ exchange with id := j.lastID + 1 }])), j.lastID + 1⟩ := by
      rw [add, trim, hheld, trimmed_weight]
    change Keeps ⟨log.last + 1, log.recent ++ [{ exchange with id := log.last + 1 }]⟩ (j.add exchange)
    rw [hadd, h.last]
    exact ⟨h.newest.append fits_nil fits_init _, rfl, rfl⟩

/-- After any calls the journal holds the longest end of what was added since it was
last cleared that is within its limits, numbered one after the other up to the number
of all calls that added something. -/
theorem holds_newest (calls : List (Call (Exchange ε))) :
    let log := Log.after (fun id exchange => { exchange with id }) calls
    let j := calls.foldl Journal.call ⟨[], 0, 0⟩
    Newest Fits log.recent j.exchanges ∧ j.held = weight j.exchanges ∧ j.lastID = log.last ∧
      j.exchanges.map Exchange.id = List.range' (j.lastID + 1 - j.exchanges.length) j.exchanges.length := by
  have hkeeps : Keeps (Log.after (fun id exchange => { exchange with id }) calls) (calls.foldl Journal.call ⟨[], 0, 0⟩) := by
    refine Log.simulates (fun _ _ next h => h.call next) ?_ calls
    exact ⟨⟨List.suffix_rfl, fits_nil, fun _ hother _ => hother⟩, rfl, rfl⟩
  refine ⟨hkeeps.newest, hkeeps.held, hkeeps.last, ?_⟩
  rw [hkeeps.last]
  exact Log.numbered_suffix Exchange.id (fun _ _ => rfl) calls hkeeps.newest.suffix

end Journal

/-! ## The journal of a mock server -/

def logCapacity : Nat := 500

structure Entry (ε : Type) where
  id : Nat
  rest : ε

structure MockJournal (ε : Type) where
  entries : List (Entry ε)
  last : Nat

namespace MockJournal

def add (j : MockJournal ε) (entry : Entry ε) : MockJournal ε :=
  let entries := if j.entries.length = logCapacity then j.entries.drop 1 else j.entries
  ⟨entries ++ [{ entry with id := j.last + 1 }], j.last + 1⟩

def clear (j : MockJournal ε) : MockJournal ε :=
  { j with entries := [] }

def call (j : MockJournal ε) : Call (Entry ε) → MockJournal ε
  | .add entry => j.add entry
  | .clear => j.clear

def Fits (entries : List (Entry ε)) : Prop :=
  entries.length ≤ logCapacity

instance : DecidablePred (Fits : List (Entry ε) → Prop) :=
  fun _ => inferInstanceAs (Decidable (_ ≤ _))

/-- Dropping one entry of a full journal is enough. -/
theorem newestOf_append {entries : List (Entry ε)} (h : Fits entries) (entry : Entry ε) :
    newestOf Fits (entries ++ [entry]) =
      (if entries.length = logCapacity then entries.drop 1 else entries) ++ [entry] := by
  unfold Fits at h
  split_ifs with hfull
  · cases entries with
    | nil => rw [← hfull] at h; cases hfull
    | cons first rest =>
      have hlong : ¬ Fits (first :: (rest ++ [entry])) := by
        unfold Fits
        rw [← hfull]
        simp
      have hshort : Fits (rest ++ [entry]) := by
        unfold Fits
        rw [List.length_append, List.length_singleton]
        exact h
      rw [List.cons_append, newestOf, if_neg hlong, newestOf_of_fits hshort]
      rfl
  · refine newestOf_of_fits ?_
    unfold Fits
    rw [List.length_append, List.length_singleton]
    omega

/-- The mock server's journal keeps the last of what was added. -/
structure Keeps (log : Log (Entry ε)) (j : MockJournal ε) : Prop where
  newest : Newest Fits log.recent j.entries
  last : j.last = log.last

theorem fits_init (log : List (Entry ε)) (entry : Entry ε) (h : Fits (log ++ [entry])) : Fits log := by
  unfold Fits at h
  rw [List.length_append, List.length_singleton] at h
  exact Nat.le_of_succ_le h

theorem Keeps.call {log : Log (Entry ε)} {j : MockJournal ε} (h : Keeps log j) (next : Call (Entry ε)) :
    Keeps (log.call (fun id entry => { entry with id }) next) (j.call next) := by
  cases next with
  | clear => exact ⟨⟨List.suffix_rfl, Nat.zero_le _, fun _ hother _ => hother⟩, h.last⟩
  | add entry =>
    refine ⟨?_, congrArg (· + 1) h.last⟩
    have happend := h.newest.append (Nat.zero_le _) fits_init { entry with id := log.last + 1 }
    rw [newestOf_append h.newest.holds] at happend
    simp only [MockJournal.call, add, h.last]
    exact happend

/-- The mock server's journal holds the last entries that were added since it was
last cleared, numbered in the same way. -/
theorem holds_last (calls : List (Call (Entry ε))) :
    let log := Log.after (fun id entry => { entry with id }) calls
    let j := calls.foldl MockJournal.call ⟨[], 0⟩
    Newest Fits log.recent j.entries ∧ j.last = log.last ∧
      j.entries.map Entry.id = List.range' (j.last + 1 - j.entries.length) j.entries.length := by
  have hkeeps : Keeps (Log.after (fun id entry => { entry with id }) calls) (calls.foldl MockJournal.call ⟨[], 0⟩) := by
    refine Log.simulates (fun _ _ next h => h.call next) ?_ calls
    exact ⟨⟨List.suffix_rfl, Nat.zero_le _, fun _ hother _ => hother⟩, rfl⟩
  refine ⟨hkeeps.newest, hkeeps.last, ?_⟩
  rw [hkeeps.last]
  exact Log.numbered_suffix Entry.id (fun _ _ => rfl) calls hkeeps.newest.suffix

end MockJournal

end Gostman.Capture
