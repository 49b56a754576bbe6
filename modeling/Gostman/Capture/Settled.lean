import Gostman.Capture.Hold
/-!
# What becomes of a held exchange

Whatever the order of the steps, no two exchanges are held under one id, and an
exchange takes at most one decision.  The invariant is in three parts: who holds
which entry of the map, where the decisions are, and what was reported.
-/

namespace Gostman.Capture

open Gostman.Lib

/-! ## Who holds what -/

section

variable {heldBy : Nat → Option Held} {live : Nat → Bool} {holds : Holds}

/-- The entries of the map are those of the exchanges that are in `hold`. -/
structure Seated (heldBy : Nat → Option Held) (live : Nat → Bool) (holds : Holds) : Prop where
  last : ∀ caller held, heldBy caller = some held → held.id ≤ holds.last
  single : ∀ caller other held held', heldBy caller = some held → heldBy other = some held' → held.id = held'.id →
    caller = other
  read : ∀ id held, holds.pending.read id = some held ↔ ∃ caller, live caller = true ∧ heldBy caller = some held ∧ held.id = id
  nodup : holds.pending.keys.Nodup
  fits : holds.pending.length ≤ maxHeld

theorem Seated.enter (h : Seated heldBy live holds) {caller : Nat} {held entered : Held} {next : Holds}
    (hnone : heldBy caller = none) (henter : holds.enter held = some (entered, next)) :
    Seated (Function.update heldBy caller (some entered)) (Function.update live caller true) next ∧
      entered.id = next.last ∧ next.last = holds.last + 1 := by
  unfold Holds.enter at henter
  split_ifs at henter with hfull
  obtain ⟨rfl, rfl⟩ := Prod.mk.inj (Option.some.inj henter)
  have hfresh : ∀ other old, heldBy other = some old → old.id ≠ holds.last + 1 := by
    intro other old hold
    have hle := h.last other old hold
    omega
  have hread : holds.pending.read (holds.last + 1) = none := by
    cases hread : holds.pending.read (holds.last + 1) with
    | none => rfl
    | some old =>
      obtain ⟨other, -, hold, hid⟩ := (h.read _ _).1 hread
      exact absurd hid (hfresh other old hold)
  refine ⟨⟨?_, ?_, ?_, ?_, ?_⟩, rfl, rfl⟩
  · intro other old hold
    obtain rfl | hne := eq_or_ne other caller
    · rw [Function.update_self] at hold
      obtain rfl := Option.some.inj hold
      exact Nat.le_refl _
    · rw [Function.update_of_ne hne] at hold
      exact Nat.le_succ_of_le (h.last other old hold)
  · intro first second a b ha hb hid
    obtain rfl | hfirst := eq_or_ne first caller
    · obtain rfl | hsecond := eq_or_ne second first
      · rfl
      · rw [Function.update_self] at ha
        rw [Function.update_of_ne hsecond] at hb
        obtain rfl := Option.some.inj ha
        exact absurd hid.symm (hfresh second b hb)
    · rw [Function.update_of_ne hfirst] at ha
      obtain rfl | hsecond := eq_or_ne second caller
      · rw [Function.update_self] at hb
        obtain rfl := Option.some.inj hb
        exact absurd hid (hfresh first a ha)
      · rw [Function.update_of_ne hsecond] at hb
        exact h.single first second a b ha hb hid
  · intro id old
    rw [Record.read_put]
    split_ifs with hid
    · subst hid
      constructor
      · intro heq
        obtain rfl := Option.some.inj heq
        exact ⟨caller, Function.update_self .., Function.update_self .., rfl⟩
      · rintro ⟨other, -, hold, hid⟩
        obtain rfl | hne := eq_or_ne other caller
        · rw [Function.update_self] at hold
          exact hold
        · rw [Function.update_of_ne hne] at hold
          exact absurd hid (hfresh other old hold)
    · rw [h.read]
      constructor
      · rintro ⟨other, hlive, hold, hother⟩
        have hne : other ≠ caller := by
          rintro rfl
          rw [hnone] at hold
          cases hold
        refine ⟨other, ?_, ?_, hother⟩
        · rwa [Function.update_of_ne hne]
        · rwa [Function.update_of_ne hne]
      · rintro ⟨other, hlive, hold, hother⟩
        have hne : other ≠ caller := by
          rintro rfl
          rw [Function.update_self] at hold
          obtain rfl := Option.some.inj hold
          exact hid hother.symm
        rw [Function.update_of_ne hne] at hlive hold
        exact ⟨other, hlive, hold, hother⟩
  · exact Record.nodup_put h.nodup _ _
  · rw [Record.length_put]
    have hfits := h.fits
    split_ifs <;> omega

theorem Seated.leave (h : Seated heldBy live holds) {caller : Nat} {held : Held} (hheld : heldBy caller = some held) :
    Seated heldBy (Function.update live caller false) (holds.leave held.id) := by
  refine ⟨h.last, h.single, ?_, ?_, ?_⟩
  · intro id old
    rw [Holds.leave, Record.read_remove]
    split_ifs with hid
    · refine iff_of_false (by simp) ?_
      rintro ⟨other, hlive, hold, hother⟩
      have hsame := h.single other caller old held hold hheld (hother.trans hid)
      rw [hsame, Function.update_self] at hlive
      cases hlive
    · rw [h.read]
      refine exists_congr fun other => ?_
      obtain rfl | hne := eq_or_ne other caller
      · refine iff_of_false ?_ ?_
        · rintro ⟨-, hold, hother⟩
          rw [hheld] at hold
          obtain rfl := Option.some.inj hold
          exact hid hother.symm
        · rw [Function.update_self]
          rintro ⟨hlive, -⟩
          cases hlive
      · rw [Function.update_of_ne hne]
  · have hsub : (holds.pending.remove held.id).keys.Sublist holds.pending.keys :=
      List.Sublist.map _ List.filter_sublist
    exact h.nodup.sublist hsub
  · exact (List.length_filter_le _ _).trans h.fits

end

/-! ## Where the decisions are -/

section

variable {lib : Library} {heldBy : Nat → Option Held} {took : Nat → Option (Nat × Decision)}
  {answers : Nat → Option (Nat × Decision)} {releasers : Nat → Releaser}

/-- A release that succeeded put its decision in the channel, and it is still there or
was taken.  What is there or was taken comes from a release that succeeded. -/
structure Answered (lib : Library) (heldBy : Nat → Option Held) (took answers : Nat → Option (Nat × Decision))
    (releasers : Nat → Releaser) : Prop where
  found : ∀ releaser held decision, releasers releaser = .found held decision → ∃ caller, heldBy caller = some held
  checked : ∀ releaser id decision, releasers releaser = .done id decision (.ok ()) →
    ∃ caller held, heldBy caller = some held ∧ held.id = id ∧ decision.check lib held.phase = .ok ()
  answer : ∀ id releaser decision, answers id = some (releaser, decision) →
    releasers releaser = .done id decision (.ok ())
  taken : ∀ caller held releaser decision, heldBy caller = some held → took caller = some (releaser, decision) →
    releasers releaser = .done held.id decision (.ok ())
  kept : ∀ releaser id decision, releasers releaser = .done id decision (.ok ()) →
    answers id = some (releaser, decision) ∨
      ∃ caller held, heldBy caller = some held ∧ held.id = id ∧ took caller = some (releaser, decision)

theorem update_of_some {α β : Type} [DecidableEq α] {f : α → Option β} {a b : α} {c : β} {v : Option β} (hnone : f a = none)
    (h : f b = some c) : Function.update f a v b = some c := by
  have hne : b ≠ a := by
    rintro rfl
    rw [hnone] at h
    cases h
  rwa [Function.update_of_ne hne]

theorem Answered.enter (h : Answered lib heldBy took answers releasers) {caller : Nat} {held : Held}
    (hnone : heldBy caller = none) (htook : took caller = none) :
    Answered lib (Function.update heldBy caller (some held)) took answers releasers := by
  refine ⟨?_, ?_, h.answer, ?_, ?_⟩
  · intro releaser old decision hfound
    obtain ⟨other, hother⟩ := h.found releaser old decision hfound
    exact ⟨other, update_of_some hnone hother⟩
  · intro releaser id decision hdone
    obtain ⟨other, old, hother, hid, hcheck⟩ := h.checked releaser id decision hdone
    exact ⟨other, old, update_of_some hnone hother, hid, hcheck⟩
  · intro other old releaser decision hother htaken
    have hne : other ≠ caller := by
      rintro rfl
      rw [htook] at htaken
      cases htaken
    rw [Function.update_of_ne hne] at hother
    exact h.taken other old releaser decision hother htaken
  · intro releaser id decision hdone
    obtain hanswer | ⟨other, old, hother, hid, htaken⟩ := h.kept releaser id decision hdone
    · exact .inl hanswer
    · exact .inr ⟨other, old, update_of_some hnone hother, hid, htaken⟩

theorem Answered.receive (h : Answered lib heldBy took answers releasers) {caller releaser : Nat} {held : Held}
    {decision : Decision} (hheld : heldBy caller = some held) (htook : took caller = none)
    (hanswer : answers held.id = some (releaser, decision)) :
    Answered lib heldBy (Function.update took caller (some (releaser, decision))) (Function.update answers held.id none)
      releasers := by
  refine ⟨h.found, h.checked, ?_, ?_, ?_⟩
  · intro id other old hother
    have hne : id ≠ held.id := by
      rintro rfl
      rw [Function.update_self] at hother
      cases hother
    rw [Function.update_of_ne hne] at hother
    exact h.answer id other old hother
  · intro other old sender sent hother htaken
    obtain rfl | hne := eq_or_ne other caller
    · rw [Function.update_self] at htaken
      rw [hheld] at hother
      obtain rfl := Option.some.inj hother
      obtain ⟨rfl, rfl⟩ := Prod.mk.inj (Option.some.inj htaken)
      exact h.answer _ _ _ hanswer
    · rw [Function.update_of_ne hne] at htaken
      exact h.taken other old sender sent hother htaken
  · intro sender id sent hdone
    obtain hin | ⟨other, old, hother, hid, htaken⟩ := h.kept sender id sent hdone
    · obtain rfl | hne := eq_or_ne id held.id
      · rw [hanswer] at hin
        obtain ⟨rfl, rfl⟩ := Prod.mk.inj (Option.some.inj hin)
        exact .inr ⟨caller, held, hheld, rfl, Function.update_self ..⟩
      · rw [Function.update_of_ne hne]
        exact .inl hin
    · exact .inr ⟨other, old, hother, hid, update_of_some htook htaken⟩

/-- A release that is not done comes to an end without sending. -/
theorem Answered.refuse (h : Answered lib heldBy took answers releasers) {releaser : Nat} {place : Releaser}
    (hold : ∀ id decision, releasers releaser ≠ .done id decision (.ok ()))
    (hplace : ∀ id decision, place ≠ .done id decision (.ok ()))
    (hfound : ∀ held decision, place = .found held decision → ∃ caller, heldBy caller = some held) :
    Answered lib heldBy took answers (Function.update releasers releaser place) := by
  have hback {other id : Nat} {decision : Decision}
      (hdone : Function.update releasers releaser place other = .done id decision (.ok ())) :
      releasers other = .done id decision (.ok ()) := by
    obtain rfl | hne := eq_or_ne other releaser
    · rw [Function.update_self] at hdone
      exact absurd hdone (hplace id decision)
    · rwa [Function.update_of_ne hne] at hdone
  have hforth {other id : Nat} {decision : Decision} (hdone : releasers other = .done id decision (.ok ())) :
      Function.update releasers releaser place other = .done id decision (.ok ()) := by
    have hne : other ≠ releaser := by
      rintro rfl
      exact hold id decision hdone
    rwa [Function.update_of_ne hne]
  refine ⟨?_, ?_, ?_, ?_, ?_⟩
  · intro other held decision hother
    obtain rfl | hne := eq_or_ne other releaser
    · rw [Function.update_self] at hother
      exact hfound held decision hother
    · rw [Function.update_of_ne hne] at hother
      exact h.found other held decision hother
  · exact fun other id decision hdone => h.checked other id decision (hback hdone)
  · exact fun id other decision hanswer => hforth (h.answer id other decision hanswer)
  · exact fun caller held other decision hheld htook => hforth (h.taken caller held other decision hheld htook)
  · exact fun other id decision hdone => h.kept other id decision (hback hdone)

theorem Answered.send (h : Answered lib heldBy took answers releasers) {releaser : Nat} {held : Held} {decision : Decision}
    (hfound : releasers releaser = .found held decision) (hcheck : decision.check lib held.phase = .ok ())
    (hempty : answers held.id = none) :
    Answered lib heldBy took (Function.update answers held.id (some (releaser, decision)))
      (Function.update releasers releaser (.done held.id decision (.ok ()))) := by
  obtain ⟨caller, hcaller⟩ := h.found releaser held decision hfound
  have hforth {other id : Nat} {sent : Decision} (hdone : releasers other = .done id sent (.ok ())) :
      Function.update releasers releaser (.done held.id decision (.ok ())) other = .done id sent (.ok ()) := by
    have hne : other ≠ releaser := by
      rintro rfl
      rw [hfound] at hdone
      cases hdone
    rwa [Function.update_of_ne hne]
  refine ⟨?_, ?_, ?_, ?_, ?_⟩
  · intro other old sent hother
    obtain rfl | hne := eq_or_ne other releaser
    · rw [Function.update_self] at hother
      cases hother
    · rw [Function.update_of_ne hne] at hother
      exact h.found other old sent hother
  · intro other id sent hdone
    obtain rfl | hne := eq_or_ne other releaser
    · rw [Function.update_self] at hdone
      cases hdone
      exact ⟨caller, held, hcaller, rfl, hcheck⟩
    · rw [Function.update_of_ne hne] at hdone
      exact h.checked other id sent hdone
  · intro id other sent hanswer
    obtain rfl | hne := eq_or_ne id held.id
    · rw [Function.update_self] at hanswer
      obtain ⟨rfl, rfl⟩ := Prod.mk.inj (Option.some.inj hanswer)
      exact Function.update_self ..
    · rw [Function.update_of_ne hne] at hanswer
      exact hforth (h.answer id other sent hanswer)
  · exact fun other old sender sent hother htook => hforth (h.taken other old sender sent hother htook)
  · intro other id sent hdone
    obtain rfl | hne := eq_or_ne other releaser
    · rw [Function.update_self] at hdone
      cases hdone
      exact .inl (Function.update_self ..)
    · rw [Function.update_of_ne hne] at hdone
      obtain hanswer | htaken := h.kept other id sent hdone
      · exact .inl (update_of_some hempty hanswer)
      · exact .inr htaken

end

/-! ## What was reported -/

section

variable {heldBy : Nat → Option Held} {stage : Nat → Nat} {reports : List Report} {last : Nat}

def Report.id : Report → Nat
  | .held id => id
  | .settled id => id

def reportsOf (reports : List Report) (id : Nat) : List Report :=
  reports.filter fun report => report.id = id

/-- Each exchange has made its first reports, as many as its stage says. -/
structure Reported (heldBy : Nat → Option Held) (stage : Nat → Nat) (reports : List Report) (last : Nat) : Prop where
  made : ∀ caller held, heldBy caller = some held →
    reportsOf reports held.id = [Report.held held.id, .settled held.id].take (stage caller)
  last : ∀ report ∈ reports, report.id ≤ last

theorem Reported.enter (h : Reported heldBy stage reports last) {caller : Nat} {held : Held}
    (hstage : stage caller = 0) (hid : held.id = last + 1) :
    Reported (Function.update heldBy caller (some held)) stage reports (last + 1) := by
  constructor
  · intro other old hother
    obtain rfl | hne := eq_or_ne other caller
    · rw [Function.update_self] at hother
      obtain rfl := Option.some.inj hother
      rw [hstage, List.take_zero, reportsOf, List.filter_eq_nil_iff]
      intro report hreport
      have hle := h.last report hreport
      simp
      omega
    · rw [Function.update_of_ne hne] at hother
      exact h.made other old hother
  · exact fun report hreport => Nat.le_succ_of_le (h.last report hreport)

theorem Reported.report (h : Reported heldBy stage reports last) {caller : Nat} {held : Held} {report : Report}
    (hheld : heldBy caller = some held) (hsingle : ∀ other old, heldBy other = some old → old.id = held.id → other = caller)
    (hle : held.id ≤ last) (hid : report.id = held.id)
    (hnext : [Report.held held.id, .settled held.id].take (stage caller) ++ [report] =
      [Report.held held.id, .settled held.id].take (stage caller + 1)) :
    Reported heldBy (Function.update stage caller (stage caller + 1)) (reports ++ [report]) last := by
  constructor
  · intro other old hother
    have hmade := h.made other old hother
    unfold reportsOf at hmade ⊢
    rw [List.filter_append, hmade]
    obtain rfl | hne := eq_or_ne other caller
    · rw [hheld] at hother
      obtain rfl := Option.some.inj hother
      rw [Function.update_self, List.filter_singleton, hid]
      simpa using hnext
    · have hold : ¬ report.id = old.id := fun heq => hne (hsingle other old hother (heq.symm.trans hid))
      rw [Function.update_of_ne hne, List.filter_singleton]
      simp [hold]
  · intro other hother
    obtain hother | hother := List.mem_append.1 hother
    · exact h.last other hother
    · rw [List.mem_singleton.1 hother, hid]
      exact hle

end

/-! ## The invariant -/

namespace Holder

def held? : Holder → Option Held
  | .ready _ | .skipped => none
  | .entered held | .waiting held | .chosen held _ | .told held _ | .returned held _ => some held

def isLive : Holder → Bool
  | .ready _ | .skipped | .returned _ _ => false
  | .entered _ | .waiting _ | .chosen _ _ | .told _ _ => true

def outcome? : Holder → Option Outcome
  | .ready _ | .skipped | .entered _ | .waiting _ => none
  | .chosen _ outcome | .told _ outcome | .returned _ outcome => some outcome

def stage : Holder → Nat
  | .ready _ | .skipped | .entered _ => 0
  | .waiting _ | .chosen _ _ => 1
  | .told _ _ | .returned _ _ => 2

def took (holder : Holder) : Option (Nat × Decision) :=
  holder.outcome?.bind fun outcome => outcome.sender.map (·, outcome.decision)

end Holder

/-- The verdict is what the decision says, and there is no decision without a sender. -/
def Outcome.IsProper (o : Outcome) : Prop :=
  match o.sender with
  | none => o.decision = {} ∧ (o.verdict = .timedOut ∨ o.verdict = .dropped)
  | some _ => o.verdict = if o.decision.drop then .dropped else .edited

namespace State

def heldBy (s : State) (caller : Nat) : Option Held := (s.holders caller).held?
def live (s : State) (caller : Nat) : Bool := (s.holders caller).isLive
def stage (s : State) (caller : Nat) : Nat := (s.holders caller).stage
def took (s : State) (caller : Nat) : Option (Nat × Decision) := (s.holders caller).took

structure Sound (lib : Library) (s : State) : Prop where
  seated : Seated s.heldBy s.live s.holds
  answered : Answered lib s.heldBy s.took s.answers s.releasers
  reported : Reported s.heldBy s.stage s.reports s.holds.last
  judged : ∀ caller outcome, (s.holders caller).outcome? = some outcome → outcome.IsProper

variable {lib : Library} {s : State}

theorem comp_update {α β : Type} (f : α → β) (g : Nat → α) (a : Nat) (v : α) :
    (fun other => f (Function.update g a v other)) = Function.update (fun other => f (g other)) a (f v) :=
  Function.comp_update f g a v

theorem update_same {α : Type} {f : Nat → α} {a : Nat} {v : α} (h : f a = v) : Function.update f a v = f :=
  h ▸ Function.update_eq_self a f

theorem judged_update {holders : Nat → Holder}
    (hjudged : ∀ caller outcome, (holders caller).outcome? = some outcome → outcome.IsProper) {caller : Nat} {holder : Holder}
    (hholder : ∀ outcome, holder.outcome? = some outcome → outcome.IsProper) :
    ∀ other outcome, (Function.update holders caller holder other).outcome? = some outcome → outcome.IsProper := by
  intro other outcome houtcome
  obtain rfl | hne := eq_or_ne other caller
  · rw [Function.update_self] at houtcome
    exact hholder outcome houtcome
  · rw [Function.update_of_ne hne] at houtcome
    exact hjudged other outcome houtcome

theorem Sound.of_views {heldBy : Nat → Option Held} {live : Nat → Bool} {took : Nat → Option (Nat × Decision)}
    {stage : Nat → Nat} (hheldBy : s.heldBy = heldBy) (hlive : s.live = live) (htook : s.took = took)
    (hstage : s.stage = stage) (hseated : Seated heldBy live s.holds)
    (hanswered : Answered lib heldBy took s.answers s.releasers)
    (hreported : Reported heldBy stage s.reports s.holds.last)
    (hjudged : ∀ caller outcome, (s.holders caller).outcome? = some outcome → outcome.IsProper) : s.Sound lib := by
  subst hheldBy hlive htook hstage
  exact ⟨hseated, hanswered, hreported, hjudged⟩

theorem Sound.setHolder (h : s.Sound lib) {caller : Nat} {holder : Holder} (hheld : holder.held? = s.heldBy caller)
    (hlive : holder.isLive = s.live caller) (htook : holder.took = s.took caller) (hstage : holder.stage = s.stage caller)
    (hjudged : ∀ outcome, holder.outcome? = some outcome → outcome.IsProper) : (s.setHolder caller holder).Sound lib := by
  have hheldBy : (s.setHolder caller holder).heldBy = s.heldBy :=
    (comp_update Holder.held? s.holders caller holder).trans (update_same hheld.symm)
  have hlives : (s.setHolder caller holder).live = s.live :=
    (comp_update Holder.isLive s.holders caller holder).trans (update_same hlive.symm)
  have htooks : (s.setHolder caller holder).took = s.took :=
    (comp_update Holder.took s.holders caller holder).trans (update_same htook.symm)
  have hstages : (s.setHolder caller holder).stage = s.stage :=
    (comp_update Holder.stage s.holders caller holder).trans (update_same hstage.symm)
  exact .of_views hheldBy hlives htooks hstages h.seated h.answered h.reported (judged_update h.judged hjudged)

theorem Sound.report (h : s.Sound lib) {caller : Nat} {holder : Holder} {held : Held} {report : Report}
    (hold : s.heldBy caller = some held) (hheld : holder.held? = s.heldBy caller)
    (hlive : holder.isLive = s.live caller) (htook : holder.took = s.took caller) (hstage : holder.stage = s.stage caller + 1)
    (hjudged : ∀ outcome, holder.outcome? = some outcome → outcome.IsProper) (hid : report.id = held.id)
    (hnext : [Report.held held.id, .settled held.id].take (s.stage caller) ++ [report] =
      [Report.held held.id, .settled held.id].take (s.stage caller + 1)) :
    ({ s.setHolder caller holder with reports := s.reports ++ [report] } : State).Sound lib := by
  have hheldBy : (s.setHolder caller holder).heldBy = s.heldBy :=
    (comp_update Holder.held? s.holders caller holder).trans (update_same hheld.symm)
  have hlives : (s.setHolder caller holder).live = s.live :=
    (comp_update Holder.isLive s.holders caller holder).trans (update_same hlive.symm)
  have htooks : (s.setHolder caller holder).took = s.took :=
    (comp_update Holder.took s.holders caller holder).trans (update_same htook.symm)
  have hstages : (s.setHolder caller holder).stage = Function.update s.stage caller (s.stage caller + 1) :=
    (comp_update Holder.stage s.holders caller holder).trans (hstage ▸ rfl)
  have hreported := h.reported.report hold
    (fun other old hother hids => h.seated.single other caller old held hother hold hids)
    (h.seated.last caller held hold) hid hnext
  exact .of_views hheldBy hlives htooks hstages h.seated h.answered hreported (judged_update h.judged hjudged)

theorem step_sound (h : s.Sound lib) {move : Move} {s' : State} (hstep : s.step lib move = some s') : s'.Sound lib := by
  cases move with
  | enter caller =>
    simp only [step] at hstep
    cases hholder : s.holders caller <;> rw [hholder] at hstep <;> try cases hstep
    next held =>
      have hheld : s.heldBy caller = none := congrArg Holder.held? hholder
      have htook : s.took caller = none := congrArg Holder.took hholder
      have hlive : s.live caller = false := congrArg Holder.isLive hholder
      have hstage : s.stage caller = 0 := congrArg Holder.stage hholder
      simp only at hstep
      cases henter : s.holds.enter held with
      | none =>
        rw [henter] at hstep
        obtain rfl := Option.some.inj hstep
        exact h.setHolder hheld.symm hlive.symm htook.symm hstage.symm (by simp [Holder.outcome?])
      | some entry =>
        rw [henter] at hstep
        obtain ⟨entered, next⟩ := entry
        obtain rfl := Option.some.inj hstep
        obtain ⟨hseated, hid, hlast⟩ := h.seated.enter hheld henter
        have hheldBy := comp_update Holder.held? s.holders caller (.entered entered)
        have hlives := comp_update Holder.isLive s.holders caller (.entered entered)
        have htooks := (comp_update Holder.took s.holders caller (.entered entered)).trans (update_same htook)
        have hstages := (comp_update Holder.stage s.holders caller (.entered entered)).trans (update_same hstage)
        have hreported := h.reported.enter hstage (hid.trans hlast)
        rw [← hlast] at hreported
        exact .of_views hheldBy hlives htooks hstages hseated (h.answered.enter hheld htook) hreported
          (judged_update h.judged (by simp [Holder.outcome?]))
  | report caller =>
    simp only [step] at hstep
    cases hholder : s.holders caller <;> rw [hholder] at hstep <;> try cases hstep
    next held =>
      have hheld : s.heldBy caller = some held := by rw [heldBy, hholder]; rfl
      have hstage : s.stage caller = 0 := by rw [stage, hholder]; rfl
      apply h.report hheld
      · rw [hheld]; rfl
      · rw [live, hholder]; rfl
      · rw [took, hholder]; rfl
      · rw [hstage]; rfl
      · intro outcome houtcome
        cases houtcome
      · rfl
      · rw [hstage]; rfl
  | receive caller =>
    simp only [step] at hstep
    cases hholder : s.holders caller <;> rw [hholder] at hstep <;> try cases hstep
    next held =>
      have hheld : s.heldBy caller = some held := congrArg Holder.held? hholder
      have hlive : s.live caller = true := congrArg Holder.isLive hholder
      have htook : s.took caller = none := congrArg Holder.took hholder
      have hstage : s.stage caller = 1 := congrArg Holder.stage hholder
      simp only at hstep
      cases hanswer : s.answers held.id with
      | none => simp [hanswer] at hstep
      | some answer =>
        rw [hanswer] at hstep
        obtain ⟨sender, decision⟩ := answer
        obtain rfl := Option.some.inj hstep
        let holder := Holder.chosen held ⟨decision, if decision.drop then .dropped else .edited, some sender⟩
        have hheldBy := (comp_update Holder.held? s.holders caller holder).trans (update_same hheld)
        have hlives := (comp_update Holder.isLive s.holders caller holder).trans (update_same hlive)
        have htooks := comp_update Holder.took s.holders caller holder
        have hstages := (comp_update Holder.stage s.holders caller holder).trans (update_same hstage)
        refine .of_views hheldBy hlives htooks hstages h.seated (h.answered.receive hheld htook hanswer) h.reported
          (judged_update h.judged ?_)
        rintro outcome ⟨⟩
        rfl
  | timeOut caller =>
    simp only [step] at hstep
    cases hholder : s.holders caller <;> rw [hholder] at hstep <;> cases hstep
    next held =>
      refine h.setHolder (congrArg Holder.held? hholder).symm (congrArg Holder.isLive hholder).symm
        (congrArg Holder.took hholder).symm (congrArg Holder.stage hholder).symm ?_
      rintro outcome ⟨⟩
      exact ⟨rfl, .inl rfl⟩
  | cancel caller =>
    simp only [step] at hstep
    cases hholder : s.holders caller <;> rw [hholder] at hstep <;> cases hstep
    next held =>
      refine h.setHolder (congrArg Holder.held? hholder).symm (congrArg Holder.isLive hholder).symm
        (congrArg Holder.took hholder).symm (congrArg Holder.stage hholder).symm ?_
      rintro outcome ⟨⟩
      exact ⟨rfl, .inr rfl⟩
  | settled caller =>
    simp only [step] at hstep
    cases hholder : s.holders caller <;> rw [hholder] at hstep <;> cases hstep
    next held outcome =>
      have hheld : s.heldBy caller = some held := congrArg Holder.held? hholder
      have hstage : s.stage caller = 1 := congrArg Holder.stage hholder
      apply h.report hheld
      · rw [hheld]; rfl
      · rw [live, hholder]; rfl
      · rw [took, hholder]; rfl
      · rw [hstage]; rfl
      · rintro other ⟨⟩
        exact h.judged caller outcome (congrArg Holder.outcome? hholder)
      · rfl
      · rw [hstage]; rfl
  | leave caller =>
    simp only [step] at hstep
    cases hholder : s.holders caller <;> rw [hholder] at hstep <;> cases hstep
    next held outcome =>
      have hheld : s.heldBy caller = some held := congrArg Holder.held? hholder
      have htook : s.took caller = (Holder.returned held outcome).took := by rw [took, hholder]; rfl
      have hstage : s.stage caller = 2 := congrArg Holder.stage hholder
      have hheldBy := (comp_update Holder.held? s.holders caller (.returned held outcome)).trans (update_same hheld)
      have hlives := comp_update Holder.isLive s.holders caller (.returned held outcome)
      have htooks := (comp_update Holder.took s.holders caller (.returned held outcome)).trans (update_same htook)
      have hstages := (comp_update Holder.stage s.holders caller (.returned held outcome)).trans (update_same hstage)
      refine .of_views hheldBy hlives htooks hstages (h.seated.leave hheld) h.answered h.reported
        (judged_update h.judged ?_)
      rintro other ⟨⟩
      exact h.judged caller outcome (congrArg Holder.outcome? hholder)
  | find releaser =>
    simp only [step] at hstep
    cases hplace : s.releasers releaser <;> rw [hplace] at hstep <;> try cases hstep
    next id decision =>
      simp only at hstep
      have hold : ∀ id decision, s.releasers releaser ≠ .done id decision (.ok ()) := by simp [hplace]
      cases hread : s.holds.pending.read id with
      | none =>
        rw [hread] at hstep
        obtain rfl := Option.some.inj hstep
        exact ⟨h.seated, h.answered.refuse hold (by simp) (by simp), h.reported, h.judged⟩
      | some held =>
        rw [hread] at hstep
        obtain rfl := Option.some.inj hstep
        obtain ⟨caller, -, hheld, -⟩ := (h.seated.read id held).1 hread
        refine ⟨h.seated, h.answered.refuse hold (by simp) ?_, h.reported, h.judged⟩
        rintro _ _ ⟨⟩
        exact ⟨caller, hheld⟩
  | send releaser =>
    simp only [step] at hstep
    cases hplace : s.releasers releaser <;> rw [hplace] at hstep <;> try cases hstep
    next held decision =>
      simp only at hstep
      have hold : ∀ id decision, s.releasers releaser ≠ .done id decision (.ok ()) := by simp [hplace]
      cases hcheck : decision.check lib held.phase with
      | error refusal =>
        rw [hcheck] at hstep
        obtain rfl := Option.some.inj hstep
        exact ⟨h.seated, h.answered.refuse hold (by simp) (by simp), h.reported, h.judged⟩
      | ok =>
        rw [hcheck] at hstep
        simp only at hstep
        cases hanswer : s.answers held.id with
        | some answer =>
          rw [hanswer] at hstep
          obtain rfl := Option.some.inj hstep
          exact ⟨h.seated, h.answered.refuse hold (by simp) (by simp), h.reported, h.judged⟩
        | none =>
          rw [hanswer] at hstep
          obtain rfl := Option.some.inj hstep
          exact ⟨h.seated, h.answered.send hplace hcheck hanswer, h.reported, h.judged⟩

theorem Reached.sound {exchanges : Nat → Held} {releases : Nat → Nat × Decision}
    (h : Reached lib exchanges releases s) : s.Sound lib := by
  induction h with
  | start =>
    refine ⟨⟨?_, ?_, ?_, List.nodup_nil, Nat.zero_le _⟩, ⟨?_, ?_, ?_, ?_, ?_⟩, ⟨?_, ?_⟩, ?_⟩ <;>
      simp [State.start, heldBy, live, Holder.held?, Holder.isLive, Holder.outcome?]
  | step move _ hstep ih => exact step_sound ih hstep

/-! ## Holding and releasing -/

theorem mem_list {holds : Holds} (hnodup : holds.pending.keys.Nodup) (hid : ∀ id held, holds.pending.read id = some held → held.id = id)
    (held : Held) : held ∈ holds.list ↔ holds.pending.read held.id = some held := by
  rw [Holds.list, List.mem_insertionSort, List.mem_map]
  constructor
  · rintro ⟨⟨id, held⟩, hmem, rfl⟩
    have hread := Record.read_of_mem hnodup hmem
    rw [hid id held hread]
    exact hread
  · intro hread
    exact ⟨(held.id, held), Record.mem_of_read hread, rfl⟩

/-- At most so many exchanges are held, and those are the ones that are in `hold`, in
the order they came and each under an id of its own. -/
theorem held_listed {exchanges : Nat → Held} {releases : Nat → Nat × Decision} (h : Reached lib exchanges releases s) :
    s.holds.list.length ≤ maxHeld ∧ (s.holds.list.map Held.id).Pairwise (· < ·) ∧
      (∀ held, held ∈ s.holds.list ↔ ∃ caller, (s.holders caller).isLive = true ∧ (s.holders caller).held? = some held) ∧
      ∀ caller other held held', (s.holders caller).held? = some held → (s.holders other).held? = some held' →
        held.id = held'.id → caller = other := by
  have hseated := h.sound.seated
  have hid : ∀ id held, s.holds.pending.read id = some held → held.id = id := by
    intro id held hread
    obtain ⟨_, -, -, hid⟩ := (hseated.read id held).1 hread
    exact hid
  have hmem := mem_list hseated.nodup hid
  refine ⟨?_, ?_, fun held => ?_, hseated.single⟩
  · rw [Holds.list, List.length_insertionSort, List.length_map]
    exact hseated.fits
  · have hsorted : s.holds.list.Pairwise fun a b => a.id ≤ b.id := List.pairwise_insertionSort _ _
    have hids : (s.holds.pending.map Prod.snd).map Held.id = s.holds.pending.keys := by
      rw [List.map_map]
      refine List.map_congr_left fun entry hentry => ?_
      exact hid entry.1 entry.2 (Record.read_of_mem hseated.nodup hentry)
    have hnodup : (s.holds.list.map Held.id).Nodup := by
      have hperm : (s.holds.list.map Held.id).Perm s.holds.pending.keys :=
        hids ▸ (List.perm_insertionSort _ _).map Held.id
      exact hperm.nodup_iff.2 hseated.nodup
    have hle : (s.holds.list.map Held.id).Pairwise (· ≤ ·) := List.pairwise_map.2 hsorted
    exact (hle.and hnodup).imp fun hab => lt_of_le_of_ne hab.1 hab.2
  · rw [hmem, hseated.read]
    constructor
    · rintro ⟨caller, hlive, hheld, -⟩
      exact ⟨caller, hlive, hheld⟩
    · rintro ⟨caller, hlive, hheld⟩
      exact ⟨caller, hlive, hheld, rfl⟩

/-- An exchange goes on with a decision only if a release of its id gave it, passed the
check and succeeded.  At most two releases of an id succeed, and if two do, the
exchange took the decision of one of them. -/
theorem release_taken {exchanges : Nat → Held} {releases : Nat → Nat × Decision} (h : Reached lib exchanges releases s) :
    (∀ caller held outcome, (s.holders caller).held? = some held → (s.holders caller).outcome? = some outcome →
      (outcome.sender = none ∧ outcome.decision = {} ∧ (outcome.verdict = .timedOut ∨ outcome.verdict = .dropped)) ∨
      ∃ releaser, outcome.sender = some releaser ∧
        s.releasers releaser = .done held.id outcome.decision (.ok ()) ∧
        outcome.decision.check lib held.phase = .ok () ∧
        outcome.verdict = if outcome.decision.drop then .dropped else .edited) ∧
    ∀ first second id d d', first ≠ second → s.releasers first = .done id d (.ok ()) →
      s.releasers second = .done id d' (.ok ()) →
      (∃ caller held outcome, (s.holders caller).held? = some held ∧ held.id = id ∧
        (s.holders caller).outcome? = some outcome ∧
        (outcome.sender = some first ∧ outcome.decision = d ∨ outcome.sender = some second ∧ outcome.decision = d')) ∧
      ∀ third d'', s.releasers third = .done id d'' (.ok ()) → third = first ∨ third = second := by
  have hsound := h.sound
  constructor
  · intro caller held outcome hheld houtcome
    have hproper := hsound.judged caller outcome houtcome
    unfold Outcome.IsProper at hproper
    cases hsender : outcome.sender with
    | none =>
      rw [hsender] at hproper
      exact .inl ⟨rfl, hproper⟩
    | some releaser =>
      rw [hsender] at hproper
      have htook : s.took caller = some (releaser, outcome.decision) := by
        rw [took, Holder.took, houtcome, Option.bind_some, hsender]
        rfl
      have hdone := hsound.answered.taken caller held releaser outcome.decision hheld htook
      obtain ⟨other, old, hother, hid, hcheck⟩ := hsound.answered.checked releaser held.id outcome.decision hdone
      have hsame := hsound.seated.single other caller old held hother hheld hid
      rw [hsame] at hother
      obtain rfl : old = held := Option.some.inj (hother.symm.trans hheld)
      exact .inr ⟨releaser, rfl, hdone, hcheck, hproper⟩
  · intro first second id d d' hne hfirst hsecond
    -- Of the decisions that were sent one is in the channel and one was taken.
    have hsame {one other : Nat} {sent sent' : Decision}
        (hone : ∃ caller held, s.heldBy caller = some held ∧ held.id = id ∧ s.took caller = some (one, sent))
        (hother : ∃ caller held, s.heldBy caller = some held ∧ held.id = id ∧ s.took caller = some (other, sent')) :
        one = other := by
      obtain ⟨caller, held, hheld, hid, htook⟩ := hone
      obtain ⟨caller', held', hheld', hid', htook'⟩ := hother
      have hcaller := hsound.seated.single caller caller' held held' hheld hheld' (hid.trans hid'.symm)
      rw [hcaller, htook'] at htook
      exact congrArg Prod.fst (Option.some.inj htook.symm)
    have hin {one other : Nat} {sent sent' : Decision} (hone : s.answers id = some (one, sent))
        (hother : s.answers id = some (other, sent')) : one = other := by
      rw [hone] at hother
      exact congrArg Prod.fst (Option.some.inj hother)
    have hoffered {sent : Decision} {one : Nat}
        (hone : ∃ caller held, s.heldBy caller = some held ∧ held.id = id ∧ s.took caller = some (one, sent))
        (hsent : one = first ∧ sent = d ∨ one = second ∧ sent = d') :
        ∃ caller held outcome, (s.holders caller).held? = some held ∧ held.id = id ∧
          (s.holders caller).outcome? = some outcome ∧
          (outcome.sender = some first ∧ outcome.decision = d ∨
            outcome.sender = some second ∧ outcome.decision = d') := by
      obtain ⟨caller, held, hheld, hid, htook⟩ := hone
      obtain ⟨outcome, houtcome, hsender⟩ := Option.bind_eq_some_iff.1 htook
      obtain ⟨sender, hsent', heq⟩ := Option.map_eq_some_iff.1 hsender
      obtain ⟨rfl, rfl⟩ := Prod.mk.inj heq
      refine ⟨caller, held, outcome, hheld, hid, houtcome, ?_⟩
      rw [hsent', Option.some.injEq, Option.some.injEq]
      exact hsent
    have hkept := fun releaser sent => hsound.answered.kept releaser id sent
    obtain hfirst | hfirst := hkept first d hfirst <;> obtain hsecond | hsecond := hkept second d' hsecond
    · exact absurd (hin hfirst hsecond) hne
    · refine ⟨hoffered hsecond (.inr ⟨rfl, rfl⟩), fun third d'' hthird => ?_⟩
      obtain hthird | hthird := hkept third d'' hthird
      · exact .inl (hin hthird hfirst)
      · exact .inr (hsame hthird hsecond)
    · refine ⟨hoffered hfirst (.inl ⟨rfl, rfl⟩), fun third d'' hthird => ?_⟩
      obtain hthird | hthird := hkept third d'' hthird
      · exact .inr (hin hthird hsecond)
      · exact .inl (hsame hthird hfirst)
    · exact absurd (hsame hfirst hsecond) hne

/-- The reports about an exchange are that it is held and then that it is settled, as
far as it has come. -/
theorem hooks_paired {exchanges : Nat → Held} {releases : Nat → Nat × Decision} (h : Reached lib exchanges releases s) :
    ∀ caller held, (s.holders caller).held? = some held →
      reportsOf s.reports held.id = [Report.held held.id, .settled held.id].take (s.holders caller).stage :=
  h.sound.reported.made

/-! ## Two releases of one exchange -/

def bare : Library where
  isBase64 _ := false
  parse _ := none

def bareHeld : Held where
  id := 0
  phase := .request
  rule := "Rule 1"
  method := "GET"
  url := "http://localhost/"
  status := 0
  headers := []
  body := ""
  bodyEncoding := ""

/-- The first release lets the exchange go on, all others drop it. -/
def twoReleases (releaser : Nat) : Nat × Decision :=
  (1, if releaser = 0 then {} else { drop := true })

/-- Both find the exchange before it leaves, and the second sends when the first
decision was taken. -/
theorem exists_two_released : ∃ s, Reached bare (fun _ => bareHeld) twoReleases s ∧
    s.releasers 0 = .done 1 {} (.ok ()) ∧ s.releasers 1 = .done 1 { drop := true } (.ok ()) ∧
    (s.holders 0).held? = some { bareHeld with id := 1 } ∧ (s.holders 0).outcome? = some ⟨{}, .edited, some 0⟩ := by
  have h0 := @Reached.start bare (fun _ => bareHeld) twoReleases
  have h1 := Reached.step (.enter 0) h0 rfl
  have h2 := Reached.step (.report 0) h1 rfl
  have h3 := Reached.step (.find 0) h2 rfl
  have h4 := Reached.step (.find 1) h3 rfl
  have h5 := Reached.step (.send 0) h4 rfl
  have h6 := Reached.step (.receive 0) h5 rfl
  have h7 := Reached.step (.send 1) h6 rfl
  exact ⟨_, h7, rfl, rfl, rfl, rfl⟩

theorem two_released_listed : ∃ s, Reached bare (fun _ => bareHeld) twoReleases s ∧ s.holds.list.length ≤ maxHeld :=
  have ⟨s, h, _⟩ := exists_two_released
  ⟨s, h, (held_listed h).1⟩

theorem two_released_taken : ∃ s, Reached bare (fun _ => bareHeld) twoReleases s ∧
    s.releasers 0 = .done 1 {} (.ok ()) ∧ s.releasers 1 = .done 1 { drop := true } (.ok ()) ∧
    ∀ third d, s.releasers third = .done 1 d (.ok ()) → third = 0 ∨ third = 1 :=
  have ⟨s, h, hfirst, hsecond, _⟩ := exists_two_released
  ⟨s, h, hfirst, hsecond, ((release_taken h).2 0 1 1 _ _ (by decide) hfirst hsecond).2⟩

theorem two_released_reported : ∃ s, Reached bare (fun _ => bareHeld) twoReleases s ∧
    reportsOf s.reports 1 = [Report.held 1, .settled 1].take (s.holders 0).stage :=
  have ⟨s, h, _, _, hheld, _⟩ := exists_two_released
  ⟨s, h, hooks_paired h 0 _ hheld⟩

end State

end Gostman.Capture
