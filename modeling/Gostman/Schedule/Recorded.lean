import Gostman.Schedule.Held
/-!
# Every request is recorded once

Where no script changes the course of the run, each worker goes through its
unit from the first request to the last and records each of them.
-/

namespace Gostman.Schedule

variable {ρ : Type} {setting : Setting ρ}

/-- No cancellation, no bail, and no script that jumps, stops or ends. -/
structure Plain (setting : Setting ρ) : Prop where
  uncancelled : setting.cancellable = false
  bail : setting.options.bail = false
  action : ∀ iteration index sent,
    (setting.attempt iteration index sent).flow.action = .none ∨
      (setting.attempt iteration index sent).flow.action = .skip

structure Quiet (s : Shared ρ) : Prop where
  halted : s.halted = false
  cancelled : s.cancelled = false
  ended : s.ended = []

def Setting.resultOf (setting : Setting ρ) (current : WorkUnit) (index cursor : Nat) : Result ρ :=
  { setting.attempt current.iteration index (cursor + 1) with
    iteration := setting.iterationNumber current }

def Setting.full (setting : Setting ρ) (position : Nat) : List (Result ρ) :=
  (setting.unitAt position).indexes.zipIdx.map fun (index, cursor) =>
    setting.resultOf (setting.unitAt position) index cursor

theorem full_length (position : Nat) :
    (setting.full position).length = (setting.unitAt position).indexes.length := by
  simp [Setting.full]

theorem follow_plain (h : Plain setting) (current : WorkUnit) (cursor : Nat) (name : String)
    (iteration index sent next : Nat) :
    setting.follow current cursor (setting.attempt iteration index sent).flow name next =
      { cursor := cursor + 1 } := by
  unfold Setting.follow
  rcases h.action iteration index sent with haction | haction <;> rw [haction]

theorem passedOver_plain (h : Plain setting) (name : String) (number iteration index sent : Nat) :
    setting.passedOver (setting.attempt iteration index sent).flow name number = "" := by
  unfold Setting.passedOver
  rcases h.action iteration index sent with haction | haction <;> rw [haction]

theorem attempted_plain (h : Plain setting) (position cursor sent : Nat) (progress : Progress) :
    setting.attempted position cursor sent progress =
      ({ cursor := cursor + 1 }, progress.note cursor (cursor + 1) "",
        setting.resultOf (setting.unitAt position) ((setting.unitAt position).indexes.getD cursor 0) sent) := by
  simp only [Setting.attempted, follow_plain h, passedOver_plain h]
  rfl

theorem WorkerStep.quiet (h : Plain setting) {w w' : Worker ρ} {s s' : Shared ρ} (hquiet : Quiet s)
    (hstep : WorkerStep setting w s w' s') : Quiet s' := by
  cases hstep with
  | @attempt _ position cursor sent progress following noted result hattempt =>
    rw [attempted_plain h] at hattempt
    obtain ⟨rfl, -⟩ := Prod.mk.inj hattempt
    exact ⟨by simp [hquiet.halted], hquiet.cancelled, by simp [hquiet.ended]⟩
  | bail _ hbail =>
    rw [h.bail] at hbail
    exact absurd hbail.1 (by simp)
  | _ => exact ⟨hquiet.halted, hquiet.cancelled, hquiet.ended⟩

theorem quiet_of_reachable (h : Plain setting) {crew : Nat} {state : State ρ}
    (hreach : Reachable setting crew state) : Quiet state.shared := by
  induction hreach with
  | refl => exact ⟨rfl, rfl, rfl⟩
  | tail _ hstep ih =>
    cases hstep with
    | perform _ _ => exact ⟨ih.halted, ih.cancelled, ih.ended⟩
    | finish _ => exact ih
    | work hwork => exact hwork.quiet h ih
    | wait _ => exact ih
    | cancel hcancel =>
      rw [h.uncancelled] at hcancel
      cases hcancel

/-! ## What a worker has done -/

def Progress.Clean (progress : Progress) : Prop :=
  ∀ reason ∈ progress.passed, reason = ""

structure Upto (setting : Setting ρ) (position count : Nat) (view : View ρ) : Prop where
  le : count ≤ (setting.unitAt position).indexes.length
  outputs : view.outputs = (setting.full position).take count
  logged : ∀ cursor < count, .recorded position cursor ∈ view.events

/-- Where a worker stands, the requests before are recorded. -/
def reached (setting : Setting ρ) : Worker ρ → View ρ → Prop
  | .idle, _ | .done, _ => True
  | .took position, view => Upto setting position 0 view
  | .running position cursor sent progress, view =>
      sent = cursor ∧ progress.Clean ∧ Upto setting position cursor view
  | .sending position cursor sent progress, view =>
      cursor < (setting.unitAt position).indexes.length ∧ sent = cursor ∧ progress.Clean ∧
        Upto setting position cursor view
  | .followed position cursor following sent progress result, view =>
      following = cursor + 1 ∧ sent = cursor + 1 ∧ progress.Clean ∧
        (setting.full position)[cursor]? = some result ∧ Upto setting position cursor view
  | .recorded position following sent progress _, view | .paused position following sent progress, view =>
      sent = following ∧ progress.Clean ∧ Upto setting position following view
  | .passing position progress, view =>
      progress.Clean ∧ Upto setting position (setting.unitAt position).indexes.length view

def recordedRules (setting : Setting ρ) : Rules ρ where
  fresh position view := Upto setting position 0 view
  held := reached setting
  finished position view := Upto setting position (setting.unitAt position).indexes.length view

theorem clean_note {progress : Progress} (h : progress.Clean) (cursor following : Nat) :
    (progress.note cursor following "").Clean := by
  unfold Progress.Clean Progress.note
  rw [if_pos rfl]
  exact h

theorem clean_newProgress (size : Nat) : (newProgress size).Clean := by
  intro reason hreason
  exact List.eq_of_mem_replicate hreason

theorem left_of_clean {progress : Progress} (h : progress.Clean) (size : Nat) : progress.left size = [] := by
  unfold Progress.left
  apply List.filter_eq_nil_iff.2
  intro cursor _
  have hempty : progress.passed.getD cursor "" = "" := by
    rw [List.getD_eq_getElem?_getD]
    cases hget : progress.passed[cursor]? with
    | none => rfl
    | some reason => exact h reason (List.mem_of_getElem? hget)
  rw [hempty]
  simp

theorem full_getElem {position cursor : Nat} (h : cursor < (setting.unitAt position).indexes.length) :
    (setting.full position)[cursor]? = some (setting.resultOf (setting.unitAt position)
      ((setting.unitAt position).indexes.getD cursor 0) cursor) := by
  unfold Setting.full
  rw [List.getElem?_map, List.getElem?_zipIdx, List.getElem?_eq_getElem h]
  simp [h]

theorem Upto.record {position cursor : Nat} {s : Shared ρ} {result : Result ρ}
    (h : Upto setting position cursor (s.view position))
    (hresult : (setting.full position)[cursor]? = some result) :
    Upto setting position (cursor + 1)
      ((s.record position [result] [.recorded position cursor]).view position) := by
  rw [record_view_self (by simp [Event.position])]
  have hlt := (List.getElem?_eq_some_iff.1 hresult).1
  rw [full_length] at hlt
  refine ⟨hlt, ?_, ?_⟩
  · simp only [h.outputs, List.take_add_one, hresult, Option.toList_some]
  · intro earlier hearlier
    rcases Nat.lt_succ_iff_lt_or_eq.1 hearlier with hbefore | rfl
    · exact List.mem_append_left _ (h.logged earlier hbefore)
    · exact List.mem_append_right _ (List.mem_singleton.2 rfl)

theorem recordedRules_kept (h : Plain setting) : Kept setting (recordedRules setting) Quiet where
  start position := ⟨Nat.zero_le _, rfl, fun _ hlt => absurd hlt (Nat.not_lt_zero _)⟩
  take hfresh := hfresh
  inner := by
    intro w s w' s' position hstep hquiet hold hnew hheld
    cases hstep with
    | take _ => cases hold
    | leave _ => cases hold
    | skip _ => cases hnew
    | «begin» _ =>
      obtain rfl := Option.some.inj hold
      exact ⟨rfl, clean_newProgress _, hheld⟩
    | start hlt =>
      obtain rfl := Option.some.inj hold
      obtain ⟨hsent, hclean, hupto⟩ := hheld
      refine ⟨hlt, hsent, hclean, hupto.le, hupto.outputs, ?_⟩
      intro earlier hearlier
      have hlogged := hupto.logged earlier hearlier
      unfold Shared.view at hlogged ⊢
      simp only [List.filter_append]
      exact List.mem_append_left _ hlogged
    | @through _ position cursor _ _ hend =>
      obtain rfl := Option.some.inj hold
      obtain ⟨-, hclean, hupto⟩ := hheld
      have hlast : cursor = (setting.unitAt position).indexes.length := by
        have hle := hupto.le
        omega
      exact ⟨hclean, hlast ▸ hupto⟩
    | @attempt _ position cursor sent progress following noted result hattempt =>
      obtain rfl := Option.some.inj hold
      obtain ⟨hlt, rfl, hclean, hupto⟩ := hheld
      rw [attempted_plain h] at hattempt
      obtain ⟨rfl, hrest⟩ := Prod.mk.inj hattempt
      obtain ⟨rfl, rfl⟩ := Prod.mk.inj hrest
      exact ⟨rfl, rfl, clean_note hclean _ _, full_getElem hlt, hupto⟩
    | record =>
      obtain rfl := Option.some.inj hold
      obtain ⟨rfl, rfl, hclean, hresult, hupto⟩ := hheld
      exact ⟨rfl, hclean, hupto.record hresult⟩
    | quit _ => cases hnew
    | bail _ hbail =>
      rw [h.bail] at hbail
      exact absurd hbail.1 (by simp)
    | pause _ _ =>
      obtain rfl := Option.some.inj hold
      exact hheld
    | stop hstop =>
      rw [hquiet.cancelled, hquiet.halted] at hstop
      simp at hstop
    | goOn _ =>
      obtain rfl := Option.some.inj hold
      exact hheld
    | pass => cases hnew
  release := by
    intro w s w' s' position hstep hquiet hold hnew hheld
    cases hstep with
    | skip hskip =>
      rw [hquiet.cancelled, hquiet.halted, hquiet.ended] at hskip
      simp at hskip
    | quit hquit =>
      rw [hquiet.cancelled] at hquit
      cases hquit
    | pass =>
      obtain rfl := Option.some.inj hold
      obtain ⟨hclean, hupto⟩ := hheld
      unfold Setting.passedResults
      rw [left_of_clean hclean, record_view_self (by simp)]
      simp only [List.filterMap_nil, List.map_nil, List.append_nil]
      exact hupto
    | take _ => cases hold
    | leave _ => cases hold
    | _ => cases hnew

end Gostman.Schedule
