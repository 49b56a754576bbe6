import Gostman.Schedule.Units
/-!
# Who holds a unit

A unit waits in the queue, is held by one worker, or is over.  What a worker
does touches only the unit it holds, so that a property of each unit that
every worker keeps by itself holds in every run.
-/

namespace Gostman.Schedule

variable {ρ : Type}

def Worker.position : Worker ρ → Option Nat
  | .idle | .done => none
  | .took position | .running position .. | .sending position .. | .followed position ..
  | .recorded position .. | .paused position .. | .passing position .. => some position

def Event.position : Event → Nat
  | .started position _ | .recorded position _ | .passed position _ => position

structure View (ρ : Type) where
  outputs : List (Result ρ)
  events : List Event

def Shared.view (s : Shared ρ) (position : Nat) : View ρ :=
  ⟨s.outputs position, s.log.filter (·.position = position)⟩

inductive Touches (w : Worker ρ) (s : Shared ρ) (w' : Worker ρ) (s' : Shared ρ) : Prop
  | take {position rest} (hold : w.position = none) (hw : w' = .took position)
      (hqueue : s.queue = position :: rest) (hs : s' = { s with queue := rest })
  | rest (hold : w.position = none) (hnew : w'.position = none) (hs : s' = s)
  | inner {position} (hold : w.position = some position) (hnew : w'.position = some position)
      (hqueue : s'.queue = s.queue) (hview : ∀ other ≠ position, s'.view other = s.view other)
  | release {position} (hold : w.position = some position) (hnew : w'.position = none)
      (hqueue : s'.queue = s.queue) (hview : ∀ other ≠ position, s'.view other = s.view other)

theorem view_of_log {s s' : Shared ρ} {position : Nat} {events : List Event}
    (houtputs : ∀ other ≠ position, s'.outputs other = s.outputs other)
    (hlog : s'.log = s.log ++ events) (hevents : ∀ event ∈ events, event.position = position) :
    ∀ other ≠ position, s'.view other = s.view other := by
  intro other hother
  unfold Shared.view
  have hnone : events.filter (·.position = other) = [] := by
    apply List.filter_eq_nil_iff.2
    intro event hevent
    rw [hevents event hevent]
    simpa using hother.symm
  rw [houtputs other hother, hlog, List.filter_append, hnone, List.append_nil]

theorem record_view {s : Shared ρ} {position : Nat} {results : List (Result ρ)} {events : List Event}
    (hevents : ∀ event ∈ events, event.position = position) :
    ∀ other ≠ position, (s.record position results events).view other = s.view other :=
  view_of_log (fun _ hother => Function.update_of_ne hother _ _) rfl hevents

theorem record_view_self {s : Shared ρ} {position : Nat} {results : List (Result ρ)} {events : List Event}
    (hevents : ∀ event ∈ events, event.position = position) :
    (s.record position results events).view position =
      ⟨(s.view position).outputs ++ results, (s.view position).events ++ events⟩ := by
  have hall : events.filter (·.position = position) = events := by
    apply List.filter_eq_self.2
    intro event hevent
    simpa using hevents event hevent
  simp [Shared.record, Shared.view, List.filter_append, hall]

section

variable {setting : Setting ρ} {w w' : Worker ρ} {s s' : Shared ρ}

theorem WorkerStep.cancelled_eq (h : WorkerStep setting w s w' s') : s'.cancelled = s.cancelled := by
  cases h <;> rfl

/-- A worker is done when there is nothing left to take, or on a cancellation. -/
theorem WorkerStep.drained (h : WorkerStep setting w s w' s') (hdone : w' = .done) :
    s'.queue = [] ∨ s'.cancelled = true := by
  cases h with
  | leave hqueue => exact .inl hqueue
  | quit hcancelled => exact .inr hcancelled
  | _ => cases hdone

theorem WorkerStep.touches (h : WorkerStep setting w s w' s') : Touches w s w' s' := by
  cases h with
  | take hqueue => exact .take rfl rfl hqueue rfl
  | leave _ => exact .rest rfl rfl rfl
  | skip _ => exact .release rfl rfl rfl fun _ _ => rfl
  | «begin» _ => exact .inner rfl rfl rfl fun _ _ => rfl
  | start _ =>
    exact .inner rfl rfl rfl (view_of_log (fun _ _ => rfl) rfl (by simp [Event.position]))
  | through _ => exact .inner rfl rfl rfl fun _ _ => rfl
  | attempt _ => exact .inner rfl rfl rfl fun _ _ => rfl
  | record => exact .inner rfl rfl rfl (record_view (by simp [Event.position]))
  | quit _ => exact .release rfl rfl rfl fun _ _ => rfl
  | bail _ _ => exact .inner rfl rfl rfl fun _ _ => rfl
  | pause _ _ => exact .inner rfl rfl rfl fun _ _ => rfl
  | stop _ => exact .inner rfl rfl rfl fun _ _ => rfl
  | goOn _ => exact .inner rfl rfl rfl fun _ _ => rfl
  | pass => exact .release rfl rfl rfl (record_view (by simp [Event.position]))

end

/-! ## Properties of the units -/

/-- What holds of a unit before, while and after a worker holds it. -/
structure Rules (ρ : Type) where
  fresh : Nat → View ρ → Prop
  held : Worker ρ → View ρ → Prop
  finished : Nat → View ρ → Prop

/-- Each worker keeps it, in the states that are all right. -/
structure Kept (setting : Setting ρ) (rules : Rules ρ) (ok : Shared ρ → Prop) : Prop where
  start : ∀ position, rules.fresh position ⟨[], []⟩
  take : ∀ {position view}, rules.fresh position view → rules.held (.took position) view
  inner : ∀ {w s w' s' position}, WorkerStep setting w s w' s' → ok s → w.position = some position →
    w'.position = some position → rules.held w (s.view position) → rules.held w' (s'.view position)
  release : ∀ {w s w' s' position}, WorkerStep setting w s w' s' → ok s → w.position = some position →
    w'.position = none → rules.held w (s.view position) → rules.finished position (s'.view position)

def Rules.Gone (rules : Rules ρ) (position : Nat) (s : Shared ρ) : Prop :=
  rules.finished position (s.view position) ∨ s.cancelled = true ∧ rules.fresh position (s.view position)

/-- Everything before an iteration is gone and everything else is fresh. -/
structure Before (setting : Setting ρ) (rules : Rules ρ) (iteration : Nat) (s : Shared ρ) : Prop where
  gone : ∀ earlier < iteration, ∀ position ∈ positions setting.cut.length earlier, rules.Gone position s
  fresh : ∀ later ≥ iteration, ∀ position ∈ positions setting.cut.length later,
    rules.fresh position (s.view position)

/-- The units of an iteration are waiting, held or over. -/
structure During (setting : Setting ρ) (rules : Rules ρ) (iteration : Nat) (workers : List (Worker ρ))
    (s : Shared ρ) : Prop where
  known : iteration < setting.options.iterationCount
  crewed : workers ≠ []
  drained : .done ∈ workers → s.queue = [] ∨ s.cancelled = true
  apart : (s.queue ++ workers.filterMap Worker.position).Nodup
  inside : ∀ position ∈ s.queue ++ workers.filterMap Worker.position,
    position ∈ positions setting.cut.length iteration
  waiting : ∀ position ∈ s.queue, rules.fresh position (s.view position)
  held : ∀ worker ∈ workers, ∀ position, worker.position = some position →
    rules.held worker (s.view position)
  past : ∀ position ∈ positions setting.cut.length iteration,
    position ∉ s.queue ++ workers.filterMap Worker.position → rules.finished position (s.view position)
  gone : ∀ earlier < iteration, ∀ position ∈ positions setting.cut.length earlier, rules.Gone position s
  fresh : ∀ later > iteration, ∀ position ∈ positions setting.cut.length later,
    rules.fresh position (s.view position)

def Sound (setting : Setting ρ) (rules : Rules ρ) (state : State ρ) : Prop :=
  match state.phase with
  | .between iteration => Before setting rules iteration state.shared
  | .performing iteration workers => During setting rules iteration workers state.shared
  | .finished => ∃ iteration, Before setting rules iteration state.shared ∧
      (setting.options.iterationCount ≤ iteration ∨ state.shared.halted ∨ state.shared.cancelled)

theorem positions_disjoint {size first second position : Nat} (hfirst : position ∈ positions size first)
    (hsecond : position ∈ positions size second) : first = second := by
  obtain ⟨hle, hlt⟩ := mem_positions.1 hfirst
  obtain ⟨hle', hlt'⟩ := mem_positions.1 hsecond
  have hone : first < second + 1 := Nat.lt_of_mul_lt_mul_right (lt_of_le_of_lt hle hlt')
  have htwo : second < first + 1 := Nat.lt_of_mul_lt_mul_right (lt_of_le_of_lt hle' hlt)
  omega

section

variable {setting : Setting ρ} {rules : Rules ρ} {ok : Shared ρ → Prop}
  {iteration : Nat} {w w' : Worker ρ} {before after : List (Worker ρ)} {s s' : Shared ρ}

theorem filterMap_middle (w : Worker ρ) (before after : List (Worker ρ)) (queue : List Nat) :
    (queue ++ (before ++ w :: after).filterMap Worker.position).Perm
      (w.position.toList ++ (queue ++ (before.filterMap Worker.position ++ after.filterMap Worker.position))) := by
  rw [List.filterMap_append, List.filterMap_cons]
  cases hposition : w.position with
  | none => simp
  | some position =>
    simp only [Option.toList_some, List.singleton_append]
    rw [← List.append_assoc, ← List.append_assoc]
    exact List.perm_middle

theorem During.work (h : During setting rules iteration (before ++ w :: after) s)
    (hkept : Kept setting rules ok) (hok : ok s) (hstep : WorkerStep setting w s w' s') :
    During setting rules iteration (before ++ w' :: after) s' := by
  have hperm := filterMap_middle w before after s.queue
  have hperm' := filterMap_middle w' before after s'.queue
  have hapart := hperm.nodup_iff.1 h.apart
  -- the units that are neither the worker's nor new to it
  have hothers : ∀ worker ∈ before ++ after, ∀ position, worker.position = some position →
      position ∈ s.queue ++ (before.filterMap Worker.position ++ after.filterMap Worker.position) := by
    intro worker hworker position hposition
    rw [← List.filterMap_append]
    exact List.mem_append_right _ (List.mem_filterMap.2 ⟨worker, hworker, hposition⟩)
  have hheld : ∀ worker ∈ before ++ after, worker ∈ before ++ w :: after := by
    intro worker hworker
    simp only [List.mem_append, List.mem_cons] at hworker ⊢
    tauto
  have hsplit : ∀ worker, worker ∈ before ++ w' :: after → worker = w' ∨ worker ∈ before ++ after := by
    intro worker hworker
    simp only [List.mem_append, List.mem_cons] at hworker ⊢
    tauto
  have hcrewed : before ++ w' :: after ≠ [] := by simp
  have hcancelled := hstep.cancelled_eq
  have hdrained : s'.queue = s.queue ∨ s.queue ≠ [] → .done ∈ before ++ w' :: after →
      s'.queue = [] ∨ s'.cancelled = true := by
    intro hqueue hmem
    rcases hsplit _ hmem with hdone | hother
    · exact hstep.drained hdone.symm
    · rcases h.drained (hheld _ hother) with hempty | hcancel
      · rcases hqueue with hsame | hne
        · exact .inl (hsame.trans hempty)
        · exact absurd hempty hne
      · exact .inr (hcancelled.trans hcancel)
  have hgone : (∀ position ∉ positions setting.cut.length iteration, s'.view position = s.view position) →
      ∀ earlier < iteration, ∀ position ∈ positions setting.cut.length earlier, rules.Gone position s' := by
    intro hview earlier hlt position hmem
    have hnot : position ∉ positions setting.cut.length iteration :=
      fun hin => hlt.ne (positions_disjoint hmem hin)
    have hold := h.gone earlier hlt position hmem
    unfold Rules.Gone at hold ⊢
    rwa [hview position hnot, hcancelled]
  cases hstep.touches with
  | rest hold hnew hs =>
    subst hs
    rw [hold] at hperm hapart
    rw [hnew] at hperm'
    have hsame := hperm'.trans hperm.symm
    refine ⟨h.known, hcrewed, hdrained (.inl rfl), hsame.nodup_iff.2 h.apart,
      fun position hmem => h.inside position (hsame.mem_iff.1 hmem), h.waiting, ?_,
      fun position hmem hnot => h.past position hmem (mt hsame.mem_iff.2 hnot), h.gone, h.fresh⟩
    intro worker hworker position hposition
    rcases hsplit worker hworker with rfl | hother
    · rw [hnew] at hposition
      cases hposition
    · exact h.held worker (hheld worker hother) position hposition
  | @take taken rest hold hw hqueue hs =>
    subst hs hw
    rw [hold] at hperm hapart
    have hsame : (rest ++ (before ++ (Worker.took taken : Worker ρ) :: after).filterMap Worker.position).Perm
        (s.queue ++ (before ++ w :: after).filterMap Worker.position) := by
      refine hperm'.trans (.trans ?_ hperm.symm)
      rw [hqueue]
      exact .refl _
    refine ⟨h.known, hcrewed, hdrained (.inr (by simp [hqueue])), hsame.nodup_iff.2 h.apart,
      fun position hmem => h.inside position (hsame.mem_iff.1 hmem), ?_, ?_,
      fun position hmem hnot => h.past position hmem (mt hsame.mem_iff.2 hnot), h.gone, h.fresh⟩
    · intro position hmem
      exact h.waiting position (by rw [hqueue]; exact List.mem_cons_of_mem _ hmem)
    · intro worker hworker position hposition
      rcases hsplit worker hworker with rfl | hother
      · obtain rfl := Option.some.inj hposition
        exact hkept.take (h.waiting taken (by rw [hqueue]; exact List.mem_cons_self ..))
      · exact h.held worker (hheld worker hother) position hposition
  | @inner touched hold hnew hqueue hview =>
    rw [hold] at hperm hapart
    rw [hnew, hqueue] at hperm'
    have hsame := hperm'.trans hperm.symm
    have htouched : touched ∉ s.queue ++
        (before.filterMap Worker.position ++ after.filterMap Worker.position) :=
      (List.nodup_cons.1 hapart).1
    have hmine : touched ∈ positions setting.cut.length iteration :=
      h.inside touched (hperm.mem_iff.2 (by simp))
    have hother : ∀ position ∉ positions setting.cut.length iteration, s'.view position = s.view position := by
      intro position hmem
      apply hview
      rintro rfl
      exact hmem hmine
    refine ⟨h.known, hcrewed, hdrained (.inl hqueue), ?_, ?_, ?_, ?_, ?_, hgone hother, ?_⟩
    · rw [hqueue]
      exact hsame.nodup_iff.2 h.apart
    · intro position hmem
      rw [hqueue] at hmem
      exact h.inside position (hsame.mem_iff.1 hmem)
    · intro position hmem
      rw [hqueue] at hmem
      rw [hview position fun heq => htouched (heq ▸ List.mem_append_left _ hmem)]
      exact h.waiting position hmem
    · intro worker hworker position hposition
      rcases hsplit worker hworker with rfl | hin
      · rw [hnew] at hposition
        obtain rfl := Option.some.inj hposition
        exact hkept.inner hstep hok hold hnew
          (h.held w (List.mem_append_right _ (List.mem_cons_self ..)) touched hold)
      · rw [hview position fun heq => htouched (heq ▸ hothers worker hin position hposition)]
        exact h.held worker (hheld worker hin) position hposition
    · intro position hmem hnot
      rw [hqueue] at hnot
      have hpast := mt hsame.mem_iff.2 hnot
      rw [hview position fun heq => hpast (heq ▸ hperm.mem_iff.2 (by simp))]
      exact h.past position hmem hpast
    · intro later hgt position hmem
      rw [hother position fun hin => hgt.ne' (positions_disjoint hmem hin)]
      exact h.fresh later hgt position hmem
  | @release touched hold hnew hqueue hview =>
    rw [hold] at hperm hapart
    rw [hnew, hqueue] at hperm'
    have hperm' : (s.queue ++ (before ++ w' :: after).filterMap Worker.position).Perm
        (s.queue ++ (before.filterMap Worker.position ++ after.filterMap Worker.position)) := hperm'
    have htouched : touched ∉ s.queue ++
        (before.filterMap Worker.position ++ after.filterMap Worker.position) :=
      (List.nodup_cons.1 hapart).1
    have hrest := (List.nodup_cons.1 hapart).2
    have hmine : touched ∈ positions setting.cut.length iteration :=
      h.inside touched (hperm.mem_iff.2 (by simp))
    have hother : ∀ position ∉ positions setting.cut.length iteration, s'.view position = s.view position := by
      intro position hmem
      apply hview
      rintro rfl
      exact hmem hmine
    refine ⟨h.known, hcrewed, hdrained (.inl hqueue), ?_, ?_, ?_, ?_, ?_, hgone hother, ?_⟩
    · rw [hqueue]
      exact hperm'.nodup_iff.2 hrest
    · intro position hmem
      rw [hqueue] at hmem
      exact h.inside position (hperm.mem_iff.2 (List.mem_append_right _ (hperm'.mem_iff.1 hmem)))
    · intro position hmem
      rw [hqueue] at hmem
      rw [hview position fun heq => htouched (heq ▸ List.mem_append_left _ hmem)]
      exact h.waiting position hmem
    · intro worker hworker position hposition
      rcases hsplit worker hworker with rfl | hin
      · rw [hnew] at hposition
        cases hposition
      · rw [hview position fun heq => htouched (heq ▸ hothers worker hin position hposition)]
        exact h.held worker (hheld worker hin) position hposition
    · intro position hmem hnot
      rw [hqueue] at hnot
      by_cases heq : position = touched
      · subst heq
        exact hkept.release hstep hok hold hnew
          (h.held w (List.mem_append_right _ (List.mem_cons_self ..)) position hold)
      · rw [hview position heq]
        apply h.past position hmem
        intro hin
        rcases List.mem_append.1 (hperm.mem_iff.1 hin) with htouch | hin
        · exact heq (by simpa using htouch)
        · exact hnot (hperm'.mem_iff.2 hin)
    · intro later hgt position hmem
      rw [hother position fun hin => hgt.ne' (positions_disjoint hmem hin)]
      exact h.fresh later hgt position hmem

/-- What each worker keeps holds in every run. -/
theorem sound_of_reachable {crew : Nat} (hcrew : 0 < crew) (hkept : Kept setting rules ok)
    (hok : ∀ state, Reachable setting crew state → ok state.shared) {state : State ρ}
    (h : Reachable setting crew state) : Sound setting rules state := by
  induction h with
  | refl => exact ⟨fun _ hlt => absurd hlt (Nat.not_lt_zero _), fun _ _ position _ => hkept.start position⟩
  | @tail previous next hreach hstep ih =>
    cases hstep with
    | @perform s iteration wave hwave _ =>
      obtain ⟨hknown, rfl⟩ := setting.wave_eq hwave
      have hidle : (List.replicate (min crew (max (positions setting.cut.length iteration).length 1))
          (Worker.idle : Worker ρ)).filterMap Worker.position = [] := by
        apply List.filterMap_eq_nil_iff.2
        intro worker hworker
        rw [List.eq_of_mem_replicate hworker]
        rfl
      refine ⟨hknown, ?_, ?_, ?_, ?_, ?_, ?_, ?_, ih.gone, fun later hgt => ih.fresh later (le_of_lt hgt)⟩
      · intro hnil
        have hlength := congrArg List.length hnil
        rw [List.length_replicate, List.length_nil] at hlength
        omega
      · intro hdone
        cases List.eq_of_mem_replicate hdone
      · simp only [hidle, List.append_nil]
        exact positions_nodup _ _
      · simp only [hidle, List.append_nil]
        exact fun _ hmem => hmem
      · exact ih.fresh iteration le_rfl
      · intro worker hworker position hposition
        rw [List.eq_of_mem_replicate hworker] at hposition
        cases hposition
      · intro position hmem hnot
        exact absurd (List.mem_append_left _ hmem) hnot
    | finish hend =>
      rw [setting.waves_length] at hend
      exact ⟨_, ih, hend⟩
    | work hwork => exact During.work ih hkept (hok _ hreach) hwork
    | @wait s iteration workers hdone =>
      have hnone : workers.filterMap Worker.position = [] := by
        apply List.filterMap_eq_nil_iff.2
        intro worker hworker
        rw [hdone worker hworker]
        rfl
      obtain ⟨worker, hworker⟩ := List.exists_mem_of_ne_nil _ ih.crewed
      have hdrained := ih.drained (hdone worker hworker ▸ hworker)
      refine ⟨?_, fun later hge => ih.fresh later hge⟩
      intro earlier hlt position hmem
      rcases Nat.lt_succ_iff_lt_or_eq.1 hlt with hbefore | rfl
      · exact ih.gone earlier hbefore position hmem
      · by_cases hqueue : position ∈ s.queue
        · rcases hdrained with hempty | hcancelled
          · exact absurd hqueue (hempty ▸ List.not_mem_nil)
          · exact .inr ⟨hcancelled, ih.waiting position hqueue⟩
        · exact .inl (ih.past position hmem (by rw [hnone, List.append_nil]; exact hqueue))
    | @cancel s phase _ =>
      cases phase with
      | between iteration =>
        refine ⟨?_, ih.fresh⟩
        intro earlier hlt position hmem
        exact (ih.gone earlier hlt position hmem).imp_right fun hfresh => ⟨rfl, hfresh.2⟩
      | performing iteration workers =>
        refine ⟨ih.known, ih.crewed, fun _ => .inr rfl, ih.apart, ih.inside, ih.waiting, ih.held, ih.past,
          ?_, ih.fresh⟩
        intro earlier hlt position hmem
        exact (ih.gone earlier hlt position hmem).imp_right fun hfresh => ⟨rfl, hfresh.2⟩
      | finished =>
        obtain ⟨iteration, hbefore, -⟩ := ih
        refine ⟨iteration, ⟨?_, hbefore.fresh⟩, .inr (.inr rfl)⟩
        intro earlier hlt position hmem
        exact (hbefore.gone earlier hlt position hmem).imp_right fun hfresh => ⟨rfl, hfresh.2⟩

end

end Gostman.Schedule
