import Gostman.Schedule.Recorded
import Mathlib.Algebra.GroupWithZero.Nat
/-!
# Runs of a collection

What a run returns does not depend on which worker moved when, no iteration
starts before the one before it is recorded, and each run comes to its end.
-/

namespace Gostman.Schedule

variable {ρ : Type} {setting : Setting ρ}

/-! ## The results -/

/-- The result of a planned request: in sequence it is the first its unit sends
but for those before it, beside others the only one. -/
def Setting.expected (setting : Setting ρ) (iteration index : Nat) : Result ρ :=
  { setting.attempt iteration index (if setting.options.parallel ≤ 1 then index + 1 else 1) with
    iteration := if setting.options.isIterating then iteration + 1 else 0 }

/-- One result for each planned request, iteration by iteration. -/
def Setting.allResults (setting : Setting ρ) : List (Result ρ) :=
  (List.range setting.options.iterationCount).flatMap fun iteration =>
    (List.range setting.requests.length).map (setting.expected iteration)

theorem map_unitAt {iteration : Nat} (h : iteration < setting.options.iterationCount) :
    (positions setting.cut.length iteration).map setting.unitAt =
      setting.cut.map (⟨iteration, ·⟩) := by
  apply List.ext_getElem
  · simp [positions]
  · intro offset hleft hright
    have hoffset : offset < setting.cut.length := by simpa using hright
    simp only [positions, List.getElem_map, List.getElem_range', Nat.one_mul]
    rw [setting.unitAt_eq h hoffset]
    simp [hoffset]

theorem flatMap_full {iteration : Nat} (h : iteration < setting.options.iterationCount) :
    (positions setting.cut.length iteration).flatMap setting.full =
      (List.range setting.requests.length).map (setting.expected iteration) := by
  have hunits : (positions setting.cut.length iteration).flatMap setting.full =
      ((positions setting.cut.length iteration).map setting.unitAt).flatMap fun current =>
        current.indexes.zipIdx.map fun place => setting.resultOf current place.1 place.2 := by
    rw [List.flatMap_map]
    rfl
  rw [hunits, map_unitAt h, List.flatMap_map]
  unfold Setting.cut cuts
  split_ifs with hparallel
  · rw [List.flatMap_singleton]
    apply List.ext_getElem
    · simp
    · intro index _ _
      simp [Setting.resultOf, Setting.expected, Setting.iterationNumber, hparallel]
  · rw [List.flatMap_map, List.map_eq_flatMap]
    apply List.flatMap_congr
    intro index _
    simp [Setting.resultOf, Setting.expected, Setting.iterationNumber, hparallel]

theorem range_mul (count size : Nat) :
    List.range (count * size) = (List.range count).flatMap (positions size) := by
  induction count with
  | zero => simp
  | succ count ih =>
    rw [List.range_succ, List.flatMap_append, List.flatMap_singleton, ← ih, Nat.succ_mul,
      List.range_add]
    congr 1
    unfold positions
    rw [List.range'_eq_map_range]

/-- In a plain run everything that is gone is recorded. -/
theorem upto_of_gone {position : Nat} {s : Shared ρ} (hquiet : Quiet s)
    (h : (recordedRules setting).Gone position s) :
    Upto setting position (setting.unitAt position).indexes.length (s.view position) := by
  rcases h with hover | ⟨hcancelled, -⟩
  · exact hover
  · rw [hquiet.cancelled] at hcancelled
    cases hcancelled

theorem results_of_finished (h : Plain setting) {crew : Nat} (hcrew : 0 < crew) {state : State ρ}
    (hreach : Reachable setting crew state) (hfinished : state.phase = .finished) :
    state.results setting = setting.allResults := by
  have hquiet := quiet_of_reachable h hreach
  have hsound := sound_of_reachable hcrew (recordedRules_kept h) (fun _ => quiet_of_reachable h) hreach
  unfold Sound at hsound
  rw [hfinished] at hsound
  obtain ⟨iteration, hbefore, hend⟩ := hsound
  rw [hquiet.halted, hquiet.cancelled] at hend
  have hlast : setting.options.iterationCount ≤ iteration := by simpa using hend
  unfold State.results Setting.allResults
  rw [setting.units_length, range_mul, List.flatMap_assoc]
  apply List.flatMap_congr
  intro earlier hearlier
  have hknown := List.mem_range.1 hearlier
  rw [← flatMap_full hknown]
  apply List.flatMap_congr
  intro position hposition
  have hupto := upto_of_gone hquiet (hbefore.gone earlier (by omega) position hposition)
  have houtputs := hupto.outputs
  rw [← full_length, List.take_length] at houtputs
  exact houtputs

/-! ## The order of the iterations -/

/-- Before a request starts, those of the iterations before are recorded. -/
def Ordered (setting : Setting ρ) (log : List Event) : Prop :=
  ∀ before after position cursor, log = before ++ .started position cursor :: after →
    ∀ other < setting.units.length,
      (setting.unitAt other).iteration < (setting.unitAt position).iteration →
      ∀ place < (setting.unitAt other).indexes.length, .recorded other place ∈ before

theorem Ordered.concat {log : List Event} (h : Ordered setting log) {event : Event}
    (hevent : ∀ position cursor, event = .started position cursor →
      ∀ other < setting.units.length,
        (setting.unitAt other).iteration < (setting.unitAt position).iteration →
        ∀ place < (setting.unitAt other).indexes.length, .recorded other place ∈ log) :
    Ordered setting (log ++ [event]) := by
  intro before after position cursor hsplit
  rcases List.eq_nil_or_concat after with rfl | ⟨front, last, rfl⟩
  · obtain ⟨rfl, heq⟩ := List.append_inj' hsplit rfl
    exact hevent position cursor (List.cons.inj heq).1
  · rw [List.concat_eq_append, ← List.cons_append, ← List.append_assoc] at hsplit
    obtain ⟨hlog, -⟩ := List.append_inj' hsplit rfl
    exact h before front position cursor hlog

theorem Ordered.append {log events : List Event} (h : Ordered setting log)
    (hevents : ∀ event ∈ events, ∀ position cursor, event ≠ .started position cursor) :
    Ordered setting (log ++ events) := by
  induction events generalizing log with
  | nil => rwa [List.append_nil]
  | cons event rest ih =>
    rw [List.append_cons]
    apply ih
    · apply h.concat
      intro position cursor heq
      exact absurd heq (hevents event (List.mem_cons_self ..) position cursor)
    · exact fun other hother => hevents other (List.mem_cons_of_mem _ hother)

theorem mem_positions_iteration {position : Nat} (h : position < setting.units.length) :
    (setting.unitAt position).iteration < setting.options.iterationCount ∧
      position ∈ positions setting.cut.length (setting.unitAt position).iteration := by
  have hall : position ∈ List.range setting.units.length := List.mem_range.2 h
  rw [setting.units_length, range_mul] at hall
  obtain ⟨iteration, hiteration, hmem⟩ := List.mem_flatMap.1 hall
  have hknown := List.mem_range.1 hiteration
  rw [setting.iteration_of_mem hknown hmem]
  exact ⟨hknown, hmem⟩

theorem ordered_of_reachable (h : Plain setting) {crew : Nat} (hcrew : 0 < crew) {state : State ρ}
    (hreach : Reachable setting crew state) : Ordered setting state.shared.log := by
  induction hreach with
  | refl =>
    intro before after position cursor hsplit
    exact absurd hsplit (by simp)
  | @tail previous next hprevious hstep ih =>
    cases hstep with
    | perform _ _ => exact ih
    | finish _ => exact ih
    | wait _ => exact ih
    | cancel _ => exact ih
    | @work s s' iteration front w w' back hwork =>
      have hquiet := quiet_of_reachable h hprevious
      have hduring : During setting (recordedRules setting) iteration (front ++ w :: back) s :=
        sound_of_reachable hcrew (recordedRules_kept h) (fun _ => quiet_of_reachable h) hprevious
      cases hwork with
      | @start _ position cursor sent progress hlt =>
        apply Ordered.concat ih
        intro position' cursor' heq other hother hearlier place hplace
        obtain ⟨rfl, rfl⟩ := Event.started.inj heq
        have hinside : position ∈ positions setting.cut.length iteration := by
          apply hduring.inside
          simp [Worker.position]
        rw [setting.iteration_of_mem hduring.known hinside] at hearlier
        have hupto := upto_of_gone hquiet
          (hduring.gone _ hearlier other (mem_positions_iteration hother).2)
        exact (List.mem_filter.1 (hupto.logged place hplace)).1
      | record => exact Ordered.append ih (by simp)
      | pass => exact Ordered.append ih (by simp)
      | _ => exact ih

/-! ## The end of a run -/

def Worker.weight (setting : Setting ρ) : Worker ρ → Nat
  | .done => 0
  | .idle => 1
  | .passing .. => 2
  | .running position cursor .. => 5 * ((setting.unitAt position).indexes.length - cursor) + 3
  | .sending position cursor .. => 5 * ((setting.unitAt position).indexes.length - cursor) + 2
  | .followed position _ following .. =>
      5 * ((setting.unitAt position).indexes.length - following) + 6
  | .recorded position following .. => 5 * ((setting.unitAt position).indexes.length - following) + 5
  | .paused position following .. => 5 * ((setting.unitAt position).indexes.length - following) + 4
  | .took position => 5 * (setting.unitAt position).indexes.length + 4

def queueWeight (setting : Setting ρ) (queue : List Nat) : Nat :=
  (queue.map fun position => 5 * (setting.unitAt position).indexes.length + 4).sum

theorem WorkerStep.weight_lt (h : Plain setting) {w w' : Worker ρ} {s s' : Shared ρ} (hquiet : Quiet s)
    (hreached : ∀ position, w.position = some position → reached setting w (s.view position))
    (hstep : WorkerStep setting w s w' s') :
    w'.weight setting + queueWeight setting s'.queue < w.weight setting + queueWeight setting s.queue := by
  cases hstep with
  | take hqueue => simp only [Worker.weight, queueWeight, hqueue, List.map_cons, List.sum_cons]; omega
  | @attempt _ position cursor sent progress following noted result hattempt =>
    rw [attempted_plain h] at hattempt
    obtain ⟨rfl, -⟩ := Prod.mk.inj hattempt
    have hlt : cursor < (setting.unitAt position).indexes.length := (hreached position rfl).1
    simp only [Worker.weight]
    omega
  | @record _ position cursor following sent progress result =>
    simp only [Worker.weight, Shared.record]
    omega
  | @pass _ position progress =>
    simp only [Worker.weight, Shared.record]
    omega
  | bail _ hbail =>
    rw [h.bail] at hbail
    exact absurd hbail.1 (by simp)
  | stop hstop =>
    rw [hquiet.cancelled, hquiet.halted] at hstop
    simp at hstop
  | quit hquit =>
    rw [hquiet.cancelled] at hquit
    cases hquit
  | skip hskip =>
    rw [hquiet.cancelled, hquiet.halted, hquiet.ended] at hskip
    simp at hskip
  | _ => simp only [Worker.weight]; omega

def Setting.share (setting : Setting ρ) (crew : Nat) : Nat :=
  (setting.cut.map fun indexes => 5 * indexes.length + 4).sum + crew + 2

def State.weight (setting : Setting ρ) (crew : Nat) (state : State ρ) : Nat :=
  match state.phase with
  | .finished => 0
  | .between iteration => (setting.options.iterationCount - iteration) * setting.share crew + 1
  | .performing iteration workers =>
      (workers.map (Worker.weight setting)).sum + queueWeight setting state.shared.queue +
        (setting.options.iterationCount - (iteration + 1)) * setting.share crew + 2

theorem queueWeight_positions {iteration : Nat} (h : iteration < setting.options.iterationCount) :
    queueWeight setting (positions setting.cut.length iteration) =
      (setting.cut.map fun indexes => 5 * indexes.length + 4).sum := by
  have hunits : queueWeight setting (positions setting.cut.length iteration) =
      (((positions setting.cut.length iteration).map setting.unitAt).map fun current =>
        5 * current.indexes.length + 4).sum := by
    rw [List.map_map]
    rfl
  rw [hunits, map_unitAt h, List.map_map]
  rfl

theorem Step.weight_lt (h : Plain setting) {crew : Nat} (hcrew : 0 < crew) {state next : State ρ}
    (hreach : Reachable setting crew state) (hstep : Step setting crew state next) :
    next.weight setting crew < state.weight setting crew := by
  cases hstep with
  | @perform s iteration wave hwave _ =>
    obtain ⟨hknown, rfl⟩ := setting.wave_eq hwave
    have hcount : setting.options.iterationCount - iteration =
        setting.options.iterationCount - (iteration + 1) + 1 := by omega
    have hcrewed : ((List.replicate (min crew (max (positions setting.cut.length iteration).length 1))
        (Worker.idle : Worker ρ)).map (Worker.weight setting)).sum ≤ crew := by
      rw [List.map_replicate, List.sum_replicate_nat, Worker.weight, Nat.mul_one]
      exact Nat.min_le_left _ _
    have hshare : setting.share crew =
        (setting.cut.map fun indexes => 5 * indexes.length + 4).sum + crew + 2 := rfl
    simp only [State.weight]
    rw [queueWeight_positions hknown, hcount, Nat.add_mul, Nat.one_mul]
    omega
  | finish _ => simp [State.weight]
  | @work s s' iteration front w w' back hwork =>
    have hduring : During setting (recordedRules setting) iteration (front ++ w :: back) s :=
      sound_of_reachable hcrew (recordedRules_kept h) (fun _ => quiet_of_reachable h) hreach
    have hlt : w'.weight setting + queueWeight setting s'.queue <
        w.weight setting + queueWeight setting s.queue :=
      hwork.weight_lt h (quiet_of_reachable h hreach)
      (hduring.held w (List.mem_append_right _ (List.mem_cons_self ..)))
    simp only [State.weight, List.map_append, List.map_cons, List.sum_append, List.sum_cons]
    omega
  | @wait s iteration workers _ =>
    simp only [State.weight]
    omega
  | cancel hcancel =>
    rw [h.uncancelled] at hcancel
    cases hcancel

/-- A worker that is not done can always move. -/
theorem exists_workerStep (setting : Setting ρ) {w : Worker ρ} (h : w ≠ .done) (s : Shared ρ) :
    ∃ w' s', WorkerStep setting w s w' s' := by
  cases w with
  | done => exact absurd rfl h
  | idle =>
    cases hqueue : s.queue with
    | nil => exact ⟨_, _, .leave hqueue⟩
    | cons position rest => exact ⟨_, _, .take hqueue⟩
  | took position =>
    by_cases hskip : s.halted ∨ s.cancelled ∨ (setting.unitAt position).iteration ∈ s.ended
    · exact ⟨_, _, .skip hskip⟩
    · exact ⟨_, _, .begin hskip⟩
  | running position cursor sent progress =>
    by_cases hlt : cursor < (setting.unitAt position).indexes.length
    · exact ⟨_, _, .start hlt⟩
    · exact ⟨_, _, .through hlt⟩
  | sending position cursor sent progress => exact ⟨_, _, .attempt rfl⟩
  | followed position cursor following sent progress result => exact ⟨_, _, .record⟩
  | recorded position following sent progress result =>
    by_cases hcancelled : s.cancelled = true
    · exact ⟨_, _, .quit hcancelled⟩
    · by_cases hbail : setting.options.bail ∧ result.failed
      · exact ⟨_, _, .bail hcancelled hbail⟩
      · exact ⟨_, _, .pause hcancelled hbail⟩
  | paused position following sent progress =>
    by_cases hstop : s.cancelled ∨ s.halted
    · exact ⟨_, _, .stop hstop⟩
    · exact ⟨_, _, .goOn hstop⟩
  | passing position progress => exact ⟨_, _, .pass⟩

theorem exists_step (setting : Setting ρ) (crew : Nat) {state : State ρ} (h : state.phase ≠ .finished) :
    ∃ next, Step setting crew state next := by
  obtain ⟨phase, s⟩ := state
  cases phase with
  | finished => exact absurd rfl h
  | between iteration =>
    by_cases hend : setting.waves.length ≤ iteration ∨ s.halted ∨ s.cancelled
    · exact ⟨_, .finish hend⟩
    · obtain ⟨hlt, hgo⟩ := not_or.1 hend
      exact ⟨_, .perform (List.getElem?_eq_getElem (by omega)) hgo⟩
  | performing iteration workers =>
    by_cases hdone : ∀ worker ∈ workers, worker = .done
    · exact ⟨_, .wait hdone⟩
    · obtain ⟨worker, hworker⟩ := not_forall.1 hdone
      obtain ⟨hmem, hne⟩ := Classical.not_imp.1 hworker
      obtain ⟨front, back, rfl⟩ := List.append_of_mem hmem
      obtain ⟨w', s', hstep⟩ := exists_workerStep setting hne s
      exact ⟨_, .work hstep⟩

theorem no_endless_run (h : Plain setting) {crew : Nat} (hcrew : 0 < crew) (run : Nat → State ρ)
    (hstart : run 0 = {}) : ¬ ∀ i, Step setting crew (run i) (run (i + 1)) := by
  intro hsteps
  have hreach : ∀ i, Reachable setting crew (run i) := by
    intro i
    induction i with
    | zero => rw [hstart]; exact .refl
    | succ i ih => exact .tail ih (hsteps i)
  have hweight : ∀ i, (run i).weight setting crew + i ≤ (run 0).weight setting crew := by
    intro i
    induction i with
    | zero => omega
    | succ i ih =>
      have hlt := (hsteps i).weight_lt h hcrew (hreach i)
      omega
  have hlast := hweight ((run 0).weight setting crew + 1)
  omega

end Gostman.Schedule
