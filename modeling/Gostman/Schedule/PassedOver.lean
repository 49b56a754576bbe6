import Gostman.Schedule.Runs
/-!
# What a script passes over

Whatever the scripts ask for, a request that was attempted is not recorded as
passed over, and none is recorded so twice.
-/

namespace Gostman.Schedule

variable {ρ : Type} {setting : Setting ρ}

/-- What the attempt of the request at a place of a unit comes to, after so many others. -/
def Setting.sentResult (setting : Setting ρ) (position cursor before : Nat) : Result ρ :=
  (setting.attempted position cursor before ⟨[], []⟩).2.2

/-- The results of attempts, by the places of their requests. -/
def Setting.sentResults (setting : Setting ρ) (position : Nat) (sent : List Nat) : List (Result ρ) :=
  sent.zipIdx.map fun (cursor, before) => setting.sentResult position cursor before

/-- A result that says why the request at a place of a unit was not run. -/
def Unrun (setting : Setting ρ) (position cursor : Nat) (result : Result ρ) : Prop :=
  ∃ index request reason, (setting.unitAt position).indexes[cursor]? = some index ∧
    setting.requests[index]? = some request ∧ reason ≠ "" ∧
    result = { setting.identify request with
      skipped := reason
      iteration := setting.iterationNumber (setting.unitAt position) }

/-- The results of a unit: one for each attempt, in their order, and after them one for
each request that was passed over.  None of these was ever started. -/
structure Told (setting : Setting ρ) (position : Nat) (view : View ρ) (sent left : List Nat) : Prop where
  outputs : ∃ unrun, view.outputs = setting.sentResults position sent ++ unrun ∧
    List.Forall₂ (Unrun setting position) left unrun
  inside : ∀ cursor ∈ sent ++ left, cursor < (setting.unitAt position).indexes.length
  once : left.Nodup
  apart : ∀ cursor ∈ left, cursor ∉ sent ∧ .started position cursor ∉ view.events

/-- Each request of a unit is attempted or passed over, and the latter once. -/
def Proper (setting : Setting ρ) (position : Nat) (view : View ρ) : Prop :=
  ∃ sent left, Told setting position view sent left

/-- What was started is marked as attempted, but for the one being sent, and what was
sent is recorded. -/
structure Marked (setting : Setting ρ) (position : Nat) (progress : Progress) (sending : Option Nat)
    (sent : List Nat) (view : View ρ) : Prop where
  size : progress.attempted.length = (setting.unitAt position).indexes.length
  inside : ∀ cursor ∈ sent, cursor < (setting.unitAt position).indexes.length
  attempted : ∀ cursor ∈ sent, progress.attempted.getD cursor false = true
  started : ∀ cursor, .started position cursor ∈ view.events →
    progress.attempted.getD cursor false = true ∨ sending = some cursor
  outputs : view.outputs = setting.sentResults position sent

def marked (setting : Setting ρ) : Worker ρ → View ρ → Prop
  | .idle, _ | .done, _ => True
  | .took _, view => view = ⟨[], []⟩
  | .sending position cursor count progress, view =>
      cursor < (setting.unitAt position).indexes.length ∧
        ∃ sent, sent.length = count ∧ Marked setting position progress (some cursor) sent view
  | .followed position cursor _ count progress result, view =>
      cursor < (setting.unitAt position).indexes.length ∧
        progress.attempted.getD cursor false = true ∧
        ∃ sent, sent.length + 1 = count ∧ result = setting.sentResult position cursor sent.length ∧
          Marked setting position progress none sent view
  | .running position _ count progress, view
  | .recorded position _ count progress _, view | .paused position _ count progress, view =>
      ∃ sent, sent.length = count ∧ Marked setting position progress none sent view
  | .passing position progress, view => ∃ sent, Marked setting position progress none sent view

def passedRules (setting : Setting ρ) : Rules ρ where
  fresh _ view := view = ⟨[], []⟩
  held := marked setting
  finished := Proper setting

theorem proper_nil (position : Nat) : Proper setting position ⟨[], []⟩ :=
  ⟨[], [], ⟨[], rfl, .nil⟩, by simp, .nil, by simp⟩

theorem Marked.proper {position : Nat} {progress : Progress} {sending : Option Nat} {sent : List Nat}
    {view : View ρ} (h : Marked setting position progress sending sent view) :
    Proper setting position view := by
  refine ⟨sent, [], ⟨[], ?_, .nil⟩, ?_, .nil, by simp⟩
  · rw [h.outputs, List.append_nil]
  · rw [List.append_nil]
    exact h.inside

theorem marked_newProgress (position : Nat) :
    Marked setting position (newProgress (setting.unitAt position).indexes.length) none [] ⟨[], []⟩ where
  size := List.length_replicate
  inside := by simp
  attempted := by simp
  started := by simp
  outputs := rfl

theorem attempted_marks (position cursor sent : Nat) (progress : Progress) :
    (setting.attempted position cursor sent progress).2.1.attempted = progress.attempted.set cursor true := by
  simp only [Setting.attempted]
  split_ifs <;> rfl

/-- What an attempt comes to does not depend on the progress. -/
theorem attempted_result (position cursor sent : Nat) (progress : Progress) :
    (setting.attempted position cursor sent progress).2.2 = setting.sentResult position cursor sent := by
  simp only [Setting.sentResult, Setting.attempted]
  split_ifs <;> rfl

theorem Marked.attempt {position cursor : Nat} (count : Nat) {progress : Progress} {sent : List Nat} {view : View ρ}
    (hlt : cursor < (setting.unitAt position).indexes.length)
    (h : Marked setting position progress (some cursor) sent view) :
    (setting.attempted position cursor count progress).2.1.attempted.getD cursor false = true ∧
      Marked setting position (setting.attempted position cursor count progress).2.1 none sent view := by
  rw [← h.size] at hlt
  have hmarks (other : Nat) (hother : progress.attempted.getD other false = true ∨ cursor = other) :
      (setting.attempted position cursor count progress).2.1.attempted.getD other false = true := by
    rw [attempted_marks, List.getD_eq_getElem?_getD, List.getElem?_set]
    by_cases heq : cursor = other
    · subst heq
      rw [if_pos rfl, if_pos hlt]
      rfl
    · rw [if_neg heq, ← List.getD_eq_getElem?_getD]
      exact hother.resolve_right heq
  refine ⟨hmarks cursor (.inr rfl), ?_, h.inside, ?_, ?_, h.outputs⟩
  · rw [attempted_marks, List.length_set]
    exact h.size
  · exact fun other hother => hmarks other (.inl (h.attempted other hother))
  · exact fun other hother => .inl (hmarks other ((h.started other hother).imp_right Option.some.inj))

theorem sentResults_concat (position : Nat) (sent : List Nat) (cursor : Nat) :
    setting.sentResults position (sent ++ [cursor]) =
      setting.sentResults position sent ++ [setting.sentResult position cursor sent.length] := by
  simp [Setting.sentResults, List.zipIdx_append]

theorem Marked.record {position cursor : Nat} {progress : Progress} {sent : List Nat} {s : Shared ρ}
    (hlt : cursor < (setting.unitAt position).indexes.length)
    (hattempted : progress.attempted.getD cursor false = true)
    (h : Marked setting position progress none sent (s.view position)) :
    Marked setting position progress none (sent ++ [cursor])
      ((s.record position [setting.sentResult position cursor sent.length] [.recorded position cursor]).view position) := by
  rw [record_view_self (by simp [Event.position])]
  refine ⟨h.size, ?_, ?_, ?_, ?_⟩
  · intro other hother
    obtain hold | hnew := List.mem_append.1 hother
    · exact h.inside other hold
    · rwa [List.mem_singleton.1 hnew]
  · intro other hother
    obtain hold | hnew := List.mem_append.1 hother
    · exact h.attempted other hold
    · rwa [List.mem_singleton.1 hnew]
  · intro other hother
    exact h.started other (by simpa using hother)
  · rw [sentResults_concat, ← h.outputs]

theorem Setting.lt_of_mem_indexes (setting : Setting ρ) (position : Nat) {index : Nat}
    (h : index ∈ (setting.unitAt position).indexes) : index < setting.requests.length := by
  have hunit : setting.unitAt position = ⟨0, []⟩ ∨ setting.unitAt position ∈ setting.units := by
    rw [Setting.unitAt, List.getD_eq_getElem?_getD]
    cases hget : setting.units[position]? with
    | none => exact .inl rfl
    | some current => exact .inr (List.mem_of_getElem? hget)
  obtain hnone | hmem := hunit
  · rw [hnone] at h
    cases h
  · rw [setting.units_eq] at hmem
    obtain ⟨iteration, -, hmap⟩ := List.mem_flatMap.1 hmem
    obtain ⟨indexes, hcut, hcurrent⟩ := List.mem_map.1 hmap
    rw [← hcurrent] at h
    unfold Setting.cut cuts at hcut
    split_ifs at hcut
    · rw [List.mem_singleton.1 hcut] at h
      exact List.mem_range.1 h
    · obtain ⟨only, honly, rfl⟩ := List.mem_map.1 hcut
      rw [List.mem_singleton.1 h]
      exact List.mem_range.1 honly

theorem forall₂_filterMap {α β : Type} {R : α → β → Prop} {f : α → Option β} {items : List α}
    (h : ∀ item ∈ items, ∃ result, f item = some result ∧ R item result) :
    List.Forall₂ R items (items.filterMap f) := by
  induction items with
  | nil => exact .nil
  | cons item rest ih =>
    obtain ⟨⟨result, hresult, hrelated⟩, hrest⟩ := List.forall_mem_cons.1 h
    rw [List.filterMap_cons_some hresult]
    exact .cons hrelated (ih hrest)

/-- The results of `recordPassedOver` are for the places that are left. -/
theorem passedResults_unrun (setting : Setting ρ) (position : Nat) (progress : Progress) :
    List.Forall₂ (Unrun setting position) (progress.left (setting.unitAt position).indexes.length)
      (setting.passedResults (setting.unitAt position) progress) := by
  apply forall₂_filterMap
  intro cursor hcursor
  obtain ⟨hrange, hleft⟩ := List.mem_filter.1 hcursor
  have hlt := List.mem_range.1 hrange
  have hindex := List.getElem?_eq_getElem hlt
  have hrequest := List.getElem?_eq_getElem (setting.lt_of_mem_indexes position (List.getElem_mem hlt))
  refine ⟨_, ?_, _, _, progress.passed.getD cursor "", hindex, hrequest, ?_, rfl⟩
  · simp [hindex, hrequest]
  · simpa using (Bool.and_eq_true_iff.1 hleft).2

theorem Marked.pass {position : Nat} {progress : Progress}
    {sent : List Nat} {view : View ρ} (h : Marked setting position progress none sent view) :
    Proper setting position
      ⟨view.outputs ++ setting.passedResults (setting.unitAt position) progress,
        view.events ++ (progress.left (setting.unitAt position).indexes.length).map (.passed position)⟩ := by
  have hleft : ∀ cursor ∈ progress.left (setting.unitAt position).indexes.length,
      cursor < (setting.unitAt position).indexes.length ∧ ¬ progress.attempted.getD cursor false = true := by
    intro cursor hcursor
    obtain ⟨hrange, hunattempted⟩ := List.mem_filter.1 hcursor
    refine ⟨List.mem_range.1 hrange, fun hattempted => ?_⟩
    rw [hattempted] at hunattempted
    simp at hunattempted
  refine ⟨sent, progress.left (setting.unitAt position).indexes.length,
    ⟨_, by rw [h.outputs], passedResults_unrun setting position progress⟩, ?_, List.nodup_range.filter _, ?_⟩
  · intro cursor hcursor
    obtain hsent | hpassed := List.mem_append.1 hcursor
    · exact h.inside cursor hsent
    · exact (hleft cursor hpassed).1
  · intro cursor hcursor
    refine ⟨fun hsent => (hleft cursor hcursor).2 (h.attempted cursor hsent), fun hstarted => ?_⟩
    have hold : Event.started position cursor ∈ view.events := by simpa using hstarted
    exact (hleft cursor hcursor).2 ((h.started cursor hold).resolve_right (by simp))

theorem passedRules_kept (setting : Setting ρ) : Kept setting (passedRules setting) fun _ => True where
  start _ := rfl
  take hfresh := hfresh
  inner := by
    intro w s w' s' position hstep _ hold hnew hheld
    cases hstep with
    | take _ => cases hold
    | leave _ => cases hold
    | skip _ => cases hnew
    | «begin» _ =>
      obtain rfl := Option.some.inj hold
      have hempty : s.view _ = ⟨[], []⟩ := hheld
      refine ⟨[], rfl, ?_⟩
      rw [hempty]
      exact marked_newProgress _
    | @start _ position cursor count progress hlt =>
      obtain rfl := Option.some.inj hold
      obtain ⟨sent, hcount, hmarked⟩ := hheld
      have hview : ({ s with log := s.log ++ [.started position cursor] } : Shared ρ).view position =
          ⟨(s.view position).outputs, (s.view position).events ++ [.started position cursor]⟩ := by
        simp [Shared.view, List.filter_append, Event.position]
      refine ⟨hlt, sent, hcount, hmarked.size, hmarked.inside, hmarked.attempted, ?_, hmarked.outputs⟩
      intro other hother
      rw [hview] at hother
      rcases List.mem_append.1 hother with hbefore | hnow
      · exact (hmarked.started other hbefore).imp_right fun hnone => absurd hnone (by simp)
      · have heq := List.mem_singleton.1 hnow
        exact .inr (congrArg some (Event.started.inj heq).2.symm)
    | through _ =>
      obtain rfl := Option.some.inj hold
      obtain ⟨sent, -, hmarked⟩ := hheld
      exact ⟨sent, hmarked⟩
    | @attempt _ position cursor count progress following noted result hattempt =>
      obtain rfl := Option.some.inj hold
      obtain ⟨hlt, sent, hcount, hmarked⟩ := hheld
      obtain ⟨hattempted, hmarked'⟩ := Marked.attempt count hlt hmarked
      have hresult : (setting.attempted position cursor count progress).2.2 =
          setting.sentResult position cursor count := attempted_result position cursor count progress
      rw [hattempt] at hattempted hmarked' hresult
      exact ⟨hlt, hattempted, sent, by rw [hcount], by rw [hcount]; exact hresult, hmarked'⟩
    | @record _ position cursor following count progress result =>
      obtain rfl := Option.some.inj hold
      obtain ⟨hlt, hattempted, sent, hcount, rfl, hmarked⟩ := hheld
      exact ⟨sent ++ [cursor], by simpa using hcount, hmarked.record hlt hattempted⟩
    | quit _ => cases hnew
    | bail _ _ =>
      obtain rfl := Option.some.inj hold
      obtain ⟨sent, -, hmarked⟩ := hheld
      exact ⟨sent, hmarked⟩
    | pause _ _ =>
      obtain rfl := Option.some.inj hold
      exact hheld
    | stop _ =>
      obtain rfl := Option.some.inj hold
      obtain ⟨sent, -, hmarked⟩ := hheld
      exact ⟨sent, hmarked⟩
    | goOn _ =>
      obtain rfl := Option.some.inj hold
      exact hheld
    | pass => cases hnew
  release := by
    intro w s w' s' position hstep _ hold hnew hheld
    cases hstep with
    | skip _ =>
      obtain rfl := Option.some.inj hold
      have hempty : s.view _ = ⟨[], []⟩ := hheld
      show Proper _ _ (s.view _)
      rw [hempty]
      exact proper_nil _
    | quit _ =>
      obtain rfl := Option.some.inj hold
      obtain ⟨sent, -, hmarked⟩ := hheld
      exact Marked.proper hmarked
    | pass =>
      obtain rfl := Option.some.inj hold
      obtain ⟨sent, hmarked⟩ := hheld
      show Proper _ _ (Shared.view _ _)
      rw [record_view_self (by simp [Event.position])]
      exact Marked.pass hmarked
    | take _ => cases hold
    | leave _ => cases hold
    | _ => cases hnew

/-! ## Every run -/

theorem proper_of_marked {worker : Worker ρ} {position : Nat} {view : View ρ}
    (hposition : worker.position = some position) (h : marked setting worker view) :
    Proper setting position view := by
  cases worker with
  | idle => cases hposition
  | done => cases hposition
  | took _ =>
    have hempty : view = ⟨[], []⟩ := h
    rw [hempty]
    exact proper_nil position
  | passing _ _ =>
    obtain rfl := Option.some.inj hposition
    obtain ⟨sent, hmarked⟩ := h
    exact hmarked.proper
  | sending _ _ _ _ =>
    obtain rfl := Option.some.inj hposition
    obtain ⟨-, sent, -, hmarked⟩ := h
    exact hmarked.proper
  | followed _ _ _ _ _ _ =>
    obtain rfl := Option.some.inj hposition
    obtain ⟨-, -, sent, -, -, hmarked⟩ := h
    exact hmarked.proper
  | _ =>
    obtain rfl := Option.some.inj hposition
    obtain ⟨sent, -, hmarked⟩ := h
    exact hmarked.proper

theorem proper_of_reachable {crew : Nat} (hcrew : 0 < crew) {state : State ρ}
    (hreach : Reachable setting crew state) {position : Nat} (h : position < setting.units.length) :
    Proper setting position (state.shared.view position) := by
  have hsound := sound_of_reachable hcrew (passedRules_kept setting) (fun _ _ => trivial) hreach
  obtain ⟨-, hmem⟩ := mem_positions_iteration h
  have hfresh : (passedRules setting).fresh position (state.shared.view position) →
      Proper setting position (state.shared.view position) := by
    intro hempty
    rw [show state.shared.view position = ⟨[], []⟩ from hempty]
    exact proper_nil position
  have hgone : (passedRules setting).Gone position state.shared →
      Proper setting position (state.shared.view position) :=
    fun hgone => hgone.elim id fun hcancelled => hfresh hcancelled.2
  have hbefore : ∀ {iteration}, Before setting (passedRules setting) iteration state.shared →
      Proper setting position (state.shared.view position) := by
    intro iteration hbefore
    rcases Nat.lt_or_ge (setting.unitAt position).iteration iteration with hlt | hge
    · exact hgone (hbefore.gone _ hlt position hmem)
    · exact hfresh (hbefore.fresh _ hge position hmem)
  unfold Sound at hsound
  cases hphase : state.phase with
  | between iteration =>
    rw [hphase] at hsound
    exact hbefore hsound
  | finished =>
    rw [hphase] at hsound
    obtain ⟨iteration, hdone, -⟩ := hsound
    exact hbefore hdone
  | performing iteration workers =>
    rw [hphase] at hsound
    have hduring : During setting (passedRules setting) iteration workers state.shared := hsound
    rcases Nat.lt_trichotomy (setting.unitAt position).iteration iteration with hlt | heq | hgt
    · exact hgone (hduring.gone _ hlt position hmem)
    · rw [heq] at hmem
      by_cases hin : position ∈ state.shared.queue ++ workers.filterMap Worker.position
      · rcases List.mem_append.1 hin with hqueue | hheld
        · exact hfresh (hduring.waiting position hqueue)
        · obtain ⟨worker, hworker, hposition⟩ := List.mem_filterMap.1 hheld
          exact proper_of_marked hposition (hduring.held worker hworker position hposition)
      · exact hduring.past position hmem hin
    · exact hfresh (hduring.fresh _ hgt position hmem)

/-- Where nothing changes its course, a run ends whatever its workers do, with
one result for each planned request in the order of the plan, and an iteration
waits for the one before.  Whatever the scripts ask for, the results of a unit are
those of its attempts and at most one for each request that was never started. -/
theorem collection_run (setting : Setting ρ) {crew : Nat} (hcrew : 0 < crew) :
    (Plain setting →
      (∀ state, Reachable setting crew state →
        (state.phase = .finished → state.results setting = setting.allResults) ∧
        (state.phase ≠ .finished → ∃ next, Step setting crew state next) ∧
        Ordered setting state.shared.log) ∧
      ∀ run : Nat → State ρ, run 0 = {} → ¬ ∀ i, Step setting crew (run i) (run (i + 1))) ∧
    ∀ state, Reachable setting crew state → ∀ position < setting.units.length,
      Proper setting position (state.shared.view position) := by
  refine ⟨fun h => ⟨fun state hreach => ⟨?_, ?_, ?_⟩, ?_⟩, ?_⟩
  · exact results_of_finished h hcrew hreach
  · exact exists_step setting crew
  · exact ordered_of_reachable h hcrew hreach
  · exact fun run => no_endless_run h hcrew run
  · exact fun state hreach position => proper_of_reachable hcrew hreach

def pairSetting : Setting Unit where
  requests := [⟨"a", "first", ""⟩, ⟨"b", "second", ""⟩]
  options := { iterations := 2, parallel := 3 }
  repeats := 100
  quoted name := "\"" ++ name ++ "\""
  plain _ := ()
  attempt _ index _ :=
    { id := if index = 0 then "a" else "b", name := if index = 0 then "first" else "second"
      folder := "", rest := () }
  cancellable := false

/-- Three requests one after the other, the first of which goes on with the last. -/
def jumpSetting : Setting Unit where
  requests := [⟨"a", "first", ""⟩, ⟨"b", "second", ""⟩, ⟨"c", "third", ""⟩]
  options := {}
  repeats := 100
  quoted name := "\"" ++ name ++ "\""
  plain _ := ()
  attempt _ index _ :=
    { id := if index = 0 then "a" else "c", name := if index = 0 then "first" else "third"
      folder := "", flow := if index = 0 then ⟨.next, "third"⟩ else ⟨.none, ""⟩, rest := () }
  cancellable := false

theorem collection_run_pair :
    (∀ state, Reachable pairSetting pairSetting.wanted state → state.phase = .finished →
        (state.results pairSetting).map (fun result => (result.iteration, result.id)) =
          [(1, "a"), (1, "b"), (2, "a"), (2, "b")]) ∧
      ∀ state, Reachable jumpSetting jumpSetting.wanted state →
        Proper jumpSetting 0 (state.shared.view 0) := by
  constructor
  · intro state hreach hfinished
    have hplain : Plain pairSetting := ⟨rfl, rfl, fun _ _ _ => .inl rfl⟩
    have hrun := (collection_run pairSetting (show 0 < pairSetting.wanted by decide)).1 hplain
    rw [(hrun.1 state hreach).1 hfinished]
    decide
  · intro state hreach
    exact (collection_run jumpSetting (show 0 < jumpSetting.wanted by decide)).2 state hreach 0 (by decide)

end Gostman.Schedule
