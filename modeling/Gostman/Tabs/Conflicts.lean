import Gostman.Tabs.Reconcile
import Mathlib.Data.List.Induction
/-!
# Conflicts between a draft and its file

One tab is followed through reloads and edits.  What the file held when the
draft was last clean is kept beside it: when the file then holds something else
and the draft was edited, the two are in conflict, and the tab has to show the
version on disk.
-/

namespace Gostman.Tabs

/-- A tab, the requests of the last reload, and what the tab's file held: when
the draft was last clean, and when it was last there. -/
structure Followed where
  tab : Tab
  requests : List Request
  base : Request
  seen : Request

inductive Step where
  | reload (requests : List Request) (folderIds : List String)
  | edit (draft : Request)

section Steps

variable (window : Window)

/-- The version on disk, where the draft is clean against it. -/
def cleanBase (draft : Request) (requests : List Request) (base : Request) : Request :=
  match current requests draft with
  | some disk => if isRequestDirty window draft disk then base else disk
  | none => base

/-- A reload of a collection that is not restricted, and an edit by the user. -/
def Followed.step (s : Followed) : Step → Followed
  | .reload requests folderIds =>
      let tab := reconcileTab window s.requests requests folderIds false s.tab
      ⟨tab, requests, cleanBase window tab.request requests s.base, (current requests s.tab.request).getD s.seen⟩
  | .edit draft =>
      ⟨{ s.tab with request := draft }, s.requests, cleanBase window draft s.requests s.base, s.seen⟩

def Followed.after (s : Followed) (steps : List Step) : Followed :=
  steps.foldl (Followed.step window) s

def opened (request : Request) (requests : List Request) : Followed :=
  ⟨{ request := request }, requests, request, request⟩

def Known (folderIds : List String) (request : Request) : Prop :=
  request.text .folderId = "" ∨ request.text .folderId ∈ folderIds

/-- An edit leaves the id, and a reload finds the folders of the draft, of the
file and of the file that was there last. -/
def Calm (s : Followed) : Step → Prop
  | .reload requests folderIds =>
      Known folderIds s.tab.request ∧ Known folderIds s.seen ∧
        ∀ disk, current requests s.tab.request = some disk → Known folderIds disk
  | .edit draft => draft.id = s.tab.request.id

/-- A conflict is shown: a draft that differs from the version on disk, which
differs from the one the draft was last clean against. -/
def Shown (s : Followed) : Prop :=
  ∀ disk, current s.requests s.tab.request = some disk → isRequestDirty window s.tab.request disk = true →
    isRequestDirty window disk s.base = true → s.tab.diskChange = some disk

/-- A reload keeps a draft that differs from the version last on disk. -/
def Kept (s : Followed) : Step → Prop
  | .reload requests folderIds => isRequestDirty window s.tab.request s.seen = true →
      (s.step window (.reload requests folderIds)).tab.request = s.tab.request
  | .edit _ => True

/-- A request that is back after it was gone, in conflict with the draft, does
differ from the version it was gone in. -/
def BackChanged (s : Followed) : Step → Prop
  | .reload requests _ => current s.requests s.tab.request = none → ∀ disk, current requests s.tab.request = some disk →
      isRequestDirty window s.tab.request s.seen = true → isRequestDirty window disk s.base = true →
        isRequestDirty window disk s.seen = true
  | .edit _ => True

structure Tracked (s : Followed) : Prop where
  named : s.tab.request.id ≠ ""
  present : ∀ disk, current s.requests s.tab.request = some disk → s.seen = disk
  absent : current s.requests s.tab.request = none → s.tab.vanished = some s.seen ∧ s.tab.diskChange = none
  clean : ∀ disk, current s.requests s.tab.request = some disk →
    isRequestDirty window s.tab.request disk = false → s.base = disk

end Steps

variable {window : Window}

/-! ## The parts of a reload -/

theorem dirty_self (request : Request) : isRequestDirty window request request = false := by
  rw [isRequestDirty, sameRequest_refl]
  rfl

/-- What differs from a third differs from what does not differ from the third. -/
theorem dirty_of_dirty {first second third : Request} (h : isRequestDirty window first third = true)
    (h' : isRequestDirty window second third = false) : isRequestDirty window first second = true := by
  unfold isRequestDirty at *
  rw [Bool.not_eq_true'] at h ⊢
  rw [Bool.not_eq_false'] at h'
  by_contra hsame
  rw [Bool.not_eq_false] at hsame
  rw [sameRequest_trans hsame h'] at h
  cases h

theorem inKnownFolder_of_known {folderIds : List String} {request : Request} (h : Known folderIds request) :
    inKnownFolder folderIds request = request :=
  if_pos h

theorem current_congr {first second : Request} (h : first.id = second.id) (requests : List Request) :
    current requests first = current requests second := by
  unfold current
  rw [h]

theorem id_of_current {requests : List Request} {request disk : Request} (h : current requests request = some disk) :
    disk.id = request.id := by
  unfold current byId at h
  split_ifs at h
  simpa using List.find?_some h

theorem lastSaved_eq {s : Followed} (h : Tracked window s) : s.tab.lastSaved s.requests = some s.seen := by
  have hcurrent : current s.requests s.tab.request = byId s.requests s.tab.request.id := if_neg h.named
  unfold Tab.lastSaved
  cases hdisk : byId s.requests s.tab.request.id with
  | some disk =>
      rw [h.present disk (hcurrent.trans hdisk)]
      rfl
  | none =>
      rw [(h.absent (hcurrent.trans hdisk)).1]
      rfl

section Reload

variable {s : Followed} {requests : List Request} {folderIds : List String}

/-- The draft after a reload: the file where the draft was clean, else as it
was. -/
theorem refresh_eq (h : Tracked window s) :
    refresh window s.requests requests false s.tab =
      match current requests s.tab.request with
      | some disk => if isRequestDirty window s.tab.request s.seen then s.tab.request else disk
      | none => s.tab.request := by
  unfold refresh carried
  rw [lastSaved_eq h]
  cases current requests s.tab.request <;> rfl

theorem diskChangeOf_eq (h : Tracked window s) :
    diskChangeOf window s.requests requests s.tab =
      match current requests s.tab.request with
      | some disk =>
          if isRequestDirty window s.tab.request disk then
            if isRequestDirty window s.tab.request s.seen && isRequestDirty window disk s.seen ||
              s.tab.diskChange.isSome then some disk else none
          else none
      | none => none := by
  unfold diskChangeOf
  rw [lastSaved_eq h]
  cases current requests s.tab.request <;> rfl

/-- The request of the tab after a calm reload. -/
theorem request_reload (h : Tracked window s) (hcalm : Calm s (.reload requests folderIds)) :
    (s.step window (.reload requests folderIds)).tab.request =
      match current requests s.tab.request with
      | some disk => if isRequestDirty window s.tab.request s.seen then s.tab.request else disk
      | none => s.tab.request := by
  obtain ⟨hdraft, -, hdisk⟩ := hcalm
  change inKnownFolder folderIds (refresh window s.requests requests false s.tab) = _
  rw [refresh_eq h]
  cases hcurrent : current requests s.tab.request with
  | none => exact inKnownFolder_of_known hdraft
  | some disk =>
      dsimp only
      split_ifs
      · exact inKnownFolder_of_known hdraft
      · exact inKnownFolder_of_known (hdisk disk hcurrent)

theorem id_reload (h : Tracked window s) (hcalm : Calm s (.reload requests folderIds)) :
    (s.step window (.reload requests folderIds)).tab.request.id = s.tab.request.id := by
  rw [request_reload h hcalm]
  cases hcurrent : current requests s.tab.request with
  | none => rfl
  | some disk =>
      dsimp only
      split_ifs
      · rfl
      · exact id_of_current hcurrent

theorem current_reload (h : Tracked window s) (hcalm : Calm s (.reload requests folderIds)) :
    current requests (s.step window (.reload requests folderIds)).tab.request = current requests s.tab.request :=
  current_congr (id_reload h hcalm) requests

theorem vanished_reload (h : Tracked window s) (hcalm : Calm s (.reload requests folderIds))
    (habsent : current requests s.tab.request = none) :
    (s.step window (.reload requests folderIds)).tab.vanished = some s.seen := by
  have hbyId : byId requests s.tab.request.id = none := by
    rw [← habsent, current, if_neg h.named]
  change vanishedOf s.requests requests folderIds s.tab = _
  rw [vanishedOf, if_pos ⟨h.named, hbyId⟩, lastSaved_eq h]
  exact congrArg some (inKnownFolder_of_known hcalm.2.1)

end Reload

/-! ## One step -/

theorem cleanBase_of_dirty {draft disk base : Request} {requests : List Request}
    (hdisk : current requests draft = some disk) (hdirty : isRequestDirty window draft disk = true) :
    cleanBase window draft requests base = base := by
  rw [cleanBase, hdisk]
  exact if_pos hdirty

theorem cleanBase_of_clean {draft disk base : Request} {requests : List Request}
    (hdisk : current requests draft = some disk) (hclean : isRequestDirty window draft disk = false) :
    cleanBase window draft requests base = disk := by
  rw [cleanBase, hdisk]
  exact if_neg (by rw [hclean]; decide)

theorem tracked_step {s : Followed} {step : Step} (h : Tracked window s) (hcalm : Calm s step) :
    Tracked window (s.step window step) := by
  cases step with
  | reload requests folderIds =>
      have hcurrent := current_reload h hcalm
      constructor
      · rw [id_reload h hcalm]
        exact h.named
      · intro disk hdisk
        have hold : current requests s.tab.request = some disk := hcurrent.symm.trans hdisk
        change (current requests s.tab.request).getD s.seen = disk
        rw [hold]
        rfl
      · intro hnone
        have hold : current requests s.tab.request = none := hcurrent.symm.trans hnone
        constructor
        · rw [vanished_reload h hcalm hold]
          change some s.seen = some ((current requests s.tab.request).getD s.seen)
          rw [hold]
          rfl
        · change diskChangeOf window s.requests requests s.tab = none
          rw [diskChangeOf_eq h, hold]
      · intro disk hdisk hclean
        exact cleanBase_of_clean hdisk hclean
  | edit draft =>
      have hid : draft.id = s.tab.request.id := hcalm
      have hcurrent := current_congr hid s.requests
      constructor
      · change draft.id ≠ ""
        rw [hid]
        exact h.named
      · intro disk hdisk
        exact h.present disk (hcurrent.symm.trans hdisk)
      · intro hnone
        exact h.absent (hcurrent.symm.trans hnone)
      · intro disk hdisk hclean
        exact cleanBase_of_clean hdisk hclean

theorem kept_of_tracked {s : Followed} {step : Step} (h : Tracked window s) (hcalm : Calm s step) :
    Kept window s step := by
  cases step with
  | edit draft => trivial
  | reload requests folderIds =>
      intro hdirty
      rw [request_reload h hcalm]
      cases current requests s.tab.request with
      | none => rfl
      | some disk => exact if_pos hdirty

/-- The warning is there after a reload because the file has changed since it
was last seen, or because it was there before. -/
theorem shown_step {s : Followed} {step : Step} (h : Tracked window s) (hshown : Shown window s)
    (hcalm : Calm s step) (hback : BackChanged window s step) : Shown window (s.step window step) := by
  cases step with
  | reload requests folderIds =>
      intro disk hdisk hdraft hbase
      have hold : current requests s.tab.request = some disk := (current_reload h hcalm).symm.trans hdisk
      have hbase' : (s.step window (.reload requests folderIds)).base = s.base := cleanBase_of_dirty hdisk hdraft
      rw [hbase'] at hbase
      have hrequest := request_reload h hcalm
      rw [hold] at hrequest
      dsimp only at hrequest
      split_ifs at hrequest with hdirty
      · rw [hrequest] at hdraft
        have hwarned : isRequestDirty window disk s.seen = true ∨ s.tab.diskChange.isSome = true := by
          cases hbefore : current s.requests s.tab.request with
          | none => exact .inl (hback hbefore disk hold hdirty hbase)
          | some before =>
              rw [h.present before hbefore] at hdirty ⊢
              by_cases hchanged : isRequestDirty window disk before = true
              · exact .inl hchanged
              · have hbeforeBase : isRequestDirty window before s.base = true := by
                  by_contra hclean
                  exact hchanged (dirty_of_dirty hbase (Bool.not_eq_true _ ▸ hclean))
                right
                rw [hshown before hbefore hdirty hbeforeBase]
                rfl
        change diskChangeOf window s.requests requests s.tab = some disk
        rw [diskChangeOf_eq h, hold]
        dsimp only
        rw [if_pos hdraft, if_pos]
        rw [Bool.or_eq_true, hdirty, Bool.true_and]
        exact hwarned
      · rw [hrequest, dirty_self] at hdraft
        cases hdraft
  | edit draft =>
      intro disk hdisk hdraft hbase
      have hold : current s.requests s.tab.request = some disk := (current_congr hcalm s.requests).symm.trans hdisk
      have hbase' : (s.step window (.edit draft)).base = s.base := cleanBase_of_dirty hdisk hdraft
      rw [hbase'] at hbase
      -- A draft that was clean has the version on disk for its base.
      have hdirty : isRequestDirty window s.tab.request disk = true := by
        by_contra hclean
        rw [h.clean disk hold (Bool.not_eq_true _ ▸ hclean), dirty_self] at hbase
        cases hbase
      exact hshown disk hold hdirty hbase

/-- A request that is back as it was gone takes the warning away. -/
theorem not_shown_step {s : Followed} {step : Step} (h : Tracked window s) (hcalm : Calm s step)
    (hback : ¬ BackChanged window s step) : ¬ Shown window (s.step window step) := by
  cases step with
  | edit draft => exact absurd trivial hback
  | reload requests folderIds =>
      simp only [BackChanged, Classical.not_imp, not_forall, Bool.not_eq_true] at hback
      obtain ⟨hgone, disk, hdisk, hdirty, hbase, hsame⟩ := hback
      have hdraft : isRequestDirty window s.tab.request disk = true := dirty_of_dirty hdirty hsame
      have hrequest : (s.step window (.reload requests folderIds)).tab.request = s.tab.request :=
        kept_of_tracked h hcalm hdirty
      have hnow : current requests (s.step window (.reload requests folderIds)).tab.request = some disk :=
        (current_reload h hcalm).trans hdisk
      intro hshown
      have hbase' : (s.step window (.reload requests folderIds)).base = s.base := by
        apply cleanBase_of_dirty hnow
        exact (congrArg (isRequestDirty window · disk) hrequest).trans hdraft
      have hwarned : diskChangeOf window s.requests requests s.tab = some disk := by
        apply hshown disk hnow
        · rw [hrequest]
          exact hdraft
        · rw [hbase']
          exact hbase
      rw [diskChangeOf_eq h, hdisk] at hwarned
      simp [hsame, (h.absent hgone).2] at hwarned

/-! ## Whole runs -/

theorem after_append (s : Followed) (done : List Step) (step : Step) :
    s.after window (done ++ [step]) = (s.after window done).step window step :=
  List.foldl_concat _ _ _ _

section Runs

variable {s : Followed} {steps : List Step}
  (hcalm : ∀ done step rest, steps = done ++ step :: rest → Calm (s.after window done) step)
include hcalm

theorem tracked_after (h : Tracked window s) (done rest : List Step) (hsteps : steps = done ++ rest) :
    Tracked window (s.after window done) := by
  induction done using List.reverseRecOn generalizing rest with
  | nil => exact h
  | append_singleton done step ih =>
      rw [List.append_assoc] at hsteps
      rw [after_append]
      exact tracked_step (ih _ hsteps) (hcalm done step rest hsteps)

theorem shown_after (h : Tracked window s) (hshown : Shown window s)
    (hback : ∀ done step rest, steps = done ++ step :: rest → BackChanged window (s.after window done) step)
    (done rest : List Step) (hsteps : steps = done ++ rest) : Shown window (s.after window done) := by
  induction done using List.reverseRecOn generalizing rest with
  | nil => exact hshown
  | append_singleton done step ih =>
      rw [List.append_assoc] at hsteps
      rw [after_append]
      exact shown_step (tracked_after hcalm h done _ hsteps) (ih _ hsteps) (hcalm done step rest hsteps)
        (hback done step rest hsteps)

end Runs

section Opened

variable {request : Request} {requests : List Request}

theorem tracked_opened (hid : request.id ≠ "") (hsaved : byId requests request.id = some request) :
    Tracked window (opened request requests) := by
  have hcurrent : current requests request = some request := by
    rw [current, if_neg hid, hsaved]
  constructor
  · exact hid
  · intro disk hdisk
    exact Option.some.inj (hcurrent.symm.trans hdisk)
  · intro hnone
    cases hcurrent.symm.trans hnone
  · intro disk hdisk _
    exact Option.some.inj (hcurrent.symm.trans hdisk)

theorem shown_opened (hid : request.id ≠ "") (hsaved : byId requests request.id = some request) :
    Shown window (opened request requests) := by
  intro disk hdisk _ hbase
  rw [← (@tracked_opened window request requests hid hsaved).present disk hdisk] at hbase
  change isRequestDirty window request request = true at hbase
  rw [dirty_self] at hbase
  cases hbase

end Opened

/-! ## Drafts that were never saved -/

theorem request_unsaved {s : Followed} {step : Step} (h : s.tab.request.id = "") (hcalm : Calm s step) :
    (s.step window step).tab.request.id = "" ∧ Kept window s step := by
  cases step with
  | edit draft => exact ⟨hcalm.trans h, trivial⟩
  | reload requests folderIds =>
      have hcurrent : current requests s.tab.request = none := if_pos h
      have hrequest : (s.step window (.reload requests folderIds)).tab.request = s.tab.request := by
        change inKnownFolder folderIds (refresh window s.requests requests false s.tab) = _
        rw [refresh, hcurrent]
        exact inKnownFolder_of_known hcalm.1
      rw [hrequest]
      exact ⟨h, fun _ => hrequest⟩

theorem unsaved_after {s : Followed} {steps : List Step} (h : s.tab.request.id = "")
    (hcalm : ∀ done step rest, steps = done ++ step :: rest → Calm (s.after window done) step)
    (done rest : List Step) (hsteps : steps = done ++ rest) : (s.after window done).tab.request.id = "" := by
  induction done using List.reverseRecOn generalizing rest with
  | nil => exact h
  | append_singleton done step ih =>
      rw [List.append_assoc] at hsteps
      rw [after_append]
      exact (request_unsaved (ih _ hsteps) (hcalm done step rest hsteps)).1

theorem current_unsaved {request : Request} (h : request.id = "") (requests : List Request) :
    current requests request = none :=
  if_pos h

theorem shown_unsaved {s : Followed} (h : s.tab.request.id = "") : Shown window s := by
  intro disk hdisk
  cases (current_unsaved h s.requests).symm.trans hdisk

theorem backChanged_unsaved {s : Followed} (h : s.tab.request.id = "") (step : Step) :
    BackChanged window s step := by
  cases step with
  | edit draft => trivial
  | reload requests folderIds =>
      intro _ disk hdisk
      cases (current_unsaved h requests).symm.trans hdisk

/-- A conflict is shown after every step, and every edited draft is kept, just
in the runs where no request comes back unchanged and in conflict.  The tab is
opened on a saved request or on a new one. -/
theorem shown_and_kept_iff_backChanged (window : Window) {request : Request} {requests : List Request}
    (hsaved : request.id ≠ "" → byId requests request.id = some request) (steps : List Step)
    (hcalm : ∀ done step rest, steps = done ++ step :: rest → Calm ((opened request requests).after window done) step) :
    (∀ done rest, steps = done ++ rest → Shown window ((opened request requests).after window done)) ∧
      (∀ done step rest, steps = done ++ step :: rest → Kept window ((opened request requests).after window done) step) ↔
    ∀ done step rest, steps = done ++ step :: rest →
      BackChanged window ((opened request requests).after window done) step := by
  by_cases hid : request.id = ""
  · have hunsaved := unsaved_after (s := opened request requests) hid hcalm
    constructor
    · intro _ done step rest hsteps
      exact backChanged_unsaved (hunsaved done _ hsteps) step
    · intro _
      constructor
      · exact fun done rest hsteps => shown_unsaved (hunsaved done rest hsteps)
      · intro done step rest hsteps
        exact (request_unsaved (hunsaved done _ hsteps) (hcalm done step rest hsteps)).2
  · have htracked := tracked_after hcalm (tracked_opened hid (hsaved hid))
    constructor
    · rintro ⟨hshown, -⟩ done step rest hsteps
      by_contra hback
      apply not_shown_step (htracked done _ hsteps) (hcalm done step rest hsteps) hback
      rw [← after_append]
      apply hshown _ rest
      rw [hsteps, List.append_assoc]
      rfl
    · intro hback
      constructor
      · exact shown_after hcalm (tracked_opened hid (hsaved hid)) (shown_opened hid (hsaved hid)) hback
      · intro done step rest hsteps
        exact kept_of_tracked (htracked done _ hsteps) (hcalm done step rest hsteps)

/-! ## A request that comes back as it was gone -/

def plainWindow : Window where
  trim value := value
  foldCase value := value
  withoutActiveContent request := request

/-- The request `r1`, with a url and nothing else. -/
def urlRequest (url : String) : Request where
  id := "r1"
  text field := if field = .url then url else ""
  pairs _ := ""
  tags := []
  auth := ⟨[], trivial⟩
  options := ⟨[], trivial⟩

/-- The draft is edited, the file changes, is gone, and is back. -/
def vanishing : List Step :=
  [.edit (urlRequest "/draft"), .reload [urlRequest "/b"] [], .reload [] [], .reload [urlRequest "/b"] []]

/-- In a run of two steps a step is the first or the second. -/
theorem step_of_two {first second step : Step} {done rest : List Step} (h : [first, second] = done ++ step :: rest) :
    (done = [] ∧ step = first) ∨ (done = [first] ∧ step = second) := by
  rcases done with _ | ⟨head, _ | ⟨next, done⟩⟩
  · left
    exact ⟨rfl, (List.cons.inj h).1.symm⟩
  · right
    obtain ⟨rfl, hrest⟩ := List.cons.inj h
    exact ⟨rfl, (List.cons.inj hrest).1.symm⟩
  · simp at h

theorem conflict_shown_at_change :
    (∀ done rest, vanishing.take 2 = done ++ rest →
        Shown plainWindow ((opened (urlRequest "/a") [urlRequest "/a"]).after plainWindow done)) ∧
      ∀ done step rest, vanishing.take 2 = done ++ step :: rest →
        Kept plainWindow ((opened (urlRequest "/a") [urlRequest "/a"]).after plainWindow done) step := by
  apply (shown_and_kept_iff_backChanged plainWindow (fun _ => by rfl) (vanishing.take 2) ?_).2
  · intro done step rest hsteps
    obtain ⟨rfl, rfl⟩ | ⟨rfl, rfl⟩ := step_of_two hsteps
    · trivial
    · intro hgone
      cases hgone
  · intro done step rest hsteps
    obtain ⟨rfl, rfl⟩ | ⟨rfl, rfl⟩ := step_of_two hsteps
    · rfl
    · refine ⟨.inl rfl, .inl rfl, ?_⟩
      intro disk hdisk
      cases hdisk
      exact .inl rfl

/-- The draft differs from the file, which differs from the version the draft
was clean against, and the tab shows no change. -/
theorem back_not_shown :
    ¬ Shown plainWindow ((opened (urlRequest "/a") [urlRequest "/a"]).after plainWindow vanishing) := by
  intro hshown
  have hwarned := hshown (urlRequest "/b") rfl (by decide +kernel) (by decide +kernel)
  have hnone : ((opened (urlRequest "/a") [urlRequest "/a"]).after plainWindow vanishing).tab.diskChange = none := by
    rfl
  rw [hnone] at hwarned
  cases hwarned

end Gostman.Tabs
