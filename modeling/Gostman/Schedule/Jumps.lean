import Gostman.Schedule.Model
/-!
# Scripts that jump

A unit is gone through with a cursor that a script can set back.  A jump is
refused once the unit has sent as many requests as it holds and `FlowSteps`
more, but the requests after the target of a jump are not counted in advance.
-/

namespace Gostman.Schedule

open Gostman.Lib

variable {ρ : Type} (setting : Setting ρ) (position : Nat)

def Setting.size : Nat :=
  (setting.unitAt position).indexes.length

/-- How many requests of its unit a worker has attempted. -/
def Worker.attempts : Worker ρ → Nat
  | .running _ _ sent _ => sent
  | .sending _ _ sent _ => sent + 1
  | .followed _ _ _ sent _ _ => sent
  | .recorded _ _ sent _ _ => sent
  | .paused _ _ sent _ => sent
  | _ => 0

def Worker.inUnit : Worker ρ → Prop
  | .running at' _ _ _ => at' = position
  | .sending at' _ _ _ => at' = position
  | .followed at' _ _ _ _ _ => at' = position
  | .recorded at' _ _ _ _ => at' = position
  | .paused at' _ _ _ => at' = position
  | _ => False

/-- A step in that loop, whatever others make of the shared state. -/
def UnitStep (worker next : Worker ρ) : Prop :=
  worker.inUnit position ∧ ∃ s s', WorkerStep setting worker s next s'

def entered : Worker ρ :=
  .running position 0 0 (newProgress (setting.size position))

def Setting.outcome (cursor sent : Nat) : Flow :=
  (setting.attempt (setting.unitAt position).iteration ((setting.unitAt position).indexes.getD cursor 0) sent).flow

/-- If the attempt ends with a jump that is followed, it and the requests from
the target on are no more than a bound. -/
def JumpsBelow (bound : Nat) : Worker ρ → Prop
  | .sending _ cursor sent _ => ∀ target, (setting.outcome position cursor (sent + 1)).action = .next →
      sent + 1 < setting.size position + setting.repeats →
      setting.locate (setting.unitAt position) (setting.outcome position cursor (sent + 1)).target = .ok target →
      sent + 1 + (setting.size position - target) ≤ bound
  | _ => True

/-- A jump leaves room for the requests from its target on. -/
def Roomy (worker : Worker ρ) : Prop :=
  JumpsBelow setting position (setting.size position + setting.repeats) worker

variable {setting position}

/-! ## The cursor -/

theorem attempted_cursor {cursor sent : Nat} {progress noted : Progress} {following : Following} {result : Result ρ}
    (h : setting.attempted position cursor sent progress = (following, noted, result)) :
    ∃ name, following = setting.follow (setting.unitAt position) cursor
      (setting.outcome position cursor (sent + 1)) name (sent + 1) := by
  unfold Setting.attempted at h
  simp only at h
  split_ifs at h
  · exact ⟨_, (Prod.mk.inj h).1.symm⟩
  · exact ⟨_, (Prod.mk.inj h).1.symm⟩

/-- Where the cursor goes: to the end, on by one, or to the target of a jump. -/
theorem follow_cursor (cursor sent : Nat) (outcome : Flow) (name : String) :
    (setting.follow (setting.unitAt position) cursor outcome name sent).cursor = setting.size position ∨
    (setting.follow (setting.unitAt position) cursor outcome name sent).cursor = cursor + 1 ∨
    (outcome.action = .next ∧ sent < setting.size position + setting.repeats ∧
      setting.locate (setting.unitAt position) outcome.target =
        .ok (setting.follow (setting.unitAt position) cursor outcome name sent).cursor) := by
  unfold Setting.follow
  simp only
  cases haction : outcome.action with
  | none => exact .inr (.inl rfl)
  | skip => exact .inr (.inl rfl)
  | stop => exact .inl rfl
  | finish => exact .inl rfl
  | next =>
    simp only
    by_cases hsent : sent ≥ (setting.unitAt position).indexes.length + setting.repeats
    · rw [if_pos hsent]
      exact .inl rfl
    · rw [if_neg hsent]
      cases hlocate : setting.locate (setting.unitAt position) outcome.target with
      | error problem => exact .inl rfl
      | ok target => exact .inr (.inr ⟨trivial, Nat.lt_of_not_le hsent, rfl⟩)

/-! ## What is still to come -/

section Bounds

variable (setting position)

/-- The requests attempted and those from the cursor on are no more than a bound. -/
def Below (bound : Nat) : Worker ρ → Prop
  | .running _ cursor sent _ => sent + (setting.size position - cursor) ≤ bound
  | .sending _ cursor sent _ => cursor < setting.size position ∧ sent + (setting.size position - cursor) ≤ bound
  | .followed _ _ following sent _ _ => sent + (setting.size position - following) ≤ bound
  | .recorded _ following sent _ _ => sent + (setting.size position - following) ≤ bound
  | .paused _ following sent _ => sent + (setting.size position - following) ≤ bound
  | _ => True

end Bounds

theorem Below.attempts {bound : Nat} {worker : Worker ρ} (h : Below setting position bound worker) :
    worker.attempts ≤ bound := by
  cases worker with
  | running _ cursor sent _ => exact Nat.le_trans (Nat.le_add_right ..) h
  | sending _ cursor sent _ =>
    obtain ⟨hcursor, hbound⟩ := h
    change sent + 1 ≤ bound
    omega
  | followed _ _ following sent _ _ => exact Nat.le_trans (Nat.le_add_right ..) h
  | recorded _ following sent _ _ => exact Nat.le_trans (Nat.le_add_right ..) h
  | paused _ following sent _ => exact Nat.le_trans (Nat.le_add_right ..) h
  | idle => exact Nat.zero_le _
  | took _ => exact Nat.zero_le _
  | passing _ _ => exact Nat.zero_le _
  | done => exact Nat.zero_le _

/-- A step keeps below the bound if its jump does. -/
theorem Below.step {bound : Nat} {worker next : Worker ρ} (h : Below setting position bound worker)
    (hjump : JumpsBelow setting position bound worker) (hstep : UnitStep setting position worker next) :
    Below setting position bound next := by
  obtain ⟨hin, s, s', hstep⟩ := hstep
  cases hstep with
  | take _ => exact hin.elim
  | leave _ => exact hin.elim
  | skip _ => exact hin.elim
  | begin _ => exact hin.elim
  | start hcursor =>
    obtain rfl : _ = position := hin
    exact ⟨hcursor, h⟩
  | through _ => trivial
  | @attempt _ _ cursor sent _ following _ _ hattempt =>
    obtain rfl : _ = position := hin
    obtain ⟨hcursor, hbound⟩ := h
    obtain ⟨name, rfl⟩ := attempted_cursor hattempt
    change sent + 1 + (setting.size _ - _) ≤ bound
    rcases follow_cursor cursor (sent + 1) (setting.outcome _ cursor (sent + 1)) name with
      hend | hon | ⟨hnext, hsent, htarget⟩
    · rw [hend]
      omega
    · rw [hon]
      omega
    · exact hjump _ hnext hsent htarget
  | record => exact h
  | quit _ => trivial
  | bail _ _ => trivial
  | pause _ _ => exact h
  | stop _ => trivial
  | goOn _ => exact h
  | pass => exact hin.elim

def RoomyRun (setting : Setting ρ) (position : Nat) (worker : Worker ρ) : Prop :=
  Relation.ReflTransGen (fun before after => UnitStep setting position before after ∧ Roomy setting position before)
    (entered setting position) worker

theorem attempts_of_roomy {worker : Worker ρ} (h : RoomyRun setting position worker) :
    worker.attempts ≤ setting.size position + setting.repeats := by
  have hbelow : Below setting position (setting.size position + setting.repeats) worker := by
    induction h with
    | refl =>
      change 0 + (setting.size position - 0) ≤ _
      omega
    | tail _ hstep ih => exact ih.step hstep.2 hstep.1
  exact hbelow.attempts

theorem below_of_run {worker : Worker ρ}
    (h : Relation.ReflTransGen (UnitStep setting position) (entered setting position) worker) :
    Below setting position (2 * setting.size position + setting.repeats) worker := by
  induction h with
  | refl =>
    change 0 + (setting.size position - 0) ≤ _
    omega
  | @tail before after _ hstep ih =>
    refine ih.step ?_ hstep
    cases before with
    | sending _ cursor sent _ =>
      intro target _ hsent _
      omega
    | _ => trivial

/-- Whatever scripts ask for, a pass over the unit attempts fewer than twice the
requests it holds and `FlowSteps`. -/
theorem attempts_le {worker : Worker ρ}
    (h : Relation.ReflTransGen (UnitStep setting position) (entered setting position) worker) :
    worker.attempts ≤ 2 * setting.size position + setting.repeats :=
  (below_of_run h).attempts

/-! ## The end of a pass -/

def distance (setting : Setting ρ) (position cursor sent : Nat) : Nat :=
  (setting.size position + setting.repeats - sent) * (setting.size position + 1) + (setting.size position - cursor)

def unitWeight (setting : Setting ρ) (position : Nat) : Worker ρ → Nat
  | .running _ cursor sent _ => 5 * distance setting position cursor sent + 5
  | .sending _ cursor sent _ => 5 * distance setting position cursor sent + 4
  | .followed _ _ following sent _ _ => 5 * distance setting position following sent + 8
  | .recorded _ following sent _ _ => 5 * distance setting position following sent + 7
  | .paused _ following sent _ => 5 * distance setting position following sent + 6
  | _ => 0

theorem distance_lt {cursor sent target : Nat} (hcursor : cursor < setting.size position)
    (h : target = setting.size position ∨ target = cursor + 1 ∨ sent + 1 < setting.size position + setting.repeats) :
    distance setting position target (sent + 1) < distance setting position cursor sent := by
  unfold distance
  generalize setting.size position = size at *
  generalize hleft : size + setting.repeats - (sent + 1) = left
  by_cases hroom : sent + 1 ≤ size + setting.repeats
  · have hbefore : size + setting.repeats - sent = left + 1 := by omega
    rw [hbefore, Nat.succ_mul]
    omega
  · have hzero : left = 0 ∧ size + setting.repeats - sent = 0 := by omega
    rw [hzero.1, hzero.2]
    omega

theorem unitWeight_lt {bound : Nat} {worker next : Worker ρ} (h : Below setting position bound worker)
    (hstep : UnitStep setting position worker next) :
    unitWeight setting position next < unitWeight setting position worker := by
  obtain ⟨hin, s, s', hstep⟩ := hstep
  cases hstep with
  | take _ => exact hin.elim
  | leave _ => exact hin.elim
  | skip _ => exact hin.elim
  | begin _ => exact hin.elim
  | start _ => exact Nat.lt_succ_self _
  | through _ => exact Nat.succ_pos _
  | @attempt _ place cursor sent _ following _ _ hattempt =>
    obtain rfl : place = position := hin
    obtain ⟨name, rfl⟩ := attempted_cursor hattempt
    have hcursor : (setting.follow (setting.unitAt place) cursor (setting.outcome place cursor (sent + 1)) name
        (sent + 1)).cursor = setting.size place ∨ (setting.follow (setting.unitAt place) cursor
        (setting.outcome place cursor (sent + 1)) name (sent + 1)).cursor = cursor + 1 ∨
        sent + 1 < setting.size place + setting.repeats := by
      rcases follow_cursor cursor (sent + 1) (setting.outcome place cursor (sent + 1)) name with
        hend | hon | ⟨-, hsent, -⟩
      · exact .inl hend
      · exact .inr (.inl hon)
      · exact .inr (.inr hsent)
    have hlt := distance_lt h.1 hcursor
    change 5 * distance setting place _ (sent + 1) + 8 < 5 * distance setting place cursor sent + 4
    omega
  | record => exact Nat.lt_succ_self _
  | quit _ => exact Nat.succ_pos _
  | bail _ _ => exact Nat.succ_pos _
  | pause _ _ => exact Nat.lt_succ_self _
  | stop _ => exact Nat.succ_pos _
  | goOn _ => exact Nat.lt_succ_self _
  | pass => exact hin.elim

theorem pass_ends {run : Nat → Worker ρ} (hfirst : run 0 = entered setting position)
    (hstep : ∀ k, (run k).inUnit position → UnitStep setting position (run k) (run (k + 1))) :
    ∃ k, ¬ (run k).inUnit position := by
  by_contra hall
  push Not at hall
  have hreached : ∀ k, Relation.ReflTransGen (UnitStep setting position) (entered setting position) (run k) := by
    intro k
    induction k with
    | zero =>
      rw [hfirst]
    | succ k ih => exact ih.tail (hstep k (hall k))
  have hweight : ∀ k, unitWeight setting position (run k) + k ≤ unitWeight setting position (run 0) := by
    intro k
    induction k with
    | zero => exact Nat.le_refl _
    | succ k ih =>
      have hlt := unitWeight_lt (below_of_run (hreached k)) (hstep k (hall k))
      omega
  have hend := hweight (unitWeight setting position (run 0) + 1)
  omega

/-- The loop of `work` over a unit ends whatever its scripts ask for.  It
attempts at most as many requests as the unit holds and `FlowSteps` more if
every jump that is followed leaves room for the requests from its target on,
and as many again as the unit holds in any case. -/
theorem pass_within_allowance (setting : Setting ρ) (position : Nat) :
    (∀ run : Nat → Worker ρ, run 0 = entered setting position →
      (∀ k, (run k).inUnit position → UnitStep setting position (run k) (run (k + 1))) →
      ∃ k, ¬ (run k).inUnit position) ∧
    (∀ worker, RoomyRun setting position worker →
      worker.attempts ≤ setting.size position + setting.repeats) ∧
    (∀ worker, Relation.ReflTransGen (UnitStep setting position) (entered setting position) worker →
      worker.attempts ≤ 2 * setting.size position + setting.repeats) :=
  ⟨fun _ hfirst hstep => pass_ends hfirst hstep, fun _ h => attempts_of_roomy h, fun _ h => attempts_le h⟩

/-! ## A jump late in a pass -/

/-- One request after another, if no script ends the pass. -/
theorem round {cursor sent target : Nat} (progress : Progress) (hcursor : cursor < setting.size position)
    (htarget : (setting.attempted position cursor sent progress).1.cursor = target)
    (hfailed : (setting.attempted position cursor sent progress).2.2.failed = false) :
    ∃ noted, Relation.ReflTransGen (UnitStep setting position) (.running position cursor sent progress)
      (.running position target (sent + 1) noted) := by
  rcases hattempted : setting.attempted position cursor sent progress with ⟨following, noted, result⟩
  rw [hattempted] at htarget hfailed
  obtain rfl : following.cursor = target := htarget
  have hstart : UnitStep setting position (.running position cursor sent progress)
      (.sending position cursor sent progress) := ⟨rfl, {}, _, .start hcursor⟩
  have hattempt : UnitStep setting position (.sending position cursor sent progress)
      (.followed position cursor following.cursor (sent + 1) noted result) := ⟨rfl, {}, _, .attempt hattempted⟩
  have hrecord : UnitStep setting position (.followed position cursor following.cursor (sent + 1) noted result)
      (.recorded position following.cursor (sent + 1) noted result) := ⟨rfl, {}, _, .record⟩
  have hpause : UnitStep setting position (.recorded position following.cursor (sent + 1) noted result)
      (.paused position following.cursor (sent + 1) noted) :=
    ⟨rfl, {}, _, .pause Bool.false_ne_true (fun hbail => Bool.false_ne_true (hfailed.symm.trans hbail.2))⟩
  have hgo : UnitStep setting position (.paused position following.cursor (sent + 1) noted)
      (.running position following.cursor (sent + 1) noted) :=
    ⟨rfl, {}, _, .goOn (by simp)⟩
  exact ⟨noted, ((((Relation.ReflTransGen.single hstart).tail hattempt).tail hrecord).tail hpause).tail hgo⟩

/-- Two requests; the script of the second always continues with the first. -/
def looping : Setting Unit where
  requests := [⟨"1", "login", ""⟩, ⟨"2", "poll", ""⟩]
  options := {}
  repeats := 1
  quoted text := text
  plain _ := ()
  attempt _ index _ :=
    { id := "", name := "", folder := "", rest := ()
      flow := if index = 1 then ⟨.next, "login"⟩ else ⟨.none, ""⟩ }
  cancellable := false

/-- It attempts four requests, though it holds two and may send one more. -/
theorem looping_exceeds : ∃ worker, Relation.ReflTransGen (UnitStep looping 0) (entered looping 0) worker ∧
    looping.size 0 = 2 ∧ looping.repeats = 1 ∧ worker.attempts = 4 := by
  have hlogin : ∀ sent progress, ∃ noted, Relation.ReflTransGen (UnitStep looping 0) (.running 0 0 sent progress)
      (.running 0 1 (sent + 1) noted) := fun sent progress => round progress (by decide) rfl rfl
  have hpoll : ∀ progress, ∃ noted, Relation.ReflTransGen (UnitStep looping 0) (.running 0 1 1 progress)
      (.running 0 0 2 noted) := fun progress => round progress (by decide) rfl rfl
  obtain ⟨first, hfirst⟩ := hlogin 0 (newProgress 2)
  obtain ⟨second, hsecond⟩ := hpoll first
  obtain ⟨third, hthird⟩ := hlogin 2 second
  have hfourth : UnitStep looping 0 (.running 0 1 3 third) (.sending 0 1 3 third) :=
    ⟨rfl, {}, _, .start (by decide)⟩
  exact ⟨_, ((hfirst.trans hsecond).trans hthird).tail hfourth, by decide, rfl, rfl⟩

end Gostman.Schedule
