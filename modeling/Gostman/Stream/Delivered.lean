import Gostman.Stream.Reading
/-!
# What of a stream is passed on

How a body is cut into chunks makes no difference to what is passed on.  The
events are numbered from one through all connections, up to the limit, and so are
the waits between the connections.
-/

namespace Gostman.Stream

open Gostman.Lib

variable {ρ : Type} {limits : Limits}

/-! ## Chunks -/

variable (limits) in
/-- Passing events on does not look at the parser nor at the bytes. -/
theorem announce_with (events : List Event) (s : Streaming ρ) (parser : EventParser) (bytes : Nat) :
    announce limits events { s with parser, bytes } =
      ((announce limits events s).1, { (announce limits events s).2 with parser, bytes }) := by
  induction events generalizing s with
  | nil => rfl
  | cons event rest ih =>
    rw [announce, announce]
    simp only
    split_ifs
    · rfl
    · rfl
    · exact ih { s with
        events := s.events + 1
        emitted := s.emitted + eventSize event
        out := s.out ++ [.event (s.events + 1) event] }

theorem announce_append (first second : List Event) (s : Streaming ρ) :
    announce limits (first ++ second) s =
      match announce limits first s with
      | (some reason, s) => (some reason, s)
      | (none, s) => announce limits second s := by
  induction first generalizing s with
  | nil => rfl
  | cons event rest ih =>
    rw [List.cons_append, announce, announce]
    simp only
    split_ifs
    · rfl
    · rfl
    · exact ih _

/-- The same was passed on for the same reason, and where there is more to come the
states are the same. -/
structure Alike (first second : Option EndReason × Streaming ρ) : Prop where
  reason : first.1 = second.1
  out : first.2.out = second.2.out
  state : first.1 = none → first.2 = second.2

theorem Alike.refl (result : Option EndReason × Streaming ρ) : Alike result result :=
  ⟨rfl, rfl, fun _ => rfl⟩

theorem accept_of_le {s : Streaming ρ} {chunk : Bytes} (h : chunk.length ≤ limits.maxBytes - s.bytes) :
    accept limits s chunk = announce limits (feed s.parser chunk).1
      { s with bytes := s.bytes + chunk.length, parser := (feed s.parser chunk).2 } := by
  unfold accept
  simp only
  rw [List.take_of_length_le h]
  have hcapped : ¬ chunk.length > limits.maxBytes - s.bytes := by omega
  split
  next heq => exact heq.symm
  next heq =>
    rw [if_neg hcapped]
    exact heq.symm

theorem accept_of_lt {s : Streaming ρ} {chunk : Bytes} (h : limits.maxBytes - s.bytes < chunk.length) :
    accept limits s chunk =
      (some ((accept limits s (chunk.take (limits.maxBytes - s.bytes))).1.getD .maxBytes),
        (accept limits s (chunk.take (limits.maxBytes - s.bytes))).2) := by
  have htake : (chunk.take (limits.maxBytes - s.bytes)).length = limits.maxBytes - s.bytes := by
    rw [List.length_take]
    omega
  rw [accept_of_le htake.le]
  unfold accept
  simp only
  split
  next heq =>
    rw [heq]
    rfl
  next heq =>
    rw [heq, if_pos h]
    rfl

theorem accept_append_of_le {s : Streaming ρ} {a b : Bytes} (h : (a ++ b).length ≤ limits.maxBytes - s.bytes) :
    match accept limits s a with
    | (some reason, t) => ∃ t', accept limits s (a ++ b) = (some reason, t') ∧ t'.out = t.out
    | (none, t) => accept limits s (a ++ b) = accept limits t b ∧ t.bytes = s.bytes + a.length := by
  rw [List.length_append] at h
  have ha : a.length ≤ limits.maxBytes - s.bytes := by omega
  have hab : (a ++ b).length ≤ limits.maxBytes - s.bytes := by
    rw [List.length_append]
    exact h
  have hfirst := fun parser bytes => announce_with limits (feed s.parser a).1 s parser bytes
  rw [accept_of_le hab, feed_append, accept_of_le ha]
  simp only
  rw [announce_append, hfirst (feed (feed s.parser a).2 b).2 (s.bytes + (a ++ b).length),
    hfirst (feed s.parser a).2 (s.bytes + a.length)]
  cases hresult : announce limits (feed s.parser a).1 s with
  | mk reason t =>
    cases reason with
    | some reason => exact ⟨_, rfl, rfl⟩
    | none =>
      refine ⟨?_, rfl⟩
      have hb : b.length ≤ limits.maxBytes - (s.bytes + a.length) := by omega
      rw [accept_of_le hb]
      simp only
      rw [List.length_append, announce_with limits _ t]
      simp only [Nat.add_assoc]
      exact (announce_with limits _ t _ _).symm

/-- Two chunks one after the other are taken as one. -/
theorem accept_append (s : Streaming ρ) (a b : Bytes) :
    Alike
      (match accept limits s a with
        | (some reason, s) => (some reason, s)
        | (none, s) => accept limits s b)
      (accept limits s (a ++ b)) := by
  by_cases ha : a.length ≤ limits.maxBytes - s.bytes
  · by_cases hab : (a ++ b).length ≤ limits.maxBytes - s.bytes
    · have hle := accept_append_of_le hab
      cases hresult : accept limits s a with
      | mk reason t =>
        rw [hresult] at hle
        cases reason with
        | some reason =>
          obtain ⟨t', heq, hout⟩ := hle
          rw [heq]
          exact ⟨rfl, hout.symm, fun hnone => nomatch hnone⟩
        | none =>
          rw [hle.1]
          exact .refl _
    · have hlt : limits.maxBytes - s.bytes < (a ++ b).length := by omega
      have htake : (a ++ b).take (limits.maxBytes - s.bytes) = a ++ b.take (limits.maxBytes - s.bytes - a.length) :=
        by rw [List.take_append, List.take_of_length_le ha]
      rw [List.length_append] at hlt
      have hfits : (a ++ b.take (limits.maxBytes - s.bytes - a.length)).length ≤ limits.maxBytes - s.bytes := by
        rw [List.length_append, List.length_take]
        omega
      have hle := accept_append_of_le hfits
      have hlong : limits.maxBytes - s.bytes < (a ++ b).length := by rwa [List.length_append]
      rw [accept_of_lt hlong, htake]
      cases hresult : accept limits s a with
      | mk reason t =>
        rw [hresult] at hle
        cases reason with
        | some reason =>
          obtain ⟨t', heq, hout⟩ := hle
          rw [heq]
          exact ⟨rfl, hout.symm, fun hnone => nomatch hnone⟩
        | none =>
          obtain ⟨heq, hbytes⟩ := hle
          have hroom : limits.maxBytes - t.bytes = limits.maxBytes - s.bytes - a.length := by omega
          simp only
          have hlongB : limits.maxBytes - t.bytes < b.length := by omega
          rw [heq, accept_of_lt hlongB, hroom]
          exact .refl _
  · have hlt : limits.maxBytes - s.bytes < a.length := by omega
    have hlt' : limits.maxBytes - s.bytes < (a ++ b).length := by
      rw [List.length_append]
      omega
    rw [accept_of_lt hlt', List.take_append_of_le_length hlt.le, ← accept_of_lt hlt, accept_of_lt hlt]
    exact .refl _

theorem accept_nil (s : Streaming ρ) : accept limits s [] = (none, s) := by
  rw [accept_of_le (Nat.zero_le _), feed]
  rfl

theorem Alike.trans {first second third : Option EndReason × Streaming ρ} (h : Alike first second) (h' : Alike second third) :
    Alike first third :=
  ⟨h.reason.trans h'.reason, h.out.trans h'.out, fun hnone => (h.state hnone).trans (h'.state (h.reason ▸ hnone))⟩

variable (limits) in
/-- The chunks of a body are taken as the body they are cut from. -/
theorem readChunks_flatten (chunks : List Bytes) (s : Streaming ρ) :
    Alike (readChunks limits chunks s) (accept limits s chunks.flatten) := by
  induction chunks generalizing s with
  | nil =>
    rw [readChunks, List.flatten_nil, accept_nil]
    exact .refl _
  | cons chunk rest ih =>
    rw [readChunks, List.flatten_cons]
    refine Alike.trans ?_ (accept_append s chunk rest.flatten)
    cases accept limits s chunk with
    | mk reason t =>
      cases reason with
      | some reason => exact .refl _
      | none => exact ih t

/-! ## The whole stream -/

def Body.Same (first second : Body) : Prop :=
  first.chunks.flatten = second.chunks.flatten ∧ first.error = second.error ∧ first.ctx = second.ctx

def Dial.Same : Dial ρ → Dial ρ → Prop
  | .stream response body, .stream response' body' => response = response' ∧ body.Same body'
  | first, second => first = second

theorem Dial.Same.cases {first second : Dial ρ} (h : first.Same second) :
    first = second ∨ ∃ response body body', first = .stream response body ∧ second = .stream response body' ∧
      body.Same body' := by
  unfold Dial.Same at h
  split at h
  next response body response' body' =>
    obtain ⟨rfl, hbody⟩ := h
    exact .inr ⟨response, body, body', rfl, rfl, hbody⟩
  next => exact .inl h

def Again.Same (first second : Again ρ) : Prop :=
  first.isAlive = second.isAlive ∧ first.interrupted = second.interrupted ∧ first.dial.Same second.dial

/-- The same was passed on for the same reason, and the states are the same where the
stream may go on. -/
structure Alongside (first second : (EndReason × String) × Streaming ρ) : Prop where
  ended : first.1 = second.1
  out : first.2.out = second.2.out
  state : first.1.1 = .closed ∨ first.1.1 = .failed → first.2 = second.2

/-- Where reading stops at a limit, the stream does not go on. -/
theorem announce_reason {events : List Event} {s : Streaming ρ} {reason : EndReason}
    (h : (announce limits events s).1 = some reason) : reason = .maxEvents ∨ reason = .maxBytes := by
  induction events generalizing s with
  | nil => cases h
  | cons event rest ih =>
    rw [announce] at h
    simp only at h
    split_ifs at h
    · exact .inl (Option.some.inj h).symm
    · exact .inr (Option.some.inj h).symm
    · exact ih h

theorem accept_reason {s : Streaming ρ} {chunk : Bytes} {reason : EndReason} (h : (accept limits s chunk).1 = some reason) :
    reason = .maxEvents ∨ reason = .maxBytes := by
  by_cases hle : chunk.length ≤ limits.maxBytes - s.bytes
  · rw [accept_of_le hle] at h
    exact announce_reason h
  · have hlt : limits.maxBytes - s.bytes < chunk.length := by omega
    have htake : (chunk.take (limits.maxBytes - s.bytes)).length ≤ limits.maxBytes - s.bytes := by
      rw [List.length_take]
      omega
    rw [accept_of_lt hlt, Option.some_inj, accept_of_le htake] at h
    cases hresult : (announce limits (feed s.parser (chunk.take (limits.maxBytes - s.bytes))).1
      { s with bytes := s.bytes + (chunk.take (limits.maxBytes - s.bytes)).length,
               parser := (feed s.parser (chunk.take (limits.maxBytes - s.bytes))).2 }).1 with
    | none =>
      rw [hresult] at h
      exact .inr h.symm
    | some other =>
      rw [hresult] at h
      rw [← h]
      exact announce_reason hresult

variable (limits) in
theorem read_alongside (s : Streaming ρ) (response : ρ) {body body' : Body} (h : body.Same body') :
    Alongside (read limits s response body) (read limits s response body') := by
  obtain ⟨hflatten, herror, hctx⟩ := h
  have hleft := readChunks_flatten limits body.chunks { s with out := s.out ++ [.opened response] }
  have hright := readChunks_flatten limits body'.chunks { s with out := s.out ++ [.opened response] }
  rw [hflatten] at hleft
  have hreason := hleft.reason.trans hright.reason.symm
  have hout := hleft.out.trans hright.out.symm
  unfold read
  rw [herror, hctx]
  cases hfirst : readChunks limits body.chunks { s with out := s.out ++ [.opened response] } with
  | mk reason t =>
    cases hsecond : readChunks limits body'.chunks { s with out := s.out ++ [.opened response] } with
    | mk reason' t' =>
      rw [hfirst, hsecond] at hreason hout
      rw [hfirst] at hleft
      rw [hsecond] at hright
      obtain rfl : reason = reason' := hreason
      cases reason with
      | none =>
        have hstate : t = t' := (hleft.state rfl).trans (hright.state rfl).symm
        rw [hstate]
        exact ⟨rfl, rfl, fun _ => rfl⟩
      | some reason =>
        refine ⟨rfl, hout, ?_⟩
        have hlimit := accept_reason hleft.reason.symm
        rintro (hclosed | hfailed)
        · obtain rfl : reason = .closed := hclosed
          simp at hlimit
        · obtain rfl : reason = .failed := hfailed
          simp at hlimit

theorem not_shouldReconnect {streamReconnect : Bool} {again : Again ρ} {reason : EndReason}
    (h : ¬ (reason = .closed ∨ reason = .failed)) : ¬ shouldReconnect streamReconnect again reason = true := by
  unfold shouldReconnect
  simpa using fun _ _ => not_or.1 h

theorem should_same {streamReconnect : Bool} {env env' : Nat → Again ρ} (henv : ∀ attempt, (env attempt).Same (env' attempt))
    (attempt : Nat) (reason : EndReason) :
    shouldReconnect streamReconnect (env attempt) reason = shouldReconnect streamReconnect (env' attempt) reason := by
  unfold shouldReconnect
  rw [(henv attempt).1]

variable (limits) in
theorem reconnect_alongside (streamReconnect : Bool) {env env' : Nat → Again ρ} (henv : ∀ attempt, (env attempt).Same (env' attempt))
    (left : Nat) {first second : (EndReason × String) × Streaming ρ} (h : Alongside first second) :
    (reconnect limits streamReconnect env left first.1 first.2).1 =
        (reconnect limits streamReconnect env' left second.1 second.2).1 ∧
      (reconnect limits streamReconnect env left first.1 first.2).2.out =
        (reconnect limits streamReconnect env' left second.1 second.2).2.out := by
  induction left generalizing first second with
  | zero =>
    unfold reconnect
    by_cases hgoes : first.1.1 = .closed ∨ first.1.1 = .failed
    · rw [← h.state hgoes, ← h.ended, should_same henv]
      split_ifs <;> exact ⟨rfl, rfl⟩
    · rw [if_neg (not_shouldReconnect hgoes), if_neg (not_shouldReconnect (h.ended ▸ hgoes))]
      exact ⟨h.ended, h.out⟩
  | succ left ih =>
    unfold reconnect
    by_cases hgoes : first.1.1 = .closed ∨ first.1.1 = .failed
    · obtain ⟨halive, hinterrupted, hdial⟩ := henv first.2.attempt
      rw [← h.state hgoes, ← h.ended, should_same henv]
      split_ifs
      · simp only
        rw [hinterrupted]
        cases (env' first.2.attempt).interrupted with
        | some ctx => exact ⟨rfl, rfl⟩
        | none =>
          simp only
          obtain heq | ⟨response, body, body', hfirst, hsecond, hbody⟩ := hdial.cases
          · rw [heq]
            cases (env' first.2.attempt).dial with
            | failure body ctx => exact ⟨rfl, rfl⟩
            | plain status => exact ⟨rfl, rfl⟩
            | stream response body => exact ih ⟨rfl, rfl, fun _ => rfl⟩
          · rw [hfirst, hsecond]
            exact ih (read_alongside limits _ response hbody)
      · exact ⟨rfl, rfl⟩
    · rw [if_neg (not_shouldReconnect hgoes), if_neg (not_shouldReconnect (h.ended ▸ hgoes))]
      exact ⟨h.ended, h.out⟩

/-- How the bodies are cut into chunks makes no difference to the messages. -/
theorem run_cut {streamReconnect : Bool} {env env' : Nat → Again ρ} (henv : ∀ attempt, (env attempt).Same (env' attempt))
    (response : ρ) {body body' : Body} (hbody : body.Same body') :
    run limits streamReconnect env response body = run limits streamReconnect env' response body' := by
  have h := reconnect_alongside limits streamReconnect henv maxReconnects (read_alongside limits .zero response hbody)
  unfold run
  simp only
  rw [h.1, h.2]

/-- The line `data:a` and the end of the event. -/
def letterBytes : Bytes := [100, 97, 116, 97, 58, 97, 10, 10]

def tenEvents : Limits where
  maxEvents := 10
  maxBytes := 1000
  minStreamRetry := 0
  maxEvents_pos := by decide

/-- The body at once, and byte by byte. -/
theorem letter_cut :
    run tenEvents true (fun _ => ⟨false, none, .plain ""⟩) () ⟨[letterBytes], .eof, .alive⟩ =
      run tenEvents true (fun _ => ⟨false, none, .plain ""⟩) () ⟨letterBytes.map ([·]), .eof, .alive⟩ := by
  apply run_cut
  · exact fun _ => ⟨rfl, rfl, rfl⟩
  · exact ⟨rfl, rfl, rfl⟩

/-! ## Numbers -/

namespace StreamMessage

def index? : StreamMessage ρ → Option Nat
  | .event index _ => some index
  | _ => none

def attempt? : StreamMessage ρ → Option Nat
  | .wait _ attempt => some attempt
  | _ => none

def isEnded : StreamMessage ρ → Bool
  | .ended _ _ => true
  | _ => false

end StreamMessage

/-- Events and waits are numbered, nothing has ended, and no wait is too short. -/
structure Tidy (limits : Limits) (s : Streaming ρ) : Prop where
  numbered : s.out.filterMap StreamMessage.index? = List.range' 1 s.events
  waits : s.out.filterMap StreamMessage.attempt? = List.range' 1 s.attempt
  unended : ∀ message ∈ s.out, message.isEnded = false
  delays : ∀ retryMs attempt, StreamMessage.wait retryMs attempt ∈ s.out → minRetry ≤ retryMs
  limit : s.events ≤ limits.maxEvents

/-- Reading keeps what was passed on, and counts no waits. -/
structure Continues (first second : Streaming ρ) : Prop where
  out : first.out <+: second.out
  attempt : second.attempt = first.attempt

theorem Continues.refl (s : Streaming ρ) : Continues s s :=
  ⟨List.prefix_refl _, rfl⟩

theorem Continues.trans {first second third : Streaming ρ} (h : Continues first second) (h' : Continues second third) :
    Continues first third :=
  ⟨h.out.trans h'.out, h'.attempt.trans h.attempt⟩

theorem Tidy.event {s : Streaming ρ} (h : Tidy limits s) (hlt : s.events < limits.maxEvents) (event : Event) (emitted : Nat) :
    Tidy limits { s with events := s.events + 1, emitted, out := s.out ++ [.event (s.events + 1) event] } := by
  constructor
  · simp only [List.filterMap_append, h.numbered, List.range'_concat]
    simp [StreamMessage.index?, Nat.add_comm]
  · simp only [List.filterMap_append, h.waits]
    simp [StreamMessage.attempt?]
  · intro message hmessage
    rw [List.mem_append, List.mem_singleton] at hmessage
    obtain hmessage | rfl := hmessage
    · exact h.unended message hmessage
    · rfl
  · intro retryMs attempt hwait
    rw [List.mem_append, List.mem_singleton] at hwait
    obtain hwait | hwait := hwait
    · exact h.delays retryMs attempt hwait
    · cases hwait
  · exact hlt

theorem announce_tidy (events : List Event) {s : Streaming ρ} (h : Tidy limits s) (hlt : s.events < limits.maxEvents) :
    Tidy limits (announce limits events s).2 ∧ Continues s (announce limits events s).2 ∧
      ((announce limits events s).1 = none → (announce limits events s).2.events < limits.maxEvents) := by
  induction events generalizing s with
  | nil => exact ⟨h, .refl s, fun _ => hlt⟩
  | cons event rest ih =>
    have htidy := h.event hlt event (s.emitted + eventSize event)
    have hcontinues : Continues s { s with
        events := s.events + 1
        emitted := s.emitted + eventSize event
        out := s.out ++ [.event (s.events + 1) event] } := ⟨List.prefix_append _ _, rfl⟩
    rw [announce]
    simp only
    split_ifs with hevents hbytes
    · exact ⟨htidy, hcontinues, fun hnone => nomatch hnone⟩
    · exact ⟨htidy, hcontinues, fun hnone => nomatch hnone⟩
    · have hless : s.events + 1 < limits.maxEvents := by omega
      obtain ⟨hrest, hmore, hfewer⟩ := ih htidy hless
      exact ⟨hrest, hcontinues.trans hmore, hfewer⟩

theorem Tidy.with_parser {s : Streaming ρ} (h : Tidy limits s) (parser : EventParser) (bytes : Nat) :
    Tidy limits { s with parser, bytes } :=
  ⟨h.numbered, h.waits, h.unended, h.delays, h.limit⟩

theorem accept_tidy {s : Streaming ρ} (chunk : Bytes) (h : Tidy limits s) (hlt : s.events < limits.maxEvents) :
    Tidy limits (accept limits s chunk).2 ∧ Continues s (accept limits s chunk).2 ∧
      ((accept limits s chunk).1 = none → (accept limits s chunk).2.events < limits.maxEvents) := by
  have hfits {chunk : Bytes} (hle : chunk.length ≤ limits.maxBytes - s.bytes) :
      Tidy limits (accept limits s chunk).2 ∧ Continues s (accept limits s chunk).2 ∧
        ((accept limits s chunk).1 = none → (accept limits s chunk).2.events < limits.maxEvents) := by
    obtain ⟨htidy, hcontinues, hfewer⟩ := announce_tidy (feed s.parser chunk).1
      (h.with_parser (feed s.parser chunk).2 (s.bytes + chunk.length)) hlt
    rw [accept_of_le hle]
    exact ⟨htidy, ⟨hcontinues.out, hcontinues.attempt⟩, hfewer⟩
  by_cases hle : chunk.length ≤ limits.maxBytes - s.bytes
  · exact hfits hle
  · have htake : (chunk.take (limits.maxBytes - s.bytes)).length ≤ limits.maxBytes - s.bytes := by
      rw [List.length_take]
      omega
    obtain ⟨htidy, hcontinues, -⟩ := hfits htake
    rw [accept_of_lt (by omega)]
    exact ⟨htidy, hcontinues, fun hnone => nomatch hnone⟩

theorem readChunks_tidy (chunks : List Bytes) {s : Streaming ρ} (h : Tidy limits s) (hlt : s.events < limits.maxEvents) :
    Tidy limits (readChunks limits chunks s).2 ∧ Continues s (readChunks limits chunks s).2 ∧
      ((readChunks limits chunks s).1 = none → (readChunks limits chunks s).2.events < limits.maxEvents) := by
  induction chunks generalizing s with
  | nil => exact ⟨h, .refl s, fun _ => hlt⟩
  | cons chunk rest ih =>
    have hchunk := accept_tidy chunk h hlt
    rw [readChunks]
    cases hresult : accept limits s chunk with
    | mk reason t =>
      rw [hresult] at hchunk
      obtain ⟨htidy, hcontinues, hfewer⟩ := hchunk
      cases reason with
      | some reason => exact ⟨htidy, hcontinues, fun hnone => nomatch hnone⟩
      | none =>
        obtain ⟨hrest, hmore, hless⟩ := ih htidy (hfewer rfl)
        exact ⟨hrest, hcontinues.trans hmore, hless⟩

theorem Tidy.opened {s : Streaming ρ} (h : Tidy limits s) (response : ρ) :
    Tidy limits { s with out := s.out ++ [.opened response] } := by
  constructor
  · simp only [List.filterMap_append, h.numbered]
    simp [StreamMessage.index?]
  · simp only [List.filterMap_append, h.waits]
    simp [StreamMessage.attempt?]
  · intro message hmessage
    rw [List.mem_append, List.mem_singleton] at hmessage
    obtain hmessage | rfl := hmessage
    · exact h.unended message hmessage
    · rfl
  · intro retryMs attempt hwait
    rw [List.mem_append, List.mem_singleton] at hwait
    obtain hwait | hwait := hwait
    · exact h.delays retryMs attempt hwait
    · cases hwait
  · exact h.limit

theorem read_tidy {s : Streaming ρ} (h : Tidy limits s) (hlt : s.events < limits.maxEvents) (response : ρ) (body : Body) :
    Tidy limits (read limits s response body).2 ∧
      s.out ++ [.opened response] <+: (read limits s response body).2.out ∧
      (read limits s response body).2.attempt = s.attempt ∧
      ((read limits s response body).1.1 = .closed ∨ (read limits s response body).1.1 = .failed →
        (read limits s response body).2.events < limits.maxEvents) := by
  have hchunks := readChunks_tidy body.chunks (h.opened response) hlt
  have hflatten := readChunks_flatten limits body.chunks { s with out := s.out ++ [.opened response] }
  unfold read
  cases hresult : readChunks limits body.chunks { s with out := s.out ++ [.opened response] } with
  | mk reason t =>
    rw [hresult] at hchunks hflatten
    obtain ⟨htidy, hcontinues, hfewer⟩ := hchunks
    cases reason with
    | none => exact ⟨htidy, hcontinues.out, hcontinues.attempt, fun _ => hfewer rfl⟩
    | some reason =>
      refine ⟨htidy, hcontinues.out, hcontinues.attempt, ?_⟩
      have hlimit := accept_reason hflatten.reason.symm
      rintro (hclosed | hfailed)
      · obtain rfl : reason = .closed := hclosed
        simp at hlimit
      · obtain rfl : reason = .failed := hfailed
        simp at hlimit

theorem announceWait_tidy {s : Streaming ρ} (h : Tidy limits s) : Tidy limits (announceWait limits s) := by
  unfold announceWait
  constructor
  · simp only [List.filterMap_append, h.numbered]
    simp [StreamMessage.index?]
  · simp only [List.filterMap_append, h.waits, List.range'_concat]
    simp [StreamMessage.attempt?, Nat.add_comm]
  · intro message hmessage
    rw [List.mem_append, List.mem_singleton] at hmessage
    obtain hmessage | rfl := hmessage
    · exact h.unended message hmessage
    · rfl
  · intro retryMs attempt hwait
    rw [List.mem_append, List.mem_singleton] at hwait
    obtain hwait | hwait := hwait
    · exact h.delays retryMs attempt hwait
    · obtain ⟨rfl, rfl⟩ := StreamMessage.wait.inj hwait
      exact Nat.le_trans (Nat.le_max_right _ _) (Nat.le_max_left _ _)
  · exact h.limit

theorem reconnect_tidy (streamReconnect : Bool) (env : Nat → Again ρ) {left : Nat} {ended : EndReason × String}
    {s : Streaming ρ} (h : Tidy limits s) (hleft : s.attempt + left ≤ maxReconnects)
    (hgoes : ended.1 = .closed ∨ ended.1 = .failed → s.events < limits.maxEvents) :
    Tidy limits (reconnect limits streamReconnect env left ended s).2 ∧
      s.out <+: (reconnect limits streamReconnect env left ended s).2.out ∧
      (reconnect limits streamReconnect env left ended s).2.attempt ≤ maxReconnects := by
  induction left generalizing ended s with
  | zero =>
    unfold reconnect
    split_ifs <;> exact ⟨h, List.prefix_refl _, hleft⟩
  | succ left ih =>
    unfold reconnect
    split_ifs with hshould
    · have hlt : s.events < limits.maxEvents := by
        apply hgoes
        by_contra hnot
        exact not_shouldReconnect hnot hshould
      have htidy := announceWait_tidy h
      have hkept : s.out <+: (announceWait limits s).out := List.prefix_append _ _
      have hattempt : (announceWait limits s).attempt + left ≤ maxReconnects := by
        have heq : (announceWait limits s).attempt = s.attempt + 1 := rfl
        omega
      have hbound : (announceWait limits s).attempt ≤ maxReconnects := by omega
      simp only
      cases (env s.attempt).interrupted with
      | some ctx => exact ⟨htidy, hkept, hbound⟩
      | none =>
        simp only
        cases (env s.attempt).dial with
        | failure body ctx => exact ⟨htidy, hkept, hbound⟩
        | plain status => exact ⟨htidy, hkept, hbound⟩
        | stream response body =>
          obtain ⟨hread, hout, hsame, hmore⟩ := read_tidy htidy hlt response body
          obtain ⟨hrest, hlater, hlast⟩ := ih hread (hsame ▸ hattempt) hmore
          exact ⟨hrest, hkept.trans ((List.prefix_append _ _).trans (hout.trans hlater)), hlast⟩
    · exact ⟨h, List.prefix_refl _, Nat.le_trans (Nat.le_add_right _ _) hleft⟩

variable (limits) in
/-- The messages of a stream are those of its last state, and its end. -/
theorem run_tidy (streamReconnect : Bool) (env : Nat → Again ρ) (response : ρ) (body : Body) :
    ∃ s told reason detail, Tidy limits s ∧ s.attempt ≤ maxReconnects ∧ s.out = .opened response :: told ∧
      run limits streamReconnect env response body = s.out ++ [.ended reason detail] := by
  have hzero : Tidy limits (.zero : Streaming ρ) := by
    refine ⟨rfl, rfl, ?_, ?_, Nat.zero_le _⟩
    · intro message hmessage
      cases hmessage
    · intro retryMs attempt hwait
      cases hwait
  obtain ⟨hread, hopened, hattempt, hmore⟩ := read_tidy hzero limits.maxEvents_pos response body
  have hleft : (read limits Streaming.zero response body).2.attempt + maxReconnects ≤ maxReconnects := by
    rw [hattempt]
    exact Nat.le_of_eq (Nat.zero_add _)
  obtain ⟨htidy, hout, hlast⟩ := reconnect_tidy streamReconnect env hread hleft hmore
  obtain ⟨told, htold⟩ := hopened.trans hout
  exact ⟨_, told, _, _, htidy, hlast, htold.symm, rfl⟩

variable (limits) in
/-- A stream begins by opening and ends once, at the end.  Through all connections its
events are numbered from one up to the limit, and so are the waits, none of which
is shorter than the least. -/
theorem run_numbered (streamReconnect : Bool) (env : Nat → Again ρ) (response : ρ) (body : Body) :
    ∃ told reason detail, run limits streamReconnect env response body = .opened response :: told ++ [.ended reason detail] ∧
      (∀ message ∈ told, message.isEnded = false) ∧
      (∃ count ≤ limits.maxEvents, told.filterMap StreamMessage.index? = List.range' 1 count) ∧
      (∃ count ≤ maxReconnects, told.filterMap StreamMessage.attempt? = List.range' 1 count) ∧
      ∀ retryMs attempt, StreamMessage.wait retryMs attempt ∈ told → minRetry ≤ retryMs := by
  obtain ⟨s, told, reason, detail, htidy, hlast, hout, hrun⟩ := run_tidy limits streamReconnect env response body
  refine ⟨told, reason, detail, by rw [hrun, hout], ?_, ⟨_, htidy.limit, ?_⟩, ⟨_, hlast, ?_⟩, ?_⟩
  · exact fun message hmessage => htidy.unended message (hout ▸ List.mem_cons_of_mem _ hmessage)
  · rw [← htidy.numbered, hout]
    rfl
  · rw [← htidy.waits, hout]
    rfl
  · exact fun retryMs attempt hwait => htidy.delays retryMs attempt (hout ▸ List.mem_cons_of_mem _ hwait)

end Gostman.Stream
