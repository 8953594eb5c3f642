import Concord.Proofs.Backend.Streams
import Concord.Proofs.Time.Backoff
import Concord.Proofs.Universe.Deeds
import Concord.Scenario.ScriptedBackend

/-! When a worker tries again to hydrate, over its whole life and whatever its backend answers and
it is told in between. The attempt that it waits for is the one that its deeds so far call for, and
a hydration that fails leaves its tree and its stream as they were.
-/

namespace Concord

variable {β : Type}

-----------------------------------------------------------------------------------------
-- Delays
-----------------------------------------------------------------------------------------

/-- The delay doubles up to its bound, also where the factor or the counter has stopped to grow. -/
theorem millis_backoff (n : Nat)
    : (backoff (saturated n).toNat Worker.baseBackoff Worker.maxBackoff).millis
      = min 30000 (100 * 2 ^ n) := by
  rw [Duration.millis, nanos_backoff, backoffFactor_saturated, backoffFactor_eq]
  simp only [Worker.baseBackoff, Worker.maxBackoff, Duration.ofMillis, Duration.nanosPerMilli,
    Duration.longest, Duration.nanosPerSecond, UInt64.size, UInt32.size]
  omega

-----------------------------------------------------------------------------------------
-- The attempt that deeds call for
-----------------------------------------------------------------------------------------

namespace Deed

/-- How many attempts in a row failed since the worker began or its stream ended, the latest deed
being first. What it was told in between does not count.
-/
def failures : List (Nat × Deed) → Nat
  | [] => 0
  | (_, .postponed _) :: earlier => failures earlier + 1
  | (_, .settled _) :: earlier => failures earlier
  | (_, .refused _ _) :: earlier => failures earlier
  | (_, .applied _) :: earlier => failures earlier
  | (_, .hydrated _) :: _ => 0
  | (_, .reloaded _ _) :: _ => 0
  | (_, .ended) :: _ => 0
  | (_, .gone) :: _ => 0

/-- The attempt that is to come after some deeds, the latest being first. -/
def next? : List (Nat × Deed) → Option Retry
  | [] => none
  | (time, .postponed e) :: earlier =>
      let n := failures ((time, .postponed e) :: earlier)
      some ⟨saturated n, time + min 30000 (100 * 2 ^ (n - 1))⟩
  | (time, .ended) :: _ => some ⟨0, time⟩
  | (_, .settled _) :: earlier => next? earlier
  | (_, .refused _ _) :: earlier => next? earlier
  | (_, .applied _) :: earlier => next? earlier
  | (_, .hydrated _) :: _ => none
  | (_, .reloaded _ _) :: _ => none
  | (_, .gone) :: _ => none

/-- It counts the failures so far. -/
theorem attempt_next {deeds : List (Nat × Deed)} {r : Retry} (h : next? deeds = some r)
    : r.attempt = saturated (failures deeds) := by
  induction deeds with
  | nil => cases h
  | cons first earlier ih =>
      obtain ⟨time, deed⟩ := first
      cases deed with
      | postponed _ | ended =>
          cases h
          rfl
      | settled _ | refused _ _ | applied _ => exact ih h
      | hydrated _ | reloaded _ _ | gone => cases h

end Deed

-----------------------------------------------------------------------------------------
-- What a worker relies on
-----------------------------------------------------------------------------------------

/-- The streams of a backend, kept apart. A subscription opens a new one, and what is queued on a
stream stays there whoever subscribes, loads or closes another; more may be queued at any time.
-/
structure Backend.Streams (β : Type) [Backend β] where
  queue? : Nat → β → Option (List TreeEvent)
  given {id : Nat} {e : TreeEvent} {rest : List TreeEvent} {b : β}
    : queue? id b = some (e :: rest) → (Backend.receive id b).1 = .event e
  opened {root : String} {kind : TreeKind} {id : Nat} {b b' : β}
    : Backend.subscribe root kind b = (.ok id, b') → queue? id b = none
  subscribe {id : Nat} {queue : List TreeEvent} {b : β} (root : String) (kind : TreeKind)
    : queue? id b = some queue →
      ∃ more, queue? id (Backend.subscribe root kind b).2 = some (queue ++ more)
  load {id : Nat} {queue : List TreeEvent} {b : β} (root : String) (kind : TreeKind)
    : queue? id b = some queue →
      ∃ more, queue? id (Backend.load root kind b).2 = some (queue ++ more)
  close {id other : Nat} {queue : List TreeEvent} {b : β}
    : id ≠ other → queue? id b = some queue →
      ∃ more, queue? id (Backend.close other b) = some (queue ++ more)

namespace Worker

variable [Backend β] {w : Worker} {b b' : β} {e : BackendError}

/-- A hydration that fails takes nothing from any stream that was open. -/
theorem Hydrates.keeps_queue (streams : Backend.Streams β) (way : w.Hydrates b (.refused e) b')
    {id : Nat} {queue : List TreeEvent} (queued : streams.queue? id b = some queue)
    : ∃ more, streams.queue? id b' = some (queue ++ more) := by
  obtain ⟨more, subscribed⟩ := streams.subscribe w.root w.kind queued
  cases way with
  | unsubscribed refused =>
      rw [refused] at subscribed
      exact ⟨more, subscribed⟩
  | @unloaded stream _ _ _ opened failed =>
      rw [opened] at subscribed
      obtain ⟨more', loaded⟩ := streams.load w.root w.kind subscribed
      rw [failed] at loaded
      have other : id ≠ stream := by
        rintro rfl
        rw [streams.opened opened] at queued
        cases queued
      obtain ⟨more'', closed⟩ := streams.close other loaded
      exact ⟨more ++ more' ++ more'', by simpa only [List.append_assoc] using closed⟩

end Worker

-----------------------------------------------------------------------------------------
-- What a worker waits for
-----------------------------------------------------------------------------------------

namespace Slot

variable [Backend β] {s s' : Slot} {now later : Nat} {deeds : List (Nat × Deed)} {deed : Deed}
  {kind : TreeKind} {root : String} {b b' : β}

/-- The invariant of a worker that is there: it waits for the attempt that its deeds call for, and
then it listens to nothing.
-/
structure Waits (s : Slot) (deeds : List (Nat × Deed)) : Prop where
  started : s.started = true ↔ deeds ≠ []
  retry : s.worker.retry = Deed.next? deeds
  silent : deeds = [] ∨ (Deed.next? deeds).isSome → s.worker.stream = none

/-- Attempts are made at the beginning, and when they are due and there is nothing else to do. -/
theorem Waits.attempt_iff {n : UInt32} (h : s.Waits deeds)
    : s.attempt? now = some n
      ↔ (deeds = [] ∧ n = 0)
        ∨ (deeds ≠ [] ∧ s.stopping = false ∧ s.inbox = []
          ∧ ∃ r, Deed.next? deeds = some r ∧ r.due ≤ now ∧ r.attempt = n) := by
  have began := h.started
  rw [attempt?, h.retry]
  cases started : s.started with
  | false =>
      have first : deeds = [] := by simpa [started] using began
      simpa [first] using eq_comm
  | true =>
      have later : deeds ≠ [] := began.mp started
      by_cases free : s.stopping = false ∧ s.inbox = []
      · simp [later, free, Option.filter_eq_some_iff, and_assoc]
      · have busy : (s.stopping || !s.inbox.isEmpty) = true := by
          simpa [or_iff_not_imp_left] using free
        simp only [Bool.not_true, Bool.false_eq_true, if_false, busy, if_true, later, false_and,
          false_or, reduceCtorEq, false_iff]
        exact fun ready => free ⟨ready.2.1, ready.2.2.1⟩

/-- The first attempt is without failures before, and each other one counts those so far. -/
theorem Waits.attempt_eq {n : UInt32} (h : s.Waits deeds) (tries : s.attempt? now = some n)
    : n = saturated (Deed.failures deeds) := by
  rcases h.attempt_iff.mp tries with ⟨rfl, rfl⟩ | ⟨-, -, -, r, next, -, rfl⟩
  · rfl
  · exact Deed.attempt_next next

/-- Whoever makes an attempt listens to nothing. -/
theorem Waits.attempt_silent {n : UInt32} (h : s.Waits deeds) (tries : s.attempt? now = some n)
    : s.worker.stream = none := by
  refine h.silent ?_
  rcases h.attempt_iff.mp tries with ⟨first, -⟩ | ⟨-, -, -, r, next, -, -⟩
  · exact .inl first
  · exact .inr (by rw [next]; rfl)

/-- Deeds that leave the attempt and the stream of a worker alone keep the invariant. -/
theorem Waits.aside (h : s.Waits deeds) (begun : s'.started = true)
    (next : Deed.next? ((now, deed) :: deeds) = Deed.next? deeds)
    (retry : s'.worker.retry = s.worker.retry) (stream : s'.worker.stream = s.worker.stream)
    : s'.Waits ((now, deed) :: deeds) where
  started := by simp [begun]
  retry := by rw [retry, next, h.retry]
  silent := by
    rw [next, stream]
    rintro (first | waiting)
    · cases first
    · exact h.silent (.inr waiting)

/-- Each deed keeps the invariant. -/
theorem Waits.step (h : s.Waits deeds) (does : s.Does now b deed s' b') (alive : s'.alive = true)
    : s'.Waits ((now, deed) :: deeds) := by
  cases does with
  | hydrated tries fresh => exact ⟨by simp, rfl, by simp [Deed.next?]⟩
  | postponed tries refused =>
      refine ⟨by simp, ?_, fun _ => h.attempt_silent tries⟩
      rw [h.attempt_eq tries]
      simp only [Worker.postpone, millis_backoff, saturatingAdd_saturated, Deed.next?,
        Deed.failures, Nat.add_sub_cancel]
  | broken tries lost => cases alive
  | stopped started stopping => cases alive
  | settled started stays told =>
      obtain ⟨stream, retry⟩ := s.worker.drain_keeps (s.worker.queued b) b
      exact h.aside started rfl retry stream
  | reloaded started stays told fresh => exact ⟨by simp [reply, started], rfl, by simp [Deed.next?]⟩
  | refused started stays told refused => exact h.aside started rfl rfl rfl
  | lost started stays told lost => cases alive
  | applied idle listens given =>
      obtain ⟨stream, retry⟩ := s.worker.apply_keeps _
      exact h.aside idle.1 rfl retry stream
  | ended idle listens given =>
      exact ⟨by simp [idle.1], rfl, fun _ => rfl⟩

theorem Lives.waits_for (life : Lives β kind root now deeds s) (alive : s.alive = true)
    : s.Waits deeds := by
  induction life with
  | begins now => exact ⟨by simp [Site.fresh], rfl, fun _ => rfl⟩
  | waits _ _ ih => exact ih alive
  | told _ _ _ ih => exact ⟨(ih alive).started, (ih alive).retry, (ih alive).silent⟩
  | leaves _ ih => exact ⟨(ih alive).started, (ih alive).retry, (ih alive).silent⟩
  | turns _ taken does ih => exact (ih (does_turn taken).1).step does alive

-----------------------------------------------------------------------------------------
-- Trying again
-----------------------------------------------------------------------------------------

/-- No attempt is made before it is due. -/
theorem Waits.due (h : s.Waits deeds) (does : s.Does now b deed s' b') (attempt : deed.IsAttempt)
    : deeds = [] ∨ ∃ r, Deed.next? deeds = some r ∧ r.due ≤ now := by
  have tried {n : UInt32} (tries : s.attempt? now = some n)
      : deeds = [] ∨ ∃ r, Deed.next? deeds = some r ∧ r.due ≤ now := by
    rcases h.attempt_iff.mp tries with ⟨first, -⟩ | ⟨-, -, -, r, next, due, -⟩
    · exact .inl first
    · exact .inr ⟨r, next, due⟩
  cases does with
  | hydrated tries _ | postponed tries _ => exact tried tries
  | _ => cases attempt

/-- One that is due is made as soon as there is nothing else to do. -/
theorem Waits.attempts {r : Retry} (h : s.Waits deeds) (alive : s.alive = true) (b : β)
    (next : Deed.next? deeds = some r) (due : r.due ≤ now) (stays : s.stopping = false)
    (told : s.inbox = [])
    : ∃ deed s' b', s.turn now b = some (s', b') ∧ s.Does now b deed s' b'
        ∧ (deed.IsAttempt ∨ deed = .gone) := by
  have later : deeds ≠ [] := by
    rintro rfl
    cases next
  have tries := h.attempt_iff.mpr (.inr ⟨later, stays, told, r, next, due, rfl⟩)
  obtain ⟨deed, attempt, does⟩ := does_attempt tries b
  exact ⟨deed, _, _, does.turn alive, does, attempt⟩

/-- Until then the worker does nothing. -/
theorem Waits.early {r : Retry} (h : s.Waits deeds) (b : β) (next : Deed.next? deeds = some r)
    (early : now < r.due) (stays : s.stopping = false) (told : s.inbox = [])
    : s.turn now b = none := by
  have silent := h.silent (.inr (by rw [next]; rfl))
  have idle (n : UInt32) : s.attempt? now ≠ some n := by
    intro tries
    rcases h.attempt_iff.mp tries with ⟨rfl, -⟩ | ⟨-, -, -, r', next', due, -⟩
    · cases next
    · rw [next] at next'
      cases next'
      omega
  cases taken : s.turn now b with
  | none => rfl
  | some result =>
      obtain ⟨s', b'⟩ := result
      obtain ⟨-, deed, does⟩ := does_turn taken
      cases does with
      | hydrated tries _ | postponed tries _ | broken tries _ => exact absurd tries (idle _)
      | stopped _ stopping => simp [stays] at stopping
      | settled _ _ waiting | reloaded _ _ waiting _ | refused _ _ waiting _
      | lost _ _ waiting _ => simp [told] at waiting
      | applied _ listens _ | ended _ listens _ => simp [silent] at listens

/-- A worker that tries again when it is due, and only then, and to which a failure does no harm. -/
structure Retries (streams : Backend.Streams β) (s : Slot) (deeds : List (Nat × Deed)) : Prop where
  retry : s.worker.retry = Deed.next? deeds
  due : ∀ {time : Nat} {b b' : β} {deed : Deed} {s' : Slot}, s.Does time b deed s' b' →
    deed.IsAttempt → deeds = [] ∨ ∃ r, Deed.next? deeds = some r ∧ r.due ≤ time
  attempt : ∀ {r : Retry} {time : Nat} (b : β), Deed.next? deeds = some r → r.due ≤ time →
    s.stopping = false → s.inbox = [] →
      ∃ deed s' b', s.turn time b = some (s', b') ∧ s.Does time b deed s' b'
        ∧ (deed.IsAttempt ∨ deed = .gone)
  early : ∀ {r : Retry} {time : Nat} (b : β), Deed.next? deeds = some r → time < r.due →
    s.stopping = false → s.inbox = [] → s.turn time b = none
  loads : ∀ {time : Nat} {b b' : β} {deed : Deed} {s' : Slot} {tree : HashTree},
    s.Does time b deed s' b' → deed.tree? = some tree →
      ∃ stream, s.worker.Hydrates b (.fresh (s.worker.install stream tree)) b'
        ∧ s'.worker = s.worker.install stream tree
  fails : ∀ {time : Nat} {b b' : β} {deed : Deed} {s' : Slot} {e : BackendError},
    s.Does time b deed s' b' → deed.error? = some e →
      s.worker.Hydrates b (.refused e) b' ∧ s'.worker.snapshot = s.worker.snapshot
        ∧ s'.worker.stream = s.worker.stream
        ∧ ∀ {id : Nat} {queue : List TreeEvent}, s.worker.stream = some id →
          streams.queue? id b = some queue →
            ∃ more, streams.queue? id b' = some (queue ++ more)
  goes : ∀ {time : Nat} {b b' : β} {s' : Slot}, s.Does time b .gone s' b' →
    s.stopping = true ∨ s.worker.Hydrates b .lost b'

/-- Whatever happened in the life of a worker that is there, it tries again on time. -/
theorem retries_on_time (streams : Backend.Streams β) (life : Lives β kind root now deeds s)
    (alive : s.alive = true)
    : s.Retries streams deeds := by
  have waits := life.waits_for alive
  exact {
    retry := waits.retry
    due := waits.due
    attempt := fun b next due stays told => waits.attempts alive b next due stays told
    early := fun b next early stays told => waits.early b next early stays told
    loads := Does.loads
    fails := by
      intro time b b' deed s' e does failed
      obtain ⟨way, snapshot, stream⟩ := does.fails failed
      exact ⟨way, snapshot, stream, fun _ queued => way.keeps_queue streams queued⟩
    goes := Does.goes
  }

end Slot

-----------------------------------------------------------------------------------------
-- A backend that fails now and then
-----------------------------------------------------------------------------------------

namespace Channels

variable {c : Channels} {id other : Nat} {queue : List TreeEvent}

/-- What is queued on a stream that was opened and not closed. -/
def queue? (c : Channels) (id : Nat) : Option (List TreeEvent) :=
  if id < c.nextId then (c.get? id).map Channel.queue else none

/-- Nothing is queued under the number that is given out next. -/
theorem queue?_nextId (c : Channels) : c.queue? c.nextId = none :=
  if_neg (Nat.lt_irrefl _)

theorem queue?_subscribe (h : c.queue? id = some queue) (root : String) (kind : TreeKind)
    : (c.subscribe root kind).2.queue? id = some queue := by
  rw [queue?] at h ⊢
  split at h
  · rename_i opened
    obtain ⟨ch, found, rfl⟩ := Option.map_eq_some_iff.mp h
    have later : id < (c.subscribe root kind).2.nextId := Nat.lt_succ_of_lt opened
    rw [if_pos later, get?_subscribe, found]
    rfl
  · cases h

theorem queue?_close_ne (differ : id ≠ other) : (c.close other).queue? id = c.queue? id := by
  rw [queue?, queue?, get?_close_ne differ]
  rfl

/-- A queue that stays is one with nothing more. -/
theorem exists_more {kept : Option (List TreeEvent)} (h : kept = some queue)
    : ∃ more, kept = some (queue ++ more) :=
  ⟨[], by rw [h, List.append_nil]⟩

theorem receive_of_queue? {e : TreeEvent} {rest : List TreeEvent}
    (h : c.queue? id = some (e :: rest))
    : (c.receive id).1 = .event e := by
  rw [queue?] at h
  split at h
  · obtain ⟨ch, found, queued⟩ := Option.map_eq_some_iff.mp h
    obtain ⟨d, given⟩ := receive_cons found queued
    rw [given]
  · cases h

end Channels

namespace Memory

theorem backend_load (m : Memory) (root : String) (kind : TreeKind)
    : (Backend.load root kind m).2 = m := by
  simp only [Backend.load]
  split <;> rfl

/-- A backend in memory keeps its streams apart. -/
def streams : Backend.Streams Memory where
  queue? id m := m.channels.queue? id
  given := Channels.receive_of_queue?
  opened opened := by
    cases opened
    exact Channels.queue?_nextId _
  subscribe root kind queued := Channels.exists_more (Channels.queue?_subscribe queued root kind)
  load root kind queued := Channels.exists_more (by rw [backend_load, queued])
  close differ queued := Channels.exists_more ((Channels.queue?_close_ne differ).trans queued)

end Memory

namespace Scenario.ScriptedBackend

variable {b b' : ScriptedBackend} {id : Nat} {queue : List TreeEvent}

theorem opened_subscribe {root : String} {kind : TreeKind}
    (h : Backend.subscribe root kind b = (.ok id, b'))
    : b.channels.queue? id = none := by
  simp only [Backend.subscribe] at h
  split at h
  · cases h
  · cases h
    exact Channels.queue?_nextId _

theorem queue?_subscribe (h : b.channels.queue? id = some queue) (root : String) (kind : TreeKind)
    : (Backend.subscribe root kind b).2.channels.queue? id = some queue := by
  simp only [Backend.subscribe]
  split
  · exact h
  · exact Channels.queue?_subscribe h root kind

theorem channels_load (b : ScriptedBackend) (root : String) (kind : TreeKind)
    : (Backend.load root kind b).2.channels = b.channels := by
  simp only [Backend.load]
  split
  · rfl
  · split <;> rfl

/-- So does a scripted one. -/
def streams : Backend.Streams ScriptedBackend where
  queue? id b := b.channels.queue? id
  given := Channels.receive_of_queue?
  opened := opened_subscribe
  subscribe root kind queued := Channels.exists_more (queue?_subscribe queued root kind)
  load root kind queued := Channels.exists_more (by rw [channels_load, queued])
  close differ queued := Channels.exists_more ((Channels.queue?_close_ne differ).trans queued)

end Scenario.ScriptedBackend

namespace Fickle

open Scenario

/-- The error of a call that is refused. -/
def error (operation : String) : BackendError :=
  .backend "scripted" operation "refused"

/-- The worker fails to load as it begins and to subscribe when it tries again, and between these
it fails to rebuild its tree, which does not count.
-/
def deeds : List (Nat × Deed) :=
  [(100, .postponed (error "subscribe")), (60, .settled 1), (60, .refused 0 (error "subscribe")),
    (0, .postponed (error "load"))]

/-- A worker of the root that waits for an attempt. -/
def waiting (retry : Retry) (replies : List (Nat × Except BackendError Unit)) : Slot where
  worker := { root := "t1", kind := .config, retry := some retry }
  started := true
  replies := replies

theorem lives
    : Slot.Lives ScriptedBackend .config "t1" 100 deeds
        (waiting ⟨2, 300⟩ [(0, .error (error "subscribe")), (1, .ok ())]) := by
  have first : Slot.Lives ScriptedBackend .config "t1" 0 [(0, .postponed (error "load"))]
      (waiting ⟨1, 100⟩ []) :=
    .turns (b := { failLoads := 1 }) (.begins 0) rfl
      (@Slot.Does.postponed _ _ _ _ _ 0 _ _ rfl rfl)
  have second : Slot.Lives ScriptedBackend .config "t1" 60
      [(60, .refused 0 (error "subscribe")), (0, .postponed (error "load"))]
      (waiting ⟨1, 100⟩ [(0, .error (error "subscribe"))]) :=
    .turns (b := { failSubscribes := 1 }) ((first.waits (Nat.zero_le 60)).told 0 .reset) rfl
      (.refused rfl rfl rfl rfl)
  have third : Slot.Lives ScriptedBackend .config "t1" 60
      [(60, .settled 1), (60, .refused 0 (error "subscribe")), (0, .postponed (error "load"))]
      (waiting ⟨1, 100⟩ [(0, .error (error "subscribe")), (1, .ok ())]) :=
    .turns (b := {}) (second.told 1 .settle) rfl (.settled rfl rfl rfl)
  exact .turns (b := { failSubscribes := 1 }) (third.waits (by decide)) rfl
    (@Slot.Does.postponed _ _ _ _ _ 1 _ _ rfl rfl)

/-- A worker of the root that listens to its first stream. -/
def listening : Slot where
  worker := { root := "t1", kind := .config, snapshot := some ∅, stream := some 0 }
  started := true
  inbox := [(0, .reset)]

/-- Its backend with a change on that stream, and a load that is to fail. -/
def busy : ScriptedBackend where
  failLoads := 1
  channels :=
    { nextId := 1
      members := [{ id := 0, root := "t1", kind := .config, queue := [.delete ⟨["t1", "a"]⟩] }] }

theorem lives_listening
    : Slot.Lives ScriptedBackend .config "t1" 0 [(0, .hydrated ∅)] listening := by
  have first : Slot.Lives ScriptedBackend .config "t1" 0 [(0, .hydrated ∅)]
      { listening with inbox := [] } :=
    .turns (b := {}) (.begins 0) rfl (.hydrated rfl rfl)
  exact first.told 0 .reset

/-- After two attempts that failed the third is due twice as long after them as the second was after
the first. A worker that listens keeps its stream and what is queued there when it fails to rebuild
its tree.
-/
theorem retries_on_time_fickle
    : (waiting ⟨2, 300⟩ [(0, .error (error "subscribe")), (1, .ok ())]).worker.retry
          = Deed.next? deeds
        ∧ Deed.next? deeds = some ⟨2, 300⟩
        ∧ ∃ s' b', listening.turn 50 busy = some (s', b') ∧ s'.worker.stream = some 0
          ∧ ∃ more, b'.channels.queue? 0 = some (.delete ⟨["t1", "a"]⟩ :: more) := by
  have listens := Slot.retries_on_time ScriptedBackend.streams lives_listening rfl
  refine ⟨(Slot.retries_on_time ScriptedBackend.streams lives rfl).retry, rfl, ?_⟩
  have does : listening.Does 50 busy (.refused 0 (error "load")) _ _ := .refused rfl rfl rfl rfl
  obtain ⟨-, -, stream, queued⟩ := listens.fails does rfl
  exact ⟨_, _, does.turn rfl, stream, queued rfl rfl⟩

end Fickle

end Concord
