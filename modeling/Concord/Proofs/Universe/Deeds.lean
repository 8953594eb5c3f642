import Concord.Proofs.Universe.Slots

/-! What a worker does in one turn, whatever its backend is. Each turn is a deed, told by what the
worker found and what its backend answered, with all that it changes. The life of a worker is a row
of such deeds.
-/

namespace Concord

variable {β : Type}

-----------------------------------------------------------------------------------------
-- Hydrations
-----------------------------------------------------------------------------------------

namespace Worker

/-- The ways in which a hydration goes. It fails as it subscribes or as it loads, it may break down,
and it succeeds only if both do.
-/
inductive Hydrates [Backend β] (w : Worker) (b : β) : Hydration → β → Prop
  | unsubscribed {e : BackendError} {b' : β}
    (refused : Backend.subscribe w.root w.kind b = (.error e, b'))
    : Hydrates w b (.refused e) b'
  | unloaded {stream : Nat} {e : BackendError} {b' b'' : β}
    (subscribed : Backend.subscribe w.root w.kind b = (.ok stream, b'))
    (failed : Backend.load w.root w.kind b' = (.failed e, b''))
    : Hydrates w b (.refused e) (Backend.close stream b'')
  | broken {stream : Nat} {b' b'' : β}
    (subscribed : Backend.subscribe w.root w.kind b = (.ok stream, b'))
    (panicked : Backend.load w.root w.kind b' = (.panicked, b''))
    : Hydrates w b .lost (w.hangUp (Backend.close stream b''))
  | fresh {stream : Nat} {t : HashTree} {b' b'' : β}
    (subscribed : Backend.subscribe w.root w.kind b = (.ok stream, b'))
    (loaded : Backend.load w.root w.kind b' = (.tree t, b''))
    : Hydrates w b (.fresh (w.install stream t)) (w.hangUp b'')

theorem hydrates [Backend β] (w : Worker) (b : β)
    : w.Hydrates b (w.hydrate b).1 (w.hydrate b).2 := by
  rw [hydrate]
  split
  · rename_i refused
    exact .unsubscribed refused
  · rename_i subscribed
    split
    · rename_i loaded
      exact .fresh subscribed loaded
    · rename_i failed
      exact .unloaded subscribed failed
    · rename_i panicked
      exact .broken subscribed panicked

end Worker

-----------------------------------------------------------------------------------------
-- Changes
-----------------------------------------------------------------------------------------

namespace Worker

/-- A change concerns the tree only. -/
theorem apply_keeps (w : Worker) (e : TreeEvent)
    : (w.apply e).stream = w.stream ∧ (w.apply e).retry = w.retry := by
  rw [apply]
  split <;> exact ⟨rfl, rfl⟩

/-- So do any number of changes, by induction on the number. -/
theorem drain_keeps [Backend β] (w : Worker) (count : Nat) (b : β)
    : (w.drain count b).1.stream = w.stream ∧ (w.drain count b).1.retry = w.retry := by
  induction count generalizing w b with
  | zero => exact ⟨rfl, rfl⟩
  | succ count ih =>
      rw [drain]
      split
      · exact ⟨rfl, rfl⟩
      · split
        · rename_i e later _
          obtain ⟨stream, retry⟩ := ih (w.apply e) later
          exact ⟨stream.trans (w.apply_keeps e).1, retry.trans (w.apply_keeps e).2⟩
        · exact ⟨rfl, rfl⟩

/-- Applying the next change is taking one. -/
theorem drain_one [Backend β] {w : Worker} {stream : Nat} {e : TreeEvent} {b b' : β}
    (listens : w.stream = some stream) (given : Backend.receive stream b = (.event e, b'))
    : (w.drain 1 b).1 = w.apply e := by
  rw [drain, listens]
  dsimp only
  rw [given]
  rfl

end Worker

-----------------------------------------------------------------------------------------
-- Turns
-----------------------------------------------------------------------------------------

/-- What a worker does in a turn. -/
inductive Deed where
  /-- It hydrates by itself. -/
  | hydrated (tree : HashTree)
  /-- It fails to hydrate by itself. -/
  | postponed (error : BackendError)
  /-- It rebuilds its tree as it was told. -/
  | reloaded (ticket : Nat) (tree : HashTree)
  /-- It fails to rebuild its tree. -/
  | refused (ticket : Nat) (error : BackendError)
  /-- It applies what is queued, as it was told. -/
  | settled (ticket : Nat)
  /-- It applies a change. -/
  | applied (event : TreeEvent)
  /-- It meets the end of its stream. -/
  | ended
  /-- It stops or breaks down. -/
  | gone

namespace Deed

/-- The worker tries to hydrate by itself. -/
def IsAttempt : Deed → Prop
  | .hydrated _ => True
  | .postponed _ => True
  | _ => False

/-- The tree that was loaded. -/
def tree? : Deed → Option HashTree
  | .hydrated tree => some tree
  | .reloaded _ tree => some tree
  | _ => none

/-- The error of a hydration that failed. -/
def error? : Deed → Option BackendError
  | .postponed error => some error
  | .refused _ error => some error
  | _ => none

end Deed

namespace Slot

variable [Backend β] {s s' : Slot} {now : Nat} {b b' : β} {deed : Deed}

/-- How many attempts failed before the one that a worker makes by itself at some time, if it makes
one then.
-/
def attempt? (s : Slot) (now : Nat) : Option UInt32 :=
  if !s.started then some 0
  else if s.stopping || !s.inbox.isEmpty then none
  else (s.worker.retry.filter fun r => r.due ≤ now).map Retry.attempt

/-- The worker has nothing to do but to look at its stream. -/
def Idle (s : Slot) (now : Nat) : Prop :=
  s.started = true ∧ s.stopping = false ∧ s.inbox = []
    ∧ (s.worker.retry.filter fun r => r.due ≤ now) = none

/-- What a worker that is there does in one turn, and what it and its backend are after that. -/
inductive Does (s : Slot) (now : Nat) (b : β) : Deed → Slot → β → Prop
  | hydrated {attempt : UInt32} {stream : Nat} {tree : HashTree} {b' : β}
    (tries : s.attempt? now = some attempt)
    (fresh : s.worker.hydrate b = (.fresh (s.worker.install stream tree), b'))
    : Does s now b (.hydrated tree)
        { s with started := true, worker := s.worker.install stream tree } b'
  | postponed {attempt : UInt32} {e : BackendError} {b' : β}
    (tries : s.attempt? now = some attempt) (refused : s.worker.hydrate b = (.refused e, b'))
    : Does s now b (.postponed e)
        { s with started := true, worker := s.worker.postpone attempt now } b'
  | broken {attempt : UInt32} {b' : β}
    (tries : s.attempt? now = some attempt) (lost : s.worker.hydrate b = (.lost, b'))
    : Does s now b .gone { s with started := true }.lose b'
  | stopped (started : s.started = true) (stopping : s.stopping = true)
    : Does s now b .gone s.lose (s.worker.hangUp b)
  | settled {ticket : Nat} {inbox : List (Nat × WorkerCommand)} (started : s.started = true)
    (stays : s.stopping = false) (told : s.inbox = (ticket, .settle) :: inbox)
    : Does s now b (.settled ticket)
        ({ s with inbox, worker := (s.worker.drain (s.worker.queued b) b).1 }.reply ticket (.ok ()))
        (s.worker.drain (s.worker.queued b) b).2
  | reloaded {ticket stream : Nat} {tree : HashTree} {inbox : List (Nat × WorkerCommand)} {b' : β}
    (started : s.started = true) (stays : s.stopping = false)
    (told : s.inbox = (ticket, .reset) :: inbox)
    (fresh : s.worker.hydrate b = (.fresh (s.worker.install stream tree), b'))
    : Does s now b (.reloaded ticket tree)
        ({ s with inbox, worker := s.worker.install stream tree }.reply ticket (.ok ())) b'
  | refused {ticket : Nat} {inbox : List (Nat × WorkerCommand)} {e : BackendError} {b' : β}
    (started : s.started = true) (stays : s.stopping = false)
    (told : s.inbox = (ticket, .reset) :: inbox) (refused : s.worker.hydrate b = (.refused e, b'))
    : Does s now b (.refused ticket e) ({ s with inbox }.reply ticket (.error e)) b'
  | lost {ticket : Nat} {inbox : List (Nat × WorkerCommand)} {b' : β}
    (started : s.started = true) (stays : s.stopping = false)
    (told : s.inbox = (ticket, .reset) :: inbox) (lost : s.worker.hydrate b = (.lost, b'))
    : Does s now b .gone { s with inbox }.lose b'
  | applied {stream : Nat} {e : TreeEvent} {b' : β} (idle : s.Idle now)
    (listens : s.worker.stream = some stream)
    (given : Backend.receive stream b = (.event e, b'))
    : Does s now b (.applied e) { s with worker := s.worker.apply e } b'
  | ended {stream : Nat} {b' : β} (idle : s.Idle now) (listens : s.worker.stream = some stream)
    (given : Backend.receive stream b = (.ended, b'))
    : Does s now b .ended { s with worker := (s.worker.streamEnded now b').1 }
        (s.worker.streamEnded now b').2

theorem install_of_fresh {w w' : Worker} (h : w.hydrate b = (.fresh w', b'))
    : ∃ stream tree, w' = w.install stream tree := by
  have way := w.hydrates b
  rw [h] at way
  cases way with
  | fresh _ _ => exact ⟨_, _, rfl⟩

/-- When a worker tries to hydrate by itself, this is what it does, unless it breaks down. -/
theorem does_attempt {attempt : UInt32} (tries : s.attempt? now = some attempt) (b : β)
    : ∃ deed : Deed, (deed.IsAttempt ∨ deed = .gone) ∧ s.Does now b deed
        ({ s with started := true }.afterAttempt (s.worker.tryHydrate attempt now b).1)
        (s.worker.tryHydrate attempt now b).2 := by
  rw [Worker.tryHydrate]
  rcases hydrated : s.worker.hydrate b with ⟨w | e | _, b'⟩
  · obtain ⟨stream, tree, rfl⟩ := install_of_fresh hydrated
    exact ⟨.hydrated tree, .inl trivial, .hydrated tries hydrated⟩
  · exact ⟨.postponed e, .inl trivial, .postponed tries hydrated⟩
  · exact ⟨_, .inr rfl, .broken tries hydrated⟩

/-- Carrying a command out is one of these deeds. -/
theorem does_obey {ticket : Nat} {command : WorkerCommand}
    {inbox : List (Nat × WorkerCommand)} (started : s.started = true) (stays : s.stopping = false)
    (told : s.inbox = (ticket, command) :: inbox) (b : β)
    : ∃ deed, s.Does now b deed ({ s with inbox }.obey ticket command b).1
        ({ s with inbox }.obey ticket command b).2 := by
  cases command with
  | settle => exact ⟨_, .settled started stays told⟩
  | reset =>
      rw [obey]
      rcases hydrated : s.worker.hydrate b with ⟨w | e | _, b'⟩
      · obtain ⟨stream, tree, rfl⟩ := install_of_fresh hydrated
        exact ⟨_, .reloaded started stays told hydrated⟩
      · exact ⟨_, .refused started stays told hydrated⟩
      · exact ⟨_, .lost started stays told hydrated⟩

/-- Each turn is one of these deeds. -/
theorem does_turn (taken : s.turn now b = some (s', b'))
    : s.alive = true ∧ ∃ deed, s.Does now b deed s' b' := by
  rw [turn] at taken
  split at taken
  · cases taken
  · rename_i alive
    refine ⟨by simpa using alive, ?_⟩
    split at taken
    · rename_i unstarted
      have tries : s.attempt? now = some 0 := by simp [attempt?, unstarted]
      cases taken
      obtain ⟨deed, -, does⟩ := does_attempt tries b
      exact ⟨deed, does⟩
    · rename_i started
      have started : s.started = true := by simpa using started
      have same : { s with started := true } = s := by rw [← started]
      split at taken
      · rename_i stopping
        cases taken
        exact ⟨_, .stopped started stopping⟩
      · rename_i stays
        have stays : s.stopping = false := by simpa using stays
        split at taken
        · rename_i ticket command inbox told
          obtain ⟨deed, does⟩ : ∃ deed, s.Does now b deed _ _ := does_obey started stays told b
          rw [Option.some.inj taken] at does
          exact ⟨deed, does⟩
        · rename_i told
          split at taken
          · rename_i retry due
            have tries : s.attempt? now = some retry.attempt := by
              simp [attempt?, started, stays, told, due]
            cases taken
            obtain ⟨deed, -, does⟩ := does_attempt tries b
            rw [same] at does
            exact ⟨deed, does⟩
          · rename_i due
            have idle : s.Idle now := ⟨started, stays, told, due⟩
            split at taken
            · cases taken
            · rename_i stream listens
              split at taken
              · rename_i given
                cases taken
                exact ⟨_, .applied idle listens given⟩
              · rename_i given
                cases taken
                exact ⟨_, .ended idle listens given⟩
              · cases taken

/-- And a worker that is there does in its turn what it is said to do. -/
theorem Does.turn (does : s.Does now b deed s' b') (alive : s.alive = true)
    : s.turn now b = some (s', b') := by
  have attempt {n : UInt32} (tries : s.attempt? now = some n)
      : s.turn now b = some
          ({ s with started := true }.afterAttempt (s.worker.tryHydrate n now b).1,
            (s.worker.tryHydrate n now b).2) := by
    cases started : s.started with
    | false =>
        have first : n = 0 := by simpa [attempt?, started, eq_comm] using tries
        simp [Slot.turn, alive, started, first]
    | true =>
        have same : { s with started := true } = s := by rw [← started]
        simp only [attempt?, started, Bool.not_true, Bool.false_eq_true, if_false] at tries
        split at tries
        · cases tries
        · rename_i free
          obtain ⟨stays, told⟩ : s.stopping = false ∧ s.inbox = [] := by simpa using free
          obtain ⟨retry, due, rfl⟩ := Option.map_eq_some_iff.mp tries
          rw [same]
          simp [Slot.turn, alive, started, stays, told, due]
  cases does with
  | hydrated tries fresh => rw [attempt tries, Worker.tryHydrate, fresh]; rfl
  | postponed tries refused => rw [attempt tries, Worker.tryHydrate, refused]; rfl
  | broken tries lost => rw [attempt tries, Worker.tryHydrate, lost]; rfl
  | stopped started stopping => simp [Slot.turn, alive, started, stopping]
  | settled started stays told => simp [Slot.turn, alive, started, stays, told, obey]
  | reloaded started stays told fresh => simp [Slot.turn, alive, started, stays, told, obey, fresh]
  | refused started stays told refused =>
      simp [Slot.turn, alive, started, stays, told, obey, refused]
  | lost started stays told lost => simp [Slot.turn, alive, started, stays, told, obey, lost]
  | applied idle listens given =>
      obtain ⟨started, stays, told, due⟩ := idle
      simp [Slot.turn, alive, started, stays, told, due, listens, given]
  | ended idle listens given =>
      obtain ⟨started, stays, told, due⟩ := idle
      simp [Slot.turn, alive, started, stays, told, due, listens, given]

-----------------------------------------------------------------------------------------
-- Trees, streams and replies
-----------------------------------------------------------------------------------------

/-- A worker has a new tree only if it subscribed and loaded. -/
theorem Does.loads {tree : HashTree} (does : s.Does now b deed s' b')
    (loaded : deed.tree? = some tree)
    : ∃ stream, s.worker.Hydrates b (.fresh (s.worker.install stream tree)) b'
        ∧ s'.worker = s.worker.install stream tree := by
  have way := s.worker.hydrates b
  cases does with
  | hydrated tries fresh | reloaded started stays told fresh =>
      rw [fresh] at way
      cases loaded
      exact ⟨_, way, rfl⟩
  | _ => cases loaded

/-- Where it did not, it keeps its tree and its stream. -/
theorem Does.fails {e : BackendError} (does : s.Does now b deed s' b')
    (failed : deed.error? = some e)
    : s.worker.Hydrates b (.refused e) b' ∧ s'.worker.snapshot = s.worker.snapshot
        ∧ s'.worker.stream = s.worker.stream := by
  have way := s.worker.hydrates b
  cases does with
  | postponed tries refused | refused started stays told refused =>
      rw [refused] at way
      cases failed
      exact ⟨way, rfl, rfl⟩
  | _ => cases failed

/-- It is gone only if it was to stop or broke down as it loaded. -/
theorem Does.goes (does : s.Does now b .gone s' b')
    : s.stopping = true ∨ s.worker.Hydrates b .lost b' := by
  have way := s.worker.hydrates b
  cases does with
  | stopped started stopping => exact .inl stopping
  | broken tries lost | lost started stays told lost =>
      rw [lost] at way
      exact .inr way

/-- A tree that is not new has at most taken what its stream gave. -/
theorem Does.drains (does : s.Does now b deed s' b') (old : deed.tree? = none)
    : ∃ count, s'.worker.snapshot = (s.worker.drain count b).1.snapshot := by
  cases does with
  | hydrated _ _ | reloaded _ _ _ _ => cases old
  | settled _ _ _ => exact ⟨_, rfl⟩
  | applied _ listens given => exact ⟨1, by rw [Worker.drain_one listens given]⟩
  | _ => exact ⟨0, rfl⟩

/-- A worker takes from what it was told, and replies to nothing else. -/
theorem Does.tickets (does : s.Does now b deed s' b')
    : (∀ entry ∈ s'.inbox, entry ∈ s.inbox)
      ∧ ∀ reply ∈ s'.replies, reply ∈ s.replies ∨ ∃ command, (reply.1, command) ∈ s.inbox := by
  have replied {ticket : Nat} {command : WorkerCommand} {inbox : List (Nat × WorkerCommand)}
      (told : s.inbox = (ticket, command) :: inbox) (result : Except BackendError Unit)
      : (∀ entry ∈ inbox, entry ∈ s.inbox)
        ∧ ∀ reply ∈ s.replies ++ [(ticket, result)],
            reply ∈ s.replies ∨ ∃ command, (reply.1, command) ∈ s.inbox := by
    rw [told]
    refine ⟨fun entry hm => List.mem_cons_of_mem _ hm, fun reply hm => ?_⟩
    rcases List.mem_append.mp hm with old | new
    · exact .inl old
    · rw [List.mem_singleton.mp new]
      exact .inr ⟨command, List.mem_cons_self⟩
  cases does with
  | settled started stays told | reloaded started stays told _ | refused started stays told _ =>
      exact replied told _
  | broken tries lost | stopped started stopping | lost started stays told lost =>
      exact ⟨fun entry hm => (by cases hm), fun reply hm => .inl hm⟩
  | hydrated _ _ | postponed _ _ | applied _ _ _ | ended _ _ _ =>
      exact ⟨fun entry hm => hm, fun reply hm => .inl hm⟩

/-- What a worker was told and what it replied to has numbers below a bound. -/
structure Numbered (s : Slot) (bound : Nat) : Prop where
  inbox : ∀ entry ∈ s.inbox, entry.1 < bound
  replies : ∀ reply ∈ s.replies, reply.1 < bound

theorem Numbered.le {bound bound' : Nat} (h : s.Numbered bound) (le : bound ≤ bound')
    : s.Numbered bound' :=
  ⟨fun entry hm => Nat.lt_of_lt_of_le (h.inbox entry hm) le,
    fun reply hm => Nat.lt_of_lt_of_le (h.replies reply hm) le⟩

theorem Numbered.does {bound : Nat} (h : s.Numbered bound) (does : s.Does now b deed s' b')
    : s'.Numbered bound where
  inbox := fun entry hm => h.inbox entry (does.tickets.1 entry hm)
  replies := fun reply hm => by
    rcases does.tickets.2 reply hm with old | ⟨command, told⟩
    · exact h.replies reply old
    · exact h.inbox _ told

-----------------------------------------------------------------------------------------
-- Lives
-----------------------------------------------------------------------------------------

variable (β) in
/-- The life of the worker of a root up to a time, with its deeds, the latest being first. Between
its turns time passes, it is told something, and its backend becomes any other.
-/
inductive Lives (kind : TreeKind) (root : String) : Nat → List (Nat × Deed) → Slot → Prop
  | begins (now : Nat) : Lives kind root now [] (Site.fresh kind root)
  | waits {now later : Nat} {deeds : List (Nat × Deed)} {s : Slot}
    (life : Lives kind root now deeds s) (passes : now ≤ later)
    : Lives kind root later deeds s
  | told {now : Nat} {deeds : List (Nat × Deed)} {s : Slot} (life : Lives kind root now deeds s)
    (ticket : Nat) (command : WorkerCommand)
    : Lives kind root now deeds { s with inbox := s.inbox ++ [(ticket, command)] }
  | leaves {now : Nat} {deeds : List (Nat × Deed)} {s : Slot} (life : Lives kind root now deeds s)
    : Lives kind root now deeds { s with stopping := true }
  | turns {now : Nat} {deeds : List (Nat × Deed)} {deed : Deed} {s s' : Slot} {b b' : β}
    (life : Lives kind root now deeds s) (taken : s.turn now b = some (s', b'))
    (does : s.Does now b deed s' b')
    : Lives kind root now ((now, deed) :: deeds) s'

end Slot

end Concord
