import Concord.Proofs.Backend.Batches
import Concord.Proofs.Universe.Pools

/-! A worker over a backend without flags, as it runs. Every turn that it takes leaves it less to
do, so it comes to rest; it has replied to everything then, and its tree is unflagged still.
-/

namespace Concord

variable {m m' m'' : Memory} {id : Nat} {w w' : Worker} {slot slot' : Slot} {now : Nat}

/-- The backend is the same but for its streams. -/
def Memory.Still (m m' : Memory) : Prop :=
  ∃ channels, m' = { m with channels }

theorem Memory.Still.refl (m : Memory) : m.Still m :=
  ⟨m.channels, rfl⟩

theorem Memory.Still.trans (h : m.Still m') (h' : m'.Still m'') : m.Still m'' := by
  obtain ⟨_, rfl⟩ := h
  obtain ⟨channels, rfl⟩ := h'
  exact ⟨channels, rfl⟩

theorem Memory.Still.objects (h : m.Still m') : m'.objects = m.objects := by
  obtain ⟨_, rfl⟩ := h
  rfl

theorem Memory.Still.failing (h : m.Still m') : m'.failing = m.failing := by
  obtain ⟨_, rfl⟩ := h
  rfl

theorem Memory.Still.errors (h : m.Still m') : m'.errors = m.errors := by
  obtain ⟨_, rfl⟩ := h
  rfl

theorem Memory.Still.dropping {dropped : KeySet} (h : m.Still m') (d : m.Dropping dropped)
    : m'.Dropping dropped := by
  obtain ⟨_, rfl⟩ := h
  exact ⟨d.failing, d.errors⟩

/-- No stream is opened by a batch. -/
theorem Memory.numbered_push (h : m.channels.Numbered) (kind : TreeKind) (batch : ResourceBatch)
    : (m.push kind batch).channels.Numbered := by
  have announces := m.announces_push kind batch
  intro id new
  rw [announces.nextId] at new
  exact announces.absent id (h id new)

-----------------------------------------------------------------------------------------
-- Hydrated workers
-----------------------------------------------------------------------------------------

namespace Worker

/-- The worker listens to an open stream, and no flag is in its tree or on its way there. -/
structure Hydrated (w : Worker) (m : Memory) : Prop where
  numbered : m.channels.Numbered
  errors : m.errors = ∅
  follows : w.Follows m
  stream : w.stream.isSome
  retry : w.retry = none
  unflagged : ∀ t, w.snapshot = some t → t.Unflagged
  unmarked : ∀ id, w.stream = some id → m.Unmarked id

theorem queued_of_listens {queue : List TreeEvent} {root : String} {kind : TreeKind}
    (hs : w.stream = some id) (listens : m.Listens id root kind queue)
    : w.queued m = queue.length := by
  have found : m.channels.get? id = some { id, root, kind, queue } := listens
  have here : w.queued m = m.channels.queued id := by
    rw [queued, hs]
    rfl
  rw [here, Channels.queued, found]
  rfl

/-- The tree of a hydrated worker and what is queued for it. -/
theorem Hydrated.queue (h : w.Hydrated m)
    : ∃ id t queue, w.stream = some id ∧ w.snapshot = some t ∧ t.WellFormed ∧ t.RootedAt w.root
      ∧ t.Unflagged ∧ m.Listens id w.root w.kind queue ∧ w.queued m = queue.length
      ∧ t.LeadsTo queue m w.root w.kind := by
  obtain ⟨id, hs⟩ := Option.isSome_iff_exists.mp h.stream
  obtain ⟨t, queue, snapshot, formed, rooted, listens, -, leads⟩ := h.follows id hs
  exact ⟨id, t, queue, hs, snapshot, formed, rooted, h.unflagged t snapshot, listens,
    queued_of_listens hs listens, leads⟩

theorem retry_apply (w : Worker) (e : TreeEvent) : (w.apply e).retry = w.retry := by
  rw [apply]
  split <;> rfl

/-- Taking the next change keeps a worker hydrated, and leaves one change less. -/
theorem Hydrated.receive {e : TreeEvent} {channels : Channels} (h : w.Hydrated m)
    (hs : w.stream = some id) (received : m.channels.receive id = (.event e, channels))
    : (w.apply e).Hydrated { m with channels }
      ∧ (w.apply e).queued { m with channels } + 1 = w.queued m := by
  obtain ⟨t, queue, snapshot, formed, rooted, listens, fits, -⟩ := h.follows id hs
  obtain ⟨rest, hq, left⟩ := Channels.receive_event received listens
  have hq : queue = e :: rest := hq
  subst hq
  obtain ⟨-, -, sameStream⟩ := w.apply_same e
  have queued : ∀ e' ∈ e :: rest, e'.flags = false := h.unmarked id hs _ listens
  refine ⟨{
    numbered := by
      have numbered := h.numbered.receive id
      rwa [received] at numbered
    errors := h.errors
    follows := h.follows.apply hs received
    stream := by rw [sameStream, hs]; rfl
    retry := (w.retry_apply e).trans h.retry
    unflagged := ?_
    unmarked := ?_
  }, ?_⟩
  · intro u hu
    rw [Worker.apply, snapshot, Option.getD_some] at hu
    split at hu
    · rename_i v applied
      cases hu
      exact (h.unflagged t snapshot).apply formed.shaped rooted (fits e List.mem_cons_self)
        (queued e List.mem_cons_self) applied
    · exact h.unflagged u hu
  · intro id' hs' ch found
    rw [sameStream, hs] at hs'
    cases hs'
    cases left.symm.trans found
    exact fun e' later => queued e' (List.mem_cons_of_mem _ later)
  · have listens' : Memory.Listens { m with channels } id w.root w.kind rest := left
    rw [queued_of_listens (sameStream.trans hs) listens', queued_of_listens hs listens,
      List.length_cons]

/-- Taking changes keeps a worker hydrated, by induction on their number. -/
theorem Hydrated.drain (h : w.Hydrated m) (count : Nat)
    : (w.drain count m).1.Hydrated (w.drain count m).2 ∧ m.Still (w.drain count m).2 := by
  induction count generalizing w m with
  | zero => exact ⟨h, .refl m⟩
  | succ count ih =>
      obtain ⟨id, hs⟩ := Option.isSome_iff_exists.mp h.stream
      rw [Worker.drain, hs]
      dsimp only
      cases received : m.channels.receive id with
      | mk result channels =>
          have answer : Backend.receive id m = (result, { m with channels }) := by
            simp only [Backend.receive, received]
          rw [answer]
          cases result with
          | event e =>
              obtain ⟨left, still⟩ := ih (h.receive hs received).1
              exact ⟨left, Memory.Still.trans ⟨channels, rfl⟩ still⟩
          | waiting | ended =>
              -- Nothing was queued, and nothing was taken.
              have same : (m.channels.receive id).2 = m.channels :=
                Channels.receive_idle fun e he => by
                  rw [received] at he
                  cases he
              rw [received] at same
              have same : channels = m.channels := same
              subst same
              exact ⟨h, .refl m⟩

/-- A worker that takes all that is queued leaves nothing. -/
theorem Hydrated.queued_drain (h : w.Hydrated m)
    : (w.drain (w.queued m) m).1.queued (w.drain (w.queued m) m).2 = 0 := by
  obtain ⟨id, t, queue, hs, -, -, -, -, listens, length, -⟩ := h.queue
  have stays := (Observation.worker_drain w (w.queued m) m).2.2
  rw [queued, stays, hs, length]
  exact Observation.queued_drain hs listens

/-- A hydration succeeds, and the new stream has nothing to give. -/
theorem hydrated_of_hydrate (numbered : m.channels.Numbered) (errors : m.errors = ∅)
    (follows : w.Follows m)
    : ∃ w' m', w.hydrate m = (.fresh w', m') ∧ w'.Hydrated m' ∧ m.Still m' ∧ w'.queued m' = 0 := by
  obtain ⟨t, loaded, answer⟩ := w.hydrate_eq m
  let opened : Memory := { m with channels := (m.channels.subscribe w.root w.kind).2 }
  have still : m.Still (w.hangUp opened) := by
    rw [hangUp]
    split
    · exact ⟨_, rfl⟩
    · exact ⟨_, rfl⟩
  have stream : (w.hangUp opened).Listens m.channels.nextId w.root w.kind [] := by
    have new : opened.Listens m.channels.nextId w.root w.kind [] := by
      rw [Memory.Listens, Channels.get?_subscribe]
      simp [numbered m.channels.nextId (Nat.le_refl _)]
    rw [hangUp]
    cases hs : w.stream with
    | none => exact new
    | some old =>
        refine (Channels.get?_close_ne fun he => ?_).trans new
        -- The old stream is open, and the new number was not given out.
        obtain ⟨t, queue, -, -, -, listens, -⟩ := follows old hs
        have absent := numbered m.channels.nextId (Nat.le_refl _)
        rw [he, listens] at absent
        cases absent
  have started : Observation.Consistent ⟨m, w, none⟩ :=
    ⟨numbered, follows, fun _ ho => by cases ho⟩
  have consistent := (hydrate_run answer).consistent started
  have quiet : (w.install m.channels.nextId t).queued (w.hangUp opened) = 0 :=
    queued_of_listens rfl stream
  refine ⟨_, _, answer, ?_, still, quiet⟩
  exact {
    numbered := consistent.numbered
    errors := still.errors.trans errors
    follows := consistent.follows
    stream := rfl
    retry := rfl
    unflagged := fun u hu => by
      cases hu
      cases loaded.symm.trans (Memory.load_of_no_errors errors)
      exact HashTree.unflagged_addAll _
    unmarked := fun id hs ch found => by
      cases hs
      cases stream.symm.trans found
      simp
  }

/-- A batch is queued for the worker, and flags nothing. -/
theorem Hydrated.push (h : w.Hydrated m) (kind : TreeKind) (batch : ResourceBatch)
    : w.Hydrated (m.push kind batch) where
  numbered := Memory.numbered_push h.numbered kind batch
  errors := (Memory.Dropping.push ⟨rfl, h.errors⟩ kind batch).errors
  follows := h.follows.announces (m.announces_push kind batch)
  stream := h.stream
  retry := h.retry
  unflagged := h.unflagged
  unmarked := fun id hs => (h.unmarked id hs).push kind batch

end Worker

-----------------------------------------------------------------------------------------
-- Turns
-----------------------------------------------------------------------------------------

namespace Slot

/-- The worker goes on, and if it was started it is hydrated. -/
structure InOrder (slot : Slot) (m : Memory) : Prop where
  alive : slot.alive = true
  going : slot.stopping = false
  numbered : m.channels.Numbered
  errors : m.errors = ∅
  unstarted : slot.started = false → slot.worker.stream = none
  hydrated : slot.started = true → slot.worker.Hydrated m

/-- What the worker has yet to do: to start, to carry commands out, and to take changes. -/
def workLeft (slot : Slot) (m : Memory) : Nat :=
  (if slot.started then 0 else 1) + slot.inbox.length + slot.worker.queued m

/-- The replies that the worker gave and those that it has yet to give. -/
def promised (slot : Slot) : List (Nat × Except BackendError Unit) :=
  slot.replies ++ slot.inbox.map fun told => (told.1, .ok ())

/-- What the worker does on its own: it stays in order, the objects and flags of the backend stay,
and so do the replies that it owes.
-/
structure Carries (slot : Slot) (m : Memory) (slot' : Slot) (m' : Memory) : Prop where
  inOrder : slot'.InOrder m'
  still : m.Still m'
  id : slot'.id = slot.id
  promised : slot'.promised = slot.promised

theorem Carries.refl (h : slot.InOrder m) : slot.Carries m slot m :=
  ⟨h, .refl m, rfl, rfl⟩

theorem Carries.trans {slot'' : Slot} (h : slot.Carries m slot' m')
    (h' : slot'.Carries m' slot'' m'')
    : slot.Carries m slot'' m'' :=
  ⟨h'.inOrder, h.still.trans h'.still, h'.id.trans h.id, h'.promised.trans h.promised⟩

theorem follows_of_no_stream (h : w.stream = none) : w.Follows m := by
  intro id hs
  rw [h] at hs
  cases hs

/-- A batch stops no worker. -/
theorem InOrder.push (h : slot.InOrder m) (kind : TreeKind) (batch : ResourceBatch)
    : slot.InOrder (m.push kind batch) where
  alive := h.alive
  going := h.going
  numbered := Memory.numbered_push h.numbered kind batch
  errors := (Memory.Dropping.push ⟨rfl, h.errors⟩ kind batch).errors
  unstarted := h.unstarted
  hydrated := fun started => (h.hydrated started).push kind batch

/-- A command is carried out and replied to, and nothing is queued after it. -/
theorem InOrder.obey (h : slot.InOrder m) (started : slot.started = true) (ticket : Nat)
    (command : WorkerCommand)
    : ∃ slot' m', slot.obey ticket command m = (slot', m') ∧ slot'.InOrder m' ∧ m.Still m'
        ∧ slot'.id = slot.id ∧ slot'.started = true ∧ slot'.inbox = slot.inbox
        ∧ slot'.replies = slot.replies ++ [(ticket, .ok ())]
        ∧ slot'.worker.queued m' = 0 := by
  have hydrated := h.hydrated started
  cases command with
  | settle =>
      obtain ⟨left, still⟩ := hydrated.drain (slot.worker.queued m)
      obtain ⟨sameRoot, sameKind, -⟩ :=
        Observation.worker_drain slot.worker (slot.worker.queued m) m
      refine ⟨_, _, rfl, ⟨h.alive, h.going, left.numbered, left.errors, ?_, fun _ => left⟩, still,
        ?_, started, rfl, rfl, hydrated.queued_drain⟩
      · intro unstarted
        cases started.symm.trans unstarted
      · exact Prod.ext sameKind sameRoot
  | reset =>
      obtain ⟨w', m', answer, left, still, quiet⟩ :=
        Worker.hydrated_of_hydrate h.numbered h.errors hydrated.follows
      obtain ⟨sameRoot, sameKind⟩ := Observation.Run.worker (Worker.hydrate_run answer)
      refine ⟨Slot.reply { slot with worker := w' } ticket (.ok ()), m', ?_,
        ⟨h.alive, h.going, left.numbered, left.errors, ?_, fun _ => left⟩, still, ?_, started, rfl,
        rfl, quiet⟩
      · rw [Slot.obey, answer]
      · intro unstarted
        cases started.symm.trans unstarted
      · exact Prod.ext sameKind sameRoot

theorem InOrder.turn_unstarted (h : slot.InOrder m) (unstarted : slot.started = false) (now : Nat)
    : slot.turn now m
      = some ({ slot with started := true }.afterAttempt (slot.worker.tryHydrate 0 now m).1,
          (slot.worker.tryHydrate 0 now m).2) := by
  rw [Slot.turn, if_neg (by simp [h.alive]), if_pos (by simp [unstarted])]

theorem InOrder.turn_told {ticket : Nat} {command : WorkerCommand}
    {inbox : List (Nat × WorkerCommand)} (h : slot.InOrder m) (started : slot.started = true)
    (told : slot.inbox = (ticket, command) :: inbox) (now : Nat)
    : slot.turn now m = some ({ slot with inbox }.obey ticket command m) := by
  rw [Slot.turn, if_neg (by simp [h.alive]), if_neg (by simp [started]), if_neg (by simp [h.going]),
    told]

theorem InOrder.turn_listening (h : slot.InOrder m) (started : slot.started = true)
    (told : slot.inbox = []) (hs : slot.worker.stream = some id) (now : Nat)
    : slot.turn now m
      = match m.channels.receive id with
        | (.event e, channels) =>
            some ({ slot with worker := slot.worker.apply e }, { m with channels })
        | (.ended, _) | (.waiting, _) => none := by
  have hydrated := h.hydrated started
  rw [Slot.turn, if_neg (by simp [h.alive]), if_neg (by simp [started]), if_neg (by simp [h.going]),
    told, hydrated.retry, hs]
  dsimp only [Option.filter]
  cases received : m.channels.receive id with
  | mk result channels =>
      have answer : Backend.receive id m = (result, { m with channels }) := by
        simp only [Backend.receive, received]
      rw [answer]
      cases result with
      | event e => rfl
      | waiting => rfl
      | ended => exact absurd answer (hydrated.follows.not_ended hs)

/-- A turn leaves less to do. -/
theorem InOrder.turn (h : slot.InOrder m) (taken : slot.turn now m = some (slot', m'))
    : slot.Carries m slot' m' ∧ slot'.workLeft m' < slot.workLeft m := by
  cases started : slot.started with
  | false =>
      have idle := h.unstarted started
      obtain ⟨w', m₁, answer, left, still, quiet⟩ :=
        Worker.hydrated_of_hydrate h.numbered h.errors (follows_of_no_stream idle)
      obtain ⟨sameRoot, sameKind⟩ := Observation.Run.worker (Worker.hydrate_run answer)
      rw [h.turn_unstarted started, Worker.tryHydrate, answer] at taken
      cases taken
      refine ⟨⟨⟨h.alive, h.going, left.numbered, left.errors, ?_, fun _ => left⟩, still, ?_, rfl⟩,
        ?_⟩
      · intro unstarted
        cases unstarted
      · exact Prod.ext sameKind sameRoot
      · have none : slot.worker.queued m = 0 := by
          rw [Worker.queued, idle]
        simp [afterAttempt, workLeft, started, quiet, none]
  | true =>
      have hydrated := h.hydrated started
      cases told : slot.inbox with
      | cons first inbox =>
          obtain ⟨ticket, command⟩ := first
          have before : InOrder { slot with inbox } m :=
            ⟨h.alive, h.going, h.numbered, h.errors, h.unstarted, h.hydrated⟩
          obtain ⟨s, m₁, result, left, still, sameId, on, rest, replies, quiet⟩ :=
            before.obey started ticket command
          rw [h.turn_told started told, result] at taken
          cases taken
          refine ⟨⟨left, still, sameId, ?_⟩, ?_⟩
          · simp [promised, replies, rest, told]
          · simp [workLeft, on, rest, quiet, started, told]
            omega
      | nil =>
          obtain ⟨id, hs⟩ := Option.isSome_iff_exists.mp hydrated.stream
          rw [h.turn_listening started told hs] at taken
          split at taken
          · rename_i e channels received
            cases taken
            obtain ⟨left, fewer⟩ := hydrated.receive hs received
            obtain ⟨sameRoot, sameKind, -⟩ := slot.worker.apply_same e
            refine ⟨⟨⟨h.alive, h.going, left.numbered, left.errors, ?_, fun _ => left⟩,
              ⟨channels, rfl⟩, Prod.ext sameKind sameRoot, rfl⟩, ?_⟩
            · intro unstarted
              cases started.symm.trans unstarted
            · simp only [workLeft]
              omega
          · cases taken
          · cases taken

/-- A worker has something to do just when work is left. -/
theorem InOrder.turn_eq_none_iff (h : slot.InOrder m)
    : slot.turn now m = none ↔ slot.workLeft m = 0 := by
  constructor
  · intro rests
    cases started : slot.started with
    | false =>
        rw [h.turn_unstarted started] at rests
        cases rests
    | true =>
        obtain ⟨id, t, queue, hs, -, -, -, -, listens, length, -⟩ := (h.hydrated started).queue
        cases told : slot.inbox with
        | cons first inbox =>
            rw [h.turn_told started told] at rests
            cases rests
        | nil =>
            cases queue with
            | nil => simp [workLeft, started, told, length]
            | cons e rest =>
                obtain ⟨channels, received⟩ := Channels.receive_cons listens rfl
                rw [h.turn_listening started told hs, received] at rests
                cases rests
  · intro done
    cases taken : slot.turn now m with
    | none => rfl
    | some result =>
        have less := (h.turn taken).2
        omega

/-- With turns enough a worker does all that is left, by induction on the turns. -/
theorem InOrder.run {fuel : Nat} (h : slot.InOrder m) (enough : slot.workLeft m < fuel)
    (now : Nat)
    : slot.Carries m (slot.run now fuel m).1 (slot.run now fuel m).2
      ∧ (slot.run now fuel m).1.workLeft (slot.run now fuel m).2 = 0 := by
  induction fuel generalizing slot m with
  | zero => omega
  | succ fuel ih =>
      rw [Slot.run]
      cases taken : slot.turn now m with
      | none => exact ⟨.refl h, h.turn_eq_none_iff.mp taken⟩
      | some result =>
          obtain ⟨slot', m'⟩ := result
          obtain ⟨carries, less⟩ := h.turn taken
          obtain ⟨rest, done⟩ := ih carries.inOrder (by omega)
          exact ⟨carries.trans rest, done⟩

theorem workLeft_lt_maxTurns (slot : Slot) (m : Memory) : slot.workLeft m < slot.maxTurns m := by
  rw [workLeft, maxTurns]
  split <;> omega

end Slot

end Concord
