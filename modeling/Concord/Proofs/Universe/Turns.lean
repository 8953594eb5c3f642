import Concord.Proofs.Universe.Observation

/-! The worker as it runs. In one turn it hydrates, takes changes or stops, whatever it was told,
and all of this is made of the steps of an observation. Of the streams in its backend a turn
touches the worker's own only.
-/

namespace Concord

open Observation

variable {m m' m'' : Memory} {s s' : Slot} {old mid new : Option Nat}

-----------------------------------------------------------------------------------------
-- What a worker leaves of its backend
-----------------------------------------------------------------------------------------

/-- What is left of a backend when a worker acted on it: the objects and the streams of others.
The worker listened to `old` before and listens to `new` after.
-/
structure Memory.Spares (m : Memory) (old : Option Nat) (m' : Memory) (new : Option Nat)
    : Prop where
  objects : m'.objects = m.objects
  numbered : m'.channels.Numbered
  others : ∀ id ch, old ≠ some id → m.channels.get? id = some ch →
    m'.channels.get? id = some ch
  fresh : ∀ id, new = some id → old = some id ∨ m.channels.get? id = none

theorem Memory.Spares.refl (h : m.channels.Numbered) (old : Option Nat) : m.Spares old m old where
  objects := rfl
  numbered := h
  others := fun _ _ _ hg => hg
  fresh := fun _ hs => .inl hs

theorem Memory.Spares.trans (h : m.Spares old m' mid) (h' : m'.Spares mid m'' new)
    : m.Spares old m'' new where
  objects := h'.objects.trans h.objects
  numbered := h'.numbered
  others := by
    intro id ch other hg
    refine h'.others id ch ?_ (h.others id ch other hg)
    intro hm
    rcases h.fresh id hm with own | none
    · exact other own
    · rw [hg] at none
      cases none
  fresh := by
    intro id hs
    rcases h'.fresh id hs with own | none
    · exact h.fresh id own
    · by_cases own : old = some id
      · exact .inl own
      · refine .inr (Option.eq_none_iff_forall_ne_some.mpr fun ch hg => ?_)
        rw [h.others id ch own hg] at none
        cases none

namespace Worker

theorem spares_hangUp (w : Worker) (h : m.channels.Numbered)
    : m.Spares w.stream (w.hangUp m) w.stream := by
  rw [hangUp]
  cases hs : w.stream with
  | none => exact .refl h none
  | some id =>
      exact {
        objects := rfl
        numbered := h.close id
        others := fun other ch ho hg =>
          (Channels.get?_close_ne fun he => ho (by rw [he])).trans hg
        fresh := fun _ hs => .inl hs
      }

/-- A load looks at the objects only. -/
theorem answer_load {root : String} {kind : TreeKind} {t : HashTree} (c : Channels)
    (h : m.load root kind = .ok t)
    : Backend.load root kind { m with channels := c } = (.tree t, { m with channels := c }) := by
  have same : Memory.load { m with channels := c } root kind = .ok t := h
  simp only [Backend.load, same]

/-- A hydration opens a stream and loads at once, and it does not fail in memory. -/
theorem hydrate_eq (w : Worker) (m : Memory)
    : ∃ t, m.load w.root w.kind = .ok t
        ∧ w.hydrate m = (.fresh (w.install m.channels.nextId t),
            w.hangUp { m with channels := (m.channels.subscribe w.root w.kind).2 }) := by
  obtain ⟨t, ht, -⟩ := m.load_spec w.root w.kind
  refine ⟨t, ht, ?_⟩
  have subscribed : Backend.subscribe w.root w.kind m
      = (.ok m.channels.nextId, { m with channels := (m.channels.subscribe w.root w.kind).2 }) :=
    rfl
  rw [hydrate, subscribed]
  dsimp only
  rw [answer_load _ ht]

theorem hydrate_run {w w' : Worker} (h : w.hydrate m = (.fresh w', m'))
    : Run ⟨m, w, none⟩ ⟨m', w', none⟩ := by
  obtain ⟨t, ht, answer⟩ := w.hydrate_eq m
  rw [answer] at h
  cases h
  exact (Relation.ReflTransGen.single (.subscribe rfl rfl)).tail (.load rfl (answer_load _ ht))

/-- The stream that a hydration opens has a number that was not given out before. -/
theorem spares_hydrate {w w' : Worker} (hn : m.channels.Numbered)
    (h : w.hydrate m = (.fresh w', m'))
    : m.Spares w.stream m' w'.stream := by
  obtain ⟨t, ht, answer⟩ := w.hydrate_eq m
  rw [answer] at h
  cases h
  have begun := hn.subscribe w.root w.kind
  have left := w.spares_hangUp
    (m := { m with channels := (m.channels.subscribe w.root w.kind).2 }) begun
  exact {
    objects := left.objects
    numbered := left.numbered
    others := fun id ch other hg => by
      refine left.others id ch other ?_
      rw [Channels.get?_subscribe, hg]
      rfl
    fresh := fun id hs => by
      cases hs
      exact .inr (hn _ (Nat.le_refl _))
  }

/-- Taking changes touches the worker's stream only, by induction on their number. -/
theorem spares_drain (w : Worker) (count : Nat) (h : m.channels.Numbered)
    : m.Spares w.stream (w.drain count m).2 w.stream := by
  induction count generalizing w m with
  | zero => exact .refl h w.stream
  | succ count ih =>
      rw [drain]
      split
      · rename_i idle
        rw [idle]
        exact .refl h none
      · rename_i id stream
        have received (result : Received) (backend : Memory)
            (answer : Backend.receive id m = (result, backend))
            : m.Spares (some id) backend (some id) := by
          simp only [Backend.receive, Prod.mk.injEq] at answer
          rw [← answer.2]
          exact {
            objects := rfl
            numbered := h.receive id
            others := fun other ch ho hg =>
              (Channels.get?_receive_ne fun he => ho (by rw [he])).trans hg
            fresh := fun _ hs => .inl hs
          }
        rw [stream]
        split
        · rename_i e backend answer
          have first := received _ _ answer
          have rest := ih (w.apply e) first.numbered
          rw [(w.apply_same e).2.2, stream] at rest
          exact first.trans rest
        · rename_i backend _ answer
          exact received _ _ answer

theorem drain_idle {w : Worker} (h : w.stream = none) (count : Nat) (m : Memory)
    : w.drain count m = (w, m) := by
  cases count with
  | zero => rfl
  | succ count =>
      rw [drain]
      split
      · rfl
      · rename_i id stream
        rw [h] at stream
        cases stream

end Worker

-----------------------------------------------------------------------------------------
-- Turns
-----------------------------------------------------------------------------------------

theorem Worker.backend_of_ended {id : Nat} (h : Backend.receive id m = (.ended, m')) : m = m' := by
  simp only [Backend.receive, Prod.mk.injEq] at h
  have taken : (m.channels.receive id).2 = m.channels := by
    refine Channels.receive_idle fun e he => ?_
    rw [h.1] at he
    cases he
  rw [← h.2, taken]

/-- The stream that a worker follows was not ended. -/
theorem Worker.Follows.not_ended {w : Worker} {id : Nat} (h : w.Follows m)
    (stream : w.stream = some id)
    : Backend.receive id m ≠ (.ended, m') := by
  intro answer
  obtain ⟨t, queue, -, -, -, hl, -⟩ := h id stream
  simp only [Backend.receive, Prod.mk.injEq] at answer
  have ended := answer.1
  rw [Channels.receive, hl] at ended
  cases queue <;> simp at ended

namespace Slot

/-- What a worker does in one turn: it builds its tree, takes changes, gives up a stream that has
ended, or stops.
-/
inductive Turns (s : Slot) (m : Memory) (s' : Slot) : Memory → Prop
  | hydrate {m' : Memory} (answer : s.worker.hydrate m = (.fresh s'.worker, m'))
    (alive : s'.alive = true) (stopping : s'.stopping = s.stopping)
    : s.Turns m s' m'
  | drain (count : Nat) (worker : s'.worker = (s.worker.drain count m).1)
    (alive : s'.alive = true) (stopping : s'.stopping = s.stopping)
    : s.Turns m s' (s.worker.drain count m).2
  | giveUp {id : Nat} {m' : Memory} (stream : s.worker.stream = some id)
    (answer : Backend.receive id m = (.ended, m')) (now : Nat)
    (result : s' = { s with worker := (s.worker.streamEnded now m').1 })
    : s.Turns m s' (s.worker.hangUp m')
  | stop (stopping : s.stopping = true) (lost : s' = s.lose)
    : s.Turns m s' (s.worker.hangUp m)

/-- An attempt to hydrate is a turn. -/
theorem turns_tryHydrate (started : Slot) {attempt : UInt32} {now : Nat}
    (alive : started.alive = true) (stopping : started.stopping = s.stopping)
    : s.Turns m (started.afterAttempt (s.worker.tryHydrate attempt now m).1)
        (s.worker.tryHydrate attempt now m).2 := by
  obtain ⟨t, -, answer⟩ := s.worker.hydrate_eq m
  have tried : s.worker.tryHydrate attempt now m = (some (s.worker.install m.channels.nextId t),
      s.worker.hangUp { m with channels := (m.channels.subscribe s.worker.root s.worker.kind).2 }) := by
    rw [Worker.tryHydrate, answer]
  rw [tried]
  exact .hydrate answer alive stopping

/-- Carrying a command out is a turn. -/
theorem turns_obey (told : Slot) {ticket : Nat} {command : WorkerCommand}
    (alive : told.alive = true) (worker : told.worker = s.worker)
    (stopping : told.stopping = s.stopping) (h : told.obey ticket command m = (s', m'))
    : s.Turns m s' m' := by
  cases command with
  | settle =>
      cases h
      rw [worker]
      exact .drain _ rfl alive stopping
  | reset =>
      obtain ⟨t, -, answer⟩ := s.worker.hydrate_eq m
      rw [obey, worker, answer] at h
      cases h
      exact .hydrate answer alive stopping

/-- Every turn is one of these, by cases on what the worker finds to do. -/
theorem turn_cases {now : Nat} (h : s.turn now m = some (s', m'))
    : s.alive = true ∧ s.Turns m s' m' := by
  rw [turn] at h
  split at h
  · cases h
  · rename_i gone
    have alive : s.alive = true := by simpa using gone
    refine ⟨alive, ?_⟩
    split at h
    · cases h
      exact turns_tryHydrate { s with started := true } alive rfl
    · split at h
      · rename_i stopping
        cases h
        exact .stop stopping rfl
      · split at h
        · rename_i ticket command inbox waiting
          exact turns_obey { s with inbox } alive rfl rfl (Option.some.inj h)
        · split at h
          · rename_i retry due
            cases h
            exact turns_tryHydrate s alive rfl
          · split at h
            · cases h
            · rename_i id stream
              split at h
              · rename_i e backend answer
                cases h
                have taken : s.worker.drain 1 m = (s.worker.apply e, m') := by
                  rw [Worker.drain, stream]
                  dsimp only
                  rw [answer]
                  rfl
                have turned : s.Turns m { s with worker := s.worker.apply e }
                    (s.worker.drain 1 m).2 :=
                  .drain 1 (by rw [taken]) alive rfl
                rwa [taken] at turned
              · rename_i backend answer
                cases h
                exact .giveUp stream answer now rfl
              · cases h

namespace Turns

theorem same (h : s.Turns m s' m')
    : s'.worker.root = s.worker.root ∧ s'.worker.kind = s.worker.kind
      ∧ s'.stopping = s.stopping := by
  cases h with
  | hydrate answer alive stopping =>
      obtain ⟨hr, hk⟩ := Run.worker (Worker.hydrate_run answer)
      exact ⟨hr, hk, stopping⟩
  | drain count worker alive stopping =>
      obtain ⟨hr, hk, -⟩ := worker_drain s.worker count m
      rw [worker]
      exact ⟨hr, hk, stopping⟩
  | giveUp stream answer now result =>
      subst result
      exact ⟨rfl, rfl, rfl⟩
  | stop stopping lost =>
      subst lost
      exact ⟨rfl, rfl, rfl⟩

/-- A worker is gone only if it was to stop. -/
theorem going (h : s.Turns m s' m') (alive : s.alive = true) (stays : s'.stopping = false)
    : s'.alive = true := by
  cases h with
  | hydrate _ alive _ => exact alive
  | drain _ _ alive _ => exact alive
  | giveUp stream answer now result =>
      subst result
      exact alive
  | stop stopping lost =>
      subst lost
      rw [lose, stopping] at stays
      cases stays

theorem spares (h : s.Turns m s' m') (hn : m.channels.Numbered)
    : m.Spares s.worker.stream m' s'.worker.stream := by
  cases h with
  | hydrate answer alive stopping => exact Worker.spares_hydrate hn answer
  | drain count worker alive stopping =>
      rw [worker, (worker_drain s.worker count m).2.2]
      exact s.worker.spares_drain count hn
  | giveUp stream answer now result =>
      subst result
      have same := Worker.backend_of_ended answer
      subst same
      have left := s.worker.spares_hangUp hn
      exact ⟨left.objects, left.numbered, left.others, fun _ hs => by cases hs⟩
  | stop stopping lost =>
      subst lost
      exact s.worker.spares_hangUp hn

/-- Unless it stops, a worker whose stream was not ended takes steps of an observation. -/
theorem run (h : s.Turns m s' m') (follows : s.worker.Follows m) (alive : s'.alive = true)
    : Run ⟨m, s.worker, none⟩ ⟨m', s'.worker, none⟩ := by
  cases h with
  | hydrate answer alive stopping => exact Worker.hydrate_run answer
  | drain count worker alive stopping =>
      rw [worker]
      exact .single (.drain rfl count)
  | giveUp stream answer now result => exact absurd answer (follows.not_ended stream)
  | stop stopping lost =>
      subst lost
      cases alive

/-- A worker with a tree keeps listening to a stream that was not ended. -/
theorem listening (h : s.Turns m s' m') (follows : s.worker.Follows m)
    (listens : s.worker.snapshot.isSome → s.worker.stream.isSome)
    : s'.worker.snapshot.isSome → s'.worker.stream.isSome := by
  cases h with
  | hydrate answer alive stopping =>
      obtain ⟨t, -, eq⟩ := s.worker.hydrate_eq m
      rw [eq, Prod.mk.injEq, Hydration.fresh.injEq] at answer
      rw [← answer.1]
      exact fun _ => rfl
  | drain count worker alive stopping =>
      rw [worker, (worker_drain s.worker count m).2.2]
      intro shows
      cases hs : s.worker.stream with
      | none =>
          rw [Worker.drain_idle hs] at shows
          rw [← hs]
          exact listens shows
      | some id => rfl
  | giveUp stream answer now result => exact absurd answer (follows.not_ended stream)
  | stop stopping lost =>
      subst lost
      exact listens

end Turns

end Slot

end Concord
