import Mathlib.Logic.Relation
import Concord.Proofs.Backend.Announcements
import Concord.Universe.Site

/-! A worker that observes a backend in memory while anything happens to the backend. What is
queued for the worker, played on its tree, always leads to what the backend shows; hence a worker
without queued changes shows just that, however loads, changes and mutations interleave.
-/

namespace Concord

-----------------------------------------------------------------------------------------
-- A tree and the changes queued for it
-----------------------------------------------------------------------------------------

/-- Played on the tree, the changes lead to what the backend shows. -/
def HashTree.LeadsTo (t : HashTree) (queue : List TreeEvent) (m : Memory) (root : String)
    (kind : TreeKind) : Prop :=
  ∀ k, replay queue k (t.live? k) = m.projected root kind k

/-- A stream that was opened and listened to by nobody yet: at each key its changes lead to what
the backend shows, or they do not touch the key.
-/
def Memory.Opened (m : Memory) (id : Nat) (root : String) (kind : TreeKind) : Prop :=
  ∃ queue, m.Listens id root kind queue ∧ (∀ e ∈ queue, e.Fits root)
    ∧ ∀ k, (∀ v, replay queue k v = v) ∨ ∀ v, replay queue k v = m.projected root kind k

namespace Worker

/-- The tree of a hydrated worker and what is queued for it lead to what the backend shows. -/
def Follows (w : Worker) (m : Memory) : Prop :=
  ∀ id, w.stream = some id →
    ∃ t queue, w.snapshot = some t ∧ t.WellFormed ∧ t.RootedAt w.root
      ∧ m.Listens id w.root w.kind queue ∧ (∀ e ∈ queue, e.Fits w.root)
      ∧ t.LeadsTo queue m w.root w.kind

end Worker

variable {m m' : Memory} {id : Nat} {root : String} {kind : TreeKind} {w : Worker}

/-- A fresh stream has nothing queued. -/
theorem Memory.opened_subscribe (hn : m.channels.Numbered) (root : String) (kind : TreeKind)
    : Memory.Opened { m with channels := (m.channels.subscribe root kind).2 }
        (m.channels.subscribe root kind).1 root kind := by
  refine ⟨[], ?_, by simp, fun k => .inl fun v => rfl⟩
  rw [Memory.Listens, Channels.get?_subscribe]
  simp [Channels.subscribe, hn m.channels.nextId (Nat.le_refl _)]

/-- A stream that was opened still leads to what the backend shows after a mutation. -/
theorem Memory.Opened.announces (h : m.Opened id root kind) (hm : m.Announces m')
    : m'.Opened id root kind := by
  obtain ⟨queue, hl, fits, leads⟩ := h
  obtain ⟨news, hl, more, accounts⟩ := hm.news id root kind queue hl
  refine ⟨queue ++ news, hl, ?_, fun k => ?_⟩
  · intro e he
    rcases List.mem_append.mp he with he | he
    · exact fits e he
    · exact more e he
  · rcases accounts k with ⟨stay, silent⟩ | lead
    · rcases leads k with same | leads
      · exact .inl fun v => by rw [replay_append, same, silent]
      · exact .inr fun v => by rw [replay_append, leads, silent, stay]
    · exact .inr fun v => by rw [replay_append, lead]

/-- Whatever keeps the objects and the stream keeps what the stream leads to. -/
theorem Memory.Opened.frame (h : m.Opened id root kind) (ho : m'.objects = m.objects)
    (hc : m'.channels.get? id = m.channels.get? id)
    : m'.Opened id root kind := by
  obtain ⟨queue, hl, fits, leads⟩ := h
  refine ⟨queue, hc.trans hl, fits, fun k => ?_⟩
  rw [Memory.projected_congr ho]
  exact leads k

namespace Worker

/-- A mutation is queued for the worker, so its tree and queue lead to the new objects. -/
theorem Follows.announces (h : w.Follows m) (hm : m.Announces m') : w.Follows m' := by
  intro id hs
  obtain ⟨t, queue, snapshot, formed, rooted, hl, fits, leads⟩ := h id hs
  obtain ⟨news, hl, more, accounts⟩ := hm.news id w.root w.kind queue hl
  refine ⟨t, queue ++ news, snapshot, formed, rooted, hl, ?_, fun k => ?_⟩
  · intro e he
    rcases List.mem_append.mp he with he | he
    · exact fits e he
    · exact more e he
  · rw [replay_append, leads k]
    rcases accounts k with ⟨stay, silent⟩ | lead
    · rw [silent, stay]
    · rw [lead]

theorem Follows.frame (h : w.Follows m) (ho : m'.objects = m.objects)
    (hc : ∀ id, w.stream = some id → m'.channels.get? id = m.channels.get? id)
    : w.Follows m' := by
  intro id hs
  obtain ⟨t, queue, snapshot, formed, rooted, hl, fits, leads⟩ := h id hs
  refine ⟨t, queue, snapshot, formed, rooted, (hc id hs).trans hl, fits, fun k => ?_⟩
  rw [Memory.projected_congr ho]
  exact leads k

/-- A tree loaded after the stream was opened is where the stream leads to: what the stream says
of a key is what the tree already holds there.
-/
theorem follows_install {t : HashTree} (h : m.Opened id w.root w.kind)
    (ht : m.load w.root w.kind = .ok t)
    : (w.install id t).Follows m := by
  intro id' hs
  cases hs
  obtain ⟨queue, hl, fits, leads⟩ := h
  obtain ⟨u, hu, built, rooted, live⟩ := m.load_spec w.root w.kind
  have same : u = t := by
    rw [ht] at hu
    cases hu
    rfl
  subst same
  refine ⟨u, queue, rfl, built.wellFormed, rooted, hl, fits, fun k => ?_⟩
  rw [live]
  rcases leads k with silent | lead
  · exact silent _
  · exact lead _

theorem apply_same (w : Worker) (e : TreeEvent)
    : (w.apply e).root = w.root ∧ (w.apply e).kind = w.kind ∧ (w.apply e).stream = w.stream := by
  rw [Worker.apply]
  split <;> exact ⟨rfl, rfl, rfl⟩

/-- Applying the next change moves it from the queue into the tree. -/
theorem Follows.apply {e : TreeEvent} {channels : Channels} (h : w.Follows m)
    (hs : w.stream = some id) (hr : m.channels.receive id = (.event e, channels))
    : (w.apply e).Follows { m with channels } := by
  obtain ⟨t, queue, snapshot, formed, rooted, hl, fits, leads⟩ := h id hs
  obtain ⟨rest, hq, hg⟩ := Channels.receive_event hr hl
  have hq : queue = e :: rest := hq
  subst hq
  have fit := fits e List.mem_cons_self
  have later : ∀ e ∈ rest, e.Fits w.root := fun e he => fits e (List.mem_cons_of_mem _ he)
  intro id' hs'
  obtain ⟨hroot, hkind, hstream⟩ := w.apply_same e
  rw [hstream, hs] at hs'
  cases hs'
  rw [hroot, hkind, Worker.apply, snapshot, Option.getD_some]
  cases ha : t.apply e with
  | ok u =>
      refine ⟨u, rest, rfl, formed.apply Node.stable_intact ha, rooted.apply fit ha, hg, later,
        fun k => ?_⟩
      rw [HashTree.live?_apply formed.shaped fit ha]
      exact leads k
  | error error =>
      refine ⟨t, rest, snapshot, formed, rooted, hg, later, fun k => ?_⟩
      have silent := HashTree.live?_apply_error rooted fit ha k (t.live? k)
      rw [← silent]
      exact leads k

end Worker

-----------------------------------------------------------------------------------------
-- A worker, its backend, and everything that may happen
-----------------------------------------------------------------------------------------

/-- A backend in memory, a worker that observes it, and the stream that a hydration has opened but
not loaded for yet.
-/
structure Observation where
  backend : Memory
  worker : Worker
  opening : Option Nat := none

namespace Observation

/-- A worker that was not started, beside a backend without objects. -/
def start (name root : String) (kind : TreeKind) : Observation where
  backend := { name }
  worker := { root, kind }

/-- One of the worker's streams. -/
def Owns (s : Observation) (id : Nat) : Prop :=
  s.worker.stream = some id ∨ s.opening = some id

/-- What may happen next. Backend and other observers go on at any time; the worker either
hydrates, which is two steps, or takes what is queued.
-/
inductive Step : Observation → Observation → Prop
  | mutate (s : Observation) (c : Mutation)
    : Step s { s with backend := c.apply s.backend }
  /-- A hydration begins: the worker opens a stream. -/
  | subscribe {s : Observation} {id : Nat} {backend : Memory} (idle : s.opening = none)
    (answer : Backend.subscribe s.worker.root s.worker.kind s.backend = (.ok id, backend))
    : Step s { s with backend, opening := some id }
  /-- The hydration succeeds: the worker loads the tree and drops its old stream. -/
  | load {s : Observation} {id : Nat} {t : HashTree} {backend : Memory}
    (hydrating : s.opening = some id)
    (answer : Backend.load s.worker.root s.worker.kind s.backend = (.tree t, backend))
    : Step s ⟨s.worker.hangUp backend, s.worker.install id t, none⟩
  /-- The hydration fails after the stream was opened. A reset leaves the worker as it is. -/
  | fail {s : Observation} {id : Nat} (hydrating : s.opening = some id)
    : Step s ⟨Backend.close id s.backend, s.worker, none⟩
  /-- A hydration by the worker itself fails, and is due again later. -/
  | postpone {s : Observation} {id : Nat} (hydrating : s.opening = some id)
    (attempt : UInt32) (now : Nat)
    : Step s ⟨Backend.close id s.backend, s.worker.postpone attempt now, none⟩
  /-- The worker takes the next change. -/
  | receive {s : Observation} {id : Nat} {e : TreeEvent} {backend : Memory}
    (idle : s.opening = none) (stream : s.worker.stream = some id)
    (answer : Backend.receive id s.backend = (.event e, backend))
    : Step s ⟨backend, s.worker.apply e, none⟩
  /-- The worker takes up to a number of changes. -/
  | drain {s : Observation} (idle : s.opening = none) (count : Nat)
    : Step s ⟨(s.worker.drain count s.backend).2, (s.worker.drain count s.backend).1, none⟩
  /-- Another observer opens a stream. -/
  | otherSubscribe (s : Observation) (root : String) (kind : TreeKind)
    : Step s { s with backend := (Backend.subscribe root kind s.backend).2 }
  /-- Another observer takes a change. -/
  | otherReceive {s : Observation} {id : Nat} (other : ¬ s.Owns id)
    : Step s { s with backend := (Backend.receive id s.backend).2 }
  /-- Another observer drops a stream. -/
  | otherClose {s : Observation} {id : Nat} (other : ¬ s.Owns id)
    : Step s { s with backend := Backend.close id s.backend }

/-- Any number of steps. -/
abbrev Run : Observation → Observation → Prop :=
  Relation.ReflTransGen Step

/-- The invariant: worker and opened stream lead to what the backend shows, and are apart. -/
structure Consistent (s : Observation) : Prop where
  numbered : s.backend.channels.Numbered
  follows : s.worker.Follows s.backend
  opened : ∀ id, s.opening = some id →
    s.worker.stream ≠ some id ∧ s.backend.Opened id s.worker.root s.worker.kind

variable {s s' : Observation}

theorem consistent_start (name root : String) (kind : TreeKind)
    : (start name root kind).Consistent where
  numbered := fun _ _ => rfl
  follows := fun id h => by cases h
  opened := fun id h => by cases h

/-- A mutation changes objects and queues and keeps the invariant. -/
theorem Consistent.announces {backend : Memory} (h : s.Consistent)
    (hm : s.backend.Announces backend)
    : Consistent { s with backend } where
  numbered := fun id hid => hm.absent id (h.numbered id (hm.nextId ▸ hid))
  follows := h.follows.announces hm
  opened := fun id ho => ⟨(h.opened id ho).1, (h.opened id ho).2.announces hm⟩

/-- What leaves the objects and the worker's streams alone keeps the invariant. -/
theorem Consistent.frame {backend : Memory} (h : s.Consistent)
    (ho : backend.objects = s.backend.objects) (hn : backend.channels.Numbered)
    (hc : ∀ id, s.Owns id → backend.channels.get? id = s.backend.channels.get? id)
    : Consistent { s with backend } where
  numbered := hn
  follows := h.follows.frame ho fun id hs => hc id (.inl hs)
  opened := fun id hid => ⟨(h.opened id hid).1, (h.opened id hid).2.frame ho (hc id (.inr hid))⟩

/-- The worker's streams are open. -/
theorem Consistent.owned {id : Nat} (h : s.Consistent) (ho : s.Owns id)
    : ∃ ch, s.backend.channels.get? id = some ch := by
  rcases ho with hs | hs
  · obtain ⟨t, queue, -, -, -, hl, -⟩ := h.follows id hs
    exact ⟨_, hl⟩
  · obtain ⟨-, queue, hl, -⟩ := h.opened id hs
    exact ⟨_, hl⟩

/-- Another stream that is opened keeps the invariant. -/
theorem Consistent.subscribe (h : s.Consistent) (root : String) (kind : TreeKind)
    : Consistent { s with backend := (Backend.subscribe root kind s.backend).2 } := by
  refine h.frame rfl (h.numbered.subscribe root kind) fun id owned => ?_
  obtain ⟨ch, hg⟩ := h.owned owned
  exact (Channels.get?_subscribe _ _ _ _).trans (by rw [hg]; rfl)

theorem load_eq {m backend : Memory} {root : String} {kind : TreeKind} {t : HashTree}
    (h : Backend.load root kind m = (.tree t, backend))
    : m.load root kind = .ok t ∧ backend = m := by
  simp only [Backend.load] at h
  split at h
  · rename_i u hu
    cases h
    exact ⟨hu, rfl⟩
  · cases h

/-- Taking the next change keeps the invariant. -/
theorem Consistent.receive {id : Nat} {e : TreeEvent} {backend : Memory} (h : s.Consistent)
    (stream : s.worker.stream = some id)
    (answer : Backend.receive id s.backend = (.event e, backend))
    : Consistent ⟨backend, s.worker.apply e, none⟩ := by
  have received : s.backend.channels.receive id
      = (.event e, (s.backend.channels.receive id).2) := by
    simp only [Backend.receive, Prod.mk.injEq] at answer
    exact Prod.ext answer.1 rfl
  have result : backend = { s.backend with channels := (s.backend.channels.receive id).2 } := by
    simp only [Backend.receive, Prod.mk.injEq] at answer
    exact answer.2.symm
  subst result
  exact {
    numbered := h.numbered.receive id
    follows := h.follows.apply stream received
    opened := fun _ ho => by cases ho
  }

/-- So does taking any number of changes, by induction on the number. -/
theorem Consistent.drain (h : s.Consistent) (idle : s.opening = none) (count : Nat)
    : Consistent ⟨(s.worker.drain count s.backend).2, (s.worker.drain count s.backend).1, none⟩ := by
  induction count generalizing s with
  | zero =>
      obtain ⟨backend, worker, opening⟩ := s
      have none : opening = none := idle
      subst none
      exact h
  | succ count ih =>
      rw [Worker.drain]
      have same : Consistent ⟨s.backend, s.worker, none⟩ := by
        obtain ⟨backend, worker, opening⟩ := s
        have none : opening = none := idle
        subst none
        exact h
      split
      · exact same
      · rename_i id stream
        split
        · rename_i e backend answer
          exact ih (h.receive stream answer) rfl
        · -- Nothing was queued, and nothing was taken.
          rename_i received backend waiting answer
          simp only [Backend.receive, Prod.mk.injEq] at answer
          have taken : (s.backend.channels.receive id).2 = s.backend.channels := by
            refine Channels.receive_idle fun e he => waiting e ?_
            rw [← answer.1, he]
          rw [← answer.2, taken]
          exact same

/-- A hydration that fails closes the stream that nobody listens to. -/
theorem Consistent.fail {id : Nat} (h : s.Consistent) (hydrating : s.opening = some id)
    : Consistent ⟨Backend.close id s.backend, s.worker, none⟩ where
  numbered := h.numbered.close id
  follows := h.follows.frame rfl fun other hs => by
    refine Channels.get?_close_ne ?_
    intro he
    exact (h.opened id hydrating).1 (he ▸ hs)
  opened := fun _ ho => by cases ho

/-- Every step keeps the invariant, by cases on what happens. -/
theorem Step.consistent (h : s.Consistent) (step : Step s s') : s'.Consistent := by
  cases step with
  | mutate c => exact h.announces (c.announces s.backend)
  | @subscribe id backend idle answer =>
      have begun := h.subscribe s.worker.root s.worker.kind
      simp only [Backend.subscribe, Prod.mk.injEq, Except.ok.injEq] at answer
      obtain ⟨rfl, rfl⟩ := answer
      refine ⟨begun.numbered, begun.follows, fun id hid => ?_⟩
      cases hid
      refine ⟨fun hs => ?_, Memory.opened_subscribe h.numbered _ _⟩
      -- The worker's own stream is open, and the new number was not given out.
      obtain ⟨ch, hg⟩ := h.owned (.inl hs)
      rw [Channels.subscribe, h.numbered _ (Nat.le_refl _)] at hg
      cases hg
  | @load id t backend hydrating answer =>
      obtain ⟨ht, rfl⟩ := load_eq answer
      obtain ⟨apart, opened⟩ := h.opened id hydrating
      have closed : (s.worker.install id t).Follows (s.worker.hangUp s.backend)
          ∧ (s.worker.hangUp s.backend).channels.Numbered := by
        have installed := Worker.follows_install opened ht
        rw [Worker.hangUp]
        split
        · rename_i old stream
          refine ⟨installed.frame rfl fun id' hs => ?_, h.numbered.close old⟩
          cases hs
          refine Channels.get?_close_ne fun he => apart ?_
          rw [stream, he]
        · exact ⟨installed, h.numbered⟩
      exact ⟨closed.2, closed.1, fun _ ho => by cases ho⟩
  | @fail id hydrating => exact h.fail hydrating
  | @postpone id hydrating attempt now =>
      have failed := h.fail hydrating
      exact ⟨failed.numbered, failed.follows, failed.opened⟩
  | @receive id e backend idle stream answer => exact h.receive stream answer
  | drain idle count => exact h.drain idle count
  | otherSubscribe root kind => exact h.subscribe root kind
  | @otherReceive id other =>
      refine h.frame rfl (h.numbered.receive id) fun id' owned => ?_
      exact Channels.get?_receive_ne fun he => other (he ▸ owned)
  | @otherClose id other =>
      refine h.frame rfl (h.numbered.close id) fun id' owned => ?_
      exact Channels.get?_close_ne fun he => other (he ▸ owned)

/-- Any run keeps the invariant, by induction on its steps. -/
theorem Run.consistent (h : s.Consistent) (run : Run s s') : s'.Consistent := by
  induction run with
  | refl => exact h
  | tail _ step ih => exact step.consistent ih

/-- Taking changes leaves the worker's root, kind and stream alone, by induction on the number. -/
theorem worker_drain (w : Worker) (count : Nat) (m : Memory)
    : (w.drain count m).1.root = w.root ∧ (w.drain count m).1.kind = w.kind
      ∧ (w.drain count m).1.stream = w.stream := by
  induction count generalizing w m with
  | zero => exact ⟨rfl, rfl, rfl⟩
  | succ count ih =>
      rw [Worker.drain]
      split
      · exact ⟨rfl, rfl, rfl⟩
      · split
        · rename_i e backend _
          obtain ⟨hr, hk, hs⟩ := w.apply_same e
          rw [← hr, ← hk, ← hs]
          exact ih _ _
        · exact ⟨rfl, rfl, rfl⟩

theorem objects_drain (w : Worker) (count : Nat) (m : Memory)
    : (w.drain count m).2.objects = m.objects := by
  induction count generalizing w m with
  | zero => rfl
  | succ count ih =>
      rw [Worker.drain]
      split
      · rfl
      · rename_i id stream
        have same (received : Received) (backend : Memory)
            (answer : Backend.receive id m = (received, backend))
            : backend.objects = m.objects := by
          simp only [Backend.receive, Prod.mk.injEq] at answer
          rw [← answer.2]
        split
        · rename_i e backend answer
          rw [ih, same _ _ answer]
        · rename_i backend _ answer
          exact same _ _ answer

/-- A worker that takes as many changes as are queued leaves none, by induction on the queue. -/
theorem queued_drain {w : Worker} {m : Memory} {id : Nat} {queue : List TreeEvent}
    {root : String} {kind : TreeKind} (hs : w.stream = some id) (hl : m.Listens id root kind queue)
    : (w.drain queue.length m).2.channels.queued id = 0 := by
  induction queue generalizing w m with
  | nil =>
      rw [List.length_nil, Worker.drain, Channels.queued, hl]
      rfl
  | cons e rest ih =>
      obtain ⟨channels, received⟩ := Channels.receive_cons hl rfl
      obtain ⟨rest', hq, hg⟩ := Channels.receive_event received hl
      cases hq
      have answer : Backend.receive id m = (.event e, { m with channels }) := by
        simp only [Backend.receive, received]
      rw [List.length_cons, Worker.drain, hs]
      dsimp only
      rw [answer]
      exact ih ((w.apply_same e).2.2.trans hs) hg

/-- A worker observes one root and kind all along. -/
theorem Run.worker (run : Run s s')
    : s'.worker.root = s.worker.root ∧ s'.worker.kind = s.worker.kind := by
  induction run with
  | refl => exact ⟨rfl, rfl⟩
  | tail _ step ih =>
      cases step with
      | mutate | subscribe | load | fail | postpone | otherSubscribe | otherReceive
      | otherClose => exact ih
      | receive =>
          obtain ⟨hr, hk, -⟩ := Worker.apply_same _ _
          exact ⟨hr.trans ih.1, hk.trans ih.2⟩
      | drain idle count =>
          obtain ⟨hr, hk, -⟩ := worker_drain _ count _
          exact ⟨hr.trans ih.1, hk.trans ih.2⟩

/-- A hydrated worker that has taken every change queued on its stream shows what the backend
shows of its root and kind, which is what a fresh load would give. This holds in every state that
any mutations and steps lead to, in any order.
-/
theorem shows_projection {name root : String} {kind : TreeKind} {id : Nat}
    (run : Run (start name root kind) s) (hydrated : s.worker.stream = some id)
    (taken : s.backend.channels.queued id = 0)
    : ∃ t fresh, s.worker.snapshot = some t ∧ s.backend.load root kind = .ok fresh
      ∧ (∀ k v, t.live? k = some v ↔ (k, v) ∈ s.backend.projection root kind)
      ∧ ∀ k, t.live? k = fresh.live? k := by
  have consistent := run.consistent (consistent_start name root kind)
  have same : s.worker.root = root ∧ s.worker.kind = kind := run.worker
  obtain ⟨t, queue, snapshot, -, -, hl, -, leads⟩ := consistent.follows id hydrated
  have empty : queue = [] := by
    rw [Channels.queued, hl] at taken
    simpa using taken
  subst empty
  rw [same.1, same.2] at leads
  obtain ⟨fresh, loaded, -, -, live⟩ := s.backend.load_spec root kind
  refine ⟨t, fresh, snapshot, loaded, fun k v => ?_, fun k => ?_⟩
  · rw [Memory.mem_projection, ← leads k]
    rfl
  · rw [live, ← leads k]
    rfl

/-- A backend where an object was put in and then changed after a stream was opened. -/
def overlapped : Memory :=
  let opened : Memory := (Backend.subscribe "r" .config ({ name := "fabric" } : Memory)).2
  (opened.insert ⟨["r", "a"]⟩ { attributes := {("mtu", .null)} }).insert ⟨["r", "a"]⟩ {}

/-- The load sees the later object, and the queue starts with the earlier one, which is gone once
the queue is taken.
-/
theorem shows_projection_overlap
    : ∃ s t, Run (start "fabric" "r" .config) s ∧ s.worker.stream = some 0
      ∧ s.backend.channels.queued 0 = 0 ∧ s.worker.snapshot = some t
      ∧ t.live? ⟨["r", "a"]⟩ = some ∅ := by
  obtain ⟨loaded, ht, -⟩ := overlapped.load_spec "r" .config
  have answer : Backend.load "r" .config overlapped = (.tree loaded, overlapped) := by
    simp only [Backend.load, ht]
  have begun : Run (start "fabric" "r" .config)
      ⟨overlapped, { root := "r", kind := .config }, some 0⟩ :=
    ((Relation.ReflTransGen.single (.subscribe rfl rfl)).tail
      (.mutate _ (.insert ⟨["r", "a"]⟩ { attributes := {("mtu", .null)} }))).tail
      (.mutate _ (.insert ⟨["r", "a"]⟩ {}))
  have run := (begun.tail (.load rfl answer)).tail (.drain rfl 2)
  have listens : overlapped.Listens 0 "r" .config
      [.upsert ⟨["r", "a"]⟩ {("mtu", .null)} ∅, .upsert ⟨["r", "a"]⟩ ∅ ∅] := by
    rfl
  have stream := (worker_drain (Worker.install { root := "r", kind := .config } 0 loaded) 2
    overlapped).2.2
  have taken := queued_drain (w := .install { root := "r", kind := .config } 0 loaded) rfl listens
  obtain ⟨t, fresh, snapshot, -, shows, -⟩ := shows_projection run stream taken
  refine ⟨_, t, run, stream, taken, snapshot, (shows _ _).mpr ?_⟩
  have object : overlapped.objects[(⟨["r", "a"]⟩ : Key)]? = some {} :=
    Memory.objects_write _ _ _ _
  have shown : overlapped.projected "r" .config ⟨["r", "a"]⟩ = some ∅ := by
    rw [Memory.projected, object]
    rfl
  exact Memory.mem_projection.mpr
    ((Memory.projected_congr (objects_drain _ 2 overlapped)).trans shown)

end Observation

end Concord
