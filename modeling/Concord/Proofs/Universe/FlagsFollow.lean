import Concord.Proofs.Universe.ToldFlags

/-! Flags of a worker over its whole history. Streams are told of a mark only while the object is
shown, whereas a load flags whatever is marked and has a node. Main statement: a worker has the
flags of a load if every change since it has loaded carries them, and every change from the opening
of its stream to the load keeps the marks; and each single change that does not carry the flags
leaves it with other flags.
-/

namespace Concord

namespace Observation

variable {s s' : Observation} {id : Nat} {backend : Memory}

/-- What is asked of every change for the sake of one stream: to keep the marks while the stream
waits for its load, and to carry the flags while the worker listens to it. -/
def Asks (s : Observation) (id : Nat) (m m' : Memory) : Prop :=
  (s.opening = some id → Memory.Keeps s.worker.root s.worker.kind m m')
  ∧ (s.worker.stream = some id → Memory.Carries s.worker.root s.worker.kind m m')

/-- A step that does to the backend only what is asked of its changes. -/
inductive Tame (id : Nat) : Observation → Observation → Prop
  | mutate (s : Observation) (c : Mutation)
    (asked : c.Within (s.Asks id) s.worker.root s.worker.kind s.backend)
    : Tame id s { s with backend := c.apply s.backend }
  /-- Whatever else happens only moves queued changes about. -/
  | other {s s' : Observation} (step : Step s s')
    (quiet : s'.backend = { s.backend with channels := s'.backend.channels })
    : Tame id s s'

/-- Taking changes moves them out of the queue and does nothing else to the backend, by induction on
the number. -/
theorem drain_quiet (w : Worker) (count : Nat) (m : Memory)
    : (w.drain count m).2 = { m with channels := (w.drain count m).2.channels } := by
  induction count generalizing w m with
  | zero => rfl
  | succ count ih =>
      rw [Worker.drain]
      split
      · rfl
      · rename_i id stream
        have same (received : Received) (backend : Memory)
            (answer : Backend.receive id m = (received, backend))
            : backend = { m with channels := backend.channels } := by
          simp only [Backend.receive, Prod.mk.injEq] at answer
          rw [← answer.2]
        split
        · rename_i e backend answer
          have rest := ih (w.apply e) backend
          rw [same _ _ answer] at rest ⊢
          exact rest
        · rename_i backend _ answer
          exact same _ _ answer

/-- The invariant: the worker is told of the flags of a load on the stream, and while the stream
waits for its load it is ready for it.
-/
structure Faithful (id : Nat) (s : Observation) : Prop where
  consistent : s.Consistent
  told : s.worker.stream = some id → s.worker.Told s.backend
  ready : s.opening = some id → s.backend.Ready id s.worker.root s.worker.kind

theorem faithful_start (id : Nat) (name root : String) (kind : TreeKind)
    : (start name root kind).Faithful id where
  consistent := consistent_start name root kind
  told := fun stream => by cases stream
  ready := fun opening => by cases opening

/-- A mutation that does only what is asked keeps the invariant. -/
theorem Faithful.mutate {c : Mutation} (h : s.Faithful id)
    (within : c.Within (s.Asks id) s.worker.root s.worker.kind s.backend)
    : Faithful id { s with backend := c.apply s.backend } where
  consistent := h.consistent.announces (c.announces s.backend)
  told := fun stream =>
    (h.told stream).mutation h.consistent.follows (within.imp fun _ _ asked => asked.2 stream)
  ready := fun opening =>
    (h.ready opening).mutation (h.consistent.opened id opening).2
      (within.imp fun _ _ asked => asked.1 opening)

/-- What leaves objects, marks and the worker's streams alone keeps the invariant. -/
theorem Faithful.frame (h : s.Faithful id) (after : Consistent { s with backend })
    (ho : backend.objects = s.backend.objects) (he : backend.errors = s.backend.errors)
    (hc : ∀ id, s.Owns id → backend.channels.get? id = s.backend.channels.get? id)
    : Faithful id { s with backend } where
  consistent := after
  told := fun stream => (h.told stream).frame ho he fun id stream => hc id (.inl stream)
  ready := fun opening queue listens => by
    have listened : s.backend.Listens id s.worker.root s.worker.kind queue :=
      (hc id (.inr opening)).symm.trans listens
    have primed := h.ready opening queue listened
    intro t k ht
    rw [he, Memory.shows_congr fun k => Memory.projected_congr ho]
    exact primed t k ht

/-- Taking the next change keeps the invariant. -/
theorem Faithful.receive {other : Nat} {e : TreeEvent} (h : s.Faithful id)
    (stream : s.worker.stream = some other)
    (answer : Backend.receive other s.backend = (.event e, backend))
    : Faithful id ⟨backend, s.worker.apply e, none⟩ where
  consistent := h.consistent.receive stream answer
  told := fun stream' => by
    have received : s.backend.channels.receive other
        = (.event e, (s.backend.channels.receive other).2) := by
      simp only [Backend.receive, Prod.mk.injEq] at answer
      exact Prod.ext answer.1 rfl
    have result
        : backend = { s.backend with channels := (s.backend.channels.receive other).2 } := by
      simp only [Backend.receive, Prod.mk.injEq] at answer
      exact answer.2.symm
    subst result
    have same : s.worker.stream = some id := (s.worker.apply_same e).2.2.symm.trans stream'
    exact (h.told same).apply h.consistent.follows stream received
  ready := fun opening => by cases opening

/-- So does taking any number of changes, by induction on the number. -/
theorem Faithful.drain (h : s.Faithful id) (idle : s.opening = none) (count : Nat)
    : Faithful id
        ⟨(s.worker.drain count s.backend).2, (s.worker.drain count s.backend).1, none⟩ := by
  have same : Faithful id ⟨s.backend, s.worker, none⟩ := by
    obtain ⟨backend, worker, opening⟩ := s
    have none : opening = none := idle
    subst none
    exact h
  induction count generalizing s with
  | zero => exact same
  | succ count ih =>
      rw [Worker.drain]
      split
      · exact same
      · rename_i other stream
        split
        · rename_i e backend answer
          have after := h.receive stream answer
          exact ih after rfl after
        · -- Nothing was queued, and nothing was taken.
          rename_i received backend waiting answer
          simp only [Backend.receive, Prod.mk.injEq] at answer
          have taken : (s.backend.channels.receive other).2 = s.backend.channels := by
            refine Channels.receive_idle fun e he => waiting e ?_
            rw [← answer.1, he]
          rw [← answer.2, taken]
          exact same

/-- Nothing is queued on a stream that was just opened. -/
theorem listens_subscribe {m : Memory} (hn : m.channels.Numbered) (root : String) (kind : TreeKind)
    : Memory.Listens { m with channels := (m.channels.subscribe root kind).2 }
        (m.channels.subscribe root kind).1 root kind [] := by
  rw [Memory.Listens, Channels.get?_subscribe]
  simp [Channels.subscribe, hn m.channels.nextId (Nat.le_refl _)]

/-- Dropping the worker's stream leaves objects, marks and other streams alone. -/
theorem hangUp_frame (w : Worker) (m : Memory)
    : (w.hangUp m).objects = m.objects ∧ (w.hangUp m).errors = m.errors
      ∧ ∀ id, w.stream ≠ some id → (w.hangUp m).channels.get? id = m.channels.get? id := by
  rw [Worker.hangUp]
  cases stream : w.stream with
  | none => exact ⟨rfl, rfl, fun _ _ => rfl⟩
  | some old =>
      refine ⟨rfl, rfl, fun id apart => Channels.get?_close_ne ?_⟩
      rintro rfl
      exact apart rfl

/-- A load that succeeds gives the worker the flags that its stream is ready for. -/
theorem Faithful.load {opened : Nat} {t : HashTree} (h : s.Faithful id)
    (hydrating : s.opening = some opened)
    (answer : Backend.load s.worker.root s.worker.kind s.backend = (.tree t, backend))
    (after : Consistent ⟨s.worker.hangUp backend, s.worker.install opened t, none⟩)
    : Faithful id ⟨s.worker.hangUp backend, s.worker.install opened t, none⟩ where
  consistent := after
  told := fun stream id' t' queue stream' snapshot' listens => by
    cases stream
    cases stream'
    cases snapshot'
    obtain ⟨ht, rfl⟩ := load_eq answer
    obtain ⟨objects, errors, others⟩ := hangUp_frame s.worker s.backend
    have listened : s.backend.Listens id s.worker.root s.worker.kind queue :=
      (others id (h.consistent.opened id hydrating).1).symm.trans listens
    obtain ⟨-, fits, leads⟩ := after.follows.tree rfl rfl listens
    obtain ⟨u, hu, follower, live, flags⟩ := s.backend.load_flags s.worker.root s.worker.kind
    cases ht.symm.trans hu
    have flagged := (h.ready hydrating queue listened).loaded follower fits live
      (fun k => (leads k).trans (Memory.projected_congr objects)) flags
    intro k
    refine (flagged k).trans ?_
    rw [Memory.Flags, Memory.Flags, errors]
    exact and_congr_right fun _ =>
      (Memory.stands_congr fun k => Memory.projected_congr objects).symm
  ready := fun opening => by cases opening

/-- A batch is counted, whatever becomes of it. -/
theorem pushes_push (m : Memory) (pushed : TreeKind) (batch : ResourceBatch)
    : (m.push pushed batch).pushes = m.pushes + 1 := by
  have kept {f : Memory → Resource → Memory} (one : ∀ m r, (f m r).pushes = m.pushes)
      (l : List Resource) (m : Memory)
      : (l.foldl f m).pushes = m.pushes := by
    induction l generalizing m with
    | nil => rfl
    | cons r rest ih => exact (ih (f m r)).trans (one m r)
  have deletes (m : Memory) (r : Resource) : (Memory.applyDelete pushed m r).pushes = m.pushes := by
    rw [Memory.applyDelete]
    split
    · rfl
    · split
      · rfl
      · split
        · rfl
        · cases pushed <;> rfl
  have creates (m : Memory) (r : Resource) : (Memory.applyCreate pushed m r).pushes = m.pushes := by
    rw [Memory.applyCreate]
    split
    · rfl
    · cases pushed <;> rfl
  rw [Memory.push, kept creates, kept deletes]

/-- A mutation that changes nothing but what is queued does what is asked. -/
theorem within_of_quiet {c : Mutation} {channels : Channels}
    (quiet : c.apply s.backend = { s.backend with channels })
    : c.Within (s.Asks id) s.worker.root s.worker.kind s.backend := by
  have objects : (c.apply s.backend).objects = s.backend.objects := by rw [quiet]
  have errors : (c.apply s.backend).errors = s.backend.errors := by rw [quiet]
  have keeps : Memory.Keeps s.worker.root s.worker.kind s.backend (c.apply s.backend) :=
    Memory.keeps_of_eq objects errors
  have asked : s.Asks id s.backend (c.apply s.backend) := ⟨fun _ => keeps, fun _ => keeps.carries⟩
  cases c with
  | markError key error => exact .inr asked
  | push pushed batch =>
      rw [Mutation.apply] at quiet
      have counted := pushes_push s.backend pushed batch
      rw [quiet] at counted
      simp at counted
  | insert | delete | setOwner | setObserved | failKey | recoverKey => exact asked

/-- Every tame step keeps the invariant, by cases on what happens. -/
theorem Tame.faithful (tame : Tame id s s') (h : s.Faithful id) : s'.Faithful id := by
  cases tame with
  | mutate c asked => exact h.mutate asked
  | other step quiet =>
  have after := step.consistent h.consistent
  cases step with
  | mutate c => exact h.mutate (within_of_quiet quiet)
  | @subscribe opened backend idle answer =>
      simp only [Backend.subscribe, Prod.mk.injEq, Except.ok.injEq] at answer
      obtain ⟨rfl, rfl⟩ := answer
      have begun := h.frame (h.consistent.subscribe s.worker.root s.worker.kind) rfl rfl
        fun id owned => by
          obtain ⟨ch, hg⟩ := h.consistent.owned owned
          exact (Channels.get?_subscribe _ _ _ _).trans (by rw [hg]; rfl)
      refine ⟨after, begun.told, fun opening queue listens => ?_⟩
      cases opening
      have fresh := listens_subscribe h.consistent.numbered s.worker.root s.worker.kind
      cases fresh.unique listens
      exact Memory.primed_nil _ _ _
  | @load opened t backend hydrating answer => exact h.load hydrating answer after
  | @fail opened hydrating =>
      refine ⟨after, fun stream => (h.told stream).frame rfl rfl fun id' stream' => ?_,
        fun opening => by cases opening⟩
      refine Channels.get?_close_ne ?_
      rintro rfl
      exact (h.consistent.opened _ hydrating).1 stream'
  | @postpone opened hydrating attempt now =>
      refine ⟨after, fun stream => (h.told stream).frame rfl rfl fun id' stream' => ?_,
        fun opening => by cases opening⟩
      refine Channels.get?_close_ne ?_
      rintro rfl
      exact (h.consistent.opened _ hydrating).1 stream'
  | @receive other e backend idle stream answer => exact h.receive stream answer
  | drain idle count => exact h.drain idle count
  | otherSubscribe root kind =>
      refine h.frame after rfl rfl fun id owned => ?_
      obtain ⟨ch, hg⟩ := h.consistent.owned owned
      exact (Channels.get?_subscribe _ _ _ _).trans (by rw [hg]; rfl)
  | @otherReceive id' other =>
      refine h.frame after rfl rfl fun id'' owned => ?_
      exact Channels.get?_receive_ne fun he => other (he ▸ owned)
  | @otherClose id' other =>
      refine h.frame after rfl rfl fun id'' owned => ?_
      exact Channels.get?_close_ne fun he => other (he ▸ owned)

/-- Any tame run keeps the invariant, by induction on its steps. -/
theorem faithful_of_run (h : s.Faithful id) (run : Relation.ReflTransGen (Tame id) s s')
    : s'.Faithful id := by
  induction run with
  | refl => exact h
  | tail _ tame ih => exact tame.faithful ih

theorem Tame.worker (tame : Tame id s s')
    : s'.worker.root = s.worker.root ∧ s'.worker.kind = s.worker.kind := by
  cases tame with
  | mutate c asked => exact ⟨rfl, rfl⟩
  | other step quiet => exact Run.worker (.single step)

/-- A worker observes one root and kind all along. -/
theorem worker_of_run (run : Relation.ReflTransGen (Tame id) s s')
    : s'.worker.root = s.worker.root ∧ s'.worker.kind = s.worker.kind := by
  induction run with
  | refl => exact ⟨rfl, rfl⟩
  | tail _ tame ih => exact ⟨tame.worker.1.trans ih.1, tame.worker.2.trans ih.2⟩

-----------------------------------------------------------------------------------------
-- Flags of a load
-----------------------------------------------------------------------------------------

/-- A worker that takes all that is queued has its tree with all of that played on it, by induction
on the queue.
-/
theorem snapshot_drain {w : Worker} {m : Memory} {t : HashTree} {queue : List TreeEvent}
    {root : String} {kind : TreeKind} (stream : w.stream = some id) (snapshot : w.snapshot = some t)
    (listens : m.Listens id root kind queue)
    : (w.drain (w.queued m) m).1.snapshot = some (t.play queue) := by
  have count : w.queued m = queue.length := by
    rw [Worker.queued, stream]
    change m.channels.queued id = queue.length
    rw [Channels.queued, listens]
    rfl
  rw [count]
  clear count
  induction queue generalizing w m t with
  | nil => exact snapshot
  | cons e rest ih =>
      obtain ⟨channels, received⟩ := Channels.receive_cons listens rfl
      obtain ⟨rest', hq, moved⟩ := Channels.receive_event received listens
      cases hq
      have answer : Backend.receive id m = (.event e, { m with channels }) := by
        simp only [Backend.receive, received]
      have followed : (w.apply e).snapshot = some (t.follow e) := by
        rw [Worker.apply, snapshot, Option.getD_some, HashTree.follow]
        cases t.apply e with
        | ok u => rfl
        | error _ => exact snapshot
      rw [List.length_cons, Worker.drain, stream]
      dsimp only
      rw [answer]
      exact ih ((w.apply_same e).2.2.trans stream) followed moved

/-- A tree flags what a load flags just when it agrees with the tree of a load on every flag. -/
theorem flaggedAs_iff {m : Memory} {root : String} {kind : TreeKind} {t loaded : HashTree}
    (load : m.load root kind = .ok loaded)
    : t.FlaggedAs m root kind ↔ ∀ k, t.flagged k = loaded.flagged k := by
  obtain ⟨u, hu, -, -, flags⟩ := m.load_flags root kind
  cases load.symm.trans hu
  exact forall_congr' fun k => (iff_congr .rfl (flags k).symm).trans Bool.eq_iff_iff.symm

/-- A mutation without a batch does what is asked for the flags just when the worker is told of the
flags of a load after it. -/
theorem told_mutation_iff {w : Worker} {m : Memory} {t : HashTree} {c : Mutation}
    (follows : w.Follows m) (told : w.Told m) (stream : w.stream = some id)
    (snapshot : w.snapshot = some t) (single : ∀ pushed batch, c ≠ .push pushed batch)
    : w.Told (c.apply m) ↔ c.Within (Memory.Carries w.root w.kind) w.root w.kind m := by
  by_cases mark : ∃ key error, c = .markError key error
  · obtain ⟨key, error, rfl⟩ := mark
    by_cases shows : m.Shows w.root w.kind key
    · exact ⟨fun _ => .inl shows, fun _ => told.told_mark follows shows error⟩
    · refine (w.told_untold_mark_iff follows told shows stream snapshot).trans ?_
      exact ⟨.inr, fun within => within.resolve_left shows⟩
  · push Not at mark
    have plain := Mutation.plain_apply m single mark
    refine (w.told_plain_iff follows told plain stream snapshot).trans ?_
    cases c with
    | markError key error => exact absurd rfl (mark key error)
    | push pushed batch => exact absurd rfl (single pushed batch)
    | insert | delete | setOwner | setObserved | failKey | recoverKey => exact .rfl

/-- A hydrated worker that has taken every change queued on its stream has the flags of a fresh
load, if every change of the backend kept the marks from the opening of the stream to its load, and
carried the flags from then on. In such a state a mutation without a batch leaves the worker, once
it has taken what is queued, with the flags of a load just when it is one of a mark of an object
that is shown, or carries the flags.
-/
theorem flags_follow {name root : String} {kind : TreeKind}
    (run : Relation.ReflTransGen (Tame id) (start name root kind) s)
    (hydrated : s.worker.stream = some id) (taken : s.backend.channels.queued id = 0)
    : ∃ t loaded, s.worker.snapshot = some t ∧ s.backend.load root kind = .ok loaded
      ∧ (∀ k, t.flagged k = loaded.flagged k)
      ∧ ∀ c : Mutation, (∀ pushed batch, c ≠ .push pushed batch) →
          ∃ t' loaded',
            (s.worker.drain (s.worker.queued (c.apply s.backend)) (c.apply s.backend)).1.snapshot
              = some t'
            ∧ (c.apply s.backend).load root kind = .ok loaded'
            ∧ ((∀ k, t'.flagged k = loaded'.flagged k)
                ↔ c.Within (Memory.Carries root kind) root kind s.backend) := by
  have faithful := faithful_of_run (faithful_start id name root kind) run
  have same : s.worker.root = root ∧ s.worker.kind = kind := worker_of_run run
  have follows := faithful.consistent.follows
  have told := faithful.told hydrated
  obtain ⟨t, queue, snapshot, -, -, listens, -⟩ := follows id hydrated
  have none : queue = [] := by
    rw [Channels.queued, listens] at taken
    simpa using taken
  subst none
  obtain ⟨loaded, load, -⟩ := s.backend.load_flags root kind
  refine ⟨t, loaded, snapshot, load, ?_, fun c single => ?_⟩
  · have flags := told id t [] hydrated snapshot listens
    rw [same.1, same.2] at flags
    exact (flaggedAs_iff load).mp flags
  · obtain ⟨news, listens', -⟩ := (c.announces s.backend).news id _ _ _ listens
    rw [List.nil_append] at listens'
    obtain ⟨loaded', load', -⟩ := (c.apply s.backend).load_flags root kind
    refine ⟨t.play news, loaded', snapshot_drain hydrated snapshot listens', load', ?_⟩
    have carried := told_mutation_iff follows told hydrated snapshot single
    rw [same.1, same.2] at carried
    rw [← carried, ← flaggedAs_iff load']
    constructor
    · intro flags id' t' queue' stream' snapshot' listens''
      cases hydrated.symm.trans stream'
      cases snapshot.symm.trans snapshot'
      cases listens'.unique listens''
      rw [same.1, same.2]
      exact flags
    · intro told'
      have flags := told' id t news hydrated snapshot listens'
      rwa [same.1, same.2] at flags

/-- A backend whose stream of a configuration was opened before anything else happened. -/
def listened : Memory :=
  (Backend.subscribe "t1" .config ({ name := "fabric" } : Memory)).2

/-- An object that is managed here was put in and marked while the stream waited for its load. -/
def marked : Memory :=
  (listened.insert ⟨["t1", "a"]⟩ {}).markError ⟨["t1", "a"]⟩ true

/-- The object is flagged once the worker has loaded and has taken what was queued before. -/
theorem flags_follow_marked
    : ∃ s t, Relation.ReflTransGen (Tame 0) (start "fabric" "t1" .config) s
      ∧ s.worker.snapshot = some t ∧ t.flagged ⟨["t1", "a"]⟩ = true := by
  obtain ⟨t, ht, -⟩ := marked.load_flags "t1" .config
  have answer : Backend.load "t1" .config marked = (.tree t, marked) := by
    simp only [Backend.load, ht]
  let w : Worker := .install { root := "t1", kind := .config } 0 t
  have inserted : Memory.Keeps "t1" .config listened (listened.insert ⟨["t1", "a"]⟩ {}) :=
    fun k _ => ⟨.rfl, fun none => absurd none Std.ExtTreeSet.not_mem_empty⟩
  have shows : (listened.insert ⟨["t1", "a"]⟩ {}).Shows "t1" .config ⟨["t1", "a"]⟩ := rfl
  have begun : Relation.ReflTransGen (Tame 0) (start "fabric" "t1" .config)
      ⟨marked, { root := "t1", kind := .config }, some 0⟩ :=
    ((Relation.ReflTransGen.single (.other (.subscribe rfl rfl) rfl)).tail
      (.mutate _ (.insert ⟨["t1", "a"]⟩ {}) ⟨fun _ => inserted, fun none => by cases none⟩)).tail
      (.mutate _ (.markError ⟨["t1", "a"]⟩ true) (.inl shows))
  have run := (begun.tail (.other (.load rfl answer) rfl)).tail
    (.other (.drain rfl 2) (drain_quiet w 2 marked))
  have told : marked.Listens 0 "t1" .config
      [.upsert ⟨["t1", "a"]⟩ ∅ ∅, .markError ⟨["t1", "a"]⟩ true] := by
    rfl
  have stream : (w.drain 2 marked).1.stream = some 0 := (worker_drain w 2 marked).2.2
  have taken : (w.drain 2 marked).2.channels.queued 0 = 0 := queued_drain rfl told
  obtain ⟨tree, loaded, snapshot, load, same, -⟩ := flags_follow run stream taken
  refine ⟨_, tree, run, snapshot, ?_⟩
  obtain ⟨fresh, load', -, -, flags⟩ := (w.drain 2 marked).2.load_flags "t1" .config
  cases load.symm.trans load'
  have objects : (w.drain 2 marked).2.objects = marked.objects := by rw [drain_quiet]
  have errors : (w.drain 2 marked).2.errors = marked.errors := by rw [drain_quiet]
  have shown : marked.Shows "t1" .config ⟨["t1", "a"]⟩ := rfl
  have flagged : marked.errors.contains ⟨["t1", "a"]⟩ = true := by rfl
  rw [same, flags, Memory.Flags, errors,
    Memory.stands_congr fun k => Memory.projected_congr objects]
  exact ⟨Std.ExtTreeSet.mem_iff_contains.mpr flagged, shown.stands⟩

/-- An object that is managed elsewhere was put in and marked, and then came to be managed here. -/
def flipped : Memory :=
  Mutation.apply
    ((listened.insert ⟨["t1", "a"]⟩ { owner := .remote }).markError ⟨["t1", "a"]⟩ true)
    (.setOwner ⟨["t1", "a"]⟩ .local)

/-- A load flags the object, but the worker was only told that the object is there. -/
theorem not_flags_follow
    : ∃ s t loaded, Run (start "fabric" "t1" .config) s ∧ s.worker.stream = some 0
      ∧ s.backend.channels.queued 0 = 0 ∧ s.worker.snapshot = some t
      ∧ s.backend.load "t1" .config = .ok loaded
      ∧ t.flagged ⟨["t1", "a"]⟩ = false ∧ loaded.flagged ⟨["t1", "a"]⟩ = true := by
  obtain ⟨t, ht, follower, -, flags⟩ := listened.load_flags "t1" .config
  have answer : Backend.load "t1" .config listened = (.tree t, listened) := by
    simp only [Backend.load, ht]
  let w : Worker := .install { root := "t1", kind := .config } 0 t
  have run : Run (start "fabric" "t1" .config) ⟨flipped, w, none⟩ :=
    (((((Relation.ReflTransGen.single (.subscribe rfl rfl)).tail (.load rfl answer)).tail
      (.mutate _ (.insert ⟨["t1", "a"]⟩ { owner := .remote }))).tail
      (.mutate _ (.markError ⟨["t1", "a"]⟩ true))).tail
      (.mutate _ (.setOwner ⟨["t1", "a"]⟩ .local)))
  have told : flipped.Listens 0 "t1" .config [.upsert ⟨["t1", "a"]⟩ ∅ ∅] := by rfl
  have stream : (w.drain 1 flipped).1.stream = some 0 := (worker_drain w 1 flipped).2.2
  have taken : (w.drain 1 flipped).2.channels.queued 0 = 0 := queued_drain rfl told
  have snapshot : (w.drain (w.queued flipped) flipped).1.snapshot
      = some (t.play [.upsert ⟨["t1", "a"]⟩ ∅ ∅]) :=
    snapshot_drain rfl rfl told
  have queued : w.queued flipped = 1 := by rfl
  rw [queued] at snapshot
  obtain ⟨loaded, load, -, -, flags'⟩ := (w.drain 1 flipped).2.load_flags "t1" .config
  refine ⟨_, _, loaded, run.tail (.drain rfl 1), stream, taken, snapshot, load, ?_, ?_⟩
  · have fits : (TreeEvent.upsert ⟨["t1", "a"]⟩ ∅ ∅).Fits "t1" := rfl
    rw [Bool.eq_false_iff]
    intro flagged
    have before := ((HashTree.flagged_follow follower fits _).mp flagged).1
    exact absurd ((flags _).mp before).1 (by decide)
  · have shows : (w.drain 1 flipped).2.Shows "t1" .config ⟨["t1", "a"]⟩ := rfl
    refine (flags' _).mpr ⟨?_, shows.stands⟩
    have flagged : flipped.errors.contains ⟨["t1", "a"]⟩ = true := by rfl
    exact Std.ExtTreeSet.mem_iff_contains.mpr flagged

end Observation

end Concord
