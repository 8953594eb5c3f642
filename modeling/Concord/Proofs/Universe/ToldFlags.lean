import Concord.Proofs.Backend.CarriedFlags
import Concord.Proofs.Universe.Observation

/-! Mutations that carry flags. A worker that has the flags of a load, once it has taken what is
queued for it, still has them after a mutation whose changes carry them; and a stream that waits for
a load stays ready for it under a mutation whose changes keep the marks.
-/

namespace Concord

-----------------------------------------------------------------------------------------
-- Mutations as single changes
-----------------------------------------------------------------------------------------

/-- The relation holds between any two states in a row when a list is gone through. -/
def Along {α β : Type} (p : β → β → Prop) (f : β → α → β) : β → List α → Prop
  | _, [] => True
  | b, a :: rest => p b (f b a) ∧ Along p f (f b a) rest

theorem Along.imp {α β : Type} {p q : β → β → Prop} {f : β → α → β} (hpq : ∀ b b', p b b' → q b b')
    {l : List α} {b : β} (h : Along p f b l)
    : Along q f b l := by
  induction l generalizing b with
  | nil => trivial
  | cons a rest ih => exact ⟨hpq _ _ h.1, ih h.2⟩

/-- What every change of the list preserves, the list preserves, by list induction. -/
theorem Along.preserves {α β : Type} {p : β → β → Prop} {f : β → α → β} {inv : β → Prop}
    (one : ∀ b a, p b (f b a) → inv b → inv (f b a)) {l : List α} {b : β} (h : Along p f b l)
    (start : inv b)
    : inv (l.foldl f b) := by
  induction l generalizing b with
  | nil => exact start
  | cons a rest ih => exact ih h.2 (one b a h.1 start)

namespace Mutation

variable {m m' : Memory} {root : String} {kind : TreeKind} {c : Mutation}
  {p q : Memory → Memory → Prop}

/-- Every change of an object that the mutation makes is within the relation; marks of objects that
are shown are free. -/
def Within (p : Memory → Memory → Prop) (root : String) (kind : TreeKind) (m : Memory)
    : Mutation → Prop
  | .markError key error => m.Shows root kind key ∨ p m (m.markError key error)
  | .push pushed batch =>
      let counted := { m with pushes := m.pushes + 1 }
      Along p (Memory.applyDelete pushed) counted batch.delete
        ∧ Along p (Memory.applyCreate pushed)
            (batch.delete.foldl (Memory.applyDelete pushed) counted) batch.create
  | c => p m (c.apply m)

theorem Within.imp (hpq : ∀ m m', p m m' → q m m') (h : c.Within p root kind m)
    : c.Within q root kind m := by
  cases c with
  | markError key error => exact h.imp_right (hpq _ _)
  | push pushed batch => exact ⟨h.1.imp hpq, h.2.imp hpq⟩
  | insert | delete | setOwner | setObserved | failKey | recoverKey => exact hpq _ _ h

/-- Without a batch, a mutation other than a mark is a plain change. -/
theorem plain_apply (m : Memory) (single : ∀ pushed batch, c ≠ .push pushed batch)
    (other : ∀ key error, c ≠ .markError key error)
    : m.Plain (c.apply m) := by
  cases c with
  | insert key object => exact m.plain_write key (some object)
  | delete key => exact m.plain_write key none
  | setOwner key owner =>
      rw [apply]
      cases h : m.setOwner key owner with
      | error e => exact Memory.plain_of_eq rfl rfl
      | ok m' => exact Memory.plain_update h
  | setObserved key observed =>
      rw [apply]
      cases h : m.setObserved key observed with
      | error e => exact Memory.plain_of_eq rfl rfl
      | ok m' => exact Memory.plain_update h
  | failKey | recoverKey => exact Memory.plain_of_eq rfl rfl
  | markError key error => exact absurd rfl (other key error)
  | push pushed batch => exact absurd rfl (single pushed batch)

/-- What plain changes within the relation and marks preserve, a mutation preserves whose changes
are within the relation. -/
theorem Within.preserves (inv : Memory → Prop) (h : c.Within p root kind m)
    (counted : ∀ m : Memory, inv m → inv { m with pushes := m.pushes + 1 })
    (plain : ∀ m m', m.Plain m' → p m m' → inv m → inv m')
    (told : ∀ m key error, m.Shows root kind key → inv m → inv (m.markError key error))
    (untold : ∀ m key error, ¬ m.Shows root kind key → p m (m.markError key error) → inv m →
      inv (m.markError key error))
    (start : inv m)
    : inv (c.apply m) := by
  cases c with
  | markError key error =>
      by_cases shows : m.Shows root kind key
      · exact told m key error shows start
      · exact untold m key error shows (h.resolve_left shows) start
  | push pushed batch =>
      have deleted := h.1.preserves
        (fun m r hp => plain m _ (Memory.plain_applyDelete pushed m r) hp) (counted m start)
      exact h.2.preserves (fun m r hp => plain m _ (Memory.plain_applyCreate pushed m r) hp) deleted
  | insert | delete | setOwner | setObserved | failKey | recoverKey =>
      exact plain m _ (plain_apply m (by simp) (by simp)) h start

end Mutation

-----------------------------------------------------------------------------------------
-- The worker's tree
-----------------------------------------------------------------------------------------

namespace Worker

variable {m m' : Memory} {id : Nat} {w : Worker} {t : HashTree} {queue : List TreeEvent}

/-- With what is queued for it, the tree of the worker has the flags of a load. -/
def Told (w : Worker) (m : Memory) : Prop :=
  ∀ id t queue, w.stream = some id → w.snapshot = some t → m.Listens id w.root w.kind queue →
    (t.play queue).FlaggedAs m w.root w.kind

/-- What is known of the tree and the queue of a worker that follows its backend. -/
theorem Follows.tree (h : w.Follows m) (stream : w.stream = some id)
    (snapshot : w.snapshot = some t) (listens : m.Listens id w.root w.kind queue)
    : t.Follower w.root ∧ (∀ e ∈ queue, e.Fits w.root)
      ∧ ∀ k, (t.play queue).live? k = m.projected w.root w.kind k := by
  obtain ⟨u, queue', shown, formed, rooted, listens', fits, leads⟩ := h id stream
  cases shown.symm.trans snapshot
  cases listens'.unique listens
  have follower : t.Follower w.root := ⟨formed, rooted⟩
  exact ⟨follower, fits, fun k => (HashTree.live?_play follower fits k).trans (leads k)⟩

/-- After a plain change the worker is told of the flags of a load just when the change carries
them. -/
theorem told_plain_iff (follows : w.Follows m) (told : w.Told m) (plain : m.Plain m')
    (stream : w.stream = some id) (snapshot : w.snapshot = some t)
    : w.Told m' ↔ Memory.Carries w.root w.kind m m' := by
  obtain ⟨u, queue, shown, -, -, listens, -⟩ := follows id stream
  cases shown.symm.trans snapshot
  obtain ⟨follower, fits, -⟩ := follows.tree stream snapshot listens
  obtain ⟨change?, listens', flagless, -⟩ := plain.news id w.root w.kind queue listens
  obtain ⟨-, -, live⟩ := (follows.announces plain.announces).tree stream snapshot listens'
  rw [HashTree.play_append] at live
  rw [← Memory.flaggedAs_plain_iff (told id t queue stream snapshot listens) (follower.play fits)
    flagless live]
  constructor
  · intro told'
    rw [← HashTree.play_append]
    exact told' id t _ stream snapshot listens'
  · intro flags id' t' queue' stream' snapshot' listens''
    cases stream.symm.trans stream'
    cases snapshot.symm.trans snapshot'
    cases listens'.unique listens''
    rw [HashTree.play_append]
    exact flags

/-- The worker is told of a mark of an object that is shown. -/
theorem Told.told_mark {key : Key} (told : w.Told m) (follows : w.Follows m)
    (shows : m.Shows w.root w.kind key) (error : Bool)
    : w.Told (m.markError key error) := by
  intro id t queue' stream snapshot listens'
  obtain ⟨u, queue, shown, -, -, listens, -⟩ := follows id stream
  cases shown.symm.trans snapshot
  obtain ⟨follower, fits, live⟩ := follows.tree stream snapshot listens
  obtain ⟨change?, told', mark, -⟩ := Memory.news_markError listens error
  cases told'.unique listens'
  rw [mark shows, HashTree.play_append]
  exact Memory.flaggedAs_told_mark (told id t queue stream snapshot listens)
    (follower.play fits) live shows

/-- After a mark of an object that is not shown the worker still has the flags of a load just when
the mark carries them. -/
theorem told_untold_mark_iff {key : Key} {error : Bool} (follows : w.Follows m) (told : w.Told m)
    (unshown : ¬ m.Shows w.root w.kind key) (stream : w.stream = some id)
    (snapshot : w.snapshot = some t)
    : w.Told (m.markError key error)
      ↔ Memory.Carries w.root w.kind m (m.markError key error) := by
  obtain ⟨u, queue, shown, -, -, listens, -⟩ := follows id stream
  cases shown.symm.trans snapshot
  obtain ⟨follower, fits, -⟩ := follows.tree stream snapshot listens
  obtain ⟨change?, listens', -, silent⟩ := Memory.news_markError listens error
  have same := silent unshown (t.play queue) (follower.play fits).rooted
  rw [← Memory.flaggedAs_untold_mark_iff (told id t queue stream snapshot listens), ← same,
    ← HashTree.play_append]
  constructor
  · intro told'
    exact told' id t _ stream snapshot listens'
  · intro flags id' t' queue' stream' snapshot' listens''
    cases stream.symm.trans stream'
    cases snapshot.symm.trans snapshot'
    cases listens'.unique listens''
    exact flags

/-- The flags of a load are what they are by the objects and the marks alone. -/
theorem Told.frame (told : w.Told m) (ho : m'.objects = m.objects) (he : m'.errors = m.errors)
    (hc : ∀ id, w.stream = some id → m'.channels.get? id = m.channels.get? id)
    : w.Told m' := by
  intro id t queue stream snapshot listens k
  have listened : m.Listens id w.root w.kind queue := (hc id stream).symm.trans listens
  rw [told id t queue stream snapshot listened k, Memory.Flags, Memory.Flags, he,
    Memory.stands_congr fun k => Memory.projected_congr ho]

/-- A mutation whose changes carry the flags leaves the worker with the flags of a load. -/
theorem Told.mutation {c : Mutation} (told : w.Told m) (follows : w.Follows m)
    (within : c.Within (Memory.Carries w.root w.kind) w.root w.kind m)
    : w.Told (c.apply m) := by
  refine (within.preserves (fun m => w.Follows m ∧ w.Told m) ?_ ?_ ?_ ?_ ⟨follows, told⟩).2
  · rintro m ⟨follows, told⟩
    exact ⟨follows.frame rfl fun _ _ => rfl, told.frame rfl rfl fun _ _ => rfl⟩
  · rintro m m' plain carries ⟨follows, told⟩
    refine ⟨follows.announces plain.announces, ?_⟩
    intro id t queue stream snapshot
    exact (told_plain_iff follows told plain stream snapshot).mpr carries id t queue stream snapshot
  · rintro m key error shows ⟨follows, told⟩
    exact ⟨follows.announces (m.announces_markError key error), told.told_mark follows shows error⟩
  · rintro m key error unshown carries ⟨follows, told⟩
    refine ⟨follows.announces (m.announces_markError key error), ?_⟩
    intro id t queue stream snapshot
    exact (told_untold_mark_iff follows told unshown stream snapshot).mpr carries id t queue stream
      snapshot

/-- Taking the next change moves it from the queue into the tree. -/
theorem Told.apply {e : TreeEvent} {channels : Channels} (told : w.Told m) (follows : w.Follows m)
    (stream : w.stream = some id) (received : m.channels.receive id = (.event e, channels))
    : (w.apply e).Told { m with channels } := by
  intro id' t' queue stream' snapshot' listens
  obtain ⟨hroot, hkind, hstream⟩ := w.apply_same e
  obtain ⟨t, before, snapshot, -, -, listened, -⟩ := follows id stream
  obtain ⟨rest, hq, hg⟩ := Channels.receive_event received listened
  have hq : before = e :: rest := hq
  subst hq
  rw [hstream, stream] at stream'
  cases stream'
  rw [hroot, hkind] at listens ⊢
  have moved : Memory.Listens { m with channels } id w.root w.kind rest := hg
  cases moved.unique listens
  have followed : (w.apply e).snapshot = some (t.follow e) := by
    rw [Worker.apply, snapshot, Option.getD_some, HashTree.follow]
    cases t.apply e with
    | ok u => rfl
    | error _ => exact snapshot
  cases followed.symm.trans snapshot'
  exact told id t _ stream snapshot listened

end Worker

-----------------------------------------------------------------------------------------
-- The stream that waits for a load
-----------------------------------------------------------------------------------------

namespace Memory

variable {m m' : Memory} {id : Nat} {root : String} {kind : TreeKind} {queue : List TreeEvent}

/-- What is queued on the stream leaves the flags of any tree as they are marked now. -/
def Ready (m : Memory) (id : Nat) (root : String) (kind : TreeKind) : Prop :=
  ∀ queue, m.Listens id root kind queue → m.Primed root kind queue

theorem Opened.reaches (h : m.Opened id root kind) (listens : m.Listens id root kind queue)
    : (∀ e ∈ queue, e.Fits root) ∧ m.Reaches root kind queue := by
  obtain ⟨queue', listens', fits, reaches⟩ := h
  cases listens'.unique listens
  exact ⟨fits, reaches⟩

/-- A mutation whose changes keep the marks leaves the stream ready. -/
theorem Ready.mutation {c : Mutation} (ready : m.Ready id root kind)
    (opened : m.Opened id root kind) (within : c.Within (Keeps root kind) root kind m)
    : (c.apply m).Ready id root kind := by
  refine (within.preserves (fun m => m.Opened id root kind ∧ m.Ready id root kind) ?_ ?_ ?_ ?_
    ⟨opened, ready⟩).2
  · rintro m ⟨opened, ready⟩
    exact ⟨opened.frame rfl rfl, ready⟩
  · rintro m m' plain keeps ⟨opened, ready⟩
    have opened' := opened.announces plain.announces
    refine ⟨opened', fun queue' listens' => ?_⟩
    obtain ⟨queue, listens, -⟩ := opened
    obtain ⟨change?, told, flagless, unmoved⟩ := plain.news id root kind queue listens
    cases told.unique listens'
    obtain ⟨fits, reaches⟩ := opened'.reaches told
    exact (ready queue listens).plain fits flagless unmoved reaches keeps
  · rintro m key error shows ⟨opened, ready⟩
    refine ⟨opened.announces (m.announces_markError key error), fun queue' listens' => ?_⟩
    obtain ⟨queue, listens, fits, reaches⟩ := opened
    obtain ⟨change?, told, mark, -⟩ := news_markError listens error
    cases told.unique listens'
    rw [mark shows]
    exact (ready queue listens).told_mark fits reaches shows
  · rintro m key error unshown keeps ⟨opened, ready⟩
    refine ⟨opened.announces (m.announces_markError key error), fun queue' listens' => ?_⟩
    obtain ⟨queue, listens, fits, -⟩ := opened
    obtain ⟨change?, told, -, silent⟩ := news_markError listens error
    cases told.unique listens'
    refine (ready queue listens).untold_mark fits keeps fun t ht => ?_
    rw [HashTree.play_append]
    exact silent unshown _ (ht.play fits).rooted

end Memory

end Concord
