import Concord.Proofs.Universe.ComingToRest
import Concord.Proofs.Universe.Serving
import Concord.Reconcile.Reconciler

/-! A worker that has its site to itself, over a backend without flags. Whoever waits for it gets a
reply, and leaves it with nothing to do; its tree shows just what the backend shows then. Main
statement: views that serve one root and have settled are in this state.
-/

namespace Concord

variable {m : Memory} {slot slot' : Slot}

-----------------------------------------------------------------------------------------
-- Waiting
-----------------------------------------------------------------------------------------

namespace Site

variable {s s' s'' : Site Memory} {kind : TreeKind} {root : String}

/-- The worker of a root and kind is the only one of the site, and replies it gave or owes have
numbers of their own.
-/
structure Sole (s : Site Memory) (kind : TreeKind) (root : String) (slot : Slot) : Prop where
  slots : s.slots = [slot]
  id : slot.id = (kind, root)
  inOrder : slot.InOrder s.backend
  numbered : ∀ reply ∈ slot.promised, reply.1 < s.nextTicket

/-- The worker of a root and kind is the only one of the site, and has nothing to do. -/
def Settled (s : Site Memory) (kind : TreeKind) (root : String) : Prop :=
  ∃ slot, s.Sole kind root slot ∧ slot.workLeft s.backend = 0

theorem Sole.slot? (h : s.Sole kind root slot) : s.slot? kind root = some slot := by
  rw [Site.slot?, h.slots, List.find?_cons, isId_iff.mpr h.id]

theorem Sole.setSlot (h : s.Sole kind root slot) (same : slot'.id = slot.id)
    : (s.setSlot slot').slots = [slot'] := by
  have like : (slot.worker.kind = slot'.worker.kind
      && slot.worker.root = slot'.worker.root) = true :=
    isId_iff.mpr same.symm
  rw [Site.setSlot, h.slots, List.map_singleton, if_pos like]

/-- Nothing but the worker moves. -/
structure Carries (s : Site Memory) (slot : Slot) (s' : Site Memory) (slot' : Slot) : Prop where
  slots : s'.slots = [slot']
  slot : slot.Carries s.backend slot' s'.backend
  nextTicket : s'.nextTicket = s.nextTicket

theorem Carries.sole (h : s.Sole kind root slot) (carries : s.Carries slot s' slot')
    : s'.Sole kind root slot' where
  slots := carries.slots
  id := carries.slot.id.trans h.id
  inOrder := carries.slot.inOrder
  numbered := by
    rw [carries.slot.promised, carries.nextTicket]
    exact h.numbered

theorem Carries.trans {slot'' : Slot} (h : s.Carries slot s' slot')
    (h' : s'.Carries slot' s'' slot'')
    : s.Carries slot s'' slot'' :=
  ⟨h'.slots, h.slot.trans h'.slot, h'.nextTicket.trans h.nextTicket⟩

/-- A worker that runs does all that is left, and one that has nothing to do goes on so. -/
theorem Sole.runSlot (h : s.Sole kind root slot) (id : TreeKind × String)
    : ∃ slot', s.Carries slot (s.runSlot id) slot'
        ∧ (id = (kind, root) ∨ slot.workLeft s.backend = 0 →
            slot'.workLeft (s.runSlot id).backend = 0) := by
  by_cases this : id = (kind, root)
  · subst this
    obtain ⟨carries, done⟩ := h.inOrder.run (slot.workLeft_lt_maxTurns s.backend) s.now
    refine ⟨(slot.run s.now (slot.maxTurns s.backend) s.backend).1, ?_, fun _ => ?_⟩
    · rw [Site.runSlot, h.slot?]
      exact ⟨h.setSlot carries.id, carries, rfl⟩
    · rw [Site.runSlot, h.slot?]
      exact done
  · have other : s.slot? id.1 id.2 = none := by
      rw [slot?_eq_none_iff, ids, h.slots, List.map_singleton, List.mem_singleton, h.id]
      exact this
    rw [Site.runSlot, other]
    refine ⟨slot, ⟨h.slots, .refl h.inOrder, rfl⟩, ?_⟩
    rintro (same | done)
    · exact absurd same this
    · exact done

/-- Waiting runs the worker if it was woken, by induction on those who were. -/
theorem Sole.rest (h : s.Sole kind root slot)
    : ∃ slot', s.Carries slot s.rest slot'
        ∧ ((kind, root) ∈ s.woken → slot'.workLeft s.rest.backend = 0) := by
  have runs (woken : List (TreeKind × String)) {s : Site Memory} {slot : Slot}
      (h : s.Sole kind root slot)
      : ∃ slot', s.Carries slot (woken.foldl Site.runSlot s) slot'
          ∧ ((kind, root) ∈ woken ∨ slot.workLeft s.backend = 0 →
              slot'.workLeft (woken.foldl Site.runSlot s).backend = 0) := by
    induction woken generalizing s slot with
    | nil =>
        refine ⟨slot, ⟨h.slots, .refl h.inOrder, rfl⟩, ?_⟩
        rintro (none | done)
        · cases none
        · exact done
    | cons id rest ih =>
        obtain ⟨slot₁, carries, done⟩ := h.runSlot id
        obtain ⟨slot₂, later, done'⟩ := ih (carries.sole h)
        refine ⟨slot₂, carries.trans later, ?_⟩
        rintro (member | before)
        · rcases List.mem_cons.mp member with this | member
          · exact done' (.inr (done (.inl this.symm)))
          · exact done' (.inl member)
        · exact done' (.inr (done (.inr before)))
  have begun : Sole { s with woken := [] } kind root slot :=
    ⟨h.slots, h.id, h.inOrder, h.numbered⟩
  obtain ⟨slot', carries, done⟩ := runs s.woken begun
  exact ⟨slot', ⟨carries.slots, carries.slot, carries.nextTicket⟩, fun woken => done (.inl woken)⟩

theorem mem_woken_wake (s : Site Memory) (kind : TreeKind) (root : String)
    : (kind, root) ∈ (s.wake kind root).woken := by
  rw [wake]
  split
  · rename_i already
    exact List.contains_iff_mem.mp already
  · exact List.mem_append_right _ List.mem_cons_self

/-- A wake changes nothing but who is to run. -/
theorem wake_eq (s : Site Memory) (kind : TreeKind) (root : String)
    : ∃ woken, s.wake kind root = { s with woken } := by
  rw [wake]
  split
  · exact ⟨s.woken, rfl⟩
  · exact ⟨_, rfl⟩

theorem Sole.wake (h : s.Sole kind root slot) (other : TreeKind) (r : String)
    : (s.wake other r).Sole kind root slot ∧ (s.wake other r).backend = s.backend := by
  obtain ⟨woken, woke⟩ := s.wake_eq other r
  rw [woke]
  exact ⟨⟨h.slots, h.id, h.inOrder, h.numbered⟩, rfl⟩

theorem Sole.wakeAll (h : s.Sole kind root slot)
    : s.wakeAll.Sole kind root slot ∧ s.wakeAll.backend = s.backend
      ∧ (kind, root) ∈ s.wakeAll.woken := by
  have one : s.wakeAll = s.wake kind root := by
    obtain ⟨sameKind, sameRoot⟩ := Prod.mk.inj h.id
    rw [Site.wakeAll, h.slots, List.foldl_cons, List.foldl_nil, sameKind, sameRoot]
  rw [one]
  exact ⟨(h.wake kind root).1, (h.wake kind root).2, s.mem_woken_wake kind root⟩

/-- Waiting for all workers leaves the only one with nothing to do. -/
theorem Sole.restAll (h : s.Sole kind root slot)
    : s.wakeAll.rest.Settled kind root ∧ s.backend.Still s.wakeAll.rest.backend := by
  obtain ⟨woke, same, woken⟩ := h.wakeAll
  obtain ⟨slot', carries, done⟩ := woke.rest
  refine ⟨⟨slot', carries.sole woke, done woken⟩, ?_⟩
  rw [← same]
  exact carries.slot.still

/-- A worker that was told something is woken, and owes a reply with a number of its own. -/
theorem Sole.tell (h : s.Sole kind root slot) (idle : slot.inbox = []) (command : WorkerCommand)
    : (s.tell slot command).Sole kind root { slot with inbox := [(s.nextTicket, command)] }
      ∧ (s.tell slot command).backend = s.backend
      ∧ (kind, root) ∈ (s.tell slot command).woken := by
  let asked : Slot := { slot with inbox := [(s.nextTicket, command)] }
  have kindRoot : slot.worker.kind = kind ∧ slot.worker.root = root := Prod.mk.inj h.id
  have written : s.tell slot command
      = Site.wake { s.setSlot asked with nextTicket := s.nextTicket + 1 } kind root := by
    simp only [Site.tell, h.inOrder.alive, if_true, idle, List.nil_append, kindRoot, asked]
  have sole : Sole { s.setSlot asked with nextTicket := s.nextTicket + 1 } kind root asked := by
    have same : asked.id = slot.id := rfl
    refine ⟨h.setSlot same, same.trans h.id, ?_, ?_⟩
    · exact ⟨h.inOrder.alive, h.inOrder.going, h.inOrder.numbered, h.inOrder.errors,
        h.inOrder.unstarted, h.inOrder.hydrated⟩
    · intro reply listed
      have before := h.numbered reply
      simp only [Slot.promised, idle, List.map_nil, List.append_nil] at before
      rcases List.mem_append.mp listed with old | new
      · exact Nat.lt_succ_of_lt (before old)
      · rw [List.mem_singleton.mp new]
        exact Nat.lt_succ_self _
  rw [written]
  exact ⟨(sole.wake kind root).1, (sole.wake kind root).2, mem_woken_wake _ _ _⟩

/-- A command is replied to, and leaves the worker with nothing to do. -/
theorem Sole.command (h : s.Sole kind root slot) (idle : slot.inbox = []) (command : WorkerCommand)
    : let told := s.tellAll command [slot]
      (told.2.await kind told.1).1 = .ok ()
      ∧ (told.2.await kind told.1).2.Settled kind root
      ∧ s.backend.Still (told.2.await kind told.1).2.backend := by
  let told := s.tell slot command
  obtain ⟨sole, same, woken⟩ := h.tell idle command
  obtain ⟨slot', carries, done⟩ := sole.rest
  have left := carries.sole sole
  -- The reply was not given before, and it is there after the wait.
  have silent : slot.replies.lookup s.nextTicket = none := by
    rw [List.lookup_eq_none_iff]
    intro reply listed
    have before := h.numbered reply (List.mem_append_left _ listed)
    simp
    omega
  have waits : told.replyOf? kind root s.nextTicket = none := by
    rw [replyOf?, sole.slot?]
    simp [silent, h.inOrder.alive]
  have nothing : slot'.inbox = [] := by
    have none := done woken
    rw [Slot.workLeft] at none
    exact List.eq_nil_of_length_eq_zero (by omega)
  have replies : slot'.replies = slot.replies ++ [(s.nextTicket, .ok ())] := by
    have same := carries.slot.promised
    rwa [Slot.promised, nothing, List.map_nil, List.append_nil] at same
  have replied : told.rest.replyOf? kind root s.nextTicket = some (.ok ()) := by
    rw [replyOf?, left.slot?]
    simp [replies, List.lookup_append, silent]
  have answer : told.await kind [(root, s.nextTicket)] = (.ok (), told.rest) := by
    rw [await, waits]
    dsimp only
    rw [replied]
    rfl
  have all : s.tellAll command [slot] = ([(root, s.nextTicket)], told) := by
    rw [tellAll, List.foldl_cons, List.foldl_nil, (Prod.mk.inj h.id).2]
    rfl
  rw [all]
  dsimp only
  rw [answer, ← same]
  exact ⟨rfl, ⟨slot', left, done woken⟩, carries.slot.still⟩

/-- The worker of a root and kind is the only one of the site, and it was told nothing. -/
def Attended (s : Site Memory) (kind : TreeKind) (root : String) : Prop :=
  ∃ slot, s.Sole kind root slot ∧ slot.inbox = []

theorem Settled.attended (h : s.Settled kind root) : s.Attended kind root := by
  obtain ⟨slot, sole, done⟩ := h
  rw [Slot.workLeft] at done
  exact ⟨slot, sole, List.eq_nil_of_length_eq_zero (by omega)⟩

/-- A batch may leave the worker with changes to take, but tells it nothing. -/
theorem Attended.push (h : s.Attended kind root) (other : TreeKind) (batch : ResourceBatch)
    : Site.Attended { s with backend := s.backend.push other batch } kind root := by
  obtain ⟨slot, sole, idle⟩ := h
  exact ⟨slot, ⟨sole.slots, sole.id, sole.inOrder.push other batch, sole.numbered⟩, idle⟩

theorem Settled.errors (h : s.Settled kind root) : s.backend.errors = ∅ := by
  obtain ⟨slot, sole, -⟩ := h
  exact sole.inOrder.errors

theorem Sole.pool (h : s.Sole kind root slot) : s.pool kind = [slot] := by
  have sameKind : slot.worker.kind = kind := congrArg Prod.fst h.id
  rw [Site.pool, h.slots, List.filter_singleton, sameKind, decide_eq_true rfl]
  rfl

/-- What was done for someone who waits: there was no error, the worker has nothing left to do, and
the backend is the same but for its streams.
-/
structure Done (s : Site Memory) (kind : TreeKind) (root : String)
    (out : Except ReconcileError Unit × Site Memory) : Prop where
  result : out.1 = .ok ()
  settled : out.2.Settled kind root
  still : s.backend.Still out.2.backend

theorem done_settle (h : s.Attended kind root) : s.Done kind root (s.viewSettle kind) := by
  obtain ⟨slot, sole, idle⟩ := h
  obtain ⟨result, settled, still⟩ := sole.command idle .settle
  rw [← sole.pool] at result settled still
  refine ⟨?_, settled, still⟩
  rw [viewSettle, Site.settle]
  dsimp only
  rw [result]
  rfl

theorem done_reset (h : s.Attended kind root) : s.Done kind root (s.viewReset kind [root]) := by
  obtain ⟨slot, sole, idle⟩ := h
  obtain ⟨result, settled, still⟩ := sole.command idle .reset
  have slots : ([root].filterMap fun root => (s.slot? kind root).filter Slot.alive) = [slot] := by
    simp [sole.slot?, Option.filter, sole.inOrder.alive]
  rw [← slots] at result settled still
  refine ⟨?_, settled, still⟩
  rw [viewReset, Site.reset]
  dsimp only
  rw [result]
  rfl

-----------------------------------------------------------------------------------------
-- What a settled site shows
-----------------------------------------------------------------------------------------

/-- The only tree of a settled site shows just what its backend shows, without flags. -/
theorem Settled.shows (h : s.Settled kind root)
    : s.roots kind = [root] ∧ (s.viewTree kind root).WellFormed ∧ (s.viewTree kind root).Unflagged
      ∧ ∀ k, (s.viewTree kind root).live? k = s.backend.projected root kind k := by
  obtain ⟨slot, sole, done⟩ := h
  obtain ⟨sameKind, sameRoot⟩ : slot.worker.kind = kind ∧ slot.worker.root = root :=
    Prod.mk.inj sole.id
  have started : slot.started = true := by
    cases started : slot.started with
    | true => rfl
    | false => simp [Slot.workLeft, started] at done
  obtain ⟨id, t, queue, -, snapshot, formed, -, unflagged, -, length, leads⟩ :=
    (sole.inOrder.hydrated started).queue
  have empty : queue = [] := by
    rw [Slot.workLeft] at done
    exact List.eq_nil_of_length_eq_zero (by omega)
  subst empty
  have tree : s.viewTree kind root = t := by
    rw [viewTree, snapshot?, sole.slot?, Option.bind_some, snapshot, Option.getD_some]
  rw [tree]
  refine ⟨?_, formed, unflagged, fun k => ?_⟩
  · rw [roots, sole.pool, List.filter_singleton, snapshot]
    simp [sameRoot]
  · rw [sameKind, sameRoot] at leads
    exact leads k

end Site

-----------------------------------------------------------------------------------------
-- Both sides
-----------------------------------------------------------------------------------------

namespace Installation

open Site

variable {i i' i'' : Installation} {kind : TreeKind} {root : String} {side : Side}

/-- On each side the worker of a root and kind is the only one, and has nothing to do. -/
def Settled (i : Installation) (kind : TreeKind) (root : String) : Prop :=
  ∀ side, (i.site side).Settled kind root

/-- On each side the worker of a root and kind is the only one, and was told nothing. -/
def Attended (i : Installation) (kind : TreeKind) (root : String) : Prop :=
  ∀ side, (i.site side).Attended kind root

theorem Settled.attended (h : i.Settled kind root) : i.Attended kind root :=
  fun side => (h side).attended

/-- Sink and backends are the same but for streams. -/
structure Still (i i' : Installation) : Prop where
  sink : i'.sink = i.sink
  backend : ∀ side, (i.site side).backend.Still (i'.site side).backend

theorem Still.refl (i : Installation) : i.Still i :=
  ⟨rfl, fun _ => .refl _⟩

theorem Still.trans (h : i.Still i') (h' : i'.Still i'') : i.Still i'' :=
  ⟨h'.sink.trans h.sink, fun side => (h.backend side).trans (h'.backend side)⟩

theorem Still.store (h : i.Still i') : i.store.backend.Still i'.store.backend :=
  h.backend .desired

theorem Still.fabric (h : i.Still i') : i.fabric.backend.Still i'.fabric.backend :=
  h.backend .observed

theorem sink_setSite (i : Installation) (side : Side) (s : Site Memory)
    : (i.setSite side s).sink = i.sink := by
  cases side <;> rfl

theorem still_setSite {s : Site Memory} (h : (i.site side).backend.Still s.backend)
    : i.Still (i.setSite side s) := by
  refine ⟨sink_setSite i side s, fun other => ?_⟩
  rw [site_setSite]
  split
  · rename_i same
    exact same ▸ h
  · exact .refl _

/-- Whoever waits for one side leaves both sides with nothing to do. -/
theorem settled_waiting {f : Site Memory → Except ReconcileError Unit × Site Memory}
    (h : i.Attended kind root)
    (hf : ∀ s : Site Memory, s.Attended kind root → s.Done kind root (f s)) (side : Side)
    : (i.waiting side true f).1 = .ok () ∧ (i.waiting side true f).2.Settled kind root
      ∧ i.Still (i.waiting side true f).2 := by
  obtain ⟨slot, sole, idle⟩ := h side
  obtain ⟨woke, same, -⟩ := sole.wakeAll
  have done := hf _ ⟨slot, woke, idle⟩
  let i₁ := i.setSite side (f (i.site side).wakeAll).2
  obtain ⟨other, there, -⟩ := h side.other
  obtain ⟨rested, still⟩ := there.restAll
  have elsewhere : side.other ≠ side := by cases side <;> decide
  have untouched : i₁.site side.other = i.site side.other := by
    rw [site_setSite, if_neg elsewhere]
  have result : (i.waiting side true f).2
      = i₁.setSite side.other (i.site side.other).wakeAll.rest := by
    rw [waiting]
    simp only [if_true, restSide]
    rw [untouched]
  refine ⟨done.result, ?_, ?_⟩
  · intro this
    rw [result, site_setSite]
    split
    · rename_i same
      exact rested
    · rename_i differs
      have here : this = side := by cases this <;> cases side <;> simp_all [Side.other]
      rw [here, site_setSite, if_pos rfl]
      exact done.settled
  · rw [result]
    refine (still_setSite ?_).trans (still_setSite ?_)
    · rw [← same]
      exact done.still
    · rw [untouched]
      exact still

theorem settled_settle (h : i.Attended kind root) (side : Side)
    : (settle kind side i).1 = .ok () ∧ (settle kind side i).2.Settled kind root
      ∧ i.Still (settle kind side i).2 := by
  obtain ⟨slot, sole, -⟩ := h side
  have waits : (!((i.site side).pool kind).isEmpty) = true := by
    rw [sole.pool]
    rfl
  rw [settle, waits]
  exact settled_waiting h (fun s => done_settle) side

theorem settled_reset (h : i.Attended kind root) (side : Side)
    : (reset kind side root i).1 = .ok () ∧ (reset kind side root i).2.Settled kind root
      ∧ i.Still (reset kind side root i).2 := by
  obtain ⟨slot, sole, -⟩ := h side
  have waits : ((i.site side).slot? kind root).isSome = true := by
    rw [sole.slot?]
    rfl
  rw [reset, waits]
  exact settled_waiting h (fun s => done_reset) side

/-- Waiting for both views leaves nothing to do. -/
theorem settled_settles (h : i.Attended kind root)
    : (Reconciler.settle (surroundings kind) i).1 = .ok ()
      ∧ (Reconciler.settle (surroundings kind) i).2.Settled kind root
      ∧ i.Still (Reconciler.settle (surroundings kind) i).2 := by
  obtain ⟨result, settled, still⟩ := settled_settle h .desired
  obtain ⟨result', settled', still'⟩ := settled_settle settled.attended .observed
  have one : (surroundings kind).settle .desired i = (.ok (), (settle kind .desired i).2) :=
    Prod.ext result rfl
  rw [Reconciler.settle, one]
  exact ⟨result', settled', still.trans still'⟩

-----------------------------------------------------------------------------------------
-- From the start
-----------------------------------------------------------------------------------------

theorem attended_serve {s : Site Memory} (slots : s.slots = [])
    (streams : s.backend.channels.members = []) (errors : s.backend.errors = ∅) (kind : TreeKind)
    (root : String)
    : (s.wakeAll.serve kind [root]).Attended kind root
      ∧ (s.wakeAll.serve kind [root]).backend = s.backend := by
  let slot : Slot := { worker := { root, kind } }
  have asleep : s.wakeAll = s := by
    rw [Site.wakeAll, slots]
    rfl
  have served : s.serve kind [root] = Site.wake { s with slots := [slot] } kind root := by
    simp [Site.serve, Site.served, Site.pool, Site.slot?, Site.start, slots, slot]
  have sole : Site.Sole { s with slots := [slot] } kind root slot := by
    refine ⟨rfl, rfl, ⟨rfl, rfl, fun id _ => ?_, errors, fun _ => rfl, fun on => by cases on⟩, ?_⟩
    · have absent : s.backend.channels.get? id = none := by
        rw [Channels.get?, streams]
        rfl
      exact absent
    · intro reply listed
      cases listed
  obtain ⟨left, same⟩ := sole.wake kind root
  rw [asleep, served]
  exact ⟨⟨slot, left, rfl⟩, same⟩

/-- Views that serve one root and have settled are hydrated, whatever store and fabric hold. -/
theorem settled_of_served (slots : ∀ side, (i.site side).slots = [])
    (streams : ∀ side, (i.site side).backend.channels.members = [])
    (errors : ∀ side, (i.site side).backend.errors = ∅) (r : Reconciler) (kind : TreeKind)
    (root : String)
    : let served := (r.serve (surroundings kind) [root] i).2
      let hydrated := Reconciler.settle (surroundings kind) served
      hydrated.1 = .ok () ∧ hydrated.2.Settled kind root ∧ i.Still hydrated.2 := by
  have idle (i : Installation) (side : Side) (slots : (i.site side).slots = [])
      : (serve kind side [root] i)
        = (.ok (), i.setSite side ((i.site side).wakeAll.serve kind [root])) := by
    rw [serve, waiting]
    simp [Site.served, Site.pool, slots]
  have served : (r.serve (surroundings kind) [root] i).2
      = (i.setSite .desired (i.store.wakeAll.serve kind [root])).setSite .observed
          (i.fabric.wakeAll.serve kind [root]) := by
    have first := idle i .desired (slots .desired)
    have second := idle (i.setSite .desired ((i.site .desired).wakeAll.serve kind [root])) .observed
      (slots .observed)
    rw [Reconciler.serve]
    simp only [surroundings]
    rw [first]
    dsimp only
    rw [second]
    rfl
  have store := attended_serve (slots .desired) (streams .desired) (errors .desired) kind root
  have fabric := attended_serve (slots .observed) (streams .observed) (errors .observed) kind root
  have attended : (r.serve (surroundings kind) [root] i).2.Attended kind root := by
    rw [served]
    intro side
    cases side with
    | desired => exact store.1
    | observed => exact fabric.1
  have still : i.Still (r.serve (surroundings kind) [root] i).2 := by
    rw [served]
    refine ⟨rfl, fun side => ?_⟩
    cases side with
    | desired => exact store.2 ▸ .refl _
    | observed => exact fabric.2 ▸ .refl _
  obtain ⟨result, settled, later⟩ := settled_settles attended
  exact ⟨result, settled, still.trans later⟩

end Installation

end Concord
