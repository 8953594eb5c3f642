import Concord.Proofs.Universe.Staying
import Concord.Proofs.Universe.Turns

/-! A backend in memory with all workers that observe it. Whichever of them takes a turn, every
worker that was not stopped keeps following the backend: its tree and what is queued for it lead
to what the backend shows.
-/

namespace Concord

namespace Site

variable {s s' : Site Memory} {kind : TreeKind} {root : String} {slot other : Slot}
  {id : TreeKind × String}

-----------------------------------------------------------------------------------------
-- What workers do on their own
-----------------------------------------------------------------------------------------

/-- What happens while workers go on: one is told something, one takes a turn, or it is noted who
is to run and what time it is.
-/
inductive Step : Site Memory → Site Memory → Prop
  | note {s s' : Site Memory} (backend : s'.backend = s.backend) (slots : s'.slots = s.slots)
    : Step s s'
  | tell {s : Site Memory} {kind : TreeKind} {root : String} {slot : Slot}
    (found : s.slot? kind root = some slot) (inbox : List (Nat × WorkerCommand))
    : Step s (s.setSlot { slot with inbox })
  | turn {s : Site Memory} {kind : TreeKind} {root : String} {slot slot' : Slot}
    {backend : Memory} (found : s.slot? kind root = some slot)
    (taken : slot.turn s.now s.backend = some (slot', backend))
    : Step s { s.setSlot slot' with backend }

/-- Any number of steps. -/
abbrev Steps : Site Memory → Site Memory → Prop :=
  Relation.ReflTransGen Step

/-- The invariant: each worker that was not stopped follows the backend on a stream of its own. -/
structure Consistent (s : Site Memory) : Prop where
  numbered : s.backend.channels.Numbered
  distinct : s.ids.Nodup
  follows : ∀ slot ∈ s.slots, slot.alive = true → slot.worker.Follows s.backend
  listening : ∀ slot ∈ s.slots, slot.alive = true →
    slot.worker.snapshot.isSome → slot.worker.stream.isSome
  apart : ∀ slot ∈ s.slots, ∀ other ∈ s.slots, slot.alive = true → other.alive = true →
    ∀ stream, slot.worker.stream = some stream → other.worker.stream = some stream →
      slot.id = other.id
  going : ∀ slot ∈ s.slots, slot.stopping = false → slot.alive = true

/-- A turn of one worker leaves the streams of the others alone. -/
theorem Consistent.turn {slot' : Slot} {backend : Memory} (h : s.Consistent)
    (found : s.slot? kind root = some slot)
    (taken : slot.turn s.now s.backend = some (slot', backend))
    : Consistent { s.setSlot slot' with backend } := by
  obtain ⟨alive, turns⟩ := Slot.turn_cases taken
  obtain ⟨member, -⟩ := slot?_spec found
  have same := Slot.id_turn taken
  have follows := h.follows slot member alive
  have spares := turns.spares h.numbered
  -- Another worker's stream is open, and it is not the one that the turn was about.
  have elsewhere {other : Slot} (hm : other ∈ s.slots) (differs : other.id ≠ slot'.id)
      (going : other.alive = true) {stream : Nat} (hs : other.worker.stream = some stream)
      : slot.worker.stream ≠ some stream ∧ ∃ ch, s.backend.channels.get? stream = some ch := by
    refine ⟨fun own => differs ?_, ?_⟩
    · rw [same]
      exact h.apart other hm slot member going alive stream hs own
    · obtain ⟨t, queue, -, -, -, hl, -⟩ := h.follows other hm going stream hs
      exact ⟨_, hl⟩
  have unlike {other : Slot} (hm : other ∈ s.slots) (differs : other.id ≠ slot'.id)
      (going : other.alive = true) (stream : Nat) (hs : slot'.worker.stream = some stream)
      (hs' : other.worker.stream = some stream)
      : False := by
    obtain ⟨own, ch, hg⟩ := elsewhere hm differs going hs'
    rcases spares.fresh stream hs with old | none
    · exact own old
    · rw [hg] at none
      cases none
  refine ⟨spares.numbered, ?_, ?_, ?_, ?_, ?_⟩
  · have ids : Site.ids { s.setSlot slot' with backend } = s.ids := ids_setSlot s slot'
    rw [ids]
    exact h.distinct
  · intro other hm going
    rcases mem_setSlot hm with rfl | ⟨hm, differs⟩
    · have start : Observation.Consistent ⟨s.backend, slot.worker, none⟩ :=
        ⟨h.numbered, follows, fun _ ho => by cases ho⟩
      exact ((turns.run follows going).consistent start).follows
    · refine (h.follows other hm going).frame spares.objects fun stream hs => ?_
      obtain ⟨own, ch, hg⟩ := elsewhere hm differs going hs
      exact (spares.others stream ch own hg).trans hg.symm
  · intro other hm going
    rcases mem_setSlot hm with rfl | ⟨hm, -⟩
    · exact turns.listening follows (h.listening slot member alive)
    · exact h.listening other hm going
  · intro a ha b hb goingA goingB stream sa sb
    rcases mem_setSlot ha with rfl | ⟨oldA, differsA⟩ <;>
      rcases mem_setSlot hb with rfl | ⟨oldB, differsB⟩
    · rfl
    · exact (unlike oldB differsB goingB stream sa sb).elim
    · exact (unlike oldA differsA goingA stream sb sa).elim
    · exact h.apart a oldA b oldB goingA goingB stream sa sb
  · intro other hm stays
    rcases mem_setSlot hm with rfl | ⟨hm, -⟩
    · exact turns.going alive stays
    · exact h.going other hm stays

/-- What is written into the slot of a worker, but for the worker, keeps the invariant. -/
theorem Consistent.setSlot {slot' : Slot} (h : s.Consistent)
    (found : s.slot? kind root = some slot) (worker : slot'.worker = slot.worker)
    (alive : slot'.alive = slot.alive) (stays : slot'.stopping = false → slot.stopping = false)
    : (s.setSlot slot').Consistent := by
  obtain ⟨member, -⟩ := slot?_spec found
  have same : slot'.id = slot.id := by rw [Slot.id, Slot.id, worker]
  -- Every slot has a like of the same worker in the old site.
  have like {other : Slot} (hm : other ∈ (s.setSlot slot').slots)
      : ∃ old ∈ s.slots, other.worker = old.worker ∧ other.alive = old.alive
          ∧ (other.stopping = false → old.stopping = false) := by
    rcases mem_setSlot hm with rfl | ⟨hm, -⟩
    · exact ⟨slot, member, worker, alive, stays⟩
    · exact ⟨other, hm, rfl, rfl, id⟩
  refine ⟨h.numbered, ?_, ?_, ?_, ?_, ?_⟩
  · rw [ids_setSlot]
    exact h.distinct
  · intro other hm going
    obtain ⟨old, hm, hw, ha, -⟩ := like hm
    rw [hw]
    exact h.follows old hm (ha ▸ going)
  · intro other hm going
    obtain ⟨old, hm, hw, ha, -⟩ := like hm
    rw [hw]
    exact h.listening old hm (ha ▸ going)
  · intro a ha b hb goingA goingB stream sa sb
    obtain ⟨oldA, memberA, workerA, aliveA, -⟩ := like ha
    obtain ⟨oldB, memberB, workerB, aliveB, -⟩ := like hb
    rw [Slot.id, Slot.id, workerA, workerB]
    exact h.apart oldA memberA oldB memberB (aliveA ▸ goingA) (aliveB ▸ goingB) stream
      (workerA ▸ sa) (workerB ▸ sb)
  · intro other hm stays
    obtain ⟨old, hm, -, ha, hs⟩ := like hm
    rw [ha]
    exact h.going old hm (hs stays)

/-- A step keeps the invariant, by cases on what happens. -/
theorem Step.consistent (h : s.Consistent) (step : Step s s') : s'.Consistent := by
  cases step with
  | note backend slots =>
      obtain ⟨numbered, distinct, follows, listening, apart, going⟩ := h
      rw [ids] at distinct
      rw [← backend] at numbered follows
      rw [← slots] at distinct follows listening apart going
      exact ⟨numbered, distinct, follows, listening, apart, going⟩
  | tell found inbox => exact h.setSlot found rfl rfl id
  | turn found taken => exact h.turn found taken

theorem Steps.consistent (h : s.Consistent) (steps : Steps s s') : s'.Consistent := by
  induction steps with
  | refl => exact h
  | tail _ step ih => exact step.consistent ih

theorem Steps.ids (steps : Steps s s') : s'.ids = s.ids := by
  induction steps with
  | refl => rfl
  | tail _ step ih =>
      rw [← ih]
      cases step with
      | note backend slots => rw [Site.ids, slots, Site.ids]
      | tell found inbox => exact ids_setSlot _ _
      | turn found taken => exact ids_setSlot _ _

/-- Workers change no objects. -/
theorem Steps.objects (h : s.Consistent) (steps : Steps s s')
    : s'.backend.objects = s.backend.objects := by
  induction steps with
  | refl => rfl
  | tail before step ih =>
      rw [← ih]
      cases step with
      | note backend slots => rw [backend]
      | tell found inbox => rfl
      | turn found taken =>
          exact ((Slot.turn_cases taken).2.spares (consistent h before).numbered).objects

/-- A root that has a tree keeps one. -/
theorem Steps.snapshot (h : (s.snapshot? kind root).isSome) (steps : Steps s s')
    : (s'.snapshot? kind root).isSome := by
  induction steps with
  | refl => exact h
  | tail _ step ih =>
      cases step with
      | note backend slots => rwa [snapshot?, slot?, slots]
      | tell found inbox => exact snapshot_setSlot found rfl id ih
      | turn found taken =>
          exact snapshot_setSlot found (Slot.id_turn taken) (Slot.stays_turn taken).snapshot ih

/-- Steps stop no worker: if all that are to stop have one kind and root, this stays so. -/
theorem Steps.leaving (h : ∀ slot ∈ s.slots, slot.stopping = true → slot.id = id)
    (steps : Steps s s')
    : ∀ slot ∈ s'.slots, slot.stopping = true → slot.id = id := by
  induction steps with
  | refl => exact h
  | tail _ step ih =>
      intro other hm stopping
      cases step with
      | note backend slots => exact ih other (slots ▸ hm) stopping
      | tell found inbox =>
          rcases mem_setSlot hm with rfl | ⟨hm, -⟩
          · have before := ih _ (slot?_spec found).1 stopping
            exact before
          · exact ih other hm stopping
      | turn found taken =>
          rcases mem_setSlot hm with rfl | ⟨hm, -⟩
          · obtain ⟨-, -, sameStopping⟩ := (Slot.turn_cases taken).2.same
            rw [Slot.id_turn taken]
            exact ih _ (slot?_spec found).1 (sameStopping ▸ stopping)
          · exact ih other hm stopping

-----------------------------------------------------------------------------------------
-- Waiting
-----------------------------------------------------------------------------------------

theorem steps_wake (s : Site Memory) (kind : TreeKind) (root : String)
    : Steps s (s.wake kind root) := by
  rw [wake]
  split
  · exact .refl
  · exact .single (.note rfl rfl)

theorem steps_wakeAll (s : Site Memory) : Steps s s.wakeAll :=
  List.foldlRecOn s.slots _ .refl fun _ steps _ _ => steps.trans (steps_wake _ _ _)

/-- Turns until there is nothing to do are steps, by induction on their number. -/
theorem steps_run (found : s.slot? kind root = some slot) (fuel : Nat)
    : Steps s { s.setSlot (slot.run s.now fuel s.backend).1 with
        backend := (slot.run s.now fuel s.backend).2 } := by
  induction fuel generalizing s slot with
  | zero => exact .single (.tell found slot.inbox)
  | succ fuel ih =>
      rw [Slot.run]
      cases taken : slot.turn s.now s.backend with
      | none => exact .single (.tell found slot.inbox)
      | some result =>
          obtain ⟨slot', backend⟩ := result
          obtain ⟨member, id⟩ := slot?_spec found
          have same := Slot.id_turn taken
          have first : Steps s { s.setSlot slot' with backend } := .single (.turn found taken)
          have rest := ih (s := { s.setSlot slot' with backend })
            (slot?_setSlot_self (List.mem_map.mpr ⟨slot, member, id⟩) (same.trans id))
          have slots
              : ((s.setSlot slot').setSlot (slot'.run s.now fuel backend).1).slots
                = (s.setSlot (slot'.run s.now fuel backend).1).slots :=
            congrArg Site.slots (setSlot_setSlot (Slot.id_run slot' _ _ _).symm)
          refine (first.trans rest).tail (.note rfl slots.symm)

theorem steps_runSlot (s : Site Memory) (id : TreeKind × String) : Steps s (s.runSlot id) := by
  rw [runSlot]
  split
  · exact .refl
  · rename_i slot found
    exact (steps_run found _).tail (.note rfl rfl)

theorem steps_rest (s : Site Memory) : Steps s s.rest := by
  have begun : Steps s { s with woken := [] } := .single (.note rfl rfl)
  exact List.foldlRecOn s.woken _ begun fun _ steps _ _ => steps.trans (steps_runSlot _ _)

theorem steps_await (kind : TreeKind) (tickets : List (String × Nat)) (s : Site Memory)
    : Steps s (s.await kind tickets).2 := by
  induction tickets generalizing s with
  | nil => exact .refl
  | cons ticket others ih =>
      obtain ⟨root, number⟩ := ticket
      rw [await]
      cases s.replyOf? kind root number with
      | some reply =>
          cases reply with
          | ok _ => exact ih s
          | error e => exact .refl
      | none =>
          have rested := steps_rest s
          dsimp only
          split
          · exact rested.trans (ih _)
          · exact rested

theorem steps_tell (found : s.slot? kind root = some slot) (command : WorkerCommand)
    : Steps s (s.tell slot command) := by
  rw [tell]
  split
  · have told : Steps s (s.setSlot
        { slot with inbox := slot.inbox ++ [(s.nextTicket, command)] }) :=
      .single (.tell found _)
    refine Relation.ReflTransGen.trans ?_ (steps_wake _ _ _)
    exact told.tail (.note rfl rfl)
  · exact .single (.note rfl rfl)

/-- Rebuilding the tree of a root is a matter of its worker. -/
theorem steps_reset (s : Site Memory) (kind : TreeKind) (root : String)
    : Steps s (s.reset kind [root]).2 := by
  rw [reset]
  rw [List.filterMap_cons, List.filterMap_nil]
  cases found : (s.slot? kind root).filter Slot.alive with
  | none => exact .refl
  | some slot =>
      have here : s.slot? kind root = some slot := (Option.filter_eq_some_iff.mp found).1
      exact (steps_tell here .reset).trans (steps_await _ _ _)

end Site

end Concord
