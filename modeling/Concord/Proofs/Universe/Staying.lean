import Concord.Proofs.Universe.Slots

/-! Workers go on whatever their backend answers: subscriptions and loads may fail, break down or
succeed at any time. None of this changes which roots are served, and a root that has a tree keeps
one. Main statement: so it is for each thing that is done to a site but serving.
-/

namespace Concord

variable {β : Type}

-----------------------------------------------------------------------------------------
-- One worker
-----------------------------------------------------------------------------------------

/-- A worker stays with its root and kind, and keeps a tree if it has one. -/
structure Worker.Stays (w w' : Worker) : Prop where
  root : w'.root = w.root
  kind : w'.kind = w.kind
  snapshot : w.snapshot.isSome → w'.snapshot.isSome

namespace Worker

variable {w w' w'' : Worker}

theorem Stays.refl (w : Worker) : w.Stays w :=
  ⟨rfl, rfl, fun shows => shows⟩

theorem Stays.trans (h : w.Stays w') (h' : w'.Stays w'') : w.Stays w'' :=
  ⟨h'.root.trans h.root, h'.kind.trans h.kind, fun shows => h'.snapshot (h.snapshot shows)⟩

theorem stays_apply (w : Worker) (e : TreeEvent) : w.Stays (w.apply e) := by
  rw [apply]
  split
  · exact ⟨rfl, rfl, fun _ => rfl⟩
  · exact .refl w

variable [Backend β] {b : β}

/-- A hydration that succeeds leaves a tree. -/
theorem stays_hydrate {b' : β} (answer : w.hydrate b = (.fresh w', b')) : w.Stays w' := by
  rw [hydrate] at answer
  split at answer
  · cases answer
  · split at answer
    · cases answer
      exact ⟨rfl, rfl, fun _ => rfl⟩
    · cases answer
    · cases answer

/-- So does an attempt that does, and one that fails leaves what there was. -/
theorem stays_tryHydrate {attempt : UInt32} {now : Nat} {b' : β}
    (answer : w.tryHydrate attempt now b = (some w', b'))
    : w.Stays w' := by
  rw [tryHydrate] at answer
  split at answer
  · rename_i hydrated
    cases answer
    exact stays_hydrate hydrated
  · cases answer
    exact ⟨rfl, rfl, fun shows => shows⟩
  · cases answer

/-- Taking changes keeps the tree, by induction on their number. -/
theorem stays_drain (w : Worker) (count : Nat) (b : β) : w.Stays (w.drain count b).1 := by
  induction count generalizing w b with
  | zero => exact .refl w
  | succ count ih =>
      rw [drain]
      split
      · exact .refl w
      · split
        · exact (w.stays_apply _).trans (ih _ _)
        · exact .refl w

end Worker

namespace Slot

variable [Backend β] {s s' : Slot} {b b' : β}

theorem stays_afterAttempt {attempt : UInt32} {now : Nat} (started : Slot)
    (same : started.worker = s.worker)
    : s.worker.Stays (started.afterAttempt (s.worker.tryHydrate attempt now b).1).worker := by
  rcases tried : s.worker.tryHydrate attempt now b with ⟨result, b'⟩
  cases result with
  | some worker => exact Worker.stays_tryHydrate tried
  | none => exact same ▸ .refl _

/-- Carrying a command out keeps the tree, also where a reload fails or the worker breaks down. -/
theorem stays_obey (s : Slot) (ticket : Nat) (command : WorkerCommand) (b : β)
    : s.worker.Stays (s.obey ticket command b).1.worker := by
  cases command with
  | settle => exact s.worker.stays_drain _ b
  | reset =>
      rw [obey]
      split
      · rename_i hydrated
        exact Worker.stays_hydrate hydrated
      · exact .refl _
      · exact .refl _

/-- Whatever a worker does next, it stays, by cases on what it finds to do. -/
theorem stays_turn {now : Nat} (taken : s.turn now b = some (s', b'))
    : s.worker.Stays s'.worker := by
  rw [turn] at taken
  split at taken
  · cases taken
  · split at taken
    · cases taken
      exact stays_afterAttempt _ rfl
    · split at taken
      · cases taken
        exact .refl _
      · split at taken
        · rename_i ticket command inbox waiting
          have obeyed := stays_obey { s with inbox } ticket command b
          rw [Option.some.inj taken] at obeyed
          exact obeyed
        · split at taken
          · cases taken
            exact stays_afterAttempt _ rfl
          · split at taken
            · cases taken
            · split at taken
              · cases taken
                exact s.worker.stays_apply _
              · cases taken
                exact ⟨rfl, rfl, fun shows => shows⟩
              · cases taken

/-- Any number of turns, by induction on the number. -/
theorem stays_run (s : Slot) (now fuel : Nat) (b : β)
    : s.worker.Stays (s.run now fuel b).1.worker := by
  induction fuel generalizing s b with
  | zero => exact .refl _
  | succ fuel ih =>
      rw [run]
      cases taken : s.turn now b with
      | none => exact .refl _
      | some result => exact (stays_turn taken).trans (ih _ _)

theorem id_turn {now : Nat} (taken : s.turn now b = some (s', b')) : s'.id = s.id := by
  have stays := stays_turn taken
  rw [id, id, stays.root, stays.kind]

theorem id_run (s : Slot) (now fuel : Nat) (b : β) : (s.run now fuel b).1.id = s.id := by
  have stays := s.stays_run now fuel b
  rw [id, id, stays.root, stays.kind]

end Slot

-----------------------------------------------------------------------------------------
-- All workers
-----------------------------------------------------------------------------------------

namespace Site

/-- A site goes on serving the same trees, and what has a tree keeps one. -/
structure Stays (s s' : Site β) : Prop where
  ids : s'.ids = s.ids
  snapshot : ∀ kind root, (s.snapshot? kind root).isSome → (s'.snapshot? kind root).isSome

variable {s s' s'' : Site β} {slot slot' : Slot} {kind : TreeKind} {root : String}

theorem Stays.trans (h : s.Stays s') (h' : s'.Stays s'') : s.Stays s'' :=
  ⟨h'.ids.trans h.ids, fun kind root shows => h'.snapshot kind root (h.snapshot kind root shows)⟩

/-- What leaves the slots alone. -/
theorem stays_of_slots (h : s'.slots = s.slots) : s.Stays s' := by
  refine ⟨by rw [Site.ids, h, Site.ids], fun kind root shows => ?_⟩
  rwa [snapshot?, slot?, h]

theorem Stays.refl (s : Site β) : s.Stays s :=
  stays_of_slots rfl

theorem stays_setSlot (found : s.slot? kind root = some slot)
    (stays : slot.worker.Stays slot'.worker)
    : s.Stays (s.setSlot slot') := by
  have same : slot'.id = slot.id := by rw [Slot.id, Slot.id, stays.root, stays.kind]
  exact ⟨ids_setSlot s slot', fun _ _ shows => snapshot_setSlot found same stays.snapshot shows⟩

theorem slots_wake (s : Site β) (kind : TreeKind) (root : String)
    : (s.wake kind root).slots = s.slots := by
  rw [wake]
  split <;> rfl

theorem stays_wake (s : Site β) (kind : TreeKind) (root : String) : s.Stays (s.wake kind root) :=
  stays_of_slots (slots_wake s kind root)

theorem stays_wakeAll (s : Site β) : s.Stays s.wakeAll :=
  List.foldlRecOn s.slots _ (.refl s) fun _ stays _ _ => stays.trans (stays_wake _ _ _)

/-- Telling a worker something writes into its slot only. -/
theorem stays_tell (found : s.slot? slot.worker.kind slot.worker.root = some slot')
    (same : slot'.worker = slot.worker) (command : WorkerCommand)
    : s.Stays (s.tell slot command) := by
  rw [tell]
  split
  · have told : s.Stays (s.setSlot
        { slot with inbox := slot.inbox ++ [(s.nextTicket, command)] }) :=
      stays_setSlot found (same ▸ .refl _)
    exact told.trans (stays_of_slots (slots_wake _ _ _))
  · exact stays_of_slots rfl

/-- After that, each worker is found as it was. -/
theorem slot?_tell (found : s.slot? kind root = some slot') (command : WorkerCommand)
    (same : slot.id = (kind, root) → slot.worker = slot'.worker)
    : ∃ told, (s.tell slot command).slot? kind root = some told
        ∧ told.worker = slot'.worker := by
  rw [tell]
  split
  · rw [slot?, slots_wake]
    obtain ⟨member, hid⟩ := slot?_spec found
    let informed : Slot := { slot with inbox := slot.inbox ++ [(s.nextTicket, command)] }
    by_cases here : informed.id = (kind, root)
    · have told := slot?_setSlot_self (List.mem_map.mpr ⟨slot', member, hid⟩) here
      exact ⟨informed, told, same here⟩
    · exact ⟨slot', (slot?_setSlot_ne here).trans found, rfl⟩
  · exact ⟨slot', found, rfl⟩

/-- Telling several workers something, by induction on them. -/
theorem stays_tellAll (command : WorkerCommand) {slots : List Slot}
    (found : ∀ slot ∈ slots, ∃ slot', s.slot? slot.worker.kind slot.worker.root = some slot'
      ∧ slot'.worker = slot.worker)
    : s.Stays (s.tellAll command slots).2 := by
  have told (tickets : List (String × Nat))
      : s.Stays (slots.foldl
          (fun told slot =>
            (told.1 ++ [(slot.worker.root, told.2.nextTicket)], told.2.tell slot command))
          (tickets, s)).2 := by
    induction slots generalizing s tickets with
    | nil => exact .refl s
    | cons slot rest ih =>
        obtain ⟨⟨slot', here, same⟩, others⟩ := List.forall_mem_cons.mp found
        refine (stays_tell here same command).trans (ih (fun other hm => ?_) _)
        obtain ⟨other', there, sameOther⟩ := others other hm
        -- A worker of the same kind and root is the one slot that is found under these.
        have alike (hid : slot.id = (other.worker.kind, other.worker.root))
            : slot.worker = other'.worker := by
          obtain ⟨hk, hr⟩ := Prod.mk.inj hid
          rw [← hk, ← hr, here] at there
          rw [← same, Option.some.inj there]
        obtain ⟨told, found, worker⟩ := slot?_tell there command alike
        exact ⟨told, found, worker.trans sameOther⟩
  exact told []

theorem slots_wakeDue (s : Site β) : s.wakeDue.slots = s.slots :=
  List.foldlRecOn (motive := fun woken : Site β => woken.slots = s.slots)
    (s.rested.filter s.isDue) _ rfl fun _ same _ _ => (slots_wake _ _ _).trans same

variable [Backend β]

theorem stays_runSlot (s : Site β) (id : TreeKind × String) : s.Stays (s.runSlot id) := by
  rw [runSlot]
  split
  · exact .refl s
  · rename_i slot found
    exact (stays_setSlot found (slot.stays_run _ _ _)).trans (stays_of_slots rfl)

theorem stays_rest (s : Site β) : s.Stays s.rest :=
  List.foldlRecOn s.woken _ (stays_of_slots rfl) fun _ stays _ _ => stays.trans (stays_runSlot _ _)

theorem stays_await (kind : TreeKind) (tickets : List (String × Nat)) (s : Site β)
    : s.Stays (s.await kind tickets).2 := by
  induction tickets generalizing s with
  | nil => exact .refl s
  | cons ticket others ih =>
      obtain ⟨root, number⟩ := ticket
      rw [await]
      cases s.replyOf? kind root number with
      | some reply =>
          cases reply with
          | ok _ => exact ih s
          | error e => exact .refl s
      | none =>
          have rested := stays_rest s
          dsimp only
          split
          · exact rested.trans (ih _)
          · exact rested

/-- Waiting until every worker has applied what is queued. -/
theorem stays_settle (distinct : s.ids.Nodup) (kind : TreeKind) : s.Stays (s.settle kind).2 := by
  rw [settle]
  refine (stays_tellAll .settle fun slot hm => ?_).trans (stays_await kind _ _)
  exact ⟨slot, slot?_of_mem distinct (List.mem_of_mem_filter hm), rfl⟩

/-- Having trees rebuilt, with or without success. -/
theorem stays_reset (s : Site β) (kind : TreeKind) (roots : List String)
    : s.Stays (s.reset kind roots).2 := by
  rw [reset]
  refine (stays_tellAll .reset fun slot hm => ?_).trans (stays_await kind _ _)
  obtain ⟨root, -, alive⟩ := List.mem_filterMap.mp hm
  obtain ⟨found, -⟩ := Option.filter_eq_some_iff.mp alive
  obtain ⟨hk, hr⟩ := Prod.mk.inj (slot?_spec found).2
  exact ⟨slot, by rw [hk, hr, found], rfl⟩

/-- Time passes from one retry to the next, by induction on the number of retries. -/
theorem stays_sleepUntil (target fuel : Nat) (s : Site β) : s.Stays (s.sleepUntil target fuel) := by
  induction fuel generalizing s with
  | zero => exact stays_of_slots rfl
  | succ fuel ih =>
      rw [sleepUntil]
      have waited (now : Nat) : s.Stays ({ s.rest with now } : Site β).wakeDue :=
        (stays_rest s).trans (stays_of_slots (slots_wakeDue _))
      split
      · split
        · exact (waited _).trans (ih _)
        · exact waited target
      · exact (stays_rest s).trans (stays_of_slots rfl)

theorem stays_sleep (s : Site β) (millis : Nat) : s.Stays (s.sleep millis) := by
  rw [sleep]
  split
  · exact .refl s
  · exact stays_sleepUntil _ _ s

end Site

end Concord
