import Mathlib.Logic.Relation
import Concord.Proofs.Universe.Deeds
import Concord.Proofs.Universe.ServedRoots

/-! The courses that things take at a site, whatever its backend is and whatever others do to it.
Waiting for workers and rebuilding trees come to such courses, every site that was reached in this
way numbers its commands apart, and each of its workers lives as workers do.
-/

namespace Concord.Site

variable {β : Type} {s s' s'' : Site β} {slot : Slot} {kind : TreeKind} {root : String}
  {roots : List String}

-----------------------------------------------------------------------------------------
-- Slots that are told something
-----------------------------------------------------------------------------------------

/-- A slot that is found is found under its own kind and root. -/
theorem slot?_own (found : s.slot? kind root = some slot)
    : s.slot? slot.worker.kind slot.worker.root = some slot := by
  obtain ⟨hk, hr⟩ := Prod.mk.inj (slot?_spec found).2
  rw [hk, hr, found]

/-- Putting a slot in its own place changes nothing. -/
theorem setSlot_same (distinct : s.ids.Nodup) (member : slot ∈ s.slots) : s.setSlot slot = s := by
  have same : (s.slots.map fun old =>
      if old.worker.kind = slot.worker.kind && old.worker.root = slot.worker.root then slot
      else old) = s.slots := by
    refine (List.map_congr_left fun old hm => ?_).trans (List.map_id' s.slots)
    split
    · rename_i alike
      exact (List.inj_on_of_nodup_map distinct hm member (isId_iff.mp alike)).symm
    · rfl
  rw [setSlot, same]

/-- Telling several workers something, one after the other. -/
theorem tellAll_cons (s : Site β) (command : WorkerCommand) (slot : Slot) (rest : List Slot)
    : s.tellAll command (slot :: rest)
      = ((slot.worker.root, s.nextTicket) :: ((s.tell slot command).tellAll command rest).1,
          ((s.tell slot command).tellAll command rest).2) := by
  have after (tickets : List (String × Nat)) (s : Site β)
      : rest.foldl
          (fun told slot =>
            (told.1 ++ [(slot.worker.root, told.2.nextTicket)], told.2.tell slot command))
          (tickets, s)
        = (tickets ++ (s.tellAll command rest).1, (s.tellAll command rest).2) := by
    rw [tellAll]
    induction rest generalizing tickets s with
    | nil => simp
    | cons slot rest ih =>
        rw [List.foldl_cons, List.foldl_cons]
        dsimp only
        rw [ih (tickets ++ _), ih ([] ++ _)]
        simp
  rw [tellAll, List.foldl_cons]
  exact after _ _

theorem mem_tell {other : Slot} {command : WorkerCommand}
    (h : other ∈ (s.tell slot command).slots)
    : other ∈ s.slots
      ∨ other = { slot with inbox := slot.inbox ++ [(s.nextTicket, command)] } := by
  rw [tell] at h
  split at h
  · rw [slots_wake] at h
    rcases mem_setSlot h with told | ⟨old, -⟩
    · exact .inr told
    · exact .inl old
  · exact .inl h

theorem nextTicket_wake (s : Site β) (kind : TreeKind) (root : String)
    : (s.wake kind root).nextTicket = s.nextTicket := by
  rw [wake]
  split <;> rfl

theorem now_wake (s : Site β) (kind : TreeKind) (root : String)
    : (s.wake kind root).now = s.now := by
  rw [wake]
  split <;> rfl

theorem nextTicket_tell (s : Site β) (slot : Slot) (command : WorkerCommand)
    : (s.tell slot command).nextTicket = s.nextTicket + 1 := by
  rw [tell]
  split
  · exact nextTicket_wake _ _ _
  · rfl

theorem now_tell (s : Site β) (slot : Slot) (command : WorkerCommand)
    : (s.tell slot command).now = s.now := by
  rw [tell]
  split
  · exact now_wake _ _ _
  · rfl

theorem slot?_tell_self (member : (kind, root) ∈ s.ids) (same : slot.id = (kind, root))
    (alive : slot.alive = true) (command : WorkerCommand)
    : (s.tell slot command).slot? kind root
      = some { slot with inbox := slot.inbox ++ [(s.nextTicket, command)] } := by
  have told : (s.setSlot { slot with inbox := slot.inbox ++ [(s.nextTicket, command)] }).slot?
      kind root = some { slot with inbox := slot.inbox ++ [(s.nextTicket, command)] } :=
    slot?_setSlot_self member same
  rw [tell, if_pos alive, slot?, slots_wake]
  exact told

/-- Telling a worker something leaves the others as they are. -/
theorem slot?_tell_ne (differ : slot.id ≠ (kind, root)) (command : WorkerCommand)
    : (s.tell slot command).slot? kind root = s.slot? kind root := by
  rw [tell]
  split
  · have same : (s.setSlot { slot with inbox := slot.inbox ++ [(s.nextTicket, command)] }).slot?
        kind root = s.slot? kind root :=
      slot?_setSlot_ne differ
    rw [slot?, slots_wake]
    exact same
  · rfl

theorem slot?_tellAll_ne {slots : List Slot} (differ : ∀ slot ∈ slots, slot.id ≠ (kind, root))
    (command : WorkerCommand)
    : (s.tellAll command slots).2.slot? kind root = s.slot? kind root := by
  induction slots generalizing s with
  | nil => rfl
  | cons slot rest ih =>
      obtain ⟨this, others⟩ := List.forall_mem_cons.mp differ
      rw [tellAll_cons]
      exact (ih others).trans (slot?_tell_ne this command)

theorem nextTicket_tellAll (s : Site β) (command : WorkerCommand) (slots : List Slot)
    : (s.tellAll command slots).2.nextTicket = s.nextTicket + slots.length := by
  induction slots generalizing s with
  | nil => rfl
  | cons slot rest ih =>
      rw [tellAll_cons, ih, nextTicket_tell, List.length_cons]
      omega

/-- Each worker that is told something has it under a new number, by induction on the slots. -/
theorem told_tellAll {slots : List Slot} (apart : (slots.map Slot.id).Nodup)
    (found : ∀ slot ∈ slots, s.slot? slot.worker.kind slot.worker.root = some slot)
    (alive : ∀ slot ∈ slots, slot.alive = true) (command : WorkerCommand) (member : slot ∈ slots)
    : ∃ ticket, (slot.worker.root, ticket) ∈ (s.tellAll command slots).1 ∧ s.nextTicket ≤ ticket
        ∧ ticket < (s.tellAll command slots).2.nextTicket
        ∧ (s.tellAll command slots).2.slot? slot.worker.kind slot.worker.root
          = some { slot with inbox := slot.inbox ++ [(ticket, command)] } := by
  induction slots generalizing s with
  | nil => cases member
  | cons first rest ih =>
      rw [List.map_cons, List.nodup_cons] at apart
      obtain ⟨here, others⟩ := List.forall_mem_cons.mp found
      obtain ⟨going, rest_alive⟩ := List.forall_mem_cons.mp alive
      have differ (other : Slot) (hm : other ∈ rest) : first.id ≠ other.id :=
        fun same => apart.1 (List.mem_map.mpr ⟨other, hm, same.symm⟩)
      rw [tellAll_cons]
      rcases List.mem_cons.mp member with rfl | later
      · refine ⟨s.nextTicket, List.mem_cons_self, Nat.le_refl _, ?_, ?_⟩
        · rw [nextTicket_tellAll, nextTicket_tell]
          omega
        · rw [slot?_tellAll_ne fun other hm same => differ other hm same.symm]
          exact slot?_tell_self (List.mem_map_of_mem (slot?_spec here).1) rfl going command
      · obtain ⟨ticket, told, new, bounded, informed⟩ :=
          ih apart.2
            (fun other hm => (slot?_tell_ne (differ other hm) command).trans (others other hm))
            rest_alive later
        rw [nextTicket_tell] at new
        exact ⟨ticket, List.mem_cons_of_mem _ told, Nat.le_of_succ_le new, bounded, informed⟩

/-- The slots of workers that are told to rebuild the trees of some roots. -/
def toReset (s : Site β) (kind : TreeKind) (roots : List String) : List Slot :=
  roots.filterMap fun root => (s.slot? kind root).filter Slot.alive

theorem mem_toReset
    : slot ∈ s.toReset kind roots
      ↔ ∃ root ∈ roots, s.slot? kind root = some slot ∧ slot.alive = true := by
  simp [toReset, List.mem_filterMap, Option.filter_eq_some_iff]

theorem found_of_mem_toReset (h : slot ∈ s.toReset kind roots)
    : s.slot? slot.worker.kind slot.worker.root = some slot := by
  obtain ⟨root, -, found, -⟩ := mem_toReset.mp h
  exact slot?_own found

theorem nodup_toReset (apart : roots.Nodup) : ((s.toReset kind roots).map Slot.id).Nodup := by
  induction roots with
  | nil => exact List.nodup_nil
  | cons root rest ih =>
      obtain ⟨absent, apart⟩ := List.nodup_cons.mp apart
      rw [toReset, List.filterMap_cons]
      split
      · exact ih apart
      · rename_i slot told
        rw [List.map_cons, List.nodup_cons]
        refine ⟨fun again => absent ?_, ih apart⟩
        obtain ⟨other, hm, same⟩ := List.mem_map.mp again
        obtain ⟨root', hr, found, -⟩ := mem_toReset.mp hm
        have here := (slot?_spec (Option.filter_eq_some_iff.mp told).1).2
        have there := (slot?_spec found).2
        rw [here, there, Prod.mk.injEq] at same
        exact same.2 ▸ hr

/-- Whoever is gone is not told. -/
theorem slot?_told (found : s.slot? kind root = some slot) (gone : slot.alive = false)
    : (s.tellAll .reset (s.toReset kind roots)).2.slot? kind root = some slot := by
  refine (slot?_tellAll_ne (fun other hm same => ?_) .reset).trans found
  obtain ⟨hk, hr⟩ := Prod.mk.inj same
  have there := found_of_mem_toReset hm
  rw [hk, hr, found] at there
  cases there
  obtain ⟨-, -, -, alive⟩ := mem_toReset.mp hm
  rw [gone] at alive
  cases alive

variable [Backend β]

-----------------------------------------------------------------------------------------
-- Moves
-----------------------------------------------------------------------------------------

/-- What workers do with what they are told: one is told something, one takes a turn, or it is noted
who is to run and what time it is.
-/
inductive Works : Site β → Site β → Prop
  | turn {s : Site β} {slot slot' : Slot} {backend : β}
    (found : s.slot? slot.worker.kind slot.worker.root = some slot)
    (taken : slot.turn s.now s.backend = some (slot', backend))
    : Works s { s.setSlot slot' with backend }
  | tell {s : Site β} {slot : Slot}
    (found : s.slot? slot.worker.kind slot.worker.root = some slot) (command : WorkerCommand)
    : Works s (s.tell slot command)
  | note {s s' : Site β} (backend : s'.backend = s.backend) (slots : s'.slots = s.slots)
    (tickets : s'.nextTicket = s.nextTicket) (passes : s.now ≤ s'.now)
    : Works s s'

/-- What happens at a site with the workers that it has. Others change the backend meanwhile, or
have a worker stop.
-/
inductive Moves : Site β → Site β → Prop
  | work {s s' : Site β} (works : s.Works s') : Moves s s'
  | leave {s : Site β} {slot : Slot}
    (found : s.slot? slot.worker.kind slot.worker.root = some slot)
    : Moves s (s.setSlot { slot with stopping := true })
  | change {s : Site β} (backend : β) : Moves s { s with backend }

/-- What workers do, one thing after the other. -/
abbrev Goes : Site β → Site β → Prop :=
  Relation.ReflTransGen Works

theorem Works.ids (works : s.Works s') : s'.ids = s.ids := by
  cases works with
  | turn found taken => exact (stays_setSlot found (Slot.stays_turn taken)).ids
  | tell found command => exact (stays_tell found rfl command).ids
  | note backend slots tickets passes => exact (stays_of_slots slots).ids

theorem Moves.ids (move : s.Moves s') : s'.ids = s.ids := by
  cases move with
  | work works => exact works.ids
  | leave found => exact ids_setSlot _ _
  | change backend => rfl

theorem Goes.distinct (goes : s.Goes s') (distinct : s.ids.Nodup) : s'.ids.Nodup := by
  induction goes with
  | refl => exact distinct
  | tail _ works ih => exact works.ids ▸ ih

-----------------------------------------------------------------------------------------
-- Waiting
-----------------------------------------------------------------------------------------

theorem goes_wake (s : Site β) (kind : TreeKind) (root : String) : s.Goes (s.wake kind root) := by
  rw [wake]
  split
  · exact .refl
  · exact .single (.note rfl rfl rfl (Nat.le_refl _))

/-- Turns until there is nothing to do, by induction on their number. -/
theorem goes_run (distinct : s.ids.Nodup)
    (found : s.slot? slot.worker.kind slot.worker.root = some slot) (fuel : Nat)
    : s.Goes { s.setSlot (slot.run s.now fuel s.backend).1 with
        backend := (slot.run s.now fuel s.backend).2 } := by
  induction fuel generalizing s slot with
  | zero =>
      rw [Slot.run, setSlot_same distinct (slot?_spec found).1]
  | succ fuel ih =>
      rw [Slot.run]
      cases taken : slot.turn s.now s.backend with
      | none =>
          dsimp only
          rw [setSlot_same distinct (slot?_spec found).1]
      | some result =>
          obtain ⟨slot', backend⟩ := result
          have same : slot'.id = slot.id := Slot.id_turn taken
          have here : (slot'.worker.kind, slot'.worker.root) ∈ s.ids :=
            List.mem_map.mpr ⟨slot, (slot?_spec found).1, same.symm⟩
          have first : s.Goes { s.setSlot slot' with backend } := .single (.turn found taken)
          have rest := ih (s := { s.setSlot slot' with backend }) (first.distinct distinct)
            (slot?_setSlot_self here rfl)
          have slots
              : ((s.setSlot slot').setSlot (slot'.run s.now fuel backend).1).slots
                = (s.setSlot (slot'.run s.now fuel backend).1).slots :=
            congrArg Site.slots (setSlot_setSlot (Slot.id_run slot' _ _ _).symm)
          exact (first.trans rest).tail (.note rfl slots.symm rfl (Nat.le_refl _))

theorem goes_runSlot (distinct : s.ids.Nodup) (id : TreeKind × String) : s.Goes (s.runSlot id) := by
  rw [runSlot]
  split
  · exact .refl
  · rename_i slot found
    exact (goes_run distinct (slot?_own found) _).tail (.note rfl rfl rfl (Nat.le_refl _))

theorem goes_rest (distinct : s.ids.Nodup) : s.Goes s.rest := by
  have begun : s.Goes { s with woken := [] } := .single (.note rfl rfl rfl (Nat.le_refl _))
  exact List.foldlRecOn s.woken _ begun fun _ goes id _ =>
    goes.trans (goes_runSlot (goes.distinct distinct) id)

theorem goes_await (distinct : s.ids.Nodup) (kind : TreeKind) (tickets : List (String × Nat))
    : s.Goes (s.await kind tickets).2 := by
  induction tickets generalizing s with
  | nil => exact .refl
  | cons ticket others ih =>
      obtain ⟨root, number⟩ := ticket
      rw [await]
      cases s.replyOf? kind root number with
      | some reply =>
          cases reply with
          | ok _ => exact ih distinct
          | error e => exact .refl
      | none =>
          have rested := goes_rest distinct
          dsimp only
          split
          · exact rested.trans (ih (rested.distinct distinct))
          · exact rested

-----------------------------------------------------------------------------------------
-- Telling
-----------------------------------------------------------------------------------------

theorem goes_tellAll (command : WorkerCommand) {slots : List Slot}
    (apart : (slots.map Slot.id).Nodup)
    (found : ∀ slot ∈ slots, s.slot? slot.worker.kind slot.worker.root = some slot)
    : s.Goes (s.tellAll command slots).2 := by
  induction slots generalizing s with
  | nil => exact .refl
  | cons slot rest ih =>
      rw [List.map_cons, List.nodup_cons] at apart
      obtain ⟨here, others⟩ := List.forall_mem_cons.mp found
      rw [tellAll_cons]
      refine (Relation.ReflTransGen.single (.tell here command)).trans (ih apart.2 ?_)
      intro other hm
      refine (slot?_tell_ne (fun same => apart.1 ?_) command).trans (others other hm)
      exact List.mem_map.mpr ⟨other, hm, same.symm⟩

theorem goes_tellReset (kind : TreeKind) (apart : roots.Nodup)
    : s.Goes (s.tellAll .reset (s.toReset kind roots)).2 :=
  goes_tellAll _ (nodup_toReset apart) fun _ => found_of_mem_toReset

theorem goes_reset (distinct : s.ids.Nodup) (kind : TreeKind) (apart : roots.Nodup)
    : s.Goes (s.reset kind roots).2 := by
  have told := goes_tellReset (s := s) kind apart
  exact told.trans (goes_await (told.distinct distinct) kind _)

-----------------------------------------------------------------------------------------
-- Sites that were reached
-----------------------------------------------------------------------------------------

/-- A site that came about from one without workers. Workers are started for roots that have none,
and their slots are taken away.
-/
inductive Reached : Site β → Prop
  | empty (backend : β) : Reached { backend }
  | move {s s' : Site β} (reached : Reached s) (move : s.Moves s') : Reached s'
  | start {s : Site β} {kind : TreeKind} {root : String} (reached : Reached s)
    (absent : s.slot? kind root = none)
    : Reached (s.start kind root)
  | drop {s : Site β} (reached : Reached s) (kind : TreeKind) (root : String)
    : Reached { s with
        slots := s.slots.filter fun slot => !(slot.worker.kind = kind && slot.worker.root = root) }

/-- The invariant: each tree has one worker, which lives as workers do, and commands are numbered
apart.
-/
structure Orderly (s : Site β) : Prop where
  distinct : s.ids.Nodup
  numbered : ∀ slot ∈ s.slots, slot.Numbered s.nextTicket
  lives : ∀ slot ∈ s.slots, ∃ deeds,
    Slot.Lives β slot.worker.kind slot.worker.root s.now deeds slot

/-- It is enough to look at the slots that were changed. -/
theorem Orderly.of_slots (h : s.Orderly) (distinct : s'.ids.Nodup)
    (tickets : s.nextTicket ≤ s'.nextTicket) (passes : s.now ≤ s'.now)
    (changed : ∀ slot ∈ s'.slots, slot ∈ s.slots ∨ (slot.Numbered s'.nextTicket
      ∧ ∃ deeds, Slot.Lives β slot.worker.kind slot.worker.root s'.now deeds slot))
    : s'.Orderly where
  distinct := distinct
  numbered := fun slot hm => by
    rcases changed slot hm with old | ⟨numbered, -⟩
    · exact (h.numbered slot old).le tickets
    · exact numbered
  lives := fun slot hm => by
    rcases changed slot hm with old | ⟨-, lives⟩
    · obtain ⟨deeds, life⟩ := h.lives slot old
      exact ⟨deeds, life.waits passes⟩
    · exact lives

/-- What workers do keeps the invariant. -/
theorem Orderly.works (h : s.Orderly) (works : s.Works s') : s'.Orderly := by
  have distinct : s'.ids.Nodup := works.ids ▸ h.distinct
  cases works with
  | @turn slot slot' backend found taken =>
      obtain ⟨member, -⟩ := slot?_spec found
      obtain ⟨-, deed, does⟩ := Slot.does_turn taken
      obtain ⟨deeds, life⟩ := h.lives slot member
      have stays := Slot.stays_turn taken
      refine h.of_slots distinct (Nat.le_refl _) (Nat.le_refl _) fun other hm => ?_
      rcases mem_setSlot hm with rfl | ⟨old, -⟩
      · refine .inr ⟨(h.numbered slot member).does does, (s.now, deed) :: deeds, ?_⟩
        rw [stays.kind, stays.root]
        exact life.turns taken does
      · exact .inl old
  | @tell slot found command =>
      obtain ⟨member, -⟩ := slot?_spec found
      obtain ⟨deeds, life⟩ := h.lives slot member
      obtain ⟨inbox, replies⟩ := (h.numbered slot member).le (Nat.le_succ _)
      have next := nextTicket_tell s slot command
      have time := now_tell s slot command
      refine h.of_slots distinct (next ▸ Nat.le_succ _) (Nat.le_of_eq time.symm) fun other hm => ?_
      rcases mem_tell hm with old | rfl
      · exact .inl old
      · rw [next, time]
        refine .inr ⟨⟨fun entry hm => ?_, replies⟩, deeds, life.told _ command⟩
        rcases List.mem_append.mp hm with old | new
        · exact inbox entry old
        · rw [List.mem_singleton.mp new]
          exact Nat.lt_succ_self _
  | note backend slots tickets passes =>
      exact h.of_slots distinct (Nat.le_of_eq tickets.symm) passes fun other hm => .inl (slots ▸ hm)

/-- So does what others do. -/
theorem Orderly.move (h : s.Orderly) (move : s.Moves s') : s'.Orderly := by
  have distinct : s'.ids.Nodup := move.ids ▸ h.distinct
  cases move with
  | work works => exact h.works works
  | @leave slot found =>
      obtain ⟨member, -⟩ := slot?_spec found
      obtain ⟨deeds, life⟩ := h.lives slot member
      refine h.of_slots distinct (Nat.le_refl _) (Nat.le_refl _) fun other hm => ?_
      rcases mem_setSlot hm with rfl | ⟨old, -⟩
      · obtain ⟨inbox, replies⟩ := h.numbered slot member
        exact .inr ⟨⟨inbox, replies⟩, deeds, life.leaves⟩
      · exact .inl old
  | change backend =>
      exact h.of_slots distinct (Nat.le_refl _) (Nat.le_refl _) fun other hm => .inl hm

theorem Reached.orderly (h : s.Reached) : s.Orderly := by
  induction h with
  | empty backend => exact ⟨List.nodup_nil, by simp, by simp⟩
  | move _ move ih => exact ih.move move
  | @start s kind root _ absent ih =>
      have perm := (start_perm s kind root).1
      have tickets : (s.start kind root).nextTicket = s.nextTicket := nextTicket_wake _ _ _
      have time : (s.start kind root).now = s.now := now_wake _ _ _
      refine ih.of_slots ?_ (Nat.le_of_eq tickets.symm) (Nat.le_of_eq time.symm) fun other hm => ?_
      · rw [ids, (perm.map Slot.id).nodup_iff, List.map_cons, List.nodup_cons]
        exact ⟨slot?_eq_none_iff.mp absent, ih.distinct⟩
      · rcases List.mem_cons.mp (perm.mem_iff.mp hm) with rfl | old
        · exact .inr ⟨⟨by simp [fresh], by simp [fresh]⟩, [], .begins _⟩
        · exact .inl old
  | drop _ kind root ih =>
      exact ih.of_slots (ih.distinct.sublist (List.filter_sublist.map _)) (Nat.le_refl _)
        (Nat.le_refl _) fun other hm => .inl (List.mem_of_mem_filter hm)

theorem Reached.goes (h : s.Reached) (goes : s.Goes s') : s'.Reached := by
  induction goes with
  | refl => exact h
  | tail _ works ih => exact ih.move (.work works)

theorem Reached.stop (h : s.Reached) (kind : TreeKind) (root : String)
    : (stop kind s root).Reached := by
  rw [Site.stop]
  refine Reached.drop ?_ kind root
  split
  · rename_i slot told
    have found := (Option.filter_eq_some_iff.mp told).1
    have left := (h.move (.leave (slot?_own found))).goes (goes_wake _ kind root)
    exact left.goes (goes_rest left.orderly.distinct)
  · exact h

/-- Whatever is served, the site was reached. -/
theorem Reached.serve (h : s.Reached) (kind : TreeKind) (apart : roots.Nodup)
    : (s.serve kind roots).Reached := by
  have stopped : Reached
      (((s.served kind).filter fun root => !roots.contains root).foldl (Site.stop kind) s) :=
    List.foldlRecOn _ _ h fun s reached root _ => reached.stop kind root
  have started {missing : List String} (apart : missing.Nodup) {s : Site β} (reached : s.Reached)
      (absent : ∀ root ∈ missing, s.slot? kind root = none)
      : Reached (missing.foldl (fun s root => s.start kind root) s) := by
    induction missing generalizing s with
    | nil => exact reached
    | cons root rest ih =>
        obtain ⟨other, apart⟩ := List.nodup_cons.mp apart
        obtain ⟨here, others⟩ := List.forall_mem_cons.mp absent
        refine ih apart (reached.start here) fun r hm => ?_
        rw [slot?_eq_none_iff, mem_ids_start, not_or]
        exact ⟨fun same => other ((Prod.mk.inj same).2 ▸ hm), slot?_eq_none_iff.mp (others r hm)⟩
  refine started (apart.filter _) stopped fun root hm => ?_
  exact Option.isNone_iff_eq_none.mp (List.mem_filter.mp hm).2

end Concord.Site
