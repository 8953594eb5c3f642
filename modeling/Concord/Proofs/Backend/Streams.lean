import Concord.Proofs.Backend.Projection

/-! What a backend in memory queues on its streams. Every mutation announces what it does: played
after what was queued before, the new changes lead to the new projection at each key, and say
nothing of a key whose projection stays.
-/

namespace Concord

-----------------------------------------------------------------------------------------
-- Streams by their number
-----------------------------------------------------------------------------------------

namespace Channels

variable {c : Channels} {id other : Nat} {ch : Channel} {root : String} {kind : TreeKind}

/-- Numbers that were not given out yet have no stream. -/
def Numbered (c : Channels) : Prop :=
  ∀ id, c.nextId ≤ id → c.get? id = none

theorem get?_subscribe (c : Channels) (root : String) (kind : TreeKind) (id : Nat)
    : (c.subscribe root kind).2.get? id
      = (c.get? id).or (if c.nextId = id then some { id, root, kind } else none) := by
  rw [subscribe, get?, get?, List.find?_append]
  congr 1
  by_cases h : c.nextId = id
  · subst h
    simp
  · simp [h]

/-- Changing streams without renumbering them changes what stands under each number. -/
theorem get?_map (f : Channel → Channel) (hf : ∀ ch, (f ch).id = ch.id) (id : Nat)
    : ({ c with members := c.members.map f } : Channels).get? id = (c.get? id).map f := by
  rw [get?, get?, List.find?_map]
  congr 2
  funext ch
  simp [hf ch]

theorem get?_send (c : Channels) (root : String) (kind : TreeKind) (event : TreeEvent) (id : Nat)
    : (c.send root kind event).get? id
      = (c.get? id).map fun ch =>
          if ch.root = root && ch.kind = kind && !ch.ended then
            { ch with queue := ch.queue ++ [event] }
          else ch := by
  rw [send, get?_map]
  intro ch
  split <;> rfl

theorem get?_close_ne (h : other ≠ id) : (c.close id).get? other = c.get? other := by
  rw [close, get?, get?, List.find?_filter]
  congr 1
  funext ch
  by_cases ho : ch.id = other
  · simp [ho, h]
  · simp [ho]

theorem get?_close_none (h : c.get? other = none) : (c.close id).get? other = none := by
  rw [get?, List.find?_eq_none] at h ⊢
  intro ch hm
  exact h ch (List.mem_of_mem_filter hm)

/-- Taking the next change leaves the other streams alone. -/
theorem get?_receive_ne (h : other ≠ id) : (c.receive id).2.get? other = c.get? other := by
  rw [receive]
  split
  · rfl
  · split
    · rw [get?_map]
      · cases hg : c.get? other with
        | none => rfl
        | some ch =>
            have number : ch.id = other := by simpa using List.find?_some hg
            simp [number, h]
      · intro ch
        split <;> rfl
    · rfl

theorem get?_receive_none (h : c.get? other = none) : (c.receive id).2.get? other = none := by
  by_cases he : other = id
  · subst he
    rw [receive, h]
    exact h
  · rw [get?_receive_ne he, h]

theorem nextId_receive (c : Channels) (id : Nat) : (c.receive id).2.nextId = c.nextId := by
  rw [receive]
  split
  · rfl
  · split <;> rfl

theorem Numbered.subscribe (h : c.Numbered) (root : String) (kind : TreeKind)
    : (c.subscribe root kind).2.Numbered := by
  intro id hid
  have later : c.nextId < id := hid
  rw [get?_subscribe, h id (Nat.le_of_lt later), if_neg (Nat.ne_of_lt later)]
  rfl

theorem Numbered.receive (h : c.Numbered) (id : Nat) : (c.receive id).2.Numbered := by
  intro other ho
  rw [nextId_receive] at ho
  exact get?_receive_none (h other ho)

theorem Numbered.close (h : c.Numbered) (id : Nat) : (c.close id).Numbered :=
  fun other ho => get?_close_none (h other ho)

/-- Where no change is given, nothing is taken. -/
theorem receive_idle (h : ∀ e, (c.receive id).1 ≠ .event e) : (c.receive id).2 = c := by
  rw [receive] at h ⊢
  split
  · rfl
  · rename_i ch hg
    rw [hg] at h
    dsimp only at h
    split
    · rename_i e rest hq
      rw [hq] at h
      exact absurd rfl (h e)
    · rfl

/-- A change is taken from the front of the queue. -/
theorem receive_event {e : TreeEvent} {d : Channels} (h : c.receive id = (.event e, d))
    (hg : c.get? id = some ch)
    : ∃ rest, ch.queue = e :: rest ∧ d.get? id = some { ch with queue := rest } := by
  rw [receive, hg] at h
  dsimp only at h
  split at h
  · rename_i event rest hq
    cases h
    refine ⟨rest, hq, ?_⟩
    have number : ch.id = id := by simpa using List.find?_some hg
    rw [get?_map, hg]
    · simp [number]
    · intro ch
      split <;> rfl
  · split at h <;> cases h

/-- A stream that was not ended gives no change only when its queue is empty. -/
theorem receive_cons {e : TreeEvent} {rest : List TreeEvent} (hg : c.get? id = some ch)
    (hq : ch.queue = e :: rest)
    : ∃ d, c.receive id = (.event e, d) := by
  rw [receive, hg]
  simp [hq]

/-- Sends each kind of tree its change, if it has one. -/
def announce (c : Channels) (root : String) (event? : TreeKind → Option TreeEvent) : Channels :=
  TreeKind.all.foldl
    (fun c kind =>
      match event? kind with
      | some event => c.send root kind event
      | none => c)
    c

/-- An announcement gives each stream of its root the change of its own kind. -/
theorem get?_announce (c : Channels) (root : String) (event? : TreeKind → Option TreeEvent)
    (id : Nat)
    : (c.announce root event?).get? id
      = (c.get? id).map fun ch =>
          if ch.root = root && !ch.ended then
            { ch with queue := ch.queue ++ (event? ch.kind).toList }
          else ch := by
  have one (c : Channels) (kind : TreeKind)
      : (match event? kind with
          | some event => c.send root kind event
          | none => c).get? id
        = (c.get? id).map fun ch =>
            if ch.root = root && ch.kind = kind && !ch.ended then
              { ch with queue := ch.queue ++ (event? kind).toList }
            else ch := by
    cases he : event? kind with
    | none => cases c.get? id <;> simp
    | some event => exact get?_send c root kind event id
  simp only [announce, TreeKind.all, List.foldl_cons, List.foldl_nil, one, Option.map_map]
  congr 1
  funext ch
  obtain ⟨number, r, kind, queue, ended⟩ := ch
  cases kind <;> by_cases hr : r = root <;> cases ended <;> simp [hr]

theorem nextId_announce (c : Channels) (root : String) (event? : TreeKind → Option TreeEvent)
    : (c.announce root event?).nextId = c.nextId := by
  simp only [announce, TreeKind.all, List.foldl_cons, List.foldl_nil]
  cases event? .config <;> cases event? .operational <;> cases event? .monitored <;> rfl

end Channels

end Concord
