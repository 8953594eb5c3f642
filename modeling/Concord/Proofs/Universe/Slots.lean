import Mathlib.Data.List.Nodup
import Concord.Universe.Site

/-! The workers of a site by kind and root, whatever its backend is. A slot is put in the place of
its like, and which roots are served can be read off the kinds and roots of the slots.
-/

namespace Concord

/-- The tree that a worker keeps: its kind and its root. -/
def Slot.id (s : Slot) : TreeKind × String :=
  (s.worker.kind, s.worker.root)

namespace Site

variable {β : Type} {s s' : Site β} {kind : TreeKind} {root : String} {slot other : Slot}
  {id : TreeKind × String}

/-- The trees that are kept. -/
def ids (s : Site β) : List (TreeKind × String) :=
  s.slots.map Slot.id

-----------------------------------------------------------------------------------------
-- Slots by kind and root
-----------------------------------------------------------------------------------------

theorem isId_iff
    : (slot.worker.kind = kind && slot.worker.root = root) = true ↔ slot.id = (kind, root) := by
  simp [Slot.id]

theorem slot?_spec (h : s.slot? kind root = some slot)
    : slot ∈ s.slots ∧ slot.id = (kind, root) := by
  have found := List.find?_some h
  exact ⟨List.mem_of_find?_eq_some h, isId_iff.mp found⟩

theorem slot?_eq_none_iff : s.slot? kind root = none ↔ (kind, root) ∉ s.ids := by
  rw [slot?, List.find?_eq_none, ids, List.mem_map]
  simp only [isId_iff]
  constructor
  · intro h ⟨slot, hm, he⟩
    exact h slot hm he
  · intro h slot hm he
    exact h ⟨slot, hm, he⟩

/-- With one slot for each tree, a slot is found under its kind and root. -/
theorem slot?_of_mem (h : s.ids.Nodup) (hm : slot ∈ s.slots)
    : s.slot? slot.worker.kind slot.worker.root = some slot := by
  cases found : s.slot? slot.worker.kind slot.worker.root with
  | none => exact absurd (List.mem_map_of_mem hm) (slot?_eq_none_iff.mp found)
  | some other =>
      obtain ⟨member, same⟩ := slot?_spec found
      rw [List.inj_on_of_nodup_map h member hm same]

/-- A slot that is put in place takes the place of its like. -/
theorem mem_setSlot (h : other ∈ (s.setSlot slot).slots)
    : other = slot ∨ (other ∈ s.slots ∧ other.id ≠ slot.id) := by
  obtain ⟨old, hm, rfl⟩ := List.mem_map.mp h
  split
  · exact .inl rfl
  · rename_i differs
    exact .inr ⟨hm, fun he => differs (isId_iff.mpr he)⟩

theorem ids_setSlot (s : Site β) (slot : Slot) : (s.setSlot slot).ids = s.ids := by
  rw [ids, setSlot, List.map_map, ids]
  refine List.map_congr_left fun old _ => ?_
  rw [Function.comp_apply]
  split
  · rename_i same
    exact (isId_iff.mp same).symm
  · rfl

theorem slot?_setSlot_self (h : (kind, root) ∈ s.ids) (same : slot.id = (kind, root))
    : (s.setSlot slot).slot? kind root = some slot := by
  cases found : (s.setSlot slot).slot? kind root with
  | none =>
      rw [slot?_eq_none_iff, ids_setSlot] at found
      exact absurd h found
  | some other =>
      obtain ⟨hm, hid⟩ := slot?_spec found
      rcases mem_setSlot hm with rfl | ⟨-, differs⟩
      · rfl
      · exact absurd (hid.trans same.symm) differs

theorem slot?_setSlot_ne (h : slot.id ≠ (kind, root))
    : (s.setSlot slot).slot? kind root = s.slot? kind root := by
  rw [slot?, setSlot, List.find?_map, slot?]
  have same : (fun slot : Slot => decide (slot.worker.kind = kind)
        && decide (slot.worker.root = root))
      ∘ (fun old => if old.worker.kind = slot.worker.kind && old.worker.root = slot.worker.root
          then slot else old)
      = fun slot : Slot => decide (slot.worker.kind = kind) && decide (slot.worker.root = root) := by
    funext old
    rw [Function.comp_apply]
    split
    · rename_i replaced
      obtain ⟨hk, hr⟩ := Prod.mk.inj (isId_iff.mp replaced)
      rw [hk, hr]
    · rfl
  rw [same]
  cases found : s.slots.find? fun slot => decide (slot.worker.kind = kind)
    && decide (slot.worker.root = root) with
  | none => rfl
  | some old =>
      obtain ⟨-, hid⟩ := slot?_spec found
      rw [Option.map_some, if_neg]
      intro replaced
      exact h ((isId_iff.mp replaced).symm.trans hid)

theorem setSlot_setSlot (h : slot.id = other.id)
    : (s.setSlot slot).setSlot other = s.setSlot other := by
  have id : (other.worker.kind, other.worker.root) = (slot.worker.kind, slot.worker.root) := h.symm
  simp only [Prod.mk.injEq] at id
  simp only [setSlot, List.map_map, id]
  congr 2
  funext old
  rw [Function.comp_apply]
  split
  · simp
  · rfl

/-- A slot that shows a tree if its like did keeps what is shown. -/
theorem snapshot_setSlot {kind' : TreeKind} {root' : String} {slot' : Slot}
    (found : s.slot? kind' root' = some slot) (same : slot'.id = slot.id)
    (keeps : slot.worker.snapshot.isSome → slot'.worker.snapshot.isSome)
    (h : (s.snapshot? kind root).isSome)
    : ((s.setSlot slot').snapshot? kind root).isSome := by
  obtain ⟨member, id⟩ := slot?_spec found
  rw [snapshot?] at h ⊢
  by_cases this : slot'.id = (kind, root)
  · have here : (kind', root') = (kind, root) := by rw [← id, ← same, this]
    cases here
    rw [found] at h
    rw [slot?_setSlot_self (List.mem_map.mpr ⟨slot, member, id⟩) this]
    exact keeps h
  · rwa [slot?_setSlot_ne this]

-----------------------------------------------------------------------------------------
-- Roots that are served
-----------------------------------------------------------------------------------------

/-- The slot of a worker that was not started yet. -/
def fresh (kind : TreeKind) (root : String) : Slot :=
  { worker := { root, kind } }

theorem start_perm (s : Site β) (kind : TreeKind) (root : String)
    : (s.start kind root).slots.Perm (fresh kind root :: s.slots)
      ∧ (s.start kind root).backend = s.backend := by
  have woken (s : Site β)
      : (s.wake kind root).slots = s.slots ∧ (s.wake kind root).backend = s.backend := by
    rw [wake]
    split <;> exact ⟨rfl, rfl⟩
  rw [start, (woken _).1, (woken _).2]
  refine ⟨List.perm_middle.trans ?_, rfl⟩
  rw [List.takeWhile_append_dropWhile]
  exact .refl _

theorem mem_ids_start {id : TreeKind × String}
    : id ∈ (s.start kind root).ids ↔ id = (kind, root) ∨ id ∈ s.ids := by
  have perm := (start_perm s kind root).1.map Slot.id
  rw [ids, perm.mem_iff, List.map_cons, List.mem_cons]
  rfl

theorem mem_served : root ∈ s.served kind ↔ (kind, root) ∈ s.ids := by
  rw [served, pool, ids, List.mem_map, List.mem_map]
  constructor
  · intro pooled
    obtain ⟨slot, hm, hr⟩ := pooled
    obtain ⟨hm, hk⟩ := List.mem_filter.mp hm
    exact ⟨slot, hm, Prod.ext (of_decide_eq_true hk) hr⟩
  · intro member
    obtain ⟨slot, hm, id⟩ := member
    obtain ⟨hk, hr⟩ := Prod.mk.inj id
    exact ⟨slot, List.mem_filter.mpr ⟨hm, decide_eq_true hk⟩, hr⟩

theorem nodup_roots (h : s.ids.Nodup) (kind : TreeKind) : (s.roots kind).Nodup := by
  have apart := List.pairwise_map.mp h
  rw [roots, pool, List.Nodup, List.pairwise_map]
  refine ((apart.filter _).filter _).imp_of_mem fun ha hb differ same => differ ?_
  have kinds {slot : Slot}
      (hm : slot ∈ (s.slots.filter fun slot => slot.worker.kind = kind).filter fun slot =>
        slot.worker.snapshot.isSome)
      : slot.worker.kind = kind :=
    of_decide_eq_true (List.mem_filter.mp (List.mem_of_mem_filter hm)).2
  exact Prod.ext ((kinds ha).trans (kinds hb).symm) same

/-- With one slot for each tree, the roots that have one are those that a tree is found for. -/
theorem mem_roots (h : s.ids.Nodup)
    : root ∈ s.roots kind ↔ (s.snapshot? kind root).isSome = true := by
  rw [roots, pool, List.mem_map, snapshot?]
  constructor
  · intro listed
    obtain ⟨slot, shown, rfl⟩ := listed
    obtain ⟨pooled, shows⟩ := List.mem_filter.mp shown
    obtain ⟨member, hk⟩ := List.mem_filter.mp pooled
    have kinds : slot.worker.kind = kind := of_decide_eq_true hk
    rwa [← kinds, slot?_of_mem h member]
  · intro shows
    cases found : s.slot? kind root with
    | none =>
        rw [found] at shows
        cases shows
    | some slot =>
        rw [found] at shows
        obtain ⟨hm, hid⟩ := slot?_spec found
        obtain ⟨hk, hr⟩ := Prod.mk.inj hid
        exact ⟨slot, List.mem_filter.mpr
          ⟨List.mem_filter.mpr ⟨hm, decide_eq_true hk⟩, shows⟩, hr⟩

theorem mem_ids_of_snapshot (h : (s.snapshot? kind root).isSome) : (kind, root) ∈ s.ids := by
  by_contra absent
  rw [snapshot?, slot?_eq_none_iff.mpr absent] at h
  cases h

end Site

end Concord
