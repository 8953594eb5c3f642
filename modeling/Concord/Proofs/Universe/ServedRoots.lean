import Concord.Proofs.Universe.Staying

/-! Which roots a pool serves. Main statement: serving roots serves just these, whatever the backend
does while the workers of other roots are stopped.
-/

namespace Concord.Site

variable {β : Type} {s s' : Site β} {kind : TreeKind} {root : String} {roots : List String}
  {id : TreeKind × String}

/-- A pool serves just these roots, and every tree of the site has one worker. -/
structure Serves (s : Site β) (kind : TreeKind) (roots : List String) : Prop where
  distinct : s.ids.Nodup
  served : ∀ root, root ∈ s.served kind ↔ root ∈ roots

theorem Serves.stays (h : s.Serves kind roots) (stays : s.Stays s') : s'.Serves kind roots where
  distinct := stays.ids ▸ h.distinct
  served := fun root => by rw [mem_served, stays.ids, ← mem_served, h.served]

/-- The roots that have a tree are among those that are served. -/
theorem Serves.mem_of_snapshot (h : s.Serves kind roots) (shows : (s.snapshot? kind root).isSome)
    : root ∈ roots :=
  (h.served root).mp (mem_served.mpr (mem_ids_of_snapshot shows))

-----------------------------------------------------------------------------------------
-- Starting
-----------------------------------------------------------------------------------------

/-- Starting workers of roots that have none, by induction on the roots. -/
theorem ids_starts (kind : TreeKind) (distinct : s.ids.Nodup) (apart : roots.Nodup)
    (absent : ∀ root ∈ roots, (kind, root) ∉ s.ids)
    : (roots.foldl (fun s root => s.start kind root) s).ids.Nodup
      ∧ ∀ id, id ∈ (roots.foldl (fun s root => s.start kind root) s).ids
          ↔ id ∈ s.ids ∨ id.1 = kind ∧ id.2 ∈ roots := by
  induction roots generalizing s with
  | nil => exact ⟨distinct, fun id => by simp⟩
  | cons root rest ih =>
      obtain ⟨other, apart⟩ := List.nodup_cons.mp apart
      obtain ⟨this, others⟩ := List.forall_mem_cons.mp absent
      have started : (s.start kind root).ids.Nodup := by
        rw [ids, ((start_perm s kind root).1.map Slot.id).nodup_iff, List.map_cons,
          List.nodup_cons]
        exact ⟨this, distinct⟩
      obtain ⟨later, mem⟩ := ih started apart fun r hm => by
        rw [mem_ids_start]
        rintro (same | old)
        · exact other ((Prod.mk.inj same).2 ▸ hm)
        · exact others r hm old
      refine ⟨later, fun id => ?_⟩
      rw [List.foldl_cons, mem, mem_ids_start, List.mem_cons, Prod.ext_iff]
      tauto

variable [Backend β]

-----------------------------------------------------------------------------------------
-- Stopping
-----------------------------------------------------------------------------------------

/-- A worker that is stopped may run once more, and then its slot is taken away. -/
theorem ids_stop (s : Site β) (kind : TreeKind) (root : String)
    : (stop kind s root).ids = s.ids.filter (· ≠ (kind, root)) := by
  have gone (s' : Site β)
      : Site.ids { s' with slots := s'.slots.filter fun slot =>
          !(slot.worker.kind = kind && slot.worker.root = root) }
        = s'.ids.filter (· ≠ (kind, root)) := by
    rw [ids, ids, List.filter_map]
    refine congrArg (List.map Slot.id) (List.filter_congr fun slot _ => ?_)
    rw [Function.comp_apply, Bool.eq_iff_iff, Bool.not_eq_true', ← Bool.not_eq_true, isId_iff,
      decide_eq_true_iff]
  rw [stop]
  cases found : (s.slot? kind root).filter Slot.alive with
  | none => exact gone s
  | some slot =>
      have here : s.slot? kind root = some slot := (Option.filter_eq_some_iff.mp found).1
      have told : s.Stays (s.setSlot { slot with stopping := true }) :=
        stays_setSlot here (.refl _)
      have stays := (told.trans (stays_wake _ kind root)).trans (stays_rest _)
      exact (gone _).trans (by rw [stays.ids])

theorem mem_ids_stop : id ∈ (stop kind s root).ids ↔ id ∈ s.ids ∧ id ≠ (kind, root) := by
  rw [ids_stop, List.mem_filter, decide_eq_true_iff]

/-- Stopping the workers of several roots, by induction on the roots. -/
theorem ids_stops (distinct : s.ids.Nodup) (kind : TreeKind) (roots : List String)
    : (roots.foldl (stop kind) s).ids.Nodup
      ∧ ∀ id, id ∈ (roots.foldl (stop kind) s).ids
          ↔ id ∈ s.ids ∧ ∀ root ∈ roots, id ≠ (kind, root) := by
  induction roots generalizing s with
  | nil => exact ⟨distinct, fun id => by simp⟩
  | cons root rest ih =>
      obtain ⟨later, mem⟩ := ih (s := stop kind s root) (by
        rw [ids_stop]
        exact distinct.filter _)
      refine ⟨later, fun id => ?_⟩
      rw [List.foldl_cons, mem, mem_ids_stop, List.forall_mem_cons, and_assoc]

-----------------------------------------------------------------------------------------
-- Serving
-----------------------------------------------------------------------------------------

theorem serves_serve (distinct : s.ids.Nodup) (kind : TreeKind) (apart : roots.Nodup)
    : (s.serve kind roots).Serves kind roots := by
  obtain ⟨left, stopped⟩ := ids_stops distinct kind
    ((s.served kind).filter fun root => !roots.contains root)
  obtain ⟨started, mem⟩ := ids_starts kind left
    (apart.filter fun root => (Site.slot? _ kind root).isNone) fun root hm => by
      obtain ⟨-, missing⟩ := List.mem_filter.mp hm
      exact slot?_eq_none_iff.mp (Option.isNone_iff_eq_none.mp missing)
  refine ⟨started, fun root => ?_⟩
  rw [mem_served]
  refine (mem (kind, root)).trans ⟨?_, fun wanted => ?_⟩
  · rintro (old | ⟨-, new⟩)
    · obtain ⟨old, stays⟩ := (stopped _).mp old
      by_contra unwanted
      refine stays root (List.mem_filter.mpr ⟨mem_served.mpr old, ?_⟩) rfl
      simp [unwanted]
    · exact List.mem_of_mem_filter new
  · by_cases old : (kind, root)
        ∈ (((s.served kind).filter fun root => !roots.contains root).foldl (stop kind) s).ids
    · exact .inl old
    · refine .inr ⟨rfl, List.mem_filter.mpr ⟨wanted, ?_⟩⟩
      exact Option.isNone_iff_eq_none.mpr (slot?_eq_none_iff.mpr old)

end Concord.Site
