import Concord.Proofs.Reconcile.Overlap

/-! What a pass may find while the served roots are changed. Views stay in order, a root that was
listed keeps its tree until it is no longer served, and from then on it has none.
-/

namespace Concord

-----------------------------------------------------------------------------------------
-- Views while the served roots are changed
-----------------------------------------------------------------------------------------

/-- How far a change of the served roots has come, as a number. -/
def Serving.rank : Serving → Nat
  | .before => 0
  | .desired => 1
  | .observed => 2
  | .after => 3

theorem Serving.eq_desired {serving : Serving} (h : serving.rank = 1) : serving = .desired := by
  cases serving with
  | desired => rfl
  | before => cases h
  | observed => cases h
  | after => cases h

namespace Installation

variable {kind : TreeKind} {roots : List String} {objects : Std.ExtTreeMap Key StoredObject}
  {serving : Serving} {world world' : Installation} {root : String}

/-- Surroundings in order, with these objects in the store. A view that was told to serve some
roots has no worker for others.
-/
structure Sight (kind : TreeKind) (roots : List String)
    (objects : Std.ExtTreeMap Key StoredObject) (serving : Serving) (world : Installation)
    : Prop where
  ordered : world.Ordered
  objects : world.store.backend.objects = objects
  desired : 1 ≤ serving.rank → ∀ root ∉ roots, world.store.slot? kind root = none
  observed : 2 ≤ serving.rank → ∀ root ∉ roots, world.fabric.slot? kind root = none

/-- The desired view has a tree of the root, or it was told not to serve it. -/
def Ready (kind : TreeKind) (roots : List String) (serving : Serving) (world : Installation)
    (root : String) : Prop :=
  (world.store.snapshot? kind root).isSome ∨ (1 ≤ serving.rank ∧ root ∉ roots)

theorem Goes.slot?_none (h : world.Goes world') (side : Side)
    (gone : (world.site side).slot? kind root = none)
    : (world'.site side).slot? kind root = none := by
  rw [Site.slot?_eq_none_iff] at gone ⊢
  rwa [h.ids side]

theorem Sight.goes (h : Sight kind roots objects serving world) (goes : world.Goes world')
    : Sight kind roots objects serving world' where
  ordered := goes.ordered
  objects := goes.objects.trans h.objects
  desired := fun begun root absent => goes.slot?_none .desired (h.desired begun root absent)
  observed := fun begun root absent => goes.slot?_none .observed (h.observed begun root absent)

theorem Ready.goes (h : Ready kind roots serving world root) (goes : world.Goes world')
    : Ready kind roots serving world' root :=
  h.imp_left ((goes.keeps .desired).snapshot kind root trivial)

/-- The desired view serves the roots first. -/
theorem Sight.serveDesired (h : Sight kind roots objects .before world)
    (serves : Serves kind .desired roots world world')
    : Sight kind roots objects .desired world' where
  ordered := serves.ordered
  objects := serves.objects.trans h.objects
  desired := fun _ root absent => serves.gone root absent
  observed := fun begun => by simp [Serving.rank] at begun

theorem Ready.serveDesired (h : Ready kind roots .before world root)
    (serves : Serves kind .desired roots world world')
    : Ready kind roots .desired world' root := by
  by_cases kept : root ∈ roots
  · rcases h with shows | ⟨begun, -⟩
    · exact .inl (serves.snapshot .desired root (fun _ => kept) shows)
    · simp [Serving.rank] at begun
  · exact .inr ⟨Nat.le_refl 1, kept⟩

/-- The observed view serves them second. -/
theorem Sight.serveObserved (h : Sight kind roots objects .desired world)
    (serves : Serves kind .observed roots world world')
    : Sight kind roots objects .observed world' where
  ordered := serves.ordered
  objects := serves.objects.trans h.objects
  desired := fun _ root absent => by
    have ids := serves.others .desired (by decide)
    have gone := h.desired (Nat.le_refl 1) root absent
    rw [Site.slot?_eq_none_iff] at gone ⊢
    exact ids ▸ gone
  observed := fun _ root absent => serves.gone root absent

theorem Ready.serveObserved (h : Ready kind roots .desired world root)
    (serves : Serves kind .observed roots world world')
    : Ready kind roots .observed world' root := by
  rcases h with shows | ⟨-, absent⟩
  · refine .inl (serves.snapshot .desired root (fun same => ?_) shows)
    cases same
  · exact .inr ⟨by decide, absent⟩

/-- A root that the desired view lists has a tree. -/
theorem ready_of_mem_roots (h : world.Ordered) (listed : root ∈ world.store.roots kind)
    : (world.store.snapshot? kind root).isSome := by
  obtain ⟨slot, hm, rfl⟩ := List.mem_map.mp listed
  obtain ⟨pooled, shows⟩ := List.mem_filter.mp hm
  obtain ⟨hm, same⟩ := List.mem_filter.mp pooled
  have kinds : slot.worker.kind = kind := of_decide_eq_true same
  have found : world.store.slot? slot.worker.kind slot.worker.root = some slot :=
    Site.slot?_of_mem (h.consistent .desired).distinct hm
  rw [Site.snapshot?, ← kinds, found]
  exact shows

end Installation

-----------------------------------------------------------------------------------------
-- What a view shows
-----------------------------------------------------------------------------------------

namespace Site

variable {s : Site Memory} {kind : TreeKind} {root : String} {k : Key}

/-- The worker of a root that has a tree follows the backend. -/
theorem Consistent.shown {t : HashTree} (h : s.Consistent) (steady : s.Steady)
    (shows : s.snapshot? kind root = some t)
    : t.WellFormed ∧ t.RootedAt root
      ∧ ((∃ slot, s.slot? kind root = some slot ∧ 0 < slot.worker.queued s.backend)
        ∨ ∀ k, t.live? k = s.backend.projected root kind k) := by
  obtain ⟨slot, found, snapshot⟩ := Option.bind_eq_some_iff.mp shows
  obtain ⟨hm, same⟩ := slot?_spec found
  obtain ⟨rfl, rfl⟩ := Prod.mk.inj same
  have alive := h.going slot hm (steady slot hm)
  have listens := h.listening slot hm alive (by rw [snapshot]; rfl)
  obtain ⟨id, stream⟩ := Option.isSome_iff_exists.mp listens
  obtain ⟨u, queue, hu, formed, rooted, hl, -, leads⟩ := h.follows slot hm alive id stream
  rw [snapshot] at hu
  cases hu
  refine ⟨formed, rooted, ?_⟩
  cases queue with
  | nil => exact .inr leads
  | cons e rest =>
      refine .inl ⟨slot, found, ?_⟩
      have queued : s.backend.channels.queued id = (e :: rest).length := by
        rw [Channels.queued, hl]
        rfl
      rw [Worker.queued, stream]
      exact Nat.lt_of_lt_of_eq (Nat.succ_pos rest.length) queued.symm

/-- A view shows an empty tree or one that a worker built. -/
theorem Consistent.viewTree (h : s.Consistent) (steady : s.Steady) (kind : TreeKind)
    (root : String)
    : (s.viewTree kind root).WellFormed ∧ (s.viewTree kind root).RootedAt root := by
  rw [Site.viewTree]
  cases shows : s.snapshot? kind root with
  | none => exact ⟨HashTree.Built.empty.wellFormed, HashTree.rootedAt_empty root⟩
  | some t =>
      obtain ⟨formed, rooted, -⟩ := h.shown steady shows
      exact ⟨formed, rooted⟩

end Site

end Concord
