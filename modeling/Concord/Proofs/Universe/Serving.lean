import Concord.Proofs.Universe.Pools
import Concord.Proofs.Universe.ServedRoots
import Concord.Universe.Installation

/-! Changing which roots a pool serves. Workers of other roots are stopped and gone, workers of
served roots stay and keep their trees, and missing ones are started.
-/

namespace Concord.Site

variable {s s' s'' : Site Memory} {kind other : TreeKind} {root r : String}
  {roots : List String} {kept kept' : TreeKind × String → Prop}

/-- No worker is about to stop. -/
def Steady (s : Site Memory) : Prop :=
  ∀ slot ∈ s.slots, slot.stopping = false

/-- A change of a site that leaves it in order, and leaves the trees of the roots that are kept. -/
structure Keeps (s : Site Memory) (kept : TreeKind × String → Prop) (s' : Site Memory) : Prop where
  consistent : s'.Consistent
  steady : s'.Steady
  snapshot : ∀ kind root, kept (kind, root) →
    (s.snapshot? kind root).isSome → (s'.snapshot? kind root).isSome

/-- A change that leaves the objects as well. -/
structure Leaves (s : Site Memory) (kept : TreeKind × String → Prop) (s' : Site Memory) : Prop
    extends s.Keeps kept s' where
  objects : s'.backend.objects = s.backend.objects

theorem Keeps.trans (h : s.Keeps kept s') (h' : s'.Keeps kept s'') : s.Keeps kept s'' where
  consistent := h'.consistent
  steady := h'.steady
  snapshot := fun kind root keeps shows =>
    h'.snapshot kind root keeps (h.snapshot kind root keeps shows)

theorem Keeps.mono (h : s.Keeps kept s') (less : ∀ id, kept' id → kept id)
    : s.Keeps kept' s' where
  consistent := h.consistent
  steady := h.steady
  snapshot := fun kind root keeps => h.snapshot kind root (less _ keeps)

theorem Leaves.refl (h : s.Consistent) (steady : s.Steady) : s.Leaves kept s where
  consistent := h
  steady := steady
  snapshot := fun _ _ _ shows => shows
  objects := rfl

theorem Leaves.trans (h : s.Leaves kept s') (h' : s'.Leaves kept s'') : s.Leaves kept s'' where
  toKeeps := h.toKeeps.trans h'.toKeeps
  objects := h'.objects.trans h.objects

theorem Leaves.mono (h : s.Leaves kept s') (less : ∀ id, kept' id → kept id)
    : s.Leaves kept' s' where
  toKeeps := h.toKeeps.mono less
  objects := h.objects

/-- Steps of workers keep all roots. -/
theorem Steps.leaves (h : s.Consistent) (steady : s.Steady) (steps : Steps s s')
    : s.Leaves kept s' where
  consistent := steps.consistent h
  steady := fun slot hm => by
    cases stopping : slot.stopping with
    | false => rfl
    | true =>
        have silent (id : TreeKind × String)
            : ∀ slot ∈ s.slots, slot.stopping = true → slot.id = id := by
          intro old ho going
          rw [steady old ho] at going
          cases going
        -- A worker that was to stop would have any kind and root.
        have one := steps.leaving (silent (.config, "")) slot hm stopping
        have two := steps.leaving (silent (.monitored, "")) slot hm stopping
        rw [one] at two
        cases two
  objects := steps.objects h
  snapshot := fun _ _ _ shows => steps.snapshot shows

-----------------------------------------------------------------------------------------
-- Stopping
-----------------------------------------------------------------------------------------

/-- Slots may be taken away. -/
theorem Consistent.filter (h : s.Consistent) (p : Slot → Bool)
    : Consistent { s with slots := s.slots.filter p } where
  numbered := h.numbered
  distinct := h.distinct.sublist (List.filter_sublist.map _)
  follows := fun slot hm => h.follows slot (List.mem_of_mem_filter hm)
  listening := fun slot hm => h.listening slot (List.mem_of_mem_filter hm)
  apart := fun a ha b hb => h.apart a (List.mem_of_mem_filter ha) b (List.mem_of_mem_filter hb)
  going := fun slot hm => h.going slot (List.mem_of_mem_filter hm)

theorem snapshot?_filter (h : (other, r) ≠ (kind, root))
    : Site.snapshot? { s with slots := s.slots.filter fun slot =>
        !(slot.worker.kind = kind && slot.worker.root = root) } other r
      = s.snapshot? other r := by
  rw [snapshot?, snapshot?, slot?, slot?, List.find?_filter]
  congr 2
  funext slot
  cases same : decide (slot.worker.kind = other) && decide (slot.worker.root = r) with
  | false => simp
  | true =>
      have id := isId_iff.mp same
      cases here : decide (slot.worker.kind = kind) && decide (slot.worker.root = root) with
      | false => rfl
      | true => exact absurd (id.symm.trans (isId_iff.mp here)) h

/-- The site in which the worker of a root is gone but its slot is not. -/
theorem exists_stopped (h : s.Consistent) (steady : s.Steady) (kind : TreeKind) (root : String)
    : ∃ s' : Site Memory,
        stop kind s root = { s' with slots := s'.slots.filter fun slot =>
          !(slot.worker.kind = kind && slot.worker.root = root) }
        ∧ s'.Consistent ∧ s'.backend.objects = s.backend.objects
        ∧ (∀ slot ∈ s'.slots, slot.stopping = true → slot.id = (kind, root))
        ∧ ∀ other r, (s.snapshot? other r).isSome → (s'.snapshot? other r).isSome := by
  rw [stop]
  cases found : (s.slot? kind root).filter Slot.alive with
  | none =>
      refine ⟨s, rfl, h, rfl, ?_, fun _ _ shows => shows⟩
      intro slot hm stopping
      rw [steady slot hm] at stopping
      cases stopping
  | some slot =>
      have here : s.slot? kind root = some slot := (Option.filter_eq_some_iff.mp found).1
      have told : (s.setSlot { slot with stopping := true }).Consistent :=
        h.setSlot here rfl rfl fun stays => by cases stays
      have steps : Steps (s.setSlot { slot with stopping := true })
          ((s.setSlot { slot with stopping := true }).wake kind root).rest :=
        (steps_wake _ kind root).trans (steps_rest _)
      have objects := steps.objects told
      refine ⟨_, rfl, steps.consistent told, objects, ?_, ?_⟩
      · refine steps.leaving ?_
        intro other hm stopping
        rcases mem_setSlot hm with rfl | ⟨hm, -⟩
        · have same := (slot?_spec here).2
          exact same
        · rw [steady other hm] at stopping
          cases stopping
      · intro other r shows
        have told : ((s.setSlot { slot with stopping := true }).snapshot? other r).isSome :=
          snapshot_setSlot here rfl id shows
        exact steps.snapshot told

theorem leaves_stop (h : s.Consistent) (steady : s.Steady) (kind : TreeKind) (root : String)
    : s.Leaves (· ≠ (kind, root)) (stop kind s root) := by
  obtain ⟨s', stopped, consistent, objects, leaving, snapshot⟩ :=
    exists_stopped h steady kind root
  rw [stopped]
  refine ⟨⟨consistent.filter _, ?_, ?_⟩, objects⟩
  · intro slot hm
    obtain ⟨hm, differs⟩ := List.mem_filter.mp hm
    cases stopping : slot.stopping with
    | false => rfl
    | true =>
        rw [isId_iff.mpr (leaving slot hm stopping)] at differs
        cases differs
  · intro other r keeps shows
    rw [snapshot?_filter keeps]
    exact snapshot other r shows

/-- Stopping several roots keeps the others, by induction on the roots. -/
theorem leaves_stops (h : s.Consistent) (steady : s.Steady) (kind : TreeKind)
    (roots : List String)
    : s.Leaves (fun id => ∀ root ∈ roots, id ≠ (kind, root)) (roots.foldl (stop kind) s) := by
  induction roots generalizing s with
  | nil => exact .refl h steady
  | cons root rest ih =>
      have first := leaves_stop h steady kind root
      exact (first.mono fun id keeps => keeps root List.mem_cons_self).trans
        ((ih first.consistent first.steady).mono fun id keeps r hm =>
          keeps r (List.mem_cons_of_mem _ hm))

-----------------------------------------------------------------------------------------
-- Starting
-----------------------------------------------------------------------------------------

theorem snapshot?_start (h : (other, r) ≠ (kind, root))
    : (s.start kind root).snapshot? other r = s.snapshot? other r := by
  have woken (s : Site Memory) : (s.wake kind root).slots = s.slots := by
    rw [wake]
    split <;> rfl
  have differs : ((fresh kind root).worker.kind = other && (fresh kind root).worker.root = r)
      = false := by
    rw [← Bool.not_eq_true, isId_iff]
    exact h.symm
  rw [snapshot?, snapshot?, slot?, slot?, start, woken, List.find?_append, List.find?_cons]
  rw [fresh] at differs
  rw [differs, ← List.find?_append, List.takeWhile_append_dropWhile]

/-- A worker that is started has nothing to follow yet. -/
theorem leaves_start (h : s.Consistent) (steady : s.Steady) (absent : (kind, root) ∉ s.ids)
    : s.Leaves (· ≠ (kind, root)) (s.start kind root) := by
  obtain ⟨perm, backend⟩ := start_perm s kind root
  have mem {slot : Slot} (hm : slot ∈ (s.start kind root).slots)
      : slot = fresh kind root ∨ slot ∈ s.slots :=
    List.mem_cons.mp (perm.mem_iff.mp hm)
  refine ⟨⟨⟨?_, ?_, ?_, ?_, ?_, ?_⟩, ?_, ?_⟩, ?_⟩
  · rw [backend]
    exact h.numbered
  · rw [ids, (perm.map Slot.id).nodup_iff, List.map_cons, List.nodup_cons]
    exact ⟨absent, h.distinct⟩
  · intro slot hm going
    rw [backend]
    rcases mem hm with rfl | hm
    · intro id hs
      cases hs
    · exact h.follows slot hm going
  · intro slot hm going
    rcases mem hm with rfl | hm
    · intro shows
      cases shows
    · exact h.listening slot hm going
  · intro a ha b hb goingA goingB stream sa sb
    rcases mem ha with rfl | ha
    · cases sa
    · rcases mem hb with rfl | hb
      · cases sb
      · exact h.apart a ha b hb goingA goingB stream sa sb
  · intro slot hm stays
    rcases mem hm with rfl | hm
    · rfl
    · exact h.going slot hm stays
  · intro slot hm
    rcases mem hm with rfl | hm
    · rfl
    · exact steady slot hm
  · intro other r keeps shows
    rwa [snapshot?_start keeps]
  · rw [backend]

/-- Starting several roots keeps the others, by induction on the roots. -/
theorem leaves_starts (kind : TreeKind) (h : s.Consistent) (steady : s.Steady)
    (distinct : roots.Nodup) (absent : ∀ root ∈ roots, (kind, root) ∉ s.ids)
    : s.Leaves (· ∈ s.ids) (roots.foldl (fun s root => s.start kind root) s) := by
  induction roots generalizing s with
  | nil => exact .refl h steady
  | cons root rest ih =>
      obtain ⟨fresh, distinct⟩ := List.nodup_cons.mp distinct
      obtain ⟨this, others⟩ := List.forall_mem_cons.mp absent
      have first := leaves_start h steady this
      have later := ih first.consistent first.steady distinct fun r hm => by
        rw [mem_ids_start]
        rintro (same | old)
        · exact fresh ((Prod.mk.inj same).2 ▸ hm)
        · exact others r hm old
      refine (first.mono fun id keeps => ?_).trans (later.mono fun id keeps => ?_)
      · intro same
        exact this (same ▸ keeps)
      · exact mem_ids_start.mpr (.inr keeps)

-----------------------------------------------------------------------------------------
-- Serving
-----------------------------------------------------------------------------------------

/-- Serving roots keeps the trees of these roots, and of other kinds; other roots of the kind have
no worker any more.
-/
theorem leaves_serve (h : s.Consistent) (steady : s.Steady) (kind : TreeKind)
    (distinct : roots.Nodup)
    : s.Leaves (fun id => id.1 = kind → id.2 ∈ roots) (s.serve kind roots)
      ∧ ∀ root ∉ roots, (s.serve kind roots).slot? kind root = none := by
  have first := leaves_stops h steady kind
    ((s.served kind).filter fun root => !roots.contains root)
  have later := leaves_starts kind first.consistent first.steady
    (distinct.filter fun root => (Site.slot? _ kind root).isNone) fun root hm => by
      obtain ⟨-, missing⟩ := List.mem_filter.mp hm
      exact slot?_eq_none_iff.mp (Option.isNone_iff_eq_none.mp missing)
  refine ⟨⟨⟨later.consistent, later.steady, ?_⟩, later.objects.trans first.objects⟩, ?_⟩
  · intro other r keeps shows
    have stays := first.snapshot other r (fun root hm same => ?_) shows
    · exact later.snapshot other r (mem_ids_of_snapshot stays) stays
    · obtain ⟨-, stopped⟩ := List.mem_filter.mp hm
      obtain ⟨hk, hr⟩ := Prod.mk.inj same
      have kept : root ∈ roots := hr ▸ keeps hk
      simp [kept] at stopped
  · intro root absent
    rw [slot?_eq_none_iff, ← mem_served, (serves_serve h.distinct kind distinct).served]
    exact absent

/-- A change of the backend is queued for the workers and leaves their trees alone. -/
theorem keeps_mutate (h : s.Consistent) (steady : s.Steady) (c : Mutation)
    : s.Keeps kept { s with backend := c.apply s.backend } := by
  have announced := c.announces s.backend
  exact {
    consistent := {
      numbered := fun id hid => announced.absent id (h.numbered id (announced.nextId ▸ hid))
      distinct := h.distinct
      follows := fun slot hm going => (h.follows slot hm going).announces announced
      listening := h.listening
      apart := h.apart
      going := h.going
    }
    steady := steady
    snapshot := fun _ _ _ shows => shows
  }

end Concord.Site

namespace Concord.Installation

open Site

variable {i i' i'' : Installation} {kind : TreeKind} {side : Side} {root : String}
  {roots : List String}

/-- Both sites are in order. -/
structure Ordered (i : Installation) : Prop where
  consistent : ∀ side, (i.site side).Consistent
  steady : ∀ side, (i.site side).Steady

/-- What happens when nobody changes which roots are served: workers stay, trees stay, and so do
the objects of the store.
-/
structure Goes (i i' : Installation) : Prop where
  objects : i'.store.backend.objects = i.store.backend.objects
  keeps : ∀ side, (i.site side).Keeps (fun _ => True) (i'.site side)
  ids : ∀ side, (i'.site side).ids = (i.site side).ids

theorem Goes.refl (h : i.Ordered) : i.Goes i where
  objects := rfl
  keeps := fun side => (Leaves.refl (h.consistent side) (h.steady side)).toKeeps
  ids := fun _ => rfl

theorem Goes.trans (h : i.Goes i') (h' : i'.Goes i'') : i.Goes i'' where
  objects := h'.objects.trans h.objects
  keeps := fun side => (h.keeps side).trans (h'.keeps side)
  ids := fun side => (h'.ids side).trans (h.ids side)

theorem Goes.ordered (h : i.Goes i') : i'.Ordered where
  consistent := fun side => (h.keeps side).consistent
  steady := fun side => (h.keeps side).steady

theorem site_setSite (i : Installation) (side other : Side) (s : Site Memory)
    : (i.setSite side s).site other = if other = side then s else i.site other := by
  cases side <;> cases other <;> rfl

/-- Steps of the workers of one side. -/
theorem goes_setSite {s' : Site Memory} (h : i.Ordered) (steps : Steps (i.site side) s')
    : i.Goes (i.setSite side s') := by
  have leaves : (i.site side).Leaves (fun _ => True) s' :=
    steps.leaves (h.consistent side) (h.steady side)
  refine ⟨?_, fun other => ?_, fun other => ?_⟩
  · cases side with
    | desired => exact leaves.objects
    | observed => rfl
  · rw [site_setSite]
    split
    · rename_i same
      exact same ▸ leaves.toKeeps
    · exact (Leaves.refl (h.consistent other) (h.steady other)).toKeeps
  · rw [site_setSite]
    split
    · rename_i same
      exact same ▸ steps.ids
    · rfl

theorem goes_restSide (h : i.Ordered) (side : Side) : i.Goes (i.restSide side) :=
  goes_setSite h ((steps_wakeAll _).trans (steps_rest _))

/-- While someone waits for the workers of one side, those of the other side run too. -/
theorem goes_waiting {α : Type} {f : Site Memory → α × Site Memory} (h : i.Ordered)
    (hf : ∀ s, Steps s (f s).2) (side : Side) (waits : Bool)
    : i.Goes (i.waiting side waits f).2 := by
  have first : i.Goes (i.setSite side (f (i.site side).wakeAll).2) :=
    goes_setSite h ((steps_wakeAll _).trans (hf _))
  rw [waiting]
  dsimp only
  split
  · exact first.trans (goes_restSide first.ordered side.other)
  · exact first

/-- Questions change what a view shows only through its workers. -/
theorem goes_ask (h : i.Ordered) (kind : TreeKind) (q : Question)
    : i.Goes (ask kind q i).2 := by
  cases q with
  | tree side root => exact .refl h
  | resources keys => exact .refl h
  | resourcesForDelete keys => exact .refl h
  | report transitions =>
      have same := Goes.refl h
      exact ⟨same.objects, fun side => by cases side <;> exact same.keeps _,
        fun side => by cases side <;> rfl⟩
  | push batch =>
      have fabric : i.fabric.Keeps (fun _ => True) (i.fabric.viewPush kind batch).2 :=
        keeps_mutate (h.consistent .observed) (h.steady .observed) (.push kind batch)
      refine ⟨rfl, fun side => ?_, fun side => ?_⟩
      · cases side with
        | desired => exact (Leaves.refl (h.consistent .desired) (h.steady .desired)).toKeeps
        | observed => exact fabric
      · cases side <;> rfl
  | reset side root => exact goes_waiting h (fun s => steps_reset s kind root) side _

/-- What serving roots on one side comes to: the other side goes on, and on this side other roots
have no worker any more.
-/
structure Serves (kind : TreeKind) (side : Side) (roots : List String) (i i' : Installation)
    : Prop where
  ordered : i'.Ordered
  objects : i'.store.backend.objects = i.store.backend.objects
  snapshot : ∀ other root, (other = side → root ∈ roots) →
    ((i.site other).snapshot? kind root).isSome → ((i'.site other).snapshot? kind root).isSome
  gone : ∀ root ∉ roots, (i'.site side).slot? kind root = none
  others : ∀ other ≠ side, (i'.site other).ids = (i.site other).ids

theorem serves (h : i.Ordered) (kind : TreeKind) (side : Side) (distinct : roots.Nodup)
    : (serve kind side roots i).1 = .ok ()
      ∧ Serves kind side roots i (serve kind side roots i).2 := by
  have woken : (i.site side).Leaves (fun _ => True) (i.site side).wakeAll :=
    (steps_wakeAll _).leaves (h.consistent side) (h.steady side)
  obtain ⟨leaves, gone⟩ := leaves_serve woken.consistent woken.steady kind distinct
  let i₁ := i.setSite side ((i.site side).wakeAll.serve kind roots)
  have here : i₁.site side = (i.site side).wakeAll.serve kind roots := by
    rw [site_setSite, if_pos rfl]
  have there (other : Side) (ne : other ≠ side) : i₁.site other = i.site other := by
    rw [site_setSite, if_neg ne]
  have first : Serves kind side roots i i₁ := by
    refine ⟨⟨fun other => ?_, fun other => ?_⟩, ?_, fun other root keeps shows => ?_, ?_, ?_⟩
    · by_cases same : other = side
      · subst same
        rw [here]
        exact leaves.consistent
      · rw [there other same]
        exact h.consistent other
    · by_cases same : other = side
      · subst same
        rw [here]
        exact leaves.steady
      · rw [there other same]
        exact h.steady other
    · cases side with
      | desired => exact leaves.objects.trans woken.objects
      | observed => rfl
    · by_cases same : other = side
      · subst same
        rw [here]
        exact leaves.snapshot kind root (fun _ => keeps rfl) (woken.snapshot kind root trivial shows)
      · rw [there other same]
        exact shows
    · intro root absent
      rw [here]
      exact gone root absent
    · intro other ne
      rw [there other ne]
  refine ⟨rfl, ?_⟩
  have result : (serve kind side roots i).2 = i₁ ∨ (serve kind side roots i).2
      = i₁.restSide side.other := by
    rw [serve, waiting]
    dsimp only
    split
    · exact .inr rfl
    · exact .inl rfl
  rcases result with result | result
  · rw [result]
    exact first
  · rw [result]
    have rest := goes_restSide first.ordered side.other
    refine ⟨rest.ordered, rest.objects.trans first.objects, fun other root keeps shows => ?_, ?_,
      ?_⟩
    · exact (rest.keeps other).snapshot kind root trivial (first.snapshot other root keeps shows)
    · intro root absent
      rw [slot?_eq_none_iff, rest.ids side, ← slot?_eq_none_iff]
      exact first.gone root absent
    · intro other ne
      rw [rest.ids other, first.others other ne]

-----------------------------------------------------------------------------------------
-- How installations come about
-----------------------------------------------------------------------------------------

/-- An installation that nothing but its own operations brought about: backends are changed,
workers go on, roots are served, and questions are asked.
-/
inductive Reached : Installation → Prop
  | unserved {i : Installation} (slots : ∀ side, (i.site side).slots = [])
    (streams : ∀ side, (i.site side).backend.channels.members = [])
    : Reached i
  | mutate {i : Installation} (h : Reached i) (side : Side) (c : Mutation)
    : Reached (i.setSite side { i.site side with backend := c.apply (i.site side).backend })
  | steps {i : Installation} {side : Side} {s' : Site Memory} (h : Reached i)
    (steps : Steps (i.site side) s')
    : Reached (i.setSite side s')
  | serve {i : Installation} {roots : List String} (h : Reached i) (kind : TreeKind) (side : Side)
    (distinct : roots.Nodup)
    : Reached (serve kind side roots i).2
  | ask {i : Installation} (h : Reached i) (kind : TreeKind) (q : Question)
    : Reached (ask kind q i).2

/-- Sites that never served anything are in order. -/
theorem ordered_of_unserved (slots : ∀ side, (i.site side).slots = [])
    (streams : ∀ side, (i.site side).backend.channels.members = [])
    : i.Ordered := by
  have nobody (side : Side) (slot : Slot) : slot ∉ (i.site side).slots := by
    rw [slots side]
    exact List.not_mem_nil
  refine ⟨fun side => ⟨?_, ?_, ?_, ?_, ?_, ?_⟩, fun side slot hm => absurd hm (nobody side slot)⟩
  · intro id _
    rw [Channels.get?, streams side]
    rfl
  · rw [ids, slots side]
    exact .nil
  · exact fun slot hm => absurd hm (nobody side slot)
  · exact fun slot hm => absurd hm (nobody side slot)
  · exact fun slot hm => absurd hm (nobody side slot)
  · exact fun slot hm => absurd hm (nobody side slot)

/-- Every installation that was reached is in order, by induction on how it came about. -/
theorem Reached.ordered (h : i.Reached) : i.Ordered := by
  induction h with
  | unserved slots streams => exact ordered_of_unserved slots streams
  | @mutate i _ side c ih =>
      have changed : (i.site side).Keeps (fun _ => True) _ :=
        keeps_mutate (ih.consistent side) (ih.steady side) c
      refine ⟨fun other => ?_, fun other => ?_⟩
      · rw [site_setSite]
        split
        · exact changed.consistent
        · exact ih.consistent other
      · rw [site_setSite]
        split
        · exact changed.steady
        · exact ih.steady other
  | steps _ steps ih => exact (goes_setSite ih steps).ordered
  | serve _ kind side distinct ih => exact (serves ih kind side distinct).2.ordered
  | ask _ kind q ih => exact (goes_ask ih kind q).ordered

theorem Reached.restSide (h : i.Reached) (side : Side) : (i.restSide side).Reached :=
  h.steps ((steps_wakeAll _).trans (steps_rest _))

end Concord.Installation
