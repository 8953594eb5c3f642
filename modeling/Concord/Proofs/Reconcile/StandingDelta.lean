import Concord.Proofs.Reconcile.Alignment
import Concord.Proofs.Reconcile.LoneRoot
import Concord.Proofs.Reconcile.OneRung

/-! The difference that a pass finds between settled sites, and what a batch leaves of it where the
fabric drops the pushes of some keys: those keys stay in the difference, and all others leave it.
-/

namespace Concord

/-- The part of a difference that some keys have. -/
def TreeDiff.within (d : TreeDiff) (keys : KeySet) : TreeDiff where
  add := d.add.filter keys.contains
  remove := d.remove.filter keys.contains

namespace Memory

variable {m m' : Memory} {root : String} {kind : TreeKind}

/-- Backends without flags that show the same have the same tree. -/
theorem tree_congr (h : m.errors = ∅) (h' : m'.errors = ∅)
    (same : ∀ k, m'.projected root kind k = m.projected root kind k)
    : m'.tree root kind = m.tree root kind := by
  rw [tree, tree, load_congr h h' same]

end Memory

namespace RootPass

open Memory

variable {i i' : Installation} {kind : TreeKind} {root : String} {k : Key}

/-- The trees of both backends are told apart by their hashes. -/
def Apart (i : Installation) (kind : TreeKind) (root : String) : Prop :=
  (i.store.backend.tree root kind).Distinguishable (i.fabric.backend.tree root kind)

/-- Settled sites show the trees of their backends, whose hashes tell them apart. -/
theorem Apart.views (apart : Apart i kind root) (settled : i.Settled kind root)
    : (i.store.viewTree kind root).Distinguishable (i.fabric.viewTree kind root) := by
  have agree (side : Side)
      : ((i.site side).backend.tree root kind).WellFormed
        ∧ ((i.site side).backend.tree root kind).Agree ((i.site side).viewTree kind root) := by
    obtain ⟨-, formed, plain, live⟩ := (settled side).shows
    obtain ⟨built, plain', live'⟩ := tree_spec (settled side).errors root kind
    refine ⟨built.wellFormed, plain'.agree plain built.wellFormed formed fun k => ?_⟩
    rw [live, live']
  obtain ⟨-, formed, -⟩ := (settled .desired).shows
  obtain ⟨-, formed', -⟩ := (settled .observed).shows
  exact apart.congr (agree .desired).1 (agree .observed).1 formed formed' (agree .desired).2
    (agree .observed).2

/-- Which keys the difference lists, by what both backends show. -/
theorem mem_sights (settled : i.Settled kind root) (apart : Apart i kind root) (k : Key)
    : (k ∈ (sights i kind root).delta.add
          ↔ ∃ attributes, i.store.backend.projected root kind k = some attributes
              ∧ i.fabric.backend.projected root kind k ≠ some attributes)
      ∧ (k ∈ (sights i kind root).delta.remove
          ↔ i.store.backend.projected root kind k = none
            ∧ i.fabric.backend.projected root kind k ≠ none) := by
  obtain ⟨-, formed, plain, live⟩ := (settled .desired).shows
  obtain ⟨-, formed', plain', live'⟩ := (settled .observed).shows
  have mem := HashTree.mem_diff_of_unflagged formed formed' (apart.views settled) plain plain' k
  rwa [live, live'] at mem

theorem distinct_sights (settled : i.Settled kind root) (apart : Apart i kind root)
    : ((sights i kind root).delta.add ++ (sights i kind root).delta.remove).Nodup := by
  obtain ⟨-, formed, -⟩ := (settled .desired).shows
  obtain ⟨-, formed', -⟩ := (settled .observed).shows
  obtain ⟨ascending, once⟩ := HashTree.ordered_diff formed formed' (apart.views settled)
  refine List.nodup_append.mpr ⟨ascending.imp ?_, once, ?_⟩
  · rintro a b less rfl
    exact absurd ((Std.LawfulEqOrd.compare_eq_iff_eq).mpr rfl) (by rw [less]; decide)
  · rintro a added b removed rfl
    obtain ⟨attributes, shown, -⟩ := (mem_sights settled apart a).1.mp added
    rw [((mem_sights settled apart a).2.mp removed).1] at shown
    cases shown

/-- A pass finds resources for all keys of the difference, which lists each of them once. -/
theorem complete_sights (settled : i.Settled kind root) (apart : Apart i kind root)
    (differ : (sights i kind root).delta.isEmpty = false)
    : (sights i kind root).Complete where
  creates := by
    refine keys_fetch fun k hk => ?_
    obtain ⟨attributes, shown, -⟩ := (mem_sights settled apart k).1.mp hk
    rw [projected] at shown
    split at shown
    · rw [shown]
      rfl
    · cases shown
  deletes := keys_fetchForDelete kind _
  distinct := distinct_sights settled apart
  differ := differ

-----------------------------------------------------------------------------------------
-- What stays
-----------------------------------------------------------------------------------------

/-- The fabric after the batch of a pass. -/
def pushed (i : Installation) (kind : TreeKind) (root : String) : Memory :=
  i.fabric.backend.push kind ⟨(sights i kind root).creates, (sights i kind root).deletes⟩

/-- A later store is the same, and what the fabric shows is what the store shows or, at keys whose
pushes are dropped, what it showed.
-/
structure TakenOver (i i' : Installation) (kind : TreeKind) (root : String) : Prop where
  store : i'.store.backend.objects = i.store.backend.objects
  failing : i'.fabric.backend.failing = i.fabric.backend.failing
  fabric : ∀ k, i'.fabric.backend.projected root kind k
    = if i.fabric.backend.failing.contains k then i.fabric.backend.projected root kind k
      else i.store.backend.projected root kind k

theorem TakenOver.trans {i'' : Installation} (h : TakenOver i i' kind root)
    (h' : TakenOver i' i'' kind root)
    : TakenOver i i'' kind root where
  store := h'.store.trans h.store
  failing := h'.failing.trans h.failing
  fabric := fun k => by
    rw [h'.fabric, h.failing, h.fabric, projected_congr h.store]
    split <;> rfl

/-- What was taken over stays so while nothing changes. -/
theorem TakenOver.stays (h : TakenOver i i' kind root) : TakenOver i' i' kind root where
  store := rfl
  failing := rfl
  fabric := fun k => by
    rw [h.failing, h.fabric, projected_congr h.store]
    split <;> rfl

theorem TakenOver.still {i'' : Installation} (h : TakenOver i i' kind root)
    (still : i'.Still i'')
    : TakenOver i i'' kind root where
  store := still.store.objects.trans h.store
  failing := still.fabric.failing.trans h.failing
  fabric := fun k => (projected_congr still.fabric.objects).trans (h.fabric k)

/-- After the batch of a pass the fabric shows what the store shows, but for keys whose pushes it
drops: there it shows what it showed.
-/
theorem projected_pushed (settled : i.Settled kind root) (apart : Apart i kind root) (k : Key)
    : (pushed i kind root).projected root kind k
      = if i.fabric.backend.failing.contains k then i.fabric.backend.projected root kind k
        else i.store.backend.projected root kind k := by
  obtain ⟨-, objects⟩ := @push_dropping i.fabric.backend kind _ i.store.backend
    ⟨rfl, (settled .observed).errors⟩ (sights i kind root).delta.add
    (sights i kind root).delta.remove
  rw [projected]
  by_cases hr : k.root? = some root
  · have after := objects k
    obtain ⟨add, remove⟩ := mem_sights settled apart k
    rw [unlessDropped, after_eq_outcome hr add remove] at after
    rw [if_pos hr]
    refine (congrArg (Option.bind · _) after).trans ?_
    split
    · rw [projected, if_pos hr]
    · rw [projection_outcome, projected, if_pos hr]
  · rw [if_neg hr, projected, projected, if_neg hr, if_neg hr, ite_self]

/-- Trees that the hashes tell apart after the first batch are told apart from then on. -/
theorem TakenOver.apart (taken : TakenOver i i' kind root) (settled : i.Settled kind root)
    (apart : Apart i kind root) (settled' : i'.Settled kind root)
    (after : (i.store.backend.tree root kind).Distinguishable ((pushed i kind root).tree root kind))
    : Apart i' kind root := by
  have errors : (pushed i kind root).errors = ∅ :=
    (Dropping.push ⟨rfl, (settled .observed).errors⟩ kind _).errors
  have store : i'.store.backend.tree root kind = i.store.backend.tree root kind :=
    tree_congr (settled .desired).errors (settled' .desired).errors fun k =>
      projected_congr taken.store
  have fabric : i'.fabric.backend.tree root kind = (pushed i kind root).tree root kind :=
    tree_congr errors (settled' .observed).errors fun k => by
      rw [taken.fabric, projected_pushed settled apart]
  rw [Apart, store, fabric]
  exact after

variable (settled : i.Settled kind root) (apart : Apart i kind root)
  (settled' : i'.Settled kind root) (apart' : Apart i' kind root)
  (taken : TakenOver i i' kind root)

include settled apart settled' apart' taken

/-- Just the keys whose pushes are dropped still differ. -/
theorem TakenOver.mem_delta (k : Key)
    : (k ∈ (sights i' kind root).delta.add
          ↔ k ∈ (sights i kind root).delta.add ∧ i.fabric.backend.failing.contains k = true)
      ∧ (k ∈ (sights i' kind root).delta.remove
          ↔ k ∈ (sights i kind root).delta.remove
            ∧ i.fabric.backend.failing.contains k = true) := by
  rw [(mem_sights settled apart k).1, (mem_sights settled apart k).2,
    (mem_sights settled' apart' k).1, (mem_sights settled' apart' k).2,
    projected_congr taken.store, taken.fabric]
  cases i.fabric.backend.failing.contains k with
  | true => simp
  | false =>
      cases i.store.backend.projected root kind k <;> simp

/-- The difference that is left, whatever the order in which it lists its keys. -/
theorem TakenOver.perm_delta
    : (sights i' kind root).delta.add.Perm
        ((sights i kind root).delta.within i.fabric.backend.failing).add
      ∧ (sights i' kind root).delta.remove.Perm
        ((sights i kind root).delta.within i.fabric.backend.failing).remove := by
  have before := List.nodup_append.mp (distinct_sights settled apart)
  have after := List.nodup_append.mp (distinct_sights settled' apart')
  constructor
  · refine (List.perm_ext_iff_of_nodup after.1 (before.1.filter _)).mpr fun k => ?_
    rw [(taken.mem_delta settled apart settled' apart' k).1, List.mem_filter]
  · refine (List.perm_ext_iff_of_nodup after.2.1 (before.2.1.filter _)).mpr fun k => ?_
    rw [(taken.mem_delta settled apart settled' apart' k).2, List.mem_filter]

/-- No action is new. -/
theorem TakenOver.entries_subset
    : (sights i' kind root).entries ⊆ (sights i kind root).entries := by
  have creates : (sights i' kind root).creates ⊆ (sights i kind root).creates := by
    have objects : i'.store.backend.objects = i.store.backend.objects := taken.store
    simp only [sights, fetch, objects]
    refine List.filterMap_subset _ fun k hk => ?_
    exact ((taken.mem_delta settled apart settled' apart' k).1.mp hk).1
  have deletes : (sights i' kind root).deletes ⊆ (sights i kind root).deletes := by
    refine List.map_subset _ fun k hk => ?_
    exact ((taken.mem_delta settled apart settled' apart' k).2.mp hk).1
  exact List.append_subset.mpr ⟨fun e he => List.mem_append_left _ (List.map_subset _ creates he),
    fun e he => List.mem_append_right _ (List.map_subset _ deletes he)⟩

end RootPass

end Concord
