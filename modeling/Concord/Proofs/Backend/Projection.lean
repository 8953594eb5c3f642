import Concord.Backend.Memory
import Concord.Proofs.HashTree.Changes

/-! What a backend in memory shows of a root and kind. A load always succeeds, and the map of the
tree that it gives is the projection of the objects.
-/

namespace Concord

-----------------------------------------------------------------------------------------
-- Entries with different keys
-----------------------------------------------------------------------------------------

/-- In a list of entries with different keys, the first entry of a key is its only one, by list
induction.
-/
theorem find?_entry_iff {α β : Type} [DecidableEq α] {l : List (α × β)}
    (h : l.Pairwise fun a b => a.1 ≠ b.1) {k : α} {v : β}
    : (l.find? fun e => e.1 = k).map Prod.snd = some v ↔ (k, v) ∈ l := by
  induction l with
  | nil => simp
  | cons e rest ih =>
      obtain ⟨j, w⟩ := e
      obtain ⟨first, later⟩ := List.pairwise_cons.mp h
      by_cases hj : j = k
      · subst hj
        have absent : (j, v) ∉ rest := fun hm => first _ hm rfl
        simp [absent, eq_comm]
      · simp [hj, Ne.symm hj, ih later]

namespace Memory

/-- What the trees of a root and kind show at a key. -/
def projected (m : Memory) (root : String) (kind : TreeKind) (k : Key) : Option Attributes :=
  if k.root? = some root then (m.objects[k]?).bind (·.projection? kind) else none

variable {m : Memory} {root : String} {kind : TreeKind} {k : Key}

theorem projected_congr {m' : Memory} (h : m'.objects = m.objects)
    : m'.projected root kind k = m.projected root kind k := by
  rw [projected, projected, h]

/-- The entries that are shown, as a map. -/
def shown (m : Memory) (root : String) (kind : TreeKind) : Std.ExtTreeMap Key Attributes :=
  m.objects.filterMap fun k o => if k.root? = some root then o.projection? kind else none

theorem toList_shown (m : Memory) (root : String) (kind : TreeKind)
    : (m.shown root kind).toList = m.projection root kind := by
  rw [shown, Std.ExtTreeMap.toList_filterMap, projection]
  refine List.filterMap_congr fun e _ => ?_
  split <;> rfl

theorem getElem?_shown : (m.shown root kind)[k]? = m.projected root kind k := by
  rw [shown, Std.ExtTreeMap.getElem?_filterMap', projected]
  split
  · rfl
  · cases m.objects[k]? <;> rfl

theorem mem_projection {v : Attributes}
    : (k, v) ∈ m.projection root kind ↔ m.projected root kind k = some v := by
  rw [← toList_shown, Std.ExtTreeMap.mem_toList_iff_getElem?_eq_some, getElem?_shown]

theorem root_of_mem_projection {item : Key × Attributes} (h : item ∈ m.projection root kind)
    : item.1.root? = some root := by
  have hp := mem_projection.mp h
  rw [projected] at hp
  by_contra hr
  rw [if_neg hr] at hp
  cases hp

/-- Every key is shown at most once. -/
theorem distinct_projection (m : Memory) (root : String) (kind : TreeKind)
    : (m.projection root kind).Pairwise fun a b => a.1 ≠ b.1 := by
  rw [← toList_shown]
  refine Std.ExtTreeMap.distinct_keys_toList.imp ?_
  intro a b hab he
  exact hab (by simp [he])

-----------------------------------------------------------------------------------------
-- Loads
-----------------------------------------------------------------------------------------

/-- Setting flags one after the other, where that is possible. -/
def flagAll (root : String) (keys : List Key) (t : HashTree) : HashTree :=
  keys.foldl
    (fun t key =>
      if key.root? = some root then
        match t.setError key true with
        | .ok flagged => flagged
        | .error _ => t
      else t)
    t

/-- Flags change neither the form of a tree nor its map, by list induction. -/
theorem flagAll_spec {t : HashTree} (keys : List Key) (ht : t.Built) (hr : t.RootedAt root)
    : (flagAll root keys t).Built ∧ (flagAll root keys t).RootedAt root
      ∧ ∀ k, (flagAll root keys t).live? k = t.live? k := by
  induction keys generalizing t with
  | nil => exact ⟨ht, hr, fun k => rfl⟩
  | cons key rest ih =>
      rw [flagAll, List.foldl_cons]
      split
      · split
        · rename_i flagged hf
          obtain ⟨built, rooted, live⟩ := ih (ht.flagged hf) (hr.setError hf)
          refine ⟨built, rooted, fun k => ?_⟩
          rw [← HashTree.live?_setError ht.wellFormed.shaped hf k]
          exact live k
        · exact ih ht hr
      · exact ih ht hr

/-- A load succeeds, and its tree holds what the objects show. -/
theorem load_spec (m : Memory) (root : String) (kind : TreeKind)
    : ∃ t, m.load root kind = .ok t ∧ t.Built ∧ t.RootedAt root
      ∧ ∀ k, t.live? k = m.projected root kind k := by
  obtain ⟨t, ht, rooted, live⟩ :=
    HashTree.addAll_ok (HashTree.rootedAt_empty root)
      (fun item hi => root_of_mem_projection hi) (distinct_projection m root kind)
  have built : t.Built := by
    have hb := HashTree.Built.empty.included (m.projection root kind)
    rwa [ht] at hb
  obtain ⟨built, rooted, same⟩ := flagAll_spec m.errors.toList built rooted
  refine ⟨flagAll root m.errors.toList t, ?_, built, rooted, fun k => ?_⟩
  · have added : HashTree.empty.addAll (m.projection root kind) = _ := ht
    rw [load, added]
    rfl
  · rw [same, live]
    refine Option.ext fun v => ?_
    rw [← mem_projection, ← find?_entry_iff (distinct_projection m root kind)]
    simp

/-- Backends with the same flags that show the same give the same tree. -/
theorem load_eq_of_shown {m' : Memory} (errors : m'.errors = m.errors)
    (same : ∀ k, m'.projected root kind k = m.projected root kind k)
    : m'.load root kind = m.load root kind := by
  have maps : m'.shown root kind = m.shown root kind := by
    refine Std.ExtTreeMap.ext_getElem? fun {k} => ?_
    rw [getElem?_shown, getElem?_shown, same]
  rw [load, load, ← toList_shown, ← toList_shown, maps, errors]

/-- Backends that give the same tree show the same. -/
theorem projected_of_load {m' : Memory} (same : m'.load root kind = m.load root kind) (k : Key)
    : m'.projected root kind k = m.projected root kind k := by
  obtain ⟨t, ht, -, -, live⟩ := m.load_spec root kind
  obtain ⟨t', ht', -, -, live'⟩ := m'.load_spec root kind
  rw [ht, ht', Except.ok.injEq] at same
  rw [← live, ← live', same]

/-- Where no key is flagged, a load adds the objects that are shown and does nothing else. -/
theorem load_of_no_errors (h : m.errors = ∅)
    : m.load root kind = .ok ((∅ : HashTree).addAll (m.projection root kind)).1 := by
  obtain ⟨t, ht, -⟩ :=
    HashTree.addAll_ok (HashTree.rootedAt_empty root)
      (fun item hi => root_of_mem_projection hi) (distinct_projection m root kind)
  have none : m.errors.toList = [] := by
    rw [h]
    rfl
  have added : HashTree.empty.addAll (m.projection root kind) = _ := ht
  rw [load, none, added, ht]
  rfl

/-- Backends without flags that show the same give the same tree. -/
theorem load_congr {m' : Memory} (h : m.errors = ∅) (h' : m'.errors = ∅)
    (same : ∀ k, m'.projected root kind k = m.projected root kind k)
    : m'.load root kind = m.load root kind :=
  load_eq_of_shown (h'.trans h.symm) same

/-- Backends without flags give the same tree just when they show the same. -/
theorem load_eq_iff {m' : Memory} (h : m.errors = ∅) (h' : m'.errors = ∅)
    : m'.load root kind = m.load root kind
      ↔ ∀ k, m'.projected root kind k = m.projected root kind k :=
  ⟨projected_of_load, load_congr h h'⟩

end Memory

end Concord
