import Concord.Proofs.HashTree.LiveMap

/-! Trees that follow a stream of changes. Such a tree keeps its one root, takes every change of
that root, and its map changes as the stream says.
-/

namespace Concord

theorem Key.segments_ne_nil {key : Key} {root : String} (h : key.root? = some root)
    : key.segments ≠ [] := by
  intro hn
  simp [Key.root?, hn] at h

namespace HashTree

variable {t u : HashTree} {key : Key} {root : String}

-----------------------------------------------------------------------------------------
-- The root
-----------------------------------------------------------------------------------------

/-- The tree is empty or has this root. -/
def RootedAt (t : HashTree) (root : String) : Prop :=
  ∀ r, t.root = some r → r.1 = root

theorem rootedAt_empty (root : String) : (∅ : HashTree).RootedAt root :=
  fun _ h => by cases h

/-- A tree of a root holds keys of that root only. -/
theorem RootedAt.root?_of_live? (ht : t.RootedAt root) (held : t.live? key ≠ none)
    : key.root? = some root := by
  rw [live?] at held
  cases hf : t.find? key with
  | none => simp [hf] at held
  | some n =>
      obtain ⟨r, m, path, hr, rfl, -⟩ := find?_eq_some_iff.mp hf
      rw [← ht _ hr]
      rfl

/-- A tree of a root takes every key of that root. -/
theorem addWith_ok (ht : t.RootedAt root) (hk : key.root? = some root) (attributes : Attributes)
    (metadata : Metadata)
    : ∃ u, t.addWith key attributes metadata = .ok u ∧ u.RootedAt root := by
  obtain ⟨segments⟩ := key
  cases segments with
  | nil => simp [Key.root?] at hk
  | cons segment path =>
      have hs : segment = root := by simpa [Key.root?] using hk
      subst hs
      rw [addWith]
      cases hr : t.root with
      | none => exact ⟨_, rfl, fun r h => by cases h; rfl⟩
      | some r =>
          obtain ⟨other, n⟩ := r
          have same : other = segment := ht _ hr
          subst same
          exact ⟨_, if_pos rfl, fun r h => by cases h; rfl⟩

theorem RootedAt.ofRoot {n : Node} {s : String} (h : s = root) : (ofRoot s n).RootedAt root := by
  intro r hr
  rw [HashTree.ofRoot] at hr
  split at hr
  · cases hr
  · cases hr
    exact h

theorem RootedAt.change {f : Content → Content} (ht : t.RootedAt root)
    (h : t.change? f key = some u)
    : u.RootedAt root := by
  rw [change?] at h
  split at h
  · rename_i s n _ _ hr _
    split at h
    · obtain ⟨changed, -, rfl⟩ := Option.map_eq_some_iff.mp h
      exact RootedAt.ofRoot (ht _ hr)
    · cases h
  · cases h

theorem RootedAt.clear (ht : t.RootedAt root) (key : Key) : (t.clear key).RootedAt root := by
  rw [HashTree.clear]
  cases hc : t.change? Content.tombstone key with
  | none => exact ht
  | some u => exact ht.change hc

theorem RootedAt.setError {error : Bool} (ht : t.RootedAt root)
    (h : t.setError key error = .ok u)
    : u.RootedAt root := by
  rw [HashTree.setError] at h
  split at h
  · rename_i v hv
    cases h
    exact ht.change hv
  · cases h

-----------------------------------------------------------------------------------------
-- Changes from a stream
-----------------------------------------------------------------------------------------

end HashTree

/-- What a change makes of the attributes at a key. -/
def TreeEvent.effect (k : Key) (v : Option Attributes) : TreeEvent → Option Attributes
  | .upsert key attributes _ => if k = key then some attributes else v
  | .delete key => if k = key then none else v
  | .markError _ _ => v

/-- A change that puts something into a tree does so below its root. -/
def TreeEvent.Fits (root : String) : TreeEvent → Prop
  | .upsert key _ _ => key.root? = some root
  | .delete _ | .markError _ _ => True

namespace HashTree

variable {t u : HashTree} {root : String}

/-- Changes apply to the map of a tree one by one. -/
theorem live?_apply {e : TreeEvent} (ht : t.Shaped) (hr : e.Fits root)
    (h : t.apply e = .ok u) (k : Key)
    : u.live? k = e.effect k (t.live? k) := by
  cases e with
  | upsert key attributes metadata =>
      exact live?_addWith (Key.segments_ne_nil hr) h k
  | delete key =>
      cases h
      rw [discard_eq_clear, live?_clear ht]
      rfl
  | markError key error => exact live?_setError ht h k

/-- A change that does not fit the tree of its root is one of a flag, without effect on the map. -/
theorem live?_apply_error {e : TreeEvent} {error : TreeError} (ht : t.RootedAt root)
    (hr : e.Fits root) (h : t.apply e = .error error) (k : Key)
    (v : Option Attributes)
    : e.effect k v = v := by
  cases e with
  | upsert key attributes metadata =>
      obtain ⟨u, hu, -⟩ := addWith_ok ht hr attributes metadata
      have same := hu.symm.trans h
      cases same
  | delete key => cases h
  | markError key error => rfl

theorem RootedAt.apply {e : TreeEvent} (ht : t.RootedAt root) (hr : e.Fits root)
    (h : t.apply e = .ok u)
    : u.RootedAt root := by
  cases e with
  | upsert key attributes metadata =>
      obtain ⟨v, hv, rooted⟩ := addWith_ok ht hr attributes metadata
      have same := hv.symm.trans h
      cases same
      exact rooted
  | delete key =>
      cases h
      rw [discard_eq_clear]
      exact ht.clear key
  | markError key error => exact ht.setError h

theorem Throughout.apply {p : Key → Node → Prop} (hp : Node.Stable p) {e : TreeEvent}
    (ht : t.Throughout p) (h : t.apply e = .ok u)
    : u.Throughout p := by
  cases e with
  | upsert key attributes metadata => exact ht.addWith hp.toGrown h
  | delete key =>
      cases h
      rw [discard_eq_clear]
      exact ht.clear hp key
  | markError key error => exact ht.setError hp h

/-- Entries of one root are all added, and the last one of a key decides, by list induction. -/
theorem addAll_ok {items : List (Key × Attributes)} (ht : t.RootedAt root)
    (hs : ∀ item ∈ items, item.1.root? = some root)
    (hn : items.Pairwise fun a b => a.1 ≠ b.1)
    : ∃ u, t.addAll items = (u, .ok ()) ∧ u.RootedAt root
      ∧ ∀ k, u.live? k = ((items.find? fun item => item.1 = k).map Prod.snd).or (t.live? k) := by
  induction items generalizing t with
  | nil => exact ⟨t, rfl, ht, fun k => rfl⟩
  | cons item rest ih =>
      obtain ⟨key, attributes⟩ := item
      obtain ⟨first, later⟩ := List.pairwise_cons.mp hn
      have hk := hs _ List.mem_cons_self
      obtain ⟨v, hv, rooted⟩ := addWith_ok ht hk attributes ∅
      have step := live?_addWith (Key.segments_ne_nil hk) hv
      obtain ⟨u, hu, ru, lu⟩ :=
        ih rooted (fun item hi => hs item (List.mem_cons_of_mem _ hi)) later
      refine ⟨u, ?_, ru, fun k => ?_⟩
      · rw [addAll, HashTree.add, hv]
        exact hu
      · rw [lu k, step k, List.find?_cons]
        by_cases hkk : key = k
        · subst hkk
          have absent : rest.find? (fun item => item.1 = key) = none := by
            rw [List.find?_eq_none]
            intro item hi
            simpa using (first item hi).symm
          simp [absent]
        · simp [hkk, Ne.symm hkk]

end HashTree

end Concord
