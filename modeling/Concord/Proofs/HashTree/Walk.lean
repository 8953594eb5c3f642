import Concord.Proofs.HashTree.ComparisonOrder

/-! Listing a tree finds just the nodes that keys lead to, in the order of their keys. -/

namespace Concord

theorem Forest.walk_eq_flatMap (f : Forest) (key : Key)
    : f.walk key = f.toList.flatMap fun e => e.2.walk (key.child e.1) := by
  induction f using listInduction with
  | nil => rfl
  | cons s child rest ih => simp [walk, toList, ih]

namespace Node

theorem walk_eq (n : Node) (key : Key) : n.walk key = (key, n) :: n.children.walk key := by
  cases n
  rfl

/-- A node is listed with the key of a path exactly when the path leads to it, by induction on
nodes.
-/
theorem mem_walk {n m : Node} {key k : Key} (h : n.Throughout (fun _ x => x.Shaped) key)
    : (k, m) ∈ n.walk key ↔ ∃ path, k = key.below path ∧ n.descend? path = some m := by
  induction n using childInduction generalizing key with
  | step n ih =>
      rw [walk_eq, List.mem_cons, Forest.walk_eq_flatMap, List.mem_flatMap]
      constructor
      · rintro (he | ⟨⟨segment, child⟩, he, hm⟩)
        · cases he
          exact ⟨[], (Key.below_nil k).symm, descend?_nil m⟩
        · have hc := h.top.ordered.mem_toList.mp he
          obtain ⟨path, rfl, hp⟩ := (ih _ he (h.child hc)).mp hm
          exact ⟨segment :: path, Key.below_child key segment path,
            descend?_cons_eq_some.mpr ⟨child, hc, hp⟩⟩
      · rintro ⟨path, rfl, hp⟩
        cases path with
        | nil =>
            rw [descend?_nil, Option.some.injEq] at hp
            exact .inl (by rw [Key.below_nil, hp])
        | cons segment rest =>
            obtain ⟨child, hc, hp⟩ := descend?_cons_eq_some.mp hp
            have he := h.top.ordered.mem_toList.mpr hc
            refine .inr ⟨(segment, child), he, (ih _ he (h.child hc)).mpr ⟨rest, ?_, hp⟩⟩
            exact (Key.below_child key segment rest).symm

/-- The keys of a walk: that of the node, then those of the children's walks. -/
theorem map_fst_walk (n : Node) (key : Key)
    : (n.walk key).map Prod.fst
      = key :: n.children.toList.flatMap fun e => (e.2.walk (key.child e.1)).map Prod.fst := by
  rw [walk_eq, List.map_cons, Forest.walk_eq_flatMap, List.map_flatMap]

/-- A walk stays below its key, by induction on nodes. -/
theorem walk_under (n : Node) (key : Key) : key.Under ((n.walk key).map Prod.fst) := by
  induction n using childInduction generalizing key with
  | step n ih =>
      rw [map_fst_walk, ← List.singleton_append]
      exact key.under_singleton.append (Key.under_flatMap fun e he => ih e he _)

/-- The keys of a walk are related like those above and beside each other, by induction on nodes. -/
theorem pairwise_walk {r : Key → Key → Prop} (hr : Key.Walks r) {n : Node} (hn : n.AllShaped)
    (key : Key)
    : ((n.walk key).map Prod.fst).Pairwise r := by
  induction n using childInduction generalizing key with
  | step n ih =>
      have under (e : String × Node) := e.2.walk_under (key.child e.1)
      rw [map_fst_walk, ← List.singleton_append]
      refine hr.before (.inr rfl) (Key.reached_flatMap under)
        (hn.top.ordered.pairwise_flatMap hr under ?_)
      intro segment child hc
      exact ih (segment, child) (hn.top.ordered.mem_toList.mpr hc) (hn.child hc) _

end Node

namespace HashTree

/-- The nodes of a tree are those its keys lead to. -/
theorem Shaped.mem_nodes {t : HashTree} (h : t.Shaped) {k : Key} {n : Node}
    : (k, n) ∈ t.nodes ↔ t.find? k = some n := by
  rw [nodes, find?_eq_some_iff]
  cases hr : t.root with
  | none => simp
  | some r =>
      obtain ⟨root, r⟩ := r
      simp only [Option.some.injEq, Prod.mk.injEq]
      rw [Node.mem_walk (h root r hr).2]
      constructor
      · rintro ⟨path, hk, hd⟩
        exact ⟨root, r, path, ⟨rfl, rfl⟩, hk, hd⟩
      · rintro ⟨_, _, path, ⟨rfl, rfl⟩, hk, hd⟩
        exact ⟨path, hk, hd⟩

theorem mem_nodes {t : HashTree} (h : t.WellFormed) {k : Key} {n : Node}
    : (k, n) ∈ t.nodes ↔ t.find? k = some n :=
  Shaped.mem_nodes h.shaped

/-- The nodes of a tree are listed on one walk. -/
theorem pairwise_nodes {r : Key → Key → Prop} (hr : Key.Walks r) {t : HashTree} (h : t.Shaped)
    : (t.nodes.map Prod.fst).Pairwise r := by
  rw [nodes]
  cases ht : t.root with
  | none => exact .nil
  | some top => exact Node.pairwise_walk hr (h top.1 top.2 ht).2 ⟨[top.1]⟩

end HashTree

end Concord
