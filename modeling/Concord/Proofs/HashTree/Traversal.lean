import Mathlib.Data.List.Sort
import Concord.Proofs.HashTree.Difference

/-! The listings of a tree. Main statement: its nodes are listed once each in the order of their
keys, and every selection of keys takes those that hold something and meet its condition, in that
order.
-/

namespace Concord

-----------------------------------------------------------------------------------------
-- Ascending lists of keys
-----------------------------------------------------------------------------------------

namespace Key

/-- The keys stand in strictly ascending order, so once each. -/
def Ascending (l : List Key) : Prop :=
  l.Pairwise fun a b => compare a b = .lt

theorem Ascending.nodup {l : List Key} (h : Ascending l) : l.Nodup :=
  h.imp fun hlt => by
    rintro rfl
    simp [Std.ReflCmp.compare_self] at hlt

/-- Of two ascending lists, one whose keys are in the other is a part of it in order. -/
theorem Ascending.sublist {l m : List Key} (hl : Ascending l) (hm : Ascending m) (h : l ⊆ m)
    : l.Sublist m := by
  have antisymm : Std.Antisymm fun a b : Key => compare a b = .lt := by
    refine ⟨fun a b hab hba => ?_⟩
    rw [Std.OrientedCmp.gt_of_lt hab] at hba
    cases hba
  exact List.sublist_of_subperm_of_pairwise (List.subperm_of_subset hl.nodup h) hl hm

end Key

-----------------------------------------------------------------------------------------
-- Open stretches
-----------------------------------------------------------------------------------------

/-- A path is live when it leads to a node that holds something and no node on it is flagged. -/
theorem Node.live_iff {n : Node} {path : List String}
    : n.Live path
      ↔ (∃ m, n.descend? path = some m ∧ m.isDummy = false)
        ∧ ∀ p rest, path = p ++ rest → ∀ m, n.descend? p = some m → m.isError = false := by
  constructor
  · rintro ⟨m, hm, held, unflagged, above⟩
    refine ⟨⟨m, hm, held⟩, ?_⟩
    intro p rest hp x hx
    cases rest with
    | nil =>
        obtain rfl : path = p := by simpa using hp
        cases hm.symm.trans hx
        exact unflagged
    | cons segment rest => exact openAbove_iff.mp above p segment rest hp x hx
  · rintro ⟨⟨m, hm, held⟩, unflagged⟩
    refine ⟨m, hm, held, unflagged path [] (by simp) m hm, openAbove_iff.mpr ?_⟩
    intro p segment rest hp
    exact unflagged p (segment :: rest) hp

namespace HashTree

variable {t : HashTree} {j k : Key} {n m : Node}

/-- From a node on, looking a key up is following its path. -/
theorem find?_below_of_find? (h : t.find? k = some n) (path : List String)
    : t.find? (k.below path) = n.descend? path := by
  obtain ⟨root, r, p, hr, rfl, hd⟩ := find?_eq_some_iff.mp h
  have whole := find?_below hr (p ++ path)
  rw [Node.descend?_append, hd, Option.bind_some] at whole
  simpa [Key.below] using whole

/-- Above a node stands a node at every key but the empty one. -/
theorem exists_find?_of_below {path : List String} (hk : k.isEmpty = false)
    (h : t.find? (k.below path) = some m)
    : ∃ n, t.find? k = some n := by
  obtain ⟨root, r, p, hr, he, hd⟩ := find?_eq_some_iff.mp h
  obtain ⟨_ | ⟨segment, rest⟩⟩ := k
  · cases hk
  · obtain ⟨rfl, rfl⟩ : segment = root ∧ rest ++ path = p := by simpa [Key.below] using he
    rw [Node.descend?_append] at hd
    obtain ⟨n, hn, -⟩ := Option.bind_eq_some_iff.mp hd
    exact ⟨n, find?_eq_some_iff.mpr ⟨segment, r, rest, hr, rfl, hn⟩⟩

theorem isEmpty_of_find? (h : t.find? k = some n) : k.isEmpty = false := by
  obtain ⟨root, r, path, -, rfl, -⟩ := find?_eq_some_iff.mp h
  rfl

/-- Below every node of a tree in shape, all nodes are. -/
theorem Shaped.allShaped (h : t.Shaped) (found : t.find? k = some n) : n.AllShaped := by
  obtain ⟨root, r, path, hr, -, hd⟩ := find?_eq_some_iff.mp found
  exact (h root r hr).2.descend hd

/-- The key has a node that is no dummy. -/
def Holds (t : HashTree) (k : Key) : Prop :=
  ∃ n, t.find? k = some n ∧ n.isDummy = false

/-- No node is flagged at `top`, at `k`, or at a key between them. -/
def OpenFrom (t : HashTree) (top k : Key) : Prop :=
  ∀ a n, top.contains a = true → a.contains k = true → t.find? a = some n → n.isError = false

/-- From a node on, live paths are those to keys that hold something with no flag on the way. -/
theorem live_iff_openFrom (h : t.find? k = some n) {path : List String}
    : n.Live path ↔ t.Holds (k.below path) ∧ t.OpenFrom k (k.below path) := by
  rw [Node.live_iff, Holds, find?_below_of_find? h]
  refine and_congr_right fun _ => ⟨?_, ?_⟩
  · intro unflagged a m above below hm
    obtain ⟨p, rfl⟩ := Key.contains_iff.mp above
    obtain ⟨rest, he⟩ := Key.contains_iff.mp below
    have hp : path = p ++ rest := by simpa [Key.below] using he
    exact unflagged p rest hp m (find?_below_of_find? h p ▸ hm)
  · rintro unflagged p rest rfl m hm
    refine unflagged (k.below p) m (Key.contains_iff.mpr ⟨p, rfl⟩)
      (Key.contains_iff.mpr ⟨rest, ?_⟩) ((find?_below_of_find? h p).trans hm)
    simp [Key.below]

-----------------------------------------------------------------------------------------
-- Selections
-----------------------------------------------------------------------------------------

/-- The value of a tag at a key. -/
def tag? (t : HashTree) (k : Key) (name : String) : Option String :=
  (t.find? k).bind fun n => n.content.metadata[name]?

/-- The list is the part of the tree's keys that meets a condition, in the order of the keys. -/
structure Selects (t : HashTree) (l : List Key) (p : Key → Prop) : Prop where
  sublist : l.Sublist t.keys
  mem : ∀ k, k ∈ l ↔ t.Holds k ∧ p k

theorem ascending_nodes (h : t.Shaped) : Key.Ascending (t.nodes.map Prod.fst) :=
  pairwise_nodes Key.walks_lt h

theorem mem_select (h : t.Shaped) {p : Node → Bool}
    : k ∈ t.select p ↔ ∃ n, t.find? k = some n ∧ n.isDummy = false ∧ p n = true := by
  simp only [select, List.mem_map, List.mem_filter, Bool.and_eq_true, Bool.not_eq_true']
  constructor
  · rintro ⟨⟨_, n⟩, ⟨listed, held, meets⟩, rfl⟩
    exact ⟨n, h.mem_nodes.mp listed, held, meets⟩
  · rintro ⟨n, found, held, meets⟩
    exact ⟨(k, n), ⟨h.mem_nodes.mpr found, held, meets⟩, rfl⟩

/-- A selection is a part of the listing of all nodes. -/
theorem select_sublist (t : HashTree) (p : Node → Bool)
    : (t.select p).Sublist (t.nodes.map Prod.fst) :=
  List.filter_sublist.map Prod.fst

theorem ascending_select (h : t.Shaped) (p : Node → Bool) : Key.Ascending (t.select p) :=
  List.Pairwise.sublist (t.select_sublist p) (ascending_nodes h)

theorem mem_keys (h : t.Shaped) : k ∈ t.keys ↔ t.Holds k := by
  simp [keys, mem_select h, Holds]

/-- An ascending list selects a condition when it lists the keys that meet it. -/
theorem Selects.of_ascending (h : t.Shaped) {l : List Key} {p : Key → Prop}
    (ascending : Key.Ascending l) (mem : ∀ k, k ∈ l ↔ t.Holds k ∧ p k)
    : t.Selects l p where
  sublist := by
    refine Key.Ascending.sublist ascending (ascending_select h _) fun k hk => ?_
    exact (mem_keys h).mpr ((mem k).mp hk).1
  mem := mem

/-- A selection by the node at a key. -/
theorem selects_select (h : t.Shaped) {p : Node → Bool} {q : Key → Prop}
    (hq : ∀ k n, t.find? k = some n → (p n = true ↔ q k))
    : t.Selects (t.select p) q := by
  refine .of_ascending h (ascending_select h p) fun k => ?_
  rw [mem_select h, Holds]
  constructor
  · rintro ⟨n, found, held, meets⟩
    exact ⟨⟨n, found, held⟩, (hq k n found).mp meets⟩
  · rintro ⟨⟨n, found, held⟩, meets⟩
    exact ⟨n, found, held, (hq k n found).mpr meets⟩

theorem ascending_subtreeKeys (h : t.Shaped) (k : Key) : Key.Ascending (t.subtreeKeys k) := by
  rw [subtreeKeys]
  cases found : t.find? k with
  | none => exact .nil
  | some n => exact Node.pairwise_liveKeys Key.walks_lt (h.allShaped found) k

/-- The keys of a subtree, by the node at its top: what is collected below it are the live paths
from it. The empty key contains every key but has no node.
-/
theorem mem_subtreeKeys (h : t.Shaped)
    : j ∈ t.subtreeKeys k
      ↔ t.Holds j ∧ k.isEmpty = false ∧ k.contains j = true ∧ t.OpenFrom k j := by
  rw [subtreeKeys]
  cases found : t.find? k with
  | none =>
      constructor
      · intro listed
        cases listed
      · rintro ⟨⟨m, hm, -⟩, nonempty, below, -⟩
        obtain ⟨path, rfl⟩ := Key.contains_iff.mp below
        obtain ⟨n, hn⟩ := exists_find?_of_below nonempty hm
        cases found.symm.trans hn
  | some n =>
      have live (path : List String) : k.below path ∈ n.liveKeys k ↔ n.Live path :=
        Node.mem_liveKeys (h.allShaped found)
      constructor
      · intro listed
        obtain ⟨path, rfl⟩ := n.liveKeys_under k j listed
        obtain ⟨held, unflagged⟩ := (live_iff_openFrom found).mp ((live path).mp listed)
        exact ⟨held, isEmpty_of_find? found, Key.contains_iff.mpr ⟨path, rfl⟩, unflagged⟩
      · rintro ⟨held, -, below, unflagged⟩
        obtain ⟨path, rfl⟩ := Key.contains_iff.mp below
        exact (live path).mpr ((live_iff_openFrom found).mpr ⟨held, unflagged⟩)

/-- Below a key without a node, or with a flagged one, nothing is listed. -/
theorem subtreeKeys_eq_nil (h : ∀ n, t.find? k = some n → n.isError = true)
    : t.subtreeKeys k = [] := by
  rw [subtreeKeys]
  cases found : t.find? k with
  | none => rfl
  | some n =>
      dsimp only
      rw [Node.liveKeys_eq, h n found, if_pos rfl]

-----------------------------------------------------------------------------------------
-- Main statement
-----------------------------------------------------------------------------------------

/-- A tree lists every node that a key leads to, once, in strictly ascending order of the keys, and
so no node after one below it. The keys that hold something, those with a tag of some value, those
without a tag, and those of a subtree are selected in this order; of a subtree, these are the keys
at or below its top with no flag from the top down to them.
-/
theorem listings_spec (h : t.Shaped)
    : (∀ k n, (k, n) ∈ t.nodes ↔ t.find? k = some n)
      ∧ Key.Ascending (t.nodes.map Prod.fst)
      ∧ (t.nodes.Pairwise fun a b => b.1.isAncestorOf a.1 = false)
      ∧ t.keys.Sublist (t.nodes.map Prod.fst)
      ∧ (∀ k, k ∈ t.keys ↔ t.Holds k)
      ∧ (∀ name value, t.Selects (t.keysTagged name value) fun k => t.tag? k name = some value)
      ∧ (∀ name, t.Selects (t.keysUntagged name) fun k => t.tag? k name = none)
      ∧ ∀ k,
          t.Selects (t.subtreeKeys k)
            (fun j => k.isEmpty = false ∧ k.contains j = true ∧ t.OpenFrom k j)
          ∧ ((∀ n, t.find? k = some n → n.isError = true) → t.subtreeKeys k = []) := by
  refine ⟨fun k n => h.mem_nodes, ascending_nodes h, ?_, t.select_sublist _,
    fun k => mem_keys h, ?_, ?_, ?_⟩
  · refine (List.pairwise_map.mp (pairwise_nodes Key.walks_not_contained h)).imp ?_
    exact Key.not_isAncestorOf_of_not_contains
  · intro name value
    refine selects_select h fun k n found => ?_
    rw [tag?, found, Option.bind_some, decide_eq_true_iff]
  · intro name
    refine selects_select h fun k n found => ?_
    rw [tag?, found, Option.bind_some, Std.ExtTreeMap.contains_eq_isSome_getElem?,
      Bool.not_eq_true', Option.isSome_eq_false_iff, Option.isNone_iff_eq_none]
  · intro k
    exact ⟨.of_ascending h (ascending_subtreeKeys h k) fun j => mem_subtreeKeys h,
      subtreeKeys_eq_nil⟩

/-- What stands in the tree before a flag is set. -/
def entries : List (Key × Attributes) :=
  [(⟨["r", "c", "d"]⟩, ∅), (⟨["r", "a", "b"]⟩, ∅), (⟨["r", "a"]⟩, ∅)]

/-- The tree of the entries, with a flag at the dummy `r/c`. -/
def shadowed : HashTree :=
  (((∅ : HashTree).addAll entries).1.change? (fun c => { c with error := true })
    ⟨["r", "c"]⟩).getD ∅

theorem shaped_shadowed : shadowed.Shaped := by
  have start : ((∅ : HashTree).addAll entries).1.Shaped :=
    throughout_empty.addAll Node.stable_shaped.toGrown entries
  rw [shadowed]
  cases flagged : change? _ _ _ with
  | none => exact throughout_empty
  | some u => exact start.change Node.stable_shaped (fun _ _ h => h.withContent _ _) flagged

/-- What the flag at `r/c` shadows is a key of the tree, but not of the subtrees at or above it. -/
theorem listings_spec_shadowed
    : shadowed.Shaped
      ∧ ⟨["r", "c", "d"]⟩ ∈ shadowed.keys
      ∧ ⟨["r", "c", "d"]⟩ ∉ shadowed.subtreeKeys ⟨["r"]⟩
      ∧ shadowed.subtreeKeys ⟨["r", "c"]⟩ = [] := by
  have holds : (shadowed.find? ⟨["r", "c", "d"]⟩).any (fun n => !n.isDummy) = true := by
    decide +kernel
  have flag : (shadowed.find? ⟨["r", "c"]⟩).any Node.isError = true := by
    decide +kernel
  obtain ⟨n, found, held⟩ := (Option.any_eq_true _ _).mp holds
  obtain ⟨m, top, flagged⟩ := (Option.any_eq_true _ _).mp flag
  obtain ⟨-, -, -, -, keys, -, -, subtrees⟩ := listings_spec shaped_shadowed
  refine ⟨shaped_shadowed, ?_, ?_, ?_⟩
  · exact (keys _).mpr ⟨n, found, by simpa using held⟩
  · intro listed
    obtain ⟨-, -, -, unflagged⟩ := ((subtrees ⟨["r"]⟩).1.mem _).mp listed
    have plain := unflagged ⟨["r", "c"]⟩ m rfl rfl top
    rw [flagged] at plain
    cases plain
  · refine (subtrees ⟨["r", "c"]⟩).2 fun x hx => ?_
    cases top.symm.trans hx
    exact flagged

end HashTree

end Concord
