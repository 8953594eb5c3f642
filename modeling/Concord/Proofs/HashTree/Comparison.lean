import Mathlib.Data.List.Pairwise
import Concord.HashTree.Diff
import Concord.Proofs.Encoding
import Concord.Proofs.HashTree.Invariants

/-! The node-by-node comparison of two trees, without any use of hashes. Main statements: which
keys it adds and removes, and the order in which it lists them.
-/

namespace Concord

-----------------------------------------------------------------------------------------
-- The comparison
-----------------------------------------------------------------------------------------

/-- What two contents at one key need: the key is added where they differ and mine holds
something, and removed where only theirs does.
-/
def Content.comparison (key : Key) (mine theirs : Content) : TreeDiff :=
  if mine.compared = theirs.compared then {}
  else if !mine.dummy then { add := [key] }
  else if !theirs.dummy then { remove := [key] }
  else {}

mutual
/-- The comparison of two nodes at one key: nothing below a flagged node is looked at. -/
def Node.comparison (key : Key) : Node → Node → TreeDiff
  | .mk content _ _ children, theirs =>
      content.comparison key theirs.content ++
        if content.error || theirs.isError then {}
        else children.comparison key theirs.children
          ++ { remove := theirs.children.unmatchedKeys key children }
/-- The comparison of the children of the node at `key` with those of the same segments. -/
def Forest.comparison (key : Key) : Forest → Forest → TreeDiff
  | .nil, _ => {}
  | .cons segment child rest, theirs =>
      (match theirs.find? segment with
        | none => { add := child.liveKeys (key.child segment) }
        | some other => child.comparison (key.child segment) other)
        ++ rest.comparison key theirs
end

/-- The comparison of two trees, node by node. -/
def HashTree.comparison (mine theirs : HashTree) : TreeDiff :=
  match mine.root, theirs.root with
  | none, none => {}
  | some (root, n), none => { add := n.liveKeys ⟨[root]⟩ }
  | none, some (root, n) => { remove := n.liveKeys ⟨[root]⟩ }
  | some (root, n), some (other, m) =>
      if root = other then n.comparison ⟨[root]⟩ m
      else { add := n.liveKeys ⟨[root]⟩, remove := m.liveKeys ⟨[other]⟩ }

namespace TreeDiff

@[simp]
theorem add_append (d e : TreeDiff) : (d ++ e).add = d.add ++ e.add :=
  rfl

@[simp]
theorem remove_append (d e : TreeDiff) : (d ++ e).remove = d.remove ++ e.remove :=
  rfl

@[ext]
theorem ext' {d e : TreeDiff} (ha : d.add = e.add) (hr : d.remove = e.remove) : d = e := by
  cases d
  cases e
  simp_all

end TreeDiff

-----------------------------------------------------------------------------------------
-- Children as a list
-----------------------------------------------------------------------------------------

mutual
/-- Induction on nodes through their children. -/
theorem Node.childInduction {motive : Node → Prop}
    (step : ∀ n, (∀ e ∈ n.children.toList, motive e.2) → motive n)
    : ∀ n, motive n
  | .mk content partialHash fullHash children =>
      step (.mk content partialHash fullHash children)
        (Forest.childInduction step children)
/-- The children of a forest under induction on nodes. -/
theorem Forest.childInduction {motive : Node → Prop}
    (step : ∀ n, (∀ e ∈ n.children.toList, motive e.2) → motive n)
    : ∀ f : Forest, ∀ e ∈ f.toList, motive e.2
  | .nil, e, h => by simp [Forest.toList] at h
  | .cons segment child rest, e, h => by
      rcases List.mem_cons.mp (by rwa [Forest.toList] at h) with rfl | h
      · exact Node.childInduction step child
      · exact Forest.childInduction step rest e h
end

namespace Forest

theorem Ordered.mem_toList {f : Forest} (h : f.Ordered) {segment : String} {n : Node}
    : (segment, n) ∈ f.toList ↔ f.find? segment = some n := by
  induction f using listInduction with
  | nil => simp [toList, find?]
  | cons s child rest ih =>
      by_cases hs : s = segment
      · subst hs
        have hn : (s, n) ∉ rest.toList := by
          intro hm
          exact h.head_not_mem (List.mem_map.mpr ⟨(s, n), hm, rfl⟩)
        simp [toList, find?, hn, eq_comm]
      · simp [toList, find?, hs, Ne.symm hs, ih h.tail]

/-- The children stand in ascending order. -/
theorem Ordered.pairwise_toList {f : Forest} (h : f.Ordered)
    : f.toList.Pairwise fun a b => compare a.1 b.1 = .lt :=
  List.pairwise_map.mp h

theorem liveKeys_eq_flatMap (f : Forest) (key : Key)
    : f.liveKeys key = f.toList.flatMap fun e => e.2.liveKeys (key.child e.1) := by
  induction f using listInduction with
  | nil => rfl
  | cons s child rest ih => simp [liveKeys, toList, ih]

theorem unmatchedKeys_eq_flatMap (f others : Forest) (key : Key)
    : f.unmatchedKeys key others
      = f.toList.flatMap fun e =>
          if (others.find? e.1).isNone then e.2.liveKeys (key.child e.1) else [] := by
  induction f using listInduction with
  | nil => rfl
  | cons s child rest ih => simp [unmatchedKeys, toList, ih]

/-- What one child needs against a forest. -/
def pairing (key : Key) (theirs : Forest) (e : String × Node) : TreeDiff :=
  match theirs.find? e.1 with
  | none => { add := e.2.liveKeys (key.child e.1) }
  | some other => e.2.comparison (key.child e.1) other

theorem comparison_add (f theirs : Forest) (key : Key)
    : (f.comparison key theirs).add = f.toList.flatMap fun e => (pairing key theirs e).add := by
  induction f using listInduction with
  | nil => simp [comparison, toList]
  | cons s child rest ih =>
      rw [comparison, TreeDiff.add_append, ih, toList, List.flatMap_cons]
      rfl

theorem comparison_remove (f theirs : Forest) (key : Key)
    : (f.comparison key theirs).remove
      = f.toList.flatMap fun e => (pairing key theirs e).remove := by
  induction f using listInduction with
  | nil => simp [comparison, toList]
  | cons s child rest ih =>
      rw [comparison, TreeDiff.remove_append, ih, toList, List.flatMap_cons]
      rfl

end Forest

namespace Node

theorem liveKeys_eq (n : Node) (key : Key)
    : n.liveKeys key
      = if n.isError then []
        else (if n.isDummy then [] else [key]) ++ n.children.liveKeys key := by
  cases n
  rfl

theorem comparison_eq (n theirs : Node) (key : Key)
    : n.comparison key theirs
      = n.content.comparison key theirs.content ++
        if n.isError || theirs.isError then {}
        else n.children.comparison key theirs.children
          ++ { remove := theirs.children.unmatchedKeys key n.children } := by
  cases n
  rw [comparison]
  rfl

end Node

-----------------------------------------------------------------------------------------
-- Keys that are listed below a key
-----------------------------------------------------------------------------------------

/-- Every key of the list is reached from `key`. -/
def Key.Under (key : Key) (l : List Key) : Prop :=
  ∀ k ∈ l, ∃ path, k = key.below path

namespace Key

/-- What is below a child is below its parent. -/
theorem Under.of_child {key : Key} {segment : String} {l : List Key}
    (h : (key.child segment).Under l)
    : ∀ k ∈ l, ∃ path, k = key.below (segment :: path) := by
  intro k hk
  obtain ⟨path, rfl⟩ := h k hk
  exact ⟨path, below_child key segment path⟩

/-- Lists below the children of a key, put together. -/
theorem under_flatMap {key : Key} {l : List (String × Node)} {g : String × Node → List Key}
    (h : ∀ e ∈ l, (key.child e.1).Under (g e))
    : key.Under (l.flatMap g) := by
  intro k hk
  obtain ⟨e, he, hk⟩ := List.mem_flatMap.mp hk
  obtain ⟨path, hp⟩ := (h e he).of_child k hk
  exact ⟨_, hp⟩

theorem under_nil (key : Key) : key.Under [] := by
  intro k hk
  simp at hk

theorem under_singleton (key : Key) : key.Under [key] := by
  intro k hk
  exact ⟨[], by simpa using hk⟩

theorem under_own {key : Key} {l : List Key} (h : l = [] ∨ l = [key]) : key.Under l := by
  rcases h with rfl | rfl
  · exact key.under_nil
  · exact key.under_singleton

theorem not_mem_own {key : Key} {l : List Key} (h : l = [] ∨ l = [key]) (segment : String)
    (rest : List String)
    : key.below (segment :: rest) ∉ l := by
  have hk : key.below (segment :: rest) ≠ key := by
    intro he
    have hl := congrArg (fun k => k.segments.length) he
    simp [below] at hl
  rcases h with rfl | rfl <;> simp [hk]

theorem Under.append {key : Key} {l m : List Key} (hl : key.Under l) (hm : key.Under m)
    : key.Under (l ++ m) := by
  intro k hk
  rcases List.mem_append.mp hk with hk | hk
  · exact hl k hk
  · exact hm k hk

end Key

/-- Live keys lie below the key they are collected from, by induction on nodes. -/
theorem Node.liveKeys_under (n : Node) (key : Key) : key.Under (n.liveKeys key) := by
  induction n using Node.childInduction generalizing key with
  | step n ih =>
      rw [liveKeys_eq]
      split
      · exact key.under_nil
      · refine .append ?_ ?_
        · split
          · exact key.under_nil
          · exact key.under_singleton
        · rw [Forest.liveKeys_eq_flatMap]
          exact Key.under_flatMap fun e he => ih e he _

theorem Content.comparison_own (key : Key) (mine theirs : Content)
    : ((mine.comparison key theirs).add = [] ∨ (mine.comparison key theirs).add = [key])
      ∧ ((mine.comparison key theirs).remove = []
        ∨ (mine.comparison key theirs).remove = [key]) := by
  rw [Content.comparison]
  split
  · simp
  · split
    · simp
    · split <;> simp

theorem Forest.unmatchedKeys_under (f others : Forest) (key : Key)
    : key.Under (f.unmatchedKeys key others) := by
  rw [unmatchedKeys_eq_flatMap]
  refine Key.under_flatMap fun e _ => ?_
  split
  · exact e.2.liveKeys_under _
  · exact Key.under_nil _

/-- Both sides of a comparison lie below its key, by induction on nodes. -/
theorem Node.comparison_under (n theirs : Node) (key : Key)
    : key.Under (n.comparison key theirs).add ∧ key.Under (n.comparison key theirs).remove := by
  induction n using Node.childInduction generalizing key theirs with
  | step n ih =>
      have own := (n.content.comparison_own key theirs.content).imp Key.under_own Key.under_own
      have paired : ∀ e ∈ n.children.toList,
          (key.child e.1).Under (Forest.pairing key theirs.children e).add
          ∧ (key.child e.1).Under (Forest.pairing key theirs.children e).remove := by
        intro e he
        rw [Forest.pairing]
        split
        · exact ⟨e.2.liveKeys_under _, Key.under_nil _⟩
        · exact ih e he _ _
      rw [comparison_eq, TreeDiff.add_append, TreeDiff.remove_append]
      split
      · exact ⟨own.1.append key.under_nil, own.2.append key.under_nil⟩
      · simp only [TreeDiff.add_append, TreeDiff.remove_append, Forest.comparison_add,
          Forest.comparison_remove]
        exact ⟨own.1.append ((Key.under_flatMap fun e he => (paired e he).1).append key.under_nil),
          own.2.append ((Key.under_flatMap fun e he => (paired e he).2).append
            (theirs.children.unmatchedKeys_under _ _))⟩

theorem Forest.pairing_under (key : Key) (theirs : Forest) (e : String × Node)
    : (key.child e.1).Under (pairing key theirs e).add
      ∧ (key.child e.1).Under (pairing key theirs e).remove := by
  rw [pairing]
  split
  · exact ⟨e.2.liveKeys_under _, Key.under_nil _⟩
  · exact e.2.comparison_under _ _

end Concord
