import Concord.Proofs.HashTree.Difference
import Concord.Proofs.HashTree.LiveMap

/-! The difference of two trees read off their maps. Without flags a key is added where mine holds
something else than theirs, and removed where only theirs holds anything. Whatever the hashes and
flags are, nothing is removed that mine holds and nothing else is added, so no key is on both sides.
-/

namespace Concord

-----------------------------------------------------------------------------------------
-- What is removed, whatever the hashes are
-----------------------------------------------------------------------------------------

/-- A key is removed at a node only where the contents differ, so this needs no hashes. -/
theorem Node.ownDiff_remove_subset (n m : Node) (key : Key)
    : (n.ownDiff key m).remove ⊆ (n.content.comparison key m.content).remove := by
  rw [ownDiff]
  split
  · simp
  · split
    · simp
    · rename_i mine
      split
      · rename_i theirs
        have differ : n.content.compared ≠ m.content.compared := by
          intro same
          have flags : n.isDummy = m.isDummy := congrArg (fun c => c.2.1) same
          simp_all
        rw [isDummy] at mine theirs
        simp_all [Content.comparison]
      · simp

theorem Forest.diff_remove_subset {f theirs : Forest} {key : Key}
    (h : ∀ e ∈ f.toList, ∀ other,
      (e.2.diff (key.child e.1) other).remove ⊆ (e.2.comparison (key.child e.1) other).remove)
    : (f.diff key theirs).remove ⊆ (f.comparison key theirs).remove := by
  induction f using listInduction with
  | nil => simp [Forest.diff]
  | cons s child rest ih =>
      have others := ih fun e he => h e (List.mem_cons_of_mem _ he)
      rw [Forest.diff, Forest.comparison, TreeDiff.remove_append, TreeDiff.remove_append]
      refine List.append_subset.mpr ⟨List.subset_append_of_subset_left _ ?_,
        List.subset_append_of_subset_right _ others⟩
      cases theirs.find? s with
      | none => simp
      | some other =>
          dsimp only
          split
          · simp
          · exact h (s, child) List.mem_cons_self other

/-- The shortcuts through hashes only leave keys out, by induction on nodes. -/
theorem Node.diff_remove_subset (n m : Node) (key : Key)
    : (n.diff key m).remove ⊆ (n.comparison key m).remove := by
  induction n using childInduction generalizing m key with
  | step n ih =>
      have own := n.ownDiff_remove_subset m key
      have children : (n.children.diff key m.children).remove
          ⊆ (n.children.comparison key m.children).remove :=
        Forest.diff_remove_subset fun e he other => ih e he other _
      rw [diff_eq, comparison_eq, TreeDiff.remove_append, TreeDiff.remove_append]
      refine List.append_subset.mpr ⟨List.subset_append_of_subset_left _ own,
        List.subset_append_of_subset_right _ ?_⟩
      cases n.isError with
      | true => simp
      | false =>
          cases m.isError with
          | true => simp
          | false =>
              by_cases same : n.fullHash = m.fullHash
              · simp [same]
              · simp only [same, Bool.or_self, decide_false, Bool.false_eq_true,
                  if_false, TreeDiff.remove_append]
                exact List.append_subset.mpr ⟨List.subset_append_of_subset_left _ children,
                  List.subset_append_right _ _⟩

namespace HashTree

variable {mine theirs t u : HashTree} {k : Key}

theorem diff_remove_subset (mine theirs : HashTree)
    : (mine.diff theirs).remove ⊆ (mine.comparison theirs).remove := by
  rw [diff, comparison]
  cases mine.root with
  | none => cases theirs.root <;> exact List.Subset.refl _
  | some r =>
      obtain ⟨root, n⟩ := r
      cases theirs.root with
      | none => exact List.Subset.refl _
      | some r =>
          obtain ⟨other, m⟩ := r
          by_cases same : root = other
          · simp only [same, if_true]
            exact n.diff_remove_subset m _
          · simp only [same, if_false]
            exact List.Subset.refl _

/-- A key that is removed is held by theirs and not by mine. -/
theorem live?_of_mem_remove (hm : mine.WellFormed) (ht : theirs.WellFormed)
    (h : k ∈ (mine.diff theirs).remove)
    : mine.live? k = none ∧ theirs.live? k ≠ none := by
  have removes := (mem_comparison hm.ordered ht.ordered k).2.mp (diff_remove_subset _ _ h)
  obtain ⟨m, hf, dummy, -, -, here⟩ := removes
  rw [Node.isDummy] at dummy
  refine ⟨?_, by simp [live?, hf, Content.own?, dummy]⟩
  rcases here with ⟨n, hn, hd⟩ | ⟨hn, -⟩
  · rw [Node.isDummy] at hd
    simp [live?, hn, Content.own?, hd]
  · simp [live?, hn]

-----------------------------------------------------------------------------------------
-- What is added, whatever the hashes are
-----------------------------------------------------------------------------------------

end HashTree

/-- A key is added at a node only where the node holds something. -/
theorem Node.ownDiff_add {n m : Node} {key k : Key} (h : k ∈ (n.ownDiff key m).add)
    : k = key ∧ n.isDummy = false := by
  rw [ownDiff] at h
  split at h
  · cases h
  · split at h
    · rename_i holds
      exact ⟨List.mem_singleton.mp h, by simpa using holds⟩
    · split at h <;> cases h

/-- What children add, one of them lists as live or adds against its counterpart. -/
theorem Forest.mem_diff_add {f theirs : Forest} {key k : Key} (h : k ∈ (f.diff key theirs).add)
    : ∃ e ∈ f.toList, k ∈ e.2.liveKeys (key.child e.1)
        ∨ ∃ other, k ∈ (e.2.diff (key.child e.1) other).add := by
  induction f using listInduction with
  | nil => cases h
  | cons s child rest ih =>
      rw [Forest.diff, TreeDiff.add_append] at h
      rcases List.mem_append.mp h with here | later
      · refine ⟨(s, child), List.mem_cons_self, ?_⟩
        cases found : theirs.find? s with
        | none =>
            rw [found] at here
            exact .inl here
        | some other =>
            simp only [found] at here
            split at here
            · cases here
            · exact .inr ⟨other, here⟩
      · obtain ⟨e, he, held⟩ := ih later
        exact ⟨e, List.mem_cons_of_mem _ he, held⟩

/-- What is live is held. -/
theorem Node.live?_of_mem_liveKeys {n : Node} {key k : Key} (hn : n.AllShaped)
    (h : k ∈ n.liveKeys key)
    : ∃ path, k = key.below path ∧ n.live? path ≠ none := by
  obtain ⟨path, rfl⟩ := n.liveKeys_under _ k h
  obtain ⟨x, hx, holds, -⟩ := (mem_liveKeys hn).mp h
  rw [isDummy] at holds
  exact ⟨path, rfl, by simp [live?, hx, Content.own?, holds]⟩

/-- Every key that is added has a path that leads to what the node holds, by induction on nodes. -/
theorem Node.live?_of_mem_diff_add {n m : Node} {key k : Key} (hn : n.AllShaped)
    (h : k ∈ (n.diff key m).add)
    : ∃ path, k = key.below path ∧ n.live? path ≠ none := by
  induction n using childInduction generalizing m key with
  | step n ih =>
      rw [diff_eq, TreeDiff.add_append] at h
      rcases List.mem_append.mp h with own | below
      · obtain ⟨rfl, holds⟩ := ownDiff_add own
        rw [isDummy] at holds
        exact ⟨[], (Key.below_nil k).symm, by simp [Content.own?, holds]⟩
      · have children : k ∈ (n.children.diff key m.children).add := by
          split at below
          · cases below
          · simpa using below
        obtain ⟨⟨s, child⟩, he, held⟩ := Forest.mem_diff_add children
        have hc := hn.top.ordered.mem_toList.mp he
        have path : ∃ path, k = (key.child s).below path ∧ child.live? path ≠ none := by
          rcases held with live | ⟨other, added⟩
          · exact live?_of_mem_liveKeys (hn.child hc) live
          · exact ih (s, child) he (hn.child hc) added
        obtain ⟨path, rfl, holds⟩ := path
        refine ⟨s :: path, Key.below_child key s path, ?_⟩
        rw [live?_cons, hc]
        exact holds

namespace HashTree

variable {mine theirs t u : HashTree} {k : Key}

/-- A key that is added is held by mine. -/
theorem live?_of_mem_add (hm : mine.WellFormed) (h : k ∈ (mine.diff theirs).add)
    : mine.live? k ≠ none := by
  have listed {root : String} {n : Node} (hr : mine.root = some (root, n))
      (held : ∃ path, k = (⟨[root]⟩ : Key).below path ∧ n.live? path ≠ none)
      : mine.live? k ≠ none := by
    obtain ⟨path, rfl, holds⟩ := held
    rw [live?, find?_below hr]
    exact holds
  rw [diff] at h
  cases hmr : mine.root with
  | none => cases htr : theirs.root <;> simp [hmr, htr] at h
  | some r =>
      obtain ⟨root, n⟩ := r
      refine listed hmr ?_
      cases htr : theirs.root with
      | none =>
          simp only [hmr, htr] at h
          exact Node.live?_of_mem_liveKeys (hm.ordered root n hmr) h
      | some r =>
          obtain ⟨other, m⟩ := r
          simp only [hmr, htr] at h
          split at h
          · exact Node.live?_of_mem_diff_add (hm.ordered root n hmr) h
          · exact Node.live?_of_mem_liveKeys (hm.ordered root n hmr) h

/-- No key is both added and removed. -/
theorem not_mem_remove_of_mem_add (hm : mine.WellFormed) (ht : theirs.WellFormed)
    (h : k ∈ (mine.diff theirs).add)
    : k ∉ (mine.diff theirs).remove :=
  fun removed => live?_of_mem_add hm h (live?_of_mem_remove hm ht removed).1

-----------------------------------------------------------------------------------------
-- Trees without flags
-----------------------------------------------------------------------------------------

/-- No node of the tree is flagged. -/
def Unflagged (t : HashTree) : Prop :=
  ∀ k n, t.find? k = some n → n.isError = false

/-- Growth flags no node. -/
theorem grown_unflagged : Node.Grown fun _ n => n.isError = false where
  fresh := fun _ => rfl
  written := fun h _ _ => h
  inserted := fun h _ _ _ => h

/-- A tree of entries that were added has no flags. -/
theorem unflagged_addAll (items : List (Key × Attributes))
    : ((∅ : HashTree).addAll items).1.Unflagged := by
  intro k n hn
  exact (throughout_empty.addAll grown_unflagged items).find hn

theorem Unflagged.openAbove (h : t.Unflagged) (k : Key) : t.OpenAbove k :=
  fun a n _ hn => h a n hn

/-- A node holds what the map says, unless it is a dummy. -/
theorem live?_eq_of_find? {n : Node} (h : t.find? k = some n)
    : t.live? k = n.content.own? := by
  rw [live?, h]
  rfl

theorem live?_eq_none_of_find? (h : t.find? k = none) : t.live? k = none := by
  rw [live?, h]
  rfl

/-- Unflagged nodes that are compared differ just where their maps differ. -/
theorem compared_ne_iff {n m : Node} (hn : n.isError = false) (hm : m.isError = false)
    (hd : n.isDummy = false)
    : n.content.compared ≠ m.content.compared
      ↔ m.content.own? ≠ some n.content.attributes := by
  rw [Node.isError] at hn hm
  rw [Node.isDummy] at hd
  rw [Content.compared, Content.compared, Content.own?, hn, hm, hd]
  cases m.content.dummy with
  | true => simp
  | false => simp [eq_comm]

/-- What the difference of two unflagged trees lists, by their maps. -/
theorem mem_diff_of_unflagged (hm : mine.WellFormed) (ht : theirs.WellFormed)
    (h : mine.Distinguishable theirs) (fm : mine.Unflagged) (ft : theirs.Unflagged) (k : Key)
    : (k ∈ (mine.diff theirs).add
          ↔ ∃ attributes, mine.live? k = some attributes ∧ theirs.live? k ≠ some attributes)
      ∧ (k ∈ (mine.diff theirs).remove ↔ mine.live? k = none ∧ theirs.live? k ≠ none) := by
  obtain ⟨add, remove⟩ := mem_comparison hm.ordered ht.ordered k
  rw [diff_eq_comparison hm ht h, add, remove, Adds, Removes]
  simp only [fm.openAbove, ft.openAbove, true_and]
  cases hn : mine.find? k with
  | none =>
      rw [live?_eq_none_of_find? hn]
      cases hr : theirs.find? k with
      | none => simp [live?_eq_none_of_find? hr]
      | some m =>
          have error := ft k m hr
          cases hd : m.content.dummy <;>
            simp [live?_eq_of_find? hr, Content.own?, Node.isDummy, hd, error]
  | some n =>
      have error := fm k n hn
      rw [live?_eq_of_find? hn]
      cases hr : theirs.find? k with
      | none =>
          rw [live?_eq_none_of_find? hr]
          cases hd : n.content.dummy <;> simp [Content.own?, Node.isDummy, hd, error]
      | some m =>
          rw [live?_eq_of_find? hr]
          cases hd : n.content.dummy with
          | true =>
              cases he : m.content.dummy <;> simp [Content.own?, Node.isDummy, hd, he]
          | false =>
              have differ := compared_ne_iff error (ft k m hr) hd
              cases he : m.content.dummy <;>
                simp_all [Content.own?, Node.isDummy]

/-- Compared with the empty tree, an unflagged tree loses every key that it holds. -/
theorem mem_remove_of_empty (ht : theirs.WellFormed) (ft : theirs.Unflagged)
    (held : theirs.live? k ≠ none)
    : k ∈ ((∅ : HashTree).diff theirs).remove := by
  have ordered : (∅ : HashTree).Ordered := Built.empty.wellFormed.ordered
  have plain : (∅ : HashTree).diff theirs = (∅ : HashTree).comparison theirs := by
    rw [diff, comparison]
    cases theirs.root <;> rfl
  rw [plain, (mem_comparison ordered ht.ordered k).2]
  cases hn : theirs.find? k with
  | none => exact absurd (live?_eq_none_of_find? hn) held
  | some m =>
      rw [live?_eq_of_find? hn, Content.own?] at held
      have dummy : m.isDummy = false := by
        cases hd : m.content.dummy with
        | false => exact hd
        | true => simp [hd] at held
      refine ⟨m, hn, dummy, ?_, ft.openAbove k, .inr ⟨find?_empty k, ft k m hn⟩⟩
      intro a n _ hf
      rw [find?_empty] at hf
      cases hf

end HashTree

end Concord
