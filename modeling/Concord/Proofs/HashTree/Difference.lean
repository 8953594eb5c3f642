import Mathlib.Data.List.Dedup
import Concord.Proofs.HashTree.Pruning
import Concord.Proofs.HashTree.Walk

/-! The difference of two trees. Main statement: it is their node-by-node comparison, and which
keys it lists, in which order, is decided by the nodes at a key and the flags above it.
-/

namespace Concord

namespace Key

theorem isAncestorOf_iff {j k : Key}
    : j.isAncestorOf k ↔ ∃ segment rest, k = j.below (segment :: rest) := by
  rw [isAncestorOf, Bool.and_eq_true, contains_iff, decide_eq_true_iff]
  constructor
  · rintro ⟨depth, path, rfl⟩
    cases path with
    | nil => simp at depth
    | cons segment rest => exact ⟨segment, rest, rfl⟩
  · rintro ⟨segment, rest, rfl⟩
    exact ⟨by simp [depth, below], _, rfl⟩

/-- A list below a root lists just the keys of a property when it does so along every path. -/
theorem Under.mem_iff {root : Key} {l : List Key} {p : Key → Prop} (hl : root.Under l)
    (hp : ∀ k, p k → ∃ path, k = root.below path)
    (h : ∀ path, root.below path ∈ l ↔ p (root.below path)) (k : Key)
    : k ∈ l ↔ p k := by
  constructor
  · intro hk
    obtain ⟨path, rfl⟩ := hl k hk
    exact (h path).mp hk
  · intro hk
    obtain ⟨path, rfl⟩ := hp k hk
    exact (h path).mpr hk

end Key

/-- Open paths have no flagged node at a proper prefix, by induction on the path. -/
theorem Node.openAbove_iff {n : Node} {path : List String}
    : n.OpenAbove path
      ↔ ∀ p segment rest, path = p ++ segment :: rest →
          ∀ m, n.descend? p = some m → m.isError = false := by
  induction path generalizing n with
  | nil => simp [openAbove_nil]
  | cons s tail ih =>
      rw [openAbove_cons]
      constructor
      · rintro ⟨hn, hc⟩ p segment rest hp m hm
        cases p with
        | nil => simp_all
        | cons s' p =>
            obtain ⟨rfl, rfl⟩ := List.cons_eq_cons.mp hp
            obtain ⟨child, hf, hm⟩ := descend?_cons_eq_some.mp hm
            exact ih.mp (hc child hf) p segment rest rfl m hm
      · intro h
        refine ⟨h [] s tail rfl n (descend?_nil n), fun child hf => ih.mpr ?_⟩
        rintro p segment rest rfl m hm
        exact h (s :: p) segment rest rfl m (descend?_cons_eq_some.mpr ⟨child, hf, hm⟩)

namespace HashTree

/-- No node at a strict ancestor of the key is flagged. -/
def OpenAbove (t : HashTree) (k : Key) : Prop :=
  ∀ a n, a.isAncestorOf k → t.find? a = some n → n.isError = false

/-- Mine holds something at the key, nothing above is flagged on either side, and theirs has
another content there, or no node while mine is not flagged.
-/
def Adds (mine theirs : HashTree) (k : Key) : Prop :=
  ∃ n, mine.find? k = some n ∧ n.isDummy = false ∧ mine.OpenAbove k ∧ theirs.OpenAbove k
    ∧ ((∃ m, theirs.find? k = some m ∧ n.content.compared ≠ m.content.compared)
      ∨ theirs.find? k = none ∧ n.isError = false)

/-- Theirs holds something at the key, nothing above is flagged on either side, and mine has a
dummy there, or no node while theirs is not flagged.
-/
def Removes (mine theirs : HashTree) (k : Key) : Prop :=
  ∃ m, theirs.find? k = some m ∧ m.isDummy = false ∧ mine.OpenAbove k ∧ theirs.OpenAbove k
    ∧ ((∃ n, mine.find? k = some n ∧ n.isDummy = true)
      ∨ mine.find? k = none ∧ m.isError = false)

variable {mine theirs t : HashTree} {k : Key} {root : String} {n m : Node} {path : List String}

theorem openAbove_below (ht : t.root = some (root, n))
    : t.OpenAbove ((⟨[root]⟩ : Key).below path) ↔ n.OpenAbove path := by
  rw [Node.openAbove_iff]
  constructor
  · rintro h p segment rest rfl m hm
    refine h ((⟨[root]⟩ : Key).below p) m (Key.isAncestorOf_iff.mpr ⟨segment, rest, ?_⟩)
      ((find?_below ht p).trans hm)
    simp [Key.below]
  · intro h a m ha hm
    obtain ⟨segment, rest, hk⟩ := Key.isAncestorOf_iff.mp ha
    obtain ⟨root', r, p, hr, rfl, hd⟩ := find?_eq_some_iff.mp hm
    rw [ht] at hr
    cases hr
    exact h p segment rest (by simpa [Key.below] using hk) m hd

/-- A tree with another root, or with none, has nothing at the keys of a root. -/
def Lacks (t : HashTree) (root : String) : Prop :=
  ∀ path, t.find? ((⟨[root]⟩ : Key).below path) = none

theorem lacks_of_none (h : t.root = none) : t.Lacks root := by
  intro path
  simp [find?, h]

theorem lacks_of_ne {other : String} (h : t.root = some (other, m)) (hne : root ≠ other)
    : t.Lacks root :=
  fun path => find?_eq_none_of_root h (by simpa [Key.root?, Key.below] using hne)

theorem Lacks.openAbove (h : t.Lacks root) : t.OpenAbove ((⟨[root]⟩ : Key).below path) := by
  intro a m ha hm
  obtain ⟨segment, rest, hk⟩ := Key.isAncestorOf_iff.mp ha
  obtain ⟨other, r, p, hr, rfl, hd⟩ := find?_eq_some_iff.mp hm
  have same : other = root := by
    have hs := congrArg Key.root? hk
    simpa [Key.root?, Key.below, eq_comm] using hs
  subst same
  have none := h p
  rw [find?_below hr, hd] at none
  cases none

/-- Below a root that theirs lacks, mine adds what is live. -/
theorem adds_of_lacks (hm : mine.root = some (root, n)) (ht : theirs.Lacks root)
    : mine.Adds theirs ((⟨[root]⟩ : Key).below path) ↔ n.Live path := by
  rw [Adds, find?_below hm, openAbove_below hm, ht path, Node.Live]
  simp only [ht.openAbove, reduceCtorEq, false_and, exists_false, false_or, true_and]
  exact exists_congr fun x => by tauto

/-- Below a root that mine lacks, what is live in theirs is removed. -/
theorem removes_of_lacks (hm : mine.Lacks root) (ht : theirs.root = some (root, m))
    : mine.Removes theirs ((⟨[root]⟩ : Key).below path) ↔ m.Live path := by
  rw [Removes, find?_below ht, openAbove_below ht, hm path, Node.Live]
  simp only [hm.openAbove, reduceCtorEq, false_and, exists_false, false_or, true_and]
  exact exists_congr fun x => by tauto

theorem adds_below (hm : mine.root = some (root, n)) (ht : theirs.root = some (root, m))
    : mine.Adds theirs ((⟨[root]⟩ : Key).below path) ↔ n.Adds m path := by
  rw [Adds, find?_below hm, find?_below ht, openAbove_below hm, openAbove_below ht, Node.Adds]
  cases m.descend? path <;> simp

theorem removes_below (hm : mine.root = some (root, n)) (ht : theirs.root = some (root, m))
    : mine.Removes theirs ((⟨[root]⟩ : Key).below path) ↔ n.Removes m path := by
  rw [Removes, find?_below hm, find?_below ht, openAbove_below hm, openAbove_below ht,
    Node.Removes]
  cases n.descend? path <;> simp

theorem Adds.below (h : mine.Adds theirs k) (hm : mine.root = some (root, n))
    : ∃ path, k = (⟨[root]⟩ : Key).below path := by
  obtain ⟨x, hx, -⟩ := h
  obtain ⟨_, _, path, hr, rfl, -⟩ := find?_eq_some_iff.mp hx
  rw [hm] at hr
  cases hr
  exact ⟨path, rfl⟩

theorem Removes.below (h : mine.Removes theirs k) (ht : theirs.root = some (root, m))
    : ∃ path, k = (⟨[root]⟩ : Key).below path := by
  obtain ⟨x, hx, -⟩ := h
  obtain ⟨_, _, path, hr, rfl, -⟩ := find?_eq_some_iff.mp hx
  rw [ht] at hr
  cases hr
  exact ⟨path, rfl⟩

-----------------------------------------------------------------------------------------
-- The comparison of trees
-----------------------------------------------------------------------------------------

/-- Every node of the tree has its children in order. -/
def Ordered (t : HashTree) : Prop :=
  ∀ root n, t.root = some (root, n) → n.AllShaped

theorem WellFormed.ordered (h : t.WellFormed) : t.Ordered :=
  fun root n hr => (h root n hr).2.shaped

/-- A tree without a root adds nothing. -/
theorem not_adds_of_none (h : mine.root = none) : ¬ mine.Adds theirs k := by
  rintro ⟨x, hx, -⟩
  simp [find?, h] at hx

theorem not_removes_of_none (h : theirs.root = none) : ¬ mine.Removes theirs k := by
  rintro ⟨x, hx, -⟩
  simp [find?, h] at hx

/-- What a comparison lists, by cases on the two roots. -/
theorem mem_comparison (hm : mine.Ordered) (ht : theirs.Ordered) (k : Key)
    : (k ∈ (mine.comparison theirs).add ↔ mine.Adds theirs k)
      ∧ (k ∈ (mine.comparison theirs).remove ↔ mine.Removes theirs k) := by
  have live {t : HashTree} {root : String} {n : Node} (h : t.Ordered)
      (hr : t.root = some (root, n)) (path : List String)
      : (⟨[root]⟩ : Key).below path ∈ n.liveKeys ⟨[root]⟩ ↔ n.Live path :=
    Node.mem_liveKeys (h root n hr)
  rw [HashTree.comparison]
  cases hmr : mine.root with
  | none =>
      cases htr : theirs.root with
      | none => simp [not_adds_of_none hmr, not_removes_of_none htr]
      | some r =>
          refine ⟨by simp [not_adds_of_none hmr], ?_⟩
          refine (r.2.liveKeys_under _).mem_iff (fun k h => h.below htr) (fun path => ?_) k
          rw [live ht htr, removes_of_lacks (lacks_of_none hmr) htr]
  | some r =>
      obtain ⟨root, n⟩ := r
      cases htr : theirs.root with
      | none =>
          refine ⟨?_, by simp [not_removes_of_none htr]⟩
          refine (n.liveKeys_under _).mem_iff (fun k h => h.below hmr) (fun path => ?_) k
          rw [live hm hmr, adds_of_lacks hmr (lacks_of_none htr)]
      | some r =>
          obtain ⟨other, m⟩ := r
          by_cases he : root = other
          · subst he
            have under := n.comparison_under m ⟨[root]⟩
            have mem (path : List String) :=
              @Node.mem_comparison n m (hm root n hmr) (ht root m htr) ⟨[root]⟩ path
            simp only [if_true]
            constructor
            · refine under.1.mem_iff (fun k h => h.below hmr) (fun path => ?_) k
              rw [(mem path).1, adds_below hmr htr]
            · refine under.2.mem_iff (fun k h => h.below htr) (fun path => ?_) k
              rw [(mem path).2, removes_below hmr htr]
          · simp only [if_neg he]
            constructor
            · refine (n.liveKeys_under _).mem_iff (fun k h => h.below hmr) (fun path => ?_) k
              rw [live hm hmr, adds_of_lacks hmr (lacks_of_ne htr he)]
            · refine (m.liveKeys_under _).mem_iff (fun k h => h.below htr) (fun path => ?_) k
              rw [live ht htr, removes_of_lacks (lacks_of_ne hmr (Ne.symm he)) htr]

/-- What a comparison adds ascends, and what it removes never follows what is below it. -/
theorem pairwise_comparison (hm : mine.Ordered) (ht : theirs.Ordered)
    : (mine.comparison theirs).add.Pairwise (fun a b => compare a b = .lt)
      ∧ (mine.comparison theirs).remove.Pairwise (fun a b => b.contains a = false) := by
  have up {t : HashTree} {root : String} {n : Node} (h : t.Ordered)
      (hr : t.root = some (root, n)) :=
    Node.pairwise_liveKeys Key.walks_lt (h root n hr) ⟨[root]⟩
  have down {t : HashTree} {root : String} {n : Node} (h : t.Ordered)
      (hr : t.root = some (root, n)) :=
    Node.pairwise_liveKeys Key.walks_not_contained (h root n hr) ⟨[root]⟩
  rw [HashTree.comparison]
  cases hmr : mine.root with
  | none =>
      cases htr : theirs.root with
      | none => exact ⟨.nil, .nil⟩
      | some r => exact ⟨.nil, down ht htr⟩
  | some r =>
      obtain ⟨root, n⟩ := r
      cases htr : theirs.root with
      | none => exact ⟨up hm hmr, .nil⟩
      | some r =>
          obtain ⟨other, m⟩ := r
          by_cases he : root = other
          · simp only [if_pos he]
            exact ⟨Node.pairwise_comparison_add Key.walks_lt (hm root n hmr) (ht other m htr) _,
              Node.pairwise_comparison_remove (hm root n hmr) (ht other m htr) _⟩
          · simp only [if_neg he]
            exact ⟨up hm hmr, down ht htr⟩

-----------------------------------------------------------------------------------------
-- The difference
-----------------------------------------------------------------------------------------

/-- The texts of both trees can be held, and the digest tells the byte strings of their nodes
apart.
-/
structure Distinguishable (mine theirs : HashTree) : Prop where
  storable : mine.Storable ∧ theirs.Storable
  injective : (mine.digested ∪ theirs.digested).InjOn Digest.fingerprint

/-- Beside a tree that is told apart from another one nothing is in the way of the empty tree. -/
theorem Distinguishable.empty (h : mine.Distinguishable theirs) : mine.Distinguishable ∅ where
  storable := ⟨h.storable.1, fun k n hn => by cases hn⟩
  injective := by
    have nothing : (∅ : HashTree).digested ⊆ theirs.digested := by
      rintro bytes ⟨k, n, hn, -⟩
      cases hn
    exact h.injective.mono (Set.union_subset_union_right _ nothing)

theorem WellFormed.within {s : Set (List UInt8)} (h : t.WellFormed) (hs : t.Storable)
    (hd : t.digested ⊆ s) (hr : t.root = some (root, n))
    : n.Throughout (Node.Within s) ⟨[root]⟩ := by
  intro path m hm
  have hf := (find?_below hr path).trans hm
  obtain ⟨segments, attributes⟩ := hs _ m hf
  exact ⟨(h root n hr).2 path m hm, segments, attributes, fun bytes hb => hd ⟨_, m, hf, hb⟩⟩

theorem diff_self (t : HashTree) : t.diff t = {} := by
  rw [diff]
  cases t.root with
  | none => rfl
  | some r => simp [Node.diff_self]

/-- The shortcuts through hashes change nothing. -/
theorem diff_eq_comparison (hm : mine.WellFormed) (ht : theirs.WellFormed)
    (h : mine.Distinguishable theirs)
    : mine.diff theirs = mine.comparison theirs := by
  rw [HashTree.diff, HashTree.comparison]
  cases hmr : mine.root with
  | none => cases htr : theirs.root <;> rfl
  | some r =>
      obtain ⟨root, n⟩ := r
      cases htr : theirs.root with
      | none => rfl
      | some r =>
          obtain ⟨other, m⟩ := r
          by_cases he : root = other
          · subst he
            have inj := h.injective
            generalize hs : mine.digested ∪ theirs.digested = s at inj
            have hn := hm.within h.storable.1 (hs ▸ Set.subset_union_left) hmr
            have ho := ht.within h.storable.2 (hs ▸ Set.subset_union_right) htr
            simp only [if_true]
            exact Node.Within.diff_eq_comparison inj hn ho
          · simp only [if_neg he]

/-- Where hashes tell trees apart, the keys to add are listed in ascending order, and the keys to
remove once each.
-/
theorem ordered_diff (hm : mine.WellFormed) (ht : theirs.WellFormed)
    (h : mine.Distinguishable theirs)
    : (mine.diff theirs).add.Pairwise (fun a b => compare a b = .lt)
      ∧ (mine.diff theirs).remove.Nodup := by
  obtain ⟨add, remove⟩ := pairwise_comparison hm.ordered ht.ordered
  rw [diff_eq_comparison hm ht h]
  exact ⟨add, remove.imp Key.ne_of_not_contains⟩

/-- The difference of two trees that were built is their node-by-node comparison. It lists the
keys to add in ascending order, and the keys to remove once each, every key before those below it.
-/
theorem diff_spec (hm : mine.Built) (ht : theirs.Built) (h : mine.Distinguishable theirs)
    : mine.diff theirs = mine.comparison theirs
      ∧ (∀ k, k ∈ (mine.diff theirs).add ↔ mine.Adds theirs k)
      ∧ (∀ k, k ∈ (mine.diff theirs).remove ↔ mine.Removes theirs k)
      ∧ (mine.diff theirs).add.Pairwise (fun a b => compare a b = .lt)
      ∧ (mine.diff theirs).remove.Nodup
      ∧ (mine.diff theirs).remove.Pairwise (fun a b => b.isAncestorOf a = false) := by
  have mem := mem_comparison hm.wellFormed.ordered ht.wellFormed.ordered
  have order := pairwise_comparison hm.wellFormed.ordered ht.wellFormed.ordered
  rw [diff_eq_comparison hm.wellFormed ht.wellFormed h]
  refine ⟨rfl, fun k => (mem k).1, fun k => (mem k).2, order.1, ?_, ?_⟩
  · exact order.2.imp Key.ne_of_not_contains
  · exact order.2.imp Key.not_isAncestorOf_of_not_contains

/-- Two built trees can be told apart when the byte strings of their nodes, each taken once, have
digests without repetition.
-/
theorem Built.distinguishable (hm : mine.Built) (ht : theirs.Built)
    (storable : ∀ e ∈ mine.nodes ++ theirs.nodes,
      (∀ s ∈ e.1.segments, Encoding.Storable s)
        ∧ Encoding.StorableAttributes e.2.content.attributes)
    (digests : (((mine.nodes ++ theirs.nodes).flatMap fun e => e.2.digested e.1).dedup.map
      Digest.fingerprint).Nodup)
    : mine.Distinguishable theirs := by
  have bytes {t : HashTree} (h : t.Built) {b : List UInt8} (hb : b ∈ t.digested)
      : ∃ e ∈ t.nodes, b ∈ e.2.digested e.1 := by
    obtain ⟨k, n, hn, hb⟩ := hb
    exact ⟨(k, n), (mem_nodes h.wellFormed).mpr hn, hb⟩
  refine ⟨⟨fun k n hn => ?_, fun k n hn => ?_⟩, fun a ha b hb hab => ?_⟩
  · exact storable (k, n) (List.mem_append_left _ ((mem_nodes hm.wellFormed).mpr hn))
  · exact storable (k, n) (List.mem_append_right _ ((mem_nodes ht.wellFormed).mpr hn))
  · refine List.inj_on_of_nodup_map digests (List.mem_dedup.mpr ?_) (List.mem_dedup.mpr ?_) hab
    · rcases ha with ha | ha
      · obtain ⟨e, he, hb⟩ := bytes hm ha
        exact List.mem_flatMap.mpr ⟨e, List.mem_append_left _ he, hb⟩
      · obtain ⟨e, he, hb⟩ := bytes ht ha
        exact List.mem_flatMap.mpr ⟨e, List.mem_append_right _ he, hb⟩
    · rcases hb with hb | hb
      · obtain ⟨e, he, hb⟩ := bytes hm hb
        exact List.mem_flatMap.mpr ⟨e, List.mem_append_left _ he, hb⟩
      · obtain ⟨e, he, hb⟩ := bytes ht hb
        exact List.mem_flatMap.mpr ⟨e, List.mem_append_right _ he, hb⟩

/-- A tree that holds something below a dummy. -/
def desiredTree : HashTree :=
  ((∅ : HashTree).addAll [(⟨["r", "a"]⟩, ∅)]).1

/-- A tree that holds the same and more below and beside it. -/
def fullerTree : HashTree :=
  (desiredTree.addAll [(⟨["r", "a", "x"]⟩, ∅), (⟨["r", "b"]⟩, ∅)]).1

/-- That tree with the key that both hold flagged. -/
def flaggedTree : HashTree :=
  (fullerTree.setError ⟨["r", "a"]⟩ true).toOption.getD ∅

set_option maxRecDepth 100000 in
/-- The flagged key is one to add, since only one side flags it. The key beside it is one to remove,
but neither the one below the flag nor the dummy above is.
-/
theorem diff_spec_drifted
    : desiredTree.diff flaggedTree = { add := [⟨["r", "a"]⟩], remove := [⟨["r", "b"]⟩] } := by
  have mine : desiredTree.Built := Built.empty.included _
  have flagged : fullerTree.setError ⟨["r", "a"]⟩ true = .ok flaggedTree := rfl
  have theirs : flaggedTree.Built := (mine.included _).flagged flagged
  have distinguishable : desiredTree.Distinguishable flaggedTree :=
    mine.distinguishable theirs (by decide +kernel) (by decide +kernel)
  obtain ⟨same, -⟩ := diff_spec mine theirs distinguishable
  rw [same]
  decide +kernel

end HashTree

end Concord
