import Mathlib.Data.Set.Function
import Mathlib.Data.List.Forall2
import Concord.Proofs.HashTree.ComparisonOrder

/-! Skipping subtrees whose hashes agree hides nothing, as long as the digest tells the byte
strings of the two trees apart. Equal hashes then mean equal subtrees, by induction on nodes, and
the difference with its shortcuts is the comparison without them.
-/

namespace Concord

-----------------------------------------------------------------------------------------
-- What is digested for a tree
-----------------------------------------------------------------------------------------

/-- The byte strings that are digested for a node: its content, and its subtree if it has
children.
-/
def Node.digested (key : Key) (n : Node) : List (List UInt8) :=
  Encoding.content key n.content
    :: if n.children.isEmpty then []
      else [Encoding.subtree n.partialHash (n.children.toList.map fun e => e.2.fullHash)]

namespace HashTree

/-- The byte strings that are digested for the nodes of a tree. -/
def digested (t : HashTree) : Set (List UInt8) :=
  {bytes | ∃ k n, t.find? k = some n ∧ bytes ∈ n.digested k}

/-- No segment, attribute name or text in the tree is longer than a text in memory may be. -/
def Storable (t : HashTree) : Prop :=
  ∀ k n, t.find? k = some n →
    (∀ s ∈ k.segments, Encoding.Storable s) ∧ Encoding.StorableAttributes n.content.attributes

end HashTree

namespace Node

/-- An intact node whose texts can be held and whose byte strings are in `s`. -/
structure Within (s : Set (List UInt8)) (key : Key) (n : Node) : Prop extends n.Intact key where
  segments : ∀ segment ∈ key.segments, Encoding.Storable segment
  attributes : Encoding.StorableAttributes n.content.attributes
  digested : ∀ bytes ∈ n.digested key, bytes ∈ s

variable {s : Set (List UInt8)} {j k : Key} {n m : Node}

theorem Intact.isHex_partialHash (h : n.Intact k) : Encoding.IsHex n.partialHash := by
  rw [h.partialHash]
  exact Encoding.isHex_fingerprint _

theorem Intact.isHex_fullHash (h : n.Intact k) : Encoding.IsHex n.fullHash := by
  rw [h.fullHash, combine]
  split
  · exact h.isHex_partialHash
  · exact Encoding.isHex_fingerprint _

theorem Within.allShaped (h : n.Throughout (Within s) k) : n.AllShaped :=
  fun path m hm => (h path m hm).toShaped

theorem Throughout.isHex_children (h : n.Throughout Intact k)
    : ∀ d ∈ n.children.toList.map fun e => e.2.fullHash, Encoding.IsHex d := by
  intro d hd
  obtain ⟨e, he, rfl⟩ := List.mem_map.mp hd
  have hc := h.top.ordered.mem_toList.mp he
  exact (h.child hc).top.isHex_fullHash

theorem Within.isDigest_children (h : n.Throughout (Within s) k)
    : ∀ d ∈ n.children.toList.map fun e => e.2.fullHash, Encoding.IsDigest d := by
  have intact : n.Throughout Intact k := h.imp fun _ _ hm => hm.toIntact
  exact fun d hd => (intact.isHex_children d hd).isDigest

-----------------------------------------------------------------------------------------
-- Equal hashes
-----------------------------------------------------------------------------------------

/-- Equal own hashes at one depth come from equal keys and contents. -/
theorem Within.partialHash_inj (hs : s.InjOn Digest.fingerprint) (hn : n.Within s j)
    (hm : m.Within s k) (depth : j.depth = k.depth) (h : n.partialHash = m.partialHash)
    : j = k ∧ n.content.compared = m.content.compared := by
  rw [hn.partialHash, hm.partialHash] at h
  have bytes := hs (hn.digested _ List.mem_cons_self) (hm.digested _ List.mem_cons_self) h
  exact Encoding.content_inj hn.segments hm.segments hn.attributes hm.attributes depth bytes

/-- At one key, the own hash says whether the compared parts of the contents are equal. -/
theorem Within.partialHash_eq_iff (hs : s.InjOn Digest.fingerprint) (hn : n.Within s k)
    (hm : m.Within s k)
    : n.partialHash = m.partialHash ↔ n.content.compared = m.content.compared := by
  constructor
  · intro h
    exact (hn.partialHash_inj hs hm rfl h).2
  · intro h
    rw [hn.partialHash, hm.partialHash, Encoding.content_congr h]

/-- Equal hashes of subtrees have equal own hashes and equal hashes of the children, also where
one side has no children.
-/
theorem Within.fullHash_inj (hs : s.InjOn Digest.fingerprint) (hn : n.Throughout (Within s) j)
    (hm : m.Throughout (Within s) k) (h : n.fullHash = m.fullHash)
    : n.partialHash = m.partialHash
      ∧ n.children.toList.map (fun e => e.2.fullHash)
        = m.children.toList.map fun e => e.2.fullHash := by
  have dn := hn.top.toIntact.isHex_partialHash.isDigest
  have dm := hm.top.toIntact.isHex_partialHash.isDigest
  have subtree {x : Node} {key : Key} (hx : x.Within s key) (he : x.children.isEmpty = false)
      : Encoding.subtree x.partialHash (x.children.toList.map fun e => e.2.fullHash) ∈ s :=
    hx.digested _ (by simp [Node.digested, he])
  rw [hn.top.fullHash, hm.top.fullHash, combine, combine] at h
  cases en : n.children.isEmpty <;> cases em : m.children.isEmpty <;>
    simp only [en, em, Bool.false_eq_true, if_false, if_true] at h
  case true.true =>
    rw [Forest.eq_nil_of_isEmpty en, Forest.eq_nil_of_isEmpty em]
    exact ⟨h, rfl⟩
  case true.false =>
    rw [hn.top.partialHash] at h
    have bytes := hs (hn.top.digested _ List.mem_cons_self) (subtree hm.top em) h
    exact absurd bytes (Encoding.content_ne_subtree dm (isDigest_children hm))
  case false.true =>
    rw [hm.top.partialHash] at h
    have bytes := hs (subtree hn.top en) (hm.top.digested _ List.mem_cons_self) h
    exact absurd bytes.symm (Encoding.content_ne_subtree dn (isDigest_children hn))
  case false.false =>
    have bytes := hs (subtree hn.top en) (subtree hm.top em) h
    exact Encoding.subtree_inj dn dm (isDigest_children hn) (isDigest_children hm) bytes

/-- The same paths lead to nodes in both subtrees, with contents equal up to their tags. -/
def Alike (n m : Node) : Prop :=
  ∀ path, (n.descend? path).map (fun x => x.content.compared)
    = (m.descend? path).map fun x => x.content.compared

end Node

/-- Forests of alike children in the same order agree on what stands under a segment. -/
theorem Forest.alike_of_forall₂ {f g : Forest}
    (h : List.Forall₂ (fun a b => a.1 = b.1 ∧ a.2.Alike b.2) f.toList g.toList)
    (segment : String) (path : List String)
    : ((f.find? segment).bind fun c => c.descend? path).map (fun x => x.content.compared)
      = ((g.find? segment).bind fun c => c.descend? path).map fun x => x.content.compared := by
  induction f using listInduction generalizing g with
  | nil =>
      cases g with
      | nil => rfl
      | cons => cases h
  | cons s child rest ih =>
      cases g with
      | nil => cases h
      | cons s' other rest' =>
          obtain ⟨⟨rfl, hc⟩, hr⟩ := List.forall₂_cons.mp h
          by_cases hs : s = segment
          · simpa [find?, hs] using hc path
          · simpa [find?, hs] using ih hr

/-- Lists with equal images are related pairwise. -/
theorem forall₂_of_map_eq {α β : Type} {f : α → β} {r : α → α → Prop} {l m : List α}
    (h : l.map f = m.map f) (hr : ∀ a ∈ l, ∀ b ∈ m, f a = f b → r a b)
    : List.Forall₂ r l m := by
  have pairs : List.Forall₂ (fun a b => f a = f b) l m := by
    rw [← List.forall₂_eq_eq_eq, List.forall₂_map_left_iff, List.forall₂_map_right_iff] at h
    exact h
  rw [List.forall₂_iff_zip] at pairs ⊢
  refine ⟨pairs.1, fun {a b} hab => ?_⟩
  obtain ⟨ha, hb⟩ := List.of_mem_zip hab
  exact hr a ha b hb (pairs.2 hab)

namespace Node

variable {s : Set (List UInt8)}

/-- Equal hashes mean equal keys and alike subtrees, by induction on nodes. -/
theorem Within.alike (hs : s.InjOn Digest.fingerprint) {n m : Node} {j k : Key}
    (hn : n.Throughout (Within s) j) (hm : m.Throughout (Within s) k) (depth : j.depth = k.depth)
    (h : n.fullHash = m.fullHash)
    : j = k ∧ n.Alike m := by
  induction n using childInduction generalizing m j k with
  | step n ih =>
      obtain ⟨hp, hc⟩ := fullHash_inj hs hn hm h
      obtain ⟨rfl, compared⟩ := hn.top.partialHash_inj hs hm.top depth hp
      have pairs : List.Forall₂ (fun a b => a.1 = b.1 ∧ a.2.Alike b.2)
          n.children.toList m.children.toList := by
        refine forall₂_of_map_eq hc fun a ha b hb hab => ?_
        have hna := hn.child (hn.top.ordered.mem_toList.mp ha)
        have hmb := hm.child (hm.top.ordered.mem_toList.mp hb)
        obtain ⟨hk, alike⟩ := ih a ha hna hmb (by simp) hab
        simp only [Key.child, Key.mk.injEq, List.append_cancel_left_eq, List.cons.injEq,
          and_true] at hk
        exact ⟨hk, alike⟩
      refine ⟨rfl, fun path => ?_⟩
      cases path with
      | nil => simpa using compared
      | cons segment rest =>
          rw [descend?_cons, descend?_cons]
          exact Forest.alike_of_forall₂ pairs segment rest

/-- Between alike subtrees there is nothing to add or to remove. -/
theorem Alike.comparison {n m : Node} (h : n.Alike m) (hn : n.AllShaped) (hm : m.AllShaped)
    (key : Key)
    : n.comparison key m = {} := by
  have under := n.comparison_under m key
  refine TreeDiff.ext' ?_ ?_ <;> refine List.eq_nil_iff_forall_not_mem.mpr fun k hk => ?_
  · obtain ⟨path, rfl⟩ := under.1 k hk
    obtain ⟨x, hx, -, -, -, hc⟩ := (mem_comparison hn hm).1.mp hk
    have alike := h path
    rw [hx] at alike
    cases hy : m.descend? path with
    | none => simp [hy] at alike
    | some y =>
        rw [hy] at alike hc
        exact hc (Option.some.inj alike)
  · obtain ⟨path, rfl⟩ := under.2 k hk
    obtain ⟨y, hy, hd, -, -, hc⟩ := (mem_comparison hn hm).2.mp hk
    have alike := h path
    rw [hy] at alike
    cases hx : n.descend? path with
    | none => simp [hx] at alike
    | some x =>
        rw [hx] at alike hc
        have flags := congrArg (fun c => c.2.1) (Option.some.inj alike)
        have dummy : x.isDummy = y.isDummy := flags
        simp [hc, hd] at dummy

-----------------------------------------------------------------------------------------
-- The difference is the comparison
-----------------------------------------------------------------------------------------

theorem Within.ownDiff (hs : s.InjOn Digest.fingerprint) {n m : Node} {key : Key}
    (hn : n.Within s key) (hm : m.Within s key)
    : n.ownDiff key m = n.content.comparison key m.content := by
  rw [Node.ownDiff, Content.comparison]
  simp only [hn.partialHash_eq_iff hs hm]
  rfl

end Node

theorem Forest.diff_eq_comparison {f theirs : Forest} {key : Key}
    (h : ∀ e ∈ f.toList, ∀ other, theirs.find? e.1 = some other →
      (if other.fullHash = e.2.fullHash then {} else e.2.diff (key.child e.1) other)
        = e.2.comparison (key.child e.1) other)
    : f.diff key theirs = f.comparison key theirs := by
  induction f using listInduction with
  | nil => rfl
  | cons s child rest ih =>
      rw [Forest.diff, Forest.comparison, ih fun e he => h e (List.mem_cons_of_mem _ he)]
      congr 1
      cases ho : theirs.find? s with
      | none => rfl
      | some other => exact h (s, child) List.mem_cons_self other ho

namespace Node

theorem diff_eq (n theirs : Node) (key : Key)
    : n.diff key theirs
      = n.ownDiff key theirs ++
        if n.isError || theirs.isError || n.fullHash = theirs.fullHash then {}
        else n.children.diff key theirs.children
          ++ { remove := theirs.children.unmatchedKeys key n.children } := by
  cases n
  rw [Node.diff]
  rfl

/-- A node needs nothing to become itself. -/
theorem diff_self (n : Node) (key : Key) : n.diff key n = {} := by
  rw [diff_eq, ownDiff]
  simp
  rfl

variable {s : Set (List UInt8)}

/-- With its shortcuts the difference of two nodes is their comparison, by induction on nodes. -/
theorem Within.diff_eq_comparison (hs : s.InjOn Digest.fingerprint) {n m : Node} {key : Key}
    (hn : n.Throughout (Within s) key) (hm : m.Throughout (Within s) key)
    : n.diff key m = n.comparison key m := by
  induction n using childInduction generalizing m key with
  | step n ih =>
      have children : n.children.diff key m.children = n.children.comparison key m.children := by
        refine Forest.diff_eq_comparison fun e he other ho => ?_
        have hc := hn.child (hn.top.ordered.mem_toList.mp he)
        have ho := hm.child ho
        split
        · rename_i hf
          have alike := (Within.alike hs hc ho rfl hf.symm).2
          exact (alike.comparison (allShaped hc) (allShaped ho) _).symm
        · exact ih e he hc ho
      by_cases hf : n.fullHash = m.fullHash
      · -- The whole subtrees agree, so what the shortcut leaves out is nothing.
        have alike := (Within.alike hs hn hm rfl hf).2
        have none := alike.comparison (allShaped hn) (allShaped hm) key
        have own : n.content.comparison key m.content = {} := by
          rw [Content.comparison, if_pos (by simpa using alike [])]
        rw [none, diff_eq, hn.top.ownDiff hs hm.top, own]
        simp [hf]
        rfl
      · rw [diff_eq, comparison_eq, hn.top.ownDiff hs hm.top, children]
        simp [hf]

end Node

end Concord
