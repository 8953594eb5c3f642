import Mathlib.Data.List.Basic
import Mathlib.Order.Basic
import Concord.HashTree.Basic

/-! Paths through nodes and forests. A key of a tree is the key of a node and the path from it,
so whatever is said about keys is proved about paths, by induction on the segments.
-/

namespace Concord

-----------------------------------------------------------------------------------------
-- Keys and the paths below them
-----------------------------------------------------------------------------------------

/-- The key that a path leads to from `k`. -/
def Key.below (k : Key) (path : List String) : Key :=
  ⟨k.segments ++ path⟩

namespace Key

@[simp]
theorem below_nil (k : Key) : k.below [] = k := by
  simp [below]

@[simp]
theorem below_child (k : Key) (segment : String) (path : List String)
    : (k.child segment).below path = k.below (segment :: path) := by
  simp [below, child]

@[simp]
theorem below_inj (k : Key) {path other : List String}
    : k.below path = k.below other ↔ path = other := by
  simp [below]

/-- A key starts with a given root and goes on, or does not start with it. -/
@[elab_as_elim]
theorem rootCases {motive : Key → Prop} (root : String)
    (foreign : ∀ k, k.root? ≠ some root → motive k) (below : ∀ path, motive ⟨root :: path⟩)
    (k : Key)
    : motive k := by
  obtain ⟨segments⟩ := k
  cases segments with
  | nil => exact foreign _ (by simp [root?])
  | cons s path =>
      by_cases hs : s = root
      · exact hs ▸ below path
      · exact foreign _ (by simpa [root?] using hs)

@[simp]
theorem depth_child (k : Key) (segment : String) : (k.child segment).depth = k.depth + 1 := by
  simp [depth, child]

end Key

-----------------------------------------------------------------------------------------
-- Forests as ordered lists of children
-----------------------------------------------------------------------------------------

/-- Induction on a forest as a list of children, whatever the children are. -/
@[elab_as_elim]
theorem Forest.listInduction {motive : Forest → Prop} (nil : motive .nil)
    (cons : ∀ segment child rest, motive rest → motive (.cons segment child rest))
    : ∀ f, motive f
  | .nil => nil
  | .cons segment child rest => cons segment child rest (listInduction nil cons rest)

namespace Forest

/-- The segments of the children in order. -/
def segments (f : Forest) : List String :=
  f.toList.map Prod.fst

/-- The children stand in strictly ascending order of their segments. -/
def Ordered (f : Forest) : Prop :=
  f.segments.Pairwise fun a b => compare a b = .lt

@[simp]
theorem segments_cons (segment : String) (child : Node) (rest : Forest)
    : (cons segment child rest).segments = segment :: rest.segments :=
  rfl

theorem ordered_nil : Ordered .nil :=
  .nil

theorem ordered_cons {segment : String} {child : Node} {rest : Forest}
    : (cons segment child rest).Ordered
      ↔ (∀ s ∈ rest.segments, compare segment s = .lt) ∧ rest.Ordered := by
  simp [Ordered]

/-- A segment has a child exactly when it is listed, by list induction. -/
theorem find?_isSome_iff {f : Forest} {segment : String}
    : (f.find? segment).isSome ↔ segment ∈ f.segments := by
  induction f using listInduction with
  | nil => simp [find?, segments, toList]
  | cons s child rest ih =>
      by_cases h : s = segment
      · simp [find?, h]
      · simp [find?, h, ih, Ne.symm h]

theorem find?_eq_none_of_not_mem {f : Forest} {segment : String} (h : segment ∉ f.segments)
    : f.find? segment = none := by
  rw [← Option.not_isSome_iff_eq_none, find?_isSome_iff]
  exact h

/-- In an ordered forest every later segment differs from the first. -/
theorem Ordered.head_not_mem {segment : String} {child : Node} {rest : Forest}
    (h : (cons segment child rest).Ordered)
    : segment ∉ rest.segments := by
  intro hm
  have hl := (ordered_cons.mp h).1 segment hm
  simp [Std.ReflCmp.compare_self] at hl

theorem Ordered.tail {segment : String} {child : Node} {rest : Forest}
    (h : (cons segment child rest).Ordered)
    : rest.Ordered :=
  (ordered_cons.mp h).2

theorem find?_insert_self (f : Forest) (segment : String) (n : Node)
    : (f.insert segment n).find? segment = some n := by
  induction f using listInduction with
  | nil => simp [insert, find?]
  | cons s child rest ih =>
      rw [insert]
      split
      · simp [find?]
      · simp [find?]
      · rename_i hgt
        have hne : s ≠ segment := by
          rintro rfl
          simp [Std.ReflCmp.compare_self] at hgt
        simp [find?, hne, ih]

theorem find?_insert_of_ne (f : Forest) {segment other : String} (n : Node)
    (hne : other ≠ segment)
    : (f.insert segment n).find? other = f.find? other := by
  induction f using listInduction with
  | nil => simp [insert, find?, hne.symm]
  | cons s child rest ih =>
      rw [insert]
      split
      · simp [find?, hne.symm]
      · rename_i heq
        have hs : segment = s := Std.LawfulEqCmp.eq_of_compare heq
        subst hs
        simp [find?, hne.symm]
      · by_cases hs : s = other <;> simp [find?, hs, ih]

/-- Looking up after an insertion gives the new child or what was there before. -/
theorem find?_insert (f : Forest) (segment other : String) (n : Node)
    : (f.insert segment n).find? other = if other = segment then some n else f.find? other := by
  by_cases h : other = segment
  · subst h
    simp [find?_insert_self]
  · simp [h, find?_insert_of_ne f n h]

theorem mem_segments_insert {f : Forest} {segment other : String} {n : Node}
    : other ∈ (f.insert segment n).segments ↔ other = segment ∨ other ∈ f.segments := by
  simp only [← find?_isSome_iff, find?_insert]
  by_cases h : other = segment <;> simp [h]

/-- An insertion keeps the order, by list induction on where the segment belongs. -/
theorem Ordered.insert {f : Forest} (h : f.Ordered) (segment : String) (n : Node)
    : (f.insert segment n).Ordered := by
  induction f using listInduction with
  | nil => simp [Forest.insert, Ordered, segments, toList]
  | cons s child rest ih =>
      obtain ⟨hs, hr⟩ := ordered_cons.mp h
      rw [Forest.insert]
      split
      · rename_i hlt
        refine ordered_cons.mpr ⟨?_, h⟩
        intro t ht
        rcases List.mem_cons.mp ht with rfl | ht
        · exact hlt
        · exact Std.TransCmp.lt_trans hlt (hs t ht)
      · rename_i heq
        have he : segment = s := Std.LawfulEqCmp.eq_of_compare heq
        exact ordered_cons.mpr ⟨he ▸ hs, hr⟩
      · rename_i hgt
        refine ordered_cons.mpr ⟨?_, ih hr⟩
        intro t ht
        rcases mem_segments_insert.mp ht with rfl | ht
        · exact Std.OrientedCmp.lt_of_gt hgt
        · exact hs t ht

/-- An erasure in an ordered forest takes away exactly the child under its segment. -/
theorem Ordered.find?_erase {f : Forest} (h : f.Ordered) (segment other : String)
    : (f.erase segment).find? other = if other = segment then none else f.find? other := by
  induction f using listInduction with
  | nil => simp [erase, find?]
  | cons s child rest ih =>
      by_cases hs : s = segment
      · subst hs
        rw [erase, if_pos rfl]
        by_cases ho : other = s
        · subst ho
          simp [find?_eq_none_of_not_mem h.head_not_mem]
        · simp [find?, ho, Ne.symm ho]
      · rw [erase, if_neg hs]
        by_cases ho : s = other
        · subst ho
          simp [find?, hs]
        · simp [find?, ho, ih h.tail]

theorem segments_erase_sublist (f : Forest) (segment : String)
    : (f.erase segment).segments.Sublist f.segments := by
  induction f using listInduction with
  | nil => exact .refl _
  | cons s child rest ih =>
      rw [erase]
      split
      · exact List.sublist_cons_self _ _
      · exact ih.cons_cons _

theorem Ordered.erase {f : Forest} (h : f.Ordered) (segment : String)
    : (f.erase segment).Ordered :=
  List.Pairwise.sublist (segments_erase_sublist f segment) h

@[simp]
theorem isEmpty_insert (f : Forest) (segment : String) (n : Node)
    : (f.insert segment n).isEmpty = false := by
  cases f with
  | nil => rfl
  | cons s child rest =>
      rw [insert]
      split <;> rfl

theorem eq_nil_of_isEmpty {f : Forest} (h : f.isEmpty = true) : f = .nil := by
  cases f with
  | nil => rfl
  | cons s child rest => simp [isEmpty] at h

end Forest

-----------------------------------------------------------------------------------------
-- Nodes along a path
-----------------------------------------------------------------------------------------

namespace Node

@[simp]
theorem content_withChildren (n : Node) (f : Forest) : (n.withChildren f).content = n.content :=
  rfl

@[simp]
theorem children_withChildren (n : Node) (f : Forest) : (n.withChildren f).children = f :=
  rfl

@[simp]
theorem partialHash_withChildren (n : Node) (f : Forest)
    : (n.withChildren f).partialHash = n.partialHash :=
  rfl

@[simp]
theorem fullHash_withChildren (n : Node) (f : Forest)
    : (n.withChildren f).fullHash = combine n.partialHash f :=
  rfl

@[simp]
theorem isDummy_withChildren (n : Node) (f : Forest) : (n.withChildren f).isDummy = n.isDummy :=
  rfl

@[simp]
theorem content_withContent (n : Node) (key : Key) (c : Content)
    : (n.withContent key c).content = c :=
  rfl

@[simp]
theorem children_withContent (n : Node) (key : Key) (c : Content)
    : (n.withContent key c).children = n.children :=
  rfl

theorem isPrunable_withContent (n : Node) (key : Key) (c : Content)
    : (n.withContent key c).isPrunable = (c.dummy && n.children.isEmpty) :=
  rfl

@[simp]
theorem descend?_nil (n : Node) : n.descend? [] = some n := by
  rw [descend?]

theorem descend?_cons (n : Node) (segment : String) (path : List String)
    : n.descend? (segment :: path)
      = (n.children.find? segment).bind fun child => child.descend? path := by
  rw [descend?]

/-- A path of one segment and more leads through the child under that segment. -/
theorem descend?_cons_eq_some {n m : Node} {segment : String} {path : List String}
    : n.descend? (segment :: path) = some m
      ↔ ∃ child, n.children.find? segment = some child ∧ child.descend? path = some m := by
  rw [descend?_cons, Option.bind_eq_some_iff]

theorem descend?_singleton (n : Node) (segment : String)
    : n.descend? [segment] = n.children.find? segment := by
  rw [descend?_cons]
  cases n.children.find? segment <;> simp

/-- Two paths in a row, by induction on the first. -/
theorem descend?_append (n : Node) (path rest : List String)
    : n.descend? (path ++ rest) = (n.descend? path).bind fun m => m.descend? rest := by
  induction path generalizing n with
  | nil => simp
  | cons segment path ih =>
      rw [List.cons_append, descend?_cons, descend?_cons]
      cases n.children.find? segment with
      | none => rfl
      | some child => simpa using ih child

/-- A path that leads through a dummy without children goes no further. -/
theorem descend?_of_isEmpty {n : Node} (h : n.children.isEmpty = true) (segment : String)
    (path : List String)
    : n.descend? (segment :: path) = none := by
  rw [descend?_cons, Forest.eq_nil_of_isEmpty h]
  rfl

-----------------------------------------------------------------------------------------
-- Where operations along a path succeed
-----------------------------------------------------------------------------------------

/-- A content can be changed just where the path leads to a node, by induction on the path. -/
theorem isSome_change? (f : Content → Content) (key : Key) (n : Node) (path : List String)
    : (n.change? f key path).isSome = (n.descend? path).isSome := by
  induction path generalizing n key with
  | nil => rfl
  | cons segment rest ih =>
      rw [change?, descend?_cons]
      cases n.children.find? segment with
      | none => rfl
      | some child => simpa using ih (key.child segment) child

/-- A node can be taken out just where the path leads to one below the top, by induction on the
path.
-/
theorem isSome_detach? (n : Node) {path : List String} (hp : path ≠ [])
    : (n.detach? path).isSome = (n.descend? path).isSome := by
  induction path generalizing n with
  | nil => exact absurd rfl hp
  | cons segment rest ih =>
      rw [descend?_cons]
      cases hf : n.children.find? segment with
      | none => cases rest <;> simp [detach?, hf]
      | some child =>
          cases rest with
          | nil => simp [detach?, hf]
          | cons next rest => simpa [detach?, hf] using ih child (by simp)

/-- A node without children that becomes a dummy goes as if it were taken out, by induction on the
path.
-/
theorem change?_eq_detach? {f : Content → Content} {path : List String} {n m : Node} (key : Key)
    (hp : path ≠ []) (hm : n.descend? path = some m) (leaf : m.children.isEmpty = true)
    (dummy : (f m.content).dummy = true)
    : n.change? f key path = (n.detach? path).map Prod.fst := by
  induction path generalizing n key with
  | nil => exact absurd rfl hp
  | cons segment rest ih =>
      obtain ⟨child, hf, hd⟩ := descend?_cons_eq_some.mp hm
      cases rest with
      | nil =>
          cases hd
          simp [change?, detach?, hf, keepOrPrune, isPrunable_withContent, dummy, leaf]
      | cons next rest =>
          have deeper := ih (key.child segment) (by simp) hd
          simp only [change?, detach?, hf, Option.bind_some] at deeper ⊢
          rw [deeper, Option.map_map, Option.map_map]
          rfl

end Node

-----------------------------------------------------------------------------------------
-- Keys in a tree
-----------------------------------------------------------------------------------------

namespace HashTree

/-- A key leads to a node exactly when it starts with the root and its path leads to the node. -/
theorem find?_eq_some_iff {t : HashTree} {k : Key} {n : Node}
    : t.find? k = some n
      ↔ ∃ root r path,
          t.root = some (root, r) ∧ k = (⟨[root]⟩ : Key).below path
          ∧ r.descend? path = some n := by
  obtain ⟨root | ⟨root, r⟩⟩ := t
  · simp [find?]
  · obtain ⟨segments⟩ := k
    cases segments with
    | nil => simp [find?, Key.below]
    | cons segment path =>
        by_cases h : segment = root
        · subst h
          simp [find?, Key.below]
        · simp [find?, Key.below, h]

/-- Below the root, looking a key up is following its path. -/
theorem find?_below {t : HashTree} {root : String} {r : Node} (h : t.root = some (root, r))
    (path : List String)
    : t.find? ((⟨[root]⟩ : Key).below path) = r.descend? path := by
  obtain ⟨_⟩ := t
  subst h
  simp [find?, Key.below]

/-- The node at the key of a child is that child. -/
theorem find?_child_eq {t : HashTree} {k : Key} {n : Node} (h : t.find? k = some n)
    (segment : String)
    : t.find? (k.child segment) = n.children.find? segment := by
  obtain ⟨root, r, path, ht, rfl, found⟩ := find?_eq_some_iff.mp h
  have below : ((⟨[root]⟩ : Key).below path).child segment
      = (⟨[root]⟩ : Key).below (path ++ [segment]) := by
    simp [Key.below, Key.child]
  rw [below, find?_below ht, Node.descend?_append, found, Option.bind_some,
    Node.descend?_singleton]

theorem find?_root {root : String} {r : Node} {path : List String}
    : (⟨some (root, r)⟩ : HashTree).find? ⟨root :: path⟩ = r.descend? path :=
  find?_below rfl path

@[simp]
theorem find?_empty (k : Key) : (∅ : HashTree).find? k = none :=
  rfl

theorem find?_eq_none_of_root {t : HashTree} {root : String} {r : Node}
    (h : t.root = some (root, r)) {k : Key} (hk : k.root? ≠ some root)
    : t.find? k = none := by
  rw [Option.eq_none_iff_forall_ne_some]
  intro n hn
  obtain ⟨other, r', path, ho, rfl, -⟩ := find?_eq_some_iff.mp hn
  rw [h] at ho
  cases ho
  exact hk rfl

theorem root_of_find? {t : HashTree} {key : Key} {n : Node} (h : t.find? key = some n)
    : ∃ root r path, t = ⟨some (root, r)⟩ ∧ key = ⟨root :: path⟩ ∧ r.descend? path = some n := by
  obtain ⟨root, r, path, hr, rfl, hd⟩ := find?_eq_some_iff.mp h
  obtain ⟨_⟩ := t
  subst hr
  exact ⟨root, r, path, rfl, rfl, hd⟩

/-- A content can be changed just where there is a node. -/
theorem isSome_change? (t : HashTree) (f : Content → Content) (key : Key)
    : (t.change? f key).isSome = (t.find? key).isSome := by
  rw [change?, find?]
  split
  · split
    · rw [Option.isSome_map, Node.isSome_change?]
    · rfl
  · rfl

/-- A subtree can be taken out just where there is a node. -/
theorem isSome_pop? (t : HashTree) (key : Key)
    : (t.pop? key).isSome = (t.find? key).isSome := by
  rw [pop?, find?]
  split
  · rename_i root r segment rest _ _
    by_cases hs : segment = root
    · cases rest with
      | nil => simp [hs]
      | cons next rest => simpa [hs] using @Node.isSome_detach? r (next :: rest) (by simp)
    · simp [hs]
  · rfl

/-- Clearing a key without a node changes nothing. -/
theorem clear_of_absent {t : HashTree} {key : Key} (h : t.find? key = none)
    : t.clear key = t := by
  have absent : t.change? Content.tombstone key = none := by
    simpa [h] using t.isSome_change? Content.tombstone key
  rw [clear, absent]
  rfl

theorem setError_of_absent {t : HashTree} {key : Key} (h : t.find? key = none) (error : Bool)
    : t.setError key error = .error (.notFound key) := by
  have absent : t.change? (fun c => { c with error }) key = none := by
    simpa [h] using t.isSome_change? (fun c => { c with error }) key
  rw [setError, absent]

/-- Clearing a node without children takes it out. -/
theorem clear_of_leaf {t : HashTree} {key : Key} {n : Node} (h : t.find? key = some n)
    (leaf : n.children.isEmpty = true)
    : ∃ found, t.pop? key = some (t.clear key, found) := by
  obtain ⟨root, r, path, rfl, rfl, hd⟩ := root_of_find? h
  cases path with
  | nil =>
      cases hd
      refine ⟨⟨some (root, n)⟩, ?_⟩
      simp [pop?, clear, change?, Node.change?, ofRoot, Node.isPrunable_withContent,
        Content.tombstone, leaf]
  | cons segment rest =>
      have out := @Node.isSome_detach? r (segment :: rest) (by simp)
      rw [hd, Option.isSome_some, Option.isSome_iff_exists] at out
      obtain ⟨⟨left, found⟩, out⟩ := out
      have same := Node.change?_eq_detach? (f := Content.tombstone) ⟨[root]⟩ (by simp) hd leaf rfl
      simp [pop?, clear, change?, same, out]

end HashTree

end Concord
