import Mathlib.Logic.Relation
import Concord.Proofs.HashTree.Path

/-! Invariants of hash trees. An operation on a tree changes the nodes along one path, each by
one elementary change; a property that these changes keep is therefore kept by every operation.
Main statement: every tree that operations build is well formed, with all its hashes computed.
-/

namespace Concord

-----------------------------------------------------------------------------------------
-- Properties of single nodes
-----------------------------------------------------------------------------------------

namespace Node

/-- The children are in order, none of them is a dummy with nothing below it, and the digest of
the subtree is that of the node and its children.
-/
structure Shaped (n : Node) : Prop where
  ordered : n.children.Ordered
  pruned : ∀ segment child, n.children.find? segment = some child → child.isPrunable = false
  fullHash : n.fullHash = combine n.partialHash n.children

/-- The node's own hash is that of its content under its key, and a dummy holds nothing. -/
structure Intact (key : Key) (n : Node) : Prop extends n.Shaped where
  partialHash : n.partialHash = Digest.fingerprint (Encoding.content key n.content)
  bare : n.isDummy = true → n.content.attributes = ∅

/-- A property of a node at its key that growth keeps: fresh dummies, new attributes, children put
in.
-/
structure Grown (p : Key → Node → Prop) : Prop where
  fresh : ∀ key, p key (placeholder key)
  written : ∀ {key n}, p key n → ∀ attributes metadata,
    p key (n.withContent key (n.content.write attributes metadata))
  inserted : ∀ {key n}, p key n → ∀ segment child, child.isPrunable = false →
    p key (n.withChildren (n.children.insert segment child))

/-- A property that all elementary changes keep: growth, tombstones, flags, children taken out. -/
structure Stable (p : Key → Node → Prop) : Prop extends Grown p where
  shaped : ∀ {key n}, p key n → n.Shaped
  tombstoned : ∀ {key n}, p key n → p key (n.withContent key n.content.tombstone)
  flagged : ∀ {key n}, p key n → ∀ error, p key (n.withContent key { n.content with error })
  erased : ∀ {key n}, p key n → ∀ segment, p key (n.withChildren (n.children.erase segment))

/-- A fresh dummy has no children, so its shape is trivial. -/
theorem shaped_placeholder (key : Key) : (placeholder key).Shaped where
  ordered := Forest.ordered_nil
  pruned := fun segment child h => by simp [placeholder, ofContent, children, Forest.find?] at h
  fullHash := rfl

/-- New content leaves the children alone. -/
theorem Shaped.withContent {n : Node} (h : n.Shaped) (key : Key) (c : Content)
    : (n.withContent key c).Shaped where
  ordered := h.ordered
  pruned := h.pruned
  fullHash := rfl

theorem Shaped.insert {n child : Node} (h : n.Shaped) (segment : String)
    (hc : child.isPrunable = false)
    : (n.withChildren (n.children.insert segment child)).Shaped where
  ordered := h.ordered.insert segment child
  pruned := by
    intro other found hf
    rw [children_withChildren, Forest.find?_insert] at hf
    split at hf
    · cases hf
      exact hc
    · exact h.pruned other found hf
  fullHash := rfl

theorem Shaped.erase {n : Node} (h : n.Shaped) (segment : String)
    : (n.withChildren (n.children.erase segment)).Shaped where
  ordered := h.ordered.erase segment
  pruned := by
    intro other found hf
    rw [children_withChildren, h.ordered.find?_erase] at hf
    split at hf
    · cases hf
    · exact h.pruned other found hf
  fullHash := rfl

/-- The shape of a node has nothing to do with its content. -/
theorem stable_shaped : Stable fun _ n => n.Shaped where
  shaped := fun h => h
  fresh := shaped_placeholder
  written := fun h _ _ => h.withContent _ _
  tombstoned := fun h => h.withContent _ _
  flagged := fun h _ => h.withContent _ _
  inserted := fun h segment _ hc => h.insert segment hc
  erased := fun h segment => h.erase segment

/-- Intact nodes are stable: new content is hashed at once, and other changes leave it alone. -/
theorem stable_intact : Stable Intact where
  shaped := fun h => h.toShaped
  fresh := fun key => ⟨shaped_placeholder key, rfl, fun _ => rfl⟩
  written := fun h _ _ => ⟨h.toShaped.withContent _ _, rfl, fun hd => by cases hd⟩
  tombstoned := fun h => ⟨h.toShaped.withContent _ _, rfl, fun _ => rfl⟩
  flagged := fun h _ => ⟨h.toShaped.withContent _ _, rfl, h.bare⟩
  inserted := fun h segment _ hc => ⟨h.toShaped.insert segment hc, h.partialHash, h.bare⟩
  erased := fun h segment => ⟨h.toShaped.erase segment, h.partialHash, h.bare⟩

-----------------------------------------------------------------------------------------
-- Properties of whole subtrees
-----------------------------------------------------------------------------------------

/-- The property holds of the node at `key` and of every node below it. -/
def Throughout (p : Key → Node → Prop) (key : Key) (n : Node) : Prop :=
  ∀ path m, n.descend? path = some m → p (key.below path) m

variable {p : Key → Node → Prop}

/-- A subtree has a property when its top and the subtrees of its children have it. -/
theorem throughout_iff {key : Key} {n : Node}
    : n.Throughout p key
      ↔ p key n
        ∧ ∀ segment child, n.children.find? segment = some child →
            child.Throughout p (key.child segment) := by
  constructor
  · intro h
    refine ⟨by simpa using h [] n, ?_⟩
    intro segment child hc path m hm
    simpa using h (segment :: path) m (descend?_cons_eq_some.mpr ⟨child, hc, hm⟩)
  · rintro ⟨ht, hc⟩ path m hm
    cases path with
    | nil =>
        cases hm
        simpa using ht
    | cons segment path =>
        obtain ⟨child, hf, hd⟩ := descend?_cons_eq_some.mp hm
        simpa using hc segment child hf path m hd

theorem Throughout.top {key : Key} {n : Node} (h : n.Throughout p key) : p key n :=
  (throughout_iff.mp h).1

theorem Throughout.child {key : Key} {n child : Node} {segment : String}
    (h : n.Throughout p key) (hc : n.children.find? segment = some child)
    : child.Throughout p (key.child segment) :=
  (throughout_iff.mp h).2 segment child hc

theorem Throughout.imp {q : Key → Node → Prop} {key : Key} {n : Node} (h : n.Throughout p key)
    (hq : ∀ k m, p k m → q k m)
    : n.Throughout q key :=
  fun path m hm => hq _ m (h path m hm)

theorem Throughout.shaped {key : Key} {n : Node} (h : n.Throughout Intact key)
    : n.Throughout (fun _ x => x.Shaped) key :=
  h.imp fun _ _ hm => hm.toShaped

/-- A property of a subtree holds of every subtree in it. -/
theorem Throughout.descend {key : Key} {n m : Node} {path : List String} (h : n.Throughout p key)
    (hm : n.descend? path = some m)
    : m.Throughout p (key.below path) := by
  intro rest x hx
  have whole : n.descend? (path ++ rest) = some x := by rw [descend?_append, hm, Option.bind_some, hx]
  simpa [Key.below] using h (path ++ rest) x whole

/-- A fresh dummy has nothing below it. -/
theorem throughout_placeholder (hp : Grown p) (key : Key)
    : (placeholder key).Throughout p key := by
  refine throughout_iff.mpr ⟨hp.fresh key, ?_⟩
  intro segment child h
  simp [placeholder, ofContent, children, Forest.find?] at h

/-- Below a node that is no childless dummy there is none either, by induction on the path. -/
theorem Throughout.isPrunable_descend {path : List String} {key : Key} {n m : Node}
    (h : n.Throughout (fun _ x => x.Shaped) key) (top : n.isPrunable = false)
    (hm : n.descend? path = some m)
    : m.isPrunable = false := by
  induction path generalizing n key with
  | nil =>
      cases hm
      exact top
  | cons segment rest ih =>
      obtain ⟨child, hf, hd⟩ := descend?_cons_eq_some.mp hm
      exact ih (h.child hf) (h.top.pruned segment child hf) hd

/-- Putting a subtree in place of a child keeps a stable property. -/
theorem Throughout.insert (hp : Grown p) {key : Key} {n child : Node} {segment : String}
    (h : n.Throughout p key) (hk : child.isPrunable = false)
    (hc : child.Throughout p (key.child segment))
    : (n.withChildren (n.children.insert segment child)).Throughout p key := by
  refine throughout_iff.mpr ⟨hp.inserted h.top segment child hk, ?_⟩
  intro other found hf
  rw [children_withChildren, Forest.find?_insert] at hf
  split at hf
  · rename_i he
    cases hf
    exact he ▸ hc
  · exact h.child hf

/-- Taking a child out keeps a stable property. -/
theorem Throughout.erase (hp : Stable p) {key : Key} {n : Node} (h : n.Throughout p key)
    (segment : String)
    : (n.withChildren (n.children.erase segment)).Throughout p key := by
  refine throughout_iff.mpr ⟨hp.erased h.top segment, ?_⟩
  intro other found hf
  rw [children_withChildren, (hp.shaped h.top).ordered.find?_erase] at hf
  split at hf
  · cases hf
  · exact h.child hf

/-- Whether a changed child is kept or pruned, a stable property stays. -/
theorem Throughout.keepOrPrune (hp : Stable p) {key : Key} {n child : Node} {segment : String}
    (h : n.Throughout p key) (hc : child.Throughout p (key.child segment))
    : (n.keepOrPrune segment child).Throughout p key := by
  rw [Node.keepOrPrune]
  split
  · exact h.erase hp segment
  · rename_i hk
    exact h.insert hp.toGrown (by simpa using hk) hc

theorem Throughout.withContent {key : Key} {n : Node} {c : Content}
    (h : n.Throughout p key) (hc : p key (n.withContent key c))
    : (n.withContent key c).Throughout p key :=
  throughout_iff.mpr ⟨hc, fun _ _ hf => h.child hf⟩

/-- What was written to is no dummy, or has something below it. -/
theorem isPrunable_write (attributes : Attributes) (metadata : Metadata) (key : Key) (n : Node)
    (path : List String)
    : (n.write attributes metadata key path).isPrunable = false := by
  cases path with
  | nil => simp [write, isPrunable, isDummy, Content.write]
  | cons segment rest => simp [write, isPrunable]

/-- Writing keeps a stable property, by induction on the path; missing nodes start as fresh
dummies.
-/
theorem Throughout.write (hp : Grown p) {key : Key} {n : Node} (h : n.Throughout p key)
    (attributes : Attributes) (metadata : Metadata) (path : List String)
    : (n.write attributes metadata key path).Throughout p key := by
  induction path generalizing key n with
  | nil =>
      rw [Node.write]
      exact h.withContent (hp.written h.top attributes metadata)
  | cons segment rest ih =>
      rw [Node.write]
      refine h.insert hp (isPrunable_write _ _ _ _ _) (ih ?_)
      cases hf : n.children.find? segment with
      | none => exact throughout_placeholder hp _
      | some child => exact h.child hf

/-- Changing content keeps a stable property that the change itself keeps, by induction on the
path.
-/
theorem Throughout.change (hp : Stable p) {f : Content → Content}
    (hf : ∀ key n, p key n → p key (n.withContent key (f n.content)))
    {path : List String} {key : Key} {n changed : Node} (h : n.Throughout p key)
    (hc : n.change? f key path = some changed)
    : changed.Throughout p key := by
  induction path generalizing key n changed with
  | nil =>
      cases hc
      exact h.withContent (hf key n h.top)
  | cons segment rest ih =>
      obtain ⟨child, hs, hr⟩ := Option.bind_eq_some_iff.mp (by rwa [change?] at hc)
      obtain ⟨below, hb, rfl⟩ := Option.map_eq_some_iff.mp hr
      exact h.keepOrPrune hp (ih (h.child hs) hb)

/-- Taking a subtree out keeps a stable property of what is left and of the subtree, by induction
on the path.
-/
theorem Throughout.detach (hp : Stable p) {path : List String} {key : Key} {n left found : Node}
    (h : n.Throughout p key) (hd : n.detach? path = some (left, found))
    : left.Throughout p key ∧ found.Throughout p (key.below path)
      ∧ found.isPrunable = false := by
  induction path generalizing key n left with
  | nil => simp [detach?] at hd
  | cons segment rest ih =>
      cases rest with
      | nil =>
          obtain ⟨child, hc, he⟩ := Option.map_eq_some_iff.mp (by rwa [detach?] at hd)
          cases he
          exact ⟨h.erase hp segment, h.child hc, (hp.shaped h.top).pruned segment _ hc⟩
      | cons next rest =>
          obtain ⟨child, hc, hr⟩ := Option.bind_eq_some_iff.mp (by rwa [detach?] at hd)
          obtain ⟨⟨below, _⟩, hb, he⟩ := Option.map_eq_some_iff.mp hr
          cases he
          obtain ⟨hl, hf, hk⟩ := ih (h.child hc) hb
          exact ⟨h.keepOrPrune hp hl, by simpa using hf, hk⟩

theorem isPrunable_underDummies {n : Node} (hn : n.isPrunable = false) (key : Key)
    (path : List String)
    : (n.underDummies key path).isPrunable = false := by
  cases path with
  | nil => simpa [underDummies] using hn
  | cons segment rest => rfl

/-- Fresh dummies above a subtree keep a stable property, by induction on the path. -/
theorem Throughout.underDummies (hp : Stable p) {path : List String} {key : Key} {n : Node}
    (h : n.Throughout p (key.below path)) (hn : n.isPrunable = false)
    : (n.underDummies key path).Throughout p key := by
  induction path generalizing key with
  | nil => simpa [Node.underDummies] using h
  | cons segment rest ih =>
      have hr := @ih (key.child segment) (by simpa using h)
      exact (throughout_placeholder hp.toGrown key).insert hp.toGrown (isPrunable_underDummies hn _ rest) hr

end Node

-----------------------------------------------------------------------------------------
-- Properties of trees
-----------------------------------------------------------------------------------------

namespace HashTree

variable {p : Key → Node → Prop}

/-- The root is no dummy without children, and the property holds of every node at its key. -/
def Throughout (p : Key → Node → Prop) (t : HashTree) : Prop :=
  ∀ root r, t.root = some (root, r) → r.isPrunable = false ∧ r.Throughout p ⟨[root]⟩

/-- Every node of the tree has its children in order. -/
abbrev Shaped (t : HashTree) : Prop :=
  t.Throughout fun _ n => n.Shaped

/-- Every node is intact. -/
def WellFormed (t : HashTree) : Prop :=
  t.Throughout Node.Intact

theorem WellFormed.shaped {t : HashTree} (h : t.WellFormed) : t.Shaped :=
  fun root r hr => ⟨(h root r hr).1, (h root r hr).2.shaped⟩

theorem throughout_empty : (∅ : HashTree).Throughout p :=
  fun _ _ h => by cases h

theorem Throughout.find {t : HashTree} (h : t.Throughout p) {k : Key} {n : Node}
    (hn : t.find? k = some n)
    : p k n := by
  obtain ⟨root, r, path, ht, rfl, hd⟩ := find?_eq_some_iff.mp hn
  exact (h root r ht).2 path n hd

theorem throughout_ofRoot {root : String} {r : Node} (h : r.Throughout p ⟨[root]⟩)
    : (ofRoot root r).Throughout p := by
  rw [ofRoot]
  split
  · exact throughout_empty
  · rename_i hr
    rintro _ _ ⟨⟩
    exact ⟨by simpa using hr, h⟩

theorem Throughout.addWith (hp : Node.Grown p) {t u : HashTree} (h : t.Throughout p)
    {key : Key} {attributes : Attributes} {metadata : Metadata}
    (hu : t.addWith key attributes metadata = .ok u)
    : u.Throughout p := by
  rw [HashTree.addWith] at hu
  split at hu
  · cases hu
    exact h
  · split at hu
    · cases hu
      rintro _ _ ⟨⟩
      exact ⟨Node.isPrunable_write _ _ _ _ _,
        (Node.throughout_placeholder hp _).write hp attributes metadata _⟩
    · split at hu
      · rename_i root r hr he
        cases hu
        rintro _ _ ⟨⟩
        exact ⟨Node.isPrunable_write _ _ _ _ _, (h root r hr).2.write hp attributes metadata _⟩
      · cases hu

/-- What was added before an entry that fails is a tree like any other, by list induction. -/
theorem Throughout.addAll (hp : Node.Grown p) {t : HashTree} (h : t.Throughout p)
    (items : List (Key × Attributes))
    : (t.addAll items).1.Throughout p := by
  induction items generalizing t with
  | nil => exact h
  | cons item rest ih =>
      rw [HashTree.addAll]
      split
      · rename_i u hu
        exact ih (h.addWith hp hu)
      · exact h

theorem Throughout.pop (hp : Node.Stable p) {t left found : HashTree} (h : t.Throughout p)
    {key : Key} (hd : t.pop? key = some (left, found))
    : left.Throughout p ∧ found.Throughout p := by
  rw [HashTree.pop?] at hd
  split at hd
  · rename_i root r segment rest ht hk
    split at hd
    · cases hd
    · split at hd
      · cases hd
        exact ⟨throughout_empty, h⟩
      · obtain ⟨⟨below, out⟩, hb, he⟩ := Option.map_eq_some_iff.mp hd
        cases he
        obtain ⟨hl, hf, hk⟩ := (h root r ht).2.detach hp hb
        refine ⟨throughout_ofRoot hl, ?_⟩
        rintro _ _ ⟨⟩
        exact ⟨Node.isPrunable_underDummies hk _ _, hf.underDummies hp hk⟩
  · cases hd

theorem Throughout.change (hp : Node.Stable p) {f : Content → Content}
    (hf : ∀ key n, p key n → p key (n.withContent key (f n.content)))
    {t u : HashTree} (h : t.Throughout p) {key : Key} (hu : t.change? f key = some u)
    : u.Throughout p := by
  rw [HashTree.change?] at hu
  split at hu
  · rename_i root r segment rest ht hk
    split at hu
    · obtain ⟨changed, hc, rfl⟩ := Option.map_eq_some_iff.mp hu
      exact throughout_ofRoot ((h root r ht).2.change hp hf hc)
    · cases hu
  · cases hu

theorem Throughout.clear (hp : Node.Stable p) {t : HashTree} (h : t.Throughout p) (key : Key)
    : (t.clear key).Throughout p := by
  rw [HashTree.clear]
  cases hc : t.change? Content.tombstone key with
  | none => exact h
  | some u => exact h.change hp (fun _ _ => hp.tombstoned) hc

theorem Throughout.setError (hp : Node.Stable p) {t u : HashTree} (h : t.Throughout p)
    {key : Key} {error : Bool} (hu : t.setError key error = .ok u)
    : u.Throughout p := by
  rw [HashTree.setError] at hu
  split at hu
  · rename_i v hv
    cases hu
    exact h.change hp (fun _ _ hn => hp.flagged hn error) hv
  · cases hu

-----------------------------------------------------------------------------------------
-- Operations in any order
-----------------------------------------------------------------------------------------

/-- One operation on a tree, with what it leaves or what it takes out. Adding without tags is
adding with none.
-/
inductive Step : HashTree → HashTree → Prop
  | added {t u key attributes metadata} (h : addWith t key attributes metadata = .ok u) : Step t u
  | included {t} (items : List (Key × Attributes)) : Step t (t.addAll items).1
  | popped {t left found key} (h : t.pop? key = some (left, found)) : Step t left
  | detached {t left found key} (h : t.pop? key = some (left, found)) : Step t found
  | removed {t left found key} (h : t.remove key = .ok (left, found)) : Step t left
  | extracted {t left found key} (h : t.remove key = .ok (left, found)) : Step t found
  | cleared {t} (key : Key) : Step t (t.clear key)
  | flagged {t u key error} (h : t.setError key error = .ok u) : Step t u

theorem pop?_of_remove {t : HashTree} {key : Key} {result : HashTree × HashTree}
    (h : t.remove key = .ok result)
    : t.pop? key = some result := by
  rw [remove] at h
  split at h
  · cases h
    assumption
  · cases h

/-- A property of nodes that elementary changes keep is kept by every operation. -/
theorem Step.throughout (hp : Node.Stable p) {t u : HashTree} (step : Step t u)
    (h : t.Throughout p)
    : u.Throughout p := by
  cases step with
  | added ha => exact h.addWith hp.toGrown ha
  | included items => exact h.addAll hp.toGrown items
  | popped hd => exact (h.pop hp hd).1
  | detached hd => exact (h.pop hp hd).2
  | removed hr => exact (h.pop hp (pop?_of_remove hr)).1
  | extracted hr => exact (h.pop hp (pop?_of_remove hr)).2
  | cleared key => exact h.clear hp key
  | flagged hf => exact h.setError hp hf

/-- So it is kept by any operations one after the other, by induction on these. -/
theorem throughout_of_steps (hp : Node.Stable p) {start t : HashTree}
    (run : Relation.ReflTransGen Step start t) (h : start.Throughout p)
    : t.Throughout p := by
  induction run with
  | refl => exact h
  | tail _ step ih => exact step.throughout hp ih

-----------------------------------------------------------------------------------------
-- Trees that operations build
-----------------------------------------------------------------------------------------

/-- The trees that come from empty ones by any operations in any order. A tree that was taken out
of another one counts too.
-/
inductive Built : HashTree → Prop
  | empty : Built ∅
  | added {t u key attributes metadata} (before : Built t)
    (step : t.addWith key attributes metadata = .ok u)
    : Built u
  | included {t} (before : Built t) (items : List (Key × Attributes))
    : Built (t.addAll items).1
  | popped {t left found key} (before : Built t) (step : t.pop? key = some (left, found))
    : Built left
  | detached {t left found key} (before : Built t) (step : t.pop? key = some (left, found))
    : Built found
  | removed {t left found key} (before : Built t) (step : t.remove key = .ok (left, found))
    : Built left
  | cleared {t} (before : Built t) (key : Key) : Built (t.clear key)
  | flagged {t u key error} (before : Built t) (step : t.setError key error = .ok u) : Built u

/-- What was built came about step by step, by induction on the history. -/
theorem Built.steps {t : HashTree} (h : t.Built) : Relation.ReflTransGen Step ∅ t := by
  induction h with
  | empty => exact .refl
  | added _ step ih => exact ih.tail (.added step)
  | included _ items ih => exact ih.tail (.included items)
  | popped _ step ih => exact ih.tail (.popped step)
  | detached _ step ih => exact ih.tail (.detached step)
  | removed _ step ih => exact ih.tail (.removed step)
  | cleared _ key ih => exact ih.tail (.cleared key)
  | flagged _ step ih => exact ih.tail (.flagged step)

/-- Operations build well-formed trees. -/
theorem Built.wellFormed {t : HashTree} (h : t.Built) : t.WellFormed :=
  throughout_of_steps Node.stable_intact h.steps throughout_empty

end HashTree

end Concord
