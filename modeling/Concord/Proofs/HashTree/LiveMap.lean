import Concord.Backend.Object
import Concord.Proofs.HashTree.Invariants

/-! A tree as a map from keys to attributes. Every operation changes the map at the keys it names
and nowhere else, whatever dummies come and go on the way.
-/

namespace Concord

/-- The attributes of a content that is no dummy. -/
def Content.own? (c : Content) : Option Attributes :=
  if c.dummy then none else some c.attributes

-----------------------------------------------------------------------------------------
-- The map of a subtree
-----------------------------------------------------------------------------------------

namespace Node

/-- The attributes at the end of a path, where something is held. -/
def live? (n : Node) (path : List String) : Option Attributes :=
  (n.descend? path).bind fun m => m.content.own?

/-- The map of a child that may be missing. -/
def liveOf (child : Option Node) (path : List String) : Option Attributes :=
  child.bind fun c => c.live? path

@[simp]
theorem live?_nil (n : Node) : n.live? [] = n.content.own? := by
  simp [live?]

theorem live?_cons (n : Node) (segment : String) (path : List String)
    : n.live? (segment :: path) = liveOf (n.children.find? segment) path := by
  rw [live?, descend?_cons, liveOf, Option.bind_assoc]
  rfl

/-- A dummy without children holds nothing anywhere. -/
theorem live?_of_isPrunable {n : Node} (h : n.isPrunable = true) (path : List String)
    : n.live? path = none := by
  obtain ⟨dummy, empty⟩ := Bool.and_eq_true_iff.mp h
  cases path with
  | nil =>
      rw [isDummy] at dummy
      simp [Content.own?, dummy]
  | cons segment rest =>
      rw [live?_cons, Forest.eq_nil_of_isEmpty empty]
      rfl

theorem live?_placeholder (key : Key) (path : List String) : (placeholder key).live? path = none :=
  live?_of_isPrunable rfl path

/-- A child that is put in place gives its map, and the other children keep theirs. -/
theorem live?_insert (n child : Node) (segment other : String) (path : List String)
    : (n.withChildren (n.children.insert segment child)).live? (other :: path)
      = if other = segment then child.live? path else n.live? (other :: path) := by
  rw [live?_cons, live?_cons, children_withChildren, Forest.find?_insert]
  by_cases h : other = segment <;> simp [h, liveOf]

theorem live?_erase {n : Node} (h : n.children.Ordered) (segment other : String)
    (path : List String)
    : (n.withChildren (n.children.erase segment)).live? (other :: path)
      = if other = segment then none else n.live? (other :: path) := by
  rw [live?_cons, live?_cons, children_withChildren, h.find?_erase]
  by_cases h : other = segment <;> simp [h, liveOf]

/-- Whether a child is kept or pruned makes no difference to the map. -/
theorem live?_keepOrPrune {n : Node} (h : n.children.Ordered) (child : Node)
    (segment other : String) (path : List String)
    : (n.keepOrPrune segment child).live? (other :: path)
      = if other = segment then child.live? path else n.live? (other :: path) := by
  rw [keepOrPrune]
  split
  · rename_i hp
    rw [live?_erase h, live?_of_isPrunable hp]
  · exact live?_insert n child segment other path

theorem own_keepOrPrune (n child : Node) (segment : String)
    : (n.keepOrPrune segment child).live? [] = n.live? [] := by
  rw [keepOrPrune]
  split <;> simp

/-- Writing sets the end of the path and nothing else, by induction on the path. -/
theorem live?_write (attributes : Attributes) (metadata : Metadata) (key : Key) (n : Node)
    (path other : List String)
    : (n.write attributes metadata key path).live? other
      = if other = path then some attributes else n.live? other := by
  induction path generalizing n key other with
  | nil =>
      cases other with
      | nil => simp [write, Content.write, Content.own?]
      | cons s rest =>
          simp only [write, live?_cons, children_withContent, reduceCtorEq, if_false]
  | cons segment rest ih =>
      rw [write]
      cases other with
      | nil => simp
      | cons s tail =>
          rw [live?_insert, ih]
          by_cases hs : s = segment
          · subst hs
            by_cases ht : tail = rest
            · simp [ht]
            · cases hf : n.children.find? s with
              | none => simp [ht, live?_cons, hf, liveOf, live?_placeholder]
              | some child => simp [ht, live?_cons, hf, liveOf]
          · simp [hs]

/-- Changing a content changes the end of the path and nothing else, by induction on the path. -/
theorem live?_change {f : Content → Content} {path other : List String} {key : Key}
    {n changed : Node} (h : n.Throughout (fun _ x => x.Shaped) key)
    (hc : n.change? f key path = some changed)
    : changed.live? other
      = if other = path then (n.descend? path).bind (fun m => (f m.content).own?)
        else n.live? other := by
  induction path generalizing n key changed other with
  | nil =>
      rw [change?] at hc
      cases hc
      cases other with
      | nil => simp
      | cons s rest => simp [live?_cons]
  | cons segment rest ih =>
      obtain ⟨child, hf, hm⟩ := Option.bind_eq_some_iff.mp hc
      obtain ⟨below, hb, rfl⟩ := Option.map_eq_some_iff.mp hm
      have recur := fun other => @ih other _ child below (h.child hf) hb
      cases other with
      | nil => rw [own_keepOrPrune, if_neg (by simp)]
      | cons s tail =>
          rw [live?_keepOrPrune h.top.ordered, recur]
          by_cases hs : s = segment
          · subst hs
            simp [descend?_cons, live?_cons, hf, liveOf]
          · simp [hs]

end Node

-----------------------------------------------------------------------------------------
-- The map of a tree
-----------------------------------------------------------------------------------------

namespace HashTree

/-- The attributes at a key that holds something. -/
def live? (t : HashTree) (key : Key) : Option Attributes :=
  (t.find? key).bind fun n => n.content.own?

variable {t u : HashTree} {key k : Key}

@[simp]
theorem live?_root (root : String) (n : Node) (path : List String)
    : (⟨some (root, n)⟩ : HashTree).live? ⟨root :: path⟩ = n.live? path := by
  rw [live?, find?_root, Node.live?]

/-- A key that does not start with the root of a tree holds nothing. -/
theorem live?_of_ne {root : String} {n : Node} (h : k.root? ≠ some root)
    : (⟨some (root, n)⟩ : HashTree).live? k = none := by
  rw [live?, find?_eq_none_of_root rfl h]
  rfl

@[simp]
theorem live?_empty (k : Key) : (∅ : HashTree).live? k = none :=
  rfl

theorem live?_of_isPrunable {root : String} {n : Node} (h : n.isPrunable = true) (k : Key)
    : (⟨some (root, n)⟩ : HashTree).live? k = none := by
  induction k using Key.rootCases root with
  | foreign k hk => exact live?_of_ne hk
  | below path => rw [live?_root, Node.live?_of_isPrunable h]

/-- Whether a root is kept or pruned makes no difference to the map. -/
theorem live?_ofRoot (root : String) (n : Node) (k : Key)
    : (ofRoot root n).live? k = (⟨some (root, n)⟩ : HashTree).live? k := by
  rw [ofRoot]
  split
  · rename_i hp
    rw [live?_empty, live?_of_isPrunable hp]
  · rfl

/-- A tree with a changed root node holds the same at the keys of other roots. -/
theorem live?_congr_root {root : String} {n m : Node} {path : List String}
    {v : Option Attributes}
    (h : ∀ other, m.live? other = if other = path then v else n.live? other) (k : Key)
    : (⟨some (root, m)⟩ : HashTree).live? k
      = if k = ⟨root :: path⟩ then v else (⟨some (root, n)⟩ : HashTree).live? k := by
  induction k using Key.rootCases root with
  | foreign k hk =>
      have apart : k ≠ ⟨root :: path⟩ := fun he => hk (he ▸ rfl)
      rw [live?_of_ne hk, live?_of_ne hk, if_neg apart]
  | below other => simp [h other]

/-- Adding sets the key and nothing else. -/
theorem live?_addWith {attributes : Attributes} {metadata : Metadata} (hk : key.segments ≠ [])
    (h : t.addWith key attributes metadata = .ok u) (k : Key)
    : u.live? k = if k = key then some attributes else t.live? k := by
  obtain ⟨segments⟩ := key
  cases segments with
  | nil => exact absurd rfl hk
  | cons segment path =>
      rw [addWith] at h
      cases hr : t.root with
      | none =>
          rw [hr] at h
          cases h
          have before : t.live? k = none := by simp [live?, find?, hr]
          rw [live?_congr_root (Node.live?_write _ _ _ _ path) k, before,
            live?_of_isPrunable rfl]
      | some r =>
          obtain ⟨root, n⟩ := r
          rw [hr] at h
          dsimp only at h
          split at h
          · rename_i he
            subst he
            cases h
            obtain ⟨_⟩ := t
            subst hr
            exact live?_congr_root (Node.live?_write _ _ _ _ path) k
          · cases h

/-- Changing a content changes the map at its key and nowhere else. -/
theorem live?_change {f : Content → Content} (ht : t.Shaped) (h : t.change? f key = some u)
    (k : Key)
    : u.live? k
      = if k = key then (t.find? key).bind (fun n => (f n.content).own?) else t.live? k := by
  obtain ⟨root | ⟨root, r⟩⟩ := t
  · simp [change?] at h
  · obtain ⟨segments⟩ := key
    cases segments with
    | nil => simp [change?] at h
    | cons segment path =>
        simp only [change?] at h
        split at h
        · rename_i hs
          subst hs
          obtain ⟨changed, hc, rfl⟩ := Option.map_eq_some_iff.mp h
          rw [live?_ofRoot, find?_root]
          exact live?_congr_root (fun other => Node.live?_change (ht segment r rfl).2 hc) k
        · cases h

theorem live?_clear (ht : t.Shaped) (key k : Key)
    : (t.clear key).live? k = if k = key then none else t.live? k := by
  cases hf : t.find? key with
  | none =>
      rw [clear_of_absent hf]
      split
      · rename_i hk
        rw [hk, live?, hf]
        rfl
      · rfl
  | some n =>
      have changes := t.isSome_change? Content.tombstone key
      rw [hf, Option.isSome_some, Option.isSome_iff_exists] at changes
      obtain ⟨u, hu⟩ := changes
      rw [clear, hu, Option.getD_some, live?_change ht hu, hf]
      simp [Content.tombstone, Content.own?]

/-- Flags leave the map as it is. -/
theorem live?_setError {error : Bool} (ht : t.Shaped) (h : t.setError key error = .ok u) (k : Key)
    : u.live? k = t.live? k := by
  rw [setError] at h
  split at h
  · rename_i v hv
    cases h
    rw [live?_change ht hv]
    split
    · rename_i hk
      rw [hk]
      rfl
    · rfl
  · cases h

/-- Discarding is clearing: a node without children goes at once either way. -/
theorem discard_eq_clear (t : HashTree) (key : Key) : t.discard key = t.clear key := by
  rw [discard]
  cases hf : t.find? key with
  | none => exact (clear_of_absent hf).symm
  | some n =>
      dsimp only
      split
      · rename_i leaf
        obtain ⟨found, out⟩ := clear_of_leaf hf leaf
        rw [out]
        rfl
      · rfl

end HashTree

end Concord
