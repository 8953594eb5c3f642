import Mathlib.Data.List.Induction
import Concord.Proofs.HashTree.StoredKeys

/-! Trees with stored keys and trees without. Main statement: whatever is done to a tree whose nodes
store the keys of their paths, they store them afterwards, and the tree is the one that the
operations without stored keys give.
-/

namespace Concord

mutual
/-- The node at `key` with the key of its path stored in it and in every node below. -/
def Node.keyed (key : Key) : Node → KeyedNode
  | .mk content partialHash fullHash children =>
      .mk key content partialHash fullHash (children.keyed key)
/-- The children of the node at `key`, each under the key of its path. -/
def Forest.keyed (key : Key) : Forest → KeyedForest
  | .nil => .nil
  | .cons segment child rest =>
      .cons (key.child segment) (child.keyed (key.child segment)) (rest.keyed key)
end

-----------------------------------------------------------------------------------------
-- Steps along a key
-----------------------------------------------------------------------------------------

namespace Key

theorem compare_child (key : Key) (a b : String)
    : compare (key.child a) (key.child b) = compare a b := by
  have whole := key.compare_below [a] [b]
  rw [List.compare_cons_cons] at whole
  exact whole.trans (Ordering.then_eq)

theorem take_below (key : Key) (segment : String) (rest : List String)
    : (key.below (segment :: rest)).take (key.depth + 1) = key.child segment := by
  have whole : key.segments ++ segment :: rest = (key.child segment).segments ++ rest := by
    simp [child]
  rw [take, below, whole, ← depth_child key segment, depth, List.take_left]

theorem depth_below (key : Key) (path : List String)
    : (key.below path).depth = key.depth + path.length := by
  simp [depth, below]

theorem ne_below (key : Key) (segment : String) (rest : List String)
    : key ≠ key.below (segment :: rest) := by
  intro same
  have longer := congrArg depth same
  simp [depth_below] at longer

/-- A root contains just the keys that start with it. -/
theorem contains_of_root (root : String) (path : List String)
    : (⟨[root]⟩ : Key).contains ⟨root :: path⟩ = true :=
  contains_iff.mpr ⟨path, rfl⟩

theorem not_contains_of_root {root : String} {k : Key} (apart : k.root? ≠ some root)
    : (⟨[root]⟩ : Key).contains k = false := by
  rw [Bool.eq_false_iff]
  intro inside
  obtain ⟨path, rfl⟩ := contains_iff.mp inside
  exact apart rfl

end Key

-----------------------------------------------------------------------------------------
-- Maps of children
-----------------------------------------------------------------------------------------

namespace Forest

variable (f : Forest) (key : Key) (segment : String) (n : Node)

@[simp]
theorem isEmpty_keyed : (f.keyed key).isEmpty = f.isEmpty := by
  cases f <;> rfl

@[simp]
theorem toList_keyed
    : (f.keyed key).toList
      = f.toList.map fun e => (key.child e.1, e.2.keyed (key.child e.1)) := by
  induction f using listInduction with
  | nil => rfl
  | cons s child rest ih => rw [keyed, KeyedForest.toList, ih, toList, List.map_cons]

theorem find?_keyed
    : (f.keyed key).find? (key.child segment)
      = (f.find? segment).map (·.keyed (key.child segment)) := by
  induction f using listInduction with
  | nil => rfl
  | cons s child rest ih =>
      rw [keyed, KeyedForest.find?, find?]
      by_cases here : s = segment
      · simp [here]
      · have apart : key.child s ≠ key.child segment := fun same => here (Key.child_inj same)
        rw [if_neg apart, if_neg here, ih]

theorem insert_keyed
    : (f.keyed key).insert (key.child segment) (n.keyed (key.child segment))
      = (f.insert segment n).keyed key := by
  induction f using listInduction with
  | nil => simp [keyed, insert, KeyedForest.insert]
  | cons s child rest ih =>
      rw [keyed, KeyedForest.insert, insert, Key.compare_child]
      cases compare segment s with
      | lt => simp [keyed]
      | eq => simp [keyed]
      | gt => simp [keyed, ih]

theorem erase_keyed
    : (f.keyed key).erase (key.child segment) = (f.erase segment).keyed key := by
  induction f using listInduction with
  | nil => rfl
  | cons s child rest ih =>
      rw [keyed, KeyedForest.erase, erase]
      by_cases here : s = segment
      · simp [here]
      · have apart : key.child s ≠ key.child segment := fun same => here (Key.child_inj same)
        rw [if_neg apart, if_neg here, keyed, ih]

end Forest

-----------------------------------------------------------------------------------------
-- Nodes
-----------------------------------------------------------------------------------------

namespace Node

theorem keyed_eq (n : Node) (key : Key)
    : n.keyed key = .mk key n.content n.partialHash n.fullHash (n.children.keyed key) := by
  cases n
  rw [keyed]
  rfl

variable (n : Node) (key : Key)

@[simp]
theorem key_keyed : (n.keyed key).key = key := by
  rw [keyed_eq]
  rfl

@[simp]
theorem content_keyed : (n.keyed key).content = n.content := by
  rw [keyed_eq]
  rfl

@[simp]
theorem partialHash_keyed : (n.keyed key).partialHash = n.partialHash := by
  rw [keyed_eq]
  rfl

@[simp]
theorem fullHash_keyed : (n.keyed key).fullHash = n.fullHash := by
  rw [keyed_eq]
  rfl

@[simp]
theorem children_keyed : (n.keyed key).children = n.children.keyed key := by
  rw [keyed_eq]
  rfl

@[simp]
theorem isPrunable_keyed : (n.keyed key).isPrunable = n.isPrunable := by
  simp [KeyedNode.isPrunable, isPrunable, isDummy]

/-- The hash that is computed of a subtree is that of the nodes without keys. -/
theorem refresh_mk (content : Content) (partialHash fullHash : String) (f : Forest)
    : (KeyedNode.mk key content partialHash fullHash (f.keyed key)).refresh
      = (mk content partialHash (combine partialHash f) f).keyed key := by
  rw [KeyedNode.refresh, keyed, combine]
  simp only [KeyedNode.key, KeyedNode.content, KeyedNode.partialHash, KeyedNode.children,
    Forest.isEmpty_keyed, Forest.toList_keyed, List.map_map, Function.comp_def, fullHash_keyed]

theorem refresh_keyed (f : Forest)
    : ((n.keyed key).putChildren (f.keyed key)).refresh = (n.withChildren f).keyed key := by
  rw [keyed_eq]
  exact refresh_mk key n.content n.partialHash n.fullHash f

/-- Content that changes is hashed under the key that is stored. -/
theorem modify_keyed (f : Content → Content)
    : (n.keyed key).modify f = (n.withContent key (f n.content)).keyed key := by
  rw [keyed_eq]
  exact refresh_mk key (f n.content) _ n.fullHash n.children

theorem placeholder_keyed : KeyedNode.placeholder key = (placeholder key).keyed key :=
  rfl

theorem putBack_keyed (segment : String) (child : Node)
    : ((n.keyed key).putBack (key.child segment) (child.keyed (key.child segment))).refresh
      = (n.keepOrPrune segment child).keyed key := by
  rw [KeyedNode.putBack, isPrunable_keyed, children_keyed, Forest.erase_keyed,
    Forest.insert_keyed, ← apply_ite (Forest.keyed key), refresh_keyed]
  rfl

theorem next_keyed (segment : String) (rest : List String)
    : (n.keyed key).next (key.below (segment :: rest)) = key.child segment := by
  rw [KeyedNode.next, key_keyed, Key.take_below]

-----------------------------------------------------------------------------------------
-- Along a path
-----------------------------------------------------------------------------------------

theorem find?_next_keyed (segment : String) (rest : List String)
    : (n.keyed key).children.find? ((n.keyed key).next (key.below (segment :: rest)))
      = (n.children.find? segment).map (·.keyed (key.child segment)) := by
  rw [children_keyed, next_keyed, Forest.find?_keyed]

/-- The stored keys lead where the path leads, by induction on the path. -/
theorem find?_keyed (path : List String)
    : (n.keyed key).find? (key.below path)
      = (n.descend? path).map (·.keyed (key.below path)) := by
  induction path generalizing n key with
  | nil => simp [KeyedNode.find?]
  | cons segment rest ih =>
      rw [KeyedNode.find?_of_lt (by simp [Key.depth_below]), find?_next_keyed, descend?_cons]
      cases n.children.find? segment with
      | none => rfl
      | some child => simpa using ih child (key.child segment)

/-- Writing goes down the path and stores the keys of the path, by induction on it. -/
theorem upsert_keyed (path : List String) (attributes : Attributes) (metadata : Metadata)
    : (n.keyed key).upsert (key.below path) attributes metadata
      = (n.write attributes metadata key path).keyed key := by
  induction path generalizing n key with
  | nil =>
      rw [KeyedNode.upsert, dif_pos (by simp), modify_keyed]
      rfl
  | cons segment rest ih =>
      rw [KeyedNode.upsert_of_ne (by simp [Key.depth_below]), find?_next_keyed, next_keyed, write]
      have child : ((n.children.find? segment).map (·.keyed (key.child segment))).getD
            (KeyedNode.placeholder (key.child segment))
          = ((n.children.find? segment).getD (placeholder (key.child segment))).keyed
              (key.child segment) := by
        cases n.children.find? segment <;> rfl
      rw [child, ← Key.below_child, ih, children_keyed, Forest.insert_keyed, refresh_keyed]

variable {n : Node} {key : Key}

/-- A child that is written back as it was leaves the node as it was. -/
theorem insert_self_keyed (ordered : n.children.Ordered) {segment : String} {child : Node}
    (there : n.children.find? segment = some child)
    : (n.keyed key).putChildren
          ((n.children.keyed key).insert (key.child segment) (child.keyed (key.child segment)))
      = n.keyed key := by
  rw [Forest.insert_keyed, ordered.insert_eq_replace there, Forest.replace_self there, keyed_eq]
  rfl

/-- What is taken out stores its keys, and so does what is left, by induction on the path. -/
theorem detach_keyed (shaped : n.AllShaped) (segment : String) (rest : List String)
    : (n.keyed key).detach (key.below (segment :: rest))
      = InPlace.outcome (n.keyed key) ((n.detach? (segment :: rest)).map fun found =>
          (found.1.keyed key, found.2.keyed (key.below (segment :: rest)))) := by
  induction rest generalizing n key segment with
  | nil =>
      rw [KeyedNode.detach_eq, find?_next_keyed, next_keyed, detach?]
      cases n.children.find? segment with
      | none => rfl
      | some child =>
          have last : key.child segment = key.below [segment] := rfl
          simp [← last, Forest.erase_keyed, refresh_keyed, InPlace.outcome]
  | cons next rest ih =>
      rw [KeyedNode.detach_eq, find?_next_keyed, next_keyed, detach?]
      cases there : n.children.find? segment with
      | none => rfl
      | some child =>
          have further : key.child segment ≠ key.below (segment :: next :: rest) :=
            Key.below_child key segment _ ▸ Key.ne_below _ next rest
          have deeper := @ih child (key.child segment) (shaped.child there) next
          rw [Key.below_child] at deeper
          cases found : child.detach? (next :: rest) with
          | none =>
              simp [further, deeper, found, InPlace.outcome,
                insert_self_keyed shaped.top.ordered there]
          | some parts => simp [further, deeper, found, InPlace.outcome, putBack_keyed]

/-- Changing a content keeps the stored keys, by induction on the path. -/
theorem mutateAt_keyed (shaped : n.AllShaped) (path : List String) (f : Content → Content)
    : (n.keyed key).mutateAt (key.below path) f
      = ((n.change? f key path).isSome, ((n.change? f key path).getD n).keyed key) := by
  induction path generalizing n key with
  | nil =>
      rw [KeyedNode.mutateAt, if_pos (by simp), modify_keyed]
      rfl
  | cons segment rest ih =>
      have further : (n.keyed key).key ≠ key.below (segment :: rest) := by
        rw [key_keyed]
        exact key.ne_below segment rest
      rw [KeyedNode.mutateAt_of_ne further, find?_next_keyed, next_keyed, change?]
      cases there : n.children.find? segment with
      | none => rfl
      | some child =>
          have deeper := @ih child (key.child segment) (shaped.child there)
          rw [Key.below_child] at deeper
          cases found : child.change? f (key.child segment) rest with
          | none => simp [deeper, found, insert_self_keyed shaped.top.ordered there]
          | some changed => simp [deeper, found, putBack_keyed]

theorem underDummies_append (n : Node) (key : Key) (path rest : List String)
    : n.underDummies key (path ++ rest)
      = (n.underDummies (key.below path) rest).underDummies key path := by
  induction path generalizing key with
  | nil => simp [underDummies]
  | cons segment path ih =>
      rw [List.cons_append, underDummies, underDummies, ih, Key.below_child]

/-- Going up by the stored keys comes to what going down the path gives, by induction on the path
from its end.
-/
theorem wrap_keyed (n : Node) (root : String) (path : List String)
    : (n.keyed ((⟨[root]⟩ : Key).below path)).wrap
      = (n.underDummies ⟨[root]⟩ path).keyed ⟨[root]⟩ := by
  induction path using List.reverseRecOn generalizing n with
  | nil =>
      rw [KeyedNode.wrap_eq, key_keyed]
      rfl
  | append_singleton path segment ih =>
      have last : (⟨[root]⟩ : Key).below (path ++ [segment])
          = ((⟨[root]⟩ : Key).below path).child segment := by
        simp [Key.below, Key.child]
      rw [KeyedNode.wrap_eq, key_keyed, last, Key.parent?_child (by simp [Key.below]),
        underDummies_append, ← ih]
      exact congrArg KeyedNode.wrap
        (refresh_keyed (placeholder ((⟨[root]⟩ : Key).below path)) _ (.cons segment n .nil))

end Node

-----------------------------------------------------------------------------------------
-- Trees
-----------------------------------------------------------------------------------------

namespace HashTree

/-- The tree with the key of its path stored in every node. -/
def keyed (t : HashTree) : KeyedTree :=
  ⟨t.root.map fun r => r.2.keyed ⟨[r.1]⟩⟩

theorem keyed_some (root : String) (n : Node)
    : (⟨some (root, n)⟩ : HashTree).keyed = ⟨some (n.keyed ⟨[root]⟩)⟩ :=
  rfl

theorem ofRoot_keyed (root : String) (n : Node)
    : KeyedTree.ofRoot (n.keyed ⟨[root]⟩) = (ofRoot root n).keyed := by
  rw [KeyedTree.ofRoot, Node.isPrunable_keyed, ofRoot]
  split <;> rfl

variable (t : HashTree) (key : Key)

theorem find?_keyed : t.keyed.find? key = (t.find? key).map (·.keyed key) := by
  obtain ⟨_ | ⟨root, n⟩⟩ := t
  · rfl
  rw [keyed_some, KeyedTree.find?]
  induction key using Key.rootCases root with
  | foreign key apart =>
      simp [Key.not_contains_of_root apart, find?_eq_none_of_root rfl apart]
  | below path =>
      have there : (n.keyed ⟨[root]⟩).find? ⟨root :: path⟩
          = (n.descend? path).map (·.keyed ⟨root :: path⟩) :=
        n.find?_keyed ⟨[root]⟩ path
      simp [Key.contains_of_root, find?_root, there]

theorem pop_keyed (shaped : t.Shaped)
    : t.keyed.pop key
      = InPlace.outcome t.keyed ((t.pop? key).map fun found => (found.1.keyed, found.2.keyed)) := by
  obtain ⟨_ | ⟨root, n⟩⟩ := t
  · rfl
  rw [keyed_some, KeyedTree.pop]
  induction key using Key.rootCases root with
  | foreign key apart =>
      have absent := pop?_eq_none_iff.mpr (find?_eq_none_of_root (t := ⟨some (root, n)⟩) rfl apart)
      simp [Key.not_contains_of_root apart, absent, InPlace.outcome]
  | below path =>
      cases path with
      | nil =>
          have whole : (n.keyed ⟨[root]⟩).wrap = n.keyed ⟨[root]⟩ := n.wrap_keyed root []
          simp [Key.isEmpty, Key.contains_of_root, whole, pop?, InPlace.outcome]
          exact ⟨rfl, rfl⟩
      | cons segment rest =>
          have gone : (n.keyed ⟨[root]⟩).detach ⟨root :: segment :: rest⟩ = _ :=
            Node.detach_keyed (shaped root n rfl).2 segment rest
          cases found : n.detach? (segment :: rest) with
          | none =>
              simp [Key.isEmpty, Key.contains_of_root, gone, found, pop?, InPlace.outcome]
          | some parts =>
              have out := parts.2.wrap_keyed root (segment :: rest)
              simp [Key.isEmpty, Key.contains_of_root, gone, found, pop?, InPlace.outcome, out,
                ofRoot_keyed, keyed_some]

theorem mutate_keyed (shaped : t.Shaped) (f : Content → Content)
    : t.keyed.mutate key f = ((t.change? f key).isSome, ((t.change? f key).getD t).keyed) := by
  obtain ⟨_ | ⟨root, n⟩⟩ := t
  · rfl
  rw [keyed_some, KeyedTree.mutate]
  induction key using Key.rootCases root with
  | foreign key apart =>
      have absent := change?_eq_none_iff (f := f).mpr
        (find?_eq_none_of_root (t := ⟨some (root, n)⟩) rfl apart)
      simp [Key.not_contains_of_root apart, absent, keyed_some]
  | below path =>
      have gone : (n.keyed ⟨[root]⟩).mutateAt ⟨root :: path⟩ f = _ :=
        Node.mutateAt_keyed (shaped root n rfl).2 path f
      cases found : n.change? f ⟨[root]⟩ path with
      | none => simp [Key.isEmpty, Key.contains_of_root, gone, found, change?, keyed_some]
      | some changed =>
          simp [Key.isEmpty, Key.contains_of_root, gone, found, change?, ofRoot_keyed]

theorem addWith_keyed (attributes : Attributes) (metadata : Metadata)
    : t.keyed.addWith key attributes metadata
      = InPlace.verdict t.keyed
          ((t.addWith key attributes metadata).map fun u => (u.keyed, ())) := by
  obtain ⟨_ | ⟨segment, rest⟩⟩ := key
  · rfl
  have written (n : Node)
      : (n.keyed ⟨[segment]⟩).upsert ⟨segment :: rest⟩ attributes metadata = _ :=
    n.upsert_keyed ⟨[segment]⟩ rest attributes metadata
  obtain ⟨_ | ⟨root, n⟩⟩ := t
  · simp [keyed, KeyedTree.addWith, addWith, Key.root?, Node.placeholder_keyed, written,
      Except.map, InPlace.verdict]
  · by_cases here : root = segment
    · subst here
      simp [keyed, KeyedTree.addWith, addWith, Key.root?, written, Except.map, InPlace.verdict]
    · have name : (⟨[root]⟩ : Key).toText = root := by simp [Key.toText]
      simp [keyed, KeyedTree.addWith, addWith, Key.root?, here, name, Except.map,
        InPlace.verdict]

theorem addAll_keyed (items : List (Key × Attributes))
    : t.keyed.addAll items = ((t.addAll items).2, (t.addAll items).1.keyed) := by
  induction items generalizing t with
  | nil => rfl
  | cons item rest ih =>
      rw [KeyedTree.addAll, addWith_keyed, addAll, add]
      cases t.addWith item.1 item.2 ∅ with
      | error e => rfl
      | ok u => exact ih u

theorem remove_keyed (shaped : t.Shaped)
    : t.keyed.remove key
      = InPlace.verdict t.keyed
          ((t.remove key).map fun found => (found.1.keyed, found.2.keyed)) := by
  rw [KeyedTree.remove, pop_keyed t key shaped, remove]
  cases t.pop? key <;> rfl

theorem clear_keyed (shaped : t.Shaped) : t.keyed.clear key = (t.clear key).keyed := by
  rw [KeyedTree.clear, mutate_keyed t key shaped, clear]

theorem setError_keyed (shaped : t.Shaped) (error : Bool)
    : t.keyed.setError key error
      = InPlace.verdict t.keyed ((t.setError key error).map fun u => (u.keyed, ())) := by
  rw [KeyedTree.setError, mutate_keyed t key shaped, setError]
  cases t.change? (fun c => { c with error }) key <;> rfl

end HashTree

-----------------------------------------------------------------------------------------
-- Records
-----------------------------------------------------------------------------------------

mutual
/-- The record of stored keys is the record of paths. -/
theorem Node.toRecord_keyed (key : Key) : ∀ n : Node, (n.keyed key).toRecord = n.toRecord key
  | .mk content partialHash fullHash children => by
      rw [Node.keyed, KeyedNode.toRecord, Node.toRecord, Forest.toRecords_keyed key children]
/-- The records of children of stored keys are those of paths. -/
theorem Forest.toRecords_keyed (key : Key)
    : ∀ f : Forest, KeyedNode.toRecords (f.keyed key) = f.toRecords key
  | .nil => by rw [Forest.keyed, KeyedNode.toRecords, Forest.toRecords]
  | .cons segment child rest => by
      rw [Forest.keyed, KeyedNode.toRecords, Forest.toRecords,
        Node.toRecord_keyed (key.child segment) child, Forest.toRecords_keyed key rest]
end

/-- What is written of a tree with stored keys is what is written of the tree without. -/
theorem HashTree.toRecord?_keyed (t : HashTree) : t.keyed.toRecord? = t.toRecord? := by
  rw [KeyedTree.toRecord?, keyed, toRecord?, Option.map_map]
  exact congrArg (Option.map · t.root) (funext fun r => Node.toRecord_keyed ⟨[r.1]⟩ r.2)

/-- The segment that leads to a key from the parent it has. -/
theorem Key.exists_segmentBelow? {k parent : Key} (h : k.parent? = some parent)
    : ∃ segment, k.segmentBelow? parent = some segment ∧ k = parent.child segment := by
  rw [segmentBelow?, if_pos h, leaf?]
  rw [parent?] at h
  split at h
  · cases h
  · rename_i deep
    cases h
    cases last : k.segments.getLast? with
    | none =>
        rw [depth, List.getLast?_eq_none_iff.mp last] at deep
        exact absurd (Nat.zero_le 1) deep
    | some segment =>
        exact ⟨segment, rfl, congrArg Key.mk (List.dropLast_append_getLast? segment last).symm⟩

namespace KeyedNode

theorem checked_keyed (key : Key) (content : Content) (partialHash fullHash : String) (f : Forest)
    : checked (.mk key content partialHash fullHash (f.keyed key))
      = (NodeRecord.assemble key content partialHash fullHash f).map (·.keyed key) := by
  have prunable : (mk key content partialHash fullHash (f.keyed key)).isPrunable
      = (content.dummy && f.isEmpty) :=
    congrArg (content.dummy && ·) (f.isEmpty_keyed key)
  rw [checked, prunable, Node.refresh_mk, Node.fullHash_keyed, NodeRecord.assemble]
  split
  · rfl
  · change (if Node.combine partialHash f ≠ fullHash then _ else _) = _
    split
    · rfl
    · simp [Except.map, Node.keyed]

/-- Children are put into the map under the keys of their records, which are those of their paths,
by list induction.
-/
theorem ofRecords_keyed {key : Key} {l : List NodeRecord} {found : Forest}
    (read : ∀ c ∈ l, ofRecord c = c.toNode.map (·.keyed c.key))
    : ofRecords key (found.keyed key) l
      = (NodeRecord.toForest key found l).map (·.keyed key) := by
  induction l generalizing found with
  | nil =>
      rw [ofRecords, NodeRecord.toForest]
      rfl
  | cons c rest ih =>
      rw [ofRecords, NodeRecord.toForest]
      by_cases below : c.key.parent? = some key
      · obtain ⟨segment, leads, same⟩ := Key.exists_segmentBelow? below
        rw [if_pos below, leads, read c List.mem_cons_self, same]
        cases c.toNode with
        | error e => rfl
        | ok n =>
            have later := @ih (found.insert segment n) fun c hc =>
              read c (List.mem_cons_of_mem _ hc)
            simp [Except.map, Except.bind, bind, Forest.find?_keyed, Forest.insert_keyed]
            split
            · rfl
            · exact later
      · have nowhere : c.key.segmentBelow? key = none := by rw [Key.segmentBelow?, if_neg below]
        rw [if_neg below, nowhere]
        rfl

/-- What is read of a record stores the keys of the record, by induction on records. -/
theorem ofRecord_keyed (r : NodeRecord) : ofRecord r = r.toNode.map (·.keyed r.key) := by
  induction r using NodeRecord.childInduction with
  | step r ih =>
      have children := @ofRecords_keyed r.key r.children .nil ih
      obtain ⟨key, partialHash, fullHash, dummy, error, metadata, attributes, l⟩ := r
      rw [Forest.keyed] at children
      rw [ofRecord, NodeRecord.toNode, children]
      cases NodeRecord.toForest key .nil l with
      | error e => rfl
      | ok f => exact checked_keyed key _ partialHash fullHash f

end KeyedNode

/-- A root record has a key of one segment or is refused. -/
theorem HashTree.ofRecord?_keyed (source : Option NodeRecord)
    : KeyedTree.ofRecord? source = (ofRecord? source).map keyed := by
  cases source with
  | none => rfl
  | some r =>
      obtain ⟨key, partialHash, fullHash, dummy, error, metadata, attributes, l⟩ := r
      rw [KeyedTree.ofRecord?, ofRecord?, KeyedNode.ofRecord_keyed]
      obtain ⟨_ | ⟨root, _ | ⟨next, rest⟩⟩⟩ := key
      · rfl
      · cases NodeRecord.toNode _ <;> rfl
      · simp [Key.depth, Except.map]

-----------------------------------------------------------------------------------------
-- Edits one after the other
-----------------------------------------------------------------------------------------

open Relation (ReflTransGen)

namespace HashTree

variable {t u v : HashTree}

/-- An edit of a tree with stored keys comes to an operation on the tree without, or to none if it
fails.
-/
theorem step_of_keyed {w : KeyedTree} (shaped : t.Shaped) (step : KeyedTree.Step t.keyed w)
    : ∃ v, ReflTransGen Step t v ∧ w = v.keyed := by
  cases step with
  | added key attributes metadata =>
      rw [addWith_keyed]
      cases h : t.addWith key attributes metadata with
      | error e => exact ⟨t, .refl, rfl⟩
      | ok u => exact ⟨u, .single (.added h), rfl⟩
  | included items =>
      rw [addAll_keyed]
      exact ⟨_, .single (.included items), rfl⟩
  | popped key =>
      rw [pop_keyed t key shaped]
      cases h : t.pop? key with
      | none => exact ⟨t, .refl, rfl⟩
      | some parts => exact ⟨parts.1, .single (.popped h), rfl⟩
  | detached taken =>
      rename_i key
      rw [pop_keyed t key shaped] at taken
      cases h : t.pop? key with
      | none =>
          rw [h] at taken
          cases taken
      | some parts =>
          rw [h] at taken
          cases taken
          exact ⟨parts.2, .single (.detached h), rfl⟩
  | removed key =>
      rw [remove_keyed t key shaped]
      cases h : t.remove key with
      | error e => exact ⟨t, .refl, rfl⟩
      | ok parts => exact ⟨parts.1, .single (.removed h), rfl⟩
  | extracted taken =>
      rename_i key
      rw [remove_keyed t key shaped] at taken
      cases h : t.remove key with
      | error e =>
          rw [h] at taken
          cases taken
      | ok parts =>
          rw [h] at taken
          cases taken
          exact ⟨parts.2, .single (.extracted h), rfl⟩
  | cleared key => exact ⟨t.clear key, .single (.cleared key), clear_keyed t key shaped⟩
  | flagged key error =>
      rw [setError_keyed t key shaped]
      cases h : t.setError key error with
      | error e => exact ⟨t, .refl, rfl⟩
      | ok u => exact ⟨u, .single (.flagged h), rfl⟩

/-- An operation on a tree comes to an edit of the tree with stored keys. -/
theorem Step.keyed (shaped : t.Shaped) (step : Step t u) : KeyedTree.Step t.keyed u.keyed := by
  cases step with
  | added h =>
      rename_i key attributes metadata
      have edit := KeyedTree.Step.added (t := t.keyed) key attributes metadata
      rwa [addWith_keyed, h] at edit
  | included items =>
      have edit := KeyedTree.Step.included (t := t.keyed) items
      rwa [addAll_keyed] at edit
  | popped h =>
      rename_i left key
      have edit := KeyedTree.Step.popped (t := t.keyed) key
      rwa [pop_keyed t key shaped, h] at edit
  | detached h =>
      rename_i left key
      refine @KeyedTree.Step.detached _ _ key ?_
      rw [pop_keyed t key shaped, h]
      rfl
  | removed h =>
      rename_i found key
      have edit := KeyedTree.Step.removed (t := t.keyed) key
      rwa [remove_keyed t key shaped, h] at edit
  | extracted h =>
      rename_i left key
      refine @KeyedTree.Step.extracted _ _ key ?_
      rw [remove_keyed t key shaped, h]
      rfl
  | cleared key =>
      have edit := KeyedTree.Step.cleared (t := t.keyed) key
      rwa [clear_keyed t key shaped] at edit
  | flagged h =>
      rename_i key error
      have edit := KeyedTree.Step.flagged (t := t.keyed) key error
      rwa [setError_keyed t key shaped, h] at edit

end HashTree

/-- The trees with stored keys that edits reach from the empty tree or one that was read are those
of the trees without that operations reach from there, by induction on the edits.
-/
theorem KeyedTree.reached_iff {source : Option NodeRecord} {w : KeyedTree}
    : (∃ start, ofRecord? source = .ok start ∧ ReflTransGen Step start w)
      ↔ ∃ start t, HashTree.ofRecord? source = .ok start ∧ ReflTransGen HashTree.Step start t
          ∧ w = t.keyed := by
  constructor
  · rintro ⟨_, read, run⟩
    rw [HashTree.ofRecord?_keyed] at read
    cases found : HashTree.ofRecord? source with
    | error e =>
        rw [found] at read
        cases read
    | ok start =>
        rw [found] at read
        cases read
        induction run with
        | refl => exact ⟨start, start, rfl, .refl, rfl⟩
        | tail _ step ih =>
            obtain ⟨_, t, same, before, rfl⟩ := ih
            cases same
            obtain ⟨u, after, rfl⟩ :=
              HashTree.step_of_keyed (HashTree.shaped_of_run found before) step
            exact ⟨start, u, rfl, before.trans after, rfl⟩
  · rintro ⟨start, t, found, run, rfl⟩
    refine ⟨start.keyed, by rw [HashTree.ofRecord?_keyed, found]; rfl, ?_⟩
    induction run with
    | refl => exact .refl
    | tail before step ih =>
        exact ih.tail (step.keyed (HashTree.shaped_of_run found before))

end Concord
