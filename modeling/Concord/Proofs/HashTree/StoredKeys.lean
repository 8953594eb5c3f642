import Concord.Proofs.HashTree.InPlace
import Concord.Proofs.HashTree.Records

/-! Trees as they lie in memory: every node stores its own key, and its children stand in a map under
keys of their own. Lookups and edits go by these keys and hash what is stored, so it is the edits
alone that keep the key in a node, its key in the map and the path to it in step.
-/

namespace Concord

theorem Key.depth_parent? {k parent : Key} (h : k.parent? = some parent)
    : parent.depth < k.depth := by
  rw [parent?] at h
  split at h
  · cases h
  · rename_i deep
    cases h
    rw [depth] at deep ⊢
    rw [List.length_dropLast, depth]
    omega

mutual
/-- A node with its key. -/
inductive KeyedNode where
  | mk (key : Key) (content : Content) (partialHash fullHash : String) (children : KeyedForest)
/-- The children of a node, each under a key of the map. -/
inductive KeyedForest where
  | nil
  | cons (key : Key) (child : KeyedNode) (rest : KeyedForest)
end

-----------------------------------------------------------------------------------------
-- Maps of children
-----------------------------------------------------------------------------------------

namespace KeyedForest

/-- Whether there are no children. -/
def isEmpty : KeyedForest → Bool
  | nil => true
  | cons .. => false

/-- The child under a key. -/
def find? (key : Key) : KeyedForest → Option KeyedNode
  | nil => none
  | cons k child rest => if k = key then some child else rest.find? key

/-- Puts a child under a key, in place of the one that is there. -/
def insert (key : Key) (node : KeyedNode) : KeyedForest → KeyedForest
  | nil => cons key node nil
  | cons k child rest =>
      match compare key k with
      | .lt => cons key node (cons k child rest)
      | .eq => cons key node rest
      | .gt => cons k child (rest.insert key node)

/-- Takes away the child under a key. -/
def erase (key : Key) : KeyedForest → KeyedForest
  | nil => nil
  | cons k child rest => if k = key then rest else cons k child (rest.erase key)

/-- The children in order, with their keys in the map. -/
def toList : KeyedForest → List (Key × KeyedNode)
  | nil => []
  | cons k child rest => (k, child) :: rest.toList

/-- A child is smaller than the map that holds it, by list recursion. -/
theorem sizeOf_of_find? {f : KeyedForest} {key : Key} {child : KeyedNode}
    (h : f.find? key = some child)
    : sizeOf child < sizeOf f := by
  match f with
  | nil => cases h
  | cons k first rest =>
      rw [find?] at h
      split at h
      · cases h
        simp
        omega
      · have smaller := sizeOf_of_find? h
        simp
        omega

end KeyedForest

-----------------------------------------------------------------------------------------
-- Nodes
-----------------------------------------------------------------------------------------

namespace KeyedNode

/-- The key that is stored. -/
def key : KeyedNode → Key
  | mk key _ _ _ _ => key

/-- What the node holds of its own. -/
def content : KeyedNode → Content
  | mk _ content _ _ _ => content

/-- The digest of the node's own content. -/
def partialHash : KeyedNode → String
  | mk _ _ partialHash _ _ => partialHash

/-- The digest of the node's subtree. -/
def fullHash : KeyedNode → String
  | mk _ _ _ fullHash _ => fullHash

/-- The map of the children. -/
def children : KeyedNode → KeyedForest
  | mk _ _ _ _ children => children

/-- A dummy without children has no reason to stay in a tree. -/
def isPrunable (n : KeyedNode) : Bool :=
  n.content.dummy && n.children.isEmpty

/-- Other children, while all else stays as it is for the time being. -/
def putChildren (n : KeyedNode) (children : KeyedForest) : KeyedNode :=
  mk n.key n.content n.partialHash n.fullHash children

/-- Computes the hash of the subtree anew from the own hash and those of the children in order. -/
def refresh (n : KeyedNode) : KeyedNode :=
  mk n.key n.content n.partialHash
    (if n.children.isEmpty then n.partialHash
      else Digest.fingerprint
        (Encoding.subtree n.partialHash (n.children.toList.map fun e => e.2.fullHash)))
    n.children

/-- Computes both hashes anew, the own one from the key and the content that are stored. -/
def rehash (n : KeyedNode) : KeyedNode :=
  (mk n.key n.content (Digest.fingerprint (Encoding.content n.key n.content)) n.fullHash
    n.children).refresh

/-- The dummy that stands at a key until something is written there. -/
def placeholder (key : Key) : KeyedNode :=
  (mk key .placeholder "" "" .nil).rehash

/-- Other content, hashed at once. -/
def modify (f : Content → Content) (n : KeyedNode) : KeyedNode :=
  (mk n.key (f n.content) n.partialHash n.fullHash n.children).rehash

/-- Where the child stands in the map that is next on the way to a key. -/
def next (n : KeyedNode) (key : Key) : Key :=
  key.take (n.key.depth + 1)

/-- Writes back the child that was gone into, or takes it out if it is a dummy without children. -/
def putBack (n : KeyedNode) (key : Key) (child : KeyedNode) : KeyedNode :=
  n.putChildren (if child.isPrunable then n.children.erase key else n.children.insert key child)

theorem sizeOf_children (n : KeyedNode) : sizeOf n.children < sizeOf n := by
  cases n
  simp [children]

theorem sizeOf_of_find? {n child : KeyedNode} {key : Key} (h : n.children.find? key = some child)
    : sizeOf child < sizeOf n :=
  (KeyedForest.sizeOf_of_find? h).trans n.sizeOf_children

/-- How far the stored key is from the length of a key. -/
def distance (n : KeyedNode) (key : Key) : Nat :=
  (n.key.depth - key.depth) + (key.depth - n.key.depth)

/-- A dummy that is put on the way to a key has no children and is closer to it. -/
theorem placeholder_closer (n : KeyedNode) (key : Key) (away : n.key.depth ≠ key.depth)
    : Prod.Lex (· < ·) (· < ·)
        (sizeOf (placeholder (n.next key)).children, (placeholder (n.next key)).distance key)
        (sizeOf n.children, n.distance key) := by
  have depth : (placeholder (n.next key)).key.depth = min (n.key.depth + 1) key.depth :=
    List.length_take
  have closer : (placeholder (n.next key)).distance key < n.distance key := by
    rw [distance, distance, depth]
    omega
  cases children : n.children with
  | nil => exact .right _ closer
  | cons k child rest =>
      refine .left _ _ ?_
      cases k
      simp [placeholder, rehash, refresh, KeyedNode.children]
      omega

/-- Goes down until the stored keys are as long as the key. -/
def find? (n : KeyedNode) (key : Key) : Option KeyedNode :=
  if n.key.depth < key.depth then
    match _h : n.children.find? (n.next key) with
    | some child => child.find? key
    | none => none
  else some n
termination_by n
decreasing_by exact sizeOf_of_find? _h

theorem find?_of_lt {n : KeyedNode} {key : Key} (short : n.key.depth < key.depth)
    : n.find? key = (n.children.find? (n.next key)).bind (·.find? key) := by
  rw [find?, if_pos short]
  split <;> simp [*]

/-- Writes at a key, and puts dummies where nodes are missing on the way. -/
def upsert (n : KeyedNode) (key : Key) (attributes : Attributes) (metadata : Metadata)
    : KeyedNode :=
  if _h : n.key.depth = key.depth then n.modify (·.write attributes metadata)
  else
    let child :=
      match _h : n.children.find? (n.next key) with
      | some child => child.upsert key attributes metadata
      | none => (placeholder (n.next key)).upsert key attributes metadata
    (n.putChildren (n.children.insert (n.next key) child)).refresh
termination_by (sizeOf n.children, n.distance key)
decreasing_by
  · exact .left _ _ ((sizeOf_children child).trans (KeyedForest.sizeOf_of_find? _h))
  · exact n.placeholder_closer key (by assumption)

theorem upsert_of_ne {n : KeyedNode} {key : Key} (away : n.key.depth ≠ key.depth)
    (attributes : Attributes) (metadata : Metadata)
    : n.upsert key attributes metadata
      = (n.putChildren
          (n.children.insert (n.next key)
            (((n.children.find? (n.next key)).getD (placeholder (n.next key))).upsert key
              attributes metadata))).refresh := by
  rw [upsert, dif_neg away]
  split <;> simp [*]

/-- Takes out the node at a key below: what was taken out, and what is left. -/
def detach (n : KeyedNode) (key : Key) : Option KeyedNode × KeyedNode :=
  match _h : n.children.find? (n.next key) with
  | none => (none, n)
  | some child =>
      if n.next key = key then (some child, (n.putChildren (n.children.erase key)).refresh)
      else
        match child.detach key with
        | (none, child) => (none, n.putChildren (n.children.insert (n.next key) child))
        | (some found, child) => (some found, (n.putBack (n.next key) child).refresh)
termination_by n
decreasing_by exact sizeOf_of_find? _h

theorem detach_eq (n : KeyedNode) (key : Key)
    : n.detach key
      = match n.children.find? (n.next key) with
        | none => (none, n)
        | some child =>
            if n.next key = key then (some child, (n.putChildren (n.children.erase key)).refresh)
            else
              match child.detach key with
              | (none, child) => (none, n.putChildren (n.children.insert (n.next key) child))
              | (some found, child) => (some found, (n.putBack (n.next key) child).refresh) := by
  rw [detach]
  split <;> simp [*]

/-- Changes the content at a key, and says whether there is a node. -/
def mutateAt (n : KeyedNode) (key : Key) (f : Content → Content) : Bool × KeyedNode :=
  if n.key = key then (true, n.modify f)
  else
    match _h : n.children.find? (n.next key) with
    | none => (false, n)
    | some child =>
        match child.mutateAt key f with
        | (false, child) => (false, n.putChildren (n.children.insert (n.next key) child))
        | (true, child) => (true, (n.putBack (n.next key) child).refresh)
termination_by n
decreasing_by exact sizeOf_of_find? _h

theorem mutateAt_of_ne {n : KeyedNode} {key : Key} (apart : n.key ≠ key) (f : Content → Content)
    : n.mutateAt key f
      = match n.children.find? (n.next key) with
        | none => (false, n)
        | some child =>
            match child.mutateAt key f with
            | (false, child) => (false, n.putChildren (n.children.insert (n.next key) child))
            | (true, child) => (true, (n.putBack (n.next key) child).refresh) := by
  rw [mutateAt, if_neg apart]
  split <;> simp [*]

/-- The node under fresh dummies for the keys above the one that is stored. -/
def wrap (n : KeyedNode) : KeyedNode :=
  match _h : n.key.parent? with
  | none => n
  | some parent => ((placeholder parent).putChildren (.cons n.key n .nil)).refresh.wrap
termination_by n.key.depth
decreasing_by exact Key.depth_parent? _h

theorem wrap_eq (n : KeyedNode)
    : n.wrap
      = match n.key.parent? with
        | none => n
        | some parent => ((placeholder parent).putChildren (.cons n.key n .nil)).refresh.wrap := by
  rw [wrap]
  split <;> simp [*]

/-- Checks a node that was read: a dummy needs a child, and the hash of the subtree has to follow
from the own hash and the children. -/
def checked (n : KeyedNode) : Except TreeError KeyedNode :=
  if n.isPrunable then
    .error (.invalidRecord s!"dummy node '{n.key.toText}' has no children")
  else if n.refresh.fullHash ≠ n.fullHash then
    .error (.invalidRecord s!"full hash of '{n.key.toText}' does not match its children")
  else .ok n

mutual
/-- The node that a record describes, with the key of the record. -/
def ofRecord : NodeRecord → Except TreeError KeyedNode
  | ⟨key, partialHash, fullHash, dummy, error, metadata, attributes, children⟩ => do
      checked (.mk key { attributes, metadata, dummy, error } partialHash fullHash
        (← ofRecords key .nil children))
/-- Reads the children of the node at `key` one by one and puts them into the map under the keys
that they have. -/
def ofRecords (key : Key) (found : KeyedForest) : List NodeRecord → Except TreeError KeyedForest
  | [] => .ok found
  | child :: rest =>
      if child.key.parent? = some key then do
        let node ← ofRecord child
        if (found.find? node.key).isSome then
          .error (.invalidRecord s!"duplicate child under '{key.toText}'")
        else ofRecords key (found.insert node.key node) rest
      else
        .error (.invalidRecord
          s!"'{child.key.toText}' is not a direct child of '{key.toText}'")
end

mutual
/-- The record of a node, with the keys that are stored. -/
def toRecord : KeyedNode → NodeRecord
  | mk key content partialHash fullHash children =>
      { key, partialHash, fullHash
        dummy := content.dummy
        error := content.error
        metadata := content.metadata
        attributes := content.attributes
        children := toRecords children }
/-- The records of children in order. -/
def toRecords : KeyedForest → List NodeRecord
  | .nil => []
  | .cons _ child rest => child.toRecord :: toRecords rest
end

end KeyedNode

-----------------------------------------------------------------------------------------
-- Trees
-----------------------------------------------------------------------------------------

/-- A tree: its root, if it is not empty. -/
structure KeyedTree where
  root : Option KeyedNode := none

namespace KeyedTree

instance : EmptyCollection KeyedTree :=
  ⟨{}⟩

/-- A root, or no tree at all if it is a dummy without children. -/
def ofRoot (n : KeyedNode) : KeyedTree :=
  if n.isPrunable then ∅ else ⟨some n⟩

/-- The node at a key. -/
def find? (t : KeyedTree) (key : Key) : Option KeyedNode :=
  t.root.bind fun root => if root.key.contains key then root.find? key else none

/-- Writes attributes and tags at a key. The empty key is ignored. -/
def addWith (t : KeyedTree) (key : Key) (attributes : Attributes) (metadata : Metadata)
    : Except TreeError Unit × KeyedTree :=
  match key.root? with
  | none => (.ok (), t)
  | some segment =>
      match t.root with
      | some root =>
          if root.key ≠ ⟨[segment]⟩ then (.error (.inconsistentRoot root.key.toText key), t)
          else (.ok (), ⟨some (root.upsert key attributes metadata)⟩)
      | none =>
          (.ok (), ⟨some ((KeyedNode.placeholder ⟨[segment]⟩).upsert key attributes metadata)⟩)

/-- Adds entries in order up to the first one that fails. -/
def addAll (t : KeyedTree) : List (Key × Attributes) → Except TreeError Unit × KeyedTree
  | [] => (.ok (), t)
  | (key, attributes) :: rest =>
      match t.addWith key attributes ∅ with
      | (.ok (), t) => t.addAll rest
      | (.error e, t) => (.error e, t)

/-- Takes the subtree at a key out as a tree of its own. -/
def pop (t : KeyedTree) (key : Key) : Option KeyedTree × KeyedTree :=
  match t.root with
  | none => (none, t)
  | some root =>
      if key.isEmpty || !root.key.contains key then (none, t)
      else if root.key = key then (some ⟨some root.wrap⟩, ∅)
      else
        match root.detach key with
        | (none, root) => (none, ⟨some root⟩)
        | (some found, root) => (some ⟨some found.wrap⟩, ofRoot root)

/-- Like `pop`, but a key without a node is an error. -/
def remove (t : KeyedTree) (key : Key) : Except TreeError KeyedTree × KeyedTree :=
  match t.pop key with
  | (some found, t) => (.ok found, t)
  | (none, t) => (.error (.notFound key), t)

/-- Changes the content at a key, and says whether there is a node. -/
def mutate (t : KeyedTree) (key : Key) (f : Content → Content) : Bool × KeyedTree :=
  match t.root with
  | none => (false, t)
  | some root =>
      if !root.key.contains key || key.isEmpty then (false, t)
      else
        match root.mutateAt key f with
        | (false, root) => (false, ⟨some root⟩)
        | (true, root) => (true, ofRoot root)

/-- Leaves a tombstone at a key. -/
def clear (t : KeyedTree) (key : Key) : KeyedTree :=
  (t.mutate key Content.tombstone).2

/-- Flags or unflags the subtree at a key. -/
def setError (t : KeyedTree) (key : Key) (error : Bool) : Except TreeError Unit × KeyedTree :=
  match t.mutate key fun c => { c with error } with
  | (true, t) => (.ok (), t)
  | (false, t) => (.error (.notFound key), t)

/-- The tree of a root record. -/
def ofRecord? : Option NodeRecord → Except TreeError KeyedTree
  | none => .ok ∅
  | some record =>
      if record.key.depth ≠ 1 then
        .error (.invalidRecord s!"root '{record.key.toText}' must have exactly one segment")
      else (KeyedNode.ofRecord record).map fun n => ⟨some n⟩

/-- The record of the root; an empty tree has none. -/
def toRecord? (t : KeyedTree) : Option NodeRecord :=
  t.root.map KeyedNode.toRecord

/-- One edit of a tree, whether it fails or not, with what it leaves or what it takes out. -/
inductive Step : KeyedTree → KeyedTree → Prop
  | added {t} (key : Key) (attributes : Attributes) (metadata : Metadata)
    : Step t (t.addWith key attributes metadata).2
  | included {t} (items : List (Key × Attributes)) : Step t (t.addAll items).2
  | popped {t} (key : Key) : Step t (t.pop key).2
  | detached {t found key} (h : (t.pop key).1 = some found) : Step t found
  | removed {t} (key : Key) : Step t (t.remove key).2
  | extracted {t found key} (h : (t.remove key).1 = .ok found) : Step t found
  | cleared {t} (key : Key) : Step t (t.clear key)
  | flagged {t} (key : Key) (error : Bool) : Step t (t.setError key error).2

end KeyedTree

end Concord
