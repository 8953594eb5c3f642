import Concord.HashTree.Node
import Concord.HashTree.Error

/-!
Hash trees: the snapshot of everything under one root key. A tree is empty or has a root of one
segment. Two trees are taken for equal when the hashes of their roots are.
-/

namespace Concord

/-- A tree: its root's segment and node, if it is not empty. -/
structure HashTree where
  root : Option (String × Node) := none
deriving DecidableEq

namespace HashTree

/-- The tree without nodes. -/
def empty : HashTree :=
  {}

instance : EmptyCollection HashTree :=
  ⟨empty⟩

instance : Inhabited HashTree :=
  ⟨∅⟩

/-- Whether the tree has no nodes. -/
def isEmpty (t : HashTree) : Bool :=
  t.root.isNone

/-- The key of the root. -/
def rootKey? (t : HashTree) : Option Key :=
  t.root.map fun r => ⟨[r.1]⟩

/-- The digest of the whole tree. -/
def rootHash? (t : HashTree) : Option String :=
  t.root.map fun r => r.2.fullHash

/-- Whether two trees compare equal: both are empty, or their roots have one hash. -/
def same (t u : HashTree) : Bool :=
  t.rootHash? = u.rootHash?

/-- The node at a key. -/
def find? (t : HashTree) (key : Key) : Option Node :=
  match t.root, key.segments with
  | some (root, n), segment :: rest => if segment = root then n.descend? rest else none
  | _, _ => none

/-- Writes attributes and tags at a key. Missing ancestors become dummies, and the empty key is
ignored. -/
def addWith (t : HashTree) (key : Key) (attributes : Attributes) (metadata : Metadata)
    : Except TreeError HashTree :=
  match key.segments with
  | [] => .ok t
  | segment :: rest =>
      match t.root with
      | none =>
          let start : Key := ⟨[segment]⟩
          .ok ⟨some (segment, (Node.placeholder start).write attributes metadata start rest)⟩
      | some (root, n) =>
          if root = segment then
            .ok ⟨some (root, n.write attributes metadata ⟨[root]⟩ rest)⟩
          else .error (.inconsistentRoot root key)

/-- Writes attributes at a key and drops its tags. -/
def add (t : HashTree) (key : Key) (attributes : Attributes)
    : Except TreeError HashTree :=
  t.addWith key attributes ∅

/-- Adds entries in order. What was added before an entry that fails stays. -/
def addAll (t : HashTree) : List (Key × Attributes) → HashTree × Except TreeError Unit
  | [] => (t, .ok ())
  | (key, attributes) :: rest =>
      match t.add key attributes with
      | .ok u => u.addAll rest
      | .error e => (t, .error e)

/-- A root, or no tree at all if it is a dummy without children. -/
def ofRoot (segment : String) (n : Node) : HashTree :=
  if n.isPrunable then ∅ else ⟨some (segment, n)⟩

/-- Takes the subtree at a key out: what is left, and the subtree as a tree of its own under fresh
dummies. There is no result where no node stands at the key. -/
def pop? (t : HashTree) (key : Key) : Option (HashTree × HashTree) :=
  match t.root, key.segments with
  | some (root, n), segment :: rest =>
      if segment ≠ root then none
      else match rest with
        | [] => some (∅, t)
        | _ :: _ =>
            (n.detach? rest).map fun found =>
              (ofRoot root found.1, ⟨some (root, found.2.underDummies ⟨[root]⟩ rest)⟩)
  | _, _ => none

/-- Like `pop?`, but a key without a node is an error. -/
def remove (t : HashTree) (key : Key) : Except TreeError (HashTree × HashTree) :=
  match t.pop? key with
  | some found => .ok found
  | none => .error (.notFound key)

/-- Changes the content at a key, where there is a node. -/
def change? (t : HashTree) (f : Content → Content) (key : Key) : Option HashTree :=
  match t.root, key.segments with
  | some (root, n), segment :: rest =>
      if segment = root then (n.change? f ⟨[root]⟩ rest).map (ofRoot root) else none
  | _, _ => none

/-- Leaves a tombstone at a key, which goes at once if nothing is below it. A key without a node
is ignored. -/
def clear (t : HashTree) (key : Key) : HashTree :=
  (t.change? Content.tombstone key).getD t

/-- Flags or unflags the subtree at a key as kept out of comparisons. -/
def setError (t : HashTree) (key : Key) (error : Bool) : Except TreeError HashTree :=
  match t.change? (fun c => { c with error }) key with
  | some u => .ok u
  | none => .error (.notFound key)

/-- Every node with its key, parents before children. -/
def nodes (t : HashTree) : List (Key × Node) :=
  match t.root with
  | none => []
  | some (root, n) => n.walk ⟨[root]⟩

/-- The keys that hold something and whose node passes `p`, in order. -/
def select (t : HashTree) (p : Node → Bool) : List Key :=
  (t.nodes.filter fun entry => !entry.2.isDummy && p entry.2).map Prod.fst

/-- The keys that hold something. -/
def keys (t : HashTree) : List Key :=
  t.select fun _ => true

/-- The number of keys that hold something. -/
def size (t : HashTree) : Nat :=
  t.keys.length

/-- The keys whose tag `name` is `value`. -/
def keysTagged (t : HashTree) (name value : String) : List Key :=
  t.select fun n => n.content.metadata[name]? = some value

/-- The keys without a tag `name`. -/
def keysUntagged (t : HashTree) (name : String) : List Key :=
  t.select fun n => !n.content.metadata.contains name

/-- The keys at and below a key that hold something and stand in no subtree flagged as an error
from there on. -/
def subtreeKeys (t : HashTree) (key : Key) : List Key :=
  match t.find? key with
  | some n => n.liveKeys key
  | none => []

end HashTree

end Concord
