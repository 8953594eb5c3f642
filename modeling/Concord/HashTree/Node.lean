import Concord.Content

/-!
Nodes of a hash tree. A node stores its content, the digest of that content under its key, the
digest of its whole subtree, and its children by segment in ascending order. Keys are not stored:
a node's key is the path that leads to it. Every operation here that changes a node leaves its
digest of the whole subtree up to date.
-/

namespace Concord

mutual
/-- A node without its key. The two hashes are kept as they were read or computed. -/
inductive Node where
  | mk (content : Content) (partialHash fullHash : String) (children : Forest)
deriving DecidableEq
/-- The children of a node with the segment that leads to each. -/
inductive Forest where
  | nil
  | cons (segment : String) (child : Node) (rest : Forest)
deriving DecidableEq
end

namespace Forest

/-- Whether there are no children. -/
def isEmpty : Forest → Bool
  | nil => true
  | cons .. => false

/-- The child under a segment. -/
def find? (segment : String) : Forest → Option Node
  | nil => none
  | cons s child rest => if s = segment then some child else rest.find? segment

/-- Puts a child under a segment, in place of the one that is there. -/
def insert (segment : String) (node : Node) : Forest → Forest
  | nil => cons segment node nil
  | cons s child rest =>
      match compare segment s with
      | .lt => cons segment node (cons s child rest)
      | .eq => cons segment node rest
      | .gt => cons s child (rest.insert segment node)

/-- Takes away the child under a segment. -/
def erase (segment : String) : Forest → Forest
  | nil => nil
  | cons s child rest => if s = segment then rest else cons s child (rest.erase segment)

/-- The children in order. -/
def toList : Forest → List (String × Node)
  | nil => []
  | cons s child rest => (s, child) :: rest.toList

end Forest

namespace Node

/-- What the node holds of its own. -/
def content : Node → Content
  | mk content _ _ _ => content

/-- The digest of the node's own content. -/
def partialHash : Node → String
  | mk _ partialHash _ _ => partialHash

/-- The digest of the node's subtree. -/
def fullHash : Node → String
  | mk _ _ fullHash _ => fullHash

/-- The nodes one segment below. -/
def children : Node → Forest
  | mk _ _ _ children => children

/-- Whether the node only holds up the nodes below it. -/
def isDummy (n : Node) : Bool :=
  n.content.dummy

/-- Whether the node keeps its subtree out of comparisons. -/
def isError (n : Node) : Bool :=
  n.content.error

/-- A dummy without children has no reason to stay in a tree. -/
def isPrunable (n : Node) : Bool :=
  n.isDummy && n.children.isEmpty

/-- The digest of a subtree: that of the content alone if there are no children, otherwise of it
and of the children's subtrees in order. -/
def combine (partialHash : String) (children : Forest) : String :=
  if children.isEmpty then partialHash
  else Digest.fingerprint
    (Encoding.subtree partialHash (children.toList.map fun entry => entry.2.fullHash))

/-- The node at `key` with this content and these children, its hashes computed. -/
def ofContent (key : Key) (content : Content) (children : Forest) : Node :=
  let partialHash := Digest.fingerprint (Encoding.content key content)
  mk content partialHash (combine partialHash children) children

/-- The node with other children; its own hash is kept, that of its subtree follows. -/
def withChildren (n : Node) (children : Forest) : Node :=
  mk n.content n.partialHash (combine n.partialHash children) children

/-- The node at `key` with other content, both hashes computed anew. -/
def withContent (n : Node) (key : Key) (content : Content) : Node :=
  ofContent key content n.children

/-- The dummy that stands at `key` until something is written there. -/
def placeholder (key : Key) : Node :=
  ofContent key .placeholder .nil

/-- The node's children with `child` under `segment`, or without that segment where `child` is a
dummy with nothing below it. -/
def keepOrPrune (n : Node) (segment : String) (child : Node) : Node :=
  n.withChildren
    (if child.isPrunable then n.children.erase segment else n.children.insert segment child)

/-- The node that the remaining segments lead to. -/
def descend? : Node → List String → Option Node
  | n, [] => some n
  | n, segment :: rest => (n.children.find? segment).bind (descend? · rest)

/-- Writes attributes and tags at the end of the remaining segments, where `key` leads to the
node. Missing nodes on the way become dummies. -/
def write (attributes : Attributes) (metadata : Metadata) : Key → Node → List String → Node
  | key, n, [] => n.withContent key (n.content.write attributes metadata)
  | key, n, segment :: rest =>
      let next := key.child segment
      let child := (n.children.find? segment).getD (placeholder next)
      n.withChildren (n.children.insert segment (write attributes metadata next child rest))

/-- Takes the node at the end of the remaining segments out: what is left of `n`, and the node.
Dummies on the way that are left without children go too. -/
def detach? : Node → List String → Option (Node × Node)
  | _, [] => none
  | n, [segment] =>
      (n.children.find? segment).map fun child => (n.withChildren (n.children.erase segment), child)
  | n, segment :: next :: rest =>
      (n.children.find? segment).bind fun child =>
        (detach? child (next :: rest)).map fun found => (n.keepOrPrune segment found.1, found.2)

/-- Changes the content of the node at the end of the remaining segments, where `key` leads to
the node. Dummies on the way that are left without children go. -/
def change? (f : Content → Content) : Key → Node → List String → Option Node
  | key, n, [] => some (n.withContent key (f n.content))
  | key, n, segment :: rest =>
      (n.children.find? segment).bind fun child =>
        (change? f (key.child segment) child rest).map fun changed =>
          n.keepOrPrune segment changed

/-- The node `n` under fresh dummies for the remaining segments, where `key` leads to the first
of them. -/
def underDummies (n : Node) : Key → List String → Node
  | _, [] => n
  | key, segment :: rest =>
      ofContent key .placeholder (.cons segment (n.underDummies (key.child segment) rest) .nil)

end Node

mutual
/-- The node at `key` and every node below it with their keys, parents before children. -/
def Node.walk (key : Key) : Node → List (Key × Node)
  | .mk content partialHash fullHash children =>
      (key, .mk content partialHash fullHash children) :: children.walk key
/-- Every node at and below the children of the node at `key`, with their keys. -/
def Forest.walk (key : Key) : Forest → List (Key × Node)
  | .nil => []
  | .cons segment child rest => child.walk (key.child segment) ++ rest.walk key
end

mutual
/-- The keys at and below `key` that hold something, parents first. Subtrees flagged as errors
are left out. -/
def Node.liveKeys (key : Key) : Node → List Key
  | .mk content _ _ children =>
      if content.error then []
      else (if content.dummy then [] else [key]) ++ children.liveKeys key
/-- The keys below `key` that hold something and stand in no subtree flagged as an error. -/
def Forest.liveKeys (key : Key) : Forest → List Key
  | .nil => []
  | .cons segment child rest => child.liveKeys (key.child segment) ++ rest.liveKeys key
end

end Concord
