import Concord.HashTree.Basic

/-!
The difference between two trees: the keys to add to the second and to remove from it so that it
becomes the first. Subtrees whose hashes agree are skipped, and nothing below a node flagged as an
error in either tree is compared.
-/

namespace Concord

/-- Keys to add and keys to remove. -/
structure TreeDiff where
  add : List Key := []
  remove : List Key := []
deriving DecidableEq, Repr, Inhabited

namespace TreeDiff

/-- Whether there is nothing to do. -/
def isEmpty (d : TreeDiff) : Bool :=
  d.add.isEmpty && d.remove.isEmpty

/-- The number of keys on both sides. -/
def count (d : TreeDiff) : Nat :=
  d.add.length + d.remove.length

/-- Whether a key is on either side. -/
def contains (d : TreeDiff) (key : Key) : Bool :=
  d.add.contains key || d.remove.contains key

/-- Both sides one after the other. -/
def append (d e : TreeDiff) : TreeDiff :=
  ⟨d.add ++ e.add, d.remove ++ e.remove⟩

instance : Append TreeDiff :=
  ⟨append⟩

end TreeDiff

/-- The live keys below `key` of those children that have no counterpart in `others`. -/
def Forest.unmatchedKeys (key : Key) : Forest → Forest → List Key
  | .nil, _ => []
  | .cons segment child rest, others =>
      (if (others.find? segment).isNone then child.liveKeys (key.child segment) else [])
        ++ rest.unmatchedKeys key others

/-- What two nodes at one key need apart from what is below them: the key is added where the
contents differ and mine holds something, and removed where only theirs does. -/
def Node.ownDiff (key : Key) (mine theirs : Node) : TreeDiff :=
  if mine.partialHash = theirs.partialHash then {}
  else if !mine.isDummy then { add := [key] }
  else if !theirs.isDummy then { remove := [key] }
  else {}

mutual
/-- The difference of two nodes at one key. -/
def Node.diff (key : Key) : Node → Node → TreeDiff
  | .mk content partialHash fullHash children, theirs =>
      let mine := Node.mk content partialHash fullHash children
      mine.ownDiff key theirs ++
        if content.error || theirs.isError || fullHash = theirs.fullHash then {}
        else children.diff key theirs.children
          ++ { remove := theirs.children.unmatchedKeys key children }
/-- What the children of the node at `key` need against the children on the other side that have
the same segments. -/
def Forest.diff (key : Key) : Forest → Forest → TreeDiff
  | .nil, _ => {}
  | .cons segment child rest, theirs =>
      (match theirs.find? segment with
        | none => { add := child.liveKeys (key.child segment) }
        | some other =>
            if other.fullHash = child.fullHash then {} else child.diff (key.child segment) other)
        ++ rest.diff key theirs
end

/-- What has to be done to `theirs` so that it becomes `mine`. -/
def HashTree.diff (mine theirs : HashTree) : TreeDiff :=
  match mine.root, theirs.root with
  | none, none => {}
  | some (root, n), none => { add := n.liveKeys ⟨[root]⟩ }
  | none, some (root, n) => { remove := n.liveKeys ⟨[root]⟩ }
  | some (root, n), some (other, m) =>
      if root = other then n.diff ⟨[root]⟩ m
      else { add := n.liveKeys ⟨[root]⟩, remove := m.liveKeys ⟨[other]⟩ }

end Concord
