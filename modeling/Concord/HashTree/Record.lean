import Concord.HashTree.Basic

/-!
Records: the nested form in which trees are stored and exchanged. A record keeps both hashes as
they are, so a tree read back compares equal to the one written even where attributes were left
out. Reading checks that keys nest, that siblings differ, that no dummy is childless, and that
every hash of a subtree covers its children.
-/

namespace Concord

/-- A node and everything below it. -/
structure NodeRecord where
  key : Key
  partialHash : String
  fullHash : String
  dummy : Bool := false
  error : Bool := false
  metadata : Metadata := ∅
  attributes : Attributes := ∅
  children : List NodeRecord := []

mutual
/-- The record of the node at `key`. -/
def Node.toRecord (key : Key) : Node → NodeRecord
  | .mk content partialHash fullHash children =>
      { key, partialHash, fullHash
        dummy := content.dummy
        error := content.error
        metadata := content.metadata
        attributes := content.attributes
        children := children.toRecords key }
/-- The records of the children of the node at `key`, in order. -/
def Forest.toRecords (key : Key) : Forest → List NodeRecord
  | .nil => []
  | .cons segment child rest => child.toRecord (key.child segment) :: rest.toRecords key
end

namespace NodeRecord

mutual
/-- The record with the attributes of every node left out. Both hashes stay. -/
def bare : NodeRecord → NodeRecord
  | ⟨key, partialHash, fullHash, dummy, error, metadata, _, children⟩ =>
      ⟨key, partialHash, fullHash, dummy, error, metadata, ∅, bareAll children⟩
/-- Records with the attributes of every node left out. -/
def bareAll : List NodeRecord → List NodeRecord
  | [] => []
  | record :: rest => record.bare :: bareAll rest
end

/-- The node of a record once its children are read: a dummy needs a child, and the hash of the
subtree has to follow from the node's own hash and the children. -/
def assemble (key : Key) (content : Content) (partialHash fullHash : String) (children : Forest)
    : Except TreeError Node :=
  if content.dummy && children.isEmpty then
    .error (.invalidRecord s!"dummy node '{key.toText}' has no children")
  else if Node.combine partialHash children ≠ fullHash then
    .error (.invalidRecord s!"full hash of '{key.toText}' does not match its children")
  else .ok (.mk content partialHash fullHash children)

mutual
/-- The node that a record describes. -/
def toNode : NodeRecord → Except TreeError Node
  | ⟨key, partialHash, fullHash, dummy, error, metadata, attributes, children⟩ => do
      assemble key { attributes, metadata, dummy, error } partialHash fullHash
        (← toForest key .nil children)
/-- Reads the children of the node at `key` one by one and adds them to `found`. -/
def toForest (key : Key) (found : Forest) : List NodeRecord → Except TreeError Forest
  | [] => .ok found
  | child :: rest =>
      match child.key.segmentBelow? key with
      | some segment => do
          let node ← child.toNode
          if (found.find? segment).isSome then
            .error (.invalidRecord s!"duplicate child under '{key.toText}'")
          else toForest key (found.insert segment node) rest
      | none =>
          .error (.invalidRecord
            s!"'{child.key.toText}' is not a direct child of '{key.toText}'")
end

end NodeRecord

namespace HashTree

/-- The record of the root; an empty tree has none. -/
def toRecord? (t : HashTree) : Option NodeRecord :=
  t.root.map fun r => r.2.toRecord ⟨[r.1]⟩

/-- The tree of a root record. -/
def ofRecord? : Option NodeRecord → Except TreeError HashTree
  | none => .ok ∅
  | some record =>
      match record.key.segments with
      | [root] => record.toNode.map fun n => ⟨some (root, n)⟩
      | _ =>
          .error (.invalidRecord s!"root '{record.key.toText}' must have exactly one segment")

end HashTree

end Concord
