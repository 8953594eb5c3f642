import Concord.HashTree.Basic

/-!
Objects of a backing system, the three kinds of trees that they appear in, and the changes by
which those trees are kept up to date.
-/

namespace Concord

/-- Which part of a backing system a tree shows. -/
inductive TreeKind where
  /-- What is configured here. -/
  | config
  /-- What is only observed, such as faults and counters. -/
  | operational
  /-- What is configured elsewhere but seen here. -/
  | monitored
deriving DecidableEq, Repr, Inhabited

namespace TreeKind

/-- All kinds in a fixed order. -/
def all : List TreeKind :=
  [.config, .operational, .monitored]

/-- The word for a kind. -/
def toText : TreeKind → String
  | .config => "config"
  | .operational => "operational"
  | .monitored => "monitored"

end TreeKind

/-- Who manages an object. -/
inductive Owner where
  /-- This system. -/
  | local
  /-- Another authority. -/
  | remote
  /-- No one any more. -/
  | released
deriving DecidableEq, Repr, Inhabited

/-- The word for an owner. -/
def Owner.toText : Owner → String
  | .local => "local"
  | .remote => "remote"
  | .released => "released"

/-- An object: who manages it, its configuration, and what is only observed of it. -/
structure StoredObject where
  owner : Owner := .local
  attributes : Attributes := ∅
  observed : Attributes := ∅
deriving DecidableEq

/-- What an object contributes to the trees of a kind, if it belongs there. -/
def StoredObject.projection? (o : StoredObject) : TreeKind → Option Attributes
  | .config => if o.owner = .local then some o.attributes else none
  | .monitored => if o.owner = .remote then some o.attributes else none
  | .operational => if o.observed.isEmpty then none else some o.observed

/-- A change of one node of an observed tree. -/
inductive TreeEvent where
  /-- The object is there with this content. -/
  | upsert (key : Key) (attributes : Attributes) (metadata : Metadata)
  /-- The object is gone. -/
  | delete (key : Key)
  /-- The object must not be compared, or may be again. -/
  | markError (key : Key) (error : Bool)
deriving DecidableEq

/-- The key of the changed node. -/
def TreeEvent.key : TreeEvent → Key
  | .upsert key _ _ => key
  | .delete key => key
  | .markError key _ => key

namespace HashTree

/-- Takes a node away: a tombstone is left where there are nodes below it. -/
def discard (t : HashTree) (key : Key) : HashTree :=
  match t.find? key with
  | some n => if n.children.isEmpty then ((t.pop? key).map Prod.fst).getD t else t.clear key
  | none => t

/-- Applies a change to a tree. -/
def apply (t : HashTree) : TreeEvent → Except TreeError HashTree
  | .upsert key attributes metadata => t.addWith key attributes metadata
  | .delete key => .ok (t.discard key)
  | .markError key error => t.setError key error

end HashTree

end Concord
