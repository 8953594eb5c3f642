import Concord.Content

/-!
Resources: the objects that tree keys stand for, what is to be done with them, and batches of
both. The identity of a resource, its kind and key, is what failures are tracked by.
-/

namespace Concord

/-- What is to be done with a resource. -/
inductive ActionKind where
  | create
  | delete
deriving DecidableEq, Repr

/-- The word for an action. -/
def ActionKind.toText : ActionKind → String
  | .create => "create"
  | .delete => "delete"

/-- The place of an action in order: creation is first. -/
def ActionKind.rank : ActionKind → Nat
  | .create => 0
  | .delete => 1

/-- The kind and key of a resource. -/
structure ResourceIdentity where
  kind : String
  key : Key
deriving DecidableEq, Repr

/-- Kind and key with a colon between them. -/
def ResourceIdentity.toText (i : ResourceIdentity) : String :=
  s!"{i.kind}:{i.key.toText}"

/-- An action on a resource, the unit of failure tracking. -/
structure ResourceAction where
  action : ActionKind
  identity : ResourceIdentity
deriving DecidableEq, Repr

namespace ResourceAction

/-- Actions on resources order by action, then kind, then key. -/
def order : ResourceAction → ResourceAction → Ordering :=
  compareLex (compareOn fun a => a.action.rank)
    (compareLex (compareOn fun a => a.identity.kind) (compareOn fun a => a.identity.key))

instance : Std.TransCmp order :=
  inferInstanceAs (Std.TransCmp (compareLex _ (compareLex _ _)))

instance : Std.LawfulEqCmp order where
  eq_of_compare {a b} h := by
    obtain ⟨x, ⟨k, s⟩⟩ := a
    obtain ⟨y, ⟨l, t⟩⟩ := b
    simp only [order, compareLex_eq_eq, compareOn, Std.LawfulEqCmp.compare_eq_iff_eq] at h
    obtain ⟨hr, rfl, rfl⟩ := h
    cases x <;> cases y <;> simp_all [ActionKind.rank]

instance : Ord ResourceAction :=
  ⟨order⟩

instance : Std.TransOrd ResourceAction :=
  inferInstanceAs (Std.TransCmp order)

instance : Std.LawfulEqOrd ResourceAction :=
  inferInstanceAs (Std.LawfulEqCmp order)

end ResourceAction

/-- An object of a backing system, or the marker of who owns one. -/
structure Resource where
  kind : String
  key : Key
  attributes : Attributes := ∅
  ownershipMarker : Bool := false
deriving DecidableEq

namespace Resource

/-- The kind of ownership markers. -/
def markerKind : String :=
  "ownership-tag"

/-- A resource whose kind is told by its key. -/
def ofKey (key : Key) (attributes : Attributes) : Resource :=
  { kind := key.kind?.getD "", key, attributes }

/-- A resource without attributes, which is enough to delete it. -/
def reference (key : Key) : Resource :=
  ofKey key ∅

/-- The marker of who owns the object at a key. -/
def marker (key : Key) : Resource :=
  { kind := markerKind, key, ownershipMarker := true }

/-- The root of the resource's key. -/
def root? (r : Resource) : Option String :=
  r.key.root?

/-- The kind and key of a resource. -/
def identity (r : Resource) : ResourceIdentity :=
  ⟨r.kind, r.key⟩

end Resource

/-- Resources to create and to delete in one go. -/
structure ResourceBatch where
  create : List Resource := []
  delete : List Resource := []
deriving DecidableEq, Inhabited

namespace ResourceBatch

/-- The number of resources. -/
def size (b : ResourceBatch) : Nat :=
  b.create.length + b.delete.length

/-- Whether there are no resources. -/
def isEmpty (b : ResourceBatch) : Bool :=
  b.create.isEmpty && b.delete.isEmpty

/-- Adds a resource at the end of the list for an action. -/
def push (b : ResourceBatch) (action : ActionKind) (resource : Resource) : ResourceBatch :=
  match action with
  | .create => { b with create := b.create ++ [resource] }
  | .delete => { b with delete := b.delete ++ [resource] }

end ResourceBatch

end Concord
