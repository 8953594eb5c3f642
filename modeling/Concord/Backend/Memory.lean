import Concord.Backend.Basic

/-!
A backend held in memory: objects by key, of which each kind of tree shows a part. Every change of
an object queues the changes of the trees that it appears in before the change is over. Deleting
an ownership marker releases the object: it stays, but leaves both configuration trees.
-/

namespace Concord

/-- Objects by key, the keys whose pushes are dropped, the keys flagged as not to be compared, and
the streams of those who observe. -/
structure Memory where
  name : String
  objects : Std.ExtTreeMap Key StoredObject := ∅
  failing : KeySet := ∅
  errors : KeySet := ∅
  pushes : Nat := 0
  channels : Channels := {}

namespace Memory

/-- The change of the tree of a kind when the object at a key changes from one to another. -/
def change? (key : Key) (kind : TreeKind) (old new : Option StoredObject) : Option TreeEvent :=
  let was := old.bind (·.projection? kind)
  match new.bind (·.projection? kind) with
  | some attributes => if was = some attributes then none else some (.upsert key attributes ∅)
  | none => if was.isSome then some (.delete key) else none

/-- Queues the changes of all trees when the object at a key changes. The empty key is in no
tree. -/
def notify (key : Key) (old new : Option StoredObject) (c : Channels) : Channels :=
  match key.root? with
  | none => c
  | some root =>
      TreeKind.all.foldl
        (fun c kind =>
          match change? key kind old new with
          | some event => c.send root kind event
          | none => c)
        c

/-- Puts an object at a key, or takes it away, with its flag. -/
def write (m : Memory) (key : Key) (object : Option StoredObject) : Memory :=
  { m with
    objects :=
      match object with
      | some o => m.objects.insert key o
      | none => m.objects.erase key
    errors := if object.isSome then m.errors else m.errors.erase key
    channels := notify key m.objects[key]? object m.channels }

/-- Puts an object at a key. -/
def insert (m : Memory) (key : Key) (object : StoredObject) : Memory :=
  m.write key (some object)

/-- Takes the object at a key away. -/
def delete (m : Memory) (key : Key) : Memory :=
  m.write key none

/-- Changes the object at a key, which has to be there. -/
def update (m : Memory) (key : Key) (f : StoredObject → StoredObject)
    : Except BackendError Memory :=
  match m.objects[key]? with
  | some o => .ok (m.insert key (f o))
  | none => .error (.backend m.name "update object" s!"'{key.toText}' not found")

/-- Changes who manages an object. -/
def setOwner (m : Memory) (key : Key) (owner : Owner) : Except BackendError Memory :=
  m.update key fun o => { o with owner }

/-- Changes what is observed of an object. -/
def setObserved (m : Memory) (key : Key) (observed : Attributes) : Except BackendError Memory :=
  m.update key fun o => { o with observed }

/-- Flags or unflags an object as not to be compared in any tree that it appears in. The flag is
kept until the object is deleted. -/
def markError (m : Memory) (key : Key) (error : Bool) : Memory :=
  match m.objects[key]? with
  | none => m
  | some o =>
      let root := key.root?.getD ""
      { m with
        errors := if error then m.errors.insert key else m.errors.erase key
        channels := TreeKind.all.foldl
          (fun c kind =>
            if (o.projection? kind).isSome then c.send root kind (.markError key error) else c)
          m.channels }

/-- Drops all pushes of a key from now on. -/
def failKey (m : Memory) (key : Key) : Memory :=
  { m with failing := m.failing.insert key }

/-- Drops pushes of a key no longer. -/
def recoverKey (m : Memory) (key : Key) : Memory :=
  { m with failing := m.failing.erase key }

/-- The objects of a root that appear in the trees of a kind, in order. -/
def projection (m : Memory) (root : String) (kind : TreeKind) : List (Key × Attributes) :=
  m.objects.toList.filterMap fun entry =>
    if entry.1.root? = some root then (entry.2.projection? kind).map (entry.1, ·) else none

/-- The tree of a root and kind: its objects, and the flags of those that stand in it. -/
def load (m : Memory) (root : String) (kind : TreeKind) : Except BackendError HashTree :=
  match HashTree.empty.addAll (m.projection root kind) with
  | (_, .error e) => .error (.tree e)
  | (t, .ok _) =>
      .ok <| m.errors.toList.foldl
        (fun t key =>
          if key.root? = some root then
            match t.setError key true with
            | .ok flagged => flagged
            | .error _ => t
          else t)
        t

/-- What to create at keys: the objects that appear in trees of the kind. -/
def fetch (m : Memory) (kind : TreeKind) (keys : List Key) : List Resource :=
  keys.filterMap fun key =>
    ((m.objects[key]?).bind (·.projection? kind)).map (Resource.ofKey key)

/-- What to delete at keys. What is managed elsewhere is not deleted itself: its ownership marker
is. -/
def fetchForDelete (kind : TreeKind) (keys : List Key) : List Resource :=
  keys.map fun key =>
    match kind with
    | .monitored => .marker key
    | .config => .reference key
    | .operational => .reference key

/-- Deletes one resource, if there is an object and its pushes are not dropped. -/
def applyDelete (kind : TreeKind) (m : Memory) (r : Resource) : Memory :=
  if m.failing.contains r.key then m
  else
    match m.objects[r.key]? with
    | none => m
    | some o =>
        if r.ownershipMarker then m.insert r.key { o with owner := .released }
        else
          match kind with
          | .operational => m.insert r.key { o with observed := ∅ }
          | .config => m.delete r.key
          | .monitored => m.delete r.key

/-- Creates one resource, unless its pushes are dropped. What is there already is kept but for the
part that trees of the kind show. -/
def applyCreate (kind : TreeKind) (m : Memory) (r : Resource) : Memory :=
  if m.failing.contains r.key then m
  else
    let o := (m.objects[r.key]?).getD {}
    match kind with
    | .config => m.insert r.key { o with owner := .local, attributes := r.attributes }
    | .monitored => m.insert r.key { o with owner := .remote, attributes := r.attributes }
    | .operational => m.insert r.key { o with observed := r.attributes }

/-- Applies a batch: first what is to be deleted, then what is to be created. -/
def push (m : Memory) (kind : TreeKind) (batch : ResourceBatch) : Memory :=
  let m := { m with pushes := m.pushes + 1 }
  batch.create.foldl (applyCreate kind) (batch.delete.foldl (applyDelete kind) m)

instance : Backend Memory where
  name m := m.name
  subscribe root kind m :=
    let (id, channels) := m.channels.subscribe root kind
    (.ok id, { m with channels })
  load root kind m :=
    match m.load root kind with
    | .ok t => (.tree t, m)
    | .error e => (.failed e, m)
  receive id m :=
    let (received, channels) := m.channels.receive id
    (received, { m with channels })
  queued id m := m.channels.queued id
  close id m := { m with channels := m.channels.close id }
  fetch kind keys m := .ok (m.fetch kind keys)
  fetchForDelete kind keys _ := .ok (fetchForDelete kind keys)
  push kind batch m := (.ok (), m.push kind batch)

end Memory

end Concord
