import Concord.Backend.Object

/-!
The streams of changes that a backend keeps for those who observe it: one queue for every
subscription to a root and kind. A stream that was ended still gives what is queued.
-/

namespace Concord

/-- One subscription and the changes that it has yet to give. -/
structure Channel where
  id : Nat
  root : String
  kind : TreeKind
  queue : List TreeEvent := []
  ended : Bool := false

/-- All subscriptions. -/
structure Channels where
  nextId : Nat := 0
  members : List Channel := []

/-- What a stream gives. -/
inductive Received where
  /-- Nothing yet. -/
  | waiting
  /-- The next change. -/
  | event (e : TreeEvent)
  /-- Nothing any more. -/
  | ended

namespace Channels

/-- Opens a stream of the changes of a root from now on. -/
def subscribe (c : Channels) (root : String) (kind : TreeKind) : Nat × Channels :=
  (c.nextId, ⟨c.nextId + 1, c.members ++ [{ id := c.nextId, root, kind }]⟩)

/-- Queues a change on every stream of a root and kind. -/
def send (c : Channels) (root : String) (kind : TreeKind) (event : TreeEvent) : Channels :=
  { c with
    members := c.members.map fun ch =>
      if ch.root = root && ch.kind = kind && !ch.ended then { ch with queue := ch.queue ++ [event] }
      else ch }

/-- A stream. -/
def get? (c : Channels) (id : Nat) : Option Channel :=
  c.members.find? fun ch => ch.id = id

/-- Takes what a stream gives next. -/
def receive (c : Channels) (id : Nat) : Received × Channels :=
  match c.get? id with
  | none => (.waiting, c)
  | some ch =>
      match ch.queue with
      | event :: rest =>
          (.event event,
            { c with
              members := c.members.map fun ch =>
                if ch.id = id then { ch with queue := rest } else ch })
      | [] => (if ch.ended then .ended else .waiting, c)

/-- Takes what is queued on a stream, up to a number of changes. -/
def take (id : Nat) : Nat → Channels → List TreeEvent × Channels
  | 0, c => ([], c)
  | count + 1, c =>
      match c.receive id with
      | (.event e, c) =>
          let (rest, c) := take id count c
          (e :: rest, c)
      | (_, c) => ([], c)

/-- The number of changes that are queued on a stream. -/
def queued (c : Channels) (id : Nat) : Nat :=
  ((c.get? id).map fun ch => ch.queue.length).getD 0

/-- Drops a stream and what is queued on it. -/
def close (c : Channels) (id : Nat) : Channels :=
  { c with members := c.members.filter fun ch => ch.id ≠ id }

/-- Ends all streams of a root. -/
def endRoot (c : Channels) (root : String) : Channels :=
  { c with
    members := c.members.map fun ch => if ch.root = root then { ch with ended := true } else ch }

/-- The number of streams of a root that were not ended. -/
def live (c : Channels) (root : String) : Nat :=
  (c.members.filter fun ch => ch.root = root && !ch.ended).length

end Channels

end Concord
