import Concord.Backend.Basic

/-!
A backend that behaves by script: it counts loads and subscriptions, refuses them or breaks down on
demand, and sends the changes that it is told to send.
-/

namespace Concord.Scenario

/-- What a scripted backend can be made to fail at. -/
inductive BackendOperation where
  | fetch
  | fetchForDelete
  | push
deriving DecidableEq, Repr

/-- The name of an operation in errors. -/
def BackendOperation.name : BackendOperation → String
  | .fetch => "fetch"
  | .fetchForDelete => "fetch_for_delete"
  | .push => "push"

/-- A backend that behaves by script. -/
structure ScriptedBackend where
  name : String := "scripted"
  trees : Std.ExtTreeMap String HashTree := ∅
  failLoads : Nat := 0
  failSubscribes : Nat := 0
  panics : List String := []
  faults : List BackendOperation := []
  loads : Nat := 0
  subscribes : Nat := 0
  pushed : List ResourceBatch := []
  channels : Channels := {}

namespace ScriptedBackend

/-- Writes into the tree that loads of a root give, and sends no change. -/
def put (b : ScriptedBackend) (key : Key) (attributes : Attributes) (metadata : Metadata)
    : ScriptedBackend :=
  let root := key.root?.getD ""
  match ((b.trees[root]?).getD ∅).addWith key attributes metadata with
  | .ok t => { b with trees := b.trees.insert root t }
  | .error _ => b

/-- Clears all faults and breakdowns. -/
def heal (b : ScriptedBackend) : ScriptedBackend :=
  { b with panics := [], faults := [] }

/-- The error of a call that is refused. -/
def refused (b : ScriptedBackend) (operation : String) : BackendError :=
  .backend b.name operation "refused"

/-- A result, or an error if the operation is made to fail. -/
def orFault (b : ScriptedBackend) (operation : BackendOperation) (result : α)
    : Except BackendError α :=
  if b.faults.contains operation then
    .error (.backend b.name operation.name "scripted fault")
  else .ok result

instance : Backend ScriptedBackend where
  name b := b.name
  subscribe root kind b :=
    let b := { b with subscribes := b.subscribes + 1 }
    if 0 < b.failSubscribes then
      (.error (b.refused "subscribe"), { b with failSubscribes := b.failSubscribes - 1 })
    else
      let (id, channels) := b.channels.subscribe root kind
      (.ok id, { b with channels })
  load root _ b :=
    let b := { b with loads := b.loads + 1 }
    if b.panics.contains root then (.panicked, b)
    else if 0 < b.failLoads then
      (.failed (b.refused "load"), { b with failLoads := b.failLoads - 1 })
    else (.tree ((b.trees[root]?).getD ∅), b)
  receive id b :=
    let (received, channels) := b.channels.receive id
    (received, { b with channels })
  queued id b := b.channels.queued id
  close id b := { b with channels := b.channels.close id }
  fetch _ keys b := b.orFault .fetch (keys.map .reference)
  fetchForDelete _ keys b := b.orFault .fetchForDelete (keys.map .marker)
  push _ batch b :=
    match b.orFault .push () with
    | .ok _ => (.ok (), { b with pushed := b.pushed ++ [batch] })
    | .error e => (.error e, b)

end ScriptedBackend

end Concord.Scenario
