import Concord.Backend.Basic
import Concord.Time.Duration

/-!
The worker that keeps the tree of one root. It subscribes to the changes of the root, loads the
whole tree, and then applies the changes in the order in which they arrive. The tree it has shown
last stays readable whatever happens. A hydration that fails is tried again after a growing delay,
and a stream that ends is replaced by a new one. Times are whole milliseconds.
-/

namespace Concord

/-- The next attempt to hydrate: how many failed before it, and when it is due. -/
structure Retry where
  attempt : UInt32
  due : Nat
deriving DecidableEq, Repr

/-- A worker: the tree it shows, the stream it listens to, and the attempt it waits for. -/
structure Worker where
  root : String
  kind : TreeKind
  snapshot : Option HashTree := none
  stream : Option Nat := none
  retry : Option Retry := none

/-- How an attempt to hydrate turns out. -/
inductive Hydration where
  | fresh (w : Worker)
  | refused (error : BackendError)
  /-- The load broke down, and the worker is gone. -/
  | lost

namespace Worker

/-- The delay before the first retry. -/
def baseBackoff : Duration :=
  .ofMillis 100

/-- The longest delay before a retry. -/
def maxBackoff : Duration :=
  .ofMillis 30000

/-- The worker with a tree just loaded and the stream that was opened before that. -/
def install (w : Worker) (stream : Nat) (tree : HashTree) : Worker :=
  { w with snapshot := some tree, stream := some stream, retry := none }

/-- Drops the stream that a worker listens to. -/
def hangUp [Backend β] (w : Worker) (b : β) : β :=
  match w.stream with
  | some stream => Backend.close stream b
  | none => b

/-- Subscribes first and then loads, so that no change in between is lost. The old stream is kept
until both have succeeded. -/
def hydrate [Backend β] (w : Worker) (b : β) : Hydration × β :=
  match Backend.subscribe w.root w.kind b with
  | (.error e, b) => (.refused e, b)
  | (.ok stream, b) =>
      match Backend.load w.root w.kind b with
      | (.tree t, b) => (.fresh (w.install stream t), w.hangUp b)
      | (.failed e, b) => (.refused e, Backend.close stream b)
      | (.panicked, b) => (.lost, w.hangUp (Backend.close stream b))

/-- The worker after an attempt that failed at `now`, where `attempt` failed before it. -/
def postpone (w : Worker) (attempt : UInt32) (now : Nat) : Worker :=
  let delay := backoff attempt.toNat baseBackoff maxBackoff
  { w with retry := some ⟨saturatingAdd attempt 1, now + delay.millis⟩ }

/-- Tries to hydrate at `now`, and waits for another attempt if that fails. There is no worker any
more if it breaks down. -/
def tryHydrate [Backend β] (w : Worker) (attempt : UInt32) (now : Nat) (b : β)
    : Option Worker × β :=
  match w.hydrate b with
  | (.fresh w, b) => (some w, b)
  | (.refused _, b) => (some (w.postpone attempt now), b)
  | (.lost, b) => (none, b)

/-- Applies a change; one that does not fit the tree is dropped. -/
def apply (w : Worker) (event : TreeEvent) : Worker :=
  match (w.snapshot.getD ∅).apply event with
  | .ok t => { w with snapshot := some t }
  | .error _ => w

/-- Takes note that the stream has ended: a new one is due at once. -/
def streamEnded [Backend β] (w : Worker) (now : Nat) (b : β) : Worker × β :=
  ({ w with stream := none, retry := some ⟨0, now⟩ }, w.hangUp b)

/-- Applies what is queued on the stream, up to `count` changes. -/
def drain [Backend β] (w : Worker) : Nat → β → Worker × β
  | 0, b => (w, b)
  | count + 1, b =>
      match w.stream with
      | none => (w, b)
      | some stream =>
          match Backend.receive stream b with
          | (.event e, b) => (w.apply e).drain count b
          | (_, b) => (w, b)

/-- The number of changes that are queued for a worker. -/
def queued [Backend β] (w : Worker) (b : β) : Nat :=
  match w.stream with
  | some stream => Backend.queued stream b
  | none => 0

end Worker

end Concord
