import Concord.Reconcile.Config
import Concord.Reconcile.Status
import Concord.Time.Rfc3339
import Concord.Wire.Tree

/-!
The JSON form of resources, statuses, failure records and the configuration of reconciliation.
-/

namespace Concord

namespace Wire

/-- A resource. -/
def resource (r : Resource) : Json :=
  .record [("kind", .ofText r.kind), ("key", key r.key), ("attributes", attributes r.attributes),
    ("ownership_marker", .bool r.ownershipMarker)]

/-- The identity of a resource. -/
def identity (i : ResourceIdentity) : Json :=
  .record [("kind", .ofText i.kind), ("key", key i.key)]

/-- A batch. -/
def batch (b : ResourceBatch) : Json :=
  .record [("create", .ofList resource b.create), ("delete", .ofList resource b.delete)]

/-- A status, told by its name. -/
def status (s : SyncStatus) : Json :=
  match s with
  | .failed action reason =>
      .record [("status", .ofText s.name), ("action", .ofText action.toText),
        ("reason", .ofText reason)]
  | _ => .record [("status", .ofText s.name)]

/-- A change of status. -/
def transition (t : StatusTransition) : Json :=
  .record [("root", .ofText t.root), ("key", key t.key), ("status", status t.status)]

/-- The word for an escalation. -/
def escalation : Escalation → String
  | .reset => "reset"
  | .purge => "purge"

/-- The word for the state of a record. -/
def trackedState : TrackedState → String
  | .active => "active"
  | .failed => "failed"

section

variable {time : Type} [Timed time]

/-- A moment. -/
def moment (t : time) : Json :=
  .ofText (Timed.moment t).toText

/-- A failure record. -/
def tracked (r : TrackedAction time) : Json :=
  .record [("retries", .ofInt r.retries.toInt), ("limit", .ofInt r.limit.toNat),
    ("escalation", .ofText (escalation r.escalation)), ("state", .ofText (trackedState r.state)),
    ("last_attempt", .ofOption moment r.lastAttempt), ("next_eligible", moment r.nextEligible)]

end

/-- A span of time as whole milliseconds, the most that sixty-four bits hold if there are more. -/
def millis (d : Duration) : Json :=
  .ofInt (min d.millis (UInt64.size - 1) : Nat)

/-- The configuration of a reconciler. -/
def reconcilerConfig (c : ReconcilerConfig) : Json :=
  .record [("max_create_retry", .ofInt c.maxCreateRetry.toNat),
    ("base_backoff_ms", millis c.baseBackoff), ("max_backoff_ms", millis c.maxBackoff),
    ("failed_retry_margin", .ofInt c.failedRetryMargin.toNat),
    ("max_concurrent_roots", .ofInt c.maxConcurrentRoots.toNat)]

/-- The configuration of a loop. -/
def loopConfig (c : LoopConfig) : Json :=
  .record [("busy_interval_ms", millis c.busyInterval),
    ("idle_interval_ms", millis c.idleInterval)]

end Wire

namespace Decode

/-- The words for actions. -/
def actions : List (String × ActionKind) :=
  [("create", .create), ("delete", .delete)]

/-- A resource. -/
def resource : Decoder Resource := fun depth j => do
  let f ← Decoder.fields? ["kind", "key", "attributes", "ownership_marker"] depth j
  return { kind := ← f.required "kind" Decoder.text
           key := ← f.required "key" key
           attributes := ← f.withDefault "attributes" attributes ∅
           ownershipMarker := ← f.withDefault "ownership_marker" Decoder.bool false }

/-- The identity of a resource. -/
def identity : Decoder ResourceIdentity := fun depth j => do
  let f ← Decoder.fields? ["kind", "key"] depth j
  return { kind := ← f.required "kind" Decoder.text, key := ← f.required "key" key }

/-- A batch. -/
def batch : Decoder ResourceBatch := fun depth j => do
  let f ← Decoder.fields? ["create", "delete"] depth j
  return { create := ← f.required "create" (Decoder.list resource)
           delete := ← f.required "delete" (Decoder.list resource) }

/-- A status. Those without fields of their own take any members, but no items. -/
def status : Decoder SyncStatus := fun depth j => do
  let (tag, rest, depth) ← Decoder.tagged? "status" depth j
  let plain (s : SyncStatus) : Option SyncStatus :=
    match rest with
    | .array (_ :: _) => none
    | _ => some s
  if tag = SyncStatus.pending.name then plain .pending
  else if tag = SyncStatus.synced.name then plain .synced
  else if tag = "sync-failed" then
    let f ← Decoder.fields? ["action", "reason"] depth rest
    return .failed (← f.required "action" (Decoder.heldChoice actions))
      (← f.required "reason" Decoder.text)
  else none

/-- A change of status. -/
def transition : Decoder StatusTransition := fun depth j => do
  let f ← Decoder.fields? ["root", "key", "status"] depth j
  return { root := ← f.required "root" Decoder.text
           key := ← f.required "key" key
           status := ← f.required "status" status }

/-- A moment. -/
def moment : Decoder Moment :=
  fun depth j => (Decoder.text depth j).bind Moment.ofText?

/-- A number of thirty-two bits. -/
def word : Decoder UInt32 :=
  fun depth j => (Decoder.nat (UInt32.size - 1) depth j).map UInt32.ofNat

/-- A number of sixty-four bits. -/
def count : Decoder UInt64 :=
  fun depth j => (Decoder.nat (UInt64.size - 1) depth j).map UInt64.ofNat

/-- A failure record. -/
def tracked : Decoder (TrackedAction Moment) := fun depth j => do
  let f ← Decoder.fields?
    ["retries", "limit", "escalation", "state", "last_attempt", "next_eligible"] depth j
  return {
    retries := Int64.ofInt (← f.required "retries"
      (Decoder.int Int64.minValue.toInt Int64.maxValue.toInt))
    limit := ← f.required "limit" word
    escalation := ← f.required "escalation"
      (Decoder.choice [("reset", Escalation.reset), ("purge", .purge)])
    state := ← f.required "state"
      (Decoder.choice [("active", TrackedState.active), ("failed", .failed)])
    lastAttempt := ← f.withDefault "last_attempt" (Decoder.option moment) none
    nextEligible := ← f.required "next_eligible" moment }

/-- A span of time in whole milliseconds. -/
def millis : Decoder Duration :=
  fun depth j => (Decoder.nat (UInt64.size - 1) depth j).map Duration.ofMillis

/-- The fields of a reconciler's configuration in the order of its array form. -/
def reconcilerFields : List String :=
  ["max_create_retry", "base_backoff_ms", "max_backoff_ms", "failed_retry_margin",
    "max_concurrent_roots"]

/-- The configuration of a reconciler; what is missing has its default. -/
def reconcilerConfig : Decoder ReconcilerConfig := fun depth j => do
  let f ← Decoder.fields? reconcilerFields depth j
  let usual : ReconcilerConfig := {}
  return {
    maxCreateRetry := ← f.withDefault "max_create_retry" word usual.maxCreateRetry
    baseBackoff := ← f.withDefault "base_backoff_ms" millis usual.baseBackoff
    maxBackoff := ← f.withDefault "max_backoff_ms" millis usual.maxBackoff
    failedRetryMargin := ← f.withDefault "failed_retry_margin" word usual.failedRetryMargin
    maxConcurrentRoots := ← f.withDefault "max_concurrent_roots" count usual.maxConcurrentRoots }

end Decode

end Concord
