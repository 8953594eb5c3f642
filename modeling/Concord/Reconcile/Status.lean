import Concord.Reconcile.Resource

/-!
The sync status of keys, its changes, and a log that keeps the latest status of every key beside
all changes in order.
-/

namespace Concord

/-- How far a key is from the desired state. -/
inductive SyncStatus where
  /-- It differs and is being worked on. -/
  | pending
  /-- It is as desired. -/
  | synced
  /-- It was given up after too many attempts. -/
  | failed (action : ActionKind) (reason : String)
deriving DecidableEq, Repr

namespace SyncStatus

/-- The name of a status. -/
def name : SyncStatus → String
  | .pending => "sync-pending"
  | .synced => "synced"
  | .failed .. => "sync-failed"

/-- A status as people read it. -/
def toText : SyncStatus → String
  | .failed action reason => s!"sync-failed ({action.toText}: {reason})"
  | status => status.name

end SyncStatus

/-- A change of the status of a key under a root. -/
structure StatusTransition where
  root : String
  key : Key
  status : SyncStatus
deriving DecidableEq, Repr

/-- The latest status of every key, and all changes, the oldest first. -/
structure StatusLog where
  latest : Std.ExtTreeMap Key SyncStatus := ∅
  history : List StatusTransition := []

namespace StatusLog

/-- Takes changes in, in order. -/
def record (log : StatusLog) (transitions : List StatusTransition) : StatusLog where
  latest := transitions.foldl (fun latest t => latest.insert t.key t.status) log.latest
  history := log.history ++ transitions

/-- The keys whose latest status has a name, in order. -/
def keysWith (log : StatusLog) (name : String) : List Key :=
  (log.latest.toList.filter fun entry => entry.2.name = name).map Prod.fst

end StatusLog

end Concord
