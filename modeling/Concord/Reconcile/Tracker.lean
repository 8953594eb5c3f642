import Concord.Reconcile.Resource
import Concord.Time.Instant

/-!
Failure tracking with escalation. Every action that keeps showing up in a root's difference has a
record. Each appearance counts as an attempt, and the delay between attempts grows. Past the first
limit the whole root is reset, once; past the second the resource is given up and skipped until it
is cleared by hand.
-/

namespace Concord

/-- The limits of tracking and the delays between attempts. -/
structure TrackerLimits where
  resetLimit : UInt32
  purgeLimit : UInt32
  baseBackoff : Duration
  maxBackoff : Duration
  failedRetryMargin : UInt32
deriving DecidableEq, Repr

namespace TrackerLimits

/-- The limits for a base number of attempts: the root is reset at twice that number, and a
resource given up at twice as many after that. -/
def ofMaxCreateRetry (n : UInt32) : TrackerLimits :=
  let resetLimit := saturatingAdd n n
  { resetLimit
    purgeLimit := saturatingAdd resetLimit resetLimit
    baseBackoff := .ofMillis 1000
    maxBackoff := .ofMillis 60000
    failedRetryMargin := 5 }

instance : Inhabited TrackerLimits :=
  ⟨ofMaxCreateRetry 5⟩

end TrackerLimits

/-- What happens next to a resource that keeps failing. -/
inductive Escalation where
  /-- Its root is reset. -/
  | reset
  /-- It is given up. -/
  | purge
deriving DecidableEq, Repr

/-- Whether a resource is still tried. -/
inductive TrackedState where
  | active
  | failed
deriving DecidableEq, Repr

/-- What is to be done with a resource in a pass. -/
inductive TrackOutcome where
  /-- It is pushed. -/
  | attempt
  /-- It is too early for another attempt. -/
  | backedOff
  /-- The root is reset. -/
  | resetRoot
  /-- It is given up now. -/
  | failed
  /-- It was given up before. -/
  | stillFailed
deriving DecidableEq, Repr

/-- The failure record of an action on a resource. `retries` counts the attempts after the first
and starts at minus one. Times are what clocks tell, unless the record is one in a text. -/
structure TrackedAction (t : Type := Instant) where
  retries : Int64
  limit : UInt32
  escalation : Escalation
  state : TrackedState
  lastAttempt : Option t
  nextEligible : t
deriving DecidableEq, Repr

namespace TrackedAction

/-- The record of an action that has not been tried. -/
def start (limit : UInt32) (now : Instant) : TrackedAction where
  retries := -1
  limit
  escalation := .reset
  state := .active
  lastAttempt := none
  nextEligible := now

/-- Whether the resource was given up. -/
def isFailed (r : TrackedAction) : Bool :=
  r.state = .failed

/-- A counter one higher, or the largest number of sixty-four bits. -/
def increment (n : Int64) : Int64 :=
  Int64.ofInt (min (n.toInt + 1) Int64.maxValue.toInt)

/-- The number of attempts that the delay is computed from: a negative or too large counter counts
as the largest number of thirty-two bits. -/
def attempts (retries : Int64) : Nat :=
  if 0 ≤ retries.toInt ∧ retries.toInt < UInt32.size then retries.toInt.toNat
  else UInt32.size - 1

/-- Whether there were more attempts than the limit tolerates. -/
def exceeded (r : TrackedAction) : Bool :=
  (r.limit.toNat : Int) < (increment r.retries).toInt

/-- The record after an attempt at `now`. -/
def retry (r : TrackedAction) (limits : TrackerLimits) (now : Instant) : TrackedAction :=
  let retries := increment r.retries
  { r with
    retries
    lastAttempt := some now
    nextEligible :=
      now.deadline (backoff (attempts retries) limits.baseBackoff limits.maxBackoff) }

/-- One appearance of the action at `now`: what to do, and the record from then on. -/
def observe (r : TrackedAction) (limits : TrackerLimits) (now : Instant)
    : TrackOutcome × TrackedAction :=
  if r.isFailed then (.stillFailed, r)
  else if now.before r.nextEligible then (.backedOff, r)
  else
    let r := r.retry limits now
    if !r.exceeded then (.attempt, r)
    else
      match r.escalation with
      | .reset => (.resetRoot, { r with escalation := .purge, limit := limits.purgeLimit })
      | .purge => (.failed, { r with state := .failed })

/-- The record with its counter started over at `now`. -/
def restart (r : TrackedAction) (now : Instant) : TrackedAction :=
  { r with retries := -1, lastAttempt := none, nextEligible := now }

/-- What a reset of the root leaves of the record: nothing unless it was escalated past reset,
and then a fresh counter unless it was given up. -/
def afterReset? (r : TrackedAction) (now : Instant) : Option TrackedAction :=
  match r.escalation with
  | .reset => none
  | .purge => some (if r.isFailed then r else r.restart now)

/-- Another round of attempts for a resource that was given up. -/
def clear? (r : TrackedAction) (limits : TrackerLimits) (now : Instant) : Option TrackedAction :=
  if r.isFailed then
    some { r with
      state := .active
      limit := saturatingAdd r.limit limits.failedRetryMargin
      nextEligible := now }
  else none

end TrackedAction

/-- The failure records of one root. -/
abbrev Records :=
  Std.ExtTreeMap ResourceAction TrackedAction

namespace Records

/-- One appearance of an action, with a new record for one that has none. -/
def observe (records : Records) (limits : TrackerLimits) (action : ResourceAction)
    (now : Instant) : TrackOutcome × Records :=
  let record := (records[action]?).getD (.start limits.resetLimit now)
  let result := record.observe limits now
  (result.1, records.insert action result.2)

/-- Drops the records of actions that are not among those seen. -/
def forgetConverged (records : Records) (seen : List ResourceAction) : Records :=
  records.filter fun action _ => seen.contains action

/-- What a reset of the root leaves. -/
def afterReset (records : Records) (now : Instant) : Records :=
  records.filterMap fun _ record => record.afterReset? now

/-- Clears an action that was given up, if it was. -/
def clear? (records : Records) (limits : TrackerLimits) (action : ResourceAction)
    (now : Instant) : Option Records :=
  ((records[action]?).bind (·.clear? limits now)).map (records.insert action)

/-- The actions that were given up, in order. -/
def failed (records : Records) : List ResourceAction :=
  (records.toList.filter fun entry => entry.2.isFailed).map Prod.fst

end Records

/-- The failure records of all roots. -/
structure Tracker where
  limits : TrackerLimits
  roots : Std.ExtTreeMap String Records := ∅

namespace Tracker

/-- The records of a root. -/
def records (t : Tracker) (root : String) : Records :=
  (t.roots[root]?).getD ∅

/-- Puts the records of a root in place of those it has. -/
def setRecords (t : Tracker) (root : String) (records : Records) : Tracker :=
  { t with
    roots := if records.isEmpty then t.roots.erase root else t.roots.insert root records }

/-- One appearance of an action in the difference of a root. -/
def observe (t : Tracker) (root : String) (action : ResourceAction) (now : Instant)
    : TrackOutcome × Tracker :=
  let result := (t.records root).observe t.limits action now
  (result.1, t.setRecords root result.2)

/-- Drops the records of a root for actions that are not among those seen. -/
def forgetConverged (t : Tracker) (root : String) (seen : List ResourceAction) : Tracker :=
  t.setRecords root ((t.records root).forgetConverged seen)

/-- Starts the records of a root over after it was reset. -/
def resetRoot (t : Tracker) (root : String) (now : Instant) : Tracker :=
  t.setRecords root ((t.records root).afterReset now)

/-- Drops all records of a root. -/
def forgetRoot (t : Tracker) (root : String) : Tracker :=
  t.setRecords root ∅

/-- Keeps the records of some roots only. -/
def retainRoots (t : Tracker) (roots : List String) : Tracker :=
  { t with roots := t.roots.filter fun root _ => roots.contains root }

/-- Gives an action that was given up another round of attempts; tells whether it was. -/
def clear (t : Tracker) (root : String) (action : ResourceAction) (now : Instant)
    : Bool × Tracker :=
  match (t.records root).clear? t.limits action now with
  | some records => (true, t.setRecords root records)
  | none => (false, t)

/-- The record of an action. -/
def get? (t : Tracker) (root : String) (action : ResourceAction) : Option TrackedAction :=
  (t.records root)[action]?

/-- The number of records of a root. -/
def tracked (t : Tracker) (root : String) : Nat :=
  (t.records root).size

/-- The actions of a root that were given up, in order. -/
def failed (t : Tracker) (root : String) : List ResourceAction :=
  (t.records root).failed

end Tracker

end Concord
