import Concord.Reconcile.Triage
import Concord.Reconcile.View

/-!
One pass over one root: the trees of both views are compared, the resources of the difference are
fetched and sorted, and what may be tried is pushed. Where a resource has used its attempts up the
root is reset instead.
-/

namespace Concord

/-- What became of a root in a pass. -/
structure RootOutcome where
  root : String
  delta : TreeDiff := {}
  attempted : TreeDiff := {}
  pushed : Nat := 0
  backedOff : Nat := 0
  failed : List ResourceIdentity := []
  reset : Bool := false
deriving DecidableEq

/-- Whether the views differed. -/
def RootOutcome.diverged (o : RootOutcome) : Bool :=
  !o.delta.isEmpty

namespace RootPass

/-- Reports changes of status, if there are any, and goes on. -/
def reporting (ledger : Ledger) (transitions : List StatusTransition)
    (next : Ledger → Program α) : Program α :=
  if transitions.isEmpty then next ledger
  else .asking ledger (.report transitions) fun ledger _ => next ledger

/-- The end of a pass over a root without a difference: nothing is tracked any more, and what was
pending is synced. -/
def converged (root : String) (ledger : Ledger) : Program RootOutcome :=
  let (pending, transitions) := StatusTransition.ofPass root ledger.pending {} {}
  reporting ⟨∅, pending⟩ transitions fun ledger => .finished ledger { root }

/-- The end of a pass in which a resource has used up its attempts: the failure records start
over, and both views rebuild the root. -/
def resetting (root : String) (now : Instant) (delta : TreeDiff) (triage : Triage)
    (ledger : Ledger) : Program RootOutcome :=
  let (pending, transitions) := StatusTransition.ofFailed root ledger.pending triage.failed
  reporting { ledger with pending } transitions fun ledger =>
    .asking { ledger with records := ledger.records.afterReset now } (.reset .observed root)
      fun ledger _ => .asking ledger (.reset .desired root) fun ledger _ =>
        .finished ledger { root, delta, failed := triage.failedIdentities, reset := true }

/-- The end of a pass that pushes what may be tried. -/
def pushing (root : String) (delta : TreeDiff) (triage : Triage) (ledger : Ledger)
    : Program RootOutcome :=
  let attempted := triage.attempted delta
  let (pending, transitions) := StatusTransition.ofPass root ledger.pending attempted triage
  let outcome : RootOutcome :=
    { root, delta, attempted
      pushed := triage.batch.size
      backedOff := triage.backedOff
      failed := triage.failedIdentities }
  reporting { ledger with pending } transitions fun ledger =>
    if triage.batch.isEmpty then .finished ledger outcome
    else .asking ledger (.push triage.batch) fun ledger _ => .finished ledger outcome

/-- The rest of a pass once the resources are fetched. -/
def sorting (limits : TrackerLimits) (root : String) (now : Instant) (delta : TreeDiff)
    (creates deletes : List Resource) (ledger : Ledger) : Program RootOutcome :=
  let (triage, records) := Triage.sort limits now ledger.records creates deletes
  if triage.reset then resetting root now delta triage { ledger with records }
  else pushing root delta triage { ledger with records }

/-- The pass over a root. -/
def program (limits : TrackerLimits) (root : String) (now : Instant) (ledger : Ledger)
    : Program RootOutcome :=
  .asking ledger (.tree .desired root) fun ledger desired =>
    .asking ledger (.tree .observed root) fun ledger observed =>
      let delta := desired.diff observed
      if delta.isEmpty then converged root ledger
      else
        .asking ledger (.resources delta.add) fun ledger creates =>
          .asking ledger (.resourcesForDelete delta.remove) fun ledger deletes =>
            sorting limits root now delta creates deletes ledger

end RootPass

end Concord
