import Concord.HashTree.Diff
import Concord.Reconcile.Status
import Concord.Reconcile.Tracker

/-!
What a pass does with each resource of a root's difference, by the outcome of its tracking, and
the changes of status that follow.
-/

namespace Concord

/-- The resources of a difference sorted by what is to be done with them. -/
structure Triage where
  batch : ResourceBatch := {}
  seen : List ResourceAction := []
  skipped : List Key := []
  backedOff : Nat := 0
  failed : List (ActionKind × Resource) := []
  reset : Bool := false
deriving DecidableEq, Inhabited

namespace Triage

/-- The triage with one more resource of a known outcome. -/
def add (t : Triage) (action : ActionKind) (resource : Resource) : TrackOutcome → Triage
  | .attempt => { t with batch := t.batch.push action resource }
  | .backedOff =>
      { t with backedOff := t.backedOff + 1, skipped := t.skipped ++ [resource.key] }
  | .resetRoot => { t with reset := true }
  | .failed =>
      { t with
        skipped := t.skipped ++ [resource.key]
        failed := t.failed ++ [(action, resource)] }
  | .stillFailed => { t with skipped := t.skipped ++ [resource.key] }

/-- Takes one resource in, unless its action was seen before. -/
def step (limits : TrackerLimits) (now : Instant) (state : Triage × Records)
    (entry : ActionKind × Resource) : Triage × Records :=
  let (t, records) := state
  let action : ResourceAction := ⟨entry.1, entry.2.identity⟩
  if t.seen.contains action then state
  else
    let (outcome, records) := records.observe limits action now
    ({ t with seen := t.seen ++ [action] }.add entry.1 entry.2 outcome, records)

/-- Sorts what is to be created and then what is to be deleted. Records of what no longer differs
are dropped. -/
def sort (limits : TrackerLimits) (now : Instant) (records : Records)
    (creates deletes : List Resource) : Triage × Records :=
  let entries := creates.map (ActionKind.create, ·) ++ deletes.map (ActionKind.delete, ·)
  let (t, records) := entries.foldl (step limits now) ({}, records)
  (t, records.forgetConverged t.seen)

/-- The identities of the resources that were given up. -/
def failedIdentities (t : Triage) : List ResourceIdentity :=
  t.failed.map fun entry => entry.2.identity

/-- A difference without the keys that are skipped. -/
def attempted (t : Triage) (delta : TreeDiff) : TreeDiff where
  add := delta.add.filter fun key => !t.skipped.contains key
  remove := delta.remove.filter fun key => !t.skipped.contains key

end Triage

namespace StatusTransition

/-- Why a resource is reported as failed. -/
def giveUpReason : String :=
  "retry limit reached after root reset"

/-- The changes of the keys that were given up, which are no longer pending. -/
def ofFailed (root : String) (pending : KeySet) (failed : List (ActionKind × Resource))
    : KeySet × List StatusTransition :=
  (failed.foldl (fun pending entry => pending.erase entry.2.key) pending,
    failed.map fun entry => ⟨root, entry.2.key, .failed entry.1 giveUpReason⟩)

/-- The changes of the keys that are now worked on and were not pending, which they become. -/
def ofAttempted (root : String) (pending : KeySet)
    : List Key → KeySet × List StatusTransition
  | [] => (pending, [])
  | key :: rest =>
      if pending.contains key then ofAttempted root pending rest
      else
        let (pending, transitions) := ofAttempted root (pending.insert key) rest
        (pending, ⟨root, key, .pending⟩ :: transitions)

/-- The changes of a root: pending keys outside the difference are synced, resources that were
given up are failed, and keys that are worked on become pending. -/
def ofPass (root : String) (pending : KeySet) (attempted : TreeDiff) (t : Triage)
    : KeySet × List StatusTransition :=
  let diverged := attempted.add ++ attempted.remove ++ t.skipped
  let synced := pending.toList.filter fun key => !diverged.contains key
  let left := pending.filter fun key => diverged.contains key
  let (left, failures) := ofFailed root left t.failed
  let (left, started) := ofAttempted root left (attempted.add ++ attempted.remove)
  (left, synced.map (⟨root, ·, .synced⟩) ++ failures ++ started)

end StatusTransition

end Concord
