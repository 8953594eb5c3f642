import Concord.Reconcile.Config
import Concord.Reconcile.RootPass

/-!
The reconciler: what it remembers of every root, and passes over all roots that both views serve.
A root that fails is told apart in the report and stops no other root.
-/

namespace Concord

/-- What became of all roots in a pass, each list in the order of roots. -/
structure PassReport where
  outcomes : List RootOutcome := []
  errors : List (String × ReconcileError) := []
deriving DecidableEq

namespace PassReport

/-- Whether a root differs or failed. -/
def diverged (r : PassReport) : Bool :=
  !r.errors.isEmpty || r.outcomes.any RootOutcome.diverged

/-- Whether no root differs and none failed. -/
def converged (r : PassReport) : Bool :=
  !r.diverged

/-- The roots that were reset. -/
def resetRoots (r : PassReport) : List String :=
  (r.outcomes.filter RootOutcome.reset).map RootOutcome.root

end PassReport

/-- A reconciler with its configuration, its failure records, and the keys that it reported as
pending by root. -/
structure Reconciler where
  config : ReconcilerConfig
  tracker : Tracker
  pending : Std.ExtTreeMap String KeySet := ∅

namespace Reconciler

/-- A reconciler that remembers nothing. -/
def new (config : ReconcilerConfig) : Reconciler where
  config
  tracker := { limits := config.trackerLimits }

/-- What is remembered of a root. -/
def ledger (r : Reconciler) (root : String) : Ledger :=
  ⟨r.tracker.records root, (r.pending[root]?).getD ∅⟩

/-- Puts what is remembered of a root in place. -/
def setLedger (r : Reconciler) (root : String) (ledger : Ledger) : Reconciler :=
  { r with
    tracker := r.tracker.setRecords root ledger.records
    pending :=
      if ledger.pending.isEmpty then r.pending.erase root
      else r.pending.insert root ledger.pending }

/-- Forgets all roots but these. -/
def retainRoots (r : Reconciler) (roots : List String) : Reconciler :=
  { r with
    tracker := r.tracker.retainRoots roots
    pending := r.pending.filter fun root _ => roots.contains root }

/-- The roots that both views have a tree of, in order. -/
def sharedRoots (s : Surroundings ω) (w : ω) : List String :=
  (s.roots .desired w).filter fun root => (s.roots .observed w).contains root

/-- Works on one root and adds what became of it to a report. -/
def passRoot (s : Surroundings ω) (now : Instant)
    (state : (PassReport × Reconciler) × ω) (root : String) : (PassReport × Reconciler) × ω :=
  let ((report, r), w) := state
  let program := RootPass.program r.config.trackerLimits root now (r.ledger root)
  let ((result, ledger), w) := program.run s root w
  let r := r.setLedger root ledger
  match result with
  | .ok outcome => (({ report with outcomes := report.outcomes ++ [outcome] }, r), w)
  | .error e => (({ report with errors := report.errors ++ [(root, e)] }, r), w)

/-- One pass over every root that both views serve. -/
def pass (s : Surroundings ω) (now : Instant) (r : Reconciler) (w : ω)
    : (PassReport × Reconciler) × ω :=
  let roots := sharedRoots s w
  roots.foldl (passRoot s now) (({}, r.retainRoots roots), w)

/-- Makes both views serve exactly these roots, and forgets all others. -/
def serve (s : Surroundings ω) (roots : List String) (r : Reconciler) (w : ω)
    : (Except ReconcileError Unit × Reconciler) × ω :=
  match s.serve .desired roots w with
  | (.error e, w) => ((.error e, r), w)
  | (.ok _, w) =>
      match s.serve .observed roots w with
      | (.error e, w) => ((.error e, r), w)
      | (.ok _, w) => ((.ok (), r.retainRoots roots), w)

/-- Waits until the trees of both views show every change so far. -/
def settle (s : Surroundings ω) (w : ω) : Except ReconcileError Unit × ω :=
  match s.settle .desired w with
  | (.error e, w) => (.error e, w)
  | (.ok _, w) => s.settle .observed w

/-- Gives a resource that was given up another round of attempts; tells whether it was. -/
def clearFailed (r : Reconciler) (root : String) (action : ResourceAction) (now : Instant)
    : Bool × Reconciler :=
  let (cleared, tracker) := r.tracker.clear root action now
  (cleared, { r with tracker })

/-- One pass and, if it left work behind, a wait until its pushes have landed. Tells whether
nothing was left to do. -/
def passAndSettle (s : Surroundings ω) (now : Instant) (r : Reconciler) (w : ω)
    : (Except ReconcileError Bool × Reconciler) × ω :=
  let ((report, r), w) := r.pass s now w
  if report.converged then ((.ok true, r), w)
  else
    match settle s w with
    | (.error e, w) => ((.error e, r), w)
    | (.ok _, w) => ((.ok false, r), w)

end Reconciler

end Concord
