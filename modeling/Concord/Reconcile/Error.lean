import Concord.HashTree.Error

/-!
What can go wrong in reconciliation, and the wording of each case.
-/

namespace Concord

/-- Why reconciliation, or a part of it, failed. -/
inductive ReconcileError where
  /-- A view could not do what it was asked to. -/
  | viewFailed (view operation reason : String)
  /-- A tree could not be built or searched. -/
  | treeFailed (reason : String)
  /-- Changes of status could not be reported. -/
  | statusFailed (reason : String)
  /-- Work on a root broke down. -/
  | rootPanicked (root : String)
  /-- The loop was told to stop. -/
  | loopStopped
  /-- A configuration cannot be worked with. -/
  | invalidConfig (reason : String)
deriving DecidableEq, Repr

namespace ReconcileError

/-- The wording of an error. -/
def message : ReconcileError → String
  | .viewFailed view operation reason => s!"view '{view}' failed to {operation}: {reason}"
  | .treeFailed reason => s!"tree operation failed: {reason}"
  | .statusFailed reason => s!"status reporting failed: {reason}"
  | .rootPanicked root => s!"processing of root '{root}' panicked"
  | .loopStopped => "reconciliation loop stopped"
  | .invalidConfig reason => s!"invalid configuration: {reason}"

/-- A tree error met in reconciliation. -/
def ofTree (e : TreeError) : ReconcileError :=
  .treeFailed e.message

end ReconcileError

end Concord
