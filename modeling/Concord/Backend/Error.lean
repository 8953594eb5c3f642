import Concord.HashTree.Error

/-!
What can go wrong between a backend and the workers that observe it, and the wording of each case.
-/

namespace Concord

/-- Why an operation on a backend or a worker failed. -/
inductive BackendError where
  /-- The backend could not do what it was asked to. -/
  | backend (name operation reason : String)
  /-- The worker for a root is gone. -/
  | workerStopped (root : String)
  /-- A tree could not be built. -/
  | tree (error : TreeError)
deriving DecidableEq, Repr

/-- The wording of an error. -/
def BackendError.message : BackendError → String
  | .backend name operation reason => s!"backend '{name}' failed to {operation}: {reason}"
  | .workerStopped root => s!"worker for root '{root}' stopped"
  | .tree error => error.message

end Concord
