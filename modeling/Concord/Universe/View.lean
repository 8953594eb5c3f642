import Concord.Reconcile.View
import Concord.Universe.Site

/-!
A pool of a site as a view: its trees are those that the workers show, and resources are fetched
from the backend and pushed to it.
-/

namespace Concord.Site

/-- The name of the view that a pool is. -/
def viewName [Backend β] (s : Site β) (kind : TreeKind) : String :=
  s!"{Backend.name s.backend}/{kind.toText}"

/-- An error of the backend as an error of the view. -/
def viewError [Backend β] (s : Site β) (kind : TreeKind) (operation : String) (e : BackendError)
    : ReconcileError :=
  .viewFailed (s.viewName kind) operation e.message

/-- A result of the backend as a result of the view. -/
def viewResult [Backend β] (s : Site β) (kind : TreeKind) (operation : String)
    : Except BackendError α → Except ReconcileError α
  | .ok a => .ok a
  | .error e => .error (s.viewError kind operation e)

/-- The tree of a root, empty if it is not served or was never hydrated. -/
def viewTree (s : Site β) (kind : TreeKind) (root : String) : HashTree :=
  (s.snapshot? kind root).getD ∅

/-- What to create at keys. -/
def viewResources [Backend β] (s : Site β) (kind : TreeKind) (keys : List Key)
    : Except ReconcileError (List Resource) :=
  s.viewResult kind "get resources" (Backend.fetch kind keys s.backend)

/-- What to delete at keys. -/
def viewResourcesForDelete [Backend β] (s : Site β) (kind : TreeKind) (keys : List Key)
    : Except ReconcileError (List Resource) :=
  s.viewResult kind "get resources for delete" (Backend.fetchForDelete kind keys s.backend)

/-- Applies a batch. -/
def viewPush [Backend β] (s : Site β) (kind : TreeKind) (batch : ResourceBatch)
    : Except ReconcileError Unit × Site β :=
  let (result, backend) := Backend.push kind batch s.backend
  (s.viewResult kind "push resources" result, { s with backend })

/-- Has the trees of roots rebuilt. -/
def viewReset [Backend β] (s : Site β) (kind : TreeKind) (roots : List String)
    : Except ReconcileError Unit × Site β :=
  let (result, s) := s.reset kind roots
  (s.viewResult kind "reset" result, s)

/-- Waits until the trees show every change so far. -/
def viewSettle [Backend β] (s : Site β) (kind : TreeKind)
    : Except ReconcileError Unit × Site β :=
  let (result, s) := s.settle kind
  (s.viewResult kind "settle" result, s)

end Concord.Site
