import Concord.Backend.Channel
import Concord.Backend.Error
import Concord.Reconcile.Resource

/-!
What is asked of a backing system: to load trees and give streams of their changes, to fetch
resources, and to apply batches.
-/

namespace Concord

/-- How a load turns out: it may also break down, and whoever asked with it. -/
inductive Loaded where
  | tree (t : HashTree)
  | failed (error : BackendError)
  | panicked

/-- A system that trees are observed from and that batches are pushed to. -/
class Backend (β : Type) where
  /-- The name in errors. -/
  name : β → String
  /-- Opens a stream of the changes of a root from now on. -/
  subscribe : String → TreeKind → β → Except BackendError Nat × β
  /-- The whole tree of a root. -/
  load : String → TreeKind → β → Loaded × β
  /-- Takes what a stream gives next. -/
  receive : Nat → β → Received × β
  /-- The number of changes that are queued on a stream. -/
  queued : Nat → β → Nat
  /-- Drops a stream. -/
  close : Nat → β → β
  /-- What to create at keys. -/
  fetch : TreeKind → List Key → β → Except BackendError (List Resource)
  /-- What to delete at keys. -/
  fetchForDelete : TreeKind → List Key → β → Except BackendError (List Resource)
  /-- Applies a batch. -/
  push : TreeKind → ResourceBatch → β → Except BackendError Unit × β

end Concord
