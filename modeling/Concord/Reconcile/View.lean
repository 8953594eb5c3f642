import Concord.HashTree.Diff
import Concord.Reconcile.Error
import Concord.Reconcile.Tracker
import Concord.Reconcile.Status

/-!
The two views that are brought into agreement, as reconciliation sees them: what it asks of them
and of the sink of status changes, and what an answer may be. Everything that happens between two
questions is one step, so a program of questions shows where work on different roots may
interleave.
-/

namespace Concord

/-- The view that says how things should be, or the one that says how they are. -/
inductive Side where
  | desired
  | observed
deriving DecidableEq, Repr

/-- The view on the other side. -/
def Side.other : Side → Side
  | .desired => .observed
  | .observed => .desired

/-- A question to a view or to the sink of status changes. -/
inductive Question where
  /-- The tree of a root. -/
  | tree (side : Side) (root : String)
  /-- What to create at keys, from the desired view. -/
  | resources (keys : List Key)
  /-- What to delete at keys, from the observed view. -/
  | resourcesForDelete (keys : List Key)
  /-- To take changes of status in. -/
  | report (transitions : List StatusTransition)
  /-- To apply a batch to the observed view. -/
  | push (batch : ResourceBatch)
  /-- To discard and rebuild the tree of a root. -/
  | reset (side : Side) (root : String)

/-- What a question is answered with when all is well. -/
@[reducible]
def Question.Answer : Question → Type
  | .tree .. => HashTree
  | .resources _ => List Resource
  | .resourcesForDelete _ => List Resource
  | .report _ => Unit
  | .push _ => Unit
  | .reset .. => Unit

/-- How a question turns out. -/
inductive Reply (α : Type) where
  | answered (answer : α)
  | failed (error : ReconcileError)
  /-- Whoever was asked broke down, and work on the root with it. -/
  | panicked

/-- Where reconciliation takes place: the state of the world, and how it changes as views and sink
are asked. -/
structure Surroundings (ω : Type) where
  /-- The roots that a view has a tree of, in order. -/
  roots : Side → ω → List String
  /-- Answers a question. -/
  ask : (q : Question) → ω → Reply q.Answer × ω
  /-- Makes a view serve exactly these roots. -/
  serve : Side → List String → ω → Except ReconcileError Unit × ω
  /-- Waits until the trees of a view show every change so far. -/
  settle : Side → ω → Except ReconcileError Unit × ω

/-- What is remembered of a root from pass to pass: its failure records, and its keys that were
reported as pending. -/
structure Ledger where
  records : Records := ∅
  pending : KeySet := ∅

/-- Work on a root: questions, and what follows from each answer. A question is put with the
ledger as it stands then, and the work goes on with the ledger as it is found after the answer. -/
inductive Program (α : Type) where
  | finished (ledger : Ledger) (result : α)
  | asking (ledger : Ledger) (question : Question)
      (next : Ledger → question.Answer → Program α)

namespace Program

/-- Runs a program to its end, or to the first question that fails. Work that breaks down counts
as an error of its root. -/
def run (s : Surroundings ω) (root : String)
    : Program α → ω → (Except ReconcileError α × Ledger) × ω
  | finished ledger result, w => ((.ok result, ledger), w)
  | asking ledger question next, w =>
      match s.ask question w with
      | (.answered answer, w) => (next ledger answer).run s root w
      | (.failed error, w) => ((.error error, ledger), w)
      | (.panicked, w) => ((.error (.rootPanicked root), ledger), w)

end Program

end Concord
