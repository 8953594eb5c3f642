import Concord.Proofs.HashTree.Drift
import Concord.Proofs.Reconcile.Questions
import Concord.Proofs.Reconcile.Ledgers
import Concord.Proofs.Universe.Serving

/-! A pass that runs while the served roots are changed. Either goes on at any time, one step
after the other, and so do the workers of both views.
-/

namespace Concord

/-- How far a change of the served roots has come: the desired view serves them first, then the
observed view, and then all other roots are forgotten.
-/
inductive Serving where
  | before
  | desired
  | observed
  | after
deriving DecidableEq

/-- How far a pass has come: it lists the roots of the desired view first, then those that the
observed view has as well, and then it works on each of them.
-/
inductive Passing where
  | before
  | listed (roots : List String)
  | working (tasks : List (String × Program RootOutcome))

/-- A question of a pass: for which root, and how things stood when it was put. -/
structure Asked where
  root : String
  serving : Serving
  world : Installation
  question : Question

/-- A reconciler and its surroundings, how far a change of the served roots and a pass have come,
and what the pass has asked, in order.
-/
structure Overlap where
  world : Installation
  reconciler : Reconciler
  serving : Serving := .before
  passing : Passing := .before
  asked : List Asked := []

/-- Who goes on: a worker, the change of the served roots, or the pass, on listing roots or on one
of them.
-/
inductive Move where
  | turn (side : Side) (kind : TreeKind) (root : String)
  | serve
  | list
  | work (root : String)

namespace Passing

/-- The work on a root that is left to do. -/
def task? : Passing → String → Option (Program RootOutcome)
  | .working tasks, root => tasks.lookup root
  | .before, _ | .listed _, _ => none

/-- The roots that were listed. -/
def roots : Passing → List String
  | .before => []
  | .listed roots => roots
  | .working tasks => tasks.map Prod.fst

end Passing

namespace Overlap

/-- A worker takes a turn, if it has anything to do. -/
def turn (o : Overlap) (side : Side) (kind : TreeKind) (root : String) : Option Overlap :=
  let site := o.world.site side
  (site.slot? kind root).bind fun slot =>
    (slot.turn site.now site.backend).map fun (slot, backend) =>
      { o with world := o.world.setSite side { site.setSlot slot with backend } }

/-- One view serves the roots. -/
def serveOn (o : Overlap) (kind : TreeKind) (roots : List String) (side : Side)
    (next : Serving) : Option Overlap :=
  match (Installation.surroundings kind).serve side roots o.world with
  | (.ok _, world) => some { o with world, serving := next }
  | (.error _, _) => none

theorem serveOn_eq (o : Overlap) (kind : TreeKind) (roots : List String) (side : Side)
    (next : Serving)
    : o.serveOn kind roots side next
      = some { o with world := (Installation.serve kind side roots o.world).2, serving := next } :=
  rfl

/-- The change of the served roots goes on. -/
def serve (o : Overlap) (kind : TreeKind) (roots : List String) : Option Overlap :=
  match o.serving with
  | .before => o.serveOn kind roots .desired .desired
  | .desired => o.serveOn kind roots .observed .observed
  | .observed =>
      some { o with reconciler := o.reconciler.retainRoots roots, serving := .after }
  | .after => none

/-- The pass goes on listing roots. -/
def list (o : Overlap) (kind : TreeKind) (now : Instant) : Option Overlap :=
  let views := Installation.surroundings kind
  match o.passing with
  | .before => some { o with passing := .listed (views.roots .desired o.world) }
  | .listed known =>
      let shared := known.filter fun root => (views.roots .observed o.world).contains root
      let reconciler := o.reconciler.retainRoots shared
      let task (root : String) :=
        RootPass.program reconciler.config.trackerLimits root now (reconciler.ledger root)
      some { o with reconciler, passing := .working (shared.map fun root => (root, task root)) }
  | .working _ => none

/-- The pass goes on with a root: it puts the next question, or takes note that the work on the
root is over.
-/
def work (o : Overlap) (kind : TreeKind) (root : String) : Option Overlap :=
  match o.passing with
  | .working tasks =>
      let others := tasks.filter fun task => task.1 ≠ root
      match tasks.lookup root with
      | some (.finished _ _) => some { o with passing := .working others }
      | some (.asking _ question next) =>
          let asked := o.asked ++ [⟨root, o.serving, o.world, question⟩]
          match (Installation.surroundings kind).ask question o.world with
          | (.answered answer, world) =>
              let program := next (o.reconciler.ledger root) answer
              let tasks := tasks.map fun task => if task.1 = root then (root, program) else task
              some { o with
                world, asked
                reconciler := o.reconciler.setLedger root program.ledger
                passing := .working tasks }
          | (_, world) => some { o with world, asked, passing := .working others }
      | none => none
  | .before | .listed _ => none

/-- One step of whoever is to go on. -/
def step (kind : TreeKind) (now : Instant) (roots : List String) (o : Overlap)
    : Move → Option Overlap
  | .turn side kind root => o.turn side kind root
  | .serve => o.serve kind roots
  | .list => o.list kind now
  | .work root => o.work kind root

/-- Steps in the given order. -/
def run (kind : TreeKind) (now : Instant) (roots : List String)
    : List Move → Overlap → Option Overlap
  | [], o => some o
  | move :: moves, o => (o.step kind now roots move).bind (run kind now roots moves)

/-- Some batch that was pushed deletes at the key. -/
def Deletes (o : Overlap) (k : Key) : Prop :=
  ∃ a ∈ o.asked, ∃ batch, a.question = .push batch ∧ ∃ r ∈ batch.delete, r.key = k

end Overlap

namespace Asked

variable (a : Asked) (kind : TreeKind)

/-- The tree of the question's root as the desired view shows it. -/
def desired : HashTree :=
  a.world.store.viewTree kind a.root

/-- The tree of the question's root as the observed view shows it. -/
def observed : HashTree :=
  a.world.fabric.viewTree kind a.root

/-- The desired view has changes queued that its tree does not show yet. -/
def Behind : Prop :=
  ∃ slot, a.world.store.slot? kind a.root = some slot
    ∧ 0 < slot.worker.queued a.world.store.backend

end Asked

end Concord
