import Concord.Backend.Memory
import Concord.Reconcile.Sink
import Concord.Universe.View

/-!
A store and a fabric held in memory with the workers that observe them, and a sink of statuses:
the surroundings in which what the store holds is brought to the fabric. While anyone waits for
the workers of one side, those of the other side run too.
-/

namespace Concord

/-- A store that says how things should be, a fabric that is brought into line with it, and the
sink that statuses are reported to. -/
structure Installation where
  store : Site Memory := { backend := { name := "store" } }
  fabric : Site Memory := { backend := { name := "fabric" } }
  sink : StatusSink := {}

namespace Installation

/-- The site of a side: the store is what is desired. -/
def site (i : Installation) : Side → Site Memory
  | .desired => i.store
  | .observed => i.fabric

/-- Puts a site in the place of the one of a side. -/
def setSite (i : Installation) (side : Side) (s : Site Memory) : Installation :=
  match side with
  | .desired => { i with store := s }
  | .observed => { i with fabric := s }

/-- Waits until no worker of a side has anything to do. -/
def restSide (i : Installation) (side : Side) : Installation :=
  i.setSite side (i.site side).wakeAll.rest

/-- Lets a number of milliseconds pass. -/
def sleep (i : Installation) (millis : Nat) : Installation :=
  { i with store := i.store.wakeAll.sleep millis, fabric := i.fabric.wakeAll.sleep millis }

/-- Does something with the site of a side. If that waits, the workers of the other side run too. -/
def waiting (i : Installation) (side : Side) (waits : Bool) (f : Site Memory → α × Site Memory)
    : α × Installation :=
  let (result, s) := f (i.site side).wakeAll
  let i := i.setSite side s
  (result, if waits then i.restSide side.other else i)

/-- Serves exactly these roots in the pool of a kind on one side. -/
def serve (kind : TreeKind) (side : Side) (roots : List String) (i : Installation)
    : Except ReconcileError Unit × Installation :=
  let waits := ((i.site side).served kind).any fun root => !roots.contains root
  i.waiting side waits fun s => (.ok (), s.serve kind roots)

/-- Waits until the trees of a kind on one side show every change so far. -/
def settle (kind : TreeKind) (side : Side) (i : Installation)
    : Except ReconcileError Unit × Installation :=
  i.waiting side (!((i.site side).pool kind).isEmpty) fun s => s.viewSettle kind

/-- Has the tree of a root and kind on one side rebuilt. -/
def reset (kind : TreeKind) (side : Side) (root : String) (i : Installation)
    : Except ReconcileError Unit × Installation :=
  i.waiting side ((i.site side).slot? kind root).isSome fun s => s.viewReset kind [root]

/-- A result as a reply. -/
def replyOf : Except ReconcileError α → Reply α
  | .ok a => .answered a
  | .error e => .failed e

/-- How the pools of a kind and the sink answer. -/
def ask (kind : TreeKind) (q : Question) (i : Installation) : Reply q.Answer × Installation :=
  match q with
  | .tree side root => (.answered ((i.site side).viewTree kind root), i)
  | .resources keys => (replyOf (i.store.viewResources kind keys), i)
  | .resourcesForDelete keys => (replyOf (i.fabric.viewResourcesForDelete kind keys), i)
  | .report transitions =>
      let (reply, sink) := i.sink.report transitions
      (reply, { i with sink })
  | .push batch =>
      let (result, fabric) := i.fabric.viewPush kind batch
      (replyOf result, { i with fabric })
  | .reset side root =>
      let (result, i) := i.reset kind side root
      (replyOf result, i)

/-- The surroundings in which trees of a kind are reconciled. -/
def surroundings (kind : TreeKind) : Surroundings Installation where
  roots side i := (i.site side).roots kind
  ask := ask kind
  serve := serve kind
  settle := settle kind

end Installation

end Concord
