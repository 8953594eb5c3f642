import Concord.Command.Inspect
import Concord.Document.Settings
import Concord.Reconcile.Loop
import Concord.Universe.Installation
import Concord.Wire.Reconcile

/-!
The command that brings a fabric held in memory into line with a store. Two loops do it, one for
what is configured here and one for what is configured elsewhere; both start at once and are told
to stop at once. They go side by side on one fabric, and here they are worked out one after the
other, which is only one of the orders in which their passes can come. An object shows in the trees
of at most one of the two, but where it changes its owner it is to leave the trees of the one and to
enter those of the other, and what becomes of it then depends on the order.
-/

namespace Concord

/-- What became of a run: the passes of each loop, whether all trees agree in the end, and the
latest status of every key. -/
structure RunReport where
  passes : List (TreeKind × Nat)
  converged : Bool
  statuses : List (Key × SyncStatus)

namespace Wire

/-- The report of a run. -/
def runReport (r : RunReport) : Json :=
  .record [("passes", .record (r.passes.map fun entry => (entry.1.toText, .ofInt entry.2))),
    ("converged", .bool r.converged),
    ("statuses", .ofList
      (fun entry => .record [("key", key entry.1), ("status", status entry.2)]) r.statuses)]

end Wire

namespace Command

/-- The kinds of trees that are brought into line. The third kind is only observed. -/
def reconciledKinds : List TreeKind :=
  [.config, .monitored]

/-- A store and a fabric that hold the objects of two state files. -/
def install (desired observed : StateFile) : Installation where
  store := { backend := desired.seed { name := "store" } }
  fabric := { backend := observed.seed { name := "fabric" } }

/-- A reconciler for a kind that serves some roots and has waited for their trees. -/
def start (settings : Settings) (roots : List String) (i : Installation) (kind : TreeKind)
    : Except CommandError (Reconciler × Installation) := do
  let config ← (settings.reconciler.build true true).mapError fun e =>
    (CommandError.ofReconcile e).within "Invalid reconciler configuration"
  let surroundings := Installation.surroundings kind
  match (Reconciler.new config).serve surroundings roots i with
  | ((.error e, _), _) => .error (.ofReconcile e)
  | ((.ok _, r), i) =>
      match Reconciler.settle surroundings i with
      | (.error e, _) => .error (.ofReconcile e)
      | (.ok _, i) => .ok (r, i)

/-- Starts a reconciler for each of some kinds. -/
def startAll (settings : Settings) (roots : List String) (i : Installation)
    : List TreeKind → Except CommandError (List (TreeKind × Reconciler) × Installation)
  | [] => .ok ([], i)
  | kind :: kinds => do
      let (r, i) ← start settings roots i kind
      let (others, i) ← startAll settings roots i kinds
      return ((kind, r) :: others, i)

/-- Works the loops out one after the other, each on what the one before left: the passes of each. A
loop that may go on forever goes on until it is told to stop. -/
def drive (settings : Settings) (maxPasses : Option UInt64) (stop : Option Nat) (now : Instant)
    (i : Installation)
    : List (TreeKind × Reconciler) → Except CommandError (List (TreeKind × Nat) × Installation)
  | [] => .ok ([], i)
  | (kind, r) :: others => do
      let goal : LoopGoal :=
        match maxPasses with
        | some most => .convergence most.toNat
        | none => .stop
      let ((result, _), (_, i)) := r.loop (Installation.surroundings kind)
        (fun millis i => i.sleep millis) settings.loop goal stop false now i
      match result with
      | .error e => .error (.ofReconcile e)
      | .ok summary =>
          let (passes, i) ← drive settings maxPasses stop now i others
          return ((kind, summary.passes) :: passes, i)

/-- Whether the trees of a kind agree at every root. -/
def agrees (roots : List String) (i : Installation) (kind : TreeKind) : Bool :=
  roots.all fun root => (i.store.viewTree kind root).same (i.fabric.viewTree kind root)

/-- Brings a fabric that holds the observed objects into line with a store that holds the desired
ones. `stop` is the time in milliseconds at which the loops are told to stop. The result comes with
the state of the fabric in the end. -/
def reconcile (settings : Settings) (desired observed : StateFile) (maxPasses : Option UInt64)
    (stop : Option Nat) (now : Instant) : Except CommandError (RunReport × StateFile) := do
  let roots := desired.rootsOfBoth observed
  let (reconcilers, i) ← startAll settings roots (install desired observed) reconciledKinds
  let (passes, i) ← drive settings maxPasses stop now i reconcilers
  let report : RunReport :=
    { passes
      converged := reconciledKinds.all (agrees roots i)
      statuses := i.sink.log.latest.toList }
  return (report, .capture i.fabric.backend)

end Command

/-- Reads the state files that options name and brings the one into line with the other. -/
def RunOptions.run (options : RunOptions) (settings : Settings) (read : FileReader)
    (stop : Option Nat) (now : Instant) : Except CommandError (RunReport × StateFile) := do
  let desired ← StateFile.openFile read options.desired
  let observed ← match options.observed with
    | some path => StateFile.openFile read path
    | none => .ok {}
  Command.reconcile settings desired observed options.maxPasses stop now

/-- The error of an output file that cannot be written. -/
def CommandError.unwritable (path : String) (fault : FileFault) : CommandError :=
  (CommandError.ofDocument (.fileWriteFailed path fault.message)).within s!"Failed to write {path}"

/-- Runs on the files of a directory, and leaves the state in the end in one of them if the options
say so. -/
def RunOptions.runOn (options : RunOptions) (settings : Settings) (files : Files)
    (stop : Option Nat) (now : Instant) : Except CommandError (RunReport × Files) := do
  let (report, state) ← options.run settings files.read stop now
  match options.output with
  | none => return (report, files)
  | some path =>
      let written ← (files.write path state.toText).mapError (CommandError.unwritable path)
      return (report, written)

end Concord
