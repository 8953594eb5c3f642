import Concord.Reconcile.Reconciler

/-!
Passes one after the other, with a pause after each: a short one if work was left behind, a longer
one if not. Time is counted in whole milliseconds from the start of the loop, a pass takes none of
it, and the loop may be told to stop at some time.
-/

namespace Concord

/-- What a loop goes on for. -/
inductive LoopGoal where
  /-- Until nothing is left to do, but for no more than this number of passes. -/
  | convergence (maxPasses : Nat)
  /-- Until it is told to stop. -/
  | stop
deriving DecidableEq, Repr

/-- How a loop ended. -/
structure RunSummary where
  passes : Nat
  converged : Bool
deriving DecidableEq, Repr

/-- A loop between two passes: the passes so far, when the next is due, and whether it was told to
stop before it began. -/
structure LoopRun where
  goal : LoopGoal
  passes : Nat := 0
  due : Nat := 0
  told : Bool := false
deriving DecidableEq, Repr

namespace LoopRun

/-- Where a turn of a loop leads to. -/
inductive Turn where
  | again (run : LoopRun)
  | over (result : Except ReconcileError RunSummary) (time : Nat)

/-- What a loop comes to when it is told to stop: an end to one that went on until then, an error
to one that was to converge. -/
def stopped (run : LoopRun) (time : Nat) : Turn :=
  match run.goal with
  | .convergence _ => .over (.error .loopStopped) time
  | .stop => .over (.ok ⟨run.passes, false⟩) time

/-- A pause after a pass, which ends early when the loop is told to stop. -/
def pause (run : LoopRun) (stop : Option Nat) (interval : Duration) : Turn :=
  let due := run.due + pauseOf interval.millis
  match stop with
  | none => .again { run with due }
  | some time => if time < due then run.stopped (max time run.due) else .again { run with due }

/-- One turn: a pass, given as a step of the world that tells whether nothing was left to do, and
what follows from it. -/
def turn (config : LoopConfig) (stop : Option Nat)
    (pass : ω → Except ReconcileError Bool × ω) (run : LoopRun) (w : ω) : Turn × ω :=
  let exhausted : Bool :=
    match run.goal with
    | .convergence maxPasses => maxPasses ≤ run.passes
    | .stop => false
  if exhausted then (.over (.ok ⟨run.passes, false⟩) run.due, w)
  else if run.told && run.goal = .stop then (run.stopped run.due, w)
  else
    let run := { run with passes := run.passes + 1 }
    match pass w, run.goal with
    | (.error e, w), _ => (.over (.error e) run.due, w)
    | (.ok true, w), .convergence _ => (.over (.ok ⟨run.passes, true⟩) run.due, w)
    | (.ok true, w), .stop => (run.pause stop config.idleInterval, w)
    | (.ok false, w), _ => (run.pause stop config.busyInterval, w)

/-- The most turns that a loop is given: its passes are limited, or it is told to stop and all
pauses but a few take time. -/
def maxTurns (goal : LoopGoal) (stop : Option Nat) : Nat :=
  match goal with
  | .convergence maxPasses => maxPasses + 1
  | .stop => stop.getD 0 + 100

/-- Takes turns until the loop is over, letting time pass in the world between them. -/
def complete (config : LoopConfig) (stop : Option Nat)
    (pass : ω → Except ReconcileError Bool × ω) (rest : Nat → ω → ω)
    : Nat → LoopRun → ω → (Except ReconcileError RunSummary × Nat) × ω
  | 0, run, w => ((.error .loopStopped, run.due), w)
  | fuel + 1, run, w =>
      match run.turn config stop pass w with
      | (.again next, w) => complete config stop pass rest fuel next (rest (next.due - run.due) w)
      | (.over result time, w) => ((result, time), rest (time - run.due) w)

end LoopRun

/-- Makes passes in a loop at a time that stands still for the reconciler, and waits after each
that left work behind until its pushes have landed. `rest` lets a number of milliseconds pass in
the world, and whoever stops the loop waits in one pause for the time to do so. The result comes
with the milliseconds that the loop took. -/
def Reconciler.loop (s : Surroundings ω) (rest : Nat → ω → ω) (config : LoopConfig)
    (goal : LoopGoal) (stop : Option Nat) (told : Bool) (now : Instant) (r : Reconciler) (w : ω)
    : (Except ReconcileError RunSummary × Nat) × (Reconciler × ω) :=
  let stop := stop.map pauseOf
  LoopRun.complete config stop
    (fun (r, w) =>
      let ((result, r), w) := r.passAndSettle s now w
      (result, (r, w)))
    (fun millis (r, w) => (r, rest millis w))
    (LoopRun.maxTurns goal stop) { goal, told } (r, w)

end Concord
