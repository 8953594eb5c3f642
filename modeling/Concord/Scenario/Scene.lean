import Concord.Reconcile.Loop

/-!
A reconciler with a clock that is moved by hand and the world in which it works, on which one thing
after the other is done.
-/

namespace Concord.Scenario

/-- A reconciler, its clock and the world around it. -/
structure Scene (ω : Type) where
  reconciler : Reconciler
  clock : ManualClock := {}
  world : ω

namespace Scene

/-- A scene with a reconciler and a world that were changed. -/
def next (s : Scene ω) (reconciler : Reconciler) (world : ω) : Scene ω :=
  { s with reconciler, world }

/-- Makes a pass and then waits until the trees show every change. -/
def pass (c : Surroundings ω) (s : Scene ω)
    : (PassReport × Except ReconcileError Unit) × Scene ω :=
  let ((report, reconciler), world) := s.reconciler.pass c s.clock.now s.world
  let (settled, world) := Reconciler.settle c world
  ((report, settled), s.next reconciler world)

/-- Makes both views serve exactly these roots. -/
def serve (c : Surroundings ω) (roots : List String) (s : Scene ω)
    : Except ReconcileError Unit × Scene ω :=
  let ((result, reconciler), world) := s.reconciler.serve c roots s.world
  (result, s.next reconciler world)

/-- Waits until the trees of both views show every change. -/
def settle (c : Surroundings ω) (s : Scene ω) : Except ReconcileError Unit × Scene ω :=
  let (result, world) := Reconciler.settle c s.world
  (result, { s with world })

/-- Moves the clock forward. -/
def advance (delay : Duration) (s : Scene ω) : Scene ω :=
  { s with clock := s.clock.advance delay }

/-- Gives a resource that was given up another round of attempts; tells whether it was. -/
def clearFailed (root : String) (action : ResourceAction) (s : Scene ω) : Bool × Scene ω :=
  let (cleared, reconciler) := s.reconciler.clearFailed root action s.clock.now
  (cleared, { s with reconciler })

/-- Makes passes in a loop. One that is told to stop at once makes none. -/
def loop (c : Surroundings ω) (rest : Nat → ω → ω) (config : LoopConfig) (goal : LoopGoal)
    (stop : Option Nat) (s : Scene ω) : (Except ReconcileError RunSummary × Nat) × Scene ω :=
  let (result, (reconciler, world)) :=
    s.reconciler.loop c rest config goal stop (stop = some 0) s.clock.now s.world
  (result, s.next reconciler world)

end Scene

end Concord.Scenario
