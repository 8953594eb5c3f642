import Mathlib.Logic.Function.Iterate
import Concord.Reconcile.Loop

/-! Passes in a loop. Main statements: a loop that tells of convergence ended with a pass that found
nothing left to do, and every pass before it left work behind; and a loop comes to the same in any
two surroundings of which one is a picture of the other.
-/

namespace Concord

variable {ω ω' : Type} {s : Surroundings ω} {s' : Surroundings ω'} {now : Instant}

-----------------------------------------------------------------------------------------
-- Turns
-----------------------------------------------------------------------------------------

namespace LoopRun

variable {config : LoopConfig} {stop : Option Nat} {pass : ω → Except ReconcileError Bool × ω}
  {rest : Nat → ω → ω} {maxPasses passes due : Nat} {told : Bool} {w : ω}

/-- A pause of a loop that is to converge ends with an error where the loop is told to stop. -/
theorem pause_cases (stop : Option Nat) (interval : Duration) (run : LoopRun)
    (goal : run.goal = .convergence maxPasses)
    : run.pause stop interval = .again { run with due := run.due + pauseOf interval.millis }
      ∨ ∃ e time, run.pause stop interval = .over (.error e) time := by
  cases stop with
  | none => exact .inl rfl
  | some time =>
      simp only [pause, stopped, goal]
      split
      · exact .inr ⟨_, _, rfl⟩
      · exact .inl rfl

/-- What one turn of a loop comes to that is to converge: its passes are used up, there is an
error, the pass finds nothing left to do, or it leaves work behind, and a pause follows.
-/
inductive Turns (config : LoopConfig) (pass : ω → Except ReconcileError Bool × ω)
    (maxPasses passes due : Nat) (told : Bool) (w : ω) : Turn × ω → Prop
  | spent (few : maxPasses ≤ passes)
    : Turns config pass maxPasses passes due told w (.over (.ok ⟨passes, false⟩) due, w)
  | failed (e : ReconcileError) (time : Nat) (w' : ω)
    : Turns config pass maxPasses passes due told w (.over (.error e) time, w')
  | converged (few : passes < maxPasses) (done : (pass w).1 = .ok true)
    : Turns config pass maxPasses passes due told w
        (.over (.ok ⟨passes + 1, true⟩) due, (pass w).2)
  | again (few : passes < maxPasses) (left : (pass w).1 = .ok false)
    : Turns config pass maxPasses passes due told w
        (.again ⟨.convergence maxPasses, passes + 1,
          due + pauseOf config.busyInterval.millis, told⟩, (pass w).2)

/-- Every turn is one of these. -/
theorem turn_cases (config : LoopConfig) (stop : Option Nat)
    (pass : ω → Except ReconcileError Bool × ω) (maxPasses passes due : Nat) (told : Bool) (w : ω)
    : Turns config pass maxPasses passes due told w
        (turn config stop pass ⟨.convergence maxPasses, passes, due, told⟩ w) := by
  by_cases few : passes < maxPasses
  · rcases result : pass w with ⟨outcome, after⟩
    have same : (pass w).2 = after := congrArg Prod.snd result
    simp only [turn, result, Nat.not_le.mpr few, decide_false, reduceCtorEq, Bool.and_false,
      Bool.false_eq_true, if_false]
    cases outcome with
    | error e => exact .failed e due after
    | ok converged =>
        cases converged with
        | true =>
            have ended : Turns config pass maxPasses passes due told w
                (.over (.ok ⟨passes + 1, true⟩) due, (pass w).2) :=
              .converged few (congrArg Prod.fst result)
            rwa [same] at ended
        | false =>
            dsimp only
            rcases pause_cases stop config.busyInterval
              ⟨.convergence maxPasses, passes + 1, due, told⟩ rfl with again | ⟨e, time, ended⟩
            · have left : Turns config pass maxPasses passes due told w
                  (.again ⟨.convergence maxPasses, passes + 1,
                    due + pauseOf config.busyInterval.millis, told⟩, (pass w).2) :=
                .again few (congrArg Prod.fst result)
              rw [again]
              rwa [same] at left
            · rw [ended]
              exact .failed e time after
  · have spent : maxPasses ≤ passes := Nat.not_lt.mp few
    simp only [turn, spent, decide_true, if_true]
    exact .spent spent

/-- A loop that tells of convergence ended with a pass that found nothing left to do, and each pass
before it left work behind, by induction on the turns.
-/
theorem complete_converged {fuel n : Nat}
    (h : (complete config stop pass rest fuel ⟨.convergence maxPasses, passes, due, told⟩ w).1.1
      = .ok ⟨n, true⟩)
    : let found := fun count =>
        (fun w => rest (pauseOf config.busyInterval.millis) (pass w).2)^[count] w
      ∃ count, n = passes + count + 1 ∧ (∀ before < count, (pass (found before)).1 = .ok false)
        ∧ (pass (found count)).1 = .ok true := by
  induction fuel generalizing passes due w with
  | zero => cases h
  | succ fuel ih =>
      have turned := turn_cases config stop pass maxPasses passes due told w
      rw [complete] at h
      generalize turn config stop pass ⟨.convergence maxPasses, passes, due, told⟩ w = result
        at turned h
      cases turned with
      | spent few => cases h
      | failed e time w' => cases h
      | converged few done =>
          cases h
          exact ⟨0, rfl, fun before few => absurd few (Nat.not_lt_zero _), done⟩
      | again few left =>
          dsimp only at h
          rw [Nat.add_sub_cancel_left] at h
          obtain ⟨count, passed, before, last⟩ := ih h
          refine ⟨count + 1, by omega, fun earlier le => ?_, last⟩
          cases earlier with
          | zero => exact left
          | succ earlier => exact before earlier (Nat.lt_of_succ_lt_succ le)

/-- A loop whose first pass finds nothing left to do is over at once. -/
theorem complete_at_once {fuel : Nat} (once : 0 < maxPasses) (done : (pass w).1 = .ok true)
    : (complete config stop pass rest (fuel + 1) ⟨.convergence maxPasses, 0, due, told⟩ w).1.1
      = .ok ⟨1, true⟩ := by
  have turned : turn config stop pass ⟨.convergence maxPasses, 0, due, told⟩ w
      = (.over (.ok ⟨1, true⟩) due, (pass w).2) := by
    rcases result : pass w with ⟨outcome, after⟩
    rw [result] at done
    cases done
    simp [turn, result, Nat.not_le.mpr once]
  rw [complete, turned]

/-- A turn comes to the same in a picture of the world in which passes do. -/
theorem turn_pictured {pass' : ω' → Except ReconcileError Bool × ω'} (picture : ω → ω')
    (passes : pass' (picture w) = ((pass w).1, picture (pass w).2)) (config : LoopConfig)
    (stop : Option Nat) (run : LoopRun)
    : run.turn config stop pass' (picture w)
      = ((run.turn config stop pass w).1, picture (run.turn config stop pass w).2) := by
  obtain ⟨goal, made, due, told⟩ := run
  simp only [turn, passes]
  rcases pass w with ⟨outcome, after⟩
  -- What stops a turn before its pass is the same on both sides.
  cases goal <;> dsimp only <;> split <;> try rfl
  all_goals
    split
    · rfl
    · cases outcome with
      | error e => rfl
      | ok converged => cases converged <;> rfl

/-- So does the whole loop, by induction on the turns. -/
theorem complete_pictured {pass' : ω' → Except ReconcileError Bool × ω'} (picture : ω → ω')
    (passes : ∀ w, pass' (picture w) = ((pass w).1, picture (pass w).2)) {rest' : Nat → ω' → ω'}
    (waits : ∀ millis w, rest' millis (picture w) = picture (rest millis w)) (config : LoopConfig)
    (stop : Option Nat) (fuel : Nat) (run : LoopRun) (w : ω)
    : complete config stop pass' rest' fuel run (picture w)
      = ((complete config stop pass rest fuel run w).1,
          picture (complete config stop pass rest fuel run w).2) := by
  induction fuel generalizing run w with
  | zero => rfl
  | succ fuel ih =>
      rw [complete, complete, turn_pictured picture (passes w)]
      rcases run.turn config stop pass w with ⟨turned, w'⟩
      rcases turned with next | ⟨result, time⟩
      · dsimp only
        rw [waits]
        exact ih next _
      · dsimp only
        rw [waits]

end LoopRun

-----------------------------------------------------------------------------------------
-- Passes of a reconciler
-----------------------------------------------------------------------------------------

namespace Reconciler

variable {r : Reconciler} {w : ω} {rest : Nat → ω → ω} {config : LoopConfig} {maxPasses : Nat}
  {stop : Option Nat} {told : Bool}

/-- A pass as a step of the reconciler and the world, with the word whether nothing was left to
do.
-/
def step (s : Surroundings ω) (now : Instant) (state : Reconciler × ω)
    : Except ReconcileError Bool × (Reconciler × ω) :=
  let ((result, r), w) := state.1.passAndSettle s now state.2
  (result, (r, w))

/-- What a pass of a loop finds after a number of others, with a pause after each. -/
def afterPasses (s : Surroundings ω) (rest : Nat → ω → ω) (config : LoopConfig) (now : Instant)
    (count : Nat) (state : Reconciler × ω) : Reconciler × ω :=
  (fun state =>
    let (_, (r, w)) := step s now state
    (r, rest (pauseOf config.busyInterval.millis) w))^[count] state

/-- A step that finds nothing left to do is a pass with a report of convergence. -/
theorem converged_of_step {state : Reconciler × ω} (h : (step s now state).1 = .ok true)
    : (state.1.pass s now state.2).1.1.converged = true := by
  rw [step, passAndSettle] at h
  dsimp only at h
  split at h
  · assumption
  · rcases settled : settle s (state.1.pass s now state.2).2 with ⟨result, w⟩
    rw [settled] at h
    cases result <;> cases h

theorem step_of_converged (h : (r.pass s now w).1.1.converged = true)
    : (step s now (r, w)).1 = .ok true := by
  rw [step, passAndSettle]
  dsimp only
  rw [if_pos h]

/-- A loop that tells of convergence has made one pass that found nothing left to do, the last one.
-/
theorem loop_converged {n : Nat}
    (h : (r.loop s rest config (.convergence maxPasses) stop told now w).1.1 = .ok ⟨n, true⟩)
    : ∃ count, n = count + 1
      ∧ (∀ before < count, (step s now (afterPasses s rest config now before (r, w))).1 = .ok false)
      ∧ (step s now (afterPasses s rest config now count (r, w))).1 = .ok true := by
  rw [loop] at h
  obtain ⟨count, passes, before, last⟩ := LoopRun.complete_converged h
  exact ⟨count, by omega, before, last⟩

/-- A loop whose first pass gives a report of convergence is over at once. -/
theorem loop_at_once (once : 0 < maxPasses) (h : (r.pass s now w).1.1.converged = true)
    : (r.loop s rest config (.convergence maxPasses) stop told now w).1.1 = .ok ⟨1, true⟩ :=
  LoopRun.complete_at_once once (step_of_converged h)

end Reconciler

-----------------------------------------------------------------------------------------
-- Pictures of a world
-----------------------------------------------------------------------------------------

/-- Surroundings as they show in a picture of the world: there, all answers are the same, and what
happens in the world happens in the picture.
-/
structure Surroundings.Pictured (s : Surroundings ω) (picture : ω → ω') (s' : Surroundings ω')
    : Prop where
  roots : ∀ side w, s'.roots side (picture w) = s.roots side w
  ask : ∀ question w, s'.ask question (picture w)
    = ((s.ask question w).1, picture (s.ask question w).2)
  serve : ∀ side roots w, s'.serve side roots (picture w)
    = ((s.serve side roots w).1, picture (s.serve side roots w).2)
  settle : ∀ side w, s'.settle side (picture w)
    = ((s.settle side w).1, picture (s.settle side w).2)

namespace Surroundings.Pictured

variable {picture : ω → ω'}

/-- A program runs in the picture as it runs in the world, by induction on its questions. -/
theorem run {α : Type} (h : s.Pictured picture s') (root : String) (p : Program α) (w : ω)
    : p.run s' root (picture w) = ((p.run s root w).1, picture (p.run s root w).2) := by
  induction p generalizing w with
  | finished ledger a => rfl
  | asking ledger question next ih =>
      rw [Program.run, Program.run, h.ask]
      rcases s.ask question w with ⟨reply, w'⟩
      cases reply with
      | answered answer => exact ih ledger answer w'
      | failed e => rfl
      | panicked => rfl

/-- So do the programs of several roots, by induction on the roots. -/
theorem passRoots (h : s.Pictured picture s') (now : Instant) (roots : List String)
    (reported : PassReport × Reconciler) (w : ω)
    : roots.foldl (Reconciler.passRoot s' now) (reported, picture w)
      = ((roots.foldl (Reconciler.passRoot s now) (reported, w)).1,
          picture (roots.foldl (Reconciler.passRoot s now) (reported, w)).2) := by
  induction roots generalizing reported w with
  | nil => rfl
  | cons root rest ih =>
      obtain ⟨report, r⟩ := reported
      have one : Reconciler.passRoot s' now ((report, r), picture w) root
          = ((Reconciler.passRoot s now ((report, r), w) root).1,
              picture (Reconciler.passRoot s now ((report, r), w) root).2) := by
        simp only [Reconciler.passRoot, h.run]
        rcases (RootPass.program r.config.trackerLimits root now (r.ledger root)).run s root w
          with ⟨⟨result, ledger⟩, w'⟩
        cases result <;> rfl
      rw [List.foldl_cons, List.foldl_cons, one]
      exact ih _ _

theorem pass (h : s.Pictured picture s') (now : Instant) (r : Reconciler) (w : ω)
    : r.pass s' now (picture w) = ((r.pass s now w).1, picture (r.pass s now w).2) := by
  rw [Reconciler.pass, Reconciler.pass, Reconciler.sharedRoots, h.roots, h.roots]
  exact h.passRoots now _ _ w

theorem settles (h : s.Pictured picture s') (w : ω)
    : Reconciler.settle s' (picture w)
      = ((Reconciler.settle s w).1, picture (Reconciler.settle s w).2) := by
  rw [Reconciler.settle, Reconciler.settle, h.settle]
  rcases s.settle .desired w with ⟨result, w'⟩
  cases result with
  | error e => rfl
  | ok _ => exact h.settle .observed w'

theorem step (h : s.Pictured picture s') (now : Instant) (r : Reconciler) (w : ω)
    : Reconciler.step s' now (r, picture w)
      = ((Reconciler.step s now (r, w)).1,
          ((Reconciler.step s now (r, w)).2.1, picture (Reconciler.step s now (r, w)).2.2)) := by
  simp only [Reconciler.step, Reconciler.passAndSettle, h.pass, h.settles]
  split
  · rfl
  · rcases Reconciler.settle s (r.pass s now w).2 with ⟨result, w'⟩
    cases result <;> rfl

/-- The loop of a reconciler comes to the same in the picture. -/
theorem loop (h : s.Pictured picture s') {rest : Nat → ω → ω} {rest' : Nat → ω' → ω'}
    (waits : ∀ millis w, rest' millis (picture w) = picture (rest millis w)) (config : LoopConfig)
    (goal : LoopGoal) (stop : Option Nat) (told : Bool) (r : Reconciler) (w : ω)
    : r.loop s' rest' config goal stop told now (picture w)
      = let ended := r.loop s rest config goal stop told now w
        (ended.1, (ended.2.1, picture ended.2.2)) :=
  LoopRun.complete_pictured (fun state : Reconciler × ω => (state.1, picture state.2))
    (fun state => h.step now state.1 state.2)
    (fun millis state => congrArg (Prod.mk state.1) (waits millis state.2)) config _ _ _ (r, w)

end Surroundings.Pictured

end Concord
