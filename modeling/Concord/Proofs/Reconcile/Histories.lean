import Concord.Proofs.Reconcile.Concurrency
import Concord.Proofs.Reconcile.Statuses
import Concord.Proofs.Reconcile.TrackerCalls

/-! A root over many passes. Between passes the world may change in any way, other roots may come
and go, and resources that were given up may be cleared by hand. What was reported last of a key
tells throughout whether the key is pending.
-/

namespace Concord

variable {ω : Type} {s : Surroundings ω} {config : ReconcilerConfig} {root : String}
  {now : Instant} {w : ω} {r : Reconciler}

/-- One pass as one root saw it. -/
structure Visit where
  now : Instant
  before : Ledger
  exchanges : List Exchange
  after : Ledger

/-- A pass that is over, as a root saw it. -/
def Underway.visit (u : Underway ω) (r : Reconciler) (now : Instant) (root : String) : Visit where
  now
  before := r.ledger root
  exchanges := u.asked root
  after := u.reconciler.ledger root

/-- A reconciler that started anew went through these passes, in all of which the root was shared.
Each pass took its steps in some order, and met the world in some state.
-/
inductive History (s : Surroundings ω) (config : ReconcilerConfig) (root : String)
    : Reconciler → List Visit → Prop
  | new : History s config root (.new config) []
  | cleared {r : Reconciler} {visits : List Visit} (before : History s config root r visits)
    (other : String) (action : ResourceAction) (now : Instant)
    : History s config root (r.clearFailed other action now).2 visits
  | served {r : Reconciler} {visits : List Visit} (before : History s config root r visits)
    {roots : List String} (kept : root ∈ roots)
    : History s config root (r.retainRoots roots) visits
  | passed {r : Reconciler} {visits : List Visit} {now : Instant} {w : ω}
    {strides : List Stride} {u : Underway ω} (before : History s config root r visits)
    (distinct : (Reconciler.sharedRoots s w).Nodup) (shared : root ∈ Reconciler.sharedRoots s w)
    (run : Underway.run s now strides (.begin s r w) = some u) (closed : u.Over)
    : History s config root u.reconciler (visits ++ [u.visit r now root])

-----------------------------------------------------------------------------------------
-- What is kept from pass to pass
-----------------------------------------------------------------------------------------

namespace Reconciler

/-- Clearing a resource may change its record but adds none and drops none. -/
theorem records_clearFailed (r : Reconciler) (root other : String) (cleared : ResourceAction)
    (now : Instant) (action : ResourceAction)
    : ((r.clearFailed other cleared now).2.ledger root).records[action]?
        = (r.ledger root).records[action]?
      ∨ ∃ record record', (r.ledger root).records[action]? = some record
          ∧ record.clear? r.tracker.limits now = some record'
          ∧ ((r.clearFailed other cleared now).2.ledger root).records[action]?
              = some record' := by
  have left : ((r.clearFailed other cleared now).2.ledger root).records[action]?
      = (r.tracker.clear other cleared now).2.get? root action :=
    rfl
  have before : (r.ledger root).records[action]? = r.tracker.get? root action := rfl
  rw [left, before, Tracker.get?_clear]
  split
  · cases held : r.tracker.get? root action with
    | none => exact .inl rfl
    | some record =>
        rw [Option.bind_some]
        cases changed : record.clear? r.tracker.limits now with
        | none => exact .inl rfl
        | some record' => exact .inr ⟨record, record', rfl, changed, rfl⟩
  · exact .inl rfl

theorem configured_clearFailed (h : r.Configured) (root : String) (action : ResourceAction)
    (now : Instant)
    : (r.clearFailed root action now).2.Configured := by
  simp only [Configured, clearFailed, Tracker.clear]
  split <;> exact h

end Reconciler

theorem History.config_eq {visits : List Visit} (h : History s config root r visits)
    : r.config = config ∧ r.Configured := by
  induction h with
  | new => exact ⟨rfl, rfl⟩
  | cleared before other action now ih =>
      exact ⟨ih.1, Reconciler.configured_clearFailed ih.2 other action now⟩
  | served before kept ih => exact ih
  | passed before distinct shared run closed ih =>
      obtain ⟨same, configured, -⟩ := Underway.run_over ih.2 distinct run closed
      exact ⟨same.trans ih.1, configured⟩

/-- In no pass was a reply noted that the surroundings do not give. -/
theorem History.truthful {visits : List Visit} (h : History s config root r visits)
    : ∀ v ∈ visits, ∀ x ∈ v.exchanges, ∃ w, (s.ask x.question w).1 = x.reply := by
  induction h with
  | new =>
      intro v hv
      cases hv
  | cleared before other action now ih => exact ih
  | served before kept ih => exact ih
  | passed before distinct shared run closed ih =>
      exact List.forall_mem_append.mpr
        ⟨ih, List.forall_mem_singleton.mpr (Underway.run_truthful run)⟩

/-- A visit takes one of the courses of a pass over its root. -/
theorem Underway.course {strides : List Stride} {u : Underway ω} (configured : r.Configured)
    (distinct : (Reconciler.sharedRoots s w).Nodup) (shared : root ∈ Reconciler.sharedRoots s w)
    (run : run s now strides (begin s r w) = some u) (closed : u.Over)
    : ∃ result, u.results.lookup root = some result
        ∧ RootPass.Course r.config.trackerLimits root now (r.ledger root) (u.asked root) result
            (u.reconciler.ledger root) := by
  obtain ⟨-, -, -, played, -⟩ := run_over configured distinct run closed
  obtain ⟨result, done, plays⟩ := played root shared
  exact ⟨result, done, RootPass.course plays⟩

-----------------------------------------------------------------------------------------
-- What a visit saw and did
-----------------------------------------------------------------------------------------

namespace Exchange

/-- The changes of status that were reported and taken in. -/
def reported : Exchange → List StatusTransition
  | ⟨.report transitions, .answered _⟩ => transitions
  | _ => []

/-- Where no report is refused, all changes are taken in. -/
theorem reported_eq {x : Exchange} {w : ω} (accepts : ∀ transitions w,
      (s.ask (.report transitions) w).1 = .answered ())
    (given : (s.ask x.question w).1 = x.reply)
    : x.reported = x.transitions := by
  obtain ⟨question, reply⟩ := x
  cases question with
  | report transitions =>
      have same := given.symm.trans (accepts transitions w)
      dsimp only at same
      rw [same]
      rfl
  | tree _ _ => rfl
  | resources _ => rfl
  | resourcesForDelete _ => rfl
  | push _ => rfl
  | reset _ _ => rfl

end Exchange

namespace Visit

/-- The changes of status that were reported and taken in. -/
def reported (v : Visit) : List StatusTransition :=
  v.exchanges.flatMap Exchange.reported

/-- The difference that was found. -/
def difference? (v : Visit) : Option TreeDiff :=
  RootPass.difference? v.exchanges

/-- What was found, if it came to be sorted. -/
def findings? (v : Visit) : Option RootPass.Findings :=
  RootPass.findings? v.exchanges

/-- The difference that was attempted. -/
def attempted (v : Visit) (limits : TrackerLimits) : TreeDiff :=
  match v.findings? with
  | some f => f.attempted limits v.now v.before
  | none => {}

/-- An action on a resource at the key ran out of attempts. -/
def GivesUp (v : Visit) (limits : TrackerLimits) (action : ActionKind) (key : Key) : Prop :=
  ∃ f, v.findings? = some f
    ∧ ∃ entry ∈ (f.sorted limits v.now v.before).1.failed, entry.1 = action ∧ entry.2.key = key

end Visit

/-- The statuses that are told last by key, after some visits. -/
def Visit.latest (visits : List Visit) : Std.ExtTreeMap Key SyncStatus :=
  (StatusLog.record {} (visits.flatMap Visit.reported)).latest

end Concord
