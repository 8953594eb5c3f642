import Concord.Proofs.Reconcile.Ledgers
import Concord.Proofs.Reconcile.Sorting
import Concord.Reconcile.Reconciler

/-! Work on one of several roots that share what is remembered. Records and pending keys of all
roots are behind a lock each, which is taken several times in a pass and never held while a view is
asked. What such a task does to its own root is what the pass over the root does, and it leaves
all other roots alone.
-/

namespace Concord

/-- The keys that were reported as pending, by root. -/
abbrev PendingKeys :=
  Std.ExtTreeMap String KeySet

namespace PendingKeys

/-- The pending keys of a root. -/
def of (m : PendingKeys) (root : String) : KeySet :=
  (m[root]?).getD ∅

/-- Puts the pending keys of a root in place of those it has. -/
def set (m : PendingKeys) (root : String) (keys : KeySet) : PendingKeys :=
  if keys.isEmpty then m.erase root else m.insert root keys

theorem of_set (m : PendingKeys) (root other : String) (keys : KeySet)
    : (m.set root keys).of other = if other = root then keys else m.of other :=
  getD_insertOrErase _ _ _ Std.ExtTreeSet.isEmpty_iff.mp

end PendingKeys

/-- Work on a root, up to each point where it waits: for the records, for the pending keys, or for
an answer. What it does while it holds a lock is one step, told by what it finds.
-/
inductive Task where
  | finished (outcome : RootOutcome)
  | tracking (change : Tracker → Tracker) (next : Tracker → Task)
  | marking (change : PendingKeys → PendingKeys) (next : PendingKeys → Task)
  | asking (question : Question) (next : question.Answer → Task)

-----------------------------------------------------------------------------------------
-- The records of all roots
-----------------------------------------------------------------------------------------

namespace Triage

/-- Takes one resource in, unless its action was seen before. -/
def stepIn (root : String) (now : Instant) (state : Triage × Tracker) (entry : Entry)
    : Triage × Tracker :=
  let (t, tracker) := state
  if t.seen.contains entry.action then state
  else
    let (outcome, tracker) := tracker.observe root entry.action now
    ({ t with seen := t.seen ++ [entry.action] }.add entry.1 entry.2 outcome, tracker)

/-- Sorts the resources of a root by the records of all roots. -/
def sortIn (root : String) (now : Instant) (tracker : Tracker) (creates deletes : List Resource)
    : Triage × Tracker :=
  let (t, tracker) := (entries creates deletes).foldl (stepIn root now) ({}, tracker)
  (t, tracker.forgetConverged root t.seen)

variable {root other : String} {now : Instant} {tracker : Tracker}
  {creates deletes : List Resource}

/-- Each resource is sorted by the records of its root, by induction on the resources. -/
theorem foldl_stepIn (root : String) (now : Instant) (entries : List Entry) (t : Triage)
    (tracker : Tracker)
    : (entries.foldl (stepIn root now) (t, tracker)).2.limits = tracker.limits
      ∧ (∀ other, other ≠ root →
          (entries.foldl (stepIn root now) (t, tracker)).2.records other = tracker.records other)
      ∧ entries.foldl (step tracker.limits now) (t, tracker.records root)
          = ((entries.foldl (stepIn root now) (t, tracker)).1,
              (entries.foldl (stepIn root now) (t, tracker)).2.records root) := by
  induction entries generalizing t tracker with
  | nil => exact ⟨rfl, fun _ _ => rfl, rfl⟩
  | cons e rest ih =>
      rw [List.foldl_cons, List.foldl_cons]
      by_cases seen : t.seen.contains e.action = true
      · have stays : stepIn root now (t, tracker) e = (t, tracker) := by
          simp only [stepIn, seen, if_true]
        have stays' : step tracker.limits now (t, tracker.records root) e
            = (t, tracker.records root) := by
          have seen : t.seen.contains ⟨e.1, e.2.identity⟩ = true := seen
          simp only [step, seen, if_true]
        rw [stays, stays']
        exact ih t tracker
      · let observed := tracker.observe root e.action now
        let t' := { t with seen := t.seen ++ [e.action] }.add e.1 e.2 observed.1
        have taken : stepIn root now (t, tracker) e = (t', observed.2) := by
          simp only [stepIn, if_neg seen]
          rfl
        have taken' : step tracker.limits now (t, tracker.records root) e
            = (t', observed.2.records root) := by
          have fresh : ¬ t.seen.contains ⟨e.1, e.2.identity⟩ = true := seen
          simp only [step, if_neg fresh, t', observed, Tracker.observe,
            Tracker.records_setRecords, if_true]
          rfl
        obtain ⟨limits, others, same⟩ := ih t' observed.2
        rw [taken, taken']
        refine ⟨limits, fun other differs => ?_, same⟩
        rw [others other differs]
        simp only [observed, Tracker.observe, Tracker.records_setRecords, if_neg differs]

theorem sortIn_spec (root : String) (now : Instant) (tracker : Tracker)
    (creates deletes : List Resource)
    : (sortIn root now tracker creates deletes).2.limits = tracker.limits
      ∧ (∀ other, other ≠ root →
          (sortIn root now tracker creates deletes).2.records other = tracker.records other)
      ∧ sort tracker.limits now (tracker.records root) creates deletes
          = ((sortIn root now tracker creates deletes).1,
              (sortIn root now tracker creates deletes).2.records root) := by
  obtain ⟨limits, others, same⟩ := foldl_stepIn root now
    (entries creates deletes) {} tracker
  refine ⟨limits, fun other differs => ?_, ?_⟩
  · rw [← others other differs]
    simp only [sortIn, Tracker.forgetConverged, Tracker.records_setRecords, if_neg differs]
  · rw [entries] at same
    simp only [sort, same, sortIn, Tracker.forgetConverged, Tracker.records_setRecords, if_true]
    rfl

end Triage

-----------------------------------------------------------------------------------------
-- The task of a root
-----------------------------------------------------------------------------------------

namespace RootPass

/-- Reports changes of status, if there are any. -/
def telling (transitions : List StatusTransition) (next : Task) : Task :=
  if transitions.isEmpty then next else .asking (.report transitions) fun _ => next

/-- The end of a pass over a root without a difference. -/
def convergedTask (root : String) : Task :=
  let status (m : PendingKeys) := StatusTransition.ofPass root (m.of root) {} {}
  .tracking (·.forgetRoot root) fun _ =>
    .marking (fun m => m.set root (status m).1) fun m => telling (status m).2 (.finished { root })

/-- The end of a pass that resets the root. The pending keys are left alone if nothing was given
up.
-/
def resettingTask (root : String) (now : Instant) (delta : TreeDiff) (triage : Triage) : Task :=
  let rebuilding : Task :=
    .tracking (·.resetRoot root now) fun _ =>
      .asking (.reset .observed root) fun _ => .asking (.reset .desired root) fun _ =>
        .finished { root, delta, failed := triage.failedIdentities, reset := true }
  let status (m : PendingKeys) := StatusTransition.ofFailed root (m.of root) triage.failed
  if triage.failed.isEmpty then rebuilding
  else .marking (fun m => m.set root (status m).1) fun m => telling (status m).2 rebuilding

/-- The end of a pass that pushes what may be tried. -/
def pushingTask (root : String) (delta : TreeDiff) (triage : Triage) : Task :=
  let attempted := triage.attempted delta
  let status (m : PendingKeys) := StatusTransition.ofPass root (m.of root) attempted triage
  let outcome : RootOutcome :=
    { root, delta, attempted
      pushed := triage.batch.size
      backedOff := triage.backedOff
      failed := triage.failedIdentities }
  .marking (fun m => m.set root (status m).1) fun m =>
    telling (status m).2 <|
      if triage.batch.isEmpty then .finished outcome
      else .asking (.push triage.batch) fun _ => .finished outcome

/-- The work on a root among others. -/
def task (root : String) (now : Instant) : Task :=
  .asking (.tree .desired root) fun desired =>
    .asking (.tree .observed root) fun observed =>
      let delta := desired.diff observed
      if delta.isEmpty then convergedTask root
      else
        .asking (.resources delta.add) fun creates =>
          .asking (.resourcesForDelete delta.remove) fun deletes =>
            .tracking (fun t => (Triage.sortIn root now t creates deletes).2) fun t =>
              let triage := (Triage.sortIn root now t creates deletes).1
              if triage.reset then resettingTask root now delta triage
              else pushingTask root delta triage

end RootPass

namespace Task

variable {limits : TrackerLimits} {root : String} {now : Instant} {ledger : Ledger}
  {next : Task} {p : Program RootOutcome}

/-- A task does on its root what a program does, from this ledger of the root, and changes nothing
that is remembered of other roots.
-/
inductive Does (limits : TrackerLimits) (root : String)
    : Ledger → Task → Program RootOutcome → Prop
  | finished (ledger : Ledger) (outcome : RootOutcome)
    : Does limits root ledger (.finished outcome) (.finished ledger outcome)
  | asking {ledger : Ledger} {question : Question} {next : question.Answer → Task}
    {follows : Ledger → question.Answer → Program RootOutcome}
    (rest : ∀ answer, Does limits root ledger (next answer) (follows ledger answer))
    : Does limits root ledger (.asking question next) (.asking ledger question follows)
  | tracking {ledger : Ledger} {change : Tracker → Tracker} {next : Tracker → Task}
    {p : Program RootOutcome}
    (spares : ∀ t, (change t).limits = t.limits
      ∧ ∀ other, other ≠ root → (change t).records other = t.records other)
    (rest : ∀ t, t.limits = limits → t.records root = ledger.records →
      Does limits root ⟨(change t).records root, ledger.pending⟩ (next t) p)
    : Does limits root ledger (.tracking change next) p
  | marking {ledger : Ledger} {change : PendingKeys → PendingKeys} {next : PendingKeys → Task}
    {p : Program RootOutcome}
    (spares : ∀ m other, other ≠ root → (change m).of other = m.of other)
    (rest : ∀ m, m.of root = ledger.pending →
      Does limits root ⟨ledger.records, (change m).of root⟩ (next m) p)
    : Does limits root ledger (.marking change next) p

theorem does_telling {transitions : List StatusTransition}
    {follows : Ledger → Program RootOutcome} (h : Does limits root ledger next (follows ledger))
    : Does limits root ledger (RootPass.telling transitions next)
        (RootPass.reporting ledger transitions follows) := by
  rw [RootPass.telling, RootPass.reporting]
  split
  · exact h
  · exact .asking fun _ => h

/-- Pending keys are put in place and the changes that come with them are reported. -/
theorem does_marking (ledger : Ledger) (status : KeySet → KeySet × List StatusTransition)
    {follows : Ledger → Program RootOutcome}
    (h : ∀ pending,
      Does limits root ⟨ledger.records, pending⟩ next (follows ⟨ledger.records, pending⟩))
    : Does limits root ledger
        (.marking (fun m => m.set root (status (m.of root)).1) fun m =>
          RootPass.telling (status (m.of root)).2 next)
        (RootPass.reporting ⟨ledger.records, (status ledger.pending).1⟩ (status ledger.pending).2
          follows) := by
  refine .marking (fun m other differs => ?_) fun m own => ?_
  · rw [PendingKeys.of_set, if_neg differs]
  · rw [PendingKeys.of_set, if_pos rfl, own]
    exact does_telling (h _)

theorem does_converged
    : Does limits root ledger (RootPass.convergedTask root) (RootPass.converged root ledger) := by
  refine .tracking (fun t => ⟨rfl, fun other differs => ?_⟩) fun t _ _ => ?_
  · rw [Tracker.forgetRoot, Tracker.records_setRecords, if_neg differs]
  · rw [Tracker.forgetRoot, Tracker.records_setRecords, if_pos rfl]
    exact does_marking ⟨∅, ledger.pending⟩
      (fun pending => StatusTransition.ofPass root pending {} {}) fun pending => .finished _ _

theorem does_resetting {delta : TreeDiff} {triage : Triage}
    : Does limits root ledger (RootPass.resettingTask root now delta triage)
        (RootPass.resetting root now delta triage ledger) := by
  have rebuilding (ledger : Ledger)
      : Does limits root ledger
          (.tracking (·.resetRoot root now) fun _ =>
            .asking (.reset .observed root) fun _ => .asking (.reset .desired root) fun _ =>
              .finished { root, delta, failed := triage.failedIdentities, reset := true })
          (.asking { ledger with records := ledger.records.afterReset now } (.reset .observed root)
            fun ledger _ => .asking ledger (.reset .desired root) fun ledger _ =>
              .finished ledger
                { root, delta, failed := triage.failedIdentities, reset := true }) := by
    refine .tracking (fun t => ⟨rfl, fun other differs => ?_⟩) fun t _ own => ?_
    · rw [Tracker.resetRoot, Tracker.records_setRecords, if_neg differs]
    · rw [Tracker.resetRoot, Tracker.records_setRecords, if_pos rfl, own]
      exact .asking fun _ => .asking fun _ => .finished _ _
  rw [RootPass.resettingTask, RootPass.resetting]
  dsimp only
  split
  · -- Nothing was given up, so no key leaves and nothing is reported.
    rename_i quiet
    rw [List.isEmpty_iff.mp quiet]
    exact rebuilding ledger
  · exact does_marking ledger
      (fun pending => StatusTransition.ofFailed root pending triage.failed) fun pending =>
        rebuilding _

theorem does_pushing {delta : TreeDiff} {triage : Triage}
    : Does limits root ledger (RootPass.pushingTask root delta triage)
        (RootPass.pushing root delta triage ledger) := by
  refine does_marking ledger
    (fun pending => StatusTransition.ofPass root pending (triage.attempted delta) triage)
    fun pending => ?_
  split
  · exact .finished _ _
  · exact .asking fun _ => .finished _ _

/-- The task of a root does what the pass over the root does. -/
theorem does_task (limits : TrackerLimits) (root : String) (now : Instant) (ledger : Ledger)
    : Does limits root ledger (RootPass.task root now)
        (RootPass.program limits root now ledger) := by
  refine .asking fun desired => .asking fun observed => ?_
  dsimp only
  split
  · exact does_converged
  · refine .asking fun creates => .asking fun deletes => ?_
    refine .tracking (fun t => ?_) fun t same own => ?_
    · obtain ⟨limits, others, -⟩ := Triage.sortIn_spec root now t creates deletes
      exact ⟨limits, others⟩
    · obtain ⟨-, -, sorted⟩ := Triage.sortIn_spec root now t creates deletes
      rw [same, own] at sorted
      rw [RootPass.sorting, sorted]
      dsimp only
      split
      · exact does_resetting
      · exact does_pushing

/-- The task is over within a number of steps, whatever it finds and is answered. -/
inductive Within : Nat → Task → Prop
  | finished (n : Nat) (outcome : RootOutcome) : Within (n + 1) (.finished outcome)
  | tracking {n : Nat} {change : Tracker → Tracker} {next : Tracker → Task}
    (rest : ∀ t, Within n (next t))
    : Within (n + 1) (.tracking change next)
  | marking {n : Nat} {change : PendingKeys → PendingKeys} {next : PendingKeys → Task}
    (rest : ∀ m, Within n (next m))
    : Within (n + 1) (.marking change next)
  | asking {n : Nat} {question : Question} {next : question.Answer → Task}
    (rest : ∀ answer, Within n (next answer))
    : Within (n + 1) (.asking question next)

theorem Within.mono {n m : Nat} {task : Task} (h : task.Within n) (le : n ≤ m)
    : task.Within m := by
  induction h generalizing m with
  | finished n outcome =>
      obtain ⟨k, rfl⟩ := Nat.exists_eq_add_of_le' (Nat.le_trans (Nat.le_add_left 1 n) le)
      exact .finished k outcome
  | tracking _ ih =>
      obtain ⟨k, rfl⟩ := Nat.exists_eq_add_of_le' (Nat.le_trans (Nat.le_add_left 1 _) le)
      exact .tracking fun t => ih t (by omega)
  | marking _ ih =>
      obtain ⟨k, rfl⟩ := Nat.exists_eq_add_of_le' (Nat.le_trans (Nat.le_add_left 1 _) le)
      exact .marking fun m => ih m (by omega)
  | asking _ ih =>
      obtain ⟨k, rfl⟩ := Nat.exists_eq_add_of_le' (Nat.le_trans (Nat.le_add_left 1 _) le)
      exact .asking fun answer => ih answer (by omega)

theorem within_telling {n : Nat} {transitions : List StatusTransition} (h : next.Within n)
    : (RootPass.telling transitions next).Within (n + 1) := by
  rw [RootPass.telling]
  split
  · exact h.mono (Nat.le_succ n)
  · exact .asking fun _ => h

/-- A pass over a root takes at most eleven steps: two trees, two fetches, the sorting, the pending
keys and the report, the records, two resets and the end.
-/
theorem within_task (root : String) (now : Instant) : (RootPass.task root now).Within 11 := by
  refine .asking fun desired => .asking fun observed => ?_
  dsimp only
  split
  · refine .tracking fun _ => .marking fun m => ?_
    exact within_telling (.finished 5 _)
  · refine .asking fun creates => .asking fun deletes => .tracking fun t => ?_
    split
    · rw [RootPass.resettingTask]
      have rebuilding {n : Nat} {outcome : RootOutcome}
          : Within (n + 4) (.tracking (·.resetRoot root now) fun _ =>
              .asking (.reset .observed root) fun _ => .asking (.reset .desired root) fun _ =>
                .finished outcome) :=
        .tracking fun _ => .asking fun _ => .asking fun _ => .finished n _
      dsimp only
      split
      · exact rebuilding
      · exact .marking fun m => within_telling rebuilding
    · rw [RootPass.pushingTask]
      refine .marking fun m => within_telling ?_
      split
      · exact .finished 3 _
      · exact .asking fun _ => .finished 2 _

end Task

end Concord
