import Concord.Proofs.Reconcile.LoneRoot
import Concord.Proofs.Reconcile.Rungs

/-! A pass that found a difference whose actions all stand on one rung. All resources are pushed,
or the root is reset, or all of them are given up, or all of them are skipped; the changes of
status and the records that are left follow suit.
-/

namespace Concord.RootPass

open TrackedAction

variable {limits : TrackerLimits} {root : String} {now later : Instant} {ledger : Ledger}
  {f : Findings} {passes : Nat}

/-- The keys that are reported as given up, each as often as it is reported. -/
def failures (told : List StatusTransition) : List Key :=
  (told.filter fun t => t.status.name = "sync-failed").map StatusTransition.key

namespace Findings

/-- What is to be done with the resources that were fetched. -/
def entries (f : Findings) : List Triage.Entry :=
  Triage.entries f.creates f.deletes

/-- There is a difference, and a resource for each key that it lists, which it does once. -/
structure Complete (f : Findings) : Prop where
  creates : f.creates.map Resource.key = f.delta.add
  deletes : f.deletes.map Resource.key = f.delta.remove
  distinct : (f.delta.add ++ f.delta.remove).Nodup
  differ : f.delta.isEmpty = false

/-- All actions are on one rung. -/
def OnRung (f : Findings) (limits : TrackerLimits) (now : Instant) (records : Records)
    (passes : Nat) : Prop :=
  ∀ a ∈ f.entries.map Triage.Entry.action,
    Rung limits now passes ((records[a]?).getD (.start limits.resetLimit now))

theorem Complete.keys (h : f.Complete)
    : (f.entries.map fun e => e.2.key) = f.delta.add ++ f.delta.remove := by
  rw [← h.creates, ← h.deletes, entries, Triage.entries, List.map_append, List.map_map,
    List.map_map]
  rfl

/-- An action tells its key, so no action is listed twice either. -/
theorem Complete.distinct_actions (h : f.Complete)
    : (f.entries.map Triage.Entry.action).Nodup := by
  refine List.Nodup.of_map (fun action => action.identity.key) ?_
  rw [List.map_map]
  exact h.keys ▸ h.distinct

theorem Complete.entries_isEmpty (h : f.Complete) : f.entries.isEmpty = false := by
  cases none : f.entries with
  | cons _ _ => rfl
  | nil =>
      have keys := h.keys
      have differ := h.differ
      rw [none, List.map_nil, eq_comm, List.append_eq_nil_iff] at keys
      rw [TreeDiff.isEmpty, keys.1, keys.2] at differ
      cases differ

theorem Complete.batch_isEmpty (h : f.Complete)
    : ResourceBatch.isEmpty ⟨f.creates, f.deletes⟩ = false := by
  have listed := h.entries_isEmpty
  rw [entries, Triage.entries] at listed
  cases hc : f.creates <;> cases hd : f.deletes <;> simp_all [ResourceBatch.isEmpty]

/-- Where all keys are skipped nothing is attempted. -/
theorem Complete.attempted_eq (h : f.Complete) {triage : Triage}
    (skipped : triage.skipped = f.entries.map fun e => e.2.key)
    : triage.attempted f.delta = {} := by
  have all : ∀ key ∈ f.delta.add ++ f.delta.remove, key ∈ triage.skipped := by
    intro key hk
    rw [skipped, h.keys]
    exact hk
  obtain ⟨add, remove⟩ := List.forall_mem_append.mp all
  rw [Triage.attempted, List.filter_eq_nil_iff.mpr fun key hk => by simp [add key hk],
    List.filter_eq_nil_iff.mpr fun key hk => by simp [remove key hk]]

-----------------------------------------------------------------------------------------
-- The triage
-----------------------------------------------------------------------------------------

theorem OnRung.sorted_eq (h : f.OnRung limits now ledger.records passes) (complete : f.Complete)
    : (f.sorted limits now ledger).1
      = Triage.extend {} (fun _ => onTheWay limits passes) f.entries :=
  Triage.sort_uniform complete.distinct_actions fun a ha => (h a ha).outcome

/-- Before both limits everything is pushed. -/
theorem OnRung.sorted_attempt (h : f.OnRung limits now ledger.records passes)
    (complete : f.Complete) (early : onTheWay limits passes = .attempt)
    : (f.sorted limits now ledger).1
      = { batch := ⟨f.creates, f.deletes⟩, seen := f.entries.map Triage.Entry.action } := by
  rw [h.sorted_eq complete, early]
  exact Triage.extend_attempt f.creates f.deletes

/-- At the first limit the root is reset. -/
theorem OnRung.sorted_resetRoot (h : f.OnRung limits now ledger.records passes)
    (complete : f.Complete) (due : onTheWay limits passes = .resetRoot)
    : (f.sorted limits now ledger).1
      = { seen := f.entries.map Triage.Entry.action, reset := true } := by
  have some := complete.entries_isEmpty
  rw [entries] at some
  rw [h.sorted_eq complete, due, entries, Triage.extend_resetRoot, some]
  rfl

/-- At the second limit everything is given up. -/
theorem OnRung.sorted_failed (h : f.OnRung limits now ledger.records passes)
    (complete : f.Complete) (last : onTheWay limits passes = .failed)
    : (f.sorted limits now ledger).1
      = {
        seen := f.entries.map Triage.Entry.action
        skipped := f.entries.map fun e => e.2.key
        failed := f.entries
      } := by
  rw [h.sorted_eq complete, last]
  exact Triage.extend_failed f.creates f.deletes

/-- After that everything is skipped. -/
theorem OnRung.sorted_stillFailed (h : f.OnRung limits now ledger.records passes)
    (complete : f.Complete) (beyond : onTheWay limits passes = .stillFailed)
    : (f.sorted limits now ledger).1
      = {
        seen := f.entries.map Triage.Entry.action
        skipped := f.entries.map fun e => e.2.key
      } := by
  rw [h.sorted_eq complete, beyond]
  exact Triage.extend_stillFailed f.creates f.deletes

/-- A reset is due at the first limit only. -/
theorem OnRung.reset_eq (h : f.OnRung limits now ledger.records passes) (complete : f.Complete)
    : (f.sorted limits now ledger).1.reset = decide (passes = resetPass limits) := by
  have order := resetPass_lt_purgePass limits
  rcases onTheWay_cases limits passes with
    ⟨due, stage⟩ | ⟨due, -, stage⟩ | ⟨last, stage⟩ | ⟨beyond, stage⟩
  · rw [h.sorted_resetRoot complete stage, decide_eq_true due]
  · rw [h.sorted_attempt complete stage, decide_eq_false due]
  · rw [h.sorted_failed complete stage, decide_eq_false (by omega)]
  · rw [h.sorted_stillFailed complete stage, decide_eq_false (by omega)]

/-- Everything is pushed before the second limit, but for the pass that resets the root. -/
theorem OnRung.batch_eq (h : f.OnRung limits now ledger.records passes) (complete : f.Complete)
    : (f.sorted limits now ledger).1.batch
      = if passes ≠ resetPass limits ∧ passes < purgePass limits then ⟨f.creates, f.deletes⟩
        else {} := by
  rcases onTheWay_cases limits passes with
    ⟨due, stage⟩ | ⟨due, early, stage⟩ | ⟨last, stage⟩ | ⟨beyond, stage⟩
  · rw [h.sorted_resetRoot complete stage, if_neg fun early => early.1 due]
  · rw [h.sorted_attempt complete stage, if_pos ⟨due, early⟩]
  · rw [h.sorted_failed complete stage, if_neg (by omega)]
  · rw [h.sorted_stillFailed complete stage, if_neg (by omega)]

-----------------------------------------------------------------------------------------
-- The changes of status
-----------------------------------------------------------------------------------------

theorem failures_ofFailed (root : String) (pending : KeySet) (failed : List Triage.Entry)
    : failures (StatusTransition.ofFailed root pending failed).2 = failed.map fun e => e.2.key := by
  have all : (StatusTransition.ofFailed root pending failed).2.filter
        (fun t => t.status.name = "sync-failed")
      = (StatusTransition.ofFailed root pending failed).2 := by
    refine List.filter_eq_self.mpr fun t told => ?_
    obtain ⟨e, -, rfl⟩ := StatusTransition.mem_ofFailed_snd.mp told
    exact decide_eq_true rfl
  rw [failures, all, StatusTransition.ofFailed, List.map_map]
  rfl

/-- A pass reports as given up just what its triage gave up. -/
theorem failures_ofPass (root : String) (pending : KeySet) (attempted : TreeDiff) (triage : Triage)
    : failures (StatusTransition.ofPass root pending attempted triage).2
      = triage.failed.map fun e => e.2.key := by
  have none {told : List StatusTransition} (h : ∀ t ∈ told, t.status.name ≠ "sync-failed")
      : failures told = [] := by
    rw [failures, List.filter_eq_nil_iff.mpr fun t ht => by simpa using h t ht]
    rfl
  have append (told more : List StatusTransition)
      : failures (told ++ more) = failures told ++ failures more := by
    rw [failures, List.filter_append, List.map_append]
    rfl
  rw [StatusTransition.ofPass]
  dsimp only
  rw [append, append, failures_ofFailed, none, none, List.nil_append, List.append_nil]
  · intro t ht
    obtain ⟨k, -, -, rfl⟩ := StatusTransition.mem_ofAttempted_snd.mp ht
    simp [SyncStatus.name]
  · intro t ht
    obtain ⟨k, -, rfl⟩ := List.mem_map.mp ht
    simp [SyncStatus.name]

/-- All keys of the difference are reported as given up at the second limit, and none otherwise. -/
theorem OnRung.failures_eq (h : f.OnRung limits now ledger.records passes) (complete : f.Complete)
    : failures (f.status limits root now ledger).2
      = if passes = purgePass limits then f.delta.add ++ f.delta.remove else [] := by
  have order := resetPass_lt_purgePass limits
  have pushed (undue : passes ≠ resetPass limits)
      : failures (f.status limits root now ledger).2
        = (f.sorted limits now ledger).1.failed.map fun e => e.2.key := by
    rw [status_of_push ((h.reset_eq complete).trans (decide_eq_false undue)), failures_ofPass]
  rcases onTheWay_cases limits passes with
    ⟨due, stage⟩ | ⟨due, early, stage⟩ | ⟨last, stage⟩ | ⟨beyond, stage⟩
  · rw [status_of_reset ((h.reset_eq complete).trans (decide_eq_true due)), failures_ofFailed,
      h.sorted_resetRoot complete stage, if_neg (by omega)]
    rfl
  · rw [pushed due, h.sorted_attempt complete stage, if_neg (by omega)]
    rfl
  · rw [pushed (by omega), h.sorted_failed complete stage, if_pos last, ← complete.keys]
  · rw [pushed (by omega), h.sorted_stillFailed complete stage, if_neg (by omega)]
    rfl

/-- From the second limit on no key is pending. -/
theorem OnRung.pending_eq (h : f.OnRung limits now ledger.records passes) (complete : f.Complete)
    (late : purgePass limits ≤ passes)
    (before : purgePass limits < passes → ∀ key, key ∉ ledger.pending) (key : Key)
    : key ∉ (f.status limits root now ledger).1 := by
  have order := resetPass_lt_purgePass limits
  rw [status_of_push ((h.reset_eq complete).trans (decide_eq_false (by omega))),
    StatusTransition.mem_ofPass_fst]
  rcases onTheWay_cases limits passes with
    ⟨due, stage⟩ | ⟨due, early, stage⟩ | ⟨last, stage⟩ | ⟨beyond, stage⟩
  · omega
  · omega
  · -- A key that was pending and is skipped now was given up.
    rw [h.sorted_failed complete stage, complete.attempted_eq rfl]
    rintro (⟨-, skipped, spared⟩ | tried)
    · obtain ⟨e, listed, rfl⟩ := List.mem_map.mp skipped
      exact spared e listed rfl
    · cases tried
  · rw [h.sorted_stillFailed complete stage, complete.attempted_eq rfl]
    rintro (⟨pending, -, -⟩ | tried)
    · exact before beyond key pending
    · cases tried

/-- After the second limit there is nothing to report. -/
theorem OnRung.silent (h : f.OnRung limits now ledger.records passes) (complete : f.Complete)
    (beyond : purgePass limits < passes) (none : ∀ key, key ∉ ledger.pending)
    : (f.status limits root now ledger).2 = [] := by
  have order := resetPass_lt_purgePass limits
  rw [status_of_push ((h.reset_eq complete).trans (decide_eq_false (by omega)))]
  refine List.eq_nil_iff_forall_not_mem.mpr fun t told => ?_
  have stage : onTheWay limits passes = .stillFailed := by
    rw [onTheWay, if_neg (by omega), if_neg (by omega), if_neg (by omega)]
  rw [StatusTransition.mem_ofPass_snd, h.sorted_stillFailed complete stage,
    complete.attempted_eq rfl] at told
  rcases told with ⟨k, pending, -⟩ | ⟨e, listed, -⟩ | ⟨k, tried, -⟩
  · exact none k pending
  · cases listed
  · cases tried

-----------------------------------------------------------------------------------------
-- The records
-----------------------------------------------------------------------------------------

/-- All actions that are left come to the next rung. -/
theorem OnRung.next {f' : Findings} (h : f.OnRung limits now ledger.records passes)
    (complete : f.Complete) (fewer : f'.entries ⊆ f.entries)
    (waited : now.nanos + limits.maxBackoff.nanos ≤ later.nanos)
    : f'.OnRung limits later (f.left limits root now ledger).records (passes + 1) := by
  intro a ha
  have here : a ∈ f.entries.map Triage.Entry.action := List.map_subset _ fewer ha
  have record : (f.sorted limits now ledger).2[a]?
      = some (ledger.records.verdict limits now a).2 := by
    rw [sorted, (Triage.sort_eq limits now ledger.records f.creates f.deletes).2]
    exact if_pos here
  obtain ⟨ahead, reset⟩ := (h a here).next waited
  rw [left, h.reset_eq complete]
  by_cases due : passes = resetPass limits
  · obtain ⟨r', restarted, rung⟩ := reset due
    rw [if_pos (decide_eq_true due), Records.afterReset, Std.ExtTreeMap.getElem?_filterMap', record]
    have kept : (some (ledger.records.verdict limits now a).2).bind (·.afterReset? now) = some r' :=
      restarted
    rw [kept]
    exact rung
  · rw [decide_eq_false due, if_neg Bool.false_ne_true, record]
    exact ahead due

end Findings

end Concord.RootPass
