import Concord.Proofs.Reconcile.Appearances
import Concord.Proofs.Reconcile.Histories

/-! What comes before a resource is given up. Its record was escalated in an earlier pass and was
kept since. That pass reset the root on both views, unless it ended with an error before it was
done: the record is escalated as it is counted, and no later pass looks at what became of the
reset.
-/

namespace Concord

variable {ω : Type} {s : Surroundings ω} {config : ReconcilerConfig} {root : String}
  {limits : TrackerLimits} {now : Instant} {w : ω} {r : Reconciler} {visits : List Visit}
  {action : ResourceAction}

-----------------------------------------------------------------------------------------
-- Escalation in a visit
-----------------------------------------------------------------------------------------

namespace Visit

/-- The visit counts an action that has used its first attempts up, and so it is to reset the
root.
-/
def Escalates (v : Visit) (limits : TrackerLimits) (action : ResourceAction) : Prop :=
  ∃ f, v.findings? = some f ∧ action ∈ (Triage.entries f.creates f.deletes).map Triage.Entry.action
    ∧ (v.before.records.verdict limits v.now action).1 = .resetRoot

/-- Both views have reset the root. -/
def Rebuilt (v : Visit) (root : String) : Prop :=
  ⟨.reset .observed root, .answered ()⟩ ∈ v.exchanges
    ∧ ⟨.reset .desired root, .answered ()⟩ ∈ v.exchanges

/-- The visit ended with an error, in reporting or in one of the resets. -/
def CutShort (v : Visit) (root : String) : Prop :=
  ∃ x ∈ v.exchanges, x.reply.error? root ≠ none
    ∧ ((∃ transitions, x.question = .report transitions) ∨ ∃ side, x.question = .reset side root)

/-- Some visit escalated the action, whose record was kept ever since, and it has reset the root
unless it was cut short.
-/
def Escalated (visits : List Visit) (limits : TrackerLimits) (root : String)
    (action : ResourceAction) : Prop :=
  ∃ earlier v later, visits = earlier ++ v :: later ∧ v.Escalates limits action
    ∧ (∀ x ∈ v :: later, action ∈ x.after.records) ∧ (v.Rebuilt root ∨ v.CutShort root)

theorem Escalated.snoc {v : Visit} (h : Escalated visits limits root action)
    (kept : action ∈ v.after.records)
    : Escalated (visits ++ [v]) limits root action := by
  obtain ⟨earlier, first, later, rfl, escalates, since, rebuilt⟩ := h
  refine ⟨earlier, first, later ++ [v], ?_, escalates, ?_, rebuilt⟩
  · rw [List.append_assoc, List.cons_append]
  · rw [← List.cons_append]
    exact List.forall_mem_append.mpr ⟨since, List.forall_mem_singleton.mpr kept⟩

/-- The records that are known to be escalated were so by a visit. -/
def Accounted (visits : List Visit) (limits : TrackerLimits) (root : String) (records : Records)
    : Prop :=
  ∀ action record, records[action]? = some record → record.escalation = .purge →
    Escalated visits limits root action

end Visit

namespace RootPass.Findings

variable {f : Findings} {ledger : Ledger}

/-- An escalated record of a pass was so before, or the pass is to reset the root because of it. -/
theorem sorted_escalated {record : TrackedAction}
    (h : (f.sorted limits now ledger).2[action]? = some record)
    (escalated : record.escalation = .purge)
    : action ∈ (Triage.entries f.creates f.deletes).map Triage.Entry.action
      ∧ ((ledger.records.verdict limits now action).1 = .resetRoot
        ∨ ∃ before, ledger.records[action]? = some before ∧ before.escalation = .purge) := by
  rw [sorted, (Triage.sort_eq limits now ledger.records f.creates f.deletes).2] at h
  split at h
  · rename_i listed
    refine ⟨listed, ?_⟩
    cases h
    rw [Records.verdict] at escalated ⊢
    rcases TrackedAction.observe_escalation
      ((ledger.records[action]?).getD (.start limits.resetLimit now)) limits now with reset | same
    · exact .inl reset
    · right
      rw [same] at escalated
      cases found : ledger.records[action]? with
      | none =>
          rw [found] at escalated
          cases escalated
      | some before =>
          rw [found] at escalated
          exact ⟨before, rfl, escalated⟩
  · cases h

/-- A pass that counts an action past its first limit is to reset the root. -/
theorem reset_of_verdict
    (listed : action ∈ (Triage.entries f.creates f.deletes).map Triage.Entry.action)
    (h : (ledger.records.verdict limits now action).1 = .resetRoot)
    : (f.sorted limits now ledger).1.reset = true := by
  obtain ⟨entry, member, rfl⟩ := List.mem_map.mp listed
  rw [sorted, (Triage.sort_eq limits now ledger.records f.creates f.deletes).1]
  rcases Triage.action_mem_firsts [] member with none | ⟨first, hm, same⟩
  · cases none
  · rw [Triage.extend, Bool.false_or, List.any_eq_true]
    exact ⟨first, hm, decide_eq_true (same ▸ h)⟩

/-- Only what was escalated is given up. -/
theorem escalated_of_failed {entry : Triage.Entry}
    (h : entry ∈ (f.sorted limits now ledger).1.failed)
    : ∃ before, ledger.records[entry.action]? = some before ∧ before.escalation = .purge := by
  rw [sorted, (Triage.sort_eq limits now ledger.records f.creates f.deletes).1] at h
  simp only [Triage.extend, List.nil_append] at h
  have failed := of_decide_eq_true (List.mem_filter.mp h).2
  have escalated := TrackedAction.escalation_of_failed failed
  cases found : ledger.records[entry.action]? with
  | none =>
      rw [found] at escalated
      cases escalated
  | some before =>
      rw [found] at escalated
      exact ⟨before, rfl, escalated⟩

end RootPass.Findings

namespace Visit

variable {v : Visit} {f : RootPass.Findings} {record : TrackedAction}

theorem cutShort_of_reports {told : List StatusTransition} {log : List Exchange}
    {e : ReconcileError} (h : RootPass.Reports root told log (some e))
    (within : log ⊆ v.exchanges)
    : v.CutShort root := by
  generalize failed : some e = failure at h
  cases h with
  | silent _ => cases failed
  | told _ reply =>
      refine ⟨_, within List.mem_cons_self, ?_, .inl ⟨_, rfl⟩⟩
      rw [← failed]
      exact Option.some_ne_none e

/-- Both views are reset, or the visit ends with an error. -/
theorem rebuilt_or_cutShort {log : List Exchange} {failure : Option ReconcileError}
    (h : RootPass.Resets root log failure) (within : log ⊆ v.exchanges)
    : v.Rebuilt root ∨ v.CutShort root := by
  cases h with
  | first error =>
      refine .inr ⟨_, within List.mem_cons_self, ?_, .inr ⟨_, rfl⟩⟩
      rw [error]
      exact Option.some_ne_none _
  | both reply =>
      have last : (⟨.reset .desired root, reply⟩ : Exchange) ∈ v.exchanges :=
        within (List.mem_cons_of_mem _ List.mem_cons_self)
      cases reply with
      | answered _ => exact .inl ⟨within List.mem_cons_self, last⟩
      | failed e => exact .inr ⟨_, last, Option.some_ne_none e, .inr ⟨_, rfl⟩⟩
      | panicked => exact .inr ⟨_, last, Option.some_ne_none _, .inr ⟨_, rfl⟩⟩

/-- An escalated record that a visit leaves behind was escalated before, or by that visit. -/
theorem escalated_of_sorted (before : Accounted visits limits root v.before.records)
    (findings : v.findings? = some f)
    (found : (f.sorted limits v.now v.before).2[action]? = some record)
    (escalated : record.escalation = .purge) (kept : action ∈ v.after.records)
    (settled : (f.sorted limits v.now v.before).1.reset = true → v.Rebuilt root ∨ v.CutShort root)
    : Escalated (visits ++ [v]) limits root action := by
  obtain ⟨listed, reset | ⟨old, held, already⟩⟩ :=
    RootPass.Findings.sorted_escalated found escalated
  · exact ⟨visits, v, [], rfl, ⟨f, findings, listed, reset⟩, List.forall_mem_singleton.mpr kept,
      settled (RootPass.Findings.reset_of_verdict listed reset)⟩
  · exact (before action old held already).snoc kept

/-- After a visit all escalated records are accounted for, if they were before. -/
theorem accounted {result : Except ReconcileError RootOutcome}
    (course : RootPass.Course limits root v.now v.before v.exchanges result v.after)
    (before : Accounted visits limits root v.before.records)
    : Accounted (visits ++ [v]) limits root v.after.records := by
  intro action record found escalated
  have kept : action ∈ v.after.records :=
    Std.ExtTreeMap.mem_iff_isSome_getElem?.mpr (by rw [found]; rfl)
  obtain ⟨now, ledger, log, left⟩ := v
  dsimp only at course found before
  cases course with
  | unread _ => exact (before action record found escalated).snoc kept
  | converged _ _ => cases found
  | unreported f _ reports =>
      refine escalated_of_sorted before rfl found escalated kept fun _ => .inr ?_
      exact cutShort_of_reports reports (List.subset_append_right _ _)
  | reset f _ due _ resets =>
      obtain ⟨old, held, left⟩ := Option.bind_eq_some_iff.mp
        (Std.ExtTreeMap.getElem?_filterMap'.symm.trans found)
      refine escalated_of_sorted before rfl held (TrackedAction.escalation_of_reset left) kept
        fun _ => ?_
      exact rebuilt_or_cutShort resets (List.subset_append_right _ _)
  | pushed f _ due _ _ =>
      refine escalated_of_sorted before rfl found escalated kept fun reset => ?_
      exact absurd (due.symm.trans reset) Bool.false_ne_true

end Visit

-----------------------------------------------------------------------------------------
-- All visits
-----------------------------------------------------------------------------------------

/-- Throughout a history all escalated records are accounted for, by induction on it. -/
theorem History.accounted (h : History s config root r visits)
    : Visit.Accounted visits config.trackerLimits root (r.ledger root).records := by
  induction h with
  | new =>
      intro action record found _
      simp [Reconciler.ledger, Reconciler.new, Tracker.records] at found
  | @cleared r visits before other cleared now ih =>
      intro action record found escalated
      rcases Reconciler.records_clearFailed r root other cleared now action with
        same | ⟨old, new, held, changed, left⟩
      · exact ih action record (same.symm.trans found) escalated
      · cases left.symm.trans found
        exact ih action old held ((TrackedAction.escalation_of_clear changed).symm.trans escalated)
  | served before kept ih =>
      rw [Reconciler.ledger_retainRoots, if_pos kept]
      exact ih
  | @passed r visits now w strides u before distinct shared run closed ih =>
      obtain ⟨same, configured⟩ := before.config_eq
      obtain ⟨result, -, course⟩ := Underway.course configured distinct shared run closed
      rw [same] at course
      exact Visit.accounted (v := u.visit r now root) course ih

/-- Before a resource is given up, an earlier visit has escalated its record, which was kept ever
since, and in that visit both views have reset the root unless it was cut short.
-/
theorem reset_before_failed {strides : List Stride} {u : Underway ω}
    (history : History s config root r visits)
    (distinct : (Reconciler.sharedRoots s w).Nodup) (shared : root ∈ Reconciler.sharedRoots s w)
    (run : Underway.run s now strides (.begin s r w) = some u) (closed : u.Over)
    {t : StatusTransition} (told : t ∈ RootPass.transitions (u.asked root)) {kind : ActionKind}
    {reason : String} (failed : t.status = .failed kind reason)
    : ∃ action : ResourceAction, action.action = kind ∧ action.identity.key = t.key
        ∧ action ∈ (r.ledger root).records
        ∧ Visit.Escalated visits config.trackerLimits root action := by
  obtain ⟨rfl, configured⟩ := history.config_eq
  obtain ⟨result, -, course⟩ := Underway.course configured distinct shared run closed
  rcases course.told with ⟨-, quiet, -⟩ | ⟨f, -, -, same, -, -⟩
  · rw [quiet] at told
    cases told
  · rw [same] at told
    obtain ⟨-, ⟨status, -⟩ | ⟨status, -⟩ | ⟨⟨entry, listed, key, status⟩, -⟩⟩ :=
      RootPass.Findings.status_moves told
    · cases failed.symm.trans status
    · cases failed.symm.trans status
    · cases failed.symm.trans status
      obtain ⟨before, held, escalated⟩ := RootPass.Findings.escalated_of_failed listed
      refine ⟨Triage.Entry.action entry, rfl, key, ?_, history.accounted _ before held escalated⟩
      exact Std.ExtTreeMap.mem_iff_isSome_getElem?.mpr (by rw [held]; rfl)

-----------------------------------------------------------------------------------------
-- An object that never arrives
-----------------------------------------------------------------------------------------

namespace Stubborn

/-- A root whose only object is pushed and never arrives. Its views can be reset or cannot. -/
def surroundings (resets : Bool) : Surroundings Unit where
  roots _ _ := ["t1"]
  ask
    | .tree .desired _, w => (.answered ((∅ : HashTree).addAll [(⟨["t1", "a"]⟩, ∅)]).1, w)
    | .tree .observed _, w => (.answered ∅, w)
    | .resources keys, w => (.answered (keys.map Resource.reference), w)
    | .resourcesForDelete keys, w => (.answered (keys.map Resource.reference), w)
    | .report _, w => (.answered (), w)
    | .push _, w => (.answered (), w)
    | .reset .., w =>
        (if resets then .answered () else .failed (.viewFailed "observed" "reset" "down"), w)
  serve _ _ w := (.ok (), w)
  settle _ w := (.ok (), w)

/-- Two attempts, a reset, four attempts, and no delay between them. -/
def quick : ReconcilerConfig :=
  { maxCreateRetry := 1, baseBackoff := .ofMillis 0, maxBackoff := .ofMillis 0 }

/-- A pass whose work on the root takes a number of steps. -/
def lap (resets : Bool) (steps : Nat) (r : Reconciler) : Option (Underway Unit) :=
  (Underway.run (surroundings resets) ⟨0⟩ (.start :: List.replicate steps (.work "t1"))
    (.begin (surroundings resets) r ())).filter fun u => u.waiting.isEmpty && u.active.isEmpty

/-- Passes one after the other, as the root saw them, and the reconciler after them. -/
def laps (resets : Bool) : List Nat → Reconciler → List Visit → Option (Reconciler × List Visit)
  | [], r, visits => some (r, visits)
  | steps :: rest, r, visits =>
      (lap resets steps r).bind fun u =>
        laps resets rest u.reconciler (visits ++ [u.visit r ⟨0⟩ "t1"])

variable {resets : Bool} {steps : Nat} {u : Underway Unit}

theorem lap_spec (h : lap resets steps r = some u)
    : Underway.run (surroundings resets) ⟨0⟩ (.start :: List.replicate steps (.work "t1"))
        (.begin (surroundings resets) r ()) = some u
      ∧ u.Over :=
  Underway.over_of_filter h

theorem shared (resets : Bool) (w : Unit)
    : Reconciler.sharedRoots (surroundings resets) w = ["t1"] := by
  cases w
  cases resets <;> decide +kernel

theorem distinct (resets : Bool) (w : Unit)
    : (Reconciler.sharedRoots (surroundings resets) w).Nodup := by
  rw [shared]
  decide

theorem listed (resets : Bool) (w : Unit)
    : "t1" ∈ Reconciler.sharedRoots (surroundings resets) w := by
  rw [shared]
  exact List.mem_cons_self

/-- Passes one after the other are a history, by induction on them. -/
theorem history_of_laps {laps' : List Nat} {r' : Reconciler} {visits' : List Visit}
    (h : laps resets laps' r visits = some (r', visits'))
    (before : History (surroundings resets) quick "t1" r visits)
    : History (surroundings resets) quick "t1" r' visits' := by
  induction laps' generalizing r visits with
  | nil =>
      cases h
      exact before
  | cons steps rest ih =>
      obtain ⟨u, lap, later⟩ := Option.bind_eq_some_iff.mp h
      obtain ⟨run, closed⟩ := lap_spec lap
      exact ih later (.passed before (distinct _ _) (listed _ _) run closed)

/-- Seven passes: two attempts, a reset and four more attempts. -/
def seven (resets : Bool) : Reconciler × List Visit :=
  (laps resets [9, 8, if resets then 9 else 7, 8, 8, 8, 8] (.new quick) []).get
    (by cases resets <;> decide +kernel)

theorem laps_seven (resets : Bool)
    : laps resets [9, 8, if resets then 9 else 7, 8, 8, 8, 8] (.new quick) []
      = some ((seven resets).1, (seven resets).2) := by
  rw [Prod.mk.eta, seven, Option.some_get]

theorem history_seven (resets : Bool)
    : History (surroundings resets) quick "t1" (seven resets).1 (seven resets).2 :=
  history_of_laps (laps_seven resets) .new

/-- The eighth pass. -/
def eighth (resets : Bool) : Underway Unit :=
  (lap resets 8 (seven resets).1).get (by cases resets <;> decide +kernel)

theorem eighth_spec (resets : Bool)
    : Underway.run (surroundings resets) ⟨0⟩ (.start :: List.replicate 8 (.work "t1"))
        (.begin (surroundings resets) (seven resets).1 ()) = some (eighth resets)
      ∧ (eighth resets).Over :=
  lap_spec (Option.some_get _).symm

/-- The object is given up in the eighth pass, whether its views could be reset or not. -/
theorem gives_up (resets : Bool)
    : ⟨"t1", ⟨["t1", "a"]⟩, .failed .create StatusTransition.giveUpReason⟩
      ∈ RootPass.transitions ((eighth resets).asked "t1") := by
  cases resets <;> decide +kernel

/-- An object that was given up after both views of its root were reset. -/
theorem reset_before_failed_stubborn
    : ∃ action : ResourceAction, action.action = .create ∧ action.identity.key = ⟨["t1", "a"]⟩
        ∧ action ∈ ((seven true).1.ledger "t1").records
        ∧ Visit.Escalated (seven true).2 quick.trackerLimits "t1" action :=
  reset_before_failed (history_seven true) (distinct true ()) (listed true ())
    (eighth_spec true).1 (eighth_spec true).2 (gives_up true) rfl

/-- No reset of the observed view is answered where the views cannot be reset. -/
theorem not_rebuilt : ∀ v ∈ (seven false).2, ¬ v.Rebuilt "t1" := by
  intro v hv rebuilt
  obtain ⟨w, given⟩ := (history_seven false).truthful v hv _ rebuilt.1
  cases given

/-- Where a reset fails, a resource is given up all the same: it is not so that both views of its
root were reset in some pass before.
-/
theorem not_reset_before_failed
    : ¬ ∀ (s : Surroundings Unit) (r : Reconciler) (visits : List Visit) (now : Instant)
        (strides : List Stride) (u : Underway Unit),
      History s quick "t1" r visits → (Reconciler.sharedRoots s ()).Nodup →
      "t1" ∈ Reconciler.sharedRoots s () →
      Underway.run s now strides (.begin s r ()) = some u → u.Over →
      ∀ t ∈ RootPass.transitions (u.asked "t1"), ∀ kind reason,
        t.status = .failed kind reason → ∃ v ∈ visits, v.Rebuilt "t1" := by
  intro claim
  obtain ⟨v, hv, rebuilt⟩ := claim _ _ _ _ _ _ (history_seven false) (distinct false ())
    (listed false ()) (eighth_spec false).1 (eighth_spec false).2 _ (gives_up false) _ _ rfl
  exact not_rebuilt v hv rebuilt

end Stubborn

end Concord
