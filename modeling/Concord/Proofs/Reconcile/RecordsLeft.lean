import Concord.Proofs.Reconcile.RefusedReports

/-! What is tracked of a root after a pass. Records are dropped in four places: of roots that are no
longer shared, of a root without a difference, of what was not fetched, and of what a reset starts
over. Together they leave records of just what diverges.
-/

namespace Concord

variable {ω : Type} {s : Surroundings ω} {config : ReconcilerConfig} {root : String}
  {limits : TrackerLimits} {now : Instant} {w : ω} {r : Reconciler} {action : ResourceAction}

-----------------------------------------------------------------------------------------
-- Records that a reset starts over
-----------------------------------------------------------------------------------------

namespace TrackedAction

variable {record record' : TrackedAction}

/-- The record is as a reset leaves it: escalated, and counting anew unless the action was given up.
-/
structure StartedOver (record : TrackedAction) (now : Instant) : Prop where
  escalated : record.escalation = .purge
  anew : record.isFailed = false →
    record.retries = -1 ∧ record.lastAttempt = none ∧ record.nextEligible = now

theorem afterReset_isSome_iff : (record.afterReset? now).isSome ↔ record.escalation = .purge := by
  rw [afterReset?]
  cases record.escalation <;> simp

theorem startedOver_of_afterReset (h : record.afterReset? now = some record')
    : record'.StartedOver now := by
  have escalated := escalation_of_reset h
  rw [afterReset?, escalated] at h
  cases h
  split
  · rename_i failed
    exact ⟨escalated, fun active => by simp [failed] at active⟩
  · exact ⟨escalated, fun _ => ⟨rfl, rfl, rfl⟩⟩

end TrackedAction

-----------------------------------------------------------------------------------------
-- Records of what was sorted
-----------------------------------------------------------------------------------------

namespace RootPass

variable {ledger left : Ledger} {log : List Exchange} {result : Except ReconcileError RootOutcome}
  {f : Findings}

/-- The actions on the resources that a pass fetched. -/
def fetched (log : List Exchange) : List ResourceAction :=
  ((findings? log).map fun f =>
    (Triage.entries f.creates f.deletes).map Triage.Entry.action).getD []

theorem fetched_asked (f : Findings) (root : String) (rest : List Exchange)
    : fetched (f.asked root ++ rest)
      = (Triage.entries f.creates f.deletes).map Triage.Entry.action :=
  rfl

theorem mem_sorted
    : action ∈ (f.sorted limits now ledger).2
      ↔ action ∈ (Triage.entries f.creates f.deletes).map Triage.Entry.action := by
  rw [Std.ExtTreeMap.mem_iff_isSome_getElem?, Findings.sorted,
    (Triage.sort_eq limits now ledger.records f.creates f.deletes).2]
  split <;> simp [*]

theorem getElem?_afterReset (f : Findings) (limits : TrackerLimits) (now : Instant)
    (ledger : Ledger) (action : ResourceAction)
    : ((f.sorted limits now ledger).2.afterReset now)[action]?
      = if action ∈ (Triage.entries f.creates f.deletes).map Triage.Entry.action then
          (ledger.records.verdict limits now action).2.afterReset? now
        else none := by
  rw [Records.afterReset, Std.ExtTreeMap.getElem?_filterMap', Findings.sorted,
    (Triage.sort_eq limits now ledger.records f.creates f.deletes).2]
  split <;> rfl

-----------------------------------------------------------------------------------------
-- The records that a pass over a root leaves
-----------------------------------------------------------------------------------------

/-- A view was to rebuild the root. -/
def Rebuilding (log : List Exchange) (root : String) : Prop :=
  ∃ side reply, ⟨.reset side root, reply⟩ ∈ log

/-- What a pass over a root leaves of its records. There are none of a root that is converged, and
just those of what was fetched where the pass came to its outcome. A reset leaves of these what is
escalated. A pass that could not read leaves all as it was, and any other one no record of what it
did not fetch.
-/
structure Leaves (limits : TrackerLimits) (root : String) (now : Instant) (before : Records)
    (log : List Exchange) (result : Except ReconcileError RootOutcome) (after : Records)
    : Prop where
  converged : ∀ desired observed rest,
    log = ⟨.tree .desired root, .answered desired⟩ :: ⟨.tree .observed root, .answered observed⟩
      :: rest →
    (desired.diff observed).isEmpty = true → after = ∅
  processed : ∀ outcome, result = .ok outcome → outcome.reset = false →
    ∀ a, a ∈ after ↔ a ∈ fetched log
  rebuilt : Rebuilding log root ∨ (∃ outcome, result = .ok outcome ∧ outcome.reset = true) →
    (∀ a, a ∈ after ↔ a ∈ fetched log ∧ (before.verdict limits now a).2.escalation = .purge)
    ∧ ∀ (a : ResourceAction) (record : TrackedAction), after[a]? = some record →
      record.StartedOver now
  unread : (∃ x ∈ log, x.question.Reads root ∧ ∃ e, x.reply.error? root = some e) → after = before
  stale : (∀ x ∈ log, x.question.Reads root → x.reply.error? root = none) →
    ∀ a ∈ after, a ∈ fetched log

/-- Reports, resets and pushes read nothing. -/
theorem Reports.not_reads {told : List StatusTransition} {failure : Option ReconcileError}
    (h : Reports root told log failure)
    : ∀ x ∈ log, ¬ x.question.Reads root ∧ ∀ side other reply, x ≠ ⟨.reset side other, reply⟩ := by
  cases h <;> simp [Question.Reads]

theorem Resets.not_reads {failure : Option ReconcileError} (h : Resets root log failure)
    : ∀ x ∈ log, ¬ x.question.Reads root := by
  cases h <;> simp [Question.Reads]

theorem Pushes.not_reads {batch : ResourceBatch} {failure : Option ReconcileError}
    (h : Pushes root batch log failure)
    : ∀ x ∈ log, ¬ x.question.Reads root ∧ ∀ side other reply, x ≠ ⟨.reset side other, reply⟩ := by
  cases h <;> simp [Question.Reads]

theorem eq_of_ended {failure : Option ReconcileError} {told outcome : RootOutcome}
    (h : ended failure told = .ok outcome)
    : outcome = told := by
  cases failure with
  | none =>
      cases h
      rfl
  | some e => cases h

/-- A program that ends in an error met it in a reply. -/
theorem exists_error {α : Type} {p : Program α} {e : ReconcileError}
    (h : p.Plays root log (.error e) left)
    : ∃ x ∈ log, x.reply.error? root = some e := by
  generalize hr : (Except.error e : Except ReconcileError α) = result at h
  induction h with
  | finished ledger a => cases hr
  | answered rest ih =>
      obtain ⟨x, hx, error⟩ := ih hr
      exact ⟨x, List.mem_cons_of_mem _ hx, error⟩
  | refused error =>
      cases hr
      exact ⟨_, List.mem_cons_self, error⟩

/-- What a pass asks to find something is answered. -/
theorem answered_of_asked {x : Exchange} (h : x ∈ f.asked root) : x.reply.error? root = none := by
  simp only [Findings.asked, List.mem_cons, List.not_mem_nil, or_false] at h
  rcases h with rfl | rfl | rfl | rfl <;> rfl

/-- Two trees without a difference end the pass with no records. -/
theorem plays_without_difference {desired observed : HashTree} {rest : List Exchange}
    (h : (program limits root now ledger).Plays root
      (⟨.tree .desired root, .answered desired⟩ :: ⟨.tree .observed root, .answered observed⟩
        :: rest)
      result left)
    (same : (desired.diff observed).isEmpty = true)
    : left.records = ∅ := by
  rw [program_eq] at h
  cases h with
  | answered h =>
      cases h with
      | refused error => cases error
      | answered h =>
          simp only [compared, same, if_true] at h
          obtain ⟨failure, -, -, rfl⟩ := plays_converged h
          rfl

/-- A pass that sorted what it found, and resets nothing, leaves the records of what it fetched. -/
theorem leaves_sorted (f : Findings) {rest : List Exchange}
    (log : (program limits root now ledger).Plays root (f.asked root ++ rest) result left)
    (records : left.records = (f.sorted limits now ledger).2)
    (quiet : ∀ x ∈ rest, ¬ x.question.Reads root
      ∧ ∀ side other reply, x ≠ ⟨.reset side other, reply⟩)
    (outcome : ∀ outcome, result = .ok outcome → outcome.reset = false)
    : Leaves limits root now ledger.records (f.asked root ++ rest) result left.records where
  converged desired observed rest' split same := plays_without_difference (split ▸ log) same
  processed outcome _ _ a := by rw [records, fetched_asked, mem_sorted]
  rebuilt h := by
    exfalso
    rcases h with ⟨side, reply, asked⟩ | ⟨told, same, reset⟩
    · rcases List.mem_append.mp asked with early | late
      · simp [Findings.asked] at early
      · exact (quiet _ late).2 _ _ _ rfl
    · simp [outcome told same] at reset
  unread h := by
    exfalso
    obtain ⟨x, asked, reads, e, error⟩ := h
    rcases List.mem_append.mp asked with early | late
    · simp [answered_of_asked early] at error
    · exact (quiet x late).1 reads
  stale _ a ha := by rwa [records, mem_sorted] at ha

/-- A pass that could not read leaves all as it was. -/
theorem leaves_unread {e : ReconcileError}
    (h : (program limits root now ledger).Plays root log (.error e) ledger)
    (reads : ∀ x ∈ log, x.question.Reads root)
    : Leaves limits root now ledger.records log (.error e) ledger.records where
  converged desired observed rest split same := plays_without_difference (split ▸ h) same
  processed outcome he := by cases he
  rebuilt h := by
    exfalso
    rcases h with ⟨side, reply, asked⟩ | ⟨outcome, he, -⟩
    · exact reads _ asked
    · cases he
  unread _ := rfl
  stale fine := by
    obtain ⟨x, hx, error⟩ := exists_error h
    simp [fine x hx (reads x hx)] at error

/-- A pass without a difference leaves no records. -/
theorem leaves_converged {desired observed : HashTree} {reported : List Exchange}
    {failure : Option ReconcileError} {told : List StatusTransition}
    (same : (desired.diff observed).isEmpty = true) (reports : Reports root told reported failure)
    : Leaves limits root now ledger.records
        ([⟨.tree .desired root, .answered desired⟩, ⟨.tree .observed root, .answered observed⟩]
          ++ reported)
        (ended failure { root }) ∅ := by
  have fetched : fetched
      ([⟨.tree .desired root, .answered desired⟩, ⟨.tree .observed root, .answered observed⟩]
        ++ reported) = [] := by
    cases reports <;> simp [RootPass.fetched, findings?, same, Triage.entries]
  refine ⟨fun _ _ _ _ _ => rfl, fun _ _ _ a => ?_, fun h => ?_, fun h => ?_,
    fun _ a ha => by simp at ha⟩
  · rw [fetched]
    simp
  · exfalso
    rcases h with ⟨side, reply, asked⟩ | ⟨outcome, he, reset⟩
    · rcases List.mem_append.mp asked with early | late
      · simp at early
      · exact (reports.not_reads _ late).2 _ _ _ rfl
    · rw [eq_of_ended he] at reset
      cases reset
  · exfalso
    obtain ⟨x, asked, reads, e, error⟩ := h
    rcases List.mem_append.mp asked with early | late
    · simp only [List.mem_cons, List.not_mem_nil, or_false] at early
      rcases early with rfl | rfl <;> cases error
    · exact (reports.not_reads x late).1 reads

/-- A pass that resets the root leaves of what it fetched the records that are escalated. -/
theorem leaves_reset (f : Findings) {rest : List Exchange}
    (log : (program limits root now ledger).Plays root (f.asked root ++ rest) result left)
    (records : left.records = (f.sorted limits now ledger).2.afterReset now)
    (quiet : ∀ x ∈ rest, ¬ x.question.Reads root)
    (outcome : ∀ outcome, result = .ok outcome → outcome.reset = true)
    : Leaves limits root now ledger.records (f.asked root ++ rest) result left.records where
  converged desired observed rest' split same := plays_without_difference (split ▸ log) same
  processed told he kept := by simp [outcome told he] at kept
  rebuilt _ := by
    rw [records, fetched_asked]
    refine ⟨fun a => ?_, fun a record found => ?_⟩
    · rw [Std.ExtTreeMap.mem_iff_isSome_getElem?, getElem?_afterReset]
      split
      · rename_i listed
        rw [TrackedAction.afterReset_isSome_iff]
        simp [listed]
      · rename_i unlisted
        simp [unlisted]
    · rw [getElem?_afterReset] at found
      split at found
      · exact TrackedAction.startedOver_of_afterReset found
      · cases found
  unread h := by
    exfalso
    obtain ⟨x, asked, reads, e, error⟩ := h
    rcases List.mem_append.mp asked with early | late
    · simp [answered_of_asked early] at error
    · exact quiet x late reads
  stale _ a ha := by
    rw [records, Std.ExtTreeMap.mem_iff_isSome_getElem?, getElem?_afterReset] at ha
    split at ha
    · assumption
    · cases ha

/-- Every pass leaves these records, by cases on its course. -/
theorem leaves_of_plays (h : (program limits root now ledger).Plays root log result left)
    : Leaves limits root now ledger.records log result left.records := by
  cases course h with
  | unread reads => exact leaves_unread h reads
  | converged same reports => exact leaves_converged same reports
  | unreported f differ reports =>
      exact leaves_sorted f h rfl reports.not_reads fun _ he => by cases he
  | reset f differ due reports resets =>
      rw [List.append_assoc] at h ⊢
      refine leaves_reset f h rfl (List.forall_mem_append.mpr
        ⟨fun x hx => (reports.not_reads x hx).1, resets.not_reads⟩) fun outcome he => ?_
      rw [eq_of_ended he]
      rfl
  | pushed f differ due reports pushes =>
      rw [List.append_assoc] at h ⊢
      refine leaves_sorted f h rfl
        (List.forall_mem_append.mpr ⟨reports.not_reads, pushes.not_reads⟩) fun outcome he => ?_
      rw [eq_of_ended he]
      rfl

end RootPass

-----------------------------------------------------------------------------------------
-- Whole runs
-----------------------------------------------------------------------------------------

/-- A reconciler comes to be: it starts anew, goes through passes, and may be told to clear what was
given up or to serve other roots in between. Each pass takes its steps in some order, and meets the
world in some state.
-/
inductive Reconciler.Reached (s : Surroundings ω) (config : ReconcilerConfig) : Reconciler → Prop
  | new : Reached s config (.new config)
  | cleared {r : Reconciler} (before : Reached s config r) (root : String)
    (action : ResourceAction) (now : Instant)
    : Reached s config (r.clearFailed root action now).2
  | served {r : Reconciler} (before : Reached s config r) (roots : List String)
    : Reached s config (r.retainRoots roots)
  | passed {r : Reconciler} {now : Instant} {w : ω} {strides : List Stride} {u : Underway ω}
    (before : Reached s config r) (distinct : (Reconciler.sharedRoots s w).Nodup)
    (run : Underway.run s now strides (.begin s r w) = some u) (closed : u.Over)
    : Reached s config u.reconciler

theorem Reconciler.Reached.configured (h : Reached s config r)
    : r.config = config ∧ r.Configured := by
  induction h with
  | new => exact ⟨rfl, rfl⟩
  | cleared before root action now ih =>
      exact ⟨ih.1, Reconciler.configured_clearFailed ih.2 root action now⟩
  | served before roots ih => exact ih
  | passed before distinct run closed ih =>
      obtain ⟨same, configured, -⟩ := Underway.run_over ih.2 distinct run closed
      exact ⟨same.trans ih.1, configured⟩

/-- The tracker remembers nothing that no longer diverges. In every run and after every pass, it has
no records of roots that are not shared, and of a shared root those that the pass over it leaves.
-/
theorem records_after_pass {strides : List Stride} {u : Underway ω} (reached : r.Reached s config)
    (distinct : (Reconciler.sharedRoots s w).Nodup)
    (run : Underway.run s now strides (.begin s r w) = some u) (closed : u.Over)
    : (∀ root, root ∉ Reconciler.sharedRoots s w → (u.reconciler.ledger root).records = ∅)
      ∧ ∀ root ∈ Reconciler.sharedRoots s w, ∃ result,
          u.results.lookup root = some result
          ∧ RootPass.Leaves config.trackerLimits root now (r.ledger root).records (u.asked root)
              result (u.reconciler.ledger root).records := by
  obtain ⟨same, configured⟩ := reached.configured
  obtain ⟨-, -, -, played, strangers⟩ := Underway.run_over configured distinct run closed
  refine ⟨fun root unlisted => ?_, fun root listed => ?_⟩
  · rw [(strangers root unlisted).1]
  · obtain ⟨result, done, plays⟩ := played root listed
    rw [Reconciler.program, same] at plays
    exact ⟨result, done, RootPass.leaves_of_plays plays⟩

-----------------------------------------------------------------------------------------
-- A key that takes the place of another
-----------------------------------------------------------------------------------------

namespace Refusal

/-- Another object is wanted in place of the one that was pending, and the reporter is open. -/
def replaced : Underway World :=
  (lap ⟨[⟨["t1", "b"]⟩], true⟩ ⟨10000000000⟩ 9 opened.reconciler).get (by decide +kernel)

theorem completes_replaced
    : replaced.Completes surroundings opened.reconciler ⟨10000000000⟩ "t1" :=
  completes_of_lap completes_opened.configured_after (Option.some_get _).symm

/-- The action of creating an object. -/
def creation (key : Key) : ResourceAction :=
  ⟨.create, (Resource.reference key).identity⟩

/-- The record of the first object is dropped, and the second has the only one. -/
theorem records_after_pass_replaced
    : creation ⟨["t1", "a"]⟩ ∈ (opened.reconciler.ledger "t1").records
      ∧ ∀ a, a ∈ (replaced.reconciler.ledger "t1").records ↔ a = creation ⟨["t1", "b"]⟩ := by
  obtain ⟨_, _, distinct, -, run⟩ := completes_opened.run
  have reached : opened.reconciler.Reached surroundings {} :=
    .passed .new distinct run completes_opened.closed
  obtain ⟨_, _, distinct, shared, run⟩ := completes_replaced.run
  obtain ⟨result, done, leaves⟩ :=
    (records_after_pass reached distinct run completes_replaced.closed).2 "t1" shared
  have told : (replaced.results.lookup "t1").bind (·.toOption.map RootOutcome.reset)
      = some false := by
    decide +kernel
  have fetched : RootPass.fetched (replaced.asked "t1") = [creation ⟨["t1", "b"]⟩] := by
    decide +kernel
  rw [done] at told
  refine ⟨by decide +kernel, fun a => ?_⟩
  cases result with
  | error e => cases told
  | ok outcome =>
      rw [leaves.processed outcome rfl (Option.some.inj told), fetched, List.mem_singleton]

end Refusal

end Concord
