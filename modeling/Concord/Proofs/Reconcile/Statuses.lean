import Concord.Proofs.Reconcile.Exchanges
import Concord.Proofs.Reconcile.Sorting

/-! Which keys of a root are pending, and which changes of status a pass over the root reports.
Each key moves one way only in a pass, so what is reported last of a key tells whether it is
pending.
-/

namespace Concord

variable {root : String} {pending : KeySet} {key : Key} {limits : TrackerLimits} {now : Instant}

namespace StatusTransition

variable {failed : List (ActionKind × Resource)} {keys : List Key} {attempted : TreeDiff}
  {triage : Triage} {t : StatusTransition}

theorem mem_ofFailed_fst
    : key ∈ (ofFailed root pending failed).1
      ↔ key ∈ pending ∧ ∀ entry ∈ failed, entry.2.key ≠ key := by
  rw [ofFailed]
  dsimp only
  induction failed generalizing pending with
  | nil => simp
  | cons entry rest ih =>
      rw [List.foldl_cons, ih, Std.ExtTreeSet.mem_erase, List.forall_mem_cons, ne_eq,
        Std.LawfulEqCmp.compare_eq_iff_eq]
      tauto

theorem mem_ofFailed_snd
    : t ∈ (ofFailed root pending failed).2
      ↔ ∃ entry ∈ failed, t = ⟨root, entry.2.key, .failed entry.1 giveUpReason⟩ := by
  simp only [ofFailed, List.mem_map, eq_comm]

theorem mem_ofAttempted_fst
    : key ∈ (ofAttempted root pending keys).1 ↔ key ∈ pending ∨ key ∈ keys := by
  induction keys generalizing pending with
  | nil => simp [ofAttempted]
  | cons first rest ih =>
      rw [ofAttempted]
      split
      · rename_i before
        rw [ih, List.mem_cons]
        constructor
        · tauto
        · rintro (here | rfl | later)
          · exact .inl here
          · exact .inl (Std.ExtTreeSet.mem_iff_contains.mpr before)
          · exact .inr later
      · dsimp only
        rw [ih, Std.ExtTreeSet.mem_insert, Std.LawfulEqOrd.compare_eq_iff_eq, List.mem_cons]
        tauto

theorem mem_ofAttempted_snd
    : t ∈ (ofAttempted root pending keys).2
      ↔ ∃ k ∈ keys, k ∉ pending ∧ t = ⟨root, k, .pending⟩ := by
  induction keys generalizing pending with
  | nil => simp [ofAttempted]
  | cons first rest ih =>
      rw [ofAttempted]
      split
      · rename_i before
        rw [ih, List.exists_mem_cons_iff]
        have this : first ∈ pending := Std.ExtTreeSet.mem_iff_contains.mpr before
        tauto
      · rename_i new
        have this : first ∉ pending := fun member =>
          new (Std.ExtTreeSet.mem_iff_contains.mp member)
        dsimp only
        rw [List.mem_cons, ih, List.exists_mem_cons_iff]
        constructor
        · rintro (rfl | ⟨k, later, fresh, rfl⟩)
          · exact .inl ⟨this, rfl⟩
          · exact .inr ⟨k, later, fun member =>
              fresh (Std.ExtTreeSet.mem_insert.mpr (.inr member)), rfl⟩
        · rintro (⟨-, rfl⟩ | ⟨k, later, fresh, rfl⟩)
          · exact .inl rfl
          · by_cases same : first = k
            · exact .inl (by rw [same])
            · refine .inr ⟨k, later, fun member => ?_, rfl⟩
              rcases Std.ExtTreeSet.mem_insert.mp member with same' | before
              · exact same (Std.LawfulEqOrd.eq_of_compare same')
              · exact fresh before

/-- The keys that differ, as far as a pass knows of them when it reports. -/
def Differs (attempted : TreeDiff) (triage : Triage) (key : Key) : Prop :=
  key ∈ attempted.add ++ attempted.remove ++ triage.skipped

theorem mem_filter_differs
    : key ∈ pending.filter (fun key =>
          (attempted.add ++ attempted.remove ++ triage.skipped).contains key)
      ↔ key ∈ pending ∧ Differs attempted triage key := by
  rw [Differs, Std.ExtTreeSet.mem_filter]
  simp

theorem mem_ofPass_fst
    : key ∈ (ofPass root pending attempted triage).1
      ↔ (key ∈ pending ∧ Differs attempted triage key ∧ ∀ entry ∈ triage.failed, entry.2.key ≠ key)
        ∨ key ∈ attempted.add ++ attempted.remove := by
  rw [ofPass]
  dsimp only
  rw [mem_ofAttempted_fst, mem_ofFailed_fst, mem_filter_differs, and_assoc]

theorem mem_ofPass_snd
    : t ∈ (ofPass root pending attempted triage).2
      ↔ (∃ k ∈ pending, ¬ Differs attempted triage k ∧ t = ⟨root, k, .synced⟩)
        ∨ (∃ entry ∈ triage.failed, t = ⟨root, entry.2.key, .failed entry.1 giveUpReason⟩)
        ∨ ∃ k ∈ attempted.add ++ attempted.remove,
            (k ∉ pending ∨ ∃ entry ∈ triage.failed, entry.2.key = k)
            ∧ t = ⟨root, k, .pending⟩ := by
  have synced (k : Key)
      : k ∈ pending.toList.filter
          (fun k => !(attempted.add ++ attempted.remove ++ triage.skipped).contains k)
        ↔ k ∈ pending ∧ ¬ Differs attempted triage k := by
    rw [List.mem_filter, Std.ExtTreeSet.mem_toList, Bool.not_eq_true', ← Bool.not_eq_true,
      List.contains_iff_mem, Differs]
  have started (k : Key) (here : k ∈ attempted.add ++ attempted.remove)
      : k ∉ (ofFailed root (pending.filter fun key =>
            (attempted.add ++ attempted.remove ++ triage.skipped).contains key) triage.failed).1
        ↔ k ∉ pending ∨ ∃ entry ∈ triage.failed, entry.2.key = k := by
    have differs : Differs attempted triage k := List.mem_append_left _ here
    rw [mem_ofFailed_fst, mem_filter_differs, not_and_or, not_and_or, not_forall]
    constructor
    · rintro ((fresh | same) | ⟨entry, given⟩)
      · exact .inl fresh
      · exact absurd differs same
      · rw [Classical.not_imp, not_not] at given
        exact .inr ⟨entry, given⟩
    · rintro (fresh | ⟨entry, listed, this⟩)
      · exact .inl (.inl fresh)
      · exact .inr ⟨entry, fun other => other listed this⟩
  rw [ofPass]
  dsimp only
  rw [List.append_assoc, List.mem_append, List.mem_append, mem_ofFailed_snd, mem_ofAttempted_snd,
    List.mem_map]
  refine or_congr ?_ (or_congr Iff.rfl (exists_congr fun k => and_congr_right fun here => ?_))
  · refine exists_congr fun k => ?_
    rw [synced, and_assoc, eq_comm]
  · rw [started k here]

end StatusTransition

-----------------------------------------------------------------------------------------
-- What a pass found
-----------------------------------------------------------------------------------------

/-- What was given up in a pass is skipped in it. -/
theorem Triage.skipped_of_failed {records : Records} {creates deletes : List Resource}
    {entry : ActionKind × Resource}
    (h : entry ∈ (sort limits now records creates deletes).1.failed)
    : entry.2.key ∈ (sort limits now records creates deletes).1.skipped := by
  rw [(sort_eq limits now records creates deletes).1] at h ⊢
  simp only [extend, List.nil_append] at h ⊢
  obtain ⟨listed, failed⟩ := List.mem_filter.mp h
  refine List.mem_map_of_mem (List.mem_filter.mpr ⟨listed, ?_⟩)
  rw [of_decide_eq_true failed]
  rfl

namespace RootPass

variable {ledger left : Ledger} {log : List Exchange} {result : Except ReconcileError RootOutcome}

/-- The difference that a pass came to see. -/
def difference? : List Exchange → Option TreeDiff
  | ⟨.tree .desired _, .answered desired⟩ :: ⟨.tree .observed _, .answered observed⟩ :: _ =>
      some (desired.diff observed)
  | _ => none

/-- What a pass found, if it came to sort it. Without a difference there is nothing to fetch. -/
def findings? : List Exchange → Option Findings
  | ⟨.tree .desired _, .answered desired⟩ :: ⟨.tree .observed _, .answered observed⟩
      :: ⟨.resources _, .answered creates⟩ :: ⟨.resourcesForDelete _, .answered deletes⟩ :: _ =>
      some ⟨desired, observed, creates, deletes⟩
  | ⟨.tree .desired _, .answered desired⟩ :: ⟨.tree .observed _, .answered observed⟩ :: _ =>
      if (desired.diff observed).isEmpty then some ⟨desired, observed, [], []⟩ else none
  | _ => none

namespace Findings

variable {f : Findings} {key : Key} {t : StatusTransition}

/-- The difference that the pass attempts, which is none if it resets the root. -/
def attempted (f : Findings) (limits : TrackerLimits) (now : Instant) (ledger : Ledger)
    : TreeDiff :=
  let triage := (f.sorted limits now ledger).1
  if triage.reset then {} else triage.attempted f.delta

theorem contains_iff {delta : TreeDiff}
    : delta.contains key = true ↔ key ∈ delta.add ++ delta.remove := by
  rw [TreeDiff.contains, Bool.or_eq_true, List.contains_iff_mem, List.contains_iff_mem,
    List.mem_append]

/-- What is attempted is neither given up nor skipped otherwise. -/
theorem mem_attempted {triage : Triage} {delta : TreeDiff}
    : key ∈ (triage.attempted delta).add ++ (triage.attempted delta).remove
      ↔ key ∈ delta.add ++ delta.remove ∧ key ∉ triage.skipped := by
  simp only [Triage.attempted, List.mem_append, List.mem_filter, Bool.not_eq_true',
    ← Bool.not_eq_true, List.contains_iff_mem]
  tauto

theorem status_of_reset (due : (f.sorted limits now ledger).1.reset = true)
    : f.status limits root now ledger
        = StatusTransition.ofFailed root ledger.pending (f.sorted limits now ledger).1.failed :=
  if_pos due

theorem status_of_push (due : (f.sorted limits now ledger).1.reset = false)
    : f.status limits root now ledger
        = StatusTransition.ofPass root ledger.pending
            ((f.sorted limits now ledger).1.attempted f.delta) (f.sorted limits now ledger).1 :=
  if_neg (by simp [due])

theorem attempted_of_push (due : (f.sorted limits now ledger).1.reset = false)
    : f.attempted limits now ledger = (f.sorted limits now ledger).1.attempted f.delta :=
  if_neg (by simp [due])

/-- Each key moves one way: it becomes pending as it is attempted for the first time, synced as it
leaves the difference, and failed as it is given up.
-/
theorem status_moves (h : t ∈ (f.status limits root now ledger).2)
    : t.root = root
      ∧ (t.status = .pending ∧ t.key ∉ ledger.pending
          ∧ (f.attempted limits now ledger).contains t.key = true
          ∧ t.key ∈ (f.status limits root now ledger).1
        ∨ t.status = .synced ∧ t.key ∈ ledger.pending ∧ f.delta.contains t.key = false
          ∧ t.key ∉ (f.status limits root now ledger).1
        ∨ (∃ entry ∈ (f.sorted limits now ledger).1.failed, entry.2.key = t.key
            ∧ t.status = .failed entry.1 StatusTransition.giveUpReason)
          ∧ t.key ∉ (f.status limits root now ledger).1) := by
  cases due : (f.sorted limits now ledger).1.reset with
  | true =>
      rw [status_of_reset due, StatusTransition.mem_ofFailed_snd] at h
      obtain ⟨entry, listed, rfl⟩ := h
      refine ⟨rfl, .inr (.inr ⟨⟨entry, listed, rfl, rfl⟩, ?_⟩)⟩
      rw [status_of_reset due, StatusTransition.mem_ofFailed_fst]
      exact fun left => left.2 entry listed rfl
  | false =>
      rw [status_of_push due, StatusTransition.mem_ofPass_snd] at h
      rw [status_of_push due, attempted_of_push due, StatusTransition.mem_ofPass_fst]
      rcases h with ⟨k, pending, apart, rfl⟩ | ⟨entry, listed, rfl⟩ | ⟨k, tried, fresh, rfl⟩
      · refine ⟨rfl, .inr (.inl ⟨rfl, pending, ?_, ?_⟩)⟩
        · rw [← Bool.not_eq_true, contains_iff]
          intro differs
          by_cases skipped : k ∈ (f.sorted limits now ledger).1.skipped
          · exact apart (List.mem_append_right _ skipped)
          · exact apart (List.mem_append_left _ (mem_attempted.mpr ⟨differs, skipped⟩))
        · rintro (⟨-, differs, -⟩ | tried)
          · exact apart differs
          · exact apart (List.mem_append_left _ tried)
      · refine ⟨rfl, .inr (.inr ⟨⟨entry, listed, rfl, rfl⟩, ?_⟩)⟩
        rintro (⟨-, -, spared⟩ | tried)
        · exact spared entry listed rfl
        · exact (mem_attempted.mp tried).2 (Triage.skipped_of_failed listed)
      · refine ⟨rfl, .inl ⟨rfl, ?_, contains_iff.mpr tried, .inr tried⟩⟩
        rcases fresh with fresh | ⟨entry, listed, rfl⟩
        · exact fresh
        · exact absurd (Triage.skipped_of_failed listed) (mem_attempted.mp tried).2

/-- A key without a change of status is pending after the pass if it was before. -/
theorem status_stays (h : ∀ t ∈ (f.status limits root now ledger).2, t.key ≠ key)
    : key ∈ (f.status limits root now ledger).1 ↔ key ∈ ledger.pending := by
  cases due : (f.sorted limits now ledger).1.reset with
  | true =>
      rw [status_of_reset due] at h ⊢
      rw [StatusTransition.mem_ofFailed_fst]
      refine and_iff_left fun entry listed => ?_
      exact h _ (StatusTransition.mem_ofFailed_snd.mpr ⟨entry, listed, rfl⟩)
  | false =>
      rw [status_of_push due] at h ⊢
      rw [StatusTransition.mem_ofPass_fst]
      constructor
      · rintro (⟨pending, -, -⟩ | tried)
        · exact pending
        · by_contra fresh
          exact h _ (StatusTransition.mem_ofPass_snd.mpr
            (.inr (.inr ⟨key, tried, .inl fresh, rfl⟩))) rfl
      · intro pending
        refine .inl ⟨pending, ?_, fun entry listed => ?_⟩
        · by_contra apart
          exact h _ (StatusTransition.mem_ofPass_snd.mpr (.inl ⟨key, pending, apart, rfl⟩)) rfl
        · exact h _ (StatusTransition.mem_ofPass_snd.mpr (.inr (.inl ⟨entry, listed, rfl⟩)))

end Findings

/-- The changes of status that a pass over a root reports or tries to. -/
def transitions (log : List Exchange) : List StatusTransition :=
  log.flatMap Exchange.transitions

theorem transitions_append (log log' : List Exchange)
    : transitions (log ++ log') = transitions log ++ transitions log' :=
  List.flatMap_append

theorem transitions_of_reads (h : ∀ x ∈ log, x.question.Reads root) : transitions log = [] :=
  List.flatMap_eq_nil_iff.mpr fun x hx => Exchange.transitions_of_reads (h x hx)

theorem transitions_reports {told : List StatusTransition} {failure : Option ReconcileError}
    (h : Reports root told log failure)
    : transitions log = told := by
  cases h with
  | silent quiet => exact quiet.symm
  | told _ reply => exact List.append_nil _

theorem transitions_resets {failure : Option ReconcileError} (h : Resets root log failure)
    : transitions log = [] := by
  cases h <;> rfl

theorem transitions_pushes {batch : ResourceBatch} {failure : Option ReconcileError}
    (h : Pushes root batch log failure)
    : transitions log = [] := by
  cases h <;> rfl

theorem eq_empty_of_isEmpty {delta : TreeDiff} (h : delta.isEmpty = true) : delta = {} := by
  obtain ⟨add, remove⟩ := delta
  rw [TreeDiff.isEmpty, Bool.and_eq_true, List.isEmpty_iff, List.isEmpty_iff] at h
  obtain ⟨rfl, rfl⟩ := h
  rfl

/-- A pass that reads only leaves everything as it is. Any other reports what follows from what it
found, and tells of the difference and of what it attempted if it comes to an outcome.
-/
theorem Course.told (h : Course limits root now ledger log result left)
    : (left = ledger ∧ transitions log = [] ∧ ∀ outcome, result ≠ .ok outcome)
      ∨ ∃ f, findings? log = some f ∧ difference? log = some f.delta
          ∧ transitions log = (f.status limits root now ledger).2
          ∧ left.pending = (f.status limits root now ledger).1
          ∧ ∀ outcome, result = .ok outcome →
              outcome.delta = f.delta ∧ outcome.attempted = f.attempted limits now ledger := by
  have ok {failure : Option ReconcileError} {told outcome : RootOutcome}
      (same : ended failure told = .ok outcome)
      : outcome = told := by
    cases failure with
    | none =>
        cases same
        rfl
    | some e => cases same
  cases h with
  | unread reads => exact .inl ⟨rfl, transitions_of_reads reads, fun _ he => by cases he⟩
  | @converged desired observed reported failure same reports =>
      let f : Findings := ⟨desired, observed, [], []⟩
      have delta : f.delta = {} := eq_empty_of_isEmpty same
      have attempted : f.attempted limits now ledger = {} := by
        rw [Findings.attempted_of_push rfl, delta]
        rfl
      have status : f.status limits root now ledger
          = StatusTransition.ofPass root ledger.pending {} {} := by
        rw [Findings.status_of_push rfl, delta]
        rfl
      refine .inr ⟨f, ?_, rfl, ?_, ?_, fun outcome he => ?_⟩
      · cases reports <;> exact if_pos same
      · rw [transitions_append, transitions_reports reports, status]
        rfl
      · rw [status]
      · rw [ok he, delta, attempted]
        exact ⟨rfl, rfl⟩
  | unreported f differ reports =>
      refine .inr ⟨f, rfl, rfl, ?_, rfl, fun _ he => by cases he⟩
      rw [transitions_append, transitions_reports reports]
      rfl
  | reset f differ due reports resets =>
      refine .inr ⟨f, rfl, rfl, ?_, rfl, fun outcome he => ?_⟩
      · rw [transitions_append, transitions_append, transitions_reports reports,
          transitions_resets resets, List.append_nil]
        rfl
      · rw [ok he]
        exact ⟨rfl, (if_pos due).symm⟩
  | pushed f differ due reports pushes =>
      refine .inr ⟨f, rfl, rfl, ?_, rfl, fun outcome he => ?_⟩
      · rw [transitions_append, transitions_append, transitions_reports reports,
          transitions_pushes pushes, List.append_nil]
        rfl
      · rw [ok he]
        exact ⟨rfl, (Findings.attempted_of_push due).symm⟩

/-- All that is reported in the work on a root is about that root. -/
theorem Course.root_of_transitions (h : Course limits root now ledger log result left)
    {t : StatusTransition} (told : t ∈ transitions log)
    : t.root = root := by
  rcases h.told with ⟨-, quiet, -⟩ | ⟨f, -, -, same, -, -⟩
  · rw [quiet] at told
    cases told
  · rw [same] at told
    exact (Findings.status_moves told).1

theorem Reports.about {told : List StatusTransition} {failure : Option ReconcileError}
    (h : Reports root told log failure) (named : ∀ t ∈ told, t.root = root)
    : ∀ x ∈ log, x.question.About root := by
  cases h with
  | silent _ => exact fun _ hx => by cases hx
  | told _ reply => exact List.forall_mem_singleton.mpr named

theorem Resets.about {failure : Option ReconcileError} (h : Resets root log failure)
    : ∀ x ∈ log, x.question.About root := by
  cases h <;> simp [Question.About]

theorem Pushes.about {batch : ResourceBatch} {failure : Option ReconcileError}
    (h : Pushes root batch log failure)
    : ∀ x ∈ log, x.question.About root := by
  cases h <;> simp [Question.About]

theorem Findings.asked_about (f : Findings) : ∀ x ∈ f.asked root, x.question.About root := by
  simp [Findings.asked, Question.About]

/-- All that is asked in the work on a root is about that root. -/
theorem Course.about (h : Course limits root now ledger log result left)
    : ∀ x ∈ log, x.question.About root := by
  have named {f : Findings} (t : StatusTransition) (ht : t ∈ (f.status limits root now ledger).2) :=
    (Findings.status_moves ht).1
  cases h with
  | unread reads => exact fun x hx => (reads x hx).about
  | converged same reports =>
      refine List.forall_mem_append.mpr ⟨by simp [Question.About], reports.about fun t ht => ?_⟩
      have quiet : Findings.status ⟨∅, ∅, [], []⟩ limits root now ledger
          = StatusTransition.ofPass root ledger.pending {} {} :=
        rfl
      exact named t (quiet ▸ ht)
  | unreported f differ reports =>
      exact List.forall_mem_append.mpr ⟨f.asked_about, reports.about named⟩
  | reset f differ due reports resets =>
      exact List.forall_mem_append.mpr
        ⟨List.forall_mem_append.mpr ⟨f.asked_about, reports.about named⟩, resets.about⟩
  | pushed f differ due reports pushes =>
      exact List.forall_mem_append.mpr
        ⟨List.forall_mem_append.mpr ⟨f.asked_about, reports.about named⟩, pushes.about⟩

end RootPass

end Concord
