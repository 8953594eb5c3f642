import Concord.Proofs.Reconcile.Histories
import Concord.Proofs.Reconcile.Independence
import Mathlib.Data.List.Induction

/-! The protocol of status changes. Over all passes of a root, a key is pending as long as the
latest change that was reported of it says so, it becomes pending when it is attempted, and it
stays pending until it leaves the difference or is given up.
-/

namespace Concord

variable {ω : Type} {s : Surroundings ω} {config : ReconcilerConfig} {root : String}
  {limits : TrackerLimits} {now : Instant} {w : ω} {r : Reconciler} {visits : List Visit}
  {key : Key}

-----------------------------------------------------------------------------------------
-- The latest status of a key
-----------------------------------------------------------------------------------------

namespace StatusLog

variable {told : List StatusTransition}

theorem record_append (log : StatusLog) (told later : List StatusTransition)
    : log.record (told ++ later) = (log.record told).record later := by
  simp only [record, List.foldl_append, List.append_assoc]

/-- The last change decides, by induction on the changes. -/
theorem latest_record_snoc (log : StatusLog) (told : List StatusTransition) (t : StatusTransition)
    (key : Key)
    : (log.record (told ++ [t])).latest[key]?
      = if t.key = key then some t.status else (log.record told).latest[key]? := by
  simp only [record, List.foldl_append, List.foldl_cons, List.foldl_nil]
  simp only [Std.ExtTreeMap.getElem?_insert, Std.LawfulEqCmp.compare_eq_iff_eq]

/-- What is told of other keys does not matter. -/
theorem latest_record_of_forall_ne (log : StatusLog) (h : ∀ t ∈ told, t.key ≠ key)
    : (log.record told).latest[key]? = log.latest[key]? := by
  induction told using List.reverseRecOn with
  | nil => rfl
  | append_singleton rest t ih =>
      obtain ⟨before, this⟩ := List.forall_mem_append.mp h
      rw [latest_record_snoc, if_neg (this t List.mem_cons_self), ih before]

/-- A key that is told of has the status of a change that was told. -/
theorem exists_latest_record (log : StatusLog) {t : StatusTransition} (h : t ∈ told)
    : ∃ last ∈ told, last.key = t.key
        ∧ (log.record told).latest[t.key]? = some last.status := by
  induction told using List.reverseRecOn with
  | nil => cases h
  | append_singleton rest last ih =>
      rw [latest_record_snoc]
      split
      · rename_i same
        exact ⟨last, List.mem_append_right _ List.mem_cons_self, same, rfl⟩
      · rename_i differs
        rcases List.mem_append.mp h with before | this
        · obtain ⟨t', hm, same, found⟩ := ih before
          exact ⟨t', List.mem_append_left _ hm, same, found⟩
        · exact absurd (congrArg StatusTransition.key (List.mem_singleton.mp this)).symm differs

end StatusLog

-----------------------------------------------------------------------------------------
-- One visit
-----------------------------------------------------------------------------------------

/-- How the pending keys change in a visit, and what is reported of it. -/
structure Visit.Orderly (v : Visit) (limits : TrackerLimits) (root : String) : Prop where
  /-- A key that is told of moves one way. -/
  moves : ∀ t ∈ v.reported, t.root = root
    ∧ (t.status = .pending ∧ t.key ∉ v.before.pending
        ∧ (v.attempted limits).contains t.key = true ∧ t.key ∈ v.after.pending
      ∨ t.status = .synced ∧ t.key ∈ v.before.pending
        ∧ (∃ delta, v.difference? = some delta ∧ delta.contains t.key = false)
        ∧ t.key ∉ v.after.pending
      ∨ (∃ action, t.status = .failed action StatusTransition.giveUpReason
          ∧ v.GivesUp limits action t.key)
        ∧ t.key ∉ v.after.pending)
  /-- A key that is not told of is pending if it was. -/
  stays : ∀ key, (∀ t ∈ v.reported, t.key ≠ key) →
    (key ∈ v.after.pending ↔ key ∈ v.before.pending)

/-- What a course reports is in order if all of it is taken in. -/
theorem Visit.orderly {v : Visit} {result : Except ReconcileError RootOutcome}
    (course : RootPass.Course limits root v.now v.before v.exchanges result v.after)
    (taken : v.reported = RootPass.transitions v.exchanges)
    : v.Orderly limits root
      ∧ ∀ outcome, result = .ok outcome →
          v.difference? = some outcome.delta ∧ v.attempted limits = outcome.attempted := by
  rcases course.told with ⟨same, quiet, failed⟩ | ⟨f, findings, difference, told, pending, ended⟩
  · rw [quiet] at taken
    refine ⟨⟨fun t ht => ?_, fun key _ => by rw [same]⟩, fun outcome he => absurd he (failed _)⟩
    rw [taken] at ht
    cases ht
  · have attempted : v.attempted limits = f.attempted limits v.now v.before := by
      rw [Visit.attempted, Visit.findings?, findings]
    rw [told] at taken
    refine ⟨⟨fun t ht => ?_, fun key quiet => ?_⟩, fun outcome he => ?_⟩
    · rw [taken] at ht
      rw [attempted, pending]
      obtain ⟨named, became | left | gaveUp⟩ := RootPass.Findings.status_moves ht
      · exact ⟨named, .inl became⟩
      · obtain ⟨synced, before, apart, gone⟩ := left
        exact ⟨named, .inr (.inl ⟨synced, before, ⟨_, difference, apart⟩, gone⟩)⟩
      · obtain ⟨⟨entry, listed, same, status⟩, gone⟩ := gaveUp
        exact ⟨named, .inr (.inr
          ⟨⟨entry.1, status, f, findings, entry, listed, rfl, same⟩, gone⟩)⟩
    · rw [taken] at quiet
      rw [pending]
      exact RootPass.Findings.status_stays quiet
    · obtain ⟨delta, same⟩ := ended outcome he
      rw [attempted, delta, same]
      exact ⟨difference, rfl⟩

theorem Visit.latest_snoc (visits : List Visit) (v : Visit)
    : Visit.latest (visits ++ [v])
      = ((StatusLog.record {} (visits.flatMap Visit.reported)).record v.reported).latest := by
  rw [Visit.latest, List.flatMap_append, StatusLog.record_append, List.flatMap_cons,
    List.flatMap_nil, List.append_nil]

/-- A key is pending after a visit as the latest change says, if it was before. -/
theorem Visit.Orderly.latest {v : Visit} (h : v.Orderly limits root)
    (before : key ∈ v.before.pending ↔ (Visit.latest visits)[key]? = some .pending)
    : key ∈ v.after.pending ↔ (Visit.latest (visits ++ [v]))[key]? = some .pending := by
  rw [latest_snoc]
  by_cases quiet : ∀ t ∈ v.reported, t.key ≠ key
  · rw [h.stays key quiet, before, StatusLog.latest_record_of_forall_ne _ quiet, Visit.latest]
  · push Not at quiet
    obtain ⟨t, ht, rfl⟩ := quiet
    obtain ⟨last, hm, same, found⟩ := StatusLog.exists_latest_record
      (StatusLog.record {} (visits.flatMap Visit.reported)) ht
    rw [found, ← same]
    obtain ⟨-, became | left | gaveUp⟩ := h.moves last hm
    · simp [became.1, became.2.2.2]
    · simp [left.1, left.2.2.2]
    · obtain ⟨⟨action, status, -⟩, gone⟩ := gaveUp
      simp [status, gone]

-----------------------------------------------------------------------------------------
-- All visits
-----------------------------------------------------------------------------------------

/-- A reporter that accepts every call takes in all changes that a visit reports. -/
theorem Underway.reported_eq {strides : List Stride} {u : Underway ω}
    (run : run s now strides (begin s r w) = some u)
    (accepts : ∀ transitions w, (s.ask (.report transitions) w).1 = .answered ())
    : (u.visit r now root).reported = RootPass.transitions (u.asked root) := by
  refine List.flatMap_congr fun x hx => ?_
  obtain ⟨v, given⟩ := run_truthful run x hx
  exact Exchange.reported_eq accepts given

/-- A visit is in order where the reporter takes all changes in. -/
theorem Underway.orderly {strides : List Stride} {u : Underway ω} (configured : r.Configured)
    (distinct : (Reconciler.sharedRoots s w).Nodup) (shared : root ∈ Reconciler.sharedRoots s w)
    (run : run s now strides (begin s r w) = some u) (closed : u.Over)
    (accepts : ∀ transitions w, (s.ask (.report transitions) w).1 = .answered ())
    : (u.visit r now root).Orderly r.config.trackerLimits root
      ∧ ∀ outcome, u.results.lookup root = some (.ok outcome) →
          (u.visit r now root).difference? = some outcome.delta
          ∧ (u.visit r now root).attempted r.config.trackerLimits = outcome.attempted := by
  obtain ⟨result, done, course⟩ := course configured distinct shared run closed
  obtain ⟨orderly, told⟩ :=
    Visit.orderly (v := u.visit r now root) course (reported_eq run accepts)
  refine ⟨orderly, fun outcome he => told outcome ?_⟩
  exact Option.some.inj (done.symm.trans he)

/-- A key is pending exactly if the latest change that was reported says so, by induction on what
happened.
-/
theorem History.pending_iff (h : History s config root r visits)
    (accepts : ∀ transitions w, (s.ask (.report transitions) w).1 = .answered ())
    : key ∈ (r.ledger root).pending ↔ (Visit.latest visits)[key]? = some .pending := by
  induction h with
  | new => simp [Reconciler.ledger, Reconciler.new, Visit.latest, StatusLog.record]
  | cleared before other action now ih => exact ih
  | served before kept ih =>
      rw [Reconciler.ledger_retainRoots, if_pos kept]
      exact ih
  | @passed r visits now w strides u before distinct shared run closed ih =>
      obtain ⟨orderly, -⟩ :=
        Underway.orderly before.config_eq.2 distinct shared run closed accepts
      exact orderly.latest ih

/-- The protocol. After a pass a key is pending exactly if the latest change of its status says so.
A key is reported as pending only if it was not and is attempted now, as synced only if it was
pending and is in the difference no more, and as failed when it was given up, and then it is not
pending. A key that was pending stays so without a word unless it is out of the difference or given
up. The difference and what is attempted of it are those of the outcome, if there is one.
-/
theorem status_protocol {strides : List Stride} {u : Underway ω}
    (history : History s config root r visits)
    (accepts : ∀ transitions w, (s.ask (.report transitions) w).1 = .answered ())
    (distinct : (Reconciler.sharedRoots s w).Nodup) (shared : root ∈ Reconciler.sharedRoots s w)
    (run : Underway.run s now strides (.begin s r w) = some u) (closed : u.Over)
    : let v := u.visit r now root
      let limits := config.trackerLimits
      (∀ key, key ∈ v.after.pending ↔ (Visit.latest (visits ++ [v]))[key]? = some .pending)
      ∧ (∀ t ∈ v.reported, t.root = root
          ∧ (t.status = .pending → t.key ∉ v.before.pending
              ∧ (v.attempted limits).contains t.key = true)
          ∧ (t.status = .synced → t.key ∈ v.before.pending
              ∧ ∃ delta, v.difference? = some delta ∧ delta.contains t.key = false)
          ∧ ∀ action reason, t.status = .failed action reason →
              v.GivesUp limits action t.key ∧ t.key ∉ v.after.pending)
      ∧ (∀ key ∈ v.before.pending, (∀ delta, v.difference? = some delta → delta.contains key = true) →
          (∀ action, ¬ v.GivesUp limits action key) →
            key ∈ v.after.pending ∧ ∀ t ∈ v.reported, t.key ≠ key)
      ∧ ∀ outcome, u.results.lookup root = some (.ok outcome) →
          v.difference? = some outcome.delta ∧ v.attempted limits = outcome.attempted := by
  obtain ⟨rfl, configured⟩ := history.config_eq
  obtain ⟨orderly, told⟩ := Underway.orderly configured distinct shared run closed accepts
  refine ⟨fun key => ?_, fun t ht => ?_, fun key pending differs spared => ?_, told⟩
  · exact orderly.latest (history.pending_iff accepts)
  · obtain ⟨named, became | left | gaveUp⟩ := orderly.moves t ht
    · obtain ⟨status, fresh, tried, -⟩ := became
      simp [named, status, fresh, tried]
    · obtain ⟨status, before, apart, -⟩ := left
      simp [named, status, before, apart]
    · obtain ⟨⟨action, status, exhausted⟩, gone⟩ := gaveUp
      simp [named, status, exhausted, gone]
  · have quiet (t : StatusTransition) (ht : t ∈ (u.visit r now root).reported) : t.key ≠ key := by
      rintro rfl
      obtain ⟨-, became | left | gaveUp⟩ := orderly.moves t ht
      · exact became.2.1 pending
      · obtain ⟨-, -, ⟨delta, found, apart⟩, -⟩ := left
        exact Bool.false_ne_true (apart.symm.trans (differs delta found))
      · obtain ⟨⟨action, -, exhausted⟩, -⟩ := gaveUp
        exact spared action exhausted
    exact ⟨(orderly.stays key quiet).mpr pending, quiet⟩

-----------------------------------------------------------------------------------------
-- Two passes, one right after the other
-----------------------------------------------------------------------------------------

namespace Underway

/-- Another pass over the three roots, at the same time. It is too early to try `calm` again. -/
def recounted : Underway (String → Nat) :=
  (run counting ⟨0⟩
    ([.start, .start, .start] ++ List.replicate 7 (.work "calm") ++ List.replicate 2 (.work "down")
      ++ [.work "broken"])
    (begin counting counted.reconciler counted.world)).get (by decide +kernel)

theorem over_recounted : recounted.Over :=
  ⟨by decide +kernel, List.isEmpty_iff.mp (by decide +kernel)⟩

theorem status_protocol_recounted
    : let first := counted.visit (.new {}) ⟨0⟩ "calm"
      let second := recounted.visit counted.reconciler ⟨0⟩ "calm"
      (Visit.latest [first, second])[(⟨["calm"]⟩ : Key)]? = some .pending
      ∧ second.reported = [] ∧ ⟨["calm"]⟩ ∈ second.after.pending := by
  have shared (w : String → Nat)
      : Reconciler.sharedRoots counting w = ["broken", "calm", "down"] := by
    rfl
  have distinct (w : String → Nat) : (Reconciler.sharedRoots counting w).Nodup := by
    rw [shared]
    decide
  have listed (w : String → Nat) : "calm" ∈ Reconciler.sharedRoots counting w := by
    rw [shared]
    decide
  have history : History counting {} "calm" counted.reconciler
      [counted.visit (.new {}) ⟨0⟩ "calm"] :=
    History.passed .new (distinct _) (listed _) (Option.some_get _).symm ⟨by rfl, by rfl⟩
  obtain ⟨pending, -, -, -⟩ := status_protocol history (fun _ _ => rfl) (distinct counted.world)
    (listed counted.world) (Option.some_get _).symm over_recounted
  have latest : (Visit.latest [counted.visit (.new {}) ⟨0⟩ "calm",
      recounted.visit counted.reconciler ⟨0⟩ "calm"])[(⟨["calm"]⟩ : Key)]?
        = some .pending := by
    decide +kernel
  exact ⟨latest, by decide +kernel, (pending ⟨["calm"]⟩).mpr latest⟩

end Underway

end Concord
