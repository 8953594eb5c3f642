import Concord.Proofs.Reconcile.Histories

/-! What becomes of changes of status that the reporter refuses. The pending keys are as if it had
taken them in, so they show the changes that were refused, and no later pass tells of them again
until something else was told of the same key.
-/

namespace Concord

variable {ω : Type} {s : Surroundings ω} {root : String} {limits : TrackerLimits}
  {now : Instant} {r : Reconciler} {u : Underway ω}

-----------------------------------------------------------------------------------------
-- What the pending keys show
-----------------------------------------------------------------------------------------

/-- The pending keys are as the change leaves them, which is only said of a key that became pending
or is synced.
-/
def StatusTransition.Shown (t : StatusTransition) (pending : KeySet) : Prop :=
  t.status = .pending ∧ t.key ∈ pending ∨ t.status = .synced ∧ t.key ∉ pending

namespace RootPass

variable {ledger left : Ledger} {log : List Exchange} {result : Except ReconcileError RootOutcome}
  {t : StatusTransition} {told : List StatusTransition}

namespace Findings

variable {f : Findings}

/-- What the pending keys show is not told again. -/
theorem not_told_of_shown (shown : t.Shown ledger.pending)
    : t ∉ (f.status limits root now ledger).2 := by
  intro told
  obtain ⟨-, ⟨status, fresh, -⟩ | ⟨status, before, -⟩ | ⟨⟨entry, -, -, status⟩, -⟩⟩ :=
    status_moves told
  · rcases shown with ⟨-, pending⟩ | ⟨synced, -⟩
    · exact fresh pending
    · cases status.symm.trans synced
  · rcases shown with ⟨pending, -⟩ | ⟨-, apart⟩
    · cases status.symm.trans pending
    · exact apart before
  · rcases shown with ⟨pending, -⟩ | ⟨synced, -⟩
    · cases status.symm.trans pending
    · cases status.symm.trans synced

/-- What is told of keys that became pending or are synced is shown by the pending keys after it. -/
theorem shown_of_told (told : t ∈ (f.status limits root now ledger).2)
    (moved : t.status = .pending ∨ t.status = .synced)
    : t.Shown (f.status limits root now ledger).1 := by
  obtain ⟨-, ⟨status, -, -, after⟩ | ⟨status, -, -, after⟩ | ⟨⟨entry, -, -, status⟩, -⟩⟩ :=
    status_moves told
  · exact .inl ⟨status, after⟩
  · exact .inr ⟨status, after⟩
  · rcases moved with pending | synced
    · cases status.symm.trans pending
    · cases status.symm.trans synced

/-- The keys that are pending after a pass are those that it tells are pending, and of those before the
ones that it tells nothing of.
-/
theorem mem_status_fst (f : Findings) (limits : TrackerLimits) (root : String) (now : Instant)
    (ledger : Ledger) (key : Key)
    : key ∈ (f.status limits root now ledger).1
      ↔ ⟨root, key, .pending⟩ ∈ (f.status limits root now ledger).2
        ∨ key ∈ ledger.pending ∧ ∀ t ∈ (f.status limits root now ledger).2, t.key ≠ key := by
  constructor
  · intro after
    by_cases untold : ∀ t ∈ (f.status limits root now ledger).2, t.key ≠ key
    · exact .inr ⟨(status_stays untold).mp after, untold⟩
    · push Not at untold
      obtain ⟨⟨_, key, _⟩, told, rfl⟩ := untold
      obtain ⟨rfl, ⟨rfl, -⟩ | ⟨-, -, -, gone⟩ | ⟨-, gone⟩⟩ := status_moves told
      · exact .inl told
      · exact absurd after gone
      · exact absurd after gone
  · rintro (told | ⟨before, untold⟩)
    · obtain ⟨-, ⟨-, -, -, after⟩ | ⟨synced, -⟩ | ⟨⟨entry, -, -, failed⟩, -⟩⟩ := status_moves told
      · exact after
      · cases synced
      · cases failed
    · exact (status_stays untold).mpr before

/-- A pass leaves the pending keys as they were exactly if it tells only of failures, and these of
keys that were not pending.
-/
theorem status_fst_eq_iff (f : Findings) (limits : TrackerLimits) (root : String) (now : Instant)
    (ledger : Ledger)
    : (f.status limits root now ledger).1 = ledger.pending
      ↔ ∀ t ∈ (f.status limits root now ledger).2,
          (∃ action reason, t.status = .failed action reason) ∧ t.key ∉ ledger.pending := by
  constructor
  · intro same t told
    obtain ⟨-, ⟨-, fresh, -, after⟩ | ⟨-, before, -, gone⟩ | ⟨⟨entry, -, -, failed⟩, gone⟩⟩ :=
      status_moves told
    · exact absurd (same ▸ after) fresh
    · exact absurd (same ▸ before) gone
    · exact ⟨⟨_, _, failed⟩, same ▸ gone⟩
  · intro failures
    refine Std.ExtTreeSet.ext_mem fun key => (f.mem_status_fst ..).trans ⟨?_, fun before => ?_⟩
    · rintro (told | ⟨before, -⟩)
      · obtain ⟨⟨_, _, failed⟩, -⟩ := failures _ told
        cases failed
      · exact before
    · refine .inr ⟨before, fun t told same => ?_⟩
      exact (failures t told).2 (same ▸ before)

end Findings

/-- A course does not tell what the pending keys show, and they go on to show it unless something
else is told of the key.
-/
theorem Course.shown (h : Course limits root now ledger log result left)
    (shown : t.Shown ledger.pending)
    : t ∉ transitions log
      ∧ ((∀ t' ∈ transitions log, t'.key ≠ t.key) → t.Shown left.pending) := by
  rcases h.told with ⟨same, quiet, -⟩ | ⟨f, -, -, told, pending, -⟩
  · rw [quiet, same]
    exact ⟨List.not_mem_nil, fun _ => shown⟩
  · rw [told, pending]
    refine ⟨Findings.not_told_of_shown shown, fun others => ?_⟩
    rw [StatusTransition.Shown, Findings.status_stays others]
    exact shown

theorem Reports.eq_of_mem {changes : List StatusTransition} {failure : Option ReconcileError}
    {reply : Reply Unit} (h : Reports root changes log failure)
    (asked : ⟨.report told, reply⟩ ∈ log)
    : told = changes := by
  cases h with
  | silent _ => cases asked
  | told _ _ =>
      cases List.mem_singleton.mp asked
      rfl

/-- A course reports all changes at once, and has noted them already. -/
theorem Course.exists_status {reply : Reply Unit}
    (h : Course limits root now ledger log result left) (asked : ⟨.report told, reply⟩ ∈ log)
    : ∃ f : Findings, f.status limits root now ledger = (left.pending, told) := by
  have unasked (f : Findings) : ⟨.report told, reply⟩ ∉ f.asked root := by
    simp [Findings.asked]
  cases h with
  | unread reads => exact (reads _ asked).elim
  | converged same reports =>
      rcases List.mem_append.mp asked with early | asked
      · simp at early
      · rw [reports.eq_of_mem asked]
        exact ⟨⟨∅, ∅, [], []⟩, rfl⟩
  | unreported f differ reports =>
      rw [reports.eq_of_mem ((List.mem_append.mp asked).resolve_left (unasked f))]
      exact ⟨f, rfl⟩
  | reset f differ due reports resets =>
      rcases List.mem_append.mp asked with asked | late
      · rw [reports.eq_of_mem ((List.mem_append.mp asked).resolve_left (unasked f))]
        exact ⟨f, rfl⟩
      · cases resets <;> simp at late
  | pushed f differ due reports pushes =>
      rcases List.mem_append.mp asked with asked | late
      · rw [reports.eq_of_mem ((List.mem_append.mp asked).resolve_left (unasked f))]
        exact ⟨f, rfl⟩
      · cases pushes <;> simp at late

end RootPass

-----------------------------------------------------------------------------------------
-- The passes that follow
-----------------------------------------------------------------------------------------

/-- A pass that a reconciler began is over, and the root was shared in it. It took its steps in some
order, and met the world in some state.
-/
structure Underway.Completes (s : Surroundings ω) (r : Reconciler) (now : Instant) (root : String)
    (u : Underway ω) : Prop where
  configured : r.Configured
  run : ∃ w strides, (Reconciler.sharedRoots s w).Nodup ∧ root ∈ Reconciler.sharedRoots s w
    ∧ Underway.run s now strides (.begin s r w) = some u
  closed : u.Over

/-- Passes one after the other, as a root saw them, from a reconciler on. Between two passes anything
may happen but to the pending keys of the root.
-/
inductive Onward (s : Surroundings ω) (root : String) : Reconciler → List Visit → Prop
  | here (r : Reconciler) : Onward s root r []
  | passed {r r' : Reconciler} {now : Instant} {u : Underway ω} {later : List Visit}
    (same : (r'.ledger root).pending = (r.ledger root).pending)
    (pass : u.Completes s r' now root) (rest : Onward s root u.reconciler later)
    : Onward s root r (u.visit r' now root :: later)

variable {t : StatusTransition} {told : List StatusTransition} {later : List Visit}

theorem Underway.Completes.course (h : u.Completes s r now root)
    : ∃ result, u.results.lookup root = some result
        ∧ (r.program now root).Plays root (u.asked root) result (u.reconciler.ledger root)
        ∧ RootPass.Course r.config.trackerLimits root now (r.ledger root) (u.asked root) result
            (u.reconciler.ledger root) := by
  obtain ⟨w, strides, distinct, shared, run⟩ := h.run
  obtain ⟨-, -, -, played, -⟩ := Underway.run_over h.configured distinct run h.closed
  obtain ⟨result, done, plays⟩ := played root shared
  exact ⟨result, done, plays, RootPass.course plays⟩

theorem Underway.Completes.configured_after (h : u.Completes s r now root)
    : u.reconciler.Configured := by
  obtain ⟨w, strides, distinct, -, run⟩ := h.run
  exact (Underway.run_over h.configured distinct run h.closed).2.1

/-- What the pending keys show is told again only after something else was told of its key, by
induction on the passes.
-/
theorem Onward.told_after (h : Onward s root r later) (shown : t.Shown (r.ledger root).pending)
    {before after : List Visit} {v : Visit} (split : later = before ++ v :: after)
    (again : t ∈ RootPass.transitions v.exchanges)
    : ∃ v' ∈ before, ∃ t' ∈ RootPass.transitions v'.exchanges, t'.key = t.key ∧ t' ≠ t := by
  induction h generalizing before with
  | here => simp at split
  | @passed r r' now u later same pass rest ih =>
      obtain ⟨result, -, -, course⟩ := pass.course
      rw [← same] at shown
      obtain ⟨untold, stays⟩ := course.shown shown
      cases before with
      | nil =>
          obtain ⟨rfl, -⟩ := List.cons.inj split
          exact absurd again untold
      | cons first middle =>
          obtain ⟨rfl, tail⟩ := List.cons.inj split
          by_cases quiet : ∀ t' ∈ RootPass.transitions (u.asked root), t'.key ≠ t.key
          · obtain ⟨v', hv, found⟩ := ih (stays quiet) tail
            exact ⟨v', List.mem_cons_of_mem _ hv, found⟩
          · push Not at quiet
            obtain ⟨t', told, same⟩ := quiet
            refine ⟨_, List.mem_cons_self, t', told, same, fun it => ?_⟩
            exact untold (it ▸ told)

-----------------------------------------------------------------------------------------
-- Reports that are refused
-----------------------------------------------------------------------------------------

/-- What becomes of a report that is refused, whatever the records and the pending keys were. The work
on the root ends with the error, and its pending keys are as if the changes had been taken in. They
are as before exactly if all changes that were refused are failures of keys that were not pending.
However the passes go on, a key that was refused as pending or synced is told so again only after
something else was told of it, and so not in the next pass.
-/
theorem refused_report_forgotten {reply : Reply Unit} {e : ReconcileError}
    (pass : u.Completes s r now root) (refused : ⟨.report told, reply⟩ ∈ u.asked root)
    (error : reply.error? root = some e)
    : let before := (r.ledger root).pending
      let after := (u.reconciler.ledger root).pending
      u.results.lookup root = some (.error e)
      ∧ (∀ key, key ∈ after
          ↔ ⟨root, key, .pending⟩ ∈ told ∨ key ∈ before ∧ ∀ t ∈ told, t.key ≠ key)
      ∧ (after = before
          ↔ ∀ t ∈ told, (∃ action reason, t.status = .failed action reason) ∧ t.key ∉ before)
      ∧ ∀ kept v rest, Onward s root u.reconciler (kept ++ v :: rest) →
          ∀ t ∈ told, t.status = .pending ∨ t.status = .synced →
            t ∈ RootPass.transitions v.exchanges →
              ∃ v' ∈ kept, ∃ t' ∈ RootPass.transitions v'.exchanges,
                t'.key = t.key ∧ t' ≠ t := by
  obtain ⟨result, done, plays, course⟩ := pass.course
  obtain ⟨f, status⟩ := course.exists_status refused
  have mem := f.mem_status_fst r.config.trackerLimits root now (r.ledger root)
  have same := f.status_fst_eq_iff r.config.trackerLimits root now (r.ledger root)
  have changes : (f.status r.config.trackerLimits root now (r.ledger root)).2 = told := by
    rw [status]
  rw [status] at same
  simp only [status] at mem
  refine ⟨done.trans (congrArg some (plays.failed refused error)), mem, same, ?_⟩
  intro kept v rest onward t ht moved again
  rw [← changes] at ht
  have shown := RootPass.Findings.shown_of_told ht moved
  rw [status] at shown
  exact onward.told_after shown rfl again

-----------------------------------------------------------------------------------------
-- A reporter that is closed for one pass
-----------------------------------------------------------------------------------------

namespace Refusal

/-- The keys that are wanted under a root, and whether the reporter is open. -/
structure World where
  wanted : List Key
  isOpen : Bool

/-- What is pushed never arrives, and reports are taken in while the reporter is open. -/
def surroundings : Surroundings World where
  roots _ _ := ["t1"]
  ask
    | .tree .desired _, w => (.answered ((∅ : HashTree).addAll (w.wanted.map (·, ∅))).1, w)
    | .tree .observed _, w => (.answered ∅, w)
    | .resources keys, w => (.answered (keys.map Resource.reference), w)
    | .resourcesForDelete keys, w => (.answered (keys.map Resource.reference), w)
    | .report _, w => (if w.isOpen then .answered () else .failed (.statusFailed "closed"), w)
    | .push _, w => (.answered (), w)
    | .reset .., w => (.answered (), w)
  serve _ _ w := (.ok (), w)
  settle _ w := (.ok (), w)

/-- A pass whose work on the root takes a number of steps. -/
def lap (w : World) (now : Instant) (steps : Nat) (r : Reconciler) : Option (Underway World) :=
  (Underway.run surroundings now (.start :: List.replicate steps (.work "t1"))
    (.begin surroundings r w)).filter fun u => u.waiting.isEmpty && u.active.isEmpty

theorem completes_of_lap {w : World} {steps : Nat} {r : Reconciler} {u : Underway World}
    (configured : r.Configured) (h : lap w now steps r = some u)
    : u.Completes surroundings r now "t1" := by
  obtain ⟨run, closed⟩ := Underway.over_of_filter h
  have shared : Reconciler.sharedRoots surroundings w = ["t1"] := by rfl
  refine ⟨configured, ⟨w, _, ?_, ?_, run⟩, closed⟩
  · rw [shared]
    decide
  · rw [shared]
    exact List.mem_cons_self

/-- The reporter takes in that an object is pending. -/
def opened : Underway World :=
  (lap ⟨[⟨["t1", "a"]⟩], true⟩ ⟨0⟩ 9 (.new {})).get (by decide +kernel)

/-- Another object takes its place, and the reporter refuses all that it is told of both. -/
def closed : Underway World :=
  (lap ⟨[⟨["t1", "b"]⟩], false⟩ ⟨10000000000⟩ 7 opened.reconciler).get (by decide +kernel)

/-- The difference is as it was, and the reporter is open again. -/
def reopened : Underway World :=
  (lap ⟨[⟨["t1", "b"]⟩], true⟩ ⟨20000000000⟩ 8 closed.reconciler).get (by decide +kernel)

/-- What the reporter refused. -/
def refused : List StatusTransition :=
  [⟨"t1", ⟨["t1", "a"]⟩, .synced⟩, ⟨"t1", ⟨["t1", "b"]⟩, .pending⟩]

theorem completes_opened : opened.Completes surroundings (.new {}) ⟨0⟩ "t1" :=
  completes_of_lap (Reconciler.configured_new {}) (Option.some_get _).symm

theorem completes_closed
    : closed.Completes surroundings opened.reconciler ⟨10000000000⟩ "t1" :=
  completes_of_lap completes_opened.configured_after (Option.some_get _).symm

theorem completes_reopened
    : reopened.Completes surroundings closed.reconciler ⟨20000000000⟩ "t1" :=
  completes_of_lap completes_closed.configured_after (Option.some_get _).symm

/-- The exchange is a report of all that is refused, and the reporter refuses it. -/
def refuses : Exchange → Bool
  | ⟨.report told, .failed e⟩ => told = refused ∧ e = .statusFailed "closed"
  | _ => false

theorem mem_asked_closed
    : ⟨.report refused, .failed (.statusFailed "closed")⟩ ∈ closed.asked "t1" := by
  have asked : (closed.asked "t1").any refuses = true := by decide +kernel
  obtain ⟨x, hx, same⟩ := List.any_eq_true.mp asked
  rw [refuses.eq_def] at same
  split at same
  · obtain ⟨rfl, rfl⟩ := of_decide_eq_true same
    exact hx
  · cases same

/-- A key that was refused as synced and one that was refused as pending. The pass after that is over
the same difference, and its reports would be taken in, but it has none.
-/
theorem refused_report_forgotten_reopened
    : closed.results.lookup "t1" = some (.error (.statusFailed "closed"))
      ∧ ⟨["t1", "a"]⟩ ∉ (closed.reconciler.ledger "t1").pending
      ∧ ⟨["t1", "b"]⟩ ∈ (closed.reconciler.ledger "t1").pending
      ∧ (closed.reconciler.ledger "t1").pending ≠ (opened.reconciler.ledger "t1").pending
      ∧ ∀ t ∈ refused, t ∉ RootPass.transitions (reopened.asked "t1") := by
  obtain ⟨ended, taken, same, forgotten⟩ :=
    refused_report_forgotten completes_closed mem_asked_closed rfl
  refine ⟨ended, fun kept => ?_, (taken _).mpr (.inl (by decide)), fun kept => ?_, ?_⟩
  · rcases (taken _).mp kept with pending | ⟨-, untold⟩
    · exact absurd pending (by decide)
    · exact untold _ List.mem_cons_self rfl
  · obtain ⟨⟨_, _, failed⟩, -⟩ := same.mp kept _ List.mem_cons_self
    cases failed
  · intro t ht again
    have next : Onward surroundings "t1" closed.reconciler
        [reopened.visit closed.reconciler ⟨20000000000⟩ "t1"] :=
      .passed rfl completes_reopened (.here _)
    have moved : ∀ t ∈ refused, t.status = .pending ∨ t.status = .synced := by decide
    obtain ⟨v, hv, -⟩ := forgotten [] _ [] next t ht (moved t ht) again
    cases hv

/-- It is not so that a pass whose report is refused leaves the pending keys as they were, nor that
the next pass over the same difference reports again what was refused.
-/
theorem not_refused_report_kept
    : (¬ ∀ (r : Reconciler) (now : Instant) (root : String) (u : Underway World)
          (told : List StatusTransition) (reply : Reply Unit) (e : ReconcileError),
        u.Completes surroundings r now root → ⟨.report told, reply⟩ ∈ u.asked root →
        reply.error? root = some e →
          (u.reconciler.ledger root).pending = (r.ledger root).pending)
      ∧ ¬ ∀ (r : Reconciler) (now now' : Instant) (root : String) (u u' : Underway World)
          (told : List StatusTransition) (reply : Reply Unit) (e : ReconcileError),
        u.Completes surroundings r now root → ⟨.report told, reply⟩ ∈ u.asked root →
        reply.error? root = some e → u'.Completes surroundings u.reconciler now' root →
        (∀ x ∈ u'.asked root, x.reply.error? root = none) →
        (u'.visit u.reconciler now' root).difference? = (u.visit r now root).difference? →
          ∀ t ∈ told, t.status = .pending ∨ t.status = .synced →
            t ∈ (u'.visit u.reconciler now' root).reported := by
  constructor
  · intro claim
    have same := claim _ _ _ _ _ _ _ completes_closed mem_asked_closed rfl
    have kept : ⟨["t1", "a"]⟩ ∈ (closed.reconciler.ledger "t1").pending := by
      rw [same]
      decide +kernel
    exact absurd kept (by decide +kernel)
  · intro claim
    have again := claim _ _ _ _ _ _ _ _ _ completes_closed mem_asked_closed rfl completes_reopened
      (by decide +kernel) (by decide +kernel) _ List.mem_cons_self (.inr rfl)
    exact absurd again (by decide +kernel)

end Refusal

end Concord
