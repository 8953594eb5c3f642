import Concord.Proofs.Reconcile.GivingUp
import Concord.Proofs.Reconcile.RefusedReports
import Concord.Proofs.Reconcile.StatusProtocol

/-! The statuses of a root that has converged. What was pending is synced then. What was given up is
not pending any more, so nothing is told of it: its latest status says that it failed, whatever
became of it since, until it is tried again.
-/

namespace Concord

variable {ω : Type} {s : Surroundings ω} {config : ReconcilerConfig} {root : String}
  {limits : TrackerLimits} {now : Instant} {w : ω} {r : Reconciler} {visits : List Visit}
  {key : Key}

-----------------------------------------------------------------------------------------
-- A pass without a difference
-----------------------------------------------------------------------------------------

namespace RootPass

variable {ledger left : Ledger} {log : List Exchange} {result : Except ReconcileError RootOutcome}
  {delta : TreeDiff}

/-- Where nothing differs all pending keys are told of as synced, and no others. -/
theorem mem_status_converged {pending : KeySet} {t : StatusTransition}
    : t ∈ (StatusTransition.ofPass root pending {} {}).2
      ↔ ∃ k ∈ pending, t = ⟨root, k, .synced⟩ := by
  rw [StatusTransition.mem_ofPass_snd]
  simp [StatusTransition.Differs]

theorem not_pending_converged (root : String) (pending : KeySet) (key : Key)
    : key ∉ (StatusTransition.ofPass root pending {} {}).1 := by
  rw [StatusTransition.mem_ofPass_fst]
  simp [StatusTransition.Differs]

/-- A pass that finds no difference tells that all pending keys are synced, and none is pending
after it.
-/
theorem told_without_difference
    (h : (program limits root now ledger).Plays root log result left)
    (found : difference? log = some delta) (same : delta.isEmpty = true)
    : (∀ t, t ∈ transitions log ↔ ∃ k ∈ ledger.pending, t = ⟨root, k, .synced⟩)
      ∧ ∀ k, k ∉ left.pending := by
  rw [program_eq] at h
  cases h with
  | @refused _ _ _ reply _ error =>
      cases reply with
      | answered _ => cases error
      | failed _ => cases found
      | panicked => cases found
  | answered h =>
      cases h with
      | @refused _ _ _ reply _ error =>
          cases reply with
          | answered _ => cases error
          | failed _ => cases found
          | panicked => cases found
      | answered h =>
          cases found
          simp only [compared, same, if_true] at h
          obtain ⟨failure, reports, -, rfl⟩ := plays_converged h
          refine ⟨fun t => ?_, not_pending_converged root ledger.pending⟩
          rw [← mem_status_converged, ← transitions_reports reports]
          rfl

end RootPass

-----------------------------------------------------------------------------------------
-- What was given up
-----------------------------------------------------------------------------------------

namespace Visit

/-- The key is not told of. -/
def Silent (v : Visit) (key : Key) : Prop :=
  ∀ t ∈ v.reported, t.key ≠ key

theorem latest_of_silent {v : Visit} (h : v.Silent key)
    : (Visit.latest (visits ++ [v]))[key]? = (Visit.latest visits)[key]? := by
  rw [latest_snoc, StatusLog.latest_record_of_forall_ne _ h, Visit.latest]

/-- A key that is told of has the status of a change in that visit. -/
theorem latest_of_reported (visits : List Visit) {v : Visit} (h : ¬ v.Silent key)
    : ∃ t ∈ v.reported, t.key = key
        ∧ (Visit.latest (visits ++ [v]))[key]? = some t.status := by
  simp only [Silent, not_forall, not_not] at h
  obtain ⟨t, ht, rfl⟩ := h
  rw [latest_snoc]
  exact StatusLog.exists_latest_record _ ht

/-- An action on a resource at the key ran out of attempts in some visit, and since then the key was
not told of.
-/
def GivenUpSince (visits : List Visit) (limits : TrackerLimits) (action : ActionKind) (key : Key)
    : Prop :=
  ∃ earlier v later, visits = earlier ++ v :: later ∧ v.GivesUp limits action key
    ∧ ∀ x ∈ later, x.Silent key

theorem GivenUpSince.snoc {action : ActionKind} {v : Visit}
    (h : GivenUpSince visits limits action key) (silent : v.Silent key)
    : GivenUpSince (visits ++ [v]) limits action key := by
  obtain ⟨earlier, first, later, rfl, given, since⟩ := h
  refine ⟨earlier, first, later ++ [v], by rw [List.append_assoc, List.cons_append], given, ?_⟩
  exact List.forall_mem_append.mpr ⟨since, List.forall_mem_singleton.mpr silent⟩

end Visit

/-- A key whose latest status says that it failed was given up and not told of since, by induction
on what happened.
-/
theorem History.givenUpSince {action : ActionKind} {reason : String}
    (h : History s config root r visits)
    (accepts : ∀ transitions w, (s.ask (.report transitions) w).1 = .answered ())
    (failed : (Visit.latest visits)[key]? = some (.failed action reason))
    : reason = StatusTransition.giveUpReason
      ∧ Visit.GivenUpSince visits config.trackerLimits action key := by
  induction h with
  | new => simp [Visit.latest, StatusLog.record] at failed
  | cleared before other action now ih => exact ih failed
  | served before kept ih => exact ih failed
  | @passed r visits now w strides u before distinct shared run closed ih =>
      obtain ⟨rfl, configured⟩ := before.config_eq
      obtain ⟨orderly, -⟩ := Underway.orderly configured distinct shared run closed accepts
      by_cases silent : (u.visit r now root).Silent key
      · rw [Visit.latest_of_silent silent] at failed
        exact (ih failed).imp_right fun since => since.snoc silent
      · obtain ⟨t, ht, rfl, latest⟩ := Visit.latest_of_reported visits silent
        have status := Option.some.inj (latest.symm.trans failed)
        obtain ⟨-, became | left | ⟨⟨action', told, given⟩, -⟩⟩ := orderly.moves t ht
        · cases became.1.symm.trans status
        · cases left.1.symm.trans status
        · cases told.symm.trans status
          exact ⟨rfl, visits, _, [], rfl, given, fun x hx => by cases hx⟩

-----------------------------------------------------------------------------------------
-- After a converged pass
-----------------------------------------------------------------------------------------

section

variable {v : Visit}
  (settles : ∀ t, t ∈ v.reported ↔ ∃ k ∈ v.before.pending, t = ⟨root, k, .synced⟩)

include settles

theorem Visit.silent_of_settles (calm : key ∉ v.before.pending) : v.Silent key := by
  intro t ht here
  obtain ⟨k, pending, rfl⟩ := (settles t).mp ht
  exact calm (here ▸ pending)

theorem Visit.latest_of_settles (visits : List Visit) (pending : key ∈ v.before.pending)
    : (Visit.latest (visits ++ [v]))[key]? = some .synced := by
  have told : ¬ v.Silent key := fun silent =>
    silent _ ((settles _).mpr ⟨key, pending, rfl⟩) rfl
  obtain ⟨t, ht, -, latest⟩ := Visit.latest_of_reported visits told
  obtain ⟨k, -, rfl⟩ := (settles t).mp ht
  exact latest

end

/-- The statuses after a pass that finds a root converged, where the reporter takes in all that it
is told. What was pending is synced, no key is pending any more, and nothing is told of the others.
So the latest status of every key that has one is that it is synced, unless it was given up in an
earlier pass and not told of since: what is given up is not pending, and stays given up.
-/
theorem statuses_when_converged {strides : List Stride} {u : Underway ω} {delta : TreeDiff}
    (history : History s config root r visits)
    (accepts : ∀ transitions w, (s.ask (.report transitions) w).1 = .answered ())
    (distinct : (Reconciler.sharedRoots s w).Nodup) (shared : root ∈ Reconciler.sharedRoots s w)
    (run : Underway.run s now strides (.begin s r w) = some u) (closed : u.Over)
    (found : (u.visit r now root).difference? = some delta) (converged : delta.isEmpty = true)
    : let v := u.visit r now root
      (∀ t, t ∈ v.reported ↔ ∃ key ∈ v.before.pending, t = ⟨root, key, .synced⟩)
      ∧ (∀ key, key ∉ v.after.pending)
      ∧ (∀ key : Key, (Visit.latest (visits ++ [v]))[key]?
          = if (Visit.latest visits)[key]? = some .pending then some .synced
            else (Visit.latest visits)[key]?)
      ∧ ∀ key status, (Visit.latest (visits ++ [v]))[key]? = some status →
          status = .synced
          ∨ ∃ action, status = .failed action StatusTransition.giveUpReason
              ∧ Visit.GivenUpSince visits config.trackerLimits action key ∧ v.Silent key := by
  intro v
  obtain ⟨same, configured⟩ := history.config_eq
  obtain ⟨-, -, -, played, -⟩ := Underway.run_over configured distinct run closed
  obtain ⟨result, -, plays⟩ := played root shared
  obtain ⟨told, settled⟩ := RootPass.told_without_difference plays found converged
  rw [← Underway.reported_eq run accepts] at told
  have synced {key : Key} (pending : key ∈ v.before.pending) :=
    Visit.latest_of_settles told visits pending
  have silent {key : Key} (calm : key ∉ v.before.pending) := Visit.silent_of_settles told calm
  have pending_iff (key : Key)
      : key ∈ v.before.pending ↔ (Visit.latest visits)[key]? = some .pending :=
    history.pending_iff accepts
  refine ⟨told, settled, fun key => ?_, fun key status latest => ?_⟩
  · split
    · rename_i pending
      exact synced ((pending_iff key).mpr pending)
    · rename_i calm
      exact Visit.latest_of_silent (silent fun pending => calm ((pending_iff key).mp pending))
  · by_cases pending : key ∈ v.before.pending
    · exact .inl (Option.some.inj (latest.symm.trans (synced pending)))
    · rw [Visit.latest_of_silent (silent pending)] at latest
      cases status with
      | synced => exact .inl rfl
      | pending => exact absurd ((pending_iff key).mpr latest) pending
      | failed action reason =>
          obtain ⟨rfl, since⟩ := history.givenUpSince accepts latest
          exact .inr ⟨action, rfl, since, silent pending⟩

-----------------------------------------------------------------------------------------
-- An object that is withdrawn after it was given up
-----------------------------------------------------------------------------------------

namespace Withdrawal

/-- The keys that are wanted under a root are all there is of the world. What is pushed never
arrives, and every report is taken in.
-/
def surroundings : Surroundings (List Key) where
  roots _ _ := ["t1"]
  ask question wanted := ((Refusal.surroundings.ask question ⟨wanted, true⟩).1, wanted)
  serve _ _ wanted := (.ok (), wanted)
  settle _ wanted := (.ok (), wanted)

/-- A pass whose work on the root takes a number of steps. -/
def lap (wanted : List Key) (steps : Nat) (r : Reconciler) : Option (Underway (List Key)) :=
  (Underway.run surroundings ⟨0⟩ (.start :: List.replicate steps (.work "t1"))
    (.begin surroundings r wanted)).filter fun u => u.waiting.isEmpty && u.active.isEmpty

/-- Passes one after the other, as the root saw them, and the reconciler after them. -/
def laps : List (List Key × Nat) → Reconciler → List Visit → Option (Reconciler × List Visit)
  | [], r, visits => some (r, visits)
  | (wanted, steps) :: rest, r, visits =>
      (lap wanted steps r).bind fun u =>
        laps rest u.reconciler (visits ++ [u.visit r ⟨0⟩ "t1"])

variable {wanted : List Key} {steps : Nat} {u : Underway (List Key)}

theorem accepts (transitions : List StatusTransition) (wanted : List Key)
    : (surroundings.ask (.report transitions) wanted).1 = .answered () :=
  rfl

theorem shared (wanted : List Key) : Reconciler.sharedRoots surroundings wanted = ["t1"] := by
  rfl

theorem distinct (wanted : List Key) : (Reconciler.sharedRoots surroundings wanted).Nodup := by
  rw [shared]
  decide

theorem listed (wanted : List Key) : "t1" ∈ Reconciler.sharedRoots surroundings wanted := by
  rw [shared]
  exact List.mem_cons_self

theorem lap_spec (h : lap wanted steps r = some u)
    : Underway.run surroundings ⟨0⟩ (.start :: List.replicate steps (.work "t1"))
        (.begin surroundings r wanted) = some u
      ∧ u.Over :=
  Underway.over_of_filter h

/-- Passes one after the other are a history, by induction on them. -/
theorem history_of_laps {passes : List (List Key × Nat)} {r' : Reconciler} {visits' : List Visit}
    (h : laps passes r visits = some (r', visits'))
    (before : History surroundings config "t1" r visits)
    : History surroundings config "t1" r' visits' := by
  induction passes generalizing r visits with
  | nil =>
      cases h
      exact before
  | cons pass rest ih =>
      obtain ⟨u, lap, later⟩ := Option.bind_eq_some_iff.mp h
      obtain ⟨run, closed⟩ := lap_spec lap
      exact ih later (.passed before (distinct _) (listed _) run closed)

/-- One object is wanted for eight passes, and given up in the last of them. In the ninth pass
another one is wanted as well.
-/
def nine : Reconciler × List Visit :=
  (laps
    ([9, 8, 9, 8, 8, 8, 8, 8].map (([⟨["t1", "a"]⟩], ·)) ++ [([⟨["t1", "a"]⟩, ⟨["t1", "b"]⟩], 9)])
    (.new Stubborn.quick) []).get (by decide +kernel)

theorem history_nine : History surroundings Stubborn.quick "t1" nine.1 nine.2 :=
  history_of_laps (Option.some_get _).symm .new

/-- Neither object is wanted any more. -/
def tenth : Underway (List Key) :=
  (lap [] 6 nine.1).get (by decide +kernel)

theorem tenth_spec
    : Underway.run surroundings ⟨0⟩ (.start :: List.replicate 6 (.work "t1"))
        (.begin surroundings nine.1 []) = some tenth
      ∧ tenth.Over :=
  lap_spec (Option.some_get _).symm

/-- The pass finds no difference. -/
theorem difference_tenth : (tenth.visit nine.1 ⟨0⟩ "t1").difference? = some {} := by
  decide +kernel

theorem latest_tenth
    : (Visit.latest (nine.2 ++ [tenth.visit nine.1 ⟨0⟩ "t1"]))[(⟨["t1", "a"]⟩ : Key)]?
      = some (.failed .create StatusTransition.giveUpReason) := by
  decide +kernel

/-- The object that was pending is synced, and the one that was given up stays given up. -/
theorem statuses_when_converged_withdrawn
    : let v := tenth.visit nine.1 ⟨0⟩ "t1"
      v.before.pending.toList = [⟨["t1", "b"]⟩] ∧ (∀ key, key ∉ v.after.pending)
        ∧ (Visit.latest (nine.2 ++ [v]))[(⟨["t1", "b"]⟩ : Key)]? = some .synced
        ∧ Visit.GivenUpSince nine.2 Stubborn.quick.trackerLimits .create ⟨["t1", "a"]⟩
        ∧ v.Silent ⟨["t1", "a"]⟩ := by
  intro v
  obtain ⟨-, settled, latest, given⟩ :=
    statuses_when_converged history_nine accepts (distinct []) (listed []) tenth_spec.1
      tenth_spec.2 difference_tenth rfl
  refine ⟨by decide +kernel, settled, (latest _).trans (if_pos (by decide +kernel)), ?_⟩
  rcases given _ _ latest_tenth with synced | ⟨action, failed, since, silent⟩
  · cases synced
  · cases failed
    exact ⟨since, silent⟩

/-- It is not so that all keys with a status are synced after a pass that finds no difference. -/
theorem not_all_synced_when_converged
    : ¬ ∀ (s : Surroundings (List Key)) (config : ReconcilerConfig) (root : String)
        (r : Reconciler) (visits : List Visit) (now : Instant) (w : List Key)
        (strides : List Stride) (u : Underway (List Key)) (delta : TreeDiff),
        History s config root r visits →
        (∀ transitions w, (s.ask (.report transitions) w).1 = .answered ()) →
        (Reconciler.sharedRoots s w).Nodup → root ∈ Reconciler.sharedRoots s w →
        Underway.run s now strides (.begin s r w) = some u → u.Over →
        (u.visit r now root).difference? = some delta → delta.isEmpty = true →
        ∀ (key : Key) (status : SyncStatus),
          (Visit.latest (visits ++ [u.visit r now root]))[key]? = some status →
            status = .synced := by
  intro claim
  have synced := claim _ _ _ _ _ _ _ _ _ _ history_nine accepts (distinct []) (listed [])
    tenth_spec.1 tenth_spec.2 difference_tenth rfl _ _ latest_tenth
  cases synced

end Withdrawal

end Concord
