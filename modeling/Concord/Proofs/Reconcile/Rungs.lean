import Concord.Proofs.Reconcile.Appearances
import Concord.Proofs.Reconcile.Sorting

/-! The way of an action that never succeeds and is never too early. It is tried as often as the
first limit says, then its root is reset, it is tried again as often as the second limit says, and
then it is given up for good. Where all actions of a pass stand on one rung of this way, the pass
does the same with all of them.
-/

namespace Concord

variable {limits : TrackerLimits} {now later : Instant}

-----------------------------------------------------------------------------------------
-- Delays
-----------------------------------------------------------------------------------------

theorem Instant.deadline_le (now : Instant) (delay : Duration)
    : (now.deadline delay).nanos ≤ now.nanos + delay.nanos := by
  rw [deadline]
  split
  · exact Int.le_refl _
  · omega

namespace TrackedAction

variable {r : TrackedAction} {escalation : Escalation} {limit : UInt32} {tries : Nat}

-----------------------------------------------------------------------------------------
-- One record
-----------------------------------------------------------------------------------------

/-- A record whose counter has seen a number of attempts, and which may be tried again now. -/
structure Climbs (r : TrackedAction) (escalation : Escalation) (limit : UInt32) (tries : Nat)
    (now : Instant) : Prop where
  active : r.state = .active
  level : r.escalation = escalation
  bound : r.limit = limit
  retries : r.retries.toInt = tries - 1
  due : r.nextEligible.nanos ≤ now.nanos
  within : tries ≤ limit.toNat

theorem climbs_start (limit : UInt32) (now : Instant)
    : (start limit now).Climbs .reset limit 0 now where
  active := rfl
  level := rfl
  bound := rfl
  retries := by simp [start]
  due := Int.le_refl _
  within := Nat.zero_le _

theorem toInt_increment {n : Int64} (h : n.toInt < Int64.maxValue.toInt)
    : (increment n).toInt = n.toInt + 1 := by
  rw [toInt_increment_eq]
  omega

/-- What an attempt makes of the counter. -/
theorem Climbs.counter (h : r.Climbs escalation limit tries now)
    : (increment r.retries).toInt = tries
      ∧ (increment (increment r.retries)).toInt = tries + 1 := by
  have small : tries < UInt32.size := Nat.lt_of_le_of_lt h.within limit.toNat_lt
  have counted := h.retries
  have first : (increment r.retries).toInt = tries := by
    rw [toInt_increment (by rw [Int64.toInt_maxValue]; simp [UInt32.size] at small; omega)]
    omega
  refine ⟨first, ?_⟩
  rw [toInt_increment (by rw [Int64.toInt_maxValue]; simp [UInt32.size] at small; omega), first]

/-- What the next appearance comes to. -/
theorem Climbs.observe_eq (h : r.Climbs escalation limit tries now) (limits : TrackerLimits)
    : r.observe limits now
      = if tries < limit.toNat then (.attempt, r.retry limits now)
        else
          match escalation with
          | .reset =>
              (.resetRoot,
                { r.retry limits now with escalation := .purge, limit := limits.purgeLimit })
          | .purge => (.failed, { r.retry limits now with state := .failed }) := by
  have active : r.isFailed = false := by simp [isFailed, h.active]
  have due : now.before r.nextEligible = false := by
    have := h.due
    simp [Instant.before]
    omega
  have exceeded : (r.retry limits now).exceeded = decide (limit.toNat < tries + 1) := by
    have counted := h.counter.2
    simp only [exceeded, retry, h.bound, counted]
    rw [decide_eq_decide]
    omega
  rw [observe, active, due, if_neg Bool.false_ne_true, if_neg Bool.false_ne_true]
  dsimp only
  rw [exceeded]
  by_cases below : tries < limit.toNat
  · rw [if_pos below, if_pos (by simp; omega)]
  · have same : (r.retry limits now).escalation = escalation := h.level
    rw [if_neg below, if_neg (by simp; omega)]
    cases escalation <;> simp only [same]

/-- An attempt that is tolerated is counted, and after the longest delay the next one may follow. -/
theorem Climbs.retry (h : r.Climbs escalation limit tries now) (below : tries < limit.toNat)
    (waited : now.nanos + limits.maxBackoff.nanos ≤ later.nanos)
    : (r.retry limits now).Climbs escalation limit (tries + 1) later where
  active := h.active
  level := h.level
  bound := h.bound
  retries := by
    have counted := h.counter.1
    simp only [TrackedAction.retry]
    omega
  due := by
    simp only [TrackedAction.retry]
    have bounded := backoff_le (attempts (increment r.retries)) limits.baseBackoff limits.maxBackoff
    refine Int.le_trans (Instant.deadline_le now _) (Int.le_trans ?_ waited)
    omega
  within := below

/-- A reset of the root starts the counter of an escalated record over. -/
theorem climbs_restart (active : r.state = .active) (level : r.escalation = .purge)
    (bound : r.limit = limit) (waited : now.nanos ≤ later.nanos)
    : r.afterReset? now = some (r.restart now) ∧ (r.restart now).Climbs .purge limit 0 later := by
  refine ⟨?_, active, level, bound, by simp [restart], waited, Nat.zero_le _⟩
  rw [afterReset?, level, if_neg (by simp [isFailed, active])]

-----------------------------------------------------------------------------------------
-- The whole way
-----------------------------------------------------------------------------------------

/-- The number of passes before the one that resets the root. -/
def resetPass (limits : TrackerLimits) : Nat :=
  limits.resetLimit.toNat

/-- The number of passes before the one that gives the action up. -/
def purgePass (limits : TrackerLimits) : Nat :=
  limits.resetLimit.toNat + 1 + limits.purgeLimit.toNat

/-- What becomes of an action that appeared in a number of passes before and never succeeded. -/
def onTheWay (limits : TrackerLimits) (passes : Nat) : TrackOutcome :=
  if passes = resetPass limits then .resetRoot
  else if passes < purgePass limits then .attempt
  else if passes = purgePass limits then .failed
  else .stillFailed

theorem resetPass_lt_purgePass (limits : TrackerLimits) : resetPass limits < purgePass limits := by
  rw [resetPass, purgePass]
  omega

/-- The stages of the way. -/
theorem onTheWay_cases (limits : TrackerLimits) (passes : Nat)
    : (passes = resetPass limits ∧ onTheWay limits passes = .resetRoot)
      ∨ (passes ≠ resetPass limits ∧ passes < purgePass limits
          ∧ onTheWay limits passes = .attempt)
      ∨ (passes = purgePass limits ∧ onTheWay limits passes = .failed)
      ∨ (purgePass limits < passes ∧ onTheWay limits passes = .stillFailed) := by
  have order := resetPass_lt_purgePass limits
  rw [onTheWay]
  by_cases reset : passes = resetPass limits
  · exact .inl ⟨reset, if_pos reset⟩
  · rw [if_neg reset]
    rcases Nat.lt_trichotomy passes (purgePass limits) with early | last | beyond
    · exact .inr (.inl ⟨reset, early, if_pos early⟩)
    · exact .inr (.inr (.inl ⟨last, by rw [if_neg (by omega), if_pos last]⟩))
    · exact .inr (.inr (.inr ⟨beyond, by rw [if_neg (by omega), if_neg (by omega)]⟩))

theorem onTheWay_eq_resetRoot {passes : Nat}
    : onTheWay limits passes = .resetRoot ↔ passes = resetPass limits := by
  obtain ⟨last, reset⟩ | ⟨early, -, attempt⟩ | ⟨last, failed⟩ | ⟨beyond, stillFailed⟩ :=
    onTheWay_cases limits passes
  · exact ⟨fun _ => last, fun _ => reset⟩
  · simp [early, attempt]
  · have order := resetPass_lt_purgePass limits
    simp [failed]
    omega
  · have order := resetPass_lt_purgePass limits
    simp [stillFailed]
    omega

theorem onTheWay_eq_failed {passes : Nat}
    : onTheWay limits passes = .failed ↔ passes = purgePass limits := by
  have order := resetPass_lt_purgePass limits
  obtain ⟨last, reset⟩ | ⟨-, early, attempt⟩ | ⟨last, failed⟩ | ⟨beyond, stillFailed⟩ :=
    onTheWay_cases limits passes
  · simp [reset]
    omega
  · simp [attempt]
    omega
  · exact ⟨fun _ => last, fun _ => failed⟩
  · simp [stillFailed]
    omega

/-- The record of an action that appeared in a number of passes before. -/
inductive Rung (limits : TrackerLimits) (now : Instant) : Nat → TrackedAction → Prop
  | first {tries : Nat} {r : TrackedAction} (climbs : r.Climbs .reset limits.resetLimit tries now)
    : Rung limits now tries r
  | second {tries : Nat} {r : TrackedAction} (climbs : r.Climbs .purge limits.purgeLimit tries now)
    : Rung limits now (limits.resetLimit.toNat + 1 + tries) r
  | givenUp {more : Nat} {r : TrackedAction} (failed : r.isFailed = true)
    : Rung limits now (purgePass limits + 1 + more) r

variable {passes : Nat}

/-- The outcome on each rung. -/
theorem Rung.outcome (h : Rung limits now passes r)
    : (r.observe limits now).1 = onTheWay limits passes := by
  cases h with
  | first climbs =>
      have within := climbs.within
      rw [climbs.observe_eq, onTheWay, resetPass, purgePass]
      by_cases below : passes < limits.resetLimit.toNat
      · rw [if_pos below, if_neg (by omega), if_pos (by omega)]
      · rw [if_neg below, if_pos (by omega)]
  | @second tries _ climbs =>
      have within := climbs.within
      rw [climbs.observe_eq, onTheWay, resetPass, purgePass]
      by_cases below : tries < limits.purgeLimit.toNat
      · rw [if_pos below, if_neg (by omega), if_pos (by omega)]
      · rw [if_neg below, if_neg (by omega), if_neg (by omega), if_pos (by omega)]
  | givenUp failed =>
      rw [observe, if_pos failed, onTheWay, resetPass, purgePass, if_neg (by omega),
        if_neg (by omega), if_neg (by omega)]

/-- Each pass leads one rung on; the reset of the root is part of the pass that asks for it. -/
theorem Rung.next (h : Rung limits now passes r)
    (waited : now.nanos + limits.maxBackoff.nanos ≤ later.nanos)
    : (passes ≠ resetPass limits → Rung limits later (passes + 1) (r.observe limits now).2)
      ∧ (passes = resetPass limits →
          ∃ r', (r.observe limits now).2.afterReset? now = some r'
            ∧ Rung limits later (passes + 1) r') := by
  cases h with
  | first climbs =>
      have within := climbs.within
      rw [climbs.observe_eq, resetPass]
      by_cases below : passes < limits.resetLimit.toNat
      · rw [if_pos below]
        exact ⟨fun _ => .first (climbs.retry below waited), fun last => by omega⟩
      · rw [if_neg below]
        refine ⟨fun early => by omega, fun last => ?_⟩
        -- The record as it is escalated, before the reset starts its counter over.
        let escalated : TrackedAction :=
          { r.retry limits now with escalation := .purge, limit := limits.purgeLimit }
        have active : escalated.state = .active := climbs.active
        have bound : escalated.limit = limits.purgeLimit := rfl
        have order : now.nanos ≤ later.nanos := by omega
        obtain ⟨left, restarted⟩ := climbs_restart active rfl bound order
        refine ⟨_, left, ?_⟩
        rw [last]
        exact .second restarted
  | @second tries _ climbs =>
      have within := climbs.within
      rw [climbs.observe_eq, resetPass]
      refine ⟨fun _ => ?_, fun early => by omega⟩
      by_cases below : tries < limits.purgeLimit.toNat
      · rw [if_pos below]
        exact .second (climbs.retry below waited)
      · rw [if_neg below]
        have last : limits.resetLimit.toNat + 1 + tries + 1 = purgePass limits + 1 + 0 := by
          rw [purgePass]
          omega
        rw [last]
        exact .givenUp rfl
  | @givenUp more _ failed =>
      rw [observe, if_pos failed, resetPass, purgePass]
      have higher : Rung limits later (purgePass limits + 1 + (more + 1)) r := .givenUp failed
      exact ⟨fun _ => higher, fun early => by omega⟩

end TrackedAction

-----------------------------------------------------------------------------------------
-- All actions on one rung
-----------------------------------------------------------------------------------------

namespace Triage

variable {records : Records} {creates deletes : List Resource} {outcome : TrackOutcome}

/-- Actions that all differ and all have one outcome are sorted alike. -/
theorem sort_uniform (distinct : ((entries creates deletes).map Entry.action).Nodup)
    (uniform : ∀ a ∈ (entries creates deletes).map Entry.action,
      (records.verdict limits now a).1 = outcome)
    : (sort limits now records creates deletes).1
      = extend {} (fun _ => outcome) (entries creates deletes) := by
  rw [(sort_eq limits now records creates deletes).1,
    firsts_of_nodup distinct fun _ _ => List.not_mem_nil]
  exact extend_congr fun e he => uniform _ (List.mem_map_of_mem he)

theorem resources_of_kind (creates deletes : List Resource)
    : ((entries creates deletes).filter fun e => e.1 = .create).map Prod.snd = creates
      ∧ ((entries creates deletes).filter fun e => e.1 = .delete).map Prod.snd = deletes := by
  simp [entries, List.filter_map, Function.comp_def, List.filter_eq_self.mpr]

/-- All of them are pushed. -/
theorem extend_attempt (creates deletes : List Resource)
    : extend {} (fun _ => .attempt) (entries creates deletes)
      = { batch := ⟨creates, deletes⟩, seen := (entries creates deletes).map Entry.action } := by
  obtain ⟨created, deleted⟩ := resources_of_kind creates deletes
  simp [extend, skips, created, deleted]

/-- The root is reset, and nothing is pushed. -/
theorem extend_resetRoot (creates deletes : List Resource)
    : extend {} (fun _ => .resetRoot) (entries creates deletes)
      = {
        seen := (entries creates deletes).map Entry.action
        reset := !(entries creates deletes).isEmpty
      } := by
  cases h : entries creates deletes <;> simp [extend, skips]

/-- All of them are given up. -/
theorem extend_failed (creates deletes : List Resource)
    : extend {} (fun _ => .failed) (entries creates deletes)
      = {
        seen := (entries creates deletes).map Entry.action
        skipped := (entries creates deletes).map fun e => e.2.key
        failed := entries creates deletes
      } := by
  simp [extend, skips, List.filter_eq_self.mpr]

/-- All of them are skipped. -/
theorem extend_stillFailed (creates deletes : List Resource)
    : extend {} (fun _ => .stillFailed) (entries creates deletes)
      = {
        seen := (entries creates deletes).map Entry.action
        skipped := (entries creates deletes).map fun e => e.2.key
      } := by
  simp [extend, skips, List.filter_eq_self.mpr]

end Triage

end Concord
