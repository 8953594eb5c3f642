import Concord.Proofs.Time.Backoff
import Concord.Reconcile.Tracker

/-! What an appearance, a reset of the root and a clearing by hand make of the record of one action,
and what they keep.
-/

namespace Concord.TrackedAction

variable {limits : TrackerLimits} {now : Instant} {r r' : TrackedAction}

/-- The ways in which an appearance goes, with the record from then on. -/
inductive Appears (limits : TrackerLimits) (now : Instant) (r : TrackedAction)
    : TrackOutcome × TrackedAction → Prop
  | stillFailed (failed : r.state = .failed) : Appears limits now r (.stillFailed, r)
  | backedOff (active : r.state = .active) (early : now.before r.nextEligible = true)
    : Appears limits now r (.backedOff, r)
  | attempt (active : r.state = .active) (due : now.before r.nextEligible = false)
    (within : (r.retry limits now).exceeded = false)
    : Appears limits now r (.attempt, r.retry limits now)
  | resetRoot (active : r.state = .active) (due : now.before r.nextEligible = false)
    (beyond : (r.retry limits now).exceeded = true) (level : r.escalation = .reset)
    : Appears limits now r
        (.resetRoot, { r.retry limits now with escalation := .purge, limit := limits.purgeLimit })
  | failed (active : r.state = .active) (due : now.before r.nextEligible = false)
    (beyond : (r.retry limits now).exceeded = true) (level : r.escalation = .purge)
    : Appears limits now r (.failed, { r.retry limits now with state := .failed })

theorem isFailed_eq_false : r.isFailed = false ↔ r.state = .active := by
  cases h : r.state <;> simp [isFailed, h]

/-- Every appearance goes one of these ways. -/
theorem appears (r : TrackedAction) (limits : TrackerLimits) (now : Instant)
    : r.Appears limits now (r.observe limits now) := by
  rw [observe]
  split
  · rename_i failed
    exact .stillFailed (of_decide_eq_true failed)
  · rename_i active
    have active : r.state = .active := isFailed_eq_false.mp (Bool.not_eq_true _ ▸ active)
    split
    · rename_i early
      exact .backedOff active early
    · rename_i due
      have due : now.before r.nextEligible = false := Bool.not_eq_true _ ▸ due
      dsimp only
      split
      · rename_i within
        exact .attempt active due (by simpa using within)
      · rename_i beyond
        have beyond : (r.retry limits now).exceeded = true := by simpa using beyond
        split
        · rename_i level
          exact .resetRoot active due beyond level
        · rename_i level
          exact .failed active due beyond level

/-- An appearance that is told to wait or to stay away leaves the record as it is. -/
theorem observe_unchanged
    (h : (r.observe limits now).1 = .backedOff ∨ (r.observe limits now).1 = .stillFailed)
    : (r.observe limits now).2 = r := by
  have way := r.appears limits now
  generalize r.observe limits now = result at way h
  cases way with
  | stillFailed _ => rfl
  | backedOff _ _ => rfl
  | attempt _ _ _ => simp at h
  | resetRoot _ _ _ _ => simp at h
  | failed _ _ _ _ => simp at h

-----------------------------------------------------------------------------------------
-- Escalation
-----------------------------------------------------------------------------------------

/-- A record is escalated only as it asks for a reset of its root. -/
theorem observe_escalation (r : TrackedAction) (limits : TrackerLimits) (now : Instant)
    : (r.observe limits now).1 = .resetRoot
      ∨ (r.observe limits now).2.escalation = r.escalation := by
  have way := r.appears limits now
  generalize r.observe limits now = result at way ⊢
  cases way with
  | stillFailed _ => exact .inr rfl
  | backedOff _ _ => exact .inr rfl
  | attempt _ _ _ => exact .inr rfl
  | resetRoot _ _ _ _ => exact .inl rfl
  | failed _ _ _ _ => exact .inr rfl

/-- Only what was not escalated asks for a reset of its root. It is escalated then, and has the
limit for attempts after a reset.
-/
theorem escalation_of_resetRoot (h : (r.observe limits now).1 = .resetRoot)
    : r.escalation = .reset ∧ (r.observe limits now).2.escalation = .purge
      ∧ (r.observe limits now).2.state = .active
      ∧ (r.observe limits now).2.limit = limits.purgeLimit := by
  have way := r.appears limits now
  generalize r.observe limits now = result at way h ⊢
  cases way with
  | stillFailed _ => cases h
  | backedOff _ _ => cases h
  | attempt _ _ _ => cases h
  | resetRoot active _ _ level => exact ⟨level, rfl, active, rfl⟩
  | failed _ _ _ _ => cases h

/-- Only what was escalated is given up. -/
theorem escalation_of_failed (h : (r.observe limits now).1 = .failed) : r.escalation = .purge := by
  have way := r.appears limits now
  generalize r.observe limits now = result at way h
  cases way with
  | stillFailed _ => cases h
  | backedOff _ _ => cases h
  | attempt _ _ _ => cases h
  | resetRoot _ _ _ _ => cases h
  | failed _ _ _ level => exact level

theorem escalation_of_clear (h : r.clear? limits now = some r') : r'.escalation = r.escalation := by
  rw [clear?] at h
  split at h
  · cases h
    rfl
  · cases h

theorem escalation_of_reset (h : r.afterReset? now = some r') : r.escalation = .purge := by
  rw [afterReset?] at h
  split at h
  · cases h
  · rename_i escalated
    exact escalated

/-- A reset of the root leaves what was escalated, and leaves it escalated. -/
theorem afterReset_of_escalated (h : r.escalation = .purge) (now : Instant)
    : ∃ r', r.afterReset? now = some r' ∧ r'.escalation = .purge := by
  rw [afterReset?, h]
  refine ⟨_, rfl, ?_⟩
  split <;> exact h

-----------------------------------------------------------------------------------------
-- What holds of every record
-----------------------------------------------------------------------------------------

/-- How the parts of a record go together, whatever was done to it. -/
structure Sound (limits : TrackerLimits) (r : TrackedAction) : Prop where
  counted : -1 ≤ r.retries.toInt
  failed : r.state = .failed → r.escalation = .purge
  first : r.escalation = .reset → r.state = .active ∧ r.limit = limits.resetLimit
  second : r.escalation = .purge → limits.purgeLimit ≤ r.limit

theorem sound_start (limits : TrackerLimits) (now : Instant)
    : (start limits.resetLimit now).Sound limits where
  counted := (by decide : -1 ≤ (-1 : Int64).toInt)
  failed := fun failed => by cases failed
  first := fun _ => ⟨rfl, rfl⟩
  second := fun escalated => by cases escalated

/-- The counter only grows, and stops at the largest number. -/
theorem toInt_increment_eq (n : Int64)
    : (increment n).toInt = min (n.toInt + 1) Int64.maxValue.toInt := by
  have low := n.le_toInt
  rw [increment, Int64.toInt_maxValue, Int64.toInt_ofInt_of_le] <;> omega

theorem le_increment {n : Int64} (h : -1 ≤ n.toInt) : -1 ≤ (increment n).toInt := by
  rw [toInt_increment_eq, Int64.toInt_maxValue]
  omega

/-- Each way in which an appearance goes keeps the parts together. -/
theorem Sound.observe (h : r.Sound limits) (now : Instant)
    : (r.observe limits now).2.Sound limits := by
  have way := r.appears limits now
  generalize r.observe limits now = result at way ⊢
  cases way with
  | stillFailed _ => exact h
  | backedOff _ _ => exact h
  | attempt _ _ _ => exact ⟨le_increment h.counted, h.failed, h.first, h.second⟩
  | resetRoot _ _ _ _ =>
      refine ⟨le_increment h.counted, fun _ => rfl, fun level => ?_, fun _ => ?_⟩
      · cases level
      · exact UInt32.le_refl _
  | failed _ _ _ level =>
      refine ⟨le_increment h.counted, fun _ => level, fun other => ?_, h.second⟩
      cases level.symm.trans other

theorem Sound.afterReset (h : r.Sound limits) (left : r.afterReset? now = some r')
    : r'.Sound limits := by
  rw [afterReset?] at left
  split at left
  · cases left
  · cases left
    split
    · exact h
    · exact ⟨(by decide : -1 ≤ (-1 : Int64).toInt), h.failed, h.first, h.second⟩

/-- Another round of attempts raises the limit of a record that was escalated. -/
theorem Sound.clear (h : r.Sound limits) (cleared : r.clear? limits now = some r')
    : r'.Sound limits := by
  rw [clear?] at cleared
  split at cleared
  · rename_i failed
    cases cleared
    have level : r.escalation = .purge := h.failed (of_decide_eq_true failed)
    refine ⟨h.counted, fun active => ?_, fun other => ?_, fun _ => ?_⟩
    · cases active
    · cases level.symm.trans other
    · exact UInt32.le_trans (h.second level) (le_saturatingAdd _ _)
  · cases cleared

end Concord.TrackedAction
