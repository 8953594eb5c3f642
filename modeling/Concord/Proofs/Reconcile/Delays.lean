import Concord.Proofs.Reconcile.TrackerLadder
import Concord.Reconcile.Config

/-! How long an action has to wait after an appearance that was counted. The base delay doubles with
every retry, exactly, for as long as the factor fits thirty-two bits; from then on it stays at the
largest factor that does, below the bound that it was to reach. Until the delay is over the action
is told to wait, unless its record is started over, cleared or dropped before.
-/

namespace Concord

variable {limits : TrackerLimits} {now : Instant}

-----------------------------------------------------------------------------------------
-- Spans of time
-----------------------------------------------------------------------------------------

/-- The base delay after a number of doublings, but no longer than the bound. -/
def TrackerLimits.doubled (limits : TrackerLimits) (n : Nat) : Nat :=
  min limits.maxBackoff.nanos (limits.baseBackoff.nanos * 2 ^ n)

/-- The delay after a number of retries: the factor by which it grows stays within thirty-two bits.
-/
def TrackerLimits.delay (limits : TrackerLimits) (n : Nat) : Nat :=
  min limits.maxBackoff.nanos (limits.baseBackoff.nanos * min (2 ^ n) (UInt32.size - 1))

/-- The delay doubles exactly while the factor fits, and later only where the largest factor leads
to the bound or there is nothing to double.
-/
theorem TrackerLimits.delay_eq_doubled_iff (limits : TrackerLimits) (n : Nat)
    : limits.delay n = limits.doubled n
      ↔ n < 32 ∨ limits.baseBackoff.nanos = 0
        ∨ limits.maxBackoff.nanos ≤ limits.baseBackoff.nanos * (UInt32.size - 1) := by
  rw [delay, doubled]
  by_cases few : n < 32
  · rw [Nat.min_eq_left (pow_le_iff.mpr few)]
    exact iff_of_true rfl (.inl few)
  · have large : UInt32.size - 1 < 2 ^ n := Nat.lt_of_not_le fun fits => few (pow_le_iff.mp fits)
    rw [Nat.min_eq_right (Nat.le_of_lt large)]
    rcases Nat.eq_zero_or_pos limits.baseBackoff.nanos with none | some
    · simp [none]
    · have grows := Nat.mul_lt_mul_of_pos_left large some
      generalize limits.baseBackoff.nanos * (UInt32.size - 1) = largest at grows ⊢
      omega

namespace Instant

theorem le_deadline (now : Instant) (delay : Duration)
    : now.nanos ≤ (now.deadline delay).nanos := by
  rw [deadline]
  split
  · dsimp only
    omega
  · exact Int.le_refl _

theorem before_iff {t u : Instant} : t.before u = true ↔ t.nanos < u.nanos :=
  decide_eq_true_iff

/-- No two dates are as far apart as the longest delay that is ever added. -/
theorem lt_longestDelay {nanos delay : Int} (dated : inRange nanos = true)
    (due : inRange (nanos + delay) = true)
    : delay < longestDelay.nanos := by
  have longest : (longestDelay.nanos : Int) = 9223372036854775807000000 := by decide
  rw [inRange, Bool.and_eq_true] at dated due
  have first := of_decide_eq_true dated.1
  have last := of_decide_eq_true due.2
  simp only [firstMilli, lastMilli, Duration.nanosPerMilli] at first last
  omega

end Instant

-----------------------------------------------------------------------------------------
-- One appearance
-----------------------------------------------------------------------------------------

namespace TrackedAction

variable {r : TrackedAction}

/-- The delay is computed from the number of retries, whatever that number is. -/
theorem backoffFactor_attempts {retries : Int64} {n : Nat} (h : retries.toInt = n)
    : backoffFactor (attempts retries) = min (2 ^ n) (UInt32.size - 1) := by
  rw [attempts, h]
  split
  · exact backoffFactor_eq n
  · rename_i large
    have many : UInt32.size ≤ n := by omega
    have largest : UInt32.size - 1 ≤ 2 ^ n := Nat.le_of_not_le fun fits => by
      have few := pow_le_iff.mp fits
      rw [UInt32.size] at many
      omega
    rw [backoffFactor_of_le (by decide), Nat.min_eq_right largest]

/-- A delay that ends on a date is told exactly: no step on the way to it loses anything. -/
theorem deadline_eq {retries : Int64} {n : Nat} (h : retries.toInt = n)
    (dated : Instant.inRange now.nanos = true)
    (due : Instant.inRange (now.nanos + limits.delay n) = true)
    : now.deadline (backoff (attempts retries) limits.baseBackoff limits.maxBackoff)
      = ⟨now.nanos + limits.delay n⟩ := by
  have short := Instant.lt_longestDelay dated due
  have order : Instant.longestDelay.nanos ≤ Duration.longest.nanos := by decide
  have delay : (backoff (attempts retries) limits.baseBackoff limits.maxBackoff).nanos
      = limits.delay n := by
    rw [nanos_backoff, backoffFactor_attempts h]
    simp only [TrackerLimits.delay] at short ⊢
    omega
  rw [Instant.deadline, delay, if_pos ⟨by omega, due⟩]

/-- An appearance that is counted adds one to the counter and sets the time of the next one. -/
theorem retry_of_counted
    (counted : (r.observe limits now).1 = .attempt ∨ (r.observe limits now).1 = .resetRoot
      ∨ (r.observe limits now).1 = .failed)
    : (r.observe limits now).2.retries = (r.retry limits now).retries
      ∧ (r.observe limits now).2.nextEligible = (r.retry limits now).nextEligible := by
  have way := r.appears limits now
  generalize r.observe limits now = result at way counted ⊢
  cases way with
  | stillFailed _ => simp at counted
  | backedOff _ _ => simp at counted
  | attempt _ _ _ => exact ⟨rfl, rfl⟩
  | resetRoot _ _ _ _ =>
      dsimp only
      exact ⟨rfl, rfl⟩
  | failed _ _ _ _ =>
      dsimp only
      exact ⟨rfl, rfl⟩

/-- The time of the next appearance follows from the counter. -/
theorem nextEligible_retry
    : (r.retry limits now).nextEligible
      = now.deadline (backoff (attempts (r.retry limits now).retries)
          limits.baseBackoff limits.maxBackoff) := by
  rw [retry]

/-- The counter is a number after an appearance that is counted. -/
theorem retries_retry (sound : -1 ≤ r.retries.toInt)
    : ∃ n : Nat, (r.retry limits now).retries.toInt = n := by
  refine Int.eq_ofNat_of_zero_le ?_
  rw [retry, toInt_increment_eq, Int64.toInt_maxValue]
  omega

/-- An appearance never brings the next one forward. -/
theorem nextEligible_le_observe (r : TrackedAction) (limits : TrackerLimits) (now : Instant)
    : r.nextEligible.nanos ≤ (r.observe limits now).2.nextEligible.nanos := by
  have later (due : now.before r.nextEligible = false)
      : r.nextEligible.nanos ≤ (r.retry limits now).nextEligible.nanos := by
    have reached : r.nextEligible.nanos ≤ now.nanos := by
      rw [← Bool.not_eq_true, Instant.before_iff] at due
      omega
    exact Int.le_trans reached (Instant.le_deadline now _)
  have way := r.appears limits now
  generalize r.observe limits now = result at way ⊢
  cases way with
  | stillFailed _ => exact Int.le_refl _
  | backedOff _ _ => exact Int.le_refl _
  | attempt _ due _ => exact later due
  | resetRoot _ due _ _ => exact later due
  | failed _ due _ _ => exact later due

end TrackedAction

-----------------------------------------------------------------------------------------
-- Until the delay is over
-----------------------------------------------------------------------------------------

namespace Tracker

open TrackedAction

variable {t : Tracker} {root : String} {action : ResourceAction} {record : TrackedAction}

/-- Calls that leave a record in place do not bring its next appearance forward, by induction on the
calls.
-/
theorem nextEligible_le_after {calls : List Call} (held : t.get? root action = some record)
    (kept : ∀ call ∈ calls, call.keeps root action = true ∧ call.rebuilds root = false)
    (uncleared : t.clearings root action calls = 0)
    : ∃ record', (t.after calls).get? root action = some record'
        ∧ record.nextEligible.nanos ≤ record'.nextEligible.nanos := by
  induction calls generalizing t record with
  | nil => exact ⟨record, held, Int.le_refl _⟩
  | cons call rest ih =>
      obtain ⟨⟨keptCall, calm⟩, keptRest⟩ := List.forall_mem_cons.mp kept
      obtain ⟨ungranted, unclearedRest⟩ := Nat.add_eq_zero_iff.mp uncleared
      rcases Call.effect_of_keeps t.limits keptCall record with
        ⟨now, rfl⟩ | ⟨now, rfl⟩ | ⟨now, rfl⟩ | ⟨effect, -⟩
      · obtain ⟨record', held', later⟩ := ih (observe_held held now).2 keptRest unclearedRest
        exact ⟨record', held', Int.le_trans (record.nextEligible_le_observe t.limits now) later⟩
      · simp [Call.rebuilds] at calm
      · obtain ⟨granted, same⟩ := clear_held held now
        cases cleared : record.clear? t.limits now with
        | none =>
            rw [cleared, Option.none_or] at same
            exact ih same keptRest unclearedRest
        | some record' =>
            rw [granted, cleared] at ungranted
            cases ungranted
      · exact ih (by rw [get?_call, held, effect]) keptRest unclearedRest

/-- What is still tried waits until its record says that it may appear. -/
theorem backedOff_of_before {soon : Instant} (held : t.get? root action = some record)
    (active : record.state = .active) (early : soon.nanos < record.nextEligible.nanos)
    : (t.observe root action soon).1 = .backedOff := by
  rw [observe_outcome, held, Option.getD_some, TrackedAction.observe,
    if_neg (by rw [isFailed_eq_false.mpr active]; exact Bool.false_ne_true),
    if_pos (Instant.before_iff.mpr early)]

/-- The delay after an appearance that is counted, whatever calls were made before it. It follows
from the number of retries alone, and where it ends on a date the next appearance may be just then:
until then the action is told to wait as long as it is tried, through all calls that neither drop
nor clear its record nor start it over. The delay is the base delay doubled with every retry exactly
while the factor fits thirty-two bits, and beyond that only where the largest factor leads to the
bound or the base delay is none.
-/
theorem waits_until_due (limits : TrackerLimits) (calls : List Call) (root : String)
    (action : ResourceAction) (now : Instant) (dated : Instant.inRange now.nanos = true)
    (counted : ((after { limits } calls).observe root action now).1 = .attempt
      ∨ ((after { limits } calls).observe root action now).1 = .resetRoot
      ∨ ((after { limits } calls).observe root action now).1 = .failed)
    : let t := after { limits } (calls ++ [.observe root action now])
      ∃ record, ∃ n : Nat, t.get? root action = some record ∧ record.retries.toInt = n
        ∧ (limits.delay n = limits.doubled n
          ↔ n < 32 ∨ limits.baseBackoff.nanos = 0
            ∨ limits.maxBackoff.nanos ≤ limits.baseBackoff.nanos * (UInt32.size - 1))
        ∧ (Instant.inRange (now.nanos + limits.delay n) = true →
          record.nextEligible = ⟨now.nanos + limits.delay n⟩
          ∧ ∀ later : List Call,
              (∀ call ∈ later, call.keeps root action = true ∧ call.rebuilds root = false) →
              t.clearings root action later = 0 →
              ∃ record', (t.after later).get? root action = some record'
                ∧ (record'.state = .active →
                  ∀ soon : Instant, soon.nanos < now.nanos + limits.delay n →
                    ((t.after later).observe root action soon).1 = .backedOff)) := by
  intro t
  have same : (after { limits } calls).limits = limits := limits_after _ _
  have sound : ∀ old, (after { limits } calls).get? root action = some old → old.Sound limits :=
    sound_after fun old held => by simp [get?, records] at held
  have held : t.get? root action = some
      ((((after { limits } calls).get? root action).getD (.start limits.resetLimit now)).observe
        limits now).2 := by
    have last : t = (after { limits } calls).call (.observe root action now) := after_append ..
    rw [last, get?_call, Call.effect, if_pos ⟨rfl, rfl⟩, same]
  rw [observe_outcome, same] at counted
  obtain ⟨retries, next⟩ := retry_of_counted counted
  obtain ⟨n, number⟩ := retries_retry (sound_getD sound now).counted
  refine ⟨_, n, held, (congrArg Int64.toInt retries).trans number, limits.delay_eq_doubled_iff n,
    fun due => ?_⟩
  have due_at := next.trans (nextEligible_retry.trans (deadline_eq number dated due))
  refine ⟨due_at, fun later kept uncleared => ?_⟩
  obtain ⟨record', held', order⟩ := nextEligible_le_after held kept uncleared
  rw [due_at] at order
  exact ⟨record', held', fun active soon early =>
    backedOff_of_before held' active (Int.lt_of_lt_of_le early order)⟩

/-- Two counted appearances one after the other, then other calls, one of them too early. -/
theorem waits_until_due_twice
    : let limits : TrackerLimits := ⟨4, 4, ⟨10⟩, ⟨100⟩, 0⟩
      let creation : ResourceAction := ⟨.create, ⟨"a", ⟨["t1", "a"]⟩⟩⟩
      let deletion : ResourceAction := ⟨.delete, ⟨"b", ⟨["t1", "b"]⟩⟩⟩
      let calls : List Call :=
        [.observe "t1" creation ⟨0⟩, .observe "t1" creation ⟨10⟩,
          .observe "t1" creation ⟨30⟩]
      let later : List Call :=
        [.observe "t1" deletion ⟨60⟩, .observe "t1" creation ⟨69⟩,
          .clear "t1" creation ⟨69⟩, .resetRoot "t2" ⟨69⟩, .retainRoots ["t1"]]
      ((after { limits } calls).get? "t1" creation).map TrackedAction.nextEligible
          = some ⟨70⟩
        ∧ (∀ soon : Instant, soon.nanos < 70 →
            ((after { limits } (calls ++ later)).observe "t1" creation soon).1 = .backedOff)
        ∧ ((after { limits } (calls ++ later)).observe "t1" creation ⟨70⟩).1
            = .attempt := by
  intro limits creation deletion calls later
  obtain ⟨record, n, held, number, -, told⟩ :=
    waits_until_due limits (calls.take 2) "t1" creation ⟨30⟩ (by decide +kernel)
      (.inl (by decide +kernel))
  have third : ((after { limits } (calls.take 2 ++ [.observe "t1" creation ⟨30⟩])).get?
      "t1" creation).map (fun record => record.retries.toInt) = some 2 := by decide +kernel
  rw [held, Option.map_some, number, Option.some_inj] at third
  obtain rfl : n = 2 := Int.ofNat_inj.mp third
  obtain ⟨next, waits⟩ := told (by decide +kernel)
  obtain ⟨record', held', early⟩ := waits later (by decide +kernel) (by decide +kernel)
  have active : ((after { limits } (calls ++ later)).get? "t1" creation).map TrackedAction.state
      = some .active := by decide +kernel
  have same : after { limits } (calls ++ later)
      = (after { limits } (calls.take 2 ++ [.observe "t1" creation ⟨30⟩])).after later :=
    after_append _ calls later
  rw [same, held', Option.map_some, Option.some_inj] at active
  refine ⟨?_, fun soon before => ?_, by decide +kernel⟩
  · exact (congrArg (Option.map TrackedAction.nextEligible) held).trans (congrArg some next)
  · rw [same]
    exact early active soon before

/-- The delay does not double without end: after thirty-two retries with a base of one millisecond
and a bound that two to the thirty-second of them do not reach, the next appearance may be a
millisecond too early.
-/
theorem not_always_doubled
    : ¬ ∀ (c : ReconcilerConfig) (calls : List Call) (root : String) (action : ResourceAction)
        (now : Instant) (record : TrackedAction) (n : Nat),
        c.validate = .ok () →
        ((after { limits := c.trackerLimits } calls).observe root action now).1 = .attempt →
        (after { limits := c.trackerLimits } (calls ++ [.observe root action now])).get? root action
          = some record →
        record.retries.toInt = n →
        Instant.inRange (now.nanos + c.trackerLimits.doubled n) = true →
        record.nextEligible = ⟨now.nanos + c.trackerLimits.doubled n⟩ := by
  intro always
  let c : ReconcilerConfig :=
    { maxCreateRetry := 20, baseBackoff := .ofMillis 1, maxBackoff := .ofMillis (2 ^ 33) }
  let creation : ResourceAction := ⟨.create, ⟨"a", ⟨["t1", "a"]⟩⟩⟩
  let calls : List Call :=
    (List.range 32).map fun n => .observe "t1" creation (.ofMillis (2 ^ n - 1))
  let now : Instant := .ofMillis (2 ^ 32 - 1)
  have held : (after { limits := c.trackerLimits } (calls ++ [.observe "t1" creation now])).get?
      "t1" creation
      = some ⟨32, 40, .reset, .active, some now, ⟨8589934590000000⟩⟩ := by decide +kernel
  have next := always c calls "t1" creation now _ 32 rfl (by decide +kernel) held
    (by decide) (by decide +kernel)
  revert next
  decide +kernel

end Tracker

end Concord
