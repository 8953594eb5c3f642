import Concord.Proofs.Reconcile.TrackerLadder

/-! The rounds of attempts of an action that was given up and cleared by hand. Its limit is raised
by a margin each time, as far as thirty-two bits go, but its retries are not started over. So a
round is one attempt shorter than the margin, and it ends as the action is given up again. Only a
reset of the root within a round starts the retries over, and then the round goes on up to the
raised limit.
-/

namespace Concord

variable {limits : TrackerLimits} {now : Instant}

-----------------------------------------------------------------------------------------
-- Raised limits
-----------------------------------------------------------------------------------------

/-- A limit after it was raised a number of times. -/
def TrackerLimits.raised (limits : TrackerLimits) (limit times : Nat) : Nat :=
  min (limit + times * limits.failedRetryMargin.toNat) (UInt32.size - 1)

theorem TrackerLimits.raised_zero (limits : TrackerLimits) (limit : UInt32)
    : limits.raised limit.toNat 0 = limit.toNat := by
  rw [raised, Nat.zero_mul]
  exact Nat.min_eq_left (Nat.le_sub_one_of_lt limit.toNat_lt)

theorem TrackerLimits.le_raised (limits : TrackerLimits) (limit : UInt32) (times : Nat)
    : limit.toNat ≤ limits.raised limit.toNat times := by
  have small := limit.toNat_lt
  rw [raised, UInt32.size]
  omega

theorem TrackerLimits.raised_raised (limits : TrackerLimits) (limit first second : Nat)
    : limits.raised (limits.raised limit first) second = limits.raised limit (first + second) := by
  rw [raised, raised, raised, Nat.add_mul]
  generalize first * limits.failedRetryMargin.toNat = a
  generalize second * limits.failedRetryMargin.toNat = b
  omega

-----------------------------------------------------------------------------------------
-- One record
-----------------------------------------------------------------------------------------

namespace TrackedAction

variable {r : TrackedAction} {limit left : Nat}

/-- A record that was given up. It has as many retries as its limit says, or more where the limit
cannot be raised any further.
-/
structure Exhausted (limits : TrackerLimits) (limit : Nat) (r : TrackedAction) : Prop where
  failed : r.state = .failed
  level : r.escalation = .purge
  bound : r.limit.toNat = limit
  spent : r.retries.toInt = limit ∨ limit < r.retries.toInt ∧ limits.raised limit 1 = limit

/-- A record that is tried again, with a number of attempts left before it is given up. -/
structure Granted (limits : TrackerLimits) (limit left : Nat) (r : TrackedAction) : Prop where
  active : r.state = .active
  level : r.escalation = .purge
  bound : r.limit.toNat = limit
  left : r.retries.toInt + 1 + left = limit
    ∨ left = 0 ∧ limit ≤ r.retries.toInt ∧ limits.raised limit 1 = limit

/-- A record in some round of attempts. -/
inductive Tried (limits : TrackerLimits) (limit : Nat) (r : TrackedAction) : Prop
  | exhausted (exhausted : r.Exhausted limits limit)
  | granted {left : Nat} (granted : r.Granted limits limit left)

theorem Tried.bound (h : r.Tried limits limit) : r.limit.toNat = limit := by
  cases h with
  | exhausted h => exact h.bound
  | granted h => exact h.bound

/-- The counter leaves behind a limit that it has reached, even if it is full. -/
theorem lt_increment {n : Int64} (h : limit ≤ n.toInt) (small : limit < UInt32.size)
    : limit < (increment n).toInt := by
  rw [UInt32.size] at small
  rw [toInt_increment_eq, Int64.toInt_maxValue]
  omega

/-- An appearance is too much if it leaves no retry below the limit. -/
theorem exceeded_retry (bound : r.limit.toNat = limit)
    : (r.retry limits now).exceeded = true
      ↔ limit < (increment (increment r.retries)).toInt := by
  subst bound
  exact decide_eq_true_iff

/-- An attempt that is left is used up by the next appearance. -/
theorem Granted.attempt (h : r.Granted limits limit (left + 1))
    (tried : (r.observe limits now).1 ≠ .backedOff)
    : (r.observe limits now).1 = .attempt
      ∧ (r.observe limits now).2.Granted limits limit left := by
  have counted : r.retries.toInt + 1 + (left + 1) = limit := by
    rcases h.left with counted | ⟨none, -⟩
    · exact counted
    · cases none
  have small : r.limit.toNat < 4294967296 := r.limit.toNat_lt
  rw [h.bound] at small
  have once : (increment r.retries).toInt = r.retries.toInt + 1 :=
    toInt_increment (by rw [Int64.toInt_maxValue]; omega)
  have twice : (increment (increment r.retries)).toInt = r.retries.toInt + 1 + 1 := by
    rw [toInt_increment (by rw [Int64.toInt_maxValue]; omega), once]
  have within : (r.retry limits now).exceeded ≠ true := by
    rw [Ne, exceeded_retry h.bound, twice]
    omega
  have way := r.appears limits now
  generalize r.observe limits now = result at way tried ⊢
  cases way with
  | stillFailed failed => cases failed.symm.trans h.active
  | backedOff _ _ => exact absurd rfl tried
  | attempt _ _ _ =>
      refine ⟨rfl, h.active, h.level, h.bound, .inl ?_⟩
      have counter : (r.retry limits now).retries.toInt = r.retries.toInt + 1 := once
      rw [counter]
      omega
  | resetRoot _ _ beyond _ => exact absurd beyond within
  | failed _ _ beyond _ => exact absurd beyond within

/-- Where no attempt is left the next appearance ends the round. -/
theorem Granted.fail (h : r.Granted limits limit 0)
    (tried : (r.observe limits now).1 ≠ .backedOff)
    : (r.observe limits now).1 = .failed ∧ (r.observe limits now).2.Exhausted limits limit := by
  have small : r.limit.toNat < UInt32.size := r.limit.toNat_lt
  rw [h.bound] at small
  have spent : (increment r.retries).toInt = limit
      ∨ limit < (increment r.retries).toInt ∧ limits.raised limit 1 = limit := by
    rcases h.left with last | ⟨-, beyond, full⟩
    · rw [UInt32.size] at small
      exact .inl (by rw [toInt_increment (by rw [Int64.toInt_maxValue]; omega)]; omega)
    · exact .inr ⟨lt_increment beyond small, full⟩
  have beyond : (r.retry limits now).exceeded = true :=
    (exceeded_retry h.bound).mpr (lt_increment (by omega) small)
  have way := r.appears limits now
  generalize r.observe limits now = result at way tried ⊢
  cases way with
  | stillFailed failed => cases failed.symm.trans h.active
  | backedOff _ _ => exact absurd rfl tried
  | attempt _ _ within => cases within.symm.trans beyond
  | resetRoot _ _ _ level => cases level.symm.trans h.level
  | failed _ _ _ _ => exact ⟨rfl, rfl, h.level, h.bound, spent⟩

/-- What was given up stays so, whenever it appears. -/
theorem Exhausted.observe_eq (h : r.Exhausted limits limit) (now : Instant)
    : r.observe limits now = (.stillFailed, r) := by
  rw [observe, if_pos (by simp [isFailed, h.failed])]

/-- A reset of the root leaves what was given up as it is. -/
theorem Exhausted.afterReset (h : r.Exhausted limits limit) (now : Instant)
    : r.afterReset? now = some r := by
  rw [afterReset?, h.level]
  simp [isFailed, h.failed]

/-- A reset of the root within a round starts the retries over, but not the limit. -/
theorem Granted.restart (h : r.Granted limits limit left) (now : Instant)
    : r.afterReset? now = some (r.restart now)
      ∧ (r.restart now).Granted limits limit limit := by
  refine ⟨?_, h.active, h.level, h.bound, .inl ?_⟩
  · rw [afterReset?, h.level]
    simp [isFailed, h.active]
  · simp [TrackedAction.restart]

/-- Clearing by hand begins a round that is one attempt shorter than what the limit is raised by. -/
theorem Exhausted.clear (h : r.Exhausted limits limit) (time : Instant)
    : ∃ cleared, r.clear? limits time = some cleared ∧ cleared.nextEligible = time
        ∧ cleared.Granted limits (limits.raised limit 1)
            (max (limits.raised limit 1 - limit) 1 - 1) := by
  have grows : limit ≤ limits.raised limit 1 := h.bound ▸ limits.le_raised r.limit 1
  refine ⟨_, if_pos (decide_eq_true h.failed), rfl, rfl, h.level, ?_, ?_⟩
  · rw [toNat_saturatingAdd, h.bound, TrackerLimits.raised, Nat.one_mul]
  · have same : limits.raised limit 1 = limit →
        limits.raised (limits.raised limit 1) 1 = limits.raised limit 1 := fun full => by
      rw [full, full]
    have spent := h.spent
    dsimp only
    by_cases full : limits.raised limit 1 = limit
    · refine .inr ⟨by omega, by omega, same full⟩
    · refine .inl ?_
      omega

/-- What is still tried cannot be cleared. -/
theorem Granted.clear (h : r.Granted limits limit left) (time : Instant)
    : r.clear? limits time = none := by
  rw [clear?, if_neg (by simp [isFailed, h.active])]

/-- What has just been given up at its limit is exhausted. -/
theorem exhausted_of_failed (given : (r.observe limits now).1 = .failed)
    (first : (r.observe limits now).2.retries.toInt = (r.observe limits now).2.limit.toNat)
    : (r.observe limits now).2.Exhausted limits (r.observe limits now).2.limit.toNat := by
  have way := r.appears limits now
  generalize r.observe limits now = result at way given first ⊢
  cases way with
  | stillFailed _ => cases given
  | backedOff _ _ => cases given
  | attempt _ _ _ => cases given
  | resetRoot _ _ _ _ => cases given
  | failed _ _ _ level => exact ⟨rfl, level, rfl, .inl first⟩

/-- An appearance leaves a record in its round or ends the round. -/
theorem Tried.observe (h : r.Tried limits limit) (now : Instant)
    : (r.observe limits now).2.Tried limits limit := by
  cases h with
  | exhausted h =>
      rw [h.observe_eq now]
      exact .exhausted h
  | @granted left h =>
      by_cases waits : (r.observe limits now).1 = .backedOff
      · rw [observe_unchanged (.inl waits)]
        exact .granted h
      · cases left with
        | zero => exact .exhausted (h.fail waits).2
        | succ left => exact .granted (h.attempt waits).2

/-- A reset of the root drops no record of a round. -/
theorem Tried.afterReset (h : r.Tried limits limit) (now : Instant)
    : ∃ left, r.afterReset? now = some left ∧ left.Tried limits limit := by
  cases h with
  | exhausted h => exact ⟨r, h.afterReset now, .exhausted h⟩
  | granted h => exact ⟨_, (h.restart now).1, .granted (h.restart now).2⟩

end TrackedAction

-----------------------------------------------------------------------------------------
-- One call
-----------------------------------------------------------------------------------------

namespace Tracker

open TrackedAction

variable {t : Tracker} {root : String} {action : ResourceAction} {r : TrackedAction}
  {limit left : Nat}

/-- A call that keeps a record leaves it in some round. Its limit is raised if the call clears it.
-/
theorem tried_call {call : Call} (held : t.get? root action = some r) (h : r.Tried t.limits limit)
    (kept : call.keeps root action = true)
    : ∃ r', (t.call call).get? root action = some r'
        ∧ r'.Tried t.limits (t.limits.raised limit (t.grants root action call).toNat) := by
  have small : limit < UInt32.size := h.bound ▸ r.limit.toNat_lt
  have same : t.limits.raised limit false.toNat = limit := by
    rw [TrackerLimits.raised, Bool.toNat_false, Nat.zero_mul, UInt32.size]
    rw [UInt32.size] at small
    omega
  rcases Call.effect_of_keeps t.limits kept r with
    ⟨now, rfl⟩ | ⟨now, rfl⟩ | ⟨now, rfl⟩ | ⟨effect, quiet⟩
  · exact ⟨_, (observe_held held now).2, same.symm ▸ h.observe now⟩
  · obtain ⟨left, left_eq, tried⟩ := h.afterReset now
    exact ⟨left, (get?_resetRoot held now).trans left_eq, same.symm ▸ tried⟩
  · obtain ⟨granted, cleared⟩ := clear_held held now
    rw [granted, cleared]
    cases h with
    | exhausted h =>
        obtain ⟨r', cleared, -, round⟩ := h.clear now
        rw [cleared]
        exact ⟨r', rfl, .granted round⟩
    | granted h =>
        rw [h.clear now]
        exact ⟨r, rfl, same.symm ▸ .granted h⟩
  · refine ⟨r, ?_, ?_⟩
    · rw [get?_call, held, effect]
    · rw [(quiet t).2, same]
      exact h

-----------------------------------------------------------------------------------------
-- One call after another
-----------------------------------------------------------------------------------------

/-- Calls that keep a record leave it in some round. Its limit is raised as often as it is cleared,
by induction on the calls.
-/
theorem tried_after {calls : List Call} (held : t.get? root action = some r)
    (h : r.Tried t.limits (t.limits.raised limit 0))
    (kept : ∀ call ∈ calls, call.keeps root action = true)
    : ∃ r', (t.after calls).get? root action = some r'
        ∧ r'.Tried t.limits (t.limits.raised limit (t.clearings root action calls)) := by
  induction calls generalizing t r limit with
  | nil => exact ⟨r, held, h⟩
  | cons call rest ih =>
      obtain ⟨keptCall, keptRest⟩ := List.forall_mem_cons.mp kept
      obtain ⟨r', held', next⟩ := tried_call held h keptCall
      rw [← limits_call t call, TrackerLimits.raised_raised, Nat.zero_add,
        ← Nat.add_zero (Bool.toNat _), ← TrackerLimits.raised_raised] at next
      obtain ⟨r'', held'', last⟩ := ih held' next keptRest
      rw [TrackerLimits.raised_raised, limits_call] at last
      exact ⟨r'', held'', last⟩

/-- The outcomes of a round with a number of attempts, up to a number of appearances after it. -/
def round (attempts more : Nat) : List TrackOutcome :=
  List.replicate attempts .attempt ++ .failed :: List.replicate more .stillFailed

/-- What was given up is told to stay away until it is cleared, by induction on the calls. -/
theorem outcomes_of_exhausted {calls : List Call} (held : t.get? root action = some r)
    (h : r.Exhausted t.limits limit) (kept : ∀ call ∈ calls, call.keeps root action = true)
    (uncleared : t.clearings root action calls = 0)
    : (∃ more, outcomes (t.story root action calls) = List.replicate more .stillFailed)
      ∧ (t.after calls).get? root action = some r := by
  induction calls generalizing t with
  | nil => exact ⟨⟨0, rfl⟩, held⟩
  | cons call rest ih =>
      obtain ⟨keptCall, keptRest⟩ := List.forall_mem_cons.mp kept
      obtain ⟨ungranted, unclearedRest⟩ := Nat.add_eq_zero_iff.mp uncleared
      have next (left : (t.call call).get? root action = some r) :=
        ih left (by rw [limits_call]; exact h) keptRest unclearedRest
      rw [story, outcomes_append]
      rcases Call.effect_of_keeps t.limits keptCall r with
        ⟨now, rfl⟩ | ⟨now, rfl⟩ | ⟨now, rfl⟩ | ⟨effect, quiet⟩
      · obtain ⟨event, left⟩ := observe_held held now
        rw [h.observe_eq] at event left
        obtain ⟨⟨more, seen⟩, last⟩ := next left
        refine ⟨⟨more + 1, ?_⟩, last⟩
        rw [event, seen]
        rfl
      · obtain ⟨⟨more, seen⟩, last⟩ := next ((get?_resetRoot held now).trans (h.afterReset now))
        refine ⟨⟨more, ?_⟩, last⟩
        rw [seen]
        simp [event?, outcomes]
      · obtain ⟨granted, -⟩ := clear_held held now
        obtain ⟨r', cleared, -⟩ := h.clear now
        rw [granted, cleared] at ungranted
        cases ungranted
      · obtain ⟨⟨more, seen⟩, last⟩ := next (by rw [get?_call, held, effect])
        refine ⟨⟨more, ?_⟩, last⟩
        rw [seen, (quiet t).1]
        rfl

/-- The attempts that are left follow one another, then the action is given up and told to stay
away, by induction on the calls.
-/
theorem outcomes_of_granted {calls : List Call} (held : t.get? root action = some r)
    (h : r.Granted t.limits limit left)
    (kept : ∀ call ∈ calls, call.keeps root action = true ∧ call.rebuilds root = false)
    (uncleared : t.clearings root action calls = 0)
    : ∃ more, outcomes (t.story root action calls) <+: round left more := by
  induction calls generalizing t r left with
  | nil => exact ⟨0, List.nil_prefix⟩
  | cons call rest ih =>
      obtain ⟨⟨keptCall, calm⟩, keptRest⟩ := List.forall_mem_cons.mp kept
      have unclearedRest := (Nat.add_eq_zero_iff.mp uncleared).2
      -- Where nothing happens to the record the round goes on as it is.
      have idle (quiet : t.event? root action call = none)
          (same : (t.call call).get? root action = some r)
          : ∃ more, outcomes (t.story root action (call :: rest)) <+: round left more := by
        rw [story, quiet]
        exact ih same (by rw [limits_call]; exact h) keptRest unclearedRest
      rcases Call.effect_of_keeps t.limits keptCall r with
        ⟨now, rfl⟩ | ⟨now, rfl⟩ | ⟨now, rfl⟩ | ⟨effect, quiet⟩
      · obtain ⟨event, next⟩ := observe_held held now
        by_cases waits : (r.observe t.limits now).1 = .backedOff
        · rw [observe_unchanged (.inl waits)] at next
          exact idle (event.trans (if_pos waits)) next
        · rw [if_neg waits] at event
          rw [story, event, outcomes_append]
          cases left with
          | zero =>
              obtain ⟨outcome, ended⟩ := h.fail waits
              obtain ⟨⟨more, seen⟩, -⟩ := outcomes_of_exhausted next
                (by rw [limits_call]; exact ended) (fun call mem => (keptRest call mem).1)
                unclearedRest
              refine ⟨more, ?_⟩
              rw [seen, outcome]
              exact List.prefix_refl _
          | succ left =>
              obtain ⟨outcome, fewer⟩ := h.attempt waits
              obtain ⟨more, seen⟩ :=
                ih next (by rw [limits_call]; exact fewer) keptRest unclearedRest
              refine ⟨more, ?_⟩
              rw [outcome, round, List.replicate_succ]
              exact List.prefix_append_right_inj _ |>.mpr seen
      · simp [Call.rebuilds] at calm
      · refine idle rfl ((clear_held held now).2.trans ?_)
        rw [h.clear now, Option.none_or]
      · exact idle (quiet t).1 (by rw [get?_call, held, effect])

-----------------------------------------------------------------------------------------
-- After clearing
-----------------------------------------------------------------------------------------

/-- Where the root is reset within a round, the next one has as many attempts as the limit says. -/
theorem outcomes_after_reset {calls later : List Call} (held : t.get? root action = some r)
    (h : r.Granted t.limits (t.limits.raised limit 0) left)
    (kept : ∀ call ∈ calls, call.keeps root action = true)
    (uncleared : t.clearings root action calls = 0)
    (active : ∀ last, (t.after calls).get? root action = some last → last.state = .active)
    (reset : Instant)
    (keptLater : ∀ call ∈ later, call.keeps root action = true ∧ call.rebuilds root = false)
    (unclearedLater :
      (t.after (calls ++ [.resetRoot root reset])).clearings root action later = 0)
    : ∃ more, outcomes ((t.after (calls ++ [.resetRoot root reset])).story root action later)
        <+: round (t.limits.raised limit 0) more := by
  obtain ⟨last, held', tried⟩ := tried_after held (.granted h) kept
  rw [uncleared] at tried
  cases tried with
  | exhausted h' => cases (active last held').symm.trans h'.failed
  | granted h' =>
      obtain ⟨restart, again⟩ := h'.restart reset
      have held'' : (t.after (calls ++ [.resetRoot root reset])).get? root action
          = some (last.restart reset) := by
        rw [after_append]
        exact (get?_resetRoot held' reset).trans restart
      exact outcomes_of_granted held'' (by rw [limits_after]; exact again) keptLater unclearedLater

/-- What follows when an action is cleared that was given up at its limit, whatever calls that keep
its record were made since then. Clearing succeeds just for what is given up at that time, raises
the limit for good and makes the action due. The round that begins has one attempt less than the
limit was raised by, or none, and then the action is given up and told to stay away: its root is not
reset again. If the root is reset within the round, the round that begins then has as many attempts
as the raised limit says.
-/
theorem round_after_clear {record : TrackedAction} {now : Instant}
    (given : (t.observe root action now).1 = .failed)
    (held : (t.call (.observe root action now)).get? root action = some record)
    (first : record.retries.toInt = record.limit.toNat) {earlier : List Call}
    (kept : ∀ call ∈ earlier, call.keeps root action = true) (time : Instant)
    : let u := (t.call (.observe root action now)).after earlier
      let v := u.call (.clear root action time)
      ∃ old, u.get? root action = some old
        ∧ old.limit.toNat = t.limits.raised record.limit.toNat
            ((t.call (.observe root action now)).clearings root action earlier)
        ∧ ((u.clear root action time).1 = true ↔ old.state = .failed)
        ∧ (old.state = .failed →
            let limit := old.limit.toNat
            let d := t.limits.raised limit 1 - limit
            (∃ cleared, v.get? root action = some cleared ∧ cleared.state = .active
              ∧ cleared.nextEligible = time)
            ∧ ∀ calls : List Call,
                (∀ call ∈ calls, call.keeps root action = true ∧ call.rebuilds root = false) →
                v.clearings root action calls = 0 →
                (∃ more, outcomes (v.story root action calls) <+: round (max d 1 - 1) more)
                ∧ ((∀ last, (v.after calls).get? root action = some last → last.state = .active) →
                    ∀ (reset : Instant) (later : List Call),
                      let w := v.after (calls ++ [.resetRoot root reset])
                      (∀ call ∈ later, call.keeps root action = true ∧ call.rebuilds root = false) →
                      w.clearings root action later = 0 →
                      ∃ more,
                        outcomes (w.story root action later) <+: round (limit + d) more)) := by
  intro u v
  have limits_u : u.limits = t.limits := (limits_after _ _).trans (limits_call _ _)
  have limits_v : v.limits = t.limits := (limits_call _ _).trans limits_u
  have exhausted : record.Exhausted t.limits record.limit.toNat := by
    rw [get?_call, Call.effect, if_pos ⟨rfl, rfl⟩, Option.some_inj] at held
    subst held
    exact exhausted_of_failed given first
  obtain ⟨old, held_u, tried⟩ := tried_after held
    (by rw [limits_call, TrackerLimits.raised_zero]; exact .exhausted exhausted) kept
  rw [limits_call] at tried
  refine ⟨old, held_u, tried.bound, ?_, fun failed => ?_⟩
  · rw [clear_eq_true_iff, held_u]
    simp
  have ended : old.Exhausted u.limits old.limit.toNat := by
    rw [tried.bound, limits_u]
    cases tried with
    | exhausted h => exact h
    | granted h => cases failed.symm.trans h.active
  obtain ⟨cleared, cleared_eq, due, granted⟩ := ended.clear time
  have held_v : v.get? root action = some cleared := by
    rw [(clear_held held_u time).2, cleared_eq, Option.some_or]
  rw [limits_u, ← limits_v] at granted
  refine ⟨⟨cleared, held_v, granted.active, due⟩, fun calls keptCalls uncleared => ?_⟩
  rw [← limits_v, Nat.add_sub_cancel' (v.limits.le_raised old.limit 1)]
  refine ⟨outcomes_of_granted held_v granted keptCalls uncleared, ?_⟩
  intro active reset later w keptLater unclearedLater
  have same : v.limits.raised (v.limits.raised old.limit.toNat 1) 0
      = v.limits.raised old.limit.toNat 1 := v.limits.raised_raised _ 1 0
  rw [← same] at granted
  have round := outcomes_after_reset held_v granted (fun call mem => (keptCalls call mem).1)
    uncleared active reset keptLater unclearedLater
  rwa [same] at round

/-- An action is cleared twice. The first round runs to its end, within the second one the root is
reset.
-/
theorem round_after_clear_twice
    : let limits : TrackerLimits := ⟨1, 1, ⟨0⟩, ⟨0⟩, 3⟩
      let creation : ResourceAction := ⟨.create, ⟨"a", ⟨["t1", "a"]⟩⟩⟩
      let now : Instant := ⟨0⟩
      let appear : Call := .observe "t1" creation now
      let t : Tracker := after { limits } [appear, appear, .resetRoot "t1" now, appear]
      let u : Tracker :=
        (t.call appear).after [appear, .clear "t1" creation now, appear, appear, appear, appear]
      let v : Tracker := u.call (.clear "t1" creation now)
      let w : Tracker := v.after [appear, .retainRoots ["t1"], .resetRoot "t1" now]
      (u.clear "t1" creation now).1 = true
        ∧ (∃ more, outcomes (v.story "t1" creation [appear, appear, .resetRoot "t2" now, appear])
            <+: round 2 more)
        ∧ (∃ more, outcomes (w.story "t1" creation (List.replicate 9 appear)) <+: round 7 more)
        ∧ outcomes (w.story "t1" creation (List.replicate 9 appear)) = round 7 1 := by
  intro limits creation now appear t u v w
  have given : (t.observe "t1" creation now).1 = .failed := by decide +kernel
  have first : (t.call appear).get? "t1" creation
      = some ⟨1, 1, .purge, .failed, some now, now⟩ := by decide +kernel
  have kept : ∀ call ∈ [appear, .clear "t1" creation now, appear, appear, appear, appear],
      Call.keeps "t1" creation call = true := by decide +kernel
  obtain ⟨old, held, raised, cleared, told⟩ := round_after_clear given first (by decide) kept now
  have again : (u.clear "t1" creation now).1 = true := by decide +kernel
  have four : old.limit.toNat = 4 := raised.trans (by decide +kernel)
  obtain ⟨-, rounds⟩ := told (cleared.mp again)
  rw [four] at rounds
  refine ⟨again, (rounds _ (by decide +kernel) (by decide +kernel)).1, ?_, by decide +kernel⟩
  obtain ⟨-, reset⟩ := rounds [appear, .retainRoots ["t1"]] (by decide +kernel) (by decide +kernel)
  refine reset (fun last held => ?_) now _ (by decide +kernel) (by decide +kernel)
  have active : ((v.after [appear, .retainRoots ["t1"]]).get? "t1" creation).map TrackedAction.state
      = some .active := by decide +kernel
  rw [held] at active
  exact Option.some_inj.mp active

end Tracker

end Concord
