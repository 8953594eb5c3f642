import Concord.Proofs.Reconcile.Rungs
import Concord.Proofs.Reconcile.TrackerCalls

/-! The way of a record that is neither forgotten nor cleared, through calls about anything else and
at any times. Its appearances that do not come too early climb the ladder, one rung each: attempts
up to the first limit, a reset of the root, attempts up to the second limit, and then it is given
up for good.
-/

namespace Concord

variable {limits : TrackerLimits} {now later : Instant}

-----------------------------------------------------------------------------------------
-- Rungs at any time
-----------------------------------------------------------------------------------------

namespace TrackedAction

variable {r : TrackedAction} {escalation : Escalation} {limit : UInt32} {passes tries : Nat}

/-- A record that is tried at some time may be tried then, whatever the time is that its rung was
told for.
-/
theorem Climbs.at (h : r.Climbs escalation limit tries later)
    (tried : (r.observe limits now).1 ≠ .backedOff)
    : r.Climbs escalation limit tries now := by
  have due : r.nextEligible.nanos ≤ now.nanos := by
    have way := r.appears limits now
    generalize r.observe limits now = result at way tried
    cases way with
    | stillFailed failed => cases failed.symm.trans h.active
    | backedOff _ _ => exact absurd rfl tried
    | attempt _ due _ => simpa [Instant.before] using due
    | resetRoot _ due _ _ => simpa [Instant.before] using due
    | failed _ due _ _ => simpa [Instant.before] using due
  exact { h with due }

theorem Rung.at (h : Rung limits later passes r) (tried : (r.observe limits now).1 ≠ .backedOff)
    : Rung limits now passes r := by
  cases h with
  | first climbs => exact .first (climbs.at tried)
  | second climbs => exact .second (climbs.at tried)
  | givenUp failed => exact .givenUp failed

/-- How the record of an action stands after a number of appearances: unseen, on a rung, or
escalated and due for the reset of its root.
-/
inductive Stands (limits : TrackerLimits) : Nat → Bool → Option TrackedAction → Prop
  | unseen : Stands limits 0 false none
  | climbing {passes : Nat} {later : Instant} {r : TrackedAction}
    (rung : Rung limits later passes r)
    : Stands limits passes false (some r)
  | resetting {r : TrackedAction} (active : r.state = .active) (level : r.escalation = .purge)
    (bound : r.limit = limits.purgeLimit)
    : Stands limits (resetPass limits + 1) true (some r)

/-- Only what was given up stands above the last rung. -/
theorem Stands.failed {due : Bool} {record? : Option TrackedAction}
    (h : Stands limits passes due record?) (beyond : purgePass limits < passes)
    : ∃ record, record? = some record ∧ record.isFailed = true := by
  have order := resetPass_lt_purgePass limits
  cases h with
  | unseen => omega
  | @climbing _ _ record rung =>
      refine ⟨record, rfl, ?_⟩
      cases rung with
      | givenUp failed => exact failed
      | first climbs =>
          have within := climbs.within
          rw [purgePass] at beyond
          omega
      | second climbs =>
          have within := climbs.within
          rw [purgePass] at beyond
          omega
  | resetting _ _ _ => omega

/-- An appearance on a rung has the outcome of the rung and leads one rung on. -/
theorem Rung.stands (h : Rung limits now passes r)
    : (r.observe limits now).1 = onTheWay limits passes
      ∧ Stands limits (passes + 1) ((r.observe limits now).1 = .resetRoot)
          (some (r.observe limits now).2) := by
  have outcome := h.outcome
  refine ⟨outcome, ?_⟩
  by_cases reset : (r.observe limits now).1 = .resetRoot
  · obtain ⟨-, level, active, bound⟩ := escalation_of_resetRoot reset
    have last : passes = resetPass limits := onTheWay_eq_resetRoot.mp (outcome.symm.trans reset)
    rw [decide_eq_true reset, last]
    exact .resetting active level bound
  · have early : passes ≠ resetPass limits := fun last =>
      reset (outcome.trans (onTheWay_eq_resetRoot.mpr last))
    rw [decide_eq_false reset]
    -- Any time that is late enough will do.
    let later : Instant := ⟨now.nanos + limits.maxBackoff.nanos⟩
    have waited : now.nanos + limits.maxBackoff.nanos ≤ later.nanos := Int.le_refl _
    exact .climbing ((h.next waited).1 early)

end TrackedAction

-----------------------------------------------------------------------------------------
-- What happens to a record
-----------------------------------------------------------------------------------------

namespace Tracker

open TrackedAction

variable {t : Tracker} {root : String} {action : ResourceAction}

/-- What happens to the record of an action: it appears and is not told to wait, or its root is
reset.
-/
inductive Event where
  | appeared (outcome : TrackOutcome)
  | rebuilt
deriving DecidableEq

/-- What happens to the record of an action of a root in a call. -/
def event? (t : Tracker) (root : String) (action : ResourceAction) : Call → Option Event
  | .observe other action' now =>
      let outcome := (t.observe root action now).1
      if other = root ∧ action' = action ∧ outcome ≠ .backedOff then some (.appeared outcome)
      else none
  | .resetRoot other _ => if other = root then some .rebuilt else none
  | .forgetConverged _ _ | .forgetRoot _ | .retainRoots _ | .clear _ _ _ => none

/-- What happens to it in one call after another. -/
def story (t : Tracker) (root : String) (action : ResourceAction) : List Call → List Event
  | [] => []
  | call :: rest => (t.event? root action call).toList ++ (t.call call).story root action rest

/-- The outcomes of its appearances. -/
def outcomes (story : List Event) : List TrackOutcome :=
  story.filterMap fun
    | .appeared outcome => some outcome
    | .rebuilt => none

/-- The root is reset once each time the record asks for it, before it appears again, and never
else. At first a reset may be due.
-/
def timely : Bool → List Event → Bool
  | _, [] => true
  | due, .rebuilt :: rest => due && timely false rest
  | due, .appeared outcome :: rest => !due && timely (outcome = .resetRoot) rest

/-- The call neither drops the record of an action of a root nor clears it. -/
def Call.spares (root : String) (action : ResourceAction) : Call → Bool
  | .observe _ _ _ | .resetRoot _ _ => true
  | .forgetConverged other seen => other ≠ root ∨ action ∈ seen
  | .forgetRoot other => other ≠ root
  | .retainRoots roots => root ∈ roots
  | .clear other action' _ => other ≠ root ∨ action' ≠ action

/-- The call starts the records of a root over. -/
def Call.rebuilds (root : String) : Call → Bool
  | .resetRoot other _ => other = root
  | .observe _ _ _ | .forgetConverged _ _ | .forgetRoot _ | .retainRoots _ | .clear _ _ _ => false

/-- The call does not drop the record of an action of a root. -/
def Call.keeps (root : String) (action : ResourceAction) : Call → Bool
  | .observe _ _ _ | .resetRoot _ _ | .clear _ _ _ => true
  | .forgetConverged other seen => other ≠ root ∨ action ∈ seen
  | .forgetRoot other => other ≠ root
  | .retainRoots roots => root ∈ roots

-----------------------------------------------------------------------------------------
-- One call
-----------------------------------------------------------------------------------------

variable {limits : TrackerLimits} {passes : Nat} {due : Bool} {record? : Option TrackedAction}
  {r : TrackedAction}

/-- What is not seen before stands on the lowest rung as it appears. -/
theorem rung_of_stands (stands : Stands limits passes false record?)
    (h : record?.getD (.start limits.resetLimit now) = r)
    (tried : (r.observe limits now).1 ≠ .backedOff)
    : Rung limits now passes r := by
  subst h
  cases stands with
  | unseen => exact .first (climbs_start limits.resetLimit now)
  | climbing rung => exact rung.at tried

/-- What is told to wait or to stay away has a record, and the record stays as it is. What is told to
wait comes before its time.
-/
theorem get?_of_unchanged
    (h : (t.observe root action now).1 = .backedOff ∨ (t.observe root action now).1 = .stillFailed)
    : ∃ record, t.get? root action = some record
        ∧ (t.call (.observe root action now)).get? root action = some record
        ∧ ((t.observe root action now).1 = .backedOff →
            now.before record.nextEligible = true) := by
  rw [observe_outcome] at h ⊢
  rw [get?_call, Call.effect, if_pos ⟨rfl, rfl⟩]
  cases held : t.get? root action with
  | none =>
      rw [held, Option.getD_none, (climbs_start t.limits.resetLimit now).observe_eq] at h
      split at h <;> simp at h
  | some record =>
      rw [held, Option.getD_some] at h
      rw [Option.getD_some]
      refine ⟨record, rfl, congrArg some (observe_unchanged h), fun waits => ?_⟩
      have way := record.appears t.limits now
      generalize record.observe t.limits now = result at way waits
      cases way with
      | backedOff _ early => exact early
      | stillFailed _ => cases waits
      | attempt _ _ _ => cases waits
      | resetRoot _ _ _ _ => cases waits
      | failed _ _ _ _ => cases waits

/-- A call that spares a record and does not start it over is an appearance of its action, or
nothing happens to the record.
-/
theorem Call.effect_of_spares {call : Call} (spared : call.spares root action = true)
    (calm : call.rebuilds root = false) (record : TrackedAction)
    : (∃ now, call = .observe root action now)
      ∨ call.effect limits root action (some record) = some record
        ∧ ∀ t : Tracker, t.event? root action call = none := by
  cases call with
  | observe other action' now =>
      by_cases this : other = root ∧ action' = action
      · obtain ⟨rfl, rfl⟩ := this
        exact .inl ⟨now, rfl⟩
      · refine .inr ⟨by rw [effect, if_neg this], fun t => if_neg fun here => ?_⟩
        exact this ⟨here.1, here.2.1⟩
  | resetRoot other now =>
      have elsewhere : other ≠ root := by simpa [rebuilds] using calm
      exact .inr ⟨by rw [effect, if_neg elsewhere], fun t => if_neg elsewhere⟩
  | forgetConverged other seen =>
      exact .inr ⟨by rw [effect, if_neg (by grind [spares])], fun _ => rfl⟩
  | forgetRoot other =>
      exact .inr ⟨by rw [effect, if_neg (by simpa [spares] using spared)], fun _ => rfl⟩
  | retainRoots roots =>
      exact .inr ⟨by rw [effect, if_pos (by simpa [spares] using spared)], fun _ => rfl⟩
  | clear other action' now =>
      exact .inr ⟨by rw [effect, if_neg (by grind [spares])], fun _ => rfl⟩

/-- The call clears an action of a root that was given up. -/
def grants (t : Tracker) (root : String) (action : ResourceAction) : Call → Bool
  | .clear other action' now => other = root ∧ action' = action ∧ (t.clear root action now).1
  | .observe _ _ _ | .resetRoot _ _ | .forgetConverged _ _ | .forgetRoot _ | .retainRoots _ => false

/-- How often calls clear an action that was given up. -/
def clearings (t : Tracker) (root : String) (action : ResourceAction) : List Call → Nat
  | [] => 0
  | call :: rest => (t.grants root action call).toNat + (t.call call).clearings root action rest

/-- A call that keeps a record is an appearance of its action, a reset of its root or an attempt to
clear it, or nothing happens to the record.
-/
theorem Call.effect_of_keeps (limits : TrackerLimits) {call : Call}
    (kept : call.keeps root action = true) (r : TrackedAction)
    : (∃ now, call = .observe root action now) ∨ (∃ now, call = .resetRoot root now)
      ∨ (∃ now, call = .clear root action now)
      ∨ call.effect limits root action (some r) = some r
        ∧ ∀ t : Tracker, t.event? root action call = none ∧ t.grants root action call = false := by
  by_cases elsewhere : call.spares root action = true ∧ call.rebuilds root = false
  · obtain ⟨spared, calm⟩ := elsewhere
    have quiet (t : Tracker) : t.grants root action call = false := by
      cases call with
      | clear other action' now => grind [spares, grants]
      | observe _ _ _ => rfl
      | resetRoot _ _ => rfl
      | forgetConverged _ _ => rfl
      | forgetRoot _ => rfl
      | retainRoots _ => rfl
    rcases effect_of_spares spared calm r with appears | ⟨same, silent⟩
    · exact .inl appears
    · exact .inr (.inr (.inr ⟨same, fun t => ⟨silent t, quiet t⟩⟩))
  · cases call with
    | resetRoot other now =>
        have here : other = root := by simpa [spares, rebuilds] using elsewhere
        exact .inr (.inl ⟨now, by rw [here]⟩)
    | clear other action' now =>
        have this : other = root ∧ action' = action := by grind [spares, rebuilds]
        exact .inr (.inr (.inl ⟨now, by rw [this.1, this.2]⟩))
    | observe _ _ _ => exact absurd ⟨rfl, rfl⟩ elsewhere
    | forgetConverged _ _ => exact absurd ⟨kept, rfl⟩ elsewhere
    | forgetRoot _ => exact absurd ⟨kept, rfl⟩ elsewhere
    | retainRoots _ => exact absurd ⟨kept, rfl⟩ elsewhere

/-- Clearing succeeds just for what was given up. -/
theorem clear_fst (t : Tracker) (root : String) (action : ResourceAction) (now : Instant)
    : (t.clear root action now).1
      = ((t.get? root action).bind (·.clear? t.limits now)).isSome := by
  rw [clear, Records.clear?, get?]
  cases ((t.records root)[action]?).bind (·.clear? t.limits now) <;> rfl

theorem clear_eq_true_iff (t : Tracker) (root : String) (action : ResourceAction) (now : Instant)
    : (t.clear root action now).1 = true
      ↔ ∃ old, t.get? root action = some old ∧ old.state = .failed := by
  rw [clear_fst]
  cases t.get? root action with
  | none => simp
  | some old => cases state : old.state <;> simp [clear?, isFailed, state]

/-- What an appearance does to a record that is there. -/
theorem observe_held (held : t.get? root action = some r) (now : Instant)
    : t.event? root action (.observe root action now)
        = (if (r.observe t.limits now).1 = .backedOff then none
          else some (.appeared (r.observe t.limits now).1))
      ∧ (t.call (.observe root action now)).get? root action
        = some (r.observe t.limits now).2 := by
  constructor
  · rw [event?, observe_outcome, held, Option.getD_some]
    by_cases waits : (r.observe t.limits now).1 = .backedOff <;> simp [waits]
  · rw [get?_call, Call.effect, if_pos ⟨rfl, rfl⟩, held, Option.getD_some]

/-- What clearing does to a record that is there. -/
theorem clear_held (held : t.get? root action = some r) (now : Instant)
    : t.grants root action (.clear root action now) = (r.clear? t.limits now).isSome
      ∧ (t.call (.clear root action now)).get? root action
        = (r.clear? t.limits now).or (some r) := by
  constructor
  · simp [grants, clear_fst, held]
  · rw [get?_call, Call.effect, if_pos ⟨rfl, rfl⟩, held, Option.bind_some]

/-- What a reset of the root does to a record that is there. -/
theorem get?_resetRoot (held : t.get? root action = some r) (now : Instant)
    : (t.call (.resetRoot root now)).get? root action = r.afterReset? now := by
  rw [get?_call, Call.effect, if_pos rfl, held, Option.bind_some]

/-- A call that spares the record and is in time leads as many rungs on as it has outcomes, which is
one at most.
-/
theorem stands_call {call : Call} {rest : List Event}
    (stands : Stands t.limits passes due (t.get? root action))
    (spared : call.spares root action = true)
    (told : timely due ((t.event? root action call).toList ++ rest) = true)
    : ∃ more due', outcomes (t.event? root action call).toList
          = (List.range' passes more).map (onTheWay t.limits)
        ∧ timely due' rest = true
        ∧ Stands t.limits (passes + more) due' ((t.call call).get? root action) := by
  -- Nothing happens to the record in most calls.
  have idle (quiet : t.event? root action call = none)
      (same : (t.call call).get? root action = t.get? root action)
      : ∃ more due', outcomes (t.event? root action call).toList
            = (List.range' passes more).map (onTheWay t.limits)
          ∧ timely due' rest = true
          ∧ Stands t.limits (passes + more) due' ((t.call call).get? root action) := by
    rw [quiet, Option.toList_none, List.nil_append] at told
    rw [quiet, same]
    exact ⟨0, due, rfl, told, stands⟩
  have effect := get?_call t root action call
  cases call with
  | observe other action' now =>
      by_cases this : other = root ∧ action' = action
      · obtain ⟨rfl, rfl⟩ := this
        by_cases waits : (t.observe other action' now).1 = .backedOff
        · obtain ⟨record, held, kept, -⟩ := get?_of_unchanged (.inl waits)
          exact idle (by simp [event?, waits]) (kept.trans held.symm)
        · have appears : t.event? other action' (.observe other action' now)
              = some (.appeared (t.observe other action' now).1) := by
            simp [event?, waits]
          rw [appears, Option.toList_some, List.singleton_append, timely, Bool.and_eq_true,
            Bool.not_eq_true'] at told
          obtain ⟨rfl, told⟩ := told
          have rung := rung_of_stands stands rfl waits
          rw [appears, effect, Call.effect, if_pos ⟨rfl, rfl⟩]
          refine ⟨1, _, ?_, told, rung.stands.2⟩
          exact congrArg (fun outcome => [outcome]) rung.stands.1
      · refine idle ?_ (by rw [effect, Call.effect, if_neg this])
        exact if_neg fun here => this ⟨here.1, here.2.1⟩
  | resetRoot other now =>
      by_cases here : other = root
      · subst here
        have rebuilt : t.event? other action (.resetRoot other now) = some .rebuilt := by
          simp [event?]
        rw [rebuilt, Option.toList_some, List.singleton_append, timely, Bool.and_eq_true] at told
        obtain ⟨rfl, told⟩ := told
        rw [rebuilt, effect, Call.effect, if_pos rfl]
        refine ⟨0, false, rfl, told, ?_⟩
        generalize t.get? other action = record? at stands ⊢
        cases stands with
        | resetting active level bound =>
            obtain ⟨left, restarted⟩ := climbs_restart active level bound (Int.le_refl now.nanos)
            rw [Option.bind_some, left]
            exact .climbing (.second restarted)
      · exact idle (by simp [event?, here]) (by rw [effect, Call.effect, if_neg here])
  | forgetConverged other seen =>
      exact idle rfl (by rw [effect, Call.effect, if_neg (by grind [Call.spares])])
  | forgetRoot other =>
      exact idle rfl (by rw [effect, Call.effect, if_neg (by simpa [Call.spares] using spared)])
  | retainRoots roots =>
      exact idle rfl (by rw [effect, Call.effect, if_pos (by simpa [Call.spares] using spared)])
  | clear other action' now =>
      exact idle rfl (by rw [effect, Call.effect, if_neg (by grind [Call.spares])])

-----------------------------------------------------------------------------------------
-- One call after another
-----------------------------------------------------------------------------------------

theorem outcomes_append (story later : List Event)
    : outcomes (story ++ later) = outcomes story ++ outcomes later :=
  List.filterMap_append

/-- Calls lead as many rungs on as they have outcomes, by induction on the calls. -/
theorem stands_after {calls : List Call}
    (stands : Stands t.limits passes due (t.get? root action))
    (spared : ∀ call ∈ calls, call.spares root action = true)
    (told : timely due (t.story root action calls) = true)
    : ∃ more due', outcomes (t.story root action calls)
          = (List.range' passes more).map (onTheWay t.limits)
        ∧ Stands t.limits (passes + more) due' ((t.after calls).get? root action) := by
  induction calls generalizing t passes due with
  | nil => exact ⟨0, due, rfl, stands⟩
  | cons call rest ih =>
      obtain ⟨spared, sparedRest⟩ := List.forall_mem_cons.mp spared
      obtain ⟨more, due', outcome, told, stands⟩ := stands_call stands spared told
      rw [← limits_call t call] at stands
      obtain ⟨more', due'', outcomes', stands⟩ := ih stands sparedRest told
      rw [limits_call] at outcomes' stands
      refine ⟨more + more', due'', ?_, ?_⟩
      · rw [story, outcomes_append, outcome, outcomes', ← List.map_append, List.range'_append_1]
      · rwa [after_cons, ← Nat.add_assoc]

-----------------------------------------------------------------------------------------
-- The whole way
-----------------------------------------------------------------------------------------

/-- All outcomes up to a number of appearances after the last rung. -/
def way (limits : TrackerLimits) (more : Nat) : List TrackOutcome :=
  List.replicate limits.resetLimit.toNat .attempt ++ .resetRoot ::
    (List.replicate limits.purgeLimit.toNat .attempt ++ .failed ::
      List.replicate more .stillFailed)

theorem map_onTheWay_eq_replicate {start count : Nat} {outcome : TrackOutcome}
    (stage : ∀ passes, start ≤ passes → passes < start + count →
      onTheWay limits passes = outcome)
    : (List.range' start count).map (onTheWay limits) = List.replicate count outcome := by
  refine List.eq_replicate_iff.mpr ⟨by simp, fun b hb => ?_⟩
  obtain ⟨passes, within, rfl⟩ := List.mem_map.mp hb
  obtain ⟨low, high⟩ := List.mem_range'_1.mp within
  exact stage passes low high

/-- The stages of the way, one after the other. -/
theorem map_onTheWay (limits : TrackerLimits) (more : Nat)
    : (List.range' 0 (purgePass limits + 1 + more)).map (onTheWay limits) = way limits more := by
  have order := resetPass_lt_purgePass limits
  have reset : onTheWay limits (resetPass limits) = .resetRoot := onTheWay_eq_resetRoot.mpr rfl
  have given : onTheWay limits (purgePass limits) = .failed := onTheWay_eq_failed.mpr rfl
  have attempts : (List.range' 0 (resetPass limits)).map (onTheWay limits)
      = List.replicate limits.resetLimit.toNat .attempt :=
    map_onTheWay_eq_replicate fun passes _ below => by
      rw [onTheWay, if_neg (by omega), if_pos (by omega)]
  have retries : (List.range' (resetPass limits + 1) limits.purgeLimit.toNat).map (onTheWay limits)
      = List.replicate limits.purgeLimit.toNat .attempt :=
    map_onTheWay_eq_replicate fun passes above below => by
      rw [resetPass] at above below
      rw [onTheWay, resetPass, purgePass, if_neg (by omega), if_pos (by omega)]
  have still : (List.range' (purgePass limits + 1) more).map (onTheWay limits)
      = List.replicate more .stillFailed :=
    map_onTheWay_eq_replicate fun passes above _ => by
      rw [onTheWay, if_neg (by omega), if_neg (by omega), if_neg (by omega)]
  have split : purgePass limits + 1 + more
      = resetPass limits + (limits.purgeLimit.toNat + (more + 1) + 1) := by
    rw [resetPass, purgePass]
    omega
  have last : resetPass limits + 1 + limits.purgeLimit.toNat = purgePass limits := rfl
  rw [split, ← List.range'_append_1, Nat.zero_add, List.range'_succ, ← List.range'_append_1, last,
    List.range'_succ, List.map_append, List.map_cons, List.map_append, List.map_cons, attempts,
    reset, retries, given, still]
  rfl

/-- Fewer appearances see the first part of the way. -/
theorem map_onTheWay_prefix (limits : TrackerLimits) (more : Nat)
    : (List.range' 0 more).map (onTheWay limits) <+: way limits more := by
  rw [← map_onTheWay, Nat.add_comm, ← List.range'_append_1, List.map_append]
  exact List.prefix_append _ _

/-- The way of an action that has no record at first, through calls that neither drop its record nor
clear it and that reset its root when it asks for that. Whatever the limits and the times are and
whatever is done to other records, its appearances that are not told to wait are attempts up to the
first limit, a reset of the root, attempts up to the second limit and then a failure, and from then
on it is told to stay away at any time. What is told to wait or to stay away keeps its record as it
is, and what is told to wait comes before its time.
-/
theorem climbs_to_failure (t : Tracker) (root : String) (action : ResourceAction)
    (calls : List Call) (fresh : t.get? root action = none)
    (spared : ∀ call ∈ calls, call.spares root action = true)
    (told : timely false (t.story root action calls) = true)
    : outcomes (t.story root action calls)
        <+: way t.limits (outcomes (t.story root action calls)).length
      ∧ (.failed ∈ outcomes (t.story root action calls) →
          ∀ now, ((t.after calls).observe root action now).1 = .stillFailed)
      ∧ ∀ now, ((t.after calls).observe root action now).1 = .backedOff
            ∨ ((t.after calls).observe root action now).1 = .stillFailed →
          ∃ record, (t.after calls).get? root action = some record
            ∧ (t.after (calls ++ [.observe root action now])).get? root action = some record
            ∧ (((t.after calls).observe root action now).1 = .backedOff →
                now.before record.nextEligible = true) := by
  have stands : Stands t.limits 0 false (t.get? root action) := by
    rw [fresh]
    exact .unseen
  obtain ⟨more, due, seen, stands⟩ := stands_after stands spared told
  rw [Nat.zero_add] at stands
  refine ⟨?_, fun given now => ?_, fun now told => ?_⟩
  · rw [seen, List.length_map, List.length_range']
    exact map_onTheWay_prefix t.limits more
  · obtain ⟨passes, within, failed⟩ := List.mem_map.mp (seen ▸ given)
    have beyond : purgePass t.limits < more := by
      have below := (List.mem_range'_1.mp within).2
      have last := onTheWay_eq_failed.mp failed
      omega
    obtain ⟨record, held, failed⟩ := stands.failed beyond
    rw [observe_outcome, held, Option.getD_some, TrackedAction.observe, if_pos failed]
  · rw [after_append]
    exact get?_of_unchanged told

/-- The way of one creation with a limit of one attempt before and after the reset. It appears too
early once, and other records are cleared, dropped and reset in between.
-/
theorem climbs_to_failure_once_each
    : let limits : TrackerLimits := ⟨1, 1, ⟨10⟩, ⟨100⟩, 0⟩
      let creation : ResourceAction := ⟨.create, ⟨"a", ⟨["t1", "a"]⟩⟩⟩
      let deletion : ResourceAction := ⟨.delete, ⟨"b", ⟨["t1", "b"]⟩⟩⟩
      let calls : List Call :=
        [.observe "t1" deletion ⟨0⟩, .observe "t1" creation ⟨0⟩,
          .observe "t1" creation ⟨5⟩, .forgetConverged "t1" [creation],
          .resetRoot "t2" ⟨5⟩, .observe "t1" creation ⟨40⟩,
          .resetRoot "t1" ⟨50⟩, .clear "t1" deletion ⟨50⟩,
          .observe "t1" creation ⟨60⟩, .retainRoots ["t1"],
          .observe "t1" creation ⟨200⟩, .forgetRoot "t2", .observe "t1" creation ⟨0⟩]
      (outcomes (story { limits } "t1" creation calls)
          = [.attempt, .resetRoot, .attempt, .failed, .stillFailed]
        ∧ outcomes (story { limits } "t1" creation calls) <+: way limits 5)
      ∧ ∀ now, ((after { limits } calls).observe "t1" creation now).1 = .stillFailed
          ∧ ∃ record, (after { limits } calls).get? "t1" creation = some record
            ∧ (after { limits } (calls ++ [.observe "t1" creation now])).get? "t1" creation
                = some record := by
  intro limits creation deletion calls
  obtain ⟨climbed, stays, kept⟩ := climbs_to_failure { limits } "t1" creation calls
    (by decide +kernel) (by decide +kernel) (by decide +kernel)
  have seen : outcomes (story { limits } "t1" creation calls)
      = [.attempt, .resetRoot, .attempt, .failed, .stillFailed] := by decide +kernel
  rw [seen] at climbed stays ⊢
  refine ⟨⟨rfl, climbed⟩, fun now => ?_⟩
  have stillFailed := stays (by decide) now
  obtain ⟨record, held, same, -⟩ := kept now (.inr stillFailed)
  exact ⟨stillFailed, record, held, same⟩

end Tracker

end Concord
