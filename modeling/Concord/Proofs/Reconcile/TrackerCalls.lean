import Concord.Proofs.Reconcile.Appearances
import Concord.Proofs.Reconcile.Ledgers
import Concord.Proofs.Reconcile.Sorting

/-! Calls to the tracker in any order and at any times, as the record of one action sees them. Calls
about other roots and actions leave it alone, so what a sequence of calls does to it follows from
what each call does to one record.
-/

namespace Concord

namespace Tracker

/-- A call to the tracker. -/
inductive Call where
  | observe (root : String) (action : ResourceAction) (now : Instant)
  | forgetConverged (root : String) (seen : List ResourceAction)
  | resetRoot (root : String) (now : Instant)
  | forgetRoot (root : String)
  | retainRoots (roots : List String)
  | clear (root : String) (action : ResourceAction) (now : Instant)
deriving DecidableEq

/-- The tracker after a call. -/
def call (t : Tracker) : Call → Tracker
  | .observe root action now => (t.observe root action now).2
  | .forgetConverged root seen => t.forgetConverged root seen
  | .resetRoot root now => t.resetRoot root now
  | .forgetRoot root => t.forgetRoot root
  | .retainRoots roots => t.retainRoots roots
  | .clear root action now => (t.clear root action now).2

/-- The tracker after calls, the first one first. -/
def after (t : Tracker) (calls : List Call) : Tracker :=
  calls.foldl call t

/-- What a call makes of the record of an action of a root, if there is one. -/
def Call.effect (limits : TrackerLimits) (root : String) (action : ResourceAction)
    (record? : Option TrackedAction) : Call → Option TrackedAction
  | .observe other action' now =>
      if other = root ∧ action' = action then
        some ((record?.getD (.start limits.resetLimit now)).observe limits now).2
      else record?
  | .forgetConverged other seen => if other = root ∧ action ∉ seen then none else record?
  | .resetRoot other now => if other = root then record?.bind (·.afterReset? now) else record?
  | .forgetRoot other => if other = root then none else record?
  | .retainRoots roots => if root ∈ roots then record? else none
  | .clear other action' now =>
      if other = root ∧ action' = action then (record?.bind (·.clear? limits now)).or record?
      else record?

variable {limits : TrackerLimits} {t : Tracker} {root : String} {action : ResourceAction}
  {now : Instant}

theorem limits_call (t : Tracker) (call : Call) : (t.call call).limits = t.limits := by
  cases call with
  | clear other action' now =>
      rw [Tracker.call, clear]
      split <;> rfl
  | observe _ _ _ => rfl
  | forgetConverged _ _ => rfl
  | resetRoot _ _ => rfl
  | forgetRoot _ => rfl
  | retainRoots _ => rfl

/-- A tracker with other records for a root has these records for its actions. -/
theorem get?_setRecords (t : Tracker) (other : String) (records : Records)
    : (t.setRecords other records).get? root action
      = if other = root then records[action]? else t.get? root action := by
  rw [get?, records_setRecords]
  by_cases same : root = other
  · subst same
    simp
  · rw [if_neg same, if_neg (Ne.symm same), get?]

/-- Clearing changes the record of its action if that was given up, and nothing else. -/
theorem get?_clear (t : Tracker) (other : String) (action' : ResourceAction) (now : Instant)
    : (t.clear other action' now).2.get? root action
      = if other = root ∧ action' = action then
          ((t.get? root action).bind (·.clear? t.limits now)).or (t.get? root action)
        else t.get? root action := by
  rw [clear, Records.clear?]
  cases found : ((t.records other)[action']?).bind (·.clear? t.limits now) with
  | none =>
      rw [Option.map_none]
      dsimp only
      split
      · rename_i this
        obtain ⟨rfl, rfl⟩ := this
        rw [get?, found, Option.none_or]
      · rfl
  | some record =>
      rw [Option.map_some]
      dsimp only
      rw [get?_setRecords, Records.getElem?_insert_eq]
      by_cases here : other = root
      · subst here
        by_cases this : action = action'
        · subst this
          rw [get?, found]
          simp
        · simp [this, Ne.symm this, get?]
      · simp [here]

/-- A call does to the record of an action what its effect says, and nothing else. -/
theorem get?_call (t : Tracker) (root : String) (action : ResourceAction) (call : Call)
    : (t.call call).get? root action = call.effect t.limits root action (t.get? root action) := by
  cases call with
  | observe other action' now =>
      rw [Tracker.call, observe, get?_setRecords, Records.observe_eq, Call.effect]
      by_cases here : other = root
      · subst here
        rw [if_pos rfl, Records.getElem?_insert_eq]
        by_cases this : action = action'
        · subst this
          simp [Records.verdict, get?]
        · simp [this, Ne.symm this, get?]
      · simp [here]
  | forgetConverged other seen =>
      rw [Tracker.call, forgetConverged, get?_setRecords, Call.effect]
      by_cases here : other = root
      · subst here
        rw [if_pos rfl, Records.forgetConverged, Std.ExtTreeMap.getElem?_filter', get?]
        by_cases kept : action ∈ seen <;>
          cases (t.records other)[action]? <;> simp [kept, Option.filter]
      · simp [here]
  | resetRoot other now =>
      rw [Tracker.call, resetRoot, get?_setRecords, Call.effect, Records.afterReset,
        Std.ExtTreeMap.getElem?_filterMap', get?]
      by_cases here : other = root
      · subst here
        rfl
      · rw [if_neg here, if_neg here]
  | forgetRoot other =>
      rw [Tracker.call, forgetRoot, get?_setRecords, Call.effect]
      simp
  | retainRoots roots =>
      rw [Tracker.call, get?, records_retainRoots, Call.effect, get?]
      split <;> simp
  | clear other action' now =>
      rw [Tracker.call, Call.effect]
      exact get?_clear t other action' now

/-- An appearance comes to what the record says, which is a new one where there is none. -/
theorem observe_outcome (t : Tracker) (root : String) (action : ResourceAction) (now : Instant)
    : (t.observe root action now).1
      = (((t.get? root action).getD (.start t.limits.resetLimit now)).observe t.limits now).1 :=
  rfl

@[simp]
theorem after_nil (t : Tracker) : t.after [] = t :=
  rfl

@[simp]
theorem after_cons (t : Tracker) (call : Call) (calls : List Call)
    : t.after (call :: calls) = (t.call call).after calls :=
  rfl

theorem after_append (t : Tracker) (calls later : List Call)
    : t.after (calls ++ later) = (t.after calls).after later :=
  List.foldl_append

theorem limits_after (t : Tracker) (calls : List Call) : (t.after calls).limits = t.limits := by
  induction calls generalizing t with
  | nil => rfl
  | cons call rest ih => rw [after_cons, ih, limits_call]

-----------------------------------------------------------------------------------------
-- What holds of every record
-----------------------------------------------------------------------------------------

/-- What an appearance starts from has its parts together, whether there was a record or not. -/
theorem sound_getD {record? : Option TrackedAction}
    (before : ∀ old, record? = some old → old.Sound limits) (now : Instant)
    : (record?.getD (.start limits.resetLimit now)).Sound limits := by
  cases record? with
  | none => exact TrackedAction.sound_start limits now
  | some old => exact before old rfl

/-- Each call keeps the parts of a record together. -/
theorem Call.sound_effect {call : Call} {record? : Option TrackedAction} {record : TrackedAction}
    (before : ∀ old, record? = some old → old.Sound limits)
    (h : call.effect limits root action record? = some record)
    : record.Sound limits := by
  cases call with
  | observe other action' now =>
      rw [effect] at h
      split at h
      · cases h
        exact (sound_getD before now).observe now
      · exact before record h
  | forgetConverged other seen =>
      rw [effect] at h
      split at h
      · cases h
      · exact before record h
  | resetRoot other now =>
      rw [effect] at h
      split at h
      · obtain ⟨old, held, left⟩ := Option.bind_eq_some_iff.mp h
        exact (before old held).afterReset left
      · exact before record h
  | forgetRoot other =>
      rw [effect] at h
      split at h
      · cases h
      · exact before record h
  | retainRoots roots =>
      rw [effect] at h
      split at h
      · exact before record h
      · cases h
  | clear other action' now =>
      rw [effect] at h
      split at h
      · rcases Option.or_eq_some_iff.mp h with cleared | ⟨-, held⟩
        · obtain ⟨old, held, cleared⟩ := Option.bind_eq_some_iff.mp cleared
          exact (before old held).clear cleared
        · exact before record held
      · exact before record h

/-- Calls keep the parts of all records together, by induction on the calls. -/
theorem sound_after {calls : List Call}
    (before : ∀ record, t.get? root action = some record → record.Sound t.limits)
    : ∀ record, (t.after calls).get? root action = some record → record.Sound t.limits := by
  induction calls generalizing t with
  | nil => exact before
  | cons call rest ih =>
      rw [after_cons, ← limits_call t call]
      refine ih fun record h => ?_
      rw [get?_call] at h
      rw [limits_call]
      exact Call.sound_effect before h

-----------------------------------------------------------------------------------------
-- One reset of the root
-----------------------------------------------------------------------------------------

/-- The call drops records of what no longer differs or is no longer served. -/
def Call.forgets : Call → Bool
  | .forgetConverged _ _ | .forgetRoot _ | .retainRoots _ => true
  | .observe _ _ _ | .resetRoot _ _ | .clear _ _ _ => false

/-- An escalated record stays escalated until it is forgotten. -/
theorem Call.escalated_effect (limits : TrackerLimits) (root : String) (action : ResourceAction)
    (call : Call) {old : TrackedAction} (h : old.escalation = .purge)
    : call.forgets = true ∧ call.effect limits root action (some old) = none
      ∨ ∃ record, call.effect limits root action (some old) = some record
          ∧ record.escalation = .purge := by
  cases call with
  | observe other action' now =>
      rw [effect]
      split
      · refine .inr ⟨_, rfl, ?_⟩
        rw [Option.getD_some]
        rcases old.observe_escalation limits now with reset | same
        · exact (TrackedAction.escalation_of_resetRoot reset).2.1
        · exact same.trans h
      · exact .inr ⟨old, rfl, h⟩
  | forgetConverged other seen =>
      rw [effect]
      split
      · exact .inl ⟨rfl, rfl⟩
      · exact .inr ⟨old, rfl, h⟩
  | resetRoot other now =>
      rw [effect]
      split
      · exact .inr (TrackedAction.afterReset_of_escalated h now)
      · exact .inr ⟨old, rfl, h⟩
  | forgetRoot other =>
      rw [effect]
      split
      · exact .inl ⟨rfl, rfl⟩
      · exact .inr ⟨old, rfl, h⟩
  | retainRoots roots =>
      rw [effect]
      split
      · exact .inr ⟨old, rfl, h⟩
      · exact .inl ⟨rfl, rfl⟩
  | clear other action' now =>
      rw [effect]
      split
      · rw [Option.bind_some]
        cases cleared : old.clear? limits now with
        | none => exact .inr ⟨old, rfl, h⟩
        | some record =>
            exact .inr ⟨record, rfl, (TrackedAction.escalation_of_clear cleared).trans h⟩
      · exact .inr ⟨old, rfl, h⟩

/-- An escalated record that is not escalated any more was forgotten on the way, by induction on the
calls.
-/
theorem forgotten_of_escalated {calls : List Call} {old : TrackedAction}
    (held : t.get? root action = some old) (escalated : old.escalation = .purge)
    (lost : ∀ record, (t.after calls).get? root action = some record →
      record.escalation ≠ .purge)
    : ∃ kept call rest, calls = kept ++ call :: rest ∧ call.forgets = true
        ∧ (t.after kept).get? root action ≠ none
        ∧ (t.after (kept ++ [call])).get? root action = none := by
  induction calls generalizing t old with
  | nil => exact absurd escalated (lost old held)
  | cons call rest ih =>
      have effect := get?_call t root action call
      rw [held] at effect
      rcases Call.escalated_effect t.limits root action call escalated with
        ⟨forgets, gone⟩ | ⟨record, left, still⟩
      · refine ⟨[], call, rest, rfl, forgets, ?_, effect.trans gone⟩
        rw [after_nil, held]
        exact Option.some_ne_none old
      · obtain ⟨kept, later, rest', rfl, forgets, before, gone⟩ :=
          ih (effect.trans left) still lost
        exact ⟨call :: kept, later, rest', rfl, forgets, before, gone⟩

/-- A record that asks for a reset of its root is escalated then, and was not before. -/
theorem escalated_of_resetRoot (h : (t.observe root action now).1 = .resetRoot)
    : (∀ record, t.get? root action = some record → record.escalation ≠ .purge)
      ∧ ∃ record, (t.call (.observe root action now)).get? root action = some record
          ∧ record.escalation = .purge := by
  rw [observe_outcome] at h
  obtain ⟨first, second, -⟩ := TrackedAction.escalation_of_resetRoot h
  refine ⟨fun record held escalated => ?_, _, ?_, second⟩
  · rw [held, Option.getD_some] at first
    cases first.symm.trans escalated
  · rw [get?_call, Call.effect, if_pos ⟨rfl, rfl⟩]

/-- What holds of every record, whatever calls were made of a tracker that started empty, in any
order and at any times: its parts go together, and it asks for a reset of its root once at most.
Before it does so again it was forgotten, in a pass that did not see it or with its root.
-/
theorem sound_and_reset_once (limits : TrackerLimits) (root : String) (action : ResourceAction)
    : (∀ calls record, (after { limits } calls).get? root action = some record →
        record.Sound limits)
      ∧ ∀ before between now now',
          ((after { limits } before).observe root action now).1 = .resetRoot →
          ((after { limits } (before ++ .observe root action now :: between)).observe
            root action now').1 = .resetRoot →
          ∃ kept call rest, between = kept ++ call :: rest ∧ call.forgets = true
            ∧ (after { limits } (before ++ .observe root action now :: kept)).get? root action ≠ none
            ∧ (after { limits } (before ++ .observe root action now :: (kept ++ [call]))).get?
                root action = none := by
  refine ⟨fun calls record h => ?_, fun before between now now' first second => ?_⟩
  · refine sound_after (t := { limits }) (fun record held => ?_) record h
    simp [get?, records] at held
  · obtain ⟨-, record, held, escalated⟩ := escalated_of_resetRoot first
    obtain ⟨lost, -⟩ := escalated_of_resetRoot second
    rw [after_append, after_cons] at lost
    simpa only [after_append, after_cons] using forgotten_of_escalated held escalated lost

/-- A root is reset again for a resource that was in agreement in between. Before that, the record
was kept through a reset of the root and an attempt to clear it.
-/
theorem sound_and_reset_once_again
    : let limits : TrackerLimits := { (default : TrackerLimits) with resetLimit := 0 }
      let action : ResourceAction := ⟨.create, ⟨"a", ⟨["t1", "a"]⟩⟩⟩
      let now : Instant := ⟨0⟩
      let kept : List Call := [.resetRoot "t1" now, .clear "t1" action now]
      (∃ record, (after { limits } (.observe "t1" action now :: kept)).get? "t1" action
          = some record ∧ record.Sound limits)
      ∧ ∃ before call rest,
          kept ++ [.forgetConverged "t1" [], .observe "t2" action now] = before ++ call :: rest
          ∧ call.forgets = true
          ∧ (after { limits } (.observe "t1" action now :: before)).get? "t1" action ≠ none
          ∧ (after { limits } (.observe "t1" action now :: (before ++ [call]))).get? "t1" action
              = none := by
  intro limits action now kept
  obtain ⟨sound, once⟩ := sound_and_reset_once limits "t1" action
  obtain ⟨record, held⟩ : ∃ record,
      (after { limits } (.observe "t1" action now :: kept)).get? "t1" action = some record :=
    Option.isSome_iff_exists.mp (by decide +kernel)
  exact ⟨⟨record, held, sound _ record held⟩,
    once [] _ now now (by decide +kernel) (by decide +kernel)⟩

end Tracker

end Concord
