import Concord.Proofs.Backend.Batches
import Concord.Reconcile.RootPass

/-! What a pass over one root asks, whatever it is answered and whatever happens in between. It
reads both trees first, and from then on it deletes at keys of their difference only; where
nothing was tracked before, it deletes at all of them.
-/

namespace Concord

variable {limits : TrackerLimits} {now : Instant} {records : Records}
  {creates deletes : List Resource}

-----------------------------------------------------------------------------------------
-- Resources that are sorted
-----------------------------------------------------------------------------------------

/-- What is tracked for the first time is attempted, unless no attempt is tolerated. -/
theorem Records.observe_new {action : ResourceAction} (now : Instant)
    (tolerant : 0 < limits.resetLimit.toNat)
    (new : records[action]? = none)
    : (records.observe limits action now).1 = .attempt
      ∧ ∀ other, other ≠ action →
          (records.observe limits action now).2[other]? = records[other]? := by
  have retried : (TrackedAction.increment (TrackedAction.increment (-1))).toInt = 1 := by
    decide +kernel
  have notBefore : now.before now = false := by simp [Instant.before]
  have tolerated : ¬ ((limits.resetLimit.toNat : Int) < 1) := by omega
  constructor
  · simp [Records.observe, new, TrackedAction.observe, TrackedAction.start, TrackedAction.isFailed,
      TrackedAction.exceeded, TrackedAction.retry, notBefore, retried, tolerated]
  · intro other differs
    simp only [Records.observe]
    rw [Std.ExtTreeMap.getElem?_insert, if_neg]
    intro same
    exact differs (Std.LawfulEqOrd.eq_of_compare same).symm

namespace Triage

/-- Only what was given to be deleted is deleted, by induction on what is sorted. -/
theorem mem_delete_foldl {entries : List (ActionKind × Resource)} {state : Triage × Records}
    {r : Resource} (h : r ∈ (entries.foldl (step limits now) state).1.batch.delete)
    : r ∈ state.1.batch.delete ∨ (.delete, r) ∈ entries := by
  induction entries generalizing state with
  | nil => exact .inl h
  | cons entry rest ih =>
      rcases ih h with before | later
      · obtain ⟨t, records⟩ := state
        rw [step] at before
        split at before
        · exact .inl before
        · obtain ⟨kind, resource⟩ := entry
          dsimp only at before
          generalize (records.observe limits ⟨kind, resource.identity⟩ now).1 = outcome at before
          cases outcome with
          | attempt =>
              cases kind with
              | create => exact .inl before
              | delete =>
                  rcases List.mem_append.mp before with before | this
                  · exact .inl before
                  · rw [List.mem_singleton.mp this]
                    exact .inr List.mem_cons_self
          | _ => exact .inl before
      · exact .inr (List.mem_cons_of_mem _ later)

theorem mem_delete_sort {r : Resource}
    (h : r ∈ (sort limits now records creates deletes).1.batch.delete)
    : r ∈ deletes := by
  rcases mem_delete_foldl h with none | given
  · cases none
  · simpa using given

/-- Whatever was seen so far was attempted, and nothing else is tracked. -/
structure Willing (t : Triage) (records : Records) : Prop where
  reset : t.reset = false
  tracked : ∀ action, action ∉ t.seen → records[action]? = none
  deletes : ∀ identity, ⟨.delete, identity⟩ ∈ t.seen →
    ∃ r ∈ t.batch.delete, r.identity = identity

theorem Willing.step {t : Triage} (now : Instant) (h : t.Willing records)
    (tolerant : 0 < limits.resetLimit.toNat) (entry : ActionKind × Resource)
    : (Triage.step limits now (t, records) entry).1.Willing
        (Triage.step limits now (t, records) entry).2
      ∧ ⟨entry.1, entry.2.identity⟩ ∈ (Triage.step limits now (t, records) entry).1.seen
      ∧ t.seen ⊆ (Triage.step limits now (t, records) entry).1.seen := by
  obtain ⟨kind, resource⟩ := entry
  rw [Triage.step]
  split
  · rename_i seen
    exact ⟨h, by simpa using seen, fun _ => id⟩
  · rename_i new
    have absent : (⟨kind, resource.identity⟩ : ResourceAction) ∉ t.seen := by simpa using new
    obtain ⟨attempt, others⟩ := Records.observe_new now tolerant (h.tracked _ absent)
    dsimp only
    rw [attempt]
    refine ⟨⟨h.reset, fun action fresh => ?_, fun identity seen => ?_⟩, ?_, ?_⟩
    · have both : action ∉ t.seen ∧ action ≠ ⟨kind, resource.identity⟩ := by
        simpa [Triage.add] using fresh
      rw [others action both.2]
      exact h.tracked action both.1
    · have either : (⟨.delete, identity⟩ : ResourceAction) ∈ t.seen
          ∨ (⟨.delete, identity⟩ : ResourceAction) = ⟨kind, resource.identity⟩ := by
        simpa [Triage.add] using seen
      rcases either with before | this
      · obtain ⟨r, hr, same⟩ := h.deletes identity before
        refine ⟨r, ?_, same⟩
        cases kind with
        | create => exact hr
        | delete => exact List.mem_append_left _ hr
      · cases this
        exact ⟨resource, List.mem_append_right _ List.mem_cons_self, rfl⟩
    · simp [Triage.add]
    · simp [Triage.add]

/-- Where nothing was tracked, all that is sorted is attempted, by induction on it. -/
theorem Willing.foldl {t : Triage} (now : Instant) (h : t.Willing records)
    (tolerant : 0 < limits.resetLimit.toNat) (entries : List (ActionKind × Resource))
    : (entries.foldl (Triage.step limits now) (t, records)).1.Willing
        (entries.foldl (Triage.step limits now) (t, records)).2
      ∧ t.seen ⊆ (entries.foldl (Triage.step limits now) (t, records)).1.seen
      ∧ ∀ entry ∈ entries, ⟨entry.1, entry.2.identity⟩
          ∈ (entries.foldl (Triage.step limits now) (t, records)).1.seen := by
  induction entries generalizing t records with
  | nil => exact ⟨h, fun _ => id, fun _ hm => by cases hm⟩
  | cons entry rest ih =>
      obtain ⟨willing, this, kept⟩ := h.step now tolerant entry
      obtain ⟨willing, later, seen⟩ := ih willing
      refine ⟨willing, List.Subset.trans kept later, ?_⟩
      intro other hm
      rcases List.mem_cons.mp hm with rfl | hm
      · exact later this
      · exact seen other hm

theorem sort_untracked (now : Instant) (creates deletes : List Resource)
    (tolerant : 0 < limits.resetLimit.toNat) (untracked : records = ∅)
    : (sort limits now records creates deletes).1.reset = false
      ∧ ∀ r ∈ deletes, ∃ r' ∈ (sort limits now records creates deletes).1.batch.delete,
          r'.identity = r.identity := by
  have start : ({} : Triage).Willing records := by
    subst untracked
    exact ⟨rfl, fun _ _ => rfl, fun _ seen => by cases seen⟩
  obtain ⟨willing, -, seen⟩ := start.foldl now tolerant
    (creates.map (ActionKind.create, ·) ++ deletes.map (ActionKind.delete, ·))
  refine ⟨willing.reset, fun r hr => willing.deletes _ (seen (.delete, r) ?_)⟩
  exact List.mem_append_right _ (List.mem_map_of_mem hr)

end Triage

-----------------------------------------------------------------------------------------
-- Programs of questions
-----------------------------------------------------------------------------------------

/-- Answers that a backend may give. -/
def Question.Fits : (q : Question) → q.Answer → Prop
  | .resourcesForDelete keys, answer => answer.map Resource.key = keys
  | .tree .., _ | .resources _, _ | .report _, _ | .push _, _ | .reset .., _ => True

namespace Program

variable {α : Type}

/-- What is to be remembered as the program stands. -/
def ledger : Program α → Ledger
  | .finished ledger _ => ledger
  | .asking ledger _ _ => ledger

/-- The program reads no more trees, and it deletes at these keys only. -/
def Within (keys : List Key) : Program α → Prop
  | .finished _ _ => True
  | .asking _ question next =>
      (∀ side root, question ≠ .tree side root)
        ∧ (∀ batch, question = .push batch → ∀ r ∈ batch.delete, r.key ∈ keys)
        ∧ ∀ ledger answer, question.Fits answer → (next ledger answer).Within keys

/-- The program deletes at all of these keys before it ends, provided that it tracks nothing and
that nothing comes to be tracked meanwhile.
-/
def Deletes (keys : List Key) : Program α → Prop
  | .finished _ _ => False
  | .asking ledger question next =>
      (∃ batch, question = .push batch ∧ ∀ k ∈ keys, ∃ r ∈ batch.delete, r.key = k)
        ∨ (∀ side root, question ≠ .reset side root)
          ∧ ∀ found answer, question.Fits answer → (ledger.records = ∅ → found.records = ∅) →
              (next found answer).Deletes keys

end Program

namespace RootPass

variable {keys : List Key} {root : String} {ledger : Ledger} {delta : TreeDiff} {triage : Triage}
  {transitions : List StatusTransition}

theorem within_reporting {α : Type} {next : Ledger → Program α}
    (h : ∀ ledger, (next ledger).Within keys)
    : (reporting ledger transitions next).Within keys := by
  rw [reporting]
  split
  · exact h ledger
  · refine ⟨fun side root he => ?_, fun batch he => ?_, fun ledger _ _ => h ledger⟩
    · cases he
    · cases he

theorem deletes_reporting {α : Type} {next : Ledger → Program α}
    (h : ∀ ledger, (next ledger).Deletes keys)
    : (reporting ledger transitions next).Deletes keys := by
  rw [reporting]
  split
  · exact h ledger
  · refine .inr ⟨fun side root he => ?_, fun found _ _ _ => h found⟩
    cases he

theorem within_resetting : (resetting root now delta triage ledger).Within keys := by
  rw [resetting]
  refine within_reporting fun ledger => ?_
  refine ⟨fun _ _ he => ?_, fun _ he => ?_, fun ledger _ _ => ⟨fun _ _ he => ?_, fun _ he => ?_,
    fun ledger _ _ => trivial⟩⟩ <;> cases he

theorem within_pushing (h : ∀ r ∈ triage.batch.delete, r.key ∈ keys)
    : (pushing root delta triage ledger).Within keys := by
  rw [pushing]
  refine within_reporting fun ledger => ?_
  split
  · trivial
  · refine ⟨fun side root he => ?_, fun batch he => ?_, fun ledger _ _ => trivial⟩
    · cases he
    · cases he
      exact h

theorem deletes_pushing (nonempty : keys ≠ []) (h : ∀ k ∈ keys, ∃ r ∈ triage.batch.delete, r.key = k)
    : (pushing root delta triage ledger).Deletes keys := by
  rw [pushing]
  refine deletes_reporting fun ledger => ?_
  obtain ⟨k, hk⟩ := List.exists_mem_of_ne_nil keys nonempty
  obtain ⟨r, hr, -⟩ := h k hk
  have full : triage.batch.isEmpty = false := by
    rw [ResourceBatch.isEmpty, List.isEmpty_eq_false_iff.mpr (List.ne_nil_of_mem hr),
      Bool.and_false]
  rw [full, if_neg Bool.false_ne_true]
  exact .inl ⟨triage.batch, rfl, h⟩

theorem within_sorting (h : deletes.map Resource.key = keys)
    : (sorting limits root now delta creates deletes ledger).Within keys := by
  rw [sorting]
  dsimp only
  split
  · exact within_resetting
  · refine within_pushing fun r hr => ?_
    rw [← h]
    exact List.mem_map_of_mem (Triage.mem_delete_sort hr)

theorem deletes_sorting (tolerant : 0 < limits.resetLimit.toNat)
    (untracked : ledger.records = ∅) (nonempty : keys ≠ []) (h : deletes.map Resource.key = keys)
    : (sorting limits root now delta creates deletes ledger).Deletes keys := by
  obtain ⟨reset, all⟩ := Triage.sort_untracked now creates deletes tolerant untracked
  rw [sorting]
  dsimp only
  rw [reset, if_neg Bool.false_ne_true]
  refine deletes_pushing nonempty fun k hk => ?_
  rw [← h] at hk
  obtain ⟨r, hr, rfl⟩ := List.mem_map.mp hk
  obtain ⟨r', hr', same⟩ := all r hr
  exact ⟨r', hr', congrArg ResourceIdentity.key same⟩

/-- The pass over a root once both trees are read. -/
def compared (limits : TrackerLimits) (root : String) (now : Instant)
    (desired observed : HashTree) (ledger : Ledger) : Program RootOutcome :=
  let delta := desired.diff observed
  if delta.isEmpty then converged root ledger
  else
    .asking ledger (.resources delta.add) fun ledger creates =>
      .asking ledger (.resourcesForDelete delta.remove) fun ledger deletes =>
        sorting limits root now delta creates deletes ledger

theorem program_eq (limits : TrackerLimits) (root : String) (now : Instant) (ledger : Ledger)
    : program limits root now ledger
      = .asking ledger (.tree .desired root) fun ledger desired =>
          .asking ledger (.tree .observed root) fun ledger observed =>
            compared limits root now desired observed ledger :=
  rfl

variable {desired observed : HashTree}

/-- Whatever a pass is answered, it deletes at keys of the difference only. -/
theorem within_compared
    : (compared limits root now desired observed ledger).Within (desired.diff observed).remove := by
  rw [compared]
  split
  · exact within_reporting fun ledger => trivial
  · refine ⟨fun _ _ he => ?_, fun _ he => ?_, fun ledger creates _ => ⟨fun _ _ he => ?_,
      fun _ he => ?_, fun ledger deletes fits => ?_⟩⟩
    · cases he
    · cases he
    · cases he
    · cases he
    · exact within_sorting fits

/-- A pass that finds nothing tracked deletes at all keys that are to be removed. -/
theorem deletes_compared (tolerant : 0 < limits.resetLimit.toNat)
    (untracked : ledger.records = ∅) (nonempty : (desired.diff observed).remove ≠ [])
    : (compared limits root now desired observed ledger).Deletes
        (desired.diff observed).remove := by
  have differ : (desired.diff observed).isEmpty = false := by
    rw [TreeDiff.isEmpty, List.isEmpty_eq_false_iff.mpr nonempty, Bool.and_false]
  rw [compared]
  rw [differ, if_neg Bool.false_ne_true]
  refine .inr ⟨fun _ _ he => ?_, fun found creates _ still => .inr ⟨fun _ _ he => ?_,
    fun found' deletes fits still' => ?_⟩⟩
  · cases he
  · cases he
  · exact deletes_sorting tolerant (still' (still untracked)) nonempty fits

end RootPass

end Concord
