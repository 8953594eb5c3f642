import Concord.Proofs.Reconcile.Sorting

/-! Resources that are fetched more than once. Each action is observed where it appears first, and
what is put in a batch is sorted by that appearance, in the order fetched.
-/

namespace Concord

variable {limits : TrackerLimits} {now : Instant} {records : Records}

-----------------------------------------------------------------------------------------
-- Actions that appear in a row
-----------------------------------------------------------------------------------------

namespace Records

/-- Actions that appear one after the other: what each comes to, and the records after the last. -/
def observeAll (limits : TrackerLimits) (now : Instant)
    : List ResourceAction → Records → List TrackOutcome × Records
  | [], records => ([], records)
  | action :: rest, records =>
      let (outcome, records) := records.observe limits action now
      let (outcomes, records) := observeAll limits now rest records
      (outcome :: outcomes, records)

/-- Distinct actions come to what the records of the start say, by induction on the actions. -/
theorem observeAll_spec (limits : TrackerLimits) (now : Instant) {actions : List ResourceAction}
    (distinct : actions.Nodup) (records : Records)
    : (observeAll limits now actions records).1
        = actions.map (fun a => (records.verdict limits now a).1)
      ∧ ∀ a, (observeAll limits now actions records).2[a]?
          = if a ∈ actions then some (records.verdict limits now a).2 else records[a]? := by
  induction actions generalizing records with
  | nil => exact ⟨rfl, fun a => by simp [observeAll]⟩
  | cons action rest ih =>
      obtain ⟨absent, distinct⟩ := List.nodup_cons.mp distinct
      obtain ⟨outcomes, found⟩ := ih distinct
        (records.insert action (records.verdict limits now action).2)
      have apart {a : ResourceAction} (later : a ∈ rest) : a ≠ action :=
        fun same => absent (same ▸ later)
      simp only [observeAll, observe_eq]
      refine ⟨?_, fun a => ?_⟩
      · rw [outcomes, List.map_cons]
        refine congrArg _ (List.map_congr_left fun a later => ?_)
        rw [verdict_insert _ (apart later)]
      · rw [found a, getElem?_insert_eq]
        by_cases later : a ∈ rest
        · simp [later, verdict_insert _ (apart later)]
        · by_cases this : a = action
          · subst this
            simp [absent]
          · simp [later, this]

end Records

namespace Triage

variable {creates deletes : List Resource} {kind : ActionKind} {r : Resource} {e : Entry}

-----------------------------------------------------------------------------------------
-- Each action at its first place
-----------------------------------------------------------------------------------------

theorem sublist_firsts (seen : List ResourceAction) (entries : List Entry)
    : (firsts seen entries).Sublist entries := by
  induction entries generalizing seen with
  | nil => exact .slnil
  | cons first rest ih =>
      rw [firsts]
      split
      · exact (ih seen).cons first
      · exact (ih _).cons_cons first

theorem nodup_firsts (seen : List ResourceAction) (entries : List Entry)
    : ((firsts seen entries).map Entry.action).Nodup := by
  induction entries generalizing seen with
  | nil => exact .nil
  | cons first rest ih =>
      rw [firsts]
      split
      · exact ih seen
      · refine List.nodup_cons.mpr ⟨fun again => ?_, ih _⟩
        obtain ⟨e, later, same⟩ := List.mem_map.mp again
        exact (mem_firsts later).2 (by simp [same])

/-- What is first was not seen before, and no entry before it has its action. -/
theorem mem_firsts_iff {seen : List ResourceAction} {entries : List Entry}
    : e ∈ firsts seen entries
      ↔ e.action ∉ seen ∧ ∃ before after, entries = before ++ e :: after
          ∧ ∀ x ∈ before, x.action ≠ e.action := by
  induction entries generalizing seen with
  | nil => simp [firsts]
  | cons first rest ih =>
      have split_iff : (∃ before after, first :: rest = before ++ e :: after
            ∧ ∀ x ∈ before, x.action ≠ e.action)
          ↔ first = e ∨ first.action ≠ e.action
            ∧ ∃ before after, rest = before ++ e :: after ∧ ∀ x ∈ before, x.action ≠ e.action := by
        constructor
        · intro h
          obtain ⟨before, after, split, apart⟩ := h
          cases before with
          | nil => exact .inl (List.cons.inj split).1
          | cons x before =>
              obtain ⟨rfl, tail⟩ := List.cons.inj split
              obtain ⟨differs, apart⟩ := List.forall_mem_cons.mp apart
              exact .inr ⟨differs, before, after, tail, apart⟩
        · intro h
          rcases h with rfl | ⟨differs, before, after, rfl, apart⟩
          · exact ⟨[], rest, rfl, fun _ hx => by cases hx⟩
          · exact ⟨first :: before, after, rfl, List.forall_mem_cons.mpr ⟨differs, apart⟩⟩
      rw [split_iff, firsts]
      by_cases before : first.action ∈ seen
      · rw [if_pos (by simpa using before), ih]
        refine and_congr_right fun fresh => ?_
        have differs : first.action ≠ e.action := fun same => fresh (same ▸ before)
        have apart : first ≠ e := fun same => differs (congrArg Entry.action same)
        simp [differs, apart]
      · rw [if_neg (by simpa using before), List.mem_cons, ih, List.mem_append, List.mem_singleton,
          not_or, eq_comm (a := e)]
        by_cases this : first = e
        · simp [← this, before]
        · simp only [this, false_or, ne_eq, eq_comm (a := e.action), and_assoc]

end Triage

/-- The resources to create or to delete. -/
def ResourceBatch.part (b : ResourceBatch) : ActionKind → List Resource
  | .create => b.create
  | .delete => b.delete

/-- The keys to add, at which resources are created, or to remove. -/
def TreeDiff.part (d : TreeDiff) : ActionKind → List Key
  | .create => d.add
  | .delete => d.remove

namespace Triage

variable {creates deletes : List Resource} {kind : ActionKind} {r : Resource} {e : Entry}

/-- What was fetched to be created or to be deleted. -/
def fetched (creates deletes : List Resource) : ActionKind → List Resource
  | .create => creates
  | .delete => deletes

theorem mem_entries : (kind, r) ∈ entries creates deletes ↔ r ∈ fetched creates deletes kind := by
  cases kind <;> simp [entries, fetched]

theorem entries_of_kind (creates deletes : List Resource) (kind : ActionKind)
    : ((entries creates deletes).filter fun e => e.1 = kind).map Prod.snd
      = fetched creates deletes kind := by
  have all (resources : List Resource) (other : ActionKind)
      : ((resources.map (other, ·)).filter fun e => e.1 = kind).map Prod.snd
        = if other = kind then resources else [] := by
    rw [List.filter_map, List.map_map]
    by_cases same : other = kind
    · simp [same, Function.comp_def]
    · simp [same, Function.comp_def]
  rw [entries, List.filter_append, List.map_append, all, all]
  cases kind <;> simp [fetched]

/-- A resource is first among the entries if it is first of its identity among those for the same
action.
-/
theorem mem_firsts_entries
    : (kind, r) ∈ firsts [] (entries creates deletes)
      ↔ ∃ before after, fetched creates deletes kind = before ++ r :: after
          ∧ ∀ x ∈ before, x.identity ≠ r.identity := by
  have action {x : Resource} : Entry.action (kind, x) = Entry.action (kind, r)
      ↔ x.identity = r.identity := by
    simp [Entry.action]
  rw [mem_firsts_iff]
  constructor
  · intro h
    obtain ⟨-, before, after, split, apart⟩ := h
    refine ⟨(before.filter fun e => e.1 = kind).map Prod.snd,
      (after.filter fun e => e.1 = kind).map Prod.snd, ?_, ?_⟩
    · rw [← entries_of_kind, split, List.filter_append, List.map_append, List.filter_cons_of_pos]
      · rfl
      · simp
    · intro x hx same
      obtain ⟨⟨other, _⟩, hm, rfl⟩ := List.mem_map.mp hx
      obtain ⟨earlier, here⟩ := List.mem_filter.mp hm
      obtain rfl : other = kind := by simpa using here
      exact apart _ earlier (action.mpr same)
  · intro h
    obtain ⟨before, after, split, apart⟩ := h
    refine ⟨by simp, ?_⟩
    have listed : ∀ e ∈ before.map (kind, ·), Entry.action e ≠ Entry.action (kind, r) := by
      intro e he
      obtain ⟨x, hx, rfl⟩ := List.mem_map.mp he
      exact fun same => apart x hx (action.mp same)
    cases kind with
    | create =>
        refine ⟨before.map (.create, ·), after.map (.create, ·) ++ deletes.map (.delete, ·), ?_,
          listed⟩
        rw [fetched] at split
        simp [entries, split]
    | delete =>
        refine ⟨creates.map (.create, ·) ++ before.map (.delete, ·), after.map (.delete, ·), ?_,
          List.forall_mem_append.mpr ⟨fun e he => ?_, listed⟩⟩
        · rw [fetched] at split
          simp [entries, split]
        · obtain ⟨x, -, rfl⟩ := List.mem_map.mp he
          simp [Entry.action]

-----------------------------------------------------------------------------------------
-- What is observed and what is put in the batch
-----------------------------------------------------------------------------------------

/-- The actions that are observed in a pass are those fetched, each once, and their records are
left.
-/
theorem sort_observes (limits : TrackerLimits) (now : Instant) (records : Records)
    (creates deletes : List Resource)
    : let seen := (sort limits now records creates deletes).1.seen
      seen.Nodup ∧ (∀ a, a ∈ seen ↔ a ∈ (entries creates deletes).map Entry.action)
      ∧ (sort limits now records creates deletes).2
          = (records.observeAll limits now seen).2.forgetConverged seen := by
  obtain ⟨triage, found⟩ := sort_eq limits now records creates deletes
  have seen : (sort limits now records creates deletes).1.seen
      = (firsts [] (entries creates deletes)).map Entry.action := by
    rw [triage]
    rfl
  have distinct := nodup_firsts [] (entries creates deletes)
  have listed (a : ResourceAction)
      : a ∈ (firsts [] (entries creates deletes)).map Entry.action
        ↔ a ∈ (entries creates deletes).map Entry.action := by
    constructor
    · intro first
      exact ((sublist_firsts [] _).map Entry.action).subset first
    · intro entry
      obtain ⟨e, he, rfl⟩ := List.mem_map.mp entry
      rcases action_mem_firsts [] he with before | ⟨first, hm, same⟩
      · cases before
      · exact List.mem_map.mpr ⟨first, hm, same⟩
  rw [seen]
  refine ⟨distinct, listed, Std.ExtTreeMap.ext_getElem? fun a => ?_⟩
  rw [found a, Records.forgetConverged, Std.ExtTreeMap.getElem?_filter',
    (Records.observeAll_spec limits now distinct records).2 a]
  by_cases here : a ∈ (entries creates deletes).map Entry.action
  · have first := (listed a).mpr here
    simp only [here, first, if_true, Option.filter, List.contains_iff_mem]
  · have none : a ∉ (firsts [] (entries creates deletes)).map Entry.action :=
      fun first => here ((listed a).mp first)
    rw [if_neg here, if_neg none]
    refine (Option.filter_eq_none_iff.mpr fun _ _ => ?_).symm
    rwa [List.contains_iff_mem]

theorem part_sort (limits : TrackerLimits) (now : Instant) (records : Records)
    (creates deletes : List Resource) (kind : ActionKind)
    : (sort limits now records creates deletes).1.batch.part kind
      = (((firsts [] (entries creates deletes)).filter
            fun e => (records.verdict limits now e.action).1 = .attempt).filter
          fun e => e.1 = kind).map Prod.snd := by
  rw [(sort_eq limits now records creates deletes).1]
  cases kind <;> exact List.nil_append _

/-- The resources that come to an attempt are put in a batch, each once and in the order fetched. -/
theorem mem_part_sort
    : r ∈ (sort limits now records creates deletes).1.batch.part kind
      ↔ (records.verdict limits now ⟨kind, r.identity⟩).1 = .attempt
        ∧ (kind, r) ∈ firsts [] (entries creates deletes) := by
  rw [part_sort, List.mem_map]
  constructor
  · intro h
    obtain ⟨⟨_, _⟩, hm, rfl⟩ := h
    obtain ⟨hm, here⟩ := List.mem_filter.mp hm
    obtain ⟨first, attempt⟩ := List.mem_filter.mp hm
    obtain rfl := of_decide_eq_true here
    exact ⟨of_decide_eq_true attempt, first⟩
  · intro h
    exact ⟨(kind, r), List.mem_filter.mpr ⟨List.mem_filter.mpr ⟨h.2, decide_eq_true h.1⟩,
      decide_eq_true rfl⟩, rfl⟩

end Triage

end Concord
