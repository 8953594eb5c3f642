import Concord.Reconcile.Triage

/-! What a pass makes of the resources that it fetched. Each action counts once, at its first
place, its outcome follows from the record that it had before, and the whole triage and all
records after it are read off these outcomes.
-/

namespace Concord

variable {limits : TrackerLimits} {now : Instant} {records : Records}
  {creates deletes : List Resource}

/-- The outcome of an action that appears now, and its record from then on. -/
def Records.verdict (records : Records) (limits : TrackerLimits) (now : Instant)
    (action : ResourceAction) : TrackOutcome × TrackedAction :=
  ((records[action]?).getD (.start limits.resetLimit now)).observe limits now

theorem Records.observe_eq (records : Records) (action : ResourceAction)
    : records.observe limits action now
      = ((records.verdict limits now action).1,
          records.insert action (records.verdict limits now action).2) :=
  rfl

theorem Records.getElem?_insert_eq (records : Records) (action other : ResourceAction)
    (record : TrackedAction)
    : (records.insert action record)[other]?
      = if other = action then some record else records[other]? := by
  rw [Std.ExtTreeMap.getElem?_insert]
  by_cases same : other = action
  · simp [same]
  · have differs : compare action other ≠ .eq := fun he =>
      same (Std.LawfulEqOrd.eq_of_compare he).symm
    rw [if_neg differs, if_neg same]

theorem Records.verdict_insert {action other : ResourceAction} (record : TrackedAction)
    (h : other ≠ action)
    : Records.verdict (records.insert action record) limits now other
      = records.verdict limits now other := by
  rw [verdict, getElem?_insert_eq, if_neg h, verdict]

namespace Triage

/-- What is to be done with which resource. -/
abbrev Entry :=
  ActionKind × Resource

/-- The action that is tracked. -/
def Entry.action (e : Entry) : ResourceAction :=
  ⟨e.1, e.2.identity⟩

/-- What is sorted: first what is to be created. -/
def entries (creates deletes : List Resource) : List Entry :=
  creates.map (ActionKind.create, ·) ++ deletes.map (ActionKind.delete, ·)

/-- Each action at its first place, but for those seen before. -/
def firsts (seen : List ResourceAction) : List Entry → List Entry
  | [] => []
  | e :: rest =>
      if seen.contains e.action then firsts seen rest
      else e :: firsts (seen ++ [e.action]) rest

/-- Whether the key is skipped in the pass. -/
def skips : TrackOutcome → Bool
  | .backedOff | .failed | .stillFailed => true
  | .attempt | .resetRoot => false

/-- A triage with more resources whose outcomes are known. -/
def extend (t : Triage) (outcome : ResourceAction → TrackOutcome) (entries : List Entry)
    : Triage :=
  let with_ (o : TrackOutcome) := entries.filter fun e => outcome e.action = o
  let pushed (action : ActionKind) :=
    ((with_ .attempt).filter fun e => e.1 = action).map Prod.snd
  { batch := ⟨t.batch.create ++ pushed .create, t.batch.delete ++ pushed .delete⟩
    seen := t.seen ++ entries.map Entry.action
    skipped := t.skipped ++ (entries.filter fun e => skips (outcome e.action)).map (·.2.key)
    backedOff := t.backedOff + (with_ .backedOff).length
    failed := t.failed ++ with_ .failed
    reset := t.reset || entries.any fun e => outcome e.action = .resetRoot }

variable {outcome : ResourceAction → TrackOutcome} {e : Entry}

theorem extend_nil (t : Triage) : t.extend outcome [] = t := by
  simp [extend]

theorem extend_cons (t : Triage) (e : Entry) (rest : List Entry)
    : t.extend outcome (e :: rest)
      = ({ t with seen := t.seen ++ [e.action] }.add e.1 e.2 (outcome e.action)).extend outcome
          rest := by
  obtain ⟨action, resource⟩ := e
  cases h : outcome (Entry.action (action, resource)) with
  | attempt => cases action <;> simp [extend, add, ResourceBatch.push, h, skips]
  | backedOff => simp [extend, add, h, skips]; omega
  | resetRoot => simp [extend, add, h, skips]
  | failed => simp [extend, add, h, skips]
  | stillFailed => simp [extend, add, h, skips]

theorem extend_congr {other : ResourceAction → TrackOutcome} {t : Triage} {entries : List Entry}
    (h : ∀ e ∈ entries, outcome e.action = other e.action)
    : t.extend outcome entries = t.extend other entries := by
  induction entries generalizing t with
  | nil => rfl
  | cons e rest ih =>
      obtain ⟨same, later⟩ := List.forall_mem_cons.mp h
      rw [extend_cons, extend_cons, same, ih later]

/-- What was seen is not among the firsts, which are among the entries. -/
theorem mem_firsts {seen : List ResourceAction} {entries : List Entry}
    (h : e ∈ firsts seen entries)
    : e ∈ entries ∧ e.action ∉ seen := by
  induction entries generalizing seen with
  | nil => cases h
  | cons first rest ih =>
      rw [firsts] at h
      split at h
      · exact ⟨List.mem_cons_of_mem _ (ih h).1, (ih h).2⟩
      · rename_i fresh
        rcases List.mem_cons.mp h with rfl | later
        · exact ⟨List.mem_cons_self, by simpa using fresh⟩
        · obtain ⟨member, unseen⟩ := ih later
          exact ⟨List.mem_cons_of_mem _ member, fun before =>
            unseen (List.mem_append_left _ before)⟩

/-- Every action is seen, sooner or later. -/
theorem action_mem_firsts (seen : List ResourceAction) {entries : List Entry} (h : e ∈ entries)
    : e.action ∈ seen ∨ ∃ first ∈ firsts seen entries, first.action = e.action := by
  induction entries generalizing seen with
  | nil => cases h
  | cons first rest ih =>
      rw [firsts]
      split
      · rename_i before
        rcases List.mem_cons.mp h with rfl | later
        · exact .inl (by simpa using before)
        · exact ih seen later
      · rcases List.mem_cons.mp h with rfl | later
        · exact .inr ⟨e, List.mem_cons_self, rfl⟩
        · rcases ih (seen ++ [first.action]) later with before | ⟨other, hm, same⟩
          · rcases List.mem_append.mp before with before | this
            · exact .inl before
            · exact .inr ⟨first, List.mem_cons_self, (List.mem_singleton.mp this).symm⟩
          · exact .inr ⟨other, List.mem_cons_of_mem _ hm, same⟩

/-- Where no action appears twice, all of them are firsts. -/
theorem firsts_of_nodup {seen : List ResourceAction} {entries : List Entry}
    (h : (entries.map Entry.action).Nodup) (fresh : ∀ e ∈ entries, e.action ∉ seen)
    : firsts seen entries = entries := by
  induction entries generalizing seen with
  | nil => rfl
  | cons first rest ih =>
      obtain ⟨absent, distinct⟩ := List.nodup_cons.mp h
      obtain ⟨unseen, later⟩ := List.forall_mem_cons.mp fresh
      rw [firsts, if_neg (by simpa using unseen), ih distinct]
      intro e he
      rw [List.mem_append, List.mem_singleton, not_or]
      exact ⟨later e he, fun same => absent (same ▸ List.mem_map_of_mem he)⟩

/-- Sorting keeps to the outcomes that the records of the start give, by induction on what is
sorted: no action is observed twice, and another action's record says nothing of its outcome.
-/
theorem foldl_step (limits : TrackerLimits) (now : Instant) (entries : List Entry) (t : Triage)
    (records : Records)
    : (entries.foldl (step limits now) (t, records)).1
        = t.extend (fun a => (records.verdict limits now a).1) (firsts t.seen entries)
      ∧ ∀ a, (entries.foldl (step limits now) (t, records)).2[a]?
          = if a ∈ (firsts t.seen entries).map Entry.action then
              some (records.verdict limits now a).2
            else records[a]? := by
  induction entries generalizing t records with
  | nil => exact ⟨(extend_nil t).symm, fun a => by simp [firsts]⟩
  | cons e rest ih =>
      rw [List.foldl_cons, firsts]
      by_cases seen : t.seen.contains e.action
      · have stays : step limits now (t, records) e = (t, records) := by
          have seen' : t.seen.contains ⟨e.1, e.2.identity⟩ = true := seen
          simp only [step, seen', if_true]
        rw [stays, if_pos seen]
        exact ih t records
      · have taken : step limits now (t, records) e
            = ({ t with seen := t.seen ++ [e.action] }.add e.1 e.2
                (records.verdict limits now e.action).1,
              records.insert e.action (records.verdict limits now e.action).2) := by
          have fresh : ¬ t.seen.contains ⟨e.1, e.2.identity⟩ = true := seen
          simp only [step, if_neg fresh, Records.observe_eq]
          rfl
        have added (o : TrackOutcome)
            : ({ t with seen := t.seen ++ [e.action] }.add e.1 e.2 o).seen
              = t.seen ++ [e.action] := by
          cases o <;> rfl
        rw [taken, if_neg seen]
        obtain ⟨triage, found⟩ := ih ({ t with seen := t.seen ++ [e.action] }.add e.1 e.2
          (records.verdict limits now e.action).1)
          (records.insert e.action (records.verdict limits now e.action).2)
        rw [added] at triage found
        have apart {a : ResourceAction}
            (ha : a ∈ (firsts (t.seen ++ [e.action]) rest).map Entry.action)
            : a ≠ e.action := by
          obtain ⟨other, hm, rfl⟩ := List.mem_map.mp ha
          intro same
          exact (mem_firsts hm).2 (by simp [same])
        constructor
        · rw [triage, extend_cons]
          refine extend_congr fun other hm => ?_
          rw [Records.verdict_insert _ (apart (List.mem_map_of_mem hm))]
        · intro a
          rw [found a, Records.getElem?_insert_eq]
          by_cases later : a ∈ (firsts (t.seen ++ [e.action]) rest).map Entry.action
          · have listed : a ∈ (e :: firsts (t.seen ++ [e.action]) rest).map Entry.action :=
              List.mem_cons_of_mem _ later
            rw [if_pos later, if_pos listed, Records.verdict_insert _ (apart later)]
          · by_cases this : a = e.action
            · subst this
              simp [later]
            · simp [later, this]

/-- The triage and the records of a pass. Records of actions that are not among those fetched are
dropped.
-/
theorem sort_eq (limits : TrackerLimits) (now : Instant) (records : Records)
    (creates deletes : List Resource)
    : (sort limits now records creates deletes).1
        = extend {} (fun a => (records.verdict limits now a).1)
            (firsts [] (entries creates deletes))
      ∧ ∀ a, (sort limits now records creates deletes).2[a]?
          = if a ∈ (entries creates deletes).map Entry.action then
              some (records.verdict limits now a).2
            else none := by
  obtain ⟨triage, found⟩ := foldl_step limits now (entries creates deletes) {} records
  refine ⟨triage, fun a => ?_⟩
  have seen : ((entries creates deletes).foldl (step limits now) ({}, records)).1.seen
      = (firsts [] (entries creates deletes)).map Entry.action := by
    rw [triage]
    rfl
  have kept : (sort limits now records creates deletes).2[a]?
      = (((entries creates deletes).foldl (step limits now) ({}, records)).2[a]?).filter
          fun _ => ((firsts [] (entries creates deletes)).map Entry.action).contains a := by
    rw [← seen]
    exact Std.ExtTreeMap.getElem?_filter'
  have listed : a ∈ (firsts [] (entries creates deletes)).map Entry.action
      ↔ a ∈ (entries creates deletes).map Entry.action := by
    constructor
    · intro first
      obtain ⟨e, he, rfl⟩ := List.mem_map.mp first
      exact List.mem_map_of_mem (mem_firsts he).1
    · intro entry
      obtain ⟨e, he, rfl⟩ := List.mem_map.mp entry
      rcases action_mem_firsts [] he with none | ⟨first, hm, same⟩
      · cases none
      · exact List.mem_map.mpr ⟨first, hm, same⟩
  rw [kept, found a]
  by_cases here : a ∈ (entries creates deletes).map Entry.action
  · rw [if_pos here, if_pos (listed.mpr here)]
    simp only [Option.filter, List.contains_iff_mem, listed.mpr here, if_true]
  · rw [if_neg here]
    refine Option.filter_eq_none_iff.mpr fun _ _ => ?_
    rw [List.contains_iff_mem]
    exact fun first => here (listed.mp first)

end Triage

end Concord
