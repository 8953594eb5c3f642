import Concord.Proofs.HashTree.Drift
import Concord.Proofs.Reconcile.FirstAppearances
import Concord.Proofs.Reconcile.Moments

/-! What a pass attempts and pushes of the resources that it fetched, whatever was tracked before.
Skipping goes by key, while tracking and pushing go by action and identity. The two agree because no
key is both to be created and to be deleted.
-/

namespace Concord

variable {limits : TrackerLimits} {now : Instant}

-----------------------------------------------------------------------------------------
-- What a pass found
-----------------------------------------------------------------------------------------

namespace RootPass

variable {root : String} {ledger left : Ledger} {log : List Exchange} {batch : ResourceBatch}
  {result : Except ReconcileError RootOutcome} {kind : ActionKind} {r : Resource}

namespace Findings

variable {f : Findings} {yields : ResourceAction → TrackOutcome}

/-- What was fetched to be created or to be deleted. -/
def fetched (f : Findings) : ActionKind → List Resource :=
  Triage.fetched f.creates f.deletes

/-- The actions on what was fetched. -/
def actions (f : Findings) : List ResourceAction :=
  (Triage.entries f.creates f.deletes).map Triage.Entry.action

/-- The views answer what they were asked: their trees are well formed, and they give resources at
the keys of the difference only, of one identity at each key.
-/
structure Orderly (f : Findings) : Prop where
  desired : f.desired.WellFormed
  observed : f.observed.WellFormed
  asked : ∀ kind, ∀ r ∈ f.fetched kind, r.key ∈ f.delta.part kind
  single : ∀ kind, ∀ r ∈ f.fetched kind, ∀ r' ∈ f.fetched kind,
    r.key = r'.key → r.identity = r'.identity

/-- The keys of what was fetched and is backed off, given up or was given up before. -/
def skipped (f : Findings) (yields : ResourceAction → TrackOutcome) : List Key :=
  ((Triage.entries f.creates f.deletes).filter fun e => Triage.skips (yields e.action)).map
    fun e => e.2.key

/-- The difference without the keys that are skipped. -/
def tried (f : Findings) (yields : ResourceAction → TrackOutcome) : TreeDiff where
  add := f.delta.add.filter fun key => key ∉ f.skipped yields
  remove := f.delta.remove.filter fun key => key ∉ f.skipped yields

/-- The batch is made of the resources that come to an attempt, in the order fetched, each where its
identity comes first.
-/
structure Batches (f : Findings) (yields : ResourceAction → TrackOutcome) (batch : ResourceBatch)
    : Prop where
  ordered : ∀ kind, (batch.part kind).Sublist (f.fetched kind)
  once : ∀ kind, ((batch.part kind).map Resource.identity).Nodup
  attempts : ∀ kind r, r ∈ batch.part kind
    ↔ yields ⟨kind, r.identity⟩ = .attempt
      ∧ ∃ before after, f.fetched kind = before ++ r :: after
        ∧ ∀ x ∈ before, x.identity ≠ r.identity

theorem batches_sorted (f : Findings) (limits : TrackerLimits) (now : Instant) (ledger : Ledger)
    : f.Batches (fun a => (ledger.records.verdict limits now a).1)
        (f.sorted limits now ledger).1.batch where
  ordered kind := by
    rw [sorted, Triage.part_sort, fetched, ← Triage.entries_of_kind]
    exact ((List.filter_sublist.trans (Triage.sublist_firsts _ _)).filter _).map _
  once kind := by
    have apart := List.pairwise_map.mp
      (Triage.nodup_firsts [] (Triage.entries f.creates f.deletes))
    rw [sorted, Triage.part_sort, List.map_map, List.Nodup, List.pairwise_map]
    -- Among the entries for one action, the identity is all that the actions differ in.
    refine ((apart.filter _).filter _).imp_of_mem fun he he' differ same => differ ?_
    have here := of_decide_eq_true (List.mem_filter.mp he).2
    have here' := of_decide_eq_true (List.mem_filter.mp he').2
    rw [Triage.Entry.action, Triage.Entry.action, here, here']
    exact congrArg _ same
  attempts kind r := by
    rw [sorted, Triage.mem_part_sort, Triage.mem_firsts_entries]
    rfl

theorem mem_skipped_sorted {key : Key}
    : key ∈ (f.sorted limits now ledger).1.skipped
      ↔ key ∈ f.skipped fun a => (ledger.records.verdict limits now a).1 := by
  rw [sorted, (Triage.sort_eq limits now ledger.records f.creates f.deletes).1]
  simp only [Triage.extend, List.nil_append, skipped, List.mem_map, List.mem_filter]
  constructor
  · intro h
    obtain ⟨e, ⟨first, skips⟩, rfl⟩ := h
    exact ⟨e, ⟨(Triage.mem_firsts first).1, skips⟩, rfl⟩
  · intro h
    obtain ⟨e, ⟨listed, skips⟩, rfl⟩ := h
    rcases Triage.action_mem_firsts [] listed with before | ⟨first, hm, same⟩
    · cases before
    · refine ⟨first, ⟨hm, by rwa [same]⟩, ?_⟩
      exact congrArg (fun a => a.identity.key) same

theorem attempted_sorted (f : Findings) (limits : TrackerLimits) (now : Instant) (ledger : Ledger)
    : (f.sorted limits now ledger).1.attempted f.delta
      = f.tried fun a => (ledger.records.verdict limits now a).1 := by
  have skips (key : Key) : key ∈ (f.sorted limits now ledger).1.skipped
      ↔ key ∈ f.skipped fun a => (ledger.records.verdict limits now a).1 :=
    mem_skipped_sorted
  simp [Triage.attempted, tried, skips]

theorem reset_sorted
    : (f.sorted limits now ledger).1.reset = true
      ↔ ∃ a ∈ f.actions, (ledger.records.verdict limits now a).1 = .resetRoot := by
  rw [sorted, (Triage.sort_eq limits now ledger.records f.creates f.deletes).1]
  simp only [Triage.extend, Bool.false_or, List.any_eq_true, decide_eq_true_eq]
  constructor
  · intro h
    obtain ⟨e, first, resets⟩ := h
    exact ⟨e.action, List.mem_map_of_mem (Triage.mem_firsts first).1, resets⟩
  · intro h
    obtain ⟨_, listed, resets⟩ := h
    obtain ⟨e, he, rfl⟩ := List.mem_map.mp listed
    rcases Triage.action_mem_firsts [] he with before | ⟨first, hm, same⟩
    · cases before
    · exact ⟨first, hm, by rwa [same]⟩

/-- A resource that comes to an attempt shares its key with none that is skipped. Another resource
for the same action would have its identity, and one for the other action has a key on the other
side of the difference.
-/
theorem Orderly.not_mem_skipped (h : f.Orderly) (listed : r ∈ f.fetched kind)
    (attempt : yields ⟨kind, r.identity⟩ = .attempt)
    : r.key ∉ f.skipped yields := by
  intro skipped
  obtain ⟨⟨other, x⟩, hm, same⟩ := List.mem_map.mp skipped
  obtain ⟨entry, skips⟩ := List.mem_filter.mp hm
  have here := h.asked kind r listed
  have there := h.asked other x (Triage.mem_entries.mp entry)
  rw [show x.key = r.key from same] at there
  have apart {key : Key} (add : key ∈ f.delta.part .create) : key ∉ f.delta.part .delete :=
    HashTree.not_mem_remove_of_mem_add h.desired h.observed add
  by_cases kinds : other = kind
  · subst kinds
    have alike := h.single other x (Triage.mem_entries.mp entry) r listed same
    simp only [Triage.Entry.action, alike, attempt] at skips
    cases skips
  · cases kind with
    | create =>
        cases other with
        | create => exact kinds rfl
        | delete => exact apart here there
    | delete =>
        cases other with
        | create => exact apart there here
        | delete => exact kinds rfl

/-- All that is pushed is attempted. -/
theorem Orderly.mem_tried (h : f.Orderly) (batches : f.Batches yields batch)
    (pushed : r ∈ batch.part kind)
    : r.key ∈ (f.tried yields).part kind := by
  obtain ⟨attempt, -⟩ := (batches.attempts kind r).mp pushed
  have listed := (batches.ordered kind).subset pushed
  have here := h.asked kind r listed
  have apart := h.not_mem_skipped listed attempt
  cases kind <;> exact List.mem_filter.mpr ⟨here, decide_eq_true apart⟩

/-- And it is pending from when that is told. -/
theorem Orderly.mem_pending (h : f.Orderly) (due : (f.sorted limits now ledger).1.reset = false)
    (pushed : r ∈ (f.sorted limits now ledger).1.batch.part kind)
    : r.key ∈ (f.status limits root now ledger).1 := by
  have tried := h.mem_tried (f.batches_sorted limits now ledger) pushed
  rw [status_of_push due, f.attempted_sorted limits now ledger, StatusTransition.mem_ofPass_fst]
  cases kind with
  | create => exact .inr (List.mem_append_left _ tried)
  | delete => exact .inr (List.mem_append_right _ tried)

/-- What is found can be told from what is asked for it. -/
theorem eq_of_prefix {f' : Findings} (h : f.asked root <+: log) (h' : f'.asked root <+: log)
    : f = f' := by
  have same : f.asked root = f'.asked root :=
    (List.prefix_of_prefix_length_le h h' le_rfl).eq_of_length rfl
  obtain ⟨desired, observed, creates, deletes⟩ := f
  obtain ⟨desired', observed', creates', deletes'⟩ := f'
  simp only [asked, List.cons.injEq] at same
  obtain ⟨tree, tree', added, removed, -⟩ := same
  cases tree
  cases tree'
  cases added
  cases removed
  rfl

/-- Where an action comes to an attempt, there is something to push. -/
theorem Batches.isEmpty_eq_false {a : ResourceAction} (batches : f.Batches yields batch)
    (listed : a ∈ f.actions) (attempt : yields a = .attempt)
    : batch.isEmpty = false := by
  obtain ⟨e, he, rfl⟩ := List.mem_map.mp listed
  rcases Triage.action_mem_firsts [] he with before | ⟨⟨kind, x⟩, first, same⟩
  · cases before
  · rw [← same] at attempt
    have pushed : x ∈ batch.part kind :=
      (batches.attempts kind x).mpr ⟨attempt, Triage.mem_firsts_entries.mp first⟩
    cases kind with
    | create =>
        have full : batch.create.isEmpty = false := List.isEmpty_eq_false_iff.mpr
          (List.ne_nil_of_mem pushed)
        rw [ResourceBatch.isEmpty, full, Bool.false_and]
    | delete =>
        have full : batch.delete.isEmpty = false := List.isEmpty_eq_false_iff.mpr
          (List.ne_nil_of_mem pushed)
        rw [ResourceBatch.isEmpty, full, Bool.and_false]

end Findings

/-- A pass that pushes has sorted what it found and reported it, and pushes last. -/
theorem Course.of_push {reply : Reply Unit} (h : Course limits root now ledger log result left)
    (asked : ⟨.push batch, reply⟩ ∈ log)
    : ∃ f : Findings, f.asked root <+: log ∧ (f.sorted limits now ledger).1.reset = false
        ∧ batch = (f.sorted limits now ledger).1.batch
        ∧ left = ⟨(f.sorted limits now ledger).2, (f.status limits root now ledger).1⟩
        ∧ (∃ before, log = before ++ [⟨.push batch, reply⟩])
        ∧ ∀ outcome, result = .ok outcome →
            outcome = f.pushOutcome limits root now ledger := by
  have unread (f : Findings) : ⟨.push batch, reply⟩ ∉ f.asked root := by
    simp [Findings.asked]
  have untold {told : List StatusTransition} {reported : List Exchange}
      {failure : Option ReconcileError} (reports : Reports root told reported failure)
      : ⟨.push batch, reply⟩ ∉ reported := by
    cases reports <;> simp
  cases h with
  | unread reads => exact (reads _ asked).elim
  | converged same reports =>
      rcases List.mem_append.mp asked with early | late
      · simp at early
      · exact absurd late (untold reports)
  | unreported f differ reports =>
      rcases List.mem_append.mp asked with early | late
      · exact absurd early (unread f)
      · exact absurd late (untold reports)
  | reset f differ due reports resets =>
      rcases List.mem_append.mp asked with early | late
      · rcases List.mem_append.mp early with early | late
        · exact absurd early (unread f)
        · exact absurd late (untold reports)
      · cases resets <;> simp at late
  | @pushed f reported pushed failure differ due reports pushes =>
      rcases List.mem_append.mp asked with early | late
      · rcases List.mem_append.mp early with early | late
        · exact absurd early (unread f)
        · exact absurd late (untold reports)
      · cases pushes with
        | nothing _ => cases late
        | pushed full _ =>
            cases List.mem_singleton.mp late
            refine ⟨f, ?_, due, rfl, rfl, ⟨_, rfl⟩, fun outcome he => ?_⟩
            · rw [List.append_assoc]
              exact List.prefix_append _ _
            · cases failed : reply.error? root with
              | none =>
                  rw [failed] at he
                  cases he
                  rfl
              | some e =>
                  rw [failed] at he
                  cases he

/-- A pass that comes to an outcome and resets nothing of what it found pushes what there is to
push.
-/
theorem Course.of_found {f : Findings} {outcome : RootOutcome}
    (h : Course limits root now ledger log (.ok outcome) left) (found : f.asked root <+: log)
    (due : (f.sorted limits now ledger).1.reset = false)
    : outcome = f.pushOutcome limits root now ledger
      ∧ ((f.sorted limits now ledger).1.batch.isEmpty = false →
          ∃ reply, ⟨.push (f.sorted limits now ledger).1.batch, reply⟩ ∈ log) := by
  generalize hr : (Except.ok outcome : Except ReconcileError RootOutcome) = result at h
  cases h with
  | unread _ => cases hr
  | unreported _ _ _ => cases hr
  | converged same reports =>
      cases reports <;> simp [Findings.asked, List.cons_prefix_cons] at found
  | @reset f' reported rebuilt failure differ due' reports resets =>
      rw [List.append_assoc] at found
      rw [Findings.eq_of_prefix found (List.prefix_append _ _), due'] at due
      cases due
  | @pushed f' reported pushed failure differ due' reports pushes =>
      have same : f = f' := by
        refine Findings.eq_of_prefix found ?_
        rw [List.append_assoc]
        exact List.prefix_append _ _
      subst same
      refine ⟨?_, fun full => ?_⟩
      · cases failure with
        | none =>
            cases hr
            rfl
        | some e => cases hr
      · cases pushes with
        | nothing empty => simp [empty] at full
        | pushed _ reply => exact ⟨reply, List.mem_append_right _ List.mem_cons_self⟩

end RootPass

-----------------------------------------------------------------------------------------
-- Passes under way
-----------------------------------------------------------------------------------------

namespace Underway

variable {ω : Type} {s : Surroundings ω} {r : Reconciler} {w : ω} {strides : List Stride}
  {u : Underway ω} {root : String} {f : RootPass.Findings}

/-- A batch is about to be pushed for a root. -/
def Pushing (u : Underway ω) (root : String) (batch : ResourceBatch) : Prop :=
  ∃ next, u.active.lookup root = some (.asking (.push batch) next)

/-- A batch was pushed for a root, with or without success. -/
def Pushed (u : Underway ω) (root : String) (batch : ResourceBatch) : Prop :=
  ∃ reply, ⟨.push batch, reply⟩ ∈ u.asked root

section

variable {rest : List Exchange} {result : Except ReconcileError RootOutcome} {left : Ledger}
  {batch : ResourceBatch}

/-- A batch that is about to be pushed is the last thing that is asked. -/
theorem Midway.asks_push (midway : u.Midway r now root rest result left)
    (pushing : u.Pushing root batch)
    : ⟨.push batch, .panicked⟩ ∈ u.asked root ++ rest ∧ left = u.reconciler.ledger root := by
  obtain ⟨next, active⟩ := pushing
  obtain ⟨last, ledger⟩ := midway.asking _ _ active
  exact ⟨last ▸ List.mem_append_right _ List.mem_cons_self, ledger⟩

/-- Whatever is asked to be pushed is what was sorted of what was found, and by then all that was
sorted is told.
-/
theorem Midway.of_push {reply : Reply Unit} (midway : u.Midway r now root rest result left)
    (found : f.asked root <+: u.asked root) (asked : ⟨.push batch, reply⟩ ∈ u.asked root ++ rest)
    : (f.sorted r.config.trackerLimits now (r.ledger root)).1.reset = false
      ∧ batch = (f.sorted r.config.trackerLimits now (r.ledger root)).1.batch
      ∧ left = ⟨(f.sorted r.config.trackerLimits now (r.ledger root)).2,
          (f.status r.config.trackerLimits root now (r.ledger root)).1⟩ := by
  obtain ⟨f', begun, due, same, ledger, -⟩ := midway.course.of_push asked
  obtain rfl := RootPass.Findings.eq_of_prefix (found.trans (List.prefix_append _ rest)) begun
  exact ⟨due, same, ledger⟩

/-- So a batch is pushed only if nothing that was found asks for a reset. -/
theorem Midway.pushes (midway : u.Midway r now root rest result left)
    (found : f.asked root <+: u.asked root) (h : u.Pushing root batch ∨ u.Pushed root batch)
    : (f.sorted r.config.trackerLimits now (r.ledger root)).1.reset = false
      ∧ batch = (f.sorted r.config.trackerLimits now (r.ledger root)).1.batch := by
  rcases h with pushing | ⟨reply, pushed⟩
  · obtain ⟨due, same, -⟩ := midway.of_push found (midway.asks_push pushing).1
    exact ⟨due, same⟩
  · obtain ⟨due, same, -⟩ := midway.of_push found (List.mem_append_left rest pushed)
    exact ⟨due, same⟩

end

/-- The triage of a pass, at every moment of it and whatever was tracked before. Each action that
was fetched is observed once, however often it is repeated. If none asks for a reset, what is pushed
are the resources that come to an attempt, in the order fetched and without repetition; their keys
are attempted and not skipped, and they are pending when they are pushed. What is told as attempted
is the difference without the keys that are skipped. If one asks for a reset, nothing is pushed.
-/
theorem triage_of_pass (configured : r.Configured)
    (distinct : (Reconciler.sharedRoots s w).Nodup) (shared : root ∈ Reconciler.sharedRoots s w)
    (run : run s now strides (begin s r w) = some u) (found : f.asked root <+: u.asked root)
    (orderly : f.Orderly)
    : let records := (r.ledger root).records
      let limits := r.config.trackerLimits
      let yields a := (records.verdict limits now a).1
      let sorted := f.sorted limits now (r.ledger root)
      (∃ observed : List ResourceAction,
        observed.Nodup ∧ (∀ a, a ∈ observed ↔ a ∈ f.actions) ∧ sorted.1.seen = observed
        ∧ (Records.observeAll limits now observed records).1 = observed.map yields
        ∧ sorted.2 = (Records.observeAll limits now observed records).2.forgetConverged observed)
      ∧ ((∀ a ∈ f.actions, yields a ≠ .resetRoot) →
          (∀ batch, u.Pushing root batch ∨ u.Pushed root batch →
            f.Batches yields batch
            ∧ ∀ kind, ∀ x ∈ batch.part kind,
                x.key ∈ (f.tried yields).part kind ∧ x.key ∉ f.skipped yields)
          ∧ (∀ batch, u.Pushing root batch →
              (u.reconciler.ledger root).records = sorted.2
              ∧ ∀ kind, ∀ x ∈ batch.part kind, x.key ∈ (u.reconciler.ledger root).pending)
          ∧ ∀ outcome, u.results.lookup root = some (.ok outcome) →
              outcome.attempted = f.tried yields
              ∧ ((∃ a ∈ f.actions, yields a = .attempt) → ∃ batch, u.Pushed root batch))
      ∧ ((∃ a ∈ f.actions, yields a = .resetRoot) →
          ∀ batch, ¬ u.Pushing root batch ∧ ¬ u.Pushed root batch) := by
  intro records limits yields sorted
  obtain ⟨rest, result, left, midway⟩ := exists_midway configured distinct shared run
  have batches : f.Batches yields sorted.1.batch := f.batches_sorted _ _ _
  refine ⟨?_, fun calm => ?_, fun resets batch => ?_⟩
  · obtain ⟨once, listed, left⟩ := Triage.sort_observes limits now records f.creates f.deletes
    exact ⟨_, once, listed, rfl, (Records.observeAll_spec limits now once records).1, left⟩
  · have due : sorted.1.reset = false := by
      rw [← Bool.not_eq_true, RootPass.Findings.reset_sorted]
      rintro ⟨a, listed, asks⟩
      exact calm a listed asks
    refine ⟨fun batch h => ?_, fun batch pushing => ?_, fun outcome told => ?_⟩
    · obtain ⟨-, rfl⟩ := midway.pushes found h
      refine ⟨batches, fun kind x hx => ⟨orderly.mem_tried batches hx, ?_⟩⟩
      exact orderly.not_mem_skipped ((batches.ordered kind).subset hx)
        ((batches.attempts kind x).mp hx).1
    · obtain ⟨asked, here⟩ := midway.asks_push pushing
      obtain ⟨-, rfl, ledger⟩ := midway.of_push found asked
      rw [← here, ledger]
      exact ⟨rfl, fun kind x hx => orderly.mem_pending due hx⟩
    · obtain ⟨rfl, rfl, -⟩ := midway.ended _ told
      obtain ⟨rfl, pushes⟩ := midway.course.of_found (found.trans (List.prefix_append _ _)) due
      rw [List.append_nil] at pushes
      refine ⟨f.attempted_sorted limits now (r.ledger root), fun attempts => ?_⟩
      obtain ⟨a, listed, attempt⟩ := attempts
      exact ⟨_, pushes (batches.isEmpty_eq_false listed attempt)⟩
  · have due : sorted.1.reset = true := RootPass.Findings.reset_sorted.mpr resets
    have idle (h : u.Pushing root batch ∨ u.Pushed root batch) : False := by
      obtain ⟨calm, -⟩ := midway.pushes found h
      exact Bool.false_ne_true (calm.symm.trans due)
    exact ⟨fun h => idle (.inl h), fun h => idle (.inr h)⟩

end Underway

-----------------------------------------------------------------------------------------
-- Resources that are fetched twice
-----------------------------------------------------------------------------------------

namespace Twice

/-- The resources at these keys, each twice. -/
def twice (keys : List Key) : List Resource :=
  keys.flatMap fun key => [Resource.reference key, Resource.reference key]

/-- The tree of these keys. -/
def tree (keys : List Key) : HashTree :=
  ((∅ : HashTree).addAll (keys.map (·, ∅))).1

/-- Some keys are wanted under a root that has none. What is pushed never arrives, and the views
give every resource twice.
-/
def surroundings : Surroundings (List Key) where
  roots _ _ := ["t1"]
  ask
    | .tree .desired _, wanted => (.answered (tree wanted), wanted)
    | .tree .observed _, wanted => (.answered ∅, wanted)
    | .resources keys, wanted => (.answered (twice keys), wanted)
    | .resourcesForDelete keys, wanted => (.answered (twice keys), wanted)
    | .report _, wanted => (.answered (), wanted)
    | .push _, wanted => (.answered (), wanted)
    | .reset .., wanted => (.answered (), wanted)
  serve _ _ wanted := (.ok (), wanted)
  settle _ wanted := (.ok (), wanted)

variable {w : List Key} {strides : List Stride} {u : Underway (List Key)} {now : Instant}
  {r : Reconciler} {f : RootPass.Findings}

theorem key_of_mem_twice {keys : List Key} {x : Resource} (h : x ∈ twice keys)
    : x.key ∈ keys ∧ x = .reference x.key := by
  obtain ⟨key, listed, hx⟩ := List.mem_flatMap.mp h
  have same : x = .reference key := by simpa using hx
  rw [same]
  exact ⟨listed, rfl⟩

/-- Such views answer what they are asked, at every moment of every pass. -/
theorem orderly_of_asked
    (run : Underway.run surroundings now strides (.begin surroundings r w) = some u)
    (found : f.asked "t1" <+: u.asked "t1")
    : f.Orderly := by
  have given (x : Exchange) (hx : x ∈ f.asked "t1") :=
    Underway.run_truthful run x (found.subset hx)
  simp only [RootPass.Findings.asked, List.forall_mem_cons] at given
  obtain ⟨⟨_, desired⟩, ⟨_, observed⟩, ⟨_, creates⟩, ⟨_, deletes⟩, -⟩ := given
  have fetched (kind : ActionKind) : f.fetched kind = twice (f.delta.part kind) := by
    cases kind with
    | create => exact (Reply.answered.inj creates).symm
    | delete => exact (Reply.answered.inj deletes).symm
  refine ⟨?_, ?_, fun kind x hx => ?_, fun kind x hx x' hx' same => ?_⟩
  · rw [← Reply.answered.inj desired]
    exact (HashTree.Built.empty.included _).wellFormed
  · rw [← Reply.answered.inj observed]
    exact HashTree.Built.empty.wellFormed
  · rw [fetched] at hx
    exact (key_of_mem_twice hx).1
  · rw [fetched] at hx hx'
    obtain ⟨-, plain⟩ := key_of_mem_twice hx
    obtain ⟨-, plain'⟩ := key_of_mem_twice hx'
    rw [same] at plain
    rw [plain.trans plain'.symm]

/-- A number of steps of a pass. -/
def lap (wanted : List Key) (now : Instant) (steps : Nat) (r : Reconciler)
    : Option (Underway (List Key)) :=
  Underway.run surroundings now (.start :: List.replicate steps (.work "t1"))
    (.begin surroundings r wanted)

/-- A pass that pushes all it finds. -/
def first : Underway (List Key) :=
  (lap [⟨["t1", "a"]⟩] ⟨0⟩ 9 (.new {})).get (by decide +kernel)

/-- Half a second later another key is wanted. A batch is about to be pushed. -/
def second : Underway (List Key) :=
  (lap [⟨["t1", "a"]⟩, ⟨["t1", "b"]⟩] ⟨500000000⟩ 7 first.reconciler).get (by decide +kernel)

/-- Whether resources were asked for at the keys of the difference. -/
def sorts : List Exchange → Bool
  | ⟨.tree .desired root, .answered desired⟩ :: ⟨.tree .observed root', .answered observed⟩
      :: ⟨.resources add, .answered _⟩ :: ⟨.resourcesForDelete remove, .answered _⟩ :: _ =>
      root = "t1" ∧ root' = "t1" ∧ (⟨add, remove⟩ : TreeDiff) = desired.diff observed
  | _ => false

theorem asked_of_sorts {log : List Exchange} (h : sorts log = true)
    : ∃ f, RootPass.findings? log = some f ∧ f.asked "t1" <+: log := by
  rw [sorts.eq_def] at h
  split at h
  · rename_i root desired root' observed add creates remove deletes rest
    obtain ⟨rfl, rfl, same⟩ := of_decide_eq_true h
    obtain rfl : add = (desired.diff observed).add := congrArg TreeDiff.add same
    obtain rfl : remove = (desired.diff observed).remove := congrArg TreeDiff.remove same
    exact ⟨⟨desired, observed, creates, deletes⟩, rfl, rest, rfl⟩
  · cases h

/-- The batch of the key that is new. -/
def batch : ResourceBatch :=
  ⟨[.reference ⟨["t1", "b"]⟩], []⟩

/-- Whether this is to be pushed next. -/
def pushes (batch : ResourceBatch) : Option Task → Bool
  | some (.asking (.push b) _) => b = batch
  | _ => false

theorem pushing_second : second.Pushing "t1" batch := by
  have next : pushes batch (second.active.lookup "t1") = true := by decide +kernel
  rw [Underway.Pushing]
  rw [pushes.eq_def] at next
  split at next
  · rename_i task b next' task
    rw [task, of_decide_eq_true next]
    exact ⟨_, rfl⟩
  · cases next

/-- The first key is backed off since the first pass, and the second is about to be pushed, once. -/
theorem triage_of_pass_twice
    : ∃ f : RootPass.Findings,
        f.creates = twice [⟨["t1", "a"]⟩, ⟨["t1", "b"]⟩] ∧ second.Pushing "t1" batch
        ∧ (∀ x ∈ batch.create, x.key ∈ (second.reconciler.ledger "t1").pending)
        ∧ ∃ observed : List ResourceAction,
            observed.Nodup ∧ ∀ a, a ∈ observed ↔ a ∈ f.actions := by
  have sorted : sorts (second.asked "t1") = true := by decide +kernel
  obtain ⟨f, found, asked⟩ := asked_of_sorts sorted
  have fetched : (RootPass.findings? (second.asked "t1")).map (fun f => (f.creates, f.deletes))
      = some (twice [⟨["t1", "a"]⟩, ⟨["t1", "b"]⟩], []) := by
    decide +kernel
  rw [found] at fetched
  obtain ⟨creates, deletes⟩ := Prod.mk.inj (Option.some.inj fetched)
  have configured : first.reconciler.Configured := by
    rw [Reconciler.Configured]
    decide +kernel
  have run : lap [⟨["t1", "a"]⟩, ⟨["t1", "b"]⟩] ⟨500000000⟩ 7 first.reconciler
      = some second :=
    (Option.some_get _).symm
  have orderly := orderly_of_asked run asked
  obtain ⟨⟨observed, once, listed, -⟩, calm, -⟩ :=
    Underway.triage_of_pass configured (by decide) (by decide) run asked orderly
  have quiet : ∀ a ∈ f.actions, (((first.reconciler.ledger "t1").records.verdict
      first.reconciler.config.trackerLimits ⟨500000000⟩ a).1) ≠ .resetRoot := by
    rw [RootPass.Findings.actions, creates, deletes]
    decide +kernel
  obtain ⟨-, pending, -⟩ := calm quiet
  exact ⟨f, creates, pushing_second, (pending batch pushing_second).2 .create, observed, once,
    listed⟩

end Twice

end Concord
