import Concord.Proofs.Reconcile.StandingDelta

/-! One pass after the other over the only root of two settled sites, while the fabric drops the
pushes of some keys forever. Main statement: what can be pushed is pushed once, the rest is tried
up to the first limit, the root is reset once, the rest is tried up to the second limit and given
up, and then there is silence.
-/

namespace Concord

variable {ω : Type} {i i' : Installation} {kind : TreeKind} {root : String}

-----------------------------------------------------------------------------------------
-- Rounds
-----------------------------------------------------------------------------------------

namespace Reconciler

/-- One pass, and then a wait until its pushes have landed. -/
def round (s : Surroundings ω) (now : Instant) (state : Reconciler × ω) : Reconciler × ω :=
  let ((_, r), w) := state.1.pass s now state.2
  (r, (settle s w).2)

/-- A reconciler that remembers nothing and its world, after a number of rounds. -/
def rounds (s : Surroundings ω) (config : ReconcilerConfig) (now : Nat → Instant) (w : ω)
    : Nat → Reconciler × ω
  | 0 => (.new config, w)
  | n + 1 => round s (now n) (rounds s config now w n)

end Reconciler

namespace RootPass

open TrackedAction

variable {limits : TrackerLimits} {now later : Instant} {ledger : Ledger} {passes : Nat}

/-- A pass over settled sites whose actions are on one rung. -/
theorem Findings.OnRung.yields
    (onRung : (sights i kind root).OnRung limits now ledger.records passes)
    (complete : (sights i kind root).Complete) (settled : i.Settled kind root)
    (taken : i.sink.isOpen = true)
    : let f := sights i kind root
      ∃ outcome log i',
        (program limits root now ledger).Yields (Installation.surroundings kind) root i log
          (.ok outcome, f.left limits root now ledger) i'
        ∧ Effect i kind root (f.status limits root now ledger).2
            (if passes ≠ resetPass limits ∧ passes < purgePass limits then ⟨f.creates, f.deletes⟩
              else {})
            (decide (passes = resetPass limits)) log i' := by
  intro f
  have due := onRung.reset_eq complete
  by_cases reset : passes = resetPass limits
  · rw [if_neg fun early => early.1 reset, decide_eq_true reset]
    exact yields_reset settled taken complete.differ (due.trans (decide_eq_true reset))
  · rw [← onRung.batch_eq complete, decide_eq_false reset]
    exact yields_push settled taken complete.differ (due.trans (decide_eq_false reset))

variable {told : List StatusTransition} {reset : Bool} {log : List Exchange}

/-- A pass that pushes all that it found has the fabric take over what it does not drop. -/
theorem Effect.takenOver_of_push (settled : i.Settled kind root) (apart : Apart i kind root)
    (complete : (sights i kind root).Complete)
    (effect : Effect i kind root told ⟨(sights i kind root).creates, (sights i kind root).deletes⟩
      reset log i')
    : TakenOver i i' kind root := by
  have still : (pushed i kind root).Still i'.fabric.backend := by
    have fabric := effect.fabric
    rw [pushedTo, complete.batch_isEmpty, if_neg Bool.false_ne_true] at fabric
    exact fabric
  refine ⟨effect.store.objects, still.failing.trans ?_, fun k => ?_⟩
  · exact (Memory.Dropping.push ⟨rfl, (settled .observed).errors⟩ kind _).failing
  · rw [Memory.projected_congr still.objects, projected_pushed settled apart]

/-- A pass that pushes nothing leaves everything as it was. -/
theorem Effect.takenOver_of_rest {i₀ : Installation} (earlier : TakenOver i₀ i kind root)
    (effect : Effect i kind root told {} reset log i')
    : TakenOver i i' kind root where
  store := effect.store.objects
  failing := effect.fabric.failing
  fabric := fun k => (Memory.projected_congr effect.fabric.objects).trans (earlier.stays.fabric k)

-----------------------------------------------------------------------------------------
-- From pass to pass
-----------------------------------------------------------------------------------------

/-- Both views serve the root alone, are hydrated and have nothing left to do. They differ at keys
whose pushes the fabric drops, the sink is open, and the hashes tell the trees apart, before the
first batch and after it.
-/
structure Stuck (i : Installation) (kind : TreeKind) (root : String) : Prop where
  settled : i.Settled kind root
  taken : i.sink.isOpen = true
  apart : Apart i kind root
  after : (i.store.backend.tree root kind).Distinguishable ((pushed i kind root).tree root kind)
  stuck : ((sights i kind root).delta.within i.fabric.backend.failing).isEmpty = false

/-- What holds before a pass that a number of passes went before. -/
structure Before (i : Installation) (kind : TreeKind) (root : String) (config : ReconcilerConfig)
    (now : Instant) (passes : Nat) (state : Reconciler × Installation) : Prop where
  configured : state.1.config = config
  settled : state.2.Settled kind root
  taken : state.2.sink.isOpen = true
  first : passes = 0 → state.2 = i
  takenOver : 0 < passes → TakenOver i state.2 kind root
  onRung : (sights state.2 kind root).OnRung config.trackerLimits now
    (state.1.ledger root).records passes
  none : purgePass config.trackerLimits < passes → ∀ key, key ∉ (state.1.ledger root).pending

/-- The difference before a pass: all of it at first, and then what the fabric drops. -/
def due (i : Installation) (kind : TreeKind) (root : String) (passes : Nat) : TreeDiff :=
  if passes = 0 then (sights i kind root).delta
  else (sights i kind root).delta.within i.fabric.backend.failing

variable {config : ReconcilerConfig} {state : Reconciler × Installation}

/-- Nothing is remembered before the first pass. -/
theorem before_new (stuck : Stuck i kind root) (config : ReconcilerConfig) (now : Instant)
    : Before i kind root config now 0 (.new config, i) where
  configured := rfl
  settled := stuck.settled
  taken := stuck.taken
  first := fun _ => rfl
  takenOver := fun later => by cases later
  onRung := fun _ _ => .first (climbs_start _ now)
  none := fun beyond => by cases beyond

theorem Before.apart (h : Before i kind root config now passes state) (stuck : Stuck i kind root)
    : Apart state.2 kind root := by
  rcases Nat.eq_zero_or_pos passes with start | later
  · rw [h.first start]
    exact stuck.apart
  · exact (h.takenOver later).apart stuck.settled stuck.apart h.settled stuck.after

theorem Before.perm_delta (h : Before i kind root config now passes state)
    (stuck : Stuck i kind root)
    : (sights state.2 kind root).delta.add.Perm (due i kind root passes).add
      ∧ (sights state.2 kind root).delta.remove.Perm (due i kind root passes).remove := by
  rcases Nat.eq_zero_or_pos passes with start | later
  · rw [due, if_pos start, h.first start]
    exact ⟨.refl _, .refl _⟩
  · rw [due, if_neg (Nat.ne_of_gt later)]
    exact (h.takenOver later).perm_delta stuck.settled stuck.apart h.settled (h.apart stuck)

/-- There is always something that differs. -/
theorem Stuck.due_isEmpty (stuck : Stuck i kind root) (passes : Nat)
    : (due i kind root passes).isEmpty = false := by
  rw [due]
  split
  · cases empty : (sights i kind root).delta.isEmpty with
    | false => rfl
    | true =>
        have some := stuck.stuck
        rw [eq_empty_of_isEmpty empty] at some
        cases some
  · exact stuck.stuck

theorem Before.complete (h : Before i kind root config now passes state)
    (stuck : Stuck i kind root)
    : (sights state.2 kind root).Complete := by
  refine complete_sights h.settled (h.apart stuck) ?_
  obtain ⟨add, remove⟩ := h.perm_delta stuck
  rw [TreeDiff.isEmpty, add.isEmpty_eq, remove.isEmpty_eq]
  exact stuck.due_isEmpty passes

/-- A single batch was pushed, which creates and deletes at just the keys of a difference, as often
as that lists them.
-/
def PushesJust (log : List Exchange) (d : TreeDiff) : Prop :=
  ∃ batch, batches log = [batch] ∧ (batch.create.map Resource.key).Perm d.add
    ∧ (batch.delete.map Resource.key).Perm d.remove

/-- What a pass did that a number of passes went before, while a difference stayed. -/
structure Did (limits : TrackerLimits) (root : String) (passes : Nat) (d : TreeDiff)
    (log : List Exchange) : Prop where
  pushes : passes ≠ resetPass limits → passes < purgePass limits → PushesJust log d
  rests : passes = resetPass limits ∨ purgePass limits ≤ passes → batches log = []
  rebuilds : resets log
    = if passes = resetPass limits then [(.observed, root), (.desired, root)] else []
  fails : passes = purgePass limits → (failures (transitions log)).Perm (d.add ++ d.remove)
  succeeds : passes ≠ purgePass limits → failures (transitions log) = []
  silent : purgePass limits < passes → transitions log = []

/-- What a pass does follows from the number of passes that went before. -/
theorem Before.did (h : Before i kind root config now passes state) (stuck : Stuck i kind root)
    {batch : ResourceBatch}
    (chosen : batch
      = if passes ≠ resetPass config.trackerLimits ∧ passes < purgePass config.trackerLimits then
          ⟨(sights state.2 kind root).creates, (sights state.2 kind root).deletes⟩
        else {})
    (effect : Effect state.2 kind root
      ((sights state.2 kind root).status config.trackerLimits root now (state.1.ledger root)).2
      batch (decide (passes = resetPass config.trackerLimits)) log i')
    : Did config.trackerLimits root passes (due i kind root passes) log := by
  have complete := h.complete stuck
  obtain ⟨add, remove⟩ := h.perm_delta stuck
  have failed := @Findings.OnRung.failures_eq _ root _ _ _ _ h.onRung complete
  rw [← effect.told] at failed
  refine ⟨fun early before => ?_, fun rest => ?_, ?_, fun last => ?_, fun other => ?_,
    fun beyond => ?_⟩
  · rw [if_pos ⟨early, before⟩] at chosen
    have pushes := effect.pushes
    rw [chosen, complete.batch_isEmpty, if_neg Bool.false_ne_true] at pushes
    exact ⟨_, pushes, complete.creates ▸ add, complete.deletes ▸ remove⟩
  · rw [if_neg (by omega)] at chosen
    have pushes := effect.pushes
    rw [chosen] at pushes
    exact pushes
  · rw [effect.rebuilds]
    simp
  · rw [failed, if_pos last]
    exact add.append remove
  · rw [failed, if_neg other]
  · rw [effect.told]
    exact h.onRung.silent complete beyond (h.none beyond)

/-- What a pass leaves differs at keys whose pushes are dropped only. -/
theorem Before.left (h : Before i kind root config now passes state) (stuck : Stuck i kind root)
    (tries : 0 < resetPass config.trackerLimits) {batch : ResourceBatch}
    (chosen : batch
      = if passes ≠ resetPass config.trackerLimits ∧ passes < purgePass config.trackerLimits then
          ⟨(sights state.2 kind root).creates, (sights state.2 kind root).deletes⟩
        else {})
    (effect : Effect state.2 kind root told batch reset log i')
    : TakenOver state.2 i' kind root := by
  have order := resetPass_lt_purgePass config.trackerLimits
  by_cases pushes : passes ≠ resetPass config.trackerLimits
      ∧ passes < purgePass config.trackerLimits
  · rw [if_pos pushes] at chosen
    subst chosen
    exact effect.takenOver_of_push h.settled (h.apart stuck) (h.complete stuck)
  · rw [if_neg pushes] at chosen
    subst chosen
    exact effect.takenOver_of_rest (h.takenOver (by omega))

/-- A round does what is due at its number, without an error, and leads to the next number. -/
theorem Before.round (h : Before i kind root config now passes state) (stuck : Stuck i kind root)
    (tries : 0 < resetPass config.trackerLimits)
    (waited : now.nanos + config.maxBackoff.nanos ≤ later.nanos)
    : let s := Installation.surroundings kind
      let pass := state.1.pass s now state.2
      pass.1.1.errors = [] ∧ (Reconciler.settle s pass.2).1 = .ok ()
        ∧ Did config.trackerLimits root passes (due i kind root passes)
            (state.1.talk s now state.2)
        ∧ Before i kind root config later (passes + 1) (Reconciler.round s now state) := by
  intro s pass
  have complete := h.complete stuck
  obtain ⟨outcome, log, i', yields, effect⟩ := h.onRung.yields complete h.settled h.taken
  have shared : Reconciler.sharedRoots s state.2 = [root] := by
    have roots (side : Side) : s.roots side state.2 = [root] := (h.settled side).shows.1
    rw [Reconciler.sharedRoots, roots, roots]
    simp
  obtain ⟨passed, talked⟩ := Reconciler.pass_lone shared now state.1
  rw [Reconciler.program, h.configured, yields.run] at passed
  rw [Reconciler.program, h.configured, yields.talk] at talked
  obtain ⟨settles, settled, still⟩ := Installation.settled_settles effect.attended
  have left := (h.left stuck tries rfl effect).still still
  have takenOver : TakenOver i (Reconciler.settle s i').2 kind root := by
    rcases Nat.eq_zero_or_pos passes with start | later
    · rw [h.first start] at left
      exact left
    · exact (h.takenOver later).trans left
  have fewer := left.entries_subset h.settled (h.apart stuck) settled
    (takenOver.apart stuck.settled stuck.apart settled stuck.after)
  have moved : Reconciler.round s now state
      = ((state.1.retainRoots [root]).setLedger root
            ((sights state.2 kind root).left config.trackerLimits root now (state.1.ledger root)),
          (Reconciler.settle s i').2) := by
    rw [Reconciler.round, passed]
  have remembered : (Reconciler.round s now state).1.ledger root
      = (sights state.2 kind root).left config.trackerLimits root now (state.1.ledger root) := by
    rw [moved, Reconciler.ledger_setLedger, if_pos rfl]
  simp only [pass]
  rw [passed, talked]
  refine ⟨rfl, settles, h.did stuck rfl effect, ?_⟩
  exact {
    configured := by
      rw [moved]
      exact h.configured
    settled := by rwa [moved]
    taken := by
      rw [moved]
      exact still.sink ▸ effect.taken
    first := fun start => by cases start
    takenOver := fun _ => by rwa [moved]
    onRung := by
      rw [remembered, moved]
      exact h.onRung.next complete fewer waited
    none := fun beyond key => by
      rw [remembered]
      exact h.onRung.pending_eq complete (Nat.le_of_lt_succ beyond) h.none key
  }

-----------------------------------------------------------------------------------------
-- The whole run
-----------------------------------------------------------------------------------------

/-- The numbers of passes that lead to a reset and to giving up, where doubling fits the limits. -/
theorem limits_of_fits (fits : 4 * config.maxCreateRetry.toNat < UInt32.size)
    : resetPass config.trackerLimits = 2 * config.maxCreateRetry.toNat
      ∧ purgePass config.trackerLimits
        = 2 * config.maxCreateRetry.toNat + 1 + 2 * (2 * config.maxCreateRetry.toNat) := by
  have doubled (n : UInt32) (fits : 2 * n.toNat < UInt32.size)
      : (saturatingAdd n n).toNat = 2 * n.toNat := by
    rw [toNat_saturatingAdd]
    omega
  have first : config.trackerLimits.resetLimit.toNat = 2 * config.maxCreateRetry.toNat :=
    doubled _ (by omega)
  have second : config.trackerLimits.purgeLimit.toNat
      = 2 * config.trackerLimits.resetLimit.toNat :=
    doubled config.trackerLimits.resetLimit (by omega)
  rw [resetPass, purgePass, second, first]
  exact ⟨rfl, rfl⟩

/-- The invariant holds before every pass, by induction on the passes that went before. -/
theorem before_rounds {now : Nat → Instant} (stuck : Stuck i kind root)
    (tries : 0 < resetPass config.trackerLimits)
    (waits : ∀ n, (now n).nanos + config.maxBackoff.nanos ≤ (now (n + 1)).nanos) (n : Nat)
    : Before i kind root config (now n) n
        (Reconciler.rounds (Installation.surroundings kind) config now i n) := by
  induction n with
  | zero => exact before_new stuck config (now 0)
  | succ n ih => exact (ih.round stuck tries (waits n)).2.2.2

/-- A fabric drops the pushes of some keys that differ, for ever, and each pass comes after the
longest delay. The first pass pushes the whole difference, and from then on only the keys differ
whose pushes are dropped. They are pushed in every pass up to the first limit. The pass after that
pushes nothing and has both views rebuild the root, which no other pass does. The keys are pushed
again in as many passes as the second limit says. The pass after that reports each of them as given
up, which no other pass does, and no later pass pushes or reports anything.
-/
theorem escalation_ladder {now : Nat → Instant} (stuck : Stuck i kind root)
    (tries : 1 ≤ config.maxCreateRetry.toNat)
    (fits : 4 * config.maxCreateRetry.toNat < UInt32.size)
    (waits : ∀ n, (now n).nanos + config.maxBackoff.nanos ≤ (now (n + 1)).nanos) (n : Nat)
    : let delta := (i.store.viewTree kind root).diff (i.fabric.viewTree kind root)
      let dropped := delta.within i.fabric.backend.failing
      let first := 2 * config.maxCreateRetry.toNat
      let second := 2 * first
      let s := Installation.surroundings kind
      let before := Reconciler.rounds s config now i n
      let pass := before.1.pass s (now n) before.2
      let log := before.1.talk s (now n) before.2
      let number := n + 1
      (delta.add ++ delta.remove).Nodup
      ∧ pass.1.1.errors = [] ∧ (Reconciler.settle s pass.2).1 = .ok ()
      ∧ (number = 1 → PushesJust log delta)
      ∧ (1 < number ∧ number ≤ first → PushesJust log dropped)
      ∧ (first + 1 < number ∧ number ≤ first + second + 1 → PushesJust log dropped)
      ∧ (number = first + 1 ∨ first + second + 1 < number → batches log = [])
      ∧ resets log = (if number = first + 1 then [(.observed, root), (.desired, root)] else [])
      ∧ (number = first + second + 2 →
          (failures (transitions log)).Perm (dropped.add ++ dropped.remove))
      ∧ (number ≠ first + second + 2 → failures (transitions log) = [])
      ∧ (first + second + 2 < number → transitions log = []) := by
  intro delta dropped first second s before pass log number
  obtain ⟨resetLimit, purgeLimit⟩ := limits_of_fits fits
  have standing := before_rounds stuck (by omega) waits n
  obtain ⟨fine, settles, did, -⟩ := standing.round stuck (by omega) (waits n)
  have start (this : n = 0) : due i kind root n = delta := if_pos this
  have later (this : n ≠ 0) : due i kind root n = dropped := if_neg this
  refine ⟨distinct_sights stuck.settled stuck.apart, fine, settles, fun here => ?_, fun here => ?_,
    fun here => ?_, fun here => ?_, ?_, fun here => ?_, fun here => ?_, fun here => ?_⟩
  · exact start (by omega) ▸ did.pushes (by omega) (by omega)
  · exact later (by omega) ▸ did.pushes (by omega) (by omega)
  · exact later (by omega) ▸ did.pushes (by omega) (by omega)
  · exact did.rests (by omega)
  · rw [did.rebuilds]
    exact if_congr (by omega) rfl rfl
  · exact later (by omega) ▸ did.fails (by omega)
  · exact did.succeeds (by omega)
  · exact did.silent (by omega)

/-- A store with objects at `r` and `r/a`. -/
def wanted : Memory :=
  (({ name := "store" } : Memory).insert ⟨["r"]⟩ {}).insert ⟨["r", "a"]⟩ {}

/-- An empty fabric that drops all pushes of `r/a`. -/
def refusing : Memory :=
  ({ name := "fabric" } : Memory).failKey ⟨["r", "a"]⟩

/-- What comes of the fabric. -/
def halfway : Memory :=
  ({ name := "fabric" } : Memory).insert ⟨["r"]⟩ {}

theorem projected_nothing (name : String) (root : String) (kind : TreeKind) (k : Key)
    : ({ name } : Memory).projected root kind k = none := by
  simp [Memory.projected]

theorem projected_wanted (k : Key)
    : wanted.projected "r" .config k
      = if k = ⟨["r", "a"]⟩ ∨ k = ⟨["r"]⟩ then some ∅ else none := by
  rw [wanted, Memory.insert, Memory.insert, Memory.projected_write, Memory.projected_write,
    projected_nothing]
  by_cases inner : k = ⟨["r", "a"]⟩
  · simp [inner, Key.root?, StoredObject.projection?]
  · by_cases outer : k = ⟨["r"]⟩
    · simp [outer, Key.root?, StoredObject.projection?]
    · simp [inner, outer]

theorem projected_refusing (k : Key) : refusing.projected "r" .config k = none :=
  projected_nothing "fabric" "r" .config k

theorem projected_halfway (k : Key)
    : halfway.projected "r" .config k = if k = ⟨["r"]⟩ then some ∅ else none := by
  rw [halfway, Memory.insert, Memory.projected_write, projected_nothing]
  by_cases outer : k = ⟨["r"]⟩
  · simp [outer, Key.root?, StoredObject.projection?]
  · simp [outer]

theorem refuses (k : Key) : refusing.failing.contains k = decide (k = ⟨["r", "a"]⟩) := by
  have held : refusing.failing.contains k = (compare (⟨["r", "a"]⟩ : Key) k == .eq) := by
    simp [refusing, Memory.failKey]
  rw [held, Bool.eq_iff_iff, beq_iff_eq, Std.LawfulEqOrd.compare_eq_iff_eq, decide_eq_true_eq,
    eq_comm]

/-- Both with views that do not serve anything yet. -/
def unserved : Installation :=
  { store := { backend := wanted }, fabric := { backend := refusing } }

/-- Both with views that serve `r` and were waited for. -/
def served : Installation :=
  let s := Installation.surroundings .config
  (Reconciler.settle s ((Reconciler.new {}).serve s ["r"] unserved).2).2

theorem settled_served : served.Settled .config "r" ∧ unserved.Still served := by
  refine (Installation.settled_of_served (fun side => ?_) (fun side => ?_) (fun side => ?_)
    (.new {}) .config "r").2
  · cases side <;> rfl
  · cases side <;> decide +kernel
  · cases side <;> rfl

theorem served_shows (k : Key)
    : served.store.backend.projected "r" .config k = wanted.projected "r" .config k
      ∧ served.fabric.backend.projected "r" .config k = none
      ∧ served.fabric.backend.failing.contains k = decide (k = ⟨["r", "a"]⟩) := by
  obtain ⟨-, still⟩ := settled_served
  refine ⟨Memory.projected_congr still.store.objects, ?_, ?_⟩
  · exact (Memory.projected_congr still.fabric.objects).trans (projected_refusing k)
  · rw [still.fabric.failing]
    exact refuses k

theorem distinguishable_halfway
    : (wanted.tree "r" .config).Distinguishable (halfway.tree "r" .config) :=
  (Memory.tree_spec rfl "r" .config).1.distinguishable (Memory.tree_spec rfl "r" .config).1
    (by decide +kernel) (by decide +kernel)

theorem apart_served : Apart served .config "r" := by
  obtain ⟨settled, -⟩ := settled_served
  have store : served.store.backend.tree "r" .config = wanted.tree "r" .config :=
    Memory.tree_congr rfl (settled .desired).errors fun k => (served_shows k).1
  have fabric : served.fabric.backend.tree "r" .config = refusing.tree "r" .config :=
    Memory.tree_congr rfl (settled .observed).errors fun k =>
      (served_shows k).2.1.trans (projected_refusing k).symm
  have empty : refusing.tree "r" .config = ∅ := by decide +kernel
  rw [Apart, store, fabric, empty]
  exact distinguishable_halfway.empty

/-- Of the objects that are missing the fabric drops one. -/
theorem mem_served (k : Key)
    : let dropped := (sights served .config "r").delta.within served.fabric.backend.failing
      (k ∈ dropped.add ↔ k = ⟨["r", "a"]⟩) ∧ k ∉ dropped.remove := by
  obtain ⟨add, remove⟩ := mem_sights settled_served.1 apart_served k
  obtain ⟨wants, lacks, drops⟩ := served_shows k
  rw [wants, lacks, projected_wanted] at add remove
  simp only [TreeDiff.within, List.mem_filter, drops, add, remove]
  by_cases inner : k = ⟨["r", "a"]⟩ <;> simp [inner]

theorem stuck_served : Stuck served .config "r" := by
  obtain ⟨settled, still⟩ := settled_served
  have store : served.store.backend.tree "r" .config = wanted.tree "r" .config :=
    Memory.tree_congr rfl (settled .desired).errors fun k => (served_shows k).1
  have after : (pushed served .config "r").tree "r" .config = halfway.tree "r" .config := by
    refine Memory.tree_congr rfl (Memory.Dropping.push ⟨rfl, (settled .observed).errors⟩ _ _).errors
      fun k => ?_
    obtain ⟨wants, lacks, drops⟩ := served_shows k
    rw [projected_pushed settled apart_served, wants, lacks, drops, projected_wanted,
      projected_halfway]
    by_cases inner : k = ⟨["r", "a"]⟩ <;> simp [inner]
  refine ⟨settled, ?_, apart_served, ?_, ?_⟩
  · rw [still.sink]
    rfl
  · rw [store, after]
    exact distinguishable_halfway
  · have differs := (mem_served ⟨["r", "a"]⟩).1.mpr rfl
    rw [TreeDiff.isEmpty, Bool.and_eq_false_iff]
    exact .inl (List.isEmpty_eq_false_iff.mpr (List.ne_nil_of_mem differs))

/-- A clock that stands at a minute more before each pass. -/
def minutes (n : Nat) : Instant :=
  .ofMillis (60000 * n)

/-- With one attempt allowed the root is reset in the third pass, and the object that the fabric
refuses is given up in the eighth.
-/
theorem escalation_ladder_refused
    : let s := Installation.surroundings .config
      let log (n : Nat) :=
        let before := Reconciler.rounds s { maxCreateRetry := 1 } minutes served n
        before.1.talk s (minutes n) before.2
      resets (log 2) = [(.observed, "r"), (.desired, "r")]
      ∧ failures (transitions (log 7)) = [⟨["r", "a"]⟩] := by
  have waits (n : Nat)
      : (minutes n).nanos + (({ maxCreateRetry := 1 } : ReconcilerConfig).maxBackoff.nanos : Int)
        ≤ (minutes (n + 1)).nanos := by
    simp [minutes, Instant.ofMillis, Duration.ofMillis, Duration.nanosPerMilli]
    omega
  obtain ⟨-, -, -, -, -, -, -, third, -⟩ :=
    escalation_ladder stuck_served (by decide) (by decide) waits 2
  obtain ⟨distinct, -, -, -, -, -, -, -, eighth, -⟩ :=
    escalation_ladder stuck_served (by decide) (by decide) waits 7
  refine ⟨third, List.perm_singleton.mp ((eighth rfl).trans ?_)⟩
  refine (List.perm_ext_iff_of_nodup ?_ (List.nodup_singleton _)).mpr fun k => ?_
  · exact distinct.sublist (List.filter_sublist.append List.filter_sublist)
  · rw [List.mem_append, List.mem_singleton]
    obtain ⟨add, remove⟩ := mem_served k
    exact (or_iff_left remove).trans add

end RootPass

end Concord
