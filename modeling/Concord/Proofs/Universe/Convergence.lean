import Concord.Proofs.HashTree.Difference
import Concord.Proofs.Reconcile.Independence
import Concord.Proofs.Universe.Deployments

/-! What it means that a loop tells of convergence, whatever the backends do. A pass compares the
roots that have a tree on both sides, and says nothing of the others. Main statement: in the last
pass of a loop that tells of convergence, the trees of all roots agreed that were hydrated on both
sides, so those of all roots if they were hydrated when the loop began. A root that could never be
read does not keep a loop from telling of convergence.
-/

namespace Concord

variable {limits : TrackerLimits} {root : String} {now : Instant} {ledger left : Ledger}
  {log : List Exchange} {outcome : RootOutcome}

/-- A report of convergence has no errors, and outcomes without a difference only. -/
theorem PassReport.converged_iff {report : PassReport}
    : report.converged = true
      ↔ report.errors = [] ∧ ∀ outcome ∈ report.outcomes, outcome.delta.isEmpty = true := by
  simp [converged, diverged, RootOutcome.diverged]

/-- A pass over a root that ends without a difference has read two trees that do not differ. -/
theorem RootPass.Course.calm (h : Course limits root now ledger log (.ok outcome) left)
    (calm : outcome.delta.isEmpty = true)
    : ∃ desired observed reported, (desired.diff observed).isEmpty = true ∧ outcome = { root }
        ∧ log = [⟨.tree .desired root, .answered desired⟩,
            ⟨.tree .observed root, .answered observed⟩] ++ reported := by
  have told {failure : Option ReconcileError} {mine : RootOutcome}
      (same : .ok outcome = ended failure mine)
      : outcome = mine := by
    cases failure with
    | none => exact Except.ok.inj same
    | some e => cases same
  generalize hr : (Except.ok outcome : Except ReconcileError RootOutcome) = result at h
  cases h with
  | unread _ => cases hr
  | unreported _ _ _ => cases hr
  | @converged desired observed reported _ same _ =>
      exact ⟨desired, observed, reported, same, told hr, rfl⟩
  | reset f differ _ _ _ =>
      rw [told hr, Findings.resetOutcome, differ] at calm
      cases calm
  | pushed f differ _ _ _ =>
      rw [told hr, Findings.pushOutcome, differ] at calm
      cases calm

namespace Deployment

variable {β : Side → Type} {d d₀ : Deployment β} {kind : TreeKind} {roots : List String}

/-- A root has a tree on both sides. -/
def Hydrated (d : Deployment β) (kind : TreeKind) (root : String) : Prop :=
  ∀ side, ((d.site side).snapshot? kind root).isSome = true

/-- The trees that both sides show of a root do not differ. -/
def Agrees (d : Deployment β) (kind : TreeKind) (root : String) : Prop :=
  (((d.site .desired).viewTree kind root).diff
    ((d.site .observed).viewTree kind root)).isEmpty = true

theorem Hydrated.stays {d' : Deployment β} (h : d.Hydrated kind root) (stays : d.Stays d')
    : d'.Hydrated kind root :=
  fun side => (stays side).snapshot kind root (h side)

/-- Two deployments that show the same trees agree on the same roots. -/
theorem agrees_congr {d' : Deployment β} (h : d'.site = d.site)
    : d'.Agrees kind root ↔ d.Agrees kind root := by
  rw [Agrees, Agrees, h]

variable [∀ side, Backend (β side)]

-----------------------------------------------------------------------------------------
-- One root
-----------------------------------------------------------------------------------------

/-- The roots that a pass works on are those with a tree on both sides. -/
theorem mem_sharedRoots (distinct : d.Distinct)
    : root ∈ Reconciler.sharedRoots (surroundings kind) d ↔ d.Hydrated kind root := by
  have listed (side : Side)
      : root ∈ (surroundings kind).roots side d
        ↔ ((d.site side).snapshot? kind root).isSome = true :=
    Site.mem_roots (distinct side)
  rw [Reconciler.sharedRoots, List.mem_filter, List.contains_iff_mem, listed, listed, Hydrated]
  constructor
  · intro both side
    cases side with
    | desired => exact both.1
    | observed => exact both.2
  · intro both
    exact ⟨both .desired, both .observed⟩

/-- Work on a root begins with reading both trees. -/
theorem run_program (limits : TrackerLimits) (root : String) (now : Instant) (ledger : Ledger)
    (kind : TreeKind) (d : Deployment β)
    : let trees := fun side => (d.site side).viewTree kind root
      (RootPass.program limits root now ledger).run (surroundings kind) root d
        = (RootPass.compared limits root now (trees .desired) (trees .observed) ledger).run
            (surroundings kind) root d
      ∧ (RootPass.program limits root now ledger).talk (surroundings kind) d
        = [⟨.tree .desired root, .answered (trees .desired)⟩,
            ⟨.tree .observed root, .answered (trees .observed)⟩]
          ++ (RootPass.compared limits root now (trees .desired) (trees .observed) ledger).talk
            (surroundings kind) d :=
  ⟨rfl, rfl⟩

/-- Where the trees agree at most statuses are reported, and the sites stay as they are. -/
theorem run_agreeing (limits : TrackerLimits) (now : Instant) (ledger : Ledger)
    (agrees : d.Agrees kind root)
    : let ran := (RootPass.program limits root now ledger).run (surroundings kind) root d
      ran.2.site = d.site
        ∧ (d.sink.isOpen = true → ran.1.1 = .ok { root } ∧ ran.2.sink.isOpen = true) := by
  have compared : RootPass.compared limits root now ((d.site .desired).viewTree kind root)
      ((d.site .observed).viewTree kind root) ledger = RootPass.converged root ledger :=
    if_pos agrees
  rw [(run_program limits root now ledger kind d).1, compared, RootPass.converged]
  dsimp only
  generalize StatusTransition.ofPass root ledger.pending {} {} = status
  rw [RootPass.reporting]
  split
  · exact ⟨rfl, fun taken => ⟨rfl, taken⟩⟩
  · rw [Program.run]
    have reports : (surroundings kind).ask (.report status.2) d
        = ((d.sink.report status.2).1, { d with sink := (d.sink.report status.2).2 }) := rfl
    cases taken : d.sink.isOpen with
    | true =>
        have recorded : d.sink.report status.2
            = (.answered (), { d.sink with log := d.sink.log.record status.2 }) := by
          rw [StatusSink.report, if_pos taken]
        rw [reports, recorded]
        exact ⟨rfl, fun _ => ⟨rfl, taken⟩⟩
    | false =>
        have refused : d.sink.report status.2
            = (.failed (.statusFailed "sink closed"), d.sink) := by
          rw [StatusSink.report, if_neg (by simp [taken])]
        rw [reports, refused]
        exact ⟨rfl, fun h => by cases h⟩

/-- A root of which no difference is told agrees. -/
theorem agrees_of_run
    (h : ((RootPass.program limits root now ledger).run (surroundings kind) root d).1.1
      = .ok outcome)
    (calm : outcome.delta.isEmpty = true)
    : d.Agrees kind root ∧ outcome = { root } := by
  have plays := Program.plays_run (surroundings kind) root
    (RootPass.program limits root now ledger) d
  rw [h] at plays
  obtain ⟨desired, observed, reported, same, here, log⟩ := (RootPass.course plays).calm calm
  have read := (run_program limits root now ledger kind d).2.symm.trans log
  simp only [List.cons_append, List.cons.injEq, Exchange.mk.injEq, heq_eq_eq,
    Reply.answered.injEq, true_and] at read
  obtain ⟨rfl, rfl, -⟩ := read
  exact ⟨same, here⟩

-----------------------------------------------------------------------------------------
-- All roots
-----------------------------------------------------------------------------------------

/-- Passes over several roots of which no difference and no error is told, by induction on the
roots: as each leaves the sites as they are, all of them are read in one state.
-/
theorem passRoots_converged {report : PassReport} {r : Reconciler}
    (h : (roots.foldl (Reconciler.passRoot (surroundings kind) now)
      ((report, r), d)).1.1.converged = true)
    : report.converged = true ∧ (∀ root ∈ roots, d.Agrees kind root)
      ∧ (roots.foldl (Reconciler.passRoot (surroundings kind) now) ((report, r), d)).1.1
        = { report with outcomes := report.outcomes ++ roots.map fun root => { root } } := by
  induction roots generalizing report r d with
  | nil => exact ⟨h, by simp, by simp⟩
  | cons root rest ih =>
      rw [List.foldl_cons, Reconciler.passRoot_eq] at h ⊢
      obtain ⟨converged, later, told⟩ := ih h
      obtain ⟨errors, outcomes⟩ := PassReport.converged_iff.mp converged
      obtain ⟨earlier, latest⟩ := List.append_eq_nil_iff.mp errors
      cases result : ((r.program now root).run (surroundings kind) root d).1.1 with
      | error e =>
          rw [result] at latest
          cases latest
      | ok outcome =>
          rw [result] at outcomes told
          have here : outcome ∈ (PassReport.of [(root, .ok outcome)]).outcomes :=
            List.mem_singleton_self outcome
          obtain ⟨agrees, rfl⟩ := agrees_of_run result
            (outcomes outcome (List.mem_append_right _ here))
          have same := (run_agreeing r.config.trackerLimits now (r.ledger root) agrees).1
          refine ⟨PassReport.converged_iff.mpr
            ⟨earlier, fun o ho => outcomes o (List.mem_append_left _ ho)⟩, ?_, ?_⟩
          · refine List.forall_mem_cons.mpr ⟨agrees, fun other hm => ?_⟩
            exact (agrees_congr same).mp (later other hm)
          · refine told.trans ?_
            simp [PassReport.of, Except.toOption]

/-- With a sink that is open, roots that agree give a report of convergence, by induction on the
roots.
-/
theorem passRoots_agreeing (now : Instant) (report : PassReport) (r : Reconciler)
    (taken : d.sink.isOpen = true)
    (agree : ∀ root ∈ roots, d.Agrees kind root)
    : (roots.foldl (Reconciler.passRoot (surroundings kind) now) ((report, r), d)).1.1.errors
        = report.errors
      ∧ ((∀ outcome ∈ report.outcomes, outcome.delta.isEmpty = true) →
        ∀ outcome ∈ (roots.foldl (Reconciler.passRoot (surroundings kind) now)
          ((report, r), d)).1.1.outcomes, outcome.delta.isEmpty = true) := by
  induction roots generalizing report r d with
  | nil => exact ⟨rfl, id⟩
  | cons root rest ih =>
      obtain ⟨here, others⟩ := List.forall_mem_cons.mp agree
      obtain ⟨same, told⟩ := run_agreeing r.config.trackerLimits now (r.ledger root) here
      obtain ⟨ended, taken⟩ := told taken
      have result : ((r.program now root).run (surroundings kind) root d).1.1 = .ok { root } :=
        ended
      rw [List.foldl_cons, Reconciler.passRoot_eq, result]
      obtain ⟨errors, outcomes⟩ := ih _ _ taken fun other hm =>
        (agrees_congr same).mpr (others other hm)
      refine ⟨errors.trans (List.append_nil _), fun calm => outcomes fun outcome hm => ?_⟩
      rcases List.mem_append.mp hm with old | new
      · exact calm outcome old
      · rw [List.mem_singleton.mp new]
        rfl

/-- A pass gives a report of convergence just when all roots with a tree on both sides agree, as far
as statuses are taken in.
-/
theorem pass_converged_iff (distinct : d.Distinct) (taken : d.sink.isOpen = true) (r : Reconciler)
    : (r.pass (surroundings kind) now d).1.1.converged = true
      ↔ ∀ root, d.Hydrated kind root → d.Agrees kind root := by
  constructor
  · intro converged root hydrated
    exact (passRoots_converged converged).2.1 root ((mem_sharedRoots distinct).mpr hydrated)
  · intro agree
    obtain ⟨errors, outcomes⟩ := passRoots_agreeing now {}
      (r.retainRoots (Reconciler.sharedRoots (surroundings kind) d)) taken fun root hm =>
        agree root ((mem_sharedRoots distinct).mp hm)
    exact PassReport.converged_iff.mpr ⟨errors, outcomes fun _ hm => by cases hm⟩

/-- A loop over roots of which none has a tree on both sides tells of convergence at once. -/
theorem loop_unread {rest : Nat → Deployment β → Deployment β} {config : LoopConfig}
    {maxPasses : Nat} (serves : d.Serves kind roots) (taken : d.sink.isOpen = true)
    (unread : ∀ root ∈ roots, ¬ d.Hydrated kind root) (once : 0 < maxPasses) (stop : Option Nat)
    (told : Bool) (now : Instant) (r : Reconciler)
    : (r.loop (surroundings kind) rest config (.convergence maxPasses) stop told now d).1.1
      = .ok ⟨1, true⟩ := by
  refine Reconciler.loop_at_once once ((pass_converged_iff serves.distinct taken r).mpr ?_)
  intro root hydrated
  have served : root ∈ roots := (serves .desired).mem_of_snapshot (hydrated .desired)
  exact absurd hydrated (unread root served)

-----------------------------------------------------------------------------------------
-- The last pass
-----------------------------------------------------------------------------------------

/-- Whatever the backends of both sides do, a loop over roots that were served before tells of
convergence only after a pass without errors that gives an outcome for each root with a tree on
both sides, and for no other. In this pass the trees of all these roots agree. If all roots had a
tree on both sides when the loop began, the trees of all roots agree.
-/
theorem converged_agrees {rest : Nat → Deployment β → Deployment β} {config : LoopConfig}
    {maxPasses n : Nat} {stop : Option Nat} {told : Bool} {r r₀ : Reconciler}
    (distinct : d₀.Distinct) (apart : roots.Nodup)
    (stays : (r₀.serve (surroundings kind) roots d₀).2.Stays d)
    (waits : ∀ millis (d : Deployment β), d.Stays (rest millis d))
    (converged : (r.loop (surroundings kind) rest config (.convergence maxPasses) stop told now
      d).1.1 = .ok ⟨n, true⟩)
    : ∃ count, n = count + 1
      ∧ let last := Reconciler.afterPasses (surroundings kind) rest config now count (r, d)
        let report := (last.1.pass (surroundings kind) now last.2).1.1
        report.errors = []
        ∧ (∀ root, root ∈ report.outcomes.map RootOutcome.root
            ↔ root ∈ roots ∧ last.2.Hydrated kind root)
        ∧ (∀ root ∈ roots, last.2.Hydrated kind root → last.2.Agrees kind root)
        ∧ ((∀ root ∈ roots, d.Hydrated kind root) →
            ∀ root ∈ roots, last.2.Hydrated kind root ∧ last.2.Agrees kind root) := by
  obtain ⟨count, passes, -, done⟩ := Reconciler.loop_converged converged
  refine ⟨count, passes, ?_⟩
  intro last report
  have served : d.Serves kind roots := (serves_serve distinct kind apart r₀).2.stays stays
  have went : d.Stays last.2 := stays_afterPasses waits config kind now count served.distinct r
  have serves : last.2.Serves kind roots := served.stays went
  obtain ⟨-, agree, told⟩ := passRoots_converged (Reconciler.converged_of_step done)
  have agrees (root : String) (hydrated : last.2.Hydrated kind root) : last.2.Agrees kind root :=
    agree root ((mem_sharedRoots serves.distinct).mpr hydrated)
  have listed : report.outcomes
      = (Reconciler.sharedRoots (surroundings kind) last.2).map fun root => { root } :=
    congrArg PassReport.outcomes told
  refine ⟨congrArg PassReport.errors told, fun root => ?_, fun root _ => agrees root,
    fun hydrated root hm => ?_⟩
  · have names : report.outcomes.map RootOutcome.root
        = Reconciler.sharedRoots (surroundings kind) last.2 := by
      rw [listed, List.map_map]
      exact List.map_id _
    rw [names, mem_sharedRoots serves.distinct]
    exact ⟨fun hydrated => ⟨(serves .desired).mem_of_snapshot (hydrated .desired), hydrated⟩,
      And.right⟩
  · have shows := (hydrated root hm).stays went
    exact ⟨shows, agrees root shows⟩

/-- A backend with one object that is managed here. -/
def holding : Memory :=
  ({ name := "store" } : Memory).insert ⟨["t1", "a"]⟩ {}

/-- Two sites whose workers of a root are hydrated with one tree. -/
def level (t : HashTree) : Deployment fun _ => Memory where
  site _ := {
    backend := (Backend.subscribe "t1" .config holding).2
    slots := [{ worker := .install { root := "t1", kind := .config } 0 t, started := true }] }

/-- A loop over them tells of convergence after one pass, and rightly so. -/
theorem converged_agrees_level
    : ∃ t, holding.load "t1" .config = .ok t
      ∧ let r := Reconciler.new {}
        let d := (r.serve (surroundings .config) ["t1"] (level t)).2
        (r.loop (surroundings .config) (fun millis d => d.sleep millis) {} (.convergence 3) none
            false (.ofMillis 0) d).1.1 = .ok ⟨1, true⟩
          ∧ d.Hydrated .config "t1" ∧ d.Agrees .config "t1" := by
  obtain ⟨t, loaded, -⟩ := holding.load_spec "t1" .config
  refine ⟨t, loaded, ?_⟩
  intro r d
  have distinct : (level t).Distinct := fun _ => List.nodup_singleton _
  have apart : ["t1"].Nodup := List.nodup_singleton _
  have serves : d.Serves .config ["t1"] := (serves_serve distinct .config apart r).2
  have hydrated : ∀ root ∈ ["t1"], d.Hydrated .config root := by
    intro root hm side
    rw [List.mem_singleton.mp hm]
    cases side <;> rfl
  have same : d.site .desired = d.site .observed := rfl
  have taken : d.sink.isOpen = true := rfl
  have stays : ((r.serve (surroundings .config) ["t1"] (level t)).2).Stays d := .refl d
  clear_value d
  have converged : (r.pass (surroundings .config) (.ofMillis 0) d).1.1.converged = true := by
    refine (pass_converged_iff serves.distinct taken r).mpr fun root shown => ?_
    rw [Agrees, same, HashTree.diff_self]
    rfl
  have told : (r.loop (surroundings .config) (fun millis d => d.sleep millis) {} (.convergence 3)
      none false (.ofMillis 0) d).1.1 = .ok ⟨1, true⟩ :=
    Reconciler.loop_at_once (Nat.succ_pos 2) converged
  obtain ⟨count, once, -, -, -, agree⟩ := converged_agrees distinct apart stays
    (fun millis d => d.stays_sleep millis) told
  obtain rfl : count = 0 := by omega
  exact ⟨told, agree hydrated "t1" List.mem_cons_self⟩

/-- Two sites that serve nothing yet, of which one holds an object that the other lacks. -/
def unread : Deployment fun _ => Memory where
  site
    | .desired => { backend := holding }
    | .observed => { backend := { name := "fabric" } }

/-- A loop that begins before the workers have loaded anything tells of convergence at once. -/
theorem not_converged_agrees
    : ¬ ∀ (d₀ : Deployment fun _ => Memory) (roots : List String) (r : Reconciler) (count : Nat),
        d₀.Distinct → roots.Nodup →
          let d := (r.serve (surroundings .config) roots d₀).2
          let rest := fun millis (d : Deployment fun _ => Memory) => d.sleep millis
          (r.loop (surroundings .config) rest {} (.convergence 1) none false (.ofMillis 0) d).1.1
            = .ok ⟨count + 1, true⟩ →
          let last :=
            Reconciler.afterPasses (surroundings .config) rest {} (.ofMillis 0) count (r, d)
          ∀ root ∈ roots, last.2.Hydrated .config root ∧ last.2.Agrees .config root := by
  intro claim
  have distinct : unread.Distinct := fun side => by cases side <;> exact List.nodup_nil
  have apart : ["t1"].Nodup := List.nodup_singleton _
  let r := Reconciler.new {}
  let d := (r.serve (surroundings .config) ["t1"] unread).2
  have serves : d.Serves .config ["t1"] := (serves_serve distinct .config apart r).2
  have unloaded : ((d.site .desired).snapshot? .config "t1").isSome = false := rfl
  have unhydrated : ∀ root ∈ ["t1"], ¬ d.Hydrated .config root := by
    intro root hm hydrated
    have shown := hydrated .desired
    rw [List.mem_singleton.mp hm, unloaded] at shown
    cases shown
  have told : (r.loop (surroundings .config) (fun millis d => d.sleep millis) {} (.convergence 1)
      none false (.ofMillis 0) d).1.1 = .ok ⟨1, true⟩ :=
    loop_unread serves rfl unhydrated Nat.one_pos none false (.ofMillis 0) r
  have hydrated := (claim unread ["t1"] r 0 distinct apart told "t1" List.mem_cons_self).1
  have shown : ((d.site .desired).snapshot? .config "t1").isSome = true := hydrated .desired
  rw [unloaded] at shown
  cases shown

end Deployment

end Concord
