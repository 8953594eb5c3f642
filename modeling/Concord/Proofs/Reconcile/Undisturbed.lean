import Concord.Proofs.Reconcile.Overlap

/-! A pass and a change of the served roots that nothing comes in between of. Step by step they
come to what `Reconciler.pass` and `Reconciler.serve` do at once.
-/

namespace Concord.Overlap

variable {kind : TreeKind} {now : Instant} {roots : List String} {o o' : Overlap} {root : String}

/-- What a reconciler remembers and the surroundings, as they are after some steps. -/
structure Reaches (o : Overlap) (r : Reconciler) (world : Installation) : Prop where
  world : o.world = world
  config : o.reconciler.config = r.config
  ledger : ∀ root, o.reconciler.ledger root = r.ledger root

theorem run_append (moves later : List Move) (o : Overlap)
    : run kind now roots (moves ++ later) o
      = (run kind now roots moves o).bind (run kind now roots later) := by
  induction moves generalizing o with
  | nil => rfl
  | cons move rest ih =>
      rw [List.cons_append, run, run, Option.bind_assoc]
      exact congrArg _ (funext ih)

theorem run_one {move : Move} (h : o.step kind now roots move = some o')
    : run kind now roots [move] o = some o' := by
  rw [run, h]
  rfl

/-- The change of the served roots. -/
theorem run_serve (h : o.serving = .before)
    : run kind now roots [.serve, .serve, .serve] o
      = some { o with
          world := (o.reconciler.serve (Installation.surroundings kind) roots o.world).2
          reconciler := (o.reconciler.serve (Installation.surroundings kind) roots o.world).1.2
          serving := .after } := by
  simp only [run, step, serve, h, serveOn_eq, Option.bind_some]
  rfl

/-- What the next step of the work on the first root comes to. -/
def proceed (o : Overlap) (kind : TreeKind) (root : String)
    (tasks : List (String × Program RootOutcome)) : Program RootOutcome → Overlap
  | .finished _ _ => { o with passing := .working tasks }
  | .asking _ question next =>
      let asked := o.asked ++ [⟨root, o.serving, o.world, question⟩]
      match Installation.ask kind question o.world with
      | (.answered answer, world) =>
          let program := next (o.reconciler.ledger root) answer
          { o with
            world, asked
            reconciler := o.reconciler.setLedger root program.ledger
            passing := .working ((root, program) :: tasks) }
      | (_, world) => { o with world, asked, passing := .working tasks }

theorem step_work {p : Program RootOutcome} {tasks : List (String × Program RootOutcome)}
    (stage : o.passing = .working ((root, p) :: tasks)) (only : root ∉ tasks.map Prod.fst)
    : o.step kind now roots (.work root) = some (o.proceed kind root tasks p) := by
  have elsewhere : ∀ task ∈ tasks, task.1 ≠ root := fun task hm same =>
    only (same ▸ List.mem_map_of_mem hm)
  have others : (((root, p) :: tasks).filter fun task => task.1 ≠ root) = tasks := by
    rw [List.filter_cons_of_neg (by simp)]
    exact List.filter_eq_self.mpr fun task hm => decide_eq_true (elsewhere task hm)
  have replaced (p' : Program RootOutcome)
      : (((root, p) :: tasks).map fun task => if task.1 = root then (root, p') else task)
        = (root, p') :: tasks := by
    rw [List.map_cons, if_pos rfl]
    refine congrArg _ ((List.map_congr_left fun task hm => ?_).trans (List.map_id _))
    exact if_neg (elsewhere task hm)
  rw [step, work, stage]
  dsimp only
  rw [List.lookup_cons_self, others]
  cases p with
  | finished ledger result => rfl
  | asking ledger question next =>
      have same : (Installation.surroundings kind).ask question o.world
          = Installation.ask kind question o.world :=
        rfl
      simp only [proceed, replaced, same]
      cases Installation.ask kind question o.world with
      | mk outcome world => cases outcome <;> rfl

/-- The work on a root, by induction on what is asked. -/
theorem exists_work (p : Program RootOutcome) {tasks : List (String × Program RootOutcome)}
    (stage : o.passing = .working ((root, p) :: tasks)) (only : root ∉ tasks.map Prod.fst)
    (ledger : o.reconciler.ledger root = p.ledger)
    : ∃ moves o', run kind now roots moves o = some o' ∧ o'.serving = o.serving
        ∧ o'.passing = .working tasks
        ∧ o'.Reaches (o.reconciler.setLedger root
            (p.run (Installation.surroundings kind) root o.world).1.2)
          (p.run (Installation.surroundings kind) root o.world).2 := by
  have step : o.step kind now roots (.work root) = some (o.proceed kind root tasks p) :=
    step_work stage only
  induction p generalizing o with
  | finished ledger' result =>
      subst ledger
      exact ⟨[.work root], _, run_one step, rfl, rfl, rfl, rfl, fun other =>
        (Reconciler.ledger_setLedger_same _ _ _).symm⟩
  | asking ledger' question next ih =>
      have same : (Installation.surroundings kind).ask question o.world
          = Installation.ask kind question o.world :=
        rfl
      subst ledger
      rw [Program.run, same]
      rw [proceed] at step
      cases reply : Installation.ask kind question o.world with
      | mk outcome world =>
          rw [reply] at step
          cases outcome with
          | answered answer =>
              let p := next (o.reconciler.ledger root) answer
              let o₁ : Overlap :=
                { o with
                  world
                  asked := o.asked ++ [⟨root, o.serving, o.world, question⟩]
                  reconciler := o.reconciler.setLedger root p.ledger
                  passing := .working ((root, p) :: tasks) }
              have again : o₁.reconciler.ledger root = p.ledger := by
                rw [Reconciler.ledger_setLedger, if_pos rfl]
              obtain ⟨moves, o', steps, serving, passing, reaches⟩ :=
                ih (o.reconciler.ledger root) answer (o := o₁) rfl again (step_work rfl only)
              refine ⟨.work root :: moves, o', ?_, serving, passing, reaches.world,
                reaches.config, fun other => ?_⟩
              · rw [run, step]
                exact steps
              · rw [reaches.ledger, Reconciler.ledger_setLedger, Reconciler.ledger_setLedger,
                  Reconciler.ledger_setLedger]
                split <;> rfl
          | failed error =>
              exact ⟨[.work root], _, run_one step, rfl, rfl, rfl, rfl, fun other =>
                (Reconciler.ledger_setLedger_same _ _ _).symm⟩
          | panicked =>
              exact ⟨[.work root], _, run_one step, rfl, rfl, rfl, rfl, fun other =>
                (Reconciler.ledger_setLedger_same _ _ _).symm⟩

theorem exists_passRoot {ω : Type} (s : Surroundings ω) (now : Instant) (report : PassReport)
    (r : Reconciler) (w : ω) (root : String)
    : ∃ report', Reconciler.passRoot s now ((report, r), w) root
        = ((report', r.setLedger root
            ((RootPass.program r.config.trackerLimits root now (r.ledger root)).run s root w).1.2),
          ((RootPass.program r.config.trackerLimits root now (r.ledger root)).run s root w).2) := by
  rw [Reconciler.passRoot]
  cases (RootPass.program r.config.trackerLimits root now (r.ledger root)).run s root w with
  | mk state w =>
      obtain ⟨result, ledger⟩ := state
      cases result with
      | ok outcome => exact ⟨_, rfl⟩
      | error e => exact ⟨_, rfl⟩

/-- The work on several roots, one after the other, by induction on the roots. -/
theorem exists_works {listed : List String} {report : PassReport} {r : Reconciler}
    (distinct : listed.Nodup)
    (stage : o.passing = .working (listed.map fun root =>
      (root, RootPass.program r.config.trackerLimits root now (r.ledger root))))
    (reached : o.Reaches r o.world)
    : ∃ moves o', run kind now roots moves o = some o' ∧ o'.serving = o.serving
        ∧ o'.passing = .working []
        ∧ o'.Reaches
          (listed.foldl (Reconciler.passRoot (Installation.surroundings kind) now)
            ((report, r), o.world)).1.2
          (listed.foldl (Reconciler.passRoot (Installation.surroundings kind) now)
            ((report, r), o.world)).2 := by
  induction listed generalizing o report r with
  | nil => exact ⟨[], o, rfl, rfl, stage, reached⟩
  | cons root rest ih =>
      obtain ⟨only, distinct⟩ := List.nodup_cons.mp distinct
      have absent : root ∉ (rest.map fun root =>
          (root, RootPass.program r.config.trackerLimits root now (r.ledger root))).map Prod.fst := by
        rwa [List.map_map, List.map_id'']
        intro root
        rfl
      obtain ⟨first, o₁, steps, serving, passing, reaches⟩ :=
        @exists_work kind now roots o root _ _ stage absent (reached.ledger root)
      obtain ⟨report', passed⟩ := exists_passRoot (Installation.surroundings kind) now report r
        o.world root
      let program := RootPass.program r.config.trackerLimits root now (r.ledger root)
      let ledger := (program.run (Installation.surroundings kind) root o.world).1.2
      -- The work on the other roots does not depend on what is now remembered of this one.
      have others : (rest.map fun root =>
            (root, RootPass.program r.config.trackerLimits root now (r.ledger root)))
          = rest.map fun other => (other, RootPass.program
              (r.setLedger root ledger).config.trackerLimits other now
              ((r.setLedger root ledger).ledger other)) := by
        refine List.map_congr_left fun other hm => ?_
        have apart : other ≠ root := fun same => only (same ▸ hm)
        rw [Reconciler.ledger_setLedger, if_neg apart]
        rfl
      have reached₁ : o₁.Reaches (r.setLedger root ledger) o₁.world := by
        refine ⟨rfl, reaches.config.trans reached.config, fun other => ?_⟩
        rw [reaches.ledger, Reconciler.ledger_setLedger, Reconciler.ledger_setLedger,
          reached.ledger]
      obtain ⟨later, o₂, steps₂, serving₂, passing₂, reaches₂⟩ :=
        @ih o₁ report' (r.setLedger root ledger) distinct (others ▸ passing) reached₁
      refine ⟨first ++ later, o₂, ?_, serving₂.trans serving, passing₂, ?_⟩
      · rw [run_append, steps]
        exact steps₂
      · rw [List.foldl_cons, passed, ← reaches.world]
        exact reaches₂

/-- The whole pass. -/
theorem exists_pass (ordered : o.world.Ordered) (h : o.passing = .before)
    : ∃ moves o', run kind now roots moves o = some o' ∧ o'.serving = o.serving
        ∧ o'.passing = .working []
        ∧ o'.Reaches (o.reconciler.pass (Installation.surroundings kind) now o.world).1.2
          (o.reconciler.pass (Installation.surroundings kind) now o.world).2 := by
  let views := Installation.surroundings kind
  let listed := Reconciler.sharedRoots views o.world
  have distinct : listed.Nodup :=
    (Site.nodup_roots (ordered.consistent .desired).distinct kind).filter _
  let r := o.reconciler.retainRoots listed
  let o₁ : Overlap :=
    { o with
      reconciler := r
      passing := .working (listed.map fun root =>
        (root, RootPass.program r.config.trackerLimits root now (r.ledger root))) }
  have start : run kind now roots [.list, .list] o = some o₁ := by
    simp only [run, step, list, h, Option.bind_some]
    rfl
  obtain ⟨moves, o₂, steps, serving, passing, reaches⟩ :=
    @exists_works kind now roots o₁ listed {} r distinct rfl ⟨rfl, rfl, fun _ => rfl⟩
  refine ⟨[.list, .list] ++ moves, o₂, ?_, serving, passing, reaches⟩
  rw [run_append, start]
  exact steps

end Concord.Overlap
