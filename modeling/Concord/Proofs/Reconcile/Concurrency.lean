import Concord.Proofs.Reconcile.Exchanges
import Concord.Proofs.Reconcile.Tasks
import Mathlib.Algebra.Order.BigOperators.Group.List
import Mathlib.Algebra.Order.Group.Nat

/-! A pass under way. It works on as many roots at once as the configuration allows, and any of
them may go on next. Whatever the order, the work on each root plays the pass over that root, from
the ledger that the root had at the start, and it is over after a bounded number of steps.
-/

namespace Concord

/-- A pass under way: the roots that wait for their turn, those that are worked on, what became of
the others in the order in which they ended, and all that was asked.
-/
structure Underway (ω : Type) where
  world : ω
  reconciler : Reconciler
  waiting : List String
  active : List (String × Task) := []
  results : List (String × Except ReconcileError RootOutcome) := []
  log : List (String × Exchange) := []

/-- How a pass goes on: the next root is begun, or the work on a root goes on. -/
inductive Stride where
  | start
  | work (root : String)
deriving DecidableEq

/-- The results of all roots, told apart. -/
def PassReport.of (results : List (String × Except ReconcileError RootOutcome)) : PassReport where
  outcomes := results.filterMap fun entry => entry.2.toOption
  errors := results.filterMap fun entry =>
    match entry.2 with
    | .ok _ => none
    | .error e => some (entry.1, e)

/-- The pass over a root from what is remembered of it. -/
def Reconciler.program (r : Reconciler) (now : Instant) (root : String) : Program RootOutcome :=
  RootPass.program r.config.trackerLimits root now (r.ledger root)

namespace Underway

variable {ω : Type}

/-- The start of a pass: all roots that are not shared are forgotten. -/
def begin (s : Surroundings ω) (r : Reconciler) (w : ω) : Underway ω where
  world := w
  reconciler := r.retainRoots (Reconciler.sharedRoots s w)
  waiting := Reconciler.sharedRoots s w

/-- How many roots may be worked on at once. -/
def bound (u : Underway ω) : Nat :=
  max 1 u.reconciler.config.maxConcurrentRoots.toNat

/-- What was asked for a root, with the replies. -/
def asked (u : Underway ω) (root : String) : List Exchange :=
  (u.log.filter fun entry => entry.1 = root).map Prod.snd

/-- The first of the roots that wait is begun, if there is room. -/
def start (u : Underway ω) (now : Instant) : Option (Underway ω) :=
  match u.waiting with
  | [] => none
  | root :: rest =>
      if u.active.length < u.bound then
        some { u with waiting := rest, active := u.active ++ [(root, RootPass.task root now)] }
      else none

/-- The work on a root is to go on with a task. -/
def goOn (u : Underway ω) (root : String) (task : Task) : Underway ω :=
  { u with active := u.active.map fun entry => if entry.1 = root then (root, task) else entry }

/-- The work on a root is over. -/
def leave (u : Underway ω) (root : String) (result : Except ReconcileError RootOutcome)
    : Underway ω :=
  { u with
    active := u.active.filter fun entry => entry.1 ≠ root
    results := u.results ++ [(root, result)] }

/-- A question was put for a root, and the world is as the reply leaves it. -/
def note (u : Underway ω) (root : String) (x : Exchange) (world : ω) : Underway ω :=
  { u with world, log := u.log ++ [(root, x)] }

/-- The work on a root goes on, up to the next point where it waits. -/
def work (s : Surroundings ω) (u : Underway ω) (root : String) : Option (Underway ω) :=
  (u.active.lookup root).map fun
    | .finished outcome => u.leave root (.ok outcome)
    | .tracking change next =>
        let tracker := u.reconciler.tracker
        { u with reconciler := { u.reconciler with tracker := change tracker } }.goOn root
          (next tracker)
    | .marking change next =>
        let pending := u.reconciler.pending
        { u with reconciler := { u.reconciler with pending := change pending } }.goOn root
          (next pending)
    | .asking question next =>
        match s.ask question u.world with
        | (.answered answer, world) =>
            (u.note root ⟨question, .answered answer⟩ world).goOn root (next answer)
        | (.failed e, world) =>
            (u.note root ⟨question, .failed e⟩ world).leave root (.error e)
        | (.panicked, world) =>
            (u.note root ⟨question, .panicked⟩ world).leave root (.error (.rootPanicked root))

/-- One step of a pass. -/
def step (s : Surroundings ω) (now : Instant) (u : Underway ω) : Stride → Option (Underway ω)
  | .start => u.start now
  | .work root => u.work s root

/-- Steps in the given order. -/
def run (s : Surroundings ω) (now : Instant) : List Stride → Underway ω → Option (Underway ω)
  | [], u => some u
  | stride :: strides, u => (u.step s now stride).bind (run s now strides)

/-- Nothing is left to do. -/
structure Over (u : Underway ω) : Prop where
  waiting : u.waiting = []
  active : u.active = []

theorem over_of_filter {pass : Option (Underway ω)} {u : Underway ω}
    (h : pass.filter (fun u => u.waiting.isEmpty && u.active.isEmpty) = some u)
    : pass = some u ∧ u.Over := by
  obtain ⟨run, closed⟩ := Option.filter_eq_some_iff.mp h
  obtain ⟨waiting, active⟩ := Bool.and_eq_true_iff.mp closed
  exact ⟨run, List.isEmpty_iff.mp waiting, List.isEmpty_iff.mp active⟩

/-- What is told of a pass: what became of each root, in the order of roots. -/
def report (u : Underway ω) : PassReport :=
  .of (u.results.mergeSort fun a b => a.1 ≤ b.1)

end Underway

-----------------------------------------------------------------------------------------
-- How far a program has come
-----------------------------------------------------------------------------------------

namespace Program

variable {α ω : Type} {s : Surroundings ω} {root : String} {p p' : Program α}
  {log : List Exchange}

/-- The work comes from one program to another as its questions are answered, each with an answer
that the surroundings may give.
-/
inductive Comes (s : Surroundings ω) (p : Program α) : List Exchange → Program α → Prop
  | here : Comes s p [] p
  | answered {log : List Exchange} {ledger : Ledger} {question : Question}
    {next : Ledger → question.Answer → Program α} {answer : question.Answer} {w : ω}
    (before : Comes s p log (.asking ledger question next))
    (reply : (s.ask question w).1 = .answered answer)
    : Comes s p (log ++ [⟨question, .answered answer⟩]) (next ledger answer)

/-- What plays from where the work has come to, plays from the start. -/
theorem Comes.plays (h : p.Comes s log p') {rest : List Exchange} {result : Except ReconcileError α}
    {left : Ledger} (plays : p'.Plays root rest result left)
    : p.Plays root (log ++ rest) result left := by
  induction h generalizing rest with
  | here => exact plays
  | answered before reply ih =>
      rw [List.append_assoc]
      exact ih (.answered plays)

end Program

-----------------------------------------------------------------------------------------
-- What a step leaves alone
-----------------------------------------------------------------------------------------

namespace Underway

variable {ω : Type} {s : Surroundings ω} {now : Instant} {limits : TrackerLimits}
  {root other : String} {ledger : Ledger} {u u' u'' : Underway ω} {left : Nat}

/-- What concerns other roots is as it was, whatever is done to this one. -/
structure Spares (root : String) (u u' : Underway ω) : Prop where
  config : u'.reconciler.config = u.reconciler.config
  limits : u'.reconciler.tracker.limits = u.reconciler.tracker.limits
  waiting : ∀ other, other ≠ root → other ∈ u.waiting → other ∈ u'.waiting
  active : ∀ other, other ≠ root → u'.active.lookup other = u.active.lookup other
  results : ∀ other, other ≠ root → u'.results.lookup other = u.results.lookup other
  asked : ∀ other, other ≠ root → u'.asked other = u.asked other
  ledger : ∀ other, other ≠ root → u'.reconciler.ledger other = u.reconciler.ledger other

theorem Spares.refl (u : Underway ω) : Spares root u u where
  config := rfl
  limits := rfl
  waiting := fun _ _ waits => waits
  active := fun _ _ => rfl
  results := fun _ _ => rfl
  asked := fun _ _ => rfl
  ledger := fun _ _ => rfl

theorem Spares.trans (h : Spares root u u') (h' : Spares root u' u'') : Spares root u u'' where
  config := h'.config.trans h.config
  limits := h'.limits.trans h.limits
  waiting := fun other differs waits =>
    h'.waiting other differs (h.waiting other differs waits)
  active := fun other differs => (h'.active other differs).trans (h.active other differs)
  results := fun other differs => (h'.results other differs).trans (h.results other differs)
  asked := fun other differs => (h'.asked other differs).trans (h.asked other differs)
  ledger := fun other differs => (h'.ledger other differs).trans (h.ledger other differs)

theorem spares_goOn (u : Underway ω) (root : String) (task : Task)
    : Spares root u (u.goOn root task) where
  config := rfl
  limits := rfl
  waiting := fun _ _ waits => waits
  active := fun other differs => by rw [goOn, lookup_replace, if_neg differs]
  results := fun _ _ => rfl
  asked := fun _ _ => rfl
  ledger := fun _ _ => rfl

theorem spares_leave (u : Underway ω) (root : String)
    (result : Except ReconcileError RootOutcome)
    : Spares root u (u.leave root result) where
  config := rfl
  limits := rfl
  waiting := fun _ _ waits => waits
  active := fun other differs => by rw [leave, lookup_drop, if_neg differs]
  results := fun other differs => lookup_append_single _ _ differs
  asked := fun _ _ => rfl
  ledger := fun _ _ => rfl

theorem asked_of_log {x : Exchange} (h : u'.log = u.log ++ [(root, x)]) (other : String)
    : u'.asked other = if other = root then u.asked root ++ [x] else u.asked other := by
  rw [asked, h, List.filter_append, List.map_append]
  by_cases same : other = root
  · simp [same, asked]
  · have differs : root ≠ other := fun he => same he.symm
    simp [same, differs, asked]

theorem asked_note (u : Underway ω) (root other : String) (x : Exchange) (world : ω)
    : (u.note root x world).asked other
      = if other = root then u.asked root ++ [x] else u.asked other :=
  asked_of_log rfl other

theorem spares_note (u : Underway ω) (root : String) (x : Exchange) (world : ω)
    : Spares root u (u.note root x world) where
  config := rfl
  limits := rfl
  waiting := fun _ _ waits => waits
  active := fun _ _ => rfl
  results := fun _ _ => rfl
  asked := fun other differs => by rw [asked_note, if_neg differs]
  ledger := fun _ _ => rfl

theorem spares_tracking {change : Tracker → Tracker}
    (spares : ∀ t, (change t).limits = t.limits
      ∧ ∀ other, other ≠ root → (change t).records other = t.records other)
    : Spares root u
        { u with
          reconciler := { u.reconciler with tracker := change u.reconciler.tracker } } where
  config := rfl
  limits := (spares _).1
  waiting := fun _ _ waits => waits
  active := fun _ _ => rfl
  results := fun _ _ => rfl
  asked := fun _ _ => rfl
  ledger := fun other differs => by
    rw [Reconciler.ledger, (spares _).2 other differs, Reconciler.ledger]

theorem spares_marking {change : PendingKeys → PendingKeys}
    (spares : ∀ m other, other ≠ root → (change m).of other = m.of other)
    : Spares root u
        { u with
          reconciler := { u.reconciler with pending := change u.reconciler.pending } } where
  config := rfl
  limits := rfl
  waiting := fun _ _ waits => waits
  active := fun _ _ => rfl
  results := fun _ _ => rfl
  asked := fun _ _ => rfl
  ledger := fun other differs => by
    have same := spares u.reconciler.pending other differs
    rw [PendingKeys.of, PendingKeys.of] at same
    rw [Reconciler.ledger, same, Reconciler.ledger]

-----------------------------------------------------------------------------------------
-- The invariant
-----------------------------------------------------------------------------------------

/-- How a root stands in a pass that found it with a ledger, with a number of steps that is enough
to bring the work on it to an end.
-/
inductive Stands (s : Surroundings ω) (now : Instant) (limits : TrackerLimits) (root : String)
    (ledger : Ledger) (u : Underway ω) (left : Nat) : Prop
  | waiting (still : root ∈ u.waiting) (silent : u.asked root = [])
    (kept : u.reconciler.ledger root = ledger) (enough : 12 ≤ left)
  | working {task : Task} {p : Program RootOutcome} (active : u.active.lookup root = some task)
    (does : task.Does limits root (u.reconciler.ledger root) p)
    (comes : (RootPass.program limits root now ledger).Comes s (u.asked root) p)
    (within : task.Within left)
  | closed {result : Except ReconcileError RootOutcome}
    (done : u.results.lookup root = some result)
    (plays : (RootPass.program limits root now ledger).Plays root (u.asked root) result
      (u.reconciler.ledger root))

/-- The work on one root does not change how another stands. -/
theorem Stands.spares (h : Stands s now limits other ledger u left) (spares : Spares root u u')
    (differs : other ≠ root)
    : Stands s now limits other ledger u' left := by
  have asked := spares.asked other differs
  have kept := spares.ledger other differs
  cases h with
  | waiting still silent same enough =>
      exact .waiting (spares.waiting other differs still) (asked.trans silent) (kept.trans same)
        enough
  | working active does comes within =>
      exact .working ((spares.active other differs).trans active) (kept ▸ does) (asked ▸ comes)
        within
  | closed done plays =>
      exact .closed ((spares.results other differs).trans done) (by rw [asked, kept]; exact plays)

/-- The names of all roots of the pass, whatever their state. -/
def names (u : Underway ω) : List String :=
  u.waiting ++ u.active.map Prod.fst ++ u.results.map Prod.fst

/-- The invariant of a pass under way from a reconciler, with steps that are left by root. -/
structure Sound (s : Surroundings ω) (now : Instant) (roots : List String) (r : Reconciler)
    (left : String → Nat) (u : Underway ω) : Prop where
  config : u.reconciler.config = r.config
  limits : u.reconciler.tracker.limits = r.config.trackerLimits
  names : u.names.Perm roots
  stands : ∀ root ∈ roots,
    Stands s now r.config.trackerLimits root (r.ledger root) u (left root)
  strangers : ∀ root, root ∉ roots →
    u.reconciler.ledger root = r.ledger root ∧ u.asked root = []

variable {roots : List String} {r : Reconciler} {budget : String → Nat}

/-- A step on one root keeps the invariant if that root stands well after it. -/
theorem Sound.spares (h : Sound s now roots r budget u) (spares : Spares root u u')
    (names : u'.names.Perm roots)
    (stands : Stands s now r.config.trackerLimits root (r.ledger root) u' left)
    (here : root ∈ roots)
    : Sound s now roots r (Function.update budget root left) u' where
  config := spares.config.trans h.config
  limits := spares.limits.trans h.limits
  names := names
  stands := fun other listed => by
    by_cases same : other = root
    · rw [same, Function.update_self]
      exact stands
    · rw [Function.update_of_ne same]
      exact (h.stands other listed).spares spares same
  strangers := fun other unlisted =>
    have differs : other ≠ root := fun same => unlisted (same ▸ here)
    ⟨(spares.ledger other differs).trans (h.strangers other unlisted).1,
      (spares.asked other differs).trans (h.strangers other unlisted).2⟩

/-- Roots have one state each. -/
theorem Sound.nodup_names (h : Sound s now roots r budget u) (distinct : roots.Nodup)
    : u.names.Nodup :=
  h.names.nodup_iff.mpr distinct

/-- A root that is begun has its task before it. -/
theorem Sound.start (h : Sound s now roots r budget u) (distinct : roots.Nodup)
    (step : u.start now = some u')
    : ∃ root ∈ roots, ∃ n < budget root, Sound s now roots r (Function.update budget root n) u' := by
  rw [Underway.start] at step
  split at step
  · cases step
  · rename_i root rest waits
    split at step
    swap
    · cases step
    · cases step
      have listed : root ∈ roots := h.names.subset (by simp [Underway.names, waits])
      have unique := h.nodup_names distinct
      rw [Underway.names, waits] at unique
      have inactive : root ∉ u.active.map Prod.fst := by
        simp only [List.cons_append, List.nodup_cons, List.mem_append, not_or] at unique
        exact unique.1.1.2
      have unended : u.results.lookup root = none := by
        simp only [List.cons_append, List.nodup_cons, List.mem_append, not_or] at unique
        exact lookup_of_notMem unique.1.2
      have spares : Spares root u
          { u with waiting := rest, active := u.active ++ [(root, RootPass.task root now)] } :=
        { config := rfl
          limits := rfl
          waiting := fun other differs waiting => by
            rw [waits] at waiting
            exact (List.mem_cons.mp waiting).resolve_left differs
          active := fun other differs => lookup_append_single _ _ differs
          results := fun _ _ => rfl
          asked := fun _ _ => rfl
          ledger := fun _ _ => rfl }
      cases h.stands root listed with
      | waiting still silent kept enough =>
          refine ⟨root, listed, 11, by omega, h.spares spares ?_ ?_ listed⟩
          · refine List.Perm.trans ?_ h.names
            simp only [Underway.names, waits, List.map_append, List.map_cons, List.map_nil]
            rw [← List.append_assoc]
            exact (List.perm_append_singleton root _).append_right _
          · refine .working ?_ (Task.does_task _ _ _ _) ?_ (Task.within_task root now)
            · rw [List.lookup_append, lookup_of_notMem inactive]
              simp
            · simp only [Underway.asked] at silent ⊢
              rw [silent]
              simp only [Reconciler.ledger] at kept ⊢
              rw [kept]
              exact .here
      | working active _ _ _ => exact absurd (mem_of_lookup active) inactive
      | closed done _ => simp [unended] at done

/-- The roots of both are in the same states. -/
structure Agrees (u u' : Underway ω) : Prop where
  waiting : u'.waiting = u.waiting
  active : u'.active = u.active
  results : u'.results = u.results

theorem Agrees.refl (u : Underway ω) : Agrees u u :=
  ⟨rfl, rfl, rfl⟩

/-- Work that goes on keeps the invariant. -/
theorem Sound.goOn {task before : Task} {p : Program RootOutcome}
    (h : Sound s now roots r budget u) (listed : root ∈ roots)
    (active : u.active.lookup root = some before) (spares : Spares root u u')
    (agrees : Agrees u u')
    (does : task.Does r.config.trackerLimits root (u'.reconciler.ledger root) p)
    (comes : (RootPass.program r.config.trackerLimits root now (r.ledger root)).Comes s
      (u'.asked root) p)
    (within : task.Within left)
    : Sound s now roots r (Function.update budget root left) (u'.goOn root task) := by
  refine h.spares (spares.trans (spares_goOn u' root task)) ?_ ?_ listed
  · refine List.Perm.trans (.of_eq ?_) h.names
    rw [Underway.names, Underway.goOn, names_replace, agrees.waiting, agrees.active,
      agrees.results, Underway.names]
  · refine .working ?_ does comes within
    rw [Underway.goOn, lookup_replace, if_pos rfl, agrees.active, active]
    rfl

/-- Work that is over keeps the invariant. -/
theorem Sound.leave {before : Task} {result : Except ReconcileError RootOutcome}
    (h : Sound s now roots r budget u) (distinct : roots.Nodup) (listed : root ∈ roots)
    (active : u.active.lookup root = some before) (spares : Spares root u u')
    (agrees : Agrees u u')
    (plays : (RootPass.program r.config.trackerLimits root now (r.ledger root)).Plays root
      (u'.asked root) result (u'.reconciler.ledger root))
    : Sound s now roots r (Function.update budget root left) (u'.leave root result) := by
  have unique := h.nodup_names distinct
  have member := mem_of_lookup active
  refine h.spares (spares.trans (spares_leave u' root result)) ?_ ?_ listed
  · refine List.Perm.trans ?_ h.names
    have dropped : (u.active.filter fun entry => entry.1 ≠ root).map Prod.fst
        = (u.active.map Prod.fst).erase root := by
      have unique : (u.active.map Prod.fst).Nodup :=
        (List.nodup_append.mp (List.nodup_append.mp unique).1).2.1
      rw [unique.erase_eq_filter, List.filter_map]
      congr 1
      refine List.filter_congr fun entry _ => ?_
      by_cases same : entry.1 = root <;> simp [same]
    rw [Underway.names, Underway.leave, Underway.names, agrees.waiting, agrees.active,
      agrees.results, dropped, List.map_append, List.append_assoc, List.append_assoc]
    refine List.Perm.append_left _ ?_
    rw [← List.append_assoc]
    refine List.Perm.trans (List.perm_append_singleton root _) ?_
    rw [← List.cons_append]
    exact ((List.perm_cons_erase member).symm).append_right _
  · refine .closed ?_ plays
    have unended : u.results.lookup root = none := by
      refine lookup_of_notMem fun ended => ?_
      exact (List.nodup_append.mp unique).2.2 root (List.mem_append_right _ member) root ended rfl
    rw [Underway.leave, agrees.results, List.lookup_append, unended]
    simp

/-- A root that is worked on is neither waiting nor over. -/
theorem Sound.working {task : Task} (h : Sound s now roots r budget u) (distinct : roots.Nodup)
    (active : u.active.lookup root = some task)
    : root ∈ roots ∧ ∃ p, task.Does r.config.trackerLimits root (u.reconciler.ledger root) p
        ∧ (RootPass.program r.config.trackerLimits root now (r.ledger root)).Comes s
            (u.asked root) p
        ∧ task.Within (budget root) := by
  have member := mem_of_lookup active
  have unique := h.nodup_names distinct
  have listed : root ∈ roots := h.names.subset (by simp [Underway.names, member])
  refine ⟨listed, ?_⟩
  cases h.stands root listed with
  | waiting still _ _ _ =>
      have apart := (List.nodup_append.mp (List.nodup_append.mp unique).1).2.2
      exact absurd rfl (apart root still root member)
  | closed done _ =>
      have apart := (List.nodup_append.mp unique).2.2
      exact absurd rfl
        (apart root (List.mem_append_right _ member) root (mem_of_lookup done))
  | working active' does comes within =>
      cases active.symm.trans active'
      exact ⟨_, does, comes, within⟩

/-- Work that goes on with a root has fewer steps before it. -/
theorem Sound.work (h : Sound s now roots r budget u) (distinct : roots.Nodup)
    (step : u.work s root = some u')
    : ∃ root ∈ roots, ∃ n < budget root, Sound s now roots r (Function.update budget root n) u' := by
  obtain ⟨task, active, stepped⟩ := Option.map_eq_some_iff.mp step
  obtain ⟨listed, p, does, comes, within⟩ := h.working distinct active
  refine ⟨root, listed, ?_⟩
  generalize budget root = total at within ⊢
  cases does with
  | finished ledger outcome =>
      cases within with
      | finished n _ =>
          cases stepped
          refine ⟨0, Nat.succ_pos n, h.leave distinct listed active (.refl u) (.refl u) ?_⟩
          have plays : Program.Plays root _ (u.asked root ++ []) (.ok outcome)
              (u.reconciler.ledger root) :=
            comes.plays (.finished _ outcome)
          rwa [List.append_nil] at plays
  | @tracking ledger change next p spares rest =>
      cases within with
      | @tracking n _ _ within =>
          cases stepped
          refine ⟨n, Nat.lt_succ_self n, h.goOn listed active (spares_tracking spares)
            ⟨rfl, rfl, rfl⟩ ?_ comes (within _)⟩
          exact rest u.reconciler.tracker h.limits rfl
  | @marking ledger change next p spares rest =>
      cases within with
      | @marking n _ _ within =>
          cases stepped
          refine ⟨n, Nat.lt_succ_self n, h.goOn listed active (spares_marking spares)
            ⟨rfl, rfl, rfl⟩ ?_ comes (within _)⟩
          exact rest u.reconciler.pending rfl
  | @asking ledger question next follows rest =>
      cases within with
      | @asking n _ _ within =>
          dsimp only at stepped
          cases asked : s.ask question u.world with
          | mk reply world =>
              rw [asked] at stepped
              cases reply with
              | answered answer =>
                  cases stepped
                  refine ⟨n, Nat.lt_succ_self n, h.goOn listed active
                    (spares_note u root _ world) ⟨rfl, rfl, rfl⟩ (rest answer) ?_
                    (within answer)⟩
                  rw [asked_note, if_pos rfl]
                  exact comes.answered (congrArg Prod.fst asked)
              | failed e =>
                  cases stepped
                  refine ⟨n, Nat.lt_succ_self n, h.leave distinct listed active
                    (spares_note u root _ world) ⟨rfl, rfl, rfl⟩ ?_⟩
                  rw [asked_note, if_pos rfl]
                  exact comes.plays (.refused rfl)
              | panicked =>
                  cases stepped
                  refine ⟨n, Nat.lt_succ_self n, h.leave distinct listed active
                    (spares_note u root _ world) ⟨rfl, rfl, rfl⟩ ?_⟩
                  rw [asked_note, if_pos rfl]
                  exact comes.plays (.refused rfl)

/-- Each step keeps the invariant and uses up some of what is left for one of the roots. -/
theorem Sound.step {stride : Stride} (h : Sound s now roots r budget u) (distinct : roots.Nodup)
    (step : u.step s now stride = some u')
    : ∃ root ∈ roots, ∃ n < budget root,
        Sound s now roots r (Function.update budget root n) u' := by
  cases stride with
  | start => exact h.start distinct step
  | work root => exact h.work distinct step

/-- Every order of steps keeps it, by induction on the steps, and there are no more of them than
what was left for all roots together.
-/
theorem Sound.run {strides : List Stride} (h : Sound s now roots r budget u)
    (distinct : roots.Nodup) (run : Underway.run s now strides u = some u')
    : ∃ budget', Sound s now roots r budget' u'
        ∧ strides.length + (roots.map budget').sum ≤ (roots.map budget).sum := by
  induction strides generalizing u budget with
  | nil =>
      cases run
      exact ⟨budget, h, by simp⟩
  | cons stride rest ih =>
      obtain ⟨middle, step, later⟩ := Option.bind_eq_some_iff.mp run
      obtain ⟨root, listed, n, fewer, sound⟩ := h.step distinct step
      obtain ⟨budget', sound, enough⟩ := ih sound later
      refine ⟨budget', sound, ?_⟩
      have used : (roots.map (Function.update budget root n)).sum < (roots.map budget).sum := by
        refine List.sum_lt_sum _ _ (fun other _ => ?_) ⟨root, listed, ?_⟩
        · by_cases same : other = root
          · rw [same, Function.update_self]
            exact fewer.le
          · rw [Function.update_of_ne same]
        · rwa [Function.update_self]
      rw [List.length_cons]
      omega

/-- As long as the pass is not over, something can go on. -/
theorem exists_step (s : Surroundings ω) (now : Instant) (u : Underway ω) (h : ¬ u.Over)
    : ∃ stride, (u.step s now stride).isSome := by
  cases active : u.active with
  | nil =>
      cases waiting : u.waiting with
      | nil => exact absurd ⟨waiting, active⟩ h
      | cons root rest =>
          refine ⟨.start, ?_⟩
          have room : u.active.length < u.bound := by
            rw [active, Underway.bound, List.length_nil]
            omega
          rw [Underway.step, Underway.start, waiting]
          dsimp only
          rw [if_pos room]
          rfl
  | cons entry rest =>
      refine ⟨.work entry.1, ?_⟩
      rw [Underway.step, Underway.work, active, List.lookup_cons, beq_self_eq_true]
      rfl

-----------------------------------------------------------------------------------------
-- Whole passes
-----------------------------------------------------------------------------------------

variable {strides : List Stride} {w : ω}

theorem sound_begin (s : Surroundings ω) (now : Instant) (w : ω) (h : r.Configured)
    : Sound s now (Reconciler.sharedRoots s w) (r.retainRoots (Reconciler.sharedRoots s w))
        (fun _ => 12) (begin s r w) where
  config := rfl
  limits := h
  names := by simp [names, begin]
  stands := fun _ listed => .waiting listed rfl rfl (Nat.le_refl _)
  strangers := fun _ _ => ⟨rfl, rfl⟩

/-- A pass takes at most twelve steps per root, and it can go on until it is over. -/
theorem run_bounded (h : r.Configured) (distinct : (Reconciler.sharedRoots s w).Nodup)
    (run : run s now strides (begin s r w) = some u)
    : strides.length ≤ 12 * (Reconciler.sharedRoots s w).length
      ∧ (¬ u.Over → ∃ stride, (u.step s now stride).isSome) := by
  obtain ⟨budget, -, enough⟩ := (sound_begin s now w h).run distinct run
  refine ⟨?_, exists_step s now u⟩
  rw [List.map_const', List.sum_replicate, Nat.nsmul_eq_mul] at enough
  omega

/-- When a pass is over, it has played the pass over each shared root, asked nothing for other
roots, and forgotten them.
-/
theorem run_over (h : r.Configured) (distinct : (Reconciler.sharedRoots s w).Nodup)
    (run : run s now strides (begin s r w) = some u) (closed : u.Over)
    : u.reconciler.config = r.config ∧ u.reconciler.Configured
      ∧ (u.results.map Prod.fst).Perm (Reconciler.sharedRoots s w)
      ∧ (∀ root ∈ Reconciler.sharedRoots s w, ∃ result, u.results.lookup root = some result
          ∧ (r.program now root).Plays root (u.asked root) result (u.reconciler.ledger root))
      ∧ ∀ root, root ∉ Reconciler.sharedRoots s w →
          u.reconciler.ledger root = {} ∧ u.asked root = [] := by
  obtain ⟨budget, sound, -⟩ := (sound_begin s now w h).run distinct run
  have configured : u.reconciler.Configured := by
    rw [Reconciler.Configured, sound.limits, sound.config]
  have names := sound.names
  rw [Underway.names, closed.waiting, closed.active] at names
  refine ⟨sound.config, configured, names, fun root listed => ?_, fun root unlisted => ?_⟩
  · cases sound.stands root listed with
    | waiting still _ _ _ =>
        rw [closed.waiting] at still
        cases still
    | working active _ _ _ =>
        rw [closed.active] at active
        cases active
    | @closed result done plays =>
        rw [Reconciler.ledger_retainRoots, if_pos listed] at plays
        exact ⟨result, done, plays⟩
  · obtain ⟨kept, silent⟩ := sound.strangers root unlisted
    rw [kept, Reconciler.ledger_retainRoots, if_neg unlisted]
    exact ⟨rfl, silent⟩

/-- A step asks nothing and leaves the world as it is, or it notes one question and its reply. -/
theorem step_log {stride : Stride} (step : u.step s now stride = some u')
    : u'.log = u.log ∧ u'.world = u.world
      ∨ ∃ root question next, u.active.lookup root = some (.asking question next)
          ∧ u'.log = u.log ++ [(root, ⟨question, (s.ask question u.world).1⟩)]
          ∧ u'.world = (s.ask question u.world).2 := by
  cases stride with
  | start =>
      rw [Underway.step, Underway.start] at step
      split at step
      · cases step
      · split at step
        · cases step
          exact .inl ⟨rfl, rfl⟩
        · cases step
  | work root =>
      obtain ⟨task, active, stepped⟩ := Option.map_eq_some_iff.mp step
      cases task with
      | finished _ =>
          cases stepped
          exact .inl ⟨rfl, rfl⟩
      | tracking _ _ =>
          cases stepped
          exact .inl ⟨rfl, rfl⟩
      | marking _ _ =>
          cases stepped
          exact .inl ⟨rfl, rfl⟩
      | asking question next =>
          refine .inr ⟨root, question, next, active, ?_⟩
          dsimp only at stepped
          rcases asked : s.ask question u.world with ⟨answer | e | _, world⟩ <;>
            rw [asked] at stepped <;> cases stepped <;> exact ⟨rfl, rfl⟩

/-- Every reply that was noted is one that the surroundings gave. -/
def Truthful (s : Surroundings ω) (u : Underway ω) : Prop :=
  ∀ entry ∈ u.log, ∃ w, (s.ask entry.2.question w).1 = entry.2.reply

theorem Truthful.step {stride : Stride} (h : Truthful s u) (step : u.step s now stride = some u')
    : Truthful s u' := by
  rcases step_log step with ⟨log, -⟩ | ⟨root, question, next, -, log, -⟩
  · rw [Truthful, log]
    exact h
  · rw [Truthful, log]
    exact List.forall_mem_append.mpr ⟨h, List.forall_mem_singleton.mpr ⟨u.world, rfl⟩⟩

theorem Truthful.run (h : Truthful s u) (run : Underway.run s now strides u = some u')
    : Truthful s u' := by
  induction strides generalizing u with
  | nil =>
      cases run
      exact h
  | cons stride rest ih =>
      obtain ⟨middle, step, later⟩ := Option.bind_eq_some_iff.mp run
      exact ih (h.step step) later

theorem run_truthful (run : run s now strides (begin s r w) = some u)
    : ∀ x ∈ u.asked root, ∃ v, (s.ask x.question v).1 = x.reply := by
  intro x hx
  obtain ⟨entry, hm, rfl⟩ := List.mem_map.mp hx
  exact (Truthful.run (u := begin s r w) (fun _ hm => by cases hm) run) entry
    (List.mem_of_mem_filter hm)

end Underway

end Concord
