import Concord.Proofs.Reconcile.Independence
import Concord.Proofs.Reconcile.Statuses
import Concord.Proofs.Universe.SoleWorker

/-! A pass over the only root that two settled sites serve, with a sink that is open. Every question
of the pass is answered, so it reports what follows from what it found, and then it pushes the batch
or resets the root.
-/

namespace Concord

variable {ω : Type} {s : Surroundings ω} {root : String} {now : Instant} {w w' : ω}

-----------------------------------------------------------------------------------------
-- What a pass asks
-----------------------------------------------------------------------------------------

/-- The same surroundings with a record of all that was asked and answered. -/
def Surroundings.recorded (s : Surroundings ω) : Surroundings (ω × List Exchange) where
  roots side w := s.roots side w.1
  ask question w :=
    let (reply, world) := s.ask question w.1
    (reply, (world, w.2 ++ [⟨question, reply⟩]))
  serve side roots w :=
    let (result, world) := s.serve side roots w.1
    (result, (world, w.2))
  settle side w :=
    let (result, world) := s.settle side w.1
    (result, (world, w.2))

/-- A record changes nothing, and holds what the program asks. -/
theorem Program.run_recorded {α : Type} (p : Program α) (root : String) (w : ω)
    (log : List Exchange)
    : p.run s.recorded root (w, log)
      = ((p.run s root w).1, ((p.run s root w).2, log ++ p.talk s w)) := by
  induction p generalizing w log with
  | finished ledger a => simp [run, talk]
  | asking ledger question next ih =>
      rcases asked : s.ask question w with ⟨reply, v⟩
      have asked' : s.recorded.ask question (w, log)
          = (reply, (v, log ++ [⟨question, reply⟩])) := by
        simp only [Surroundings.recorded, asked]
      rcases answered_or_error root reply with ⟨answer, rfl⟩ | ⟨e, error⟩
      · obtain ⟨runs, talked⟩ := run_answered root ledger next asked
        rw [(run_answered root ledger next asked').1, ih, runs, talked, List.append_assoc]
        rfl
      · obtain ⟨runs, talked⟩ := run_refused ledger next asked error
        rw [(run_refused ledger next asked' error).1, runs, talked]

namespace Reconciler

/-- What a pass asks of the views and the sink, with the replies. -/
def talk (s : Surroundings ω) (now : Instant) (r : Reconciler) (w : ω) : List Exchange :=
  (r.pass s.recorded now (w, [])).2.2

/-- A pass over one root is the program of this root. -/
theorem pass_lone (shared : sharedRoots s w = [root]) (now : Instant) (r : Reconciler)
    : r.pass s now w
        = ((.of [(root, ((r.program now root).run s root w).1.1)],
            (r.retainRoots [root]).setLedger root ((r.program now root).run s root w).1.2),
          ((r.program now root).run s root w).2)
      ∧ r.talk s now w = (r.program now root).talk s w := by
  have same : (r.retainRoots [root]).program now root = r.program now root :=
    program_retainRoots List.mem_cons_self
  have shared' : sharedRoots s.recorded (w, []) = [root] := shared
  constructor
  · rw [pass, shared, List.foldl_cons, List.foldl_nil, passRoot_eq, same]
    rfl
  · rw [talk, pass, shared', List.foldl_cons, List.foldl_nil, passRoot_eq, same,
      Program.run_recorded]
    rfl

end Reconciler

/-- The roots that were to be reset. -/
def Exchange.resets (x : Exchange) : List (Side × String) :=
  match x.question with
  | .reset side root => [(side, root)]
  | .tree .. | .resources _ | .resourcesForDelete _ | .report _ | .push _ => []

/-- A program asks and is answered, comes to a result with a ledger, and leaves a world. -/
structure Program.Yields {α : Type} (p : Program α) (s : Surroundings ω) (root : String) (w : ω)
    (log : List Exchange) (out : Except ReconcileError α × Ledger) (w' : ω) : Prop where
  run : p.run s root w = (out, w')
  talk : p.talk s w = log

theorem Program.Yields.asking {α : Type} {question : Question} {answer : question.Answer}
    {ledger : Ledger} {next : Ledger → question.Answer → Program α} {log : List Exchange}
    {out : Except ReconcileError α × Ledger} {v : ω}
    (asked : s.ask question w = (.answered answer, v))
    (h : (next ledger answer).Yields s root v log out w')
    : (Program.asking ledger question next).Yields s root w
        (⟨question, .answered answer⟩ :: log) out w' := by
  obtain ⟨runs, talked⟩ := run_answered root ledger next asked
  exact ⟨runs.trans h.run, talked.trans (congrArg _ h.talk)⟩

namespace RootPass

/-- The batches that a pass pushes or tries to. -/
def batches (log : List Exchange) : List ResourceBatch :=
  log.flatMap Exchange.batches

/-- The resets that a pass asks for. -/
def resets (log : List Exchange) : List (Side × String) :=
  log.flatMap Exchange.resets

/-- The ledger after a pass that came to sort what it found. -/
def Findings.left (f : Findings) (limits : TrackerLimits) (root : String) (now : Instant)
    (ledger : Ledger)
    : Ledger where
  records :=
    if (f.sorted limits now ledger).1.reset then (f.sorted limits now ledger).2.afterReset now
    else (f.sorted limits now ledger).2
  pending := (f.status limits root now ledger).1

open Program

variable {i i' : Installation} {kind : TreeKind} {limits : TrackerLimits} {ledger : Ledger}
  {f : Findings} {log : List Exchange} {out : Except ReconcileError RootOutcome × Ledger}

-----------------------------------------------------------------------------------------
-- An open sink
-----------------------------------------------------------------------------------------

/-- The changes of status as a report that was accepted. -/
def accepted (transitions : List StatusTransition) : List Exchange :=
  if transitions.isEmpty then [] else [⟨.report transitions, .answered ()⟩]

/-- The installation after changes of status were reported. -/
def informed (i : Installation) (transitions : List StatusTransition) : Installation :=
  if transitions.isEmpty then i else { i with sink := (i.sink.report transitions).2 }

theorem accepted_spec (transitions : List StatusTransition)
    : RootPass.transitions (accepted transitions) = transitions
      ∧ batches (accepted transitions) = [] ∧ resets (accepted transitions) = [] := by
  cases transitions with
  | nil => exact ⟨rfl, rfl, rfl⟩
  | cons t rest => exact ⟨List.append_nil _, rfl, rfl⟩

theorem informed_spec (i : Installation) (transitions : List StatusTransition)
    : (informed i transitions).store = i.store ∧ (informed i transitions).fabric = i.fabric
      ∧ (informed i transitions).sink.isOpen = i.sink.isOpen := by
  rw [informed, StatusSink.report]
  cases transitions.isEmpty <;> cases shut : i.sink.isOpen <;> simp [shut]

/-- An open sink lets a pass go on. -/
theorem yields_reporting {transitions : List StatusTransition}
    {next : Ledger → Program RootOutcome} (taken : i.sink.isOpen = true)
    (h : (next ledger).Yields (Installation.surroundings kind) root (informed i transitions) log
      out i')
    : (reporting ledger transitions next).Yields (Installation.surroundings kind) root i
        (accepted transitions ++ log) out i' := by
  rw [reporting, accepted]
  rw [informed] at h
  split
  · rename_i quiet
    rwa [if_pos quiet] at h
  · rename_i changes
    rw [if_neg changes] at h
    have asked : (Installation.surroundings kind).ask (.report transitions) i
        = (.answered (), { i with sink := (i.sink.report transitions).2 }) := by
      simp [Installation.surroundings, Installation.ask, StatusSink.report, taken]
    exact .asking asked h

-----------------------------------------------------------------------------------------
-- Settled sites
-----------------------------------------------------------------------------------------

/-- What a pass finds where it looks at store and fabric. -/
def sights (i : Installation) (kind : TreeKind) (root : String) : Findings :=
  let delta := (i.store.viewTree kind root).diff (i.fabric.viewTree kind root)
  { desired := i.store.viewTree kind root
    observed := i.fabric.viewTree kind root
    creates := i.store.backend.fetch kind delta.add
    deletes := Memory.fetchForDelete kind delta.remove }

/-- A pass looks at both trees and fetches resources first, which changes nothing. -/
theorem yields_program (differ : (sights i kind root).delta.isEmpty = false)
    (h : (sorting limits root now (sights i kind root).delta (sights i kind root).creates
        (sights i kind root).deletes ledger).Yields (Installation.surroundings kind) root i log
      out i')
    : (program limits root now ledger).Yields (Installation.surroundings kind) root i
        ((sights i kind root).asked root ++ log) out i' := by
  rw [program_eq]
  have desired : (Installation.surroundings kind).ask (.tree .desired root) i
      = (.answered (i.store.viewTree kind root), i) :=
    rfl
  have observed : (Installation.surroundings kind).ask (.tree .observed root) i
      = (.answered (i.fabric.viewTree kind root), i) :=
    rfl
  have creates : (Installation.surroundings kind).ask (.resources (sights i kind root).delta.add) i
      = (.answered (sights i kind root).creates, i) :=
    rfl
  have deletes : (Installation.surroundings kind).ask
      (.resourcesForDelete (sights i kind root).delta.remove) i
      = (.answered (sights i kind root).deletes, i) :=
    rfl
  have unlike : ((sights i kind root).desired.diff (sights i kind root).observed).isEmpty = false :=
    differ
  refine .asking desired (.asking observed ?_)
  rw [compared, unlike, if_neg Bool.false_ne_true]
  exact .asking creates (.asking deletes h)

/-- The fabric after a batch, which is pushed unless it is empty. -/
def pushedTo (fabric : Site Memory) (kind : TreeKind) (batch : ResourceBatch) : Site Memory :=
  if batch.isEmpty then fabric else { fabric with backend := fabric.backend.push kind batch }

/-- What a pass tells, what it pushes, and whether it has the root rebuilt, and what becomes of the
installation.
-/
structure Effect (i : Installation) (kind : TreeKind) (root : String)
    (told : List StatusTransition) (batch : ResourceBatch) (reset : Bool) (log : List Exchange)
    (i' : Installation) : Prop where
  told : transitions log = told
  pushes : batches log = if batch.isEmpty then [] else [batch]
  rebuilds : resets log = if reset then [(.observed, root), (.desired, root)] else []
  attended : i'.Attended kind root
  taken : i'.sink.isOpen = true
  store : i.store.backend.Still i'.store.backend
  fabric : (pushedTo i.fabric kind batch).backend.Still i'.fabric.backend

/-- What a pass does after it has reported is all that it does but for the report. -/
theorem log_spec (f : Findings) (root : String) (told : List StatusTransition)
    (rest : List Exchange)
    : transitions (f.asked root ++ (accepted told ++ rest)) = told ++ transitions rest
      ∧ batches (f.asked root ++ (accepted told ++ rest)) = batches rest
      ∧ resets (f.asked root ++ (accepted told ++ rest)) = resets rest := by
  obtain ⟨told, silent, spared⟩ := accepted_spec told
  refine ⟨?_, ?_, ?_⟩
  · rw [transitions_append, transitions_append, told]
    rfl
  · rw [batches, List.flatMap_append, List.flatMap_append]
    exact congrArg (· ++ batches rest) silent
  · rw [resets, List.flatMap_append, List.flatMap_append]
    exact congrArg (· ++ resets rest) spared

theorem Attended.pushedTo (h : i.fabric.Attended kind root) (batch : ResourceBatch)
    : (pushedTo i.fabric kind batch).Attended kind root := by
  rw [RootPass.pushedTo]
  split
  · exact h
  · exact h.push kind batch

theorem Findings.left_of_push (calm : (f.sorted limits now ledger).1.reset = false)
    : f.left limits root now ledger
      = ⟨(f.sorted limits now ledger).2, (f.status limits root now ledger).1⟩ := by
  rw [left, calm]
  rfl

theorem Findings.left_of_reset (due : (f.sorted limits now ledger).1.reset = true)
    : f.left limits root now ledger
      = ⟨(f.sorted limits now ledger).2.afterReset now,
          (f.status limits root now ledger).1⟩ := by
  rw [left, due]
  rfl

/-- Before a pass pushes its batch it finds out what differs and reports. -/
theorem yields_pushing (taken : i.sink.isOpen = true)
    (differ : (sights i kind root).delta.isEmpty = false)
    (calm : ((sights i kind root).sorted limits now ledger).1.reset = false)
    : let f := sights i kind root
      let batch := (f.sorted limits now ledger).1.batch
      let told := (f.status limits root now ledger).2
      let left := f.left limits root now ledger
      let outcome := f.pushOutcome limits root now ledger
      (if batch.isEmpty then Program.finished left outcome
        else .asking left (.push batch) fun last _ => .finished last outcome).Yields
          (Installation.surroundings kind) root (informed i told) log out i' →
      (program limits root now ledger).Yields (Installation.surroundings kind) root i
        (f.asked root ++ (accepted told ++ log)) out i' := by
  intro f batch told left outcome h
  have status : f.status limits root now ledger
      = StatusTransition.ofPass root ledger.pending
          ((f.sorted limits now ledger).1.attempted f.delta) (f.sorted limits now ledger).1 :=
    Findings.status_of_push calm
  have last : left = ⟨(f.sorted limits now ledger).2, (f.status limits root now ledger).1⟩ :=
    Findings.left_of_push calm
  rw [last] at h
  refine yields_program differ ?_
  rw [sorting_eq, calm, if_neg Bool.false_ne_true, pushing]
  dsimp only
  rw [← status]
  refine yields_reporting taken ?_
  exact h

/-- A pass in which no action asks for a reset pushes what may be tried. -/
theorem yields_push (settled : i.Settled kind root) (taken : i.sink.isOpen = true)
    (differ : (sights i kind root).delta.isEmpty = false)
    (calm : ((sights i kind root).sorted limits now ledger).1.reset = false)
    : let f := sights i kind root
      ∃ outcome log i',
        (program limits root now ledger).Yields (Installation.surroundings kind) root i log
          (.ok outcome, f.left limits root now ledger) i'
        ∧ Effect i kind root (f.status limits root now ledger).2
            (f.sorted limits now ledger).1.batch false log i' := by
  intro f
  let outcome := f.pushOutcome limits root now ledger
  let batch := (f.sorted limits now ledger).1.batch
  let told := (f.status limits root now ledger).2
  obtain ⟨store, fabric, sink⟩ := informed_spec i told
  have attended : ({ informed i told with fabric := pushedTo i.fabric kind batch } :
      Installation).Attended kind root := fun side => by
    cases side with
    | desired =>
        have same : (informed i told).store.Attended kind root :=
          store ▸ (settled .desired).attended
        exact same
    | observed => exact Attended.pushedTo (settled .observed).attended batch
  by_cases empty : batch.isEmpty
  · obtain ⟨tells, pushes, resets⟩ := log_spec f root told []
    have same : pushedTo i.fabric kind batch = (informed i told).fabric := by
      rw [pushedTo, if_pos empty, fabric]
    rw [same] at attended
    refine ⟨outcome, _, informed i told, yields_pushing taken differ calm ?_,
      tells.trans (List.append_nil _), ?_, resets, attended, sink.trans taken, store ▸ .refl _, ?_⟩
    · rw [if_pos empty]
      exact ⟨rfl, rfl⟩
    · rw [pushes, if_pos empty]
      rfl
    · rw [same]
      exact .refl _
  · have lands : (Installation.surroundings kind).ask (.push batch) (informed i told)
        = (.answered (), { informed i told with fabric := pushedTo i.fabric kind batch }) := by
      rw [pushedTo, if_neg empty]
      simp only [Installation.surroundings, Installation.ask, fabric]
      rfl
    obtain ⟨tells, pushes, resets⟩ := log_spec f root told [⟨.push batch, .answered ()⟩]
    refine ⟨outcome, _, { informed i told with fabric := pushedTo i.fabric kind batch },
      yields_pushing taken differ calm ?_, tells.trans (List.append_nil _), ?_, resets, attended,
      sink.trans taken, store ▸ .refl _, .refl _⟩
    · rw [if_neg empty]
      exact .asking lands ⟨rfl, rfl⟩
    · rw [pushes, if_neg empty]
      rfl

/-- A pass in which an action asks for a reset pushes nothing and has both sites rebuild the root.
-/
theorem yields_reset (settled : i.Settled kind root) (taken : i.sink.isOpen = true)
    (differ : (sights i kind root).delta.isEmpty = false)
    (due : ((sights i kind root).sorted limits now ledger).1.reset = true)
    : let f := sights i kind root
      ∃ outcome log i',
        (program limits root now ledger).Yields (Installation.surroundings kind) root i log
          (.ok outcome, f.left limits root now ledger) i'
        ∧ Effect i kind root (f.status limits root now ledger).2 {} true log i' := by
  intro f
  let told := (f.status limits root now ledger).2
  let i₁ := informed i told
  obtain ⟨store, fabric, sink⟩ := informed_spec i told
  have same (side : Side) : i₁.site side = i.site side := by
    cases side with
    | desired => exact store
    | observed => exact fabric
  have settled₁ : i₁.Settled kind root := fun side => by
    rw [same]
    exact settled side
  obtain ⟨result₂, settled₂, still₂⟩ := Installation.settled_reset settled₁.attended .observed
  obtain ⟨result₃, settled₃, still₃⟩ := Installation.settled_reset settled₂.attended .desired
  have still := still₂.trans still₃
  have status : f.status limits root now ledger
      = StatusTransition.ofFailed root ledger.pending (f.sorted limits now ledger).1.failed :=
    Findings.status_of_reset due
  have asked (side : Side) (j : Installation)
      (ok : (Installation.reset kind side root j).1 = .ok ())
      : (Installation.surroundings kind).ask (.reset side root) j
        = (.answered (), (Installation.reset kind side root j).2) := by
    simp only [Installation.surroundings, Installation.ask, ok]
    rfl
  obtain ⟨tells, pushes, resets⟩ := log_spec f root told
    [⟨.reset .observed root, .answered ()⟩, ⟨.reset .desired root, .answered ()⟩]
  rw [Findings.left_of_reset due]
  refine ⟨f.resetOutcome limits root now ledger, _, _, yields_program differ ?_,
    tells.trans (List.append_nil _), pushes, resets, settled₃.attended, ?_, ?_, ?_⟩
  · rw [sorting_eq, due, if_pos rfl, resetting]
    dsimp only
    rw [← status]
    exact yields_reporting taken
      (.asking (asked .observed i₁ result₂) (.asking (asked .desired _ result₃) ⟨rfl, rfl⟩))
  · rw [still.sink]
    exact sink.trans taken
  · rw [← store]
    exact still.store
  · have nothing : pushedTo i.fabric kind {} = i.fabric := rfl
    rw [nothing, ← fabric]
    exact still.fabric

end RootPass

end Concord
