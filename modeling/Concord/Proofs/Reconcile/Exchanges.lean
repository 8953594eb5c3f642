import Concord.Proofs.Reconcile.Questions

/-! What a pass over one root asks and is answered, and what becomes of the root. The replies may
be any: whatever they are, the pass takes one of five courses.
-/

namespace Concord

-----------------------------------------------------------------------------------------
-- Questions with their replies
-----------------------------------------------------------------------------------------

/-- The error that a reply is to work on a root. -/
def Reply.error? {α : Type} (root : String) : Reply α → Option ReconcileError
  | .answered _ => none
  | .failed e => some e
  | .panicked => some (.rootPanicked root)

/-- The question is about the root, as far as it names one. -/
def Question.About (root : String) : Question → Prop
  | .tree _ other | .reset _ other => other = root
  | .report transitions => ∀ t ∈ transitions, t.root = root
  | .resources _ | .resourcesForDelete _ | .push _ => True

/-- The question is about the root and leaves everything as it is. -/
def Question.Reads (root : String) : Question → Prop
  | .tree _ other => other = root
  | .resources _ | .resourcesForDelete _ => True
  | .report _ | .push _ | .reset .. => False

theorem Question.Reads.about {root : String} {question : Question} (h : question.Reads root)
    : question.About root := by
  cases question <;> first | exact h | exact h.elim

/-- A question and its reply. -/
structure Exchange where
  question : Question
  reply : Reply question.Answer

namespace Exchange

/-- The changes of status that were to be reported. -/
def transitions (x : Exchange) : List StatusTransition :=
  match x.question with
  | .report transitions => transitions
  | .tree .. | .resources _ | .resourcesForDelete _ | .push _ | .reset .. => []

/-- The batches that were to be pushed. -/
def batches (x : Exchange) : List ResourceBatch :=
  match x.question with
  | .push batch => [batch]
  | .tree .. | .resources _ | .resourcesForDelete _ | .report _ | .reset .. => []

theorem transitions_of_reads {root : String} {x : Exchange} (h : x.question.Reads root)
    : x.transitions = [] := by
  obtain ⟨question, reply⟩ := x
  cases question <;> first | rfl | exact h.elim

end Exchange

namespace Program

variable {α ω : Type} {root : String}

/-- What a program asks where it runs alone, with the replies. -/
def talk (s : Surroundings ω) : Program α → ω → List Exchange
  | finished _ _, _ => []
  | asking ledger question next, w =>
      match s.ask question w with
      | (.answered answer, w) => ⟨question, .answered answer⟩ :: (next ledger answer).talk s w
      | (reply, _) => [⟨question, reply⟩]

/-- A program comes to a result and leaves a ledger behind, given the replies to its questions. -/
inductive Plays (root : String)
    : Program α → List Exchange → Except ReconcileError α → Ledger → Prop
  | finished (ledger : Ledger) (a : α) : Plays root (.finished ledger a) [] (.ok a) ledger
  | answered {ledger left : Ledger} {question : Question}
    {next : Ledger → question.Answer → Program α} {answer : question.Answer}
    {log : List Exchange} {result : Except ReconcileError α}
    (rest : Plays root (next ledger answer) log result left)
    : Plays root (.asking ledger question next) (⟨question, .answered answer⟩ :: log) result left
  | refused {ledger : Ledger} {question : Question}
    {next : Ledger → question.Answer → Program α} {reply : Reply question.Answer}
    {e : ReconcileError} (error : reply.error? root = some e)
    : Plays root (.asking ledger question next) [⟨question, reply⟩] (.error e) ledger

/-- A reply that is an error is the last one, and the result. -/
theorem Plays.failed {p : Program α} {log : List Exchange} {result : Except ReconcileError α}
    {left : Ledger} (h : p.Plays root log result left) {x : Exchange} (hx : x ∈ log)
    {e : ReconcileError} (error : x.reply.error? root = some e)
    : result = .error e := by
  induction h with
  | finished ledger a => cases hx
  | answered rest ih =>
      rcases List.mem_cons.mp hx with rfl | later
      · cases error
      · exact ih later
  | refused failed =>
      cases List.mem_singleton.mp hx
      rw [Option.some.inj (failed.symm.trans error)]

/-- A program that runs alone plays, by induction on its questions. -/
theorem plays_run (s : Surroundings ω) (root : String) (p : Program α) (w : ω)
    : p.Plays root (p.talk s w) (p.run s root w).1.1 (p.run s root w).1.2 := by
  induction p generalizing w with
  | finished ledger a => exact .finished ledger a
  | asking ledger question next ih =>
      rw [talk, run]
      cases asked : s.ask question w with
      | mk reply w' =>
          cases reply with
          | answered answer => exact .answered (ih ledger answer w')
          | failed e => exact .refused rfl
          | panicked => exact .refused rfl

end Program

-----------------------------------------------------------------------------------------
-- The courses of a pass
-----------------------------------------------------------------------------------------

namespace RootPass

variable {limits : TrackerLimits} {root : String} {now : Instant} {ledger left : Ledger}
  {log : List Exchange} {result : Except ReconcileError RootOutcome}

/-- What a pass found on a root whose trees differ: both trees and the resources of the
difference.
-/
structure Findings where
  desired : HashTree
  observed : HashTree
  creates : List Resource
  deletes : List Resource

namespace Findings

/-- The full difference. -/
def delta (f : Findings) : TreeDiff :=
  f.desired.diff f.observed

/-- What is made of the resources, and the records after that. -/
def sorted (f : Findings) (limits : TrackerLimits) (now : Instant) (ledger : Ledger)
    : Triage × Records :=
  Triage.sort limits now ledger.records f.creates f.deletes

/-- The pending keys after the pass and the changes of status that it reports. -/
def status (f : Findings) (limits : TrackerLimits) (root : String) (now : Instant)
    (ledger : Ledger) : KeySet × List StatusTransition :=
  let triage := (f.sorted limits now ledger).1
  if triage.reset then StatusTransition.ofFailed root ledger.pending triage.failed
  else StatusTransition.ofPass root ledger.pending (triage.attempted f.delta) triage

/-- The questions by which all this is found. -/
def asked (f : Findings) (root : String) : List Exchange :=
  [⟨.tree .desired root, .answered f.desired⟩, ⟨.tree .observed root, .answered f.observed⟩,
    ⟨.resources f.delta.add, .answered f.creates⟩,
    ⟨.resourcesForDelete f.delta.remove, .answered f.deletes⟩]

/-- What is told of a root that was reset. -/
def resetOutcome (f : Findings) (limits : TrackerLimits) (root : String) (now : Instant)
    (ledger : Ledger) : RootOutcome :=
  { root, delta := f.delta, failed := (f.sorted limits now ledger).1.failedIdentities
    reset := true }

/-- What is told of a root whose resources were pushed. -/
def pushOutcome (f : Findings) (limits : TrackerLimits) (root : String) (now : Instant)
    (ledger : Ledger) : RootOutcome :=
  let triage := (f.sorted limits now ledger).1
  { root, delta := f.delta, attempted := triage.attempted f.delta
    pushed := triage.batch.size, backedOff := triage.backedOff
    failed := triage.failedIdentities }

end Findings

/-- Changes of status are reported, unless there are none. -/
inductive Reports (root : String) (transitions : List StatusTransition)
    : List Exchange → Option ReconcileError → Prop
  | silent (quiet : transitions = []) : Reports root transitions [] none
  | told (changes : transitions ≠ []) (reply : Reply Unit)
    : Reports root transitions [⟨.report transitions, reply⟩] (reply.error? root)

/-- Both views are to rebuild the root, the desired one after the observed one. -/
inductive Resets (root : String) : List Exchange → Option ReconcileError → Prop
  | first {reply : Reply Unit} {e : ReconcileError} (error : reply.error? root = some e)
    : Resets root [⟨.reset .observed root, reply⟩] (some e)
  | both (reply : Reply Unit)
    : Resets root [⟨.reset .observed root, .answered ()⟩, ⟨.reset .desired root, reply⟩]
        (reply.error? root)

/-- A batch is pushed, unless it is empty. -/
inductive Pushes (root : String) (batch : ResourceBatch)
    : List Exchange → Option ReconcileError → Prop
  | nothing (empty : batch.isEmpty = true) : Pushes root batch [] none
  | pushed (full : batch.isEmpty = false) (reply : Reply Unit)
    : Pushes root batch [⟨.push batch, reply⟩] (reply.error? root)

/-- An error if there is one, and an outcome otherwise. -/
def ended (failure : Option ReconcileError) (outcome : RootOutcome)
    : Except ReconcileError RootOutcome :=
  match failure with
  | none => .ok outcome
  | some e => .error e

/-- The ways in which a pass over a root goes: what it asks, what it comes to, and the ledger that
it leaves.
-/
inductive Course (limits : TrackerLimits) (root : String) (now : Instant) (ledger : Ledger)
    : List Exchange → Except ReconcileError RootOutcome → Ledger → Prop
  | unread {log : List Exchange} {e : ReconcileError} (reads : ∀ x ∈ log, x.question.Reads root)
    : Course limits root now ledger log (.error e) ledger
  | converged {desired observed : HashTree} {reported : List Exchange}
    {failure : Option ReconcileError} (same : (desired.diff observed).isEmpty = true)
    (reports : Reports root (StatusTransition.ofPass root ledger.pending {} {}).2 reported failure)
    : Course limits root now ledger
        ([⟨.tree .desired root, .answered desired⟩, ⟨.tree .observed root, .answered observed⟩]
          ++ reported)
        (ended failure { root }) ⟨∅, (StatusTransition.ofPass root ledger.pending {} {}).1⟩
  | unreported (f : Findings) {reported : List Exchange} {e : ReconcileError}
    (differ : f.delta.isEmpty = false)
    (reports : Reports root (f.status limits root now ledger).2 reported (some e))
    : Course limits root now ledger (f.asked root ++ reported) (.error e)
        ⟨(f.sorted limits now ledger).2, (f.status limits root now ledger).1⟩
  | reset (f : Findings) {reported rebuilt : List Exchange} {failure : Option ReconcileError}
    (differ : f.delta.isEmpty = false) (due : (f.sorted limits now ledger).1.reset = true)
    (reports : Reports root (f.status limits root now ledger).2 reported none)
    (resets : Resets root rebuilt failure)
    : Course limits root now ledger (f.asked root ++ reported ++ rebuilt)
        (ended failure (f.resetOutcome limits root now ledger))
        ⟨(f.sorted limits now ledger).2.afterReset now, (f.status limits root now ledger).1⟩
  | pushed (f : Findings) {reported pushed : List Exchange} {failure : Option ReconcileError}
    (differ : f.delta.isEmpty = false) (due : (f.sorted limits now ledger).1.reset = false)
    (reports : Reports root (f.status limits root now ledger).2 reported none)
    (pushes : Pushes root (f.sorted limits now ledger).1.batch pushed failure)
    : Course limits root now ledger (f.asked root ++ reported ++ pushed)
        (ended failure (f.pushOutcome limits root now ledger))
        ⟨(f.sorted limits now ledger).2, (f.status limits root now ledger).1⟩

/-- Reporting comes first, and the rest only if it succeeds. -/
theorem plays_reporting {transitions : List StatusTransition}
    {next : Ledger → Program RootOutcome}
    (h : (reporting ledger transitions next).Plays root log result left)
    : (∃ e, Reports root transitions log (some e) ∧ result = .error e ∧ left = ledger)
      ∨ ∃ reported rest, Reports root transitions reported none ∧ log = reported ++ rest
          ∧ (next ledger).Plays root rest result left := by
  rw [reporting] at h
  split at h
  · rename_i quiet
    exact .inr ⟨[], log, .silent (List.isEmpty_iff.mp quiet), rfl, h⟩
  · rename_i changes
    have told : transitions ≠ [] := fun quiet => changes (List.isEmpty_iff.mpr quiet)
    cases h with
    | answered rest => exact .inr ⟨_, _, .told told (.answered ()), rfl, rest⟩
    | @refused _ _ _ reply e error => exact .inl ⟨e, error ▸ .told told reply, rfl, rfl⟩

theorem ended_error {failure : Option ReconcileError} {e : ReconcileError}
    (h : failure = some e) (outcome : RootOutcome)
    : ended failure outcome = .error e := by
  rw [h]
  rfl

theorem plays_converged (h : (converged root ledger).Plays root log result left)
    : ∃ failure,
        Reports root (StatusTransition.ofPass root ledger.pending {} {}).2 log failure
        ∧ result = ended failure { root }
        ∧ left = ⟨∅, (StatusTransition.ofPass root ledger.pending {} {}).1⟩ := by
  rw [converged] at h
  rcases plays_reporting h with
    ⟨e, reports, rfl, rfl⟩ | ⟨reported, rest, reports, rfl, closed⟩
  · exact ⟨some e, reports, rfl, rfl⟩
  · cases closed
    exact ⟨none, by rwa [List.append_nil], rfl, rfl⟩

/-- Both resets come one after the other. -/
theorem plays_resets {outcome : RootOutcome}
    (h : (Program.asking ledger (.reset .observed root) fun ledger _ =>
      .asking ledger (.reset .desired root) fun ledger _ => .finished ledger outcome).Plays root
        log result left)
    : ∃ failure, Resets root log failure ∧ result = ended failure outcome ∧ left = ledger := by
  cases h with
  | refused error => exact ⟨_, .first error, rfl, rfl⟩
  | answered h =>
      cases h with
      | @refused _ _ _ reply e error => exact ⟨_, .both reply, (ended_error error _).symm, rfl⟩
      | answered h =>
          cases h
          exact ⟨_, .both (.answered ()), rfl, rfl⟩

/-- A batch that is not empty is pushed. -/
theorem plays_push {batch : ResourceBatch} {outcome : RootOutcome}
    (h : (if batch.isEmpty then Program.finished ledger outcome
      else .asking ledger (.push batch) fun ledger _ => .finished ledger outcome).Plays root
        log result left)
    : ∃ failure, Pushes root batch log failure ∧ result = ended failure outcome
        ∧ left = ledger := by
  split at h
  · rename_i empty
    cases h
    exact ⟨none, .nothing empty, rfl, rfl⟩
  · rename_i full
    have full : batch.isEmpty = false := by simpa using full
    cases h with
    | @refused _ _ _ reply e error =>
        exact ⟨_, .pushed full reply, (ended_error error _).symm, rfl⟩
    | answered h =>
        cases h
        exact ⟨_, .pushed full (.answered ()), rfl, rfl⟩

/-- A pass that has sorted what it found resets the root or pushes. -/
theorem sorting_eq (f : Findings) (limits : TrackerLimits) (root : String) (now : Instant)
    (ledger : Ledger)
    : sorting limits root now f.delta f.creates f.deletes ledger
      = if (f.sorted limits now ledger).1.reset then
          resetting root now f.delta (f.sorted limits now ledger).1
            { ledger with records := (f.sorted limits now ledger).2 }
        else pushing root f.delta (f.sorted limits now ledger).1
          { ledger with records := (f.sorted limits now ledger).2 } :=
  rfl

theorem plays_sorting {f : Findings} (differ : f.delta.isEmpty = false)
    (h : (sorting limits root now f.delta f.creates f.deletes ledger).Plays root log result left)
    : Course limits root now ledger (f.asked root ++ log) result left := by
  rw [sorting_eq] at h
  cases due : (f.sorted limits now ledger).1.reset with
  | true =>
      rw [due, if_pos rfl, resetting] at h
      have status : f.status limits root now ledger
          = StatusTransition.ofFailed root ledger.pending (f.sorted limits now ledger).1.failed :=
        if_pos due
      dsimp only at h
      rw [← status] at h
      rcases plays_reporting h with ⟨e, reports, rfl, rfl⟩ | ⟨reported, rest, reports, rfl, later⟩
      · exact .unreported f differ reports
      · obtain ⟨failure, resets, rfl, rfl⟩ := plays_resets later
        rw [← List.append_assoc]
        exact .reset f differ due reports resets
  | false =>
      rw [due, if_neg Bool.false_ne_true, pushing] at h
      have status : f.status limits root now ledger
          = StatusTransition.ofPass root ledger.pending
            ((f.sorted limits now ledger).1.attempted f.delta) (f.sorted limits now ledger).1 :=
        if_neg (by simp [due])
      dsimp only at h
      rw [← status] at h
      rcases plays_reporting h with ⟨e, reports, rfl, rfl⟩ | ⟨reported, rest, reports, rfl, later⟩
      · exact .unreported f differ reports
      · obtain ⟨failure, pushes, rfl, rfl⟩ := plays_push later
        rw [← List.append_assoc]
        exact .pushed f differ due reports pushes

/-- Whatever it is answered, a pass takes one of these courses. -/
theorem course (h : (program limits root now ledger).Plays root log result left)
    : Course limits root now ledger log result left := by
  rw [program_eq] at h
  cases h with
  | refused _ => exact .unread (by simp [Question.Reads])
  | @answered _ _ _ _ desired _ _ h =>
      cases h with
      | refused _ => exact .unread (by simp [Question.Reads])
      | @answered _ _ _ _ observed _ _ h =>
          simp only [compared] at h
          split at h
          · rename_i same
            obtain ⟨failure, reports, rfl, rfl⟩ := plays_converged h
            exact .converged same reports
          · rename_i differ
            have differ : (desired.diff observed).isEmpty = false := by simpa using differ
            cases h with
            | refused _ => exact .unread (by simp [Question.Reads])
            | @answered _ _ _ _ creates _ _ h =>
                cases h with
                | refused _ => exact .unread (by simp [Question.Reads])
                | @answered _ _ _ _ deletes _ _ h =>
                    exact plays_sorting (f := ⟨desired, observed, creates, deletes⟩) differ h

/-- What is told of a root names it. -/
theorem Course.root_eq {outcome : RootOutcome}
    (h : Course limits root now ledger log (.ok outcome) left)
    : outcome.root = root := by
  have named {failure : Option ReconcileError} {told : RootOutcome}
      (same : .ok outcome = ended failure told) (here : told.root = root)
      : outcome.root = root := by
    cases failure with
    | none =>
        cases same
        exact here
    | some e => cases same
  generalize hr : (Except.ok outcome : Except ReconcileError RootOutcome) = result at h
  cases h with
  | unread _ => cases hr
  | unreported _ _ _ => cases hr
  | converged _ _ => exact named hr rfl
  | reset f _ _ _ _ => exact named hr rfl
  | pushed f _ _ _ _ => exact named hr rfl

end RootPass

end Concord
