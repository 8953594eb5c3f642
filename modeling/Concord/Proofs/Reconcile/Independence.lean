import Concord.Proofs.Reconcile.Concurrency
import Concord.Proofs.Reconcile.Statuses
import Mathlib.Data.List.Sort

/-! Roots do not depend on each other within a pass. Where the surroundings answer what is asked
for one root from a part of the world that no other root touches, every order of steps comes to
the same: for each root it is what a pass over that root alone comes to.
-/

namespace Concord

variable {ω σ : Type} {s : Surroundings ω} {now : Instant} {limits : TrackerLimits}
  {root other : String} {log : List Exchange} {w w' : ω}

-----------------------------------------------------------------------------------------
-- Surroundings that keep roots apart
-----------------------------------------------------------------------------------------

/-- The pass over a root may put the question, from some ledger and after some answers. -/
def RootPass.Puts (s : Surroundings ω) (limits : TrackerLimits) (now : Instant) (root : String)
    (question : Question) : Prop :=
  ∃ ledger log left next,
    (program limits root now ledger).Comes s log (.asking left question next)

/-- Such a question is about the root. -/
theorem RootPass.Puts.about {question : Question}
    (h : RootPass.Puts s limits now root question)
    : question.About root := by
  obtain ⟨ledger, log, left, next, comes⟩ := h
  have plays : Program.Plays root _ (log ++ [⟨question, .panicked⟩])
      (.error (.rootPanicked root)) left :=
    comes.plays (.refused rfl)
  exact (RootPass.course plays).about _ (List.mem_append_right _ List.mem_cons_self)

/-- What is asked for a root is answered from that root's part of the world, changes that part
only, and leaves the parts of other roots alone.
-/
structure Surroundings.Separate (s : Surroundings ω) (limits : TrackerLimits) (now : Instant)
    (part : String → ω → σ) : Prop where
  own : ∀ root question w w', RootPass.Puts s limits now root question →
    part root w = part root w' →
      (s.ask question w).1 = (s.ask question w').1
      ∧ part root (s.ask question w).2 = part root (s.ask question w').2
  others : ∀ root other question w, RootPass.Puts s limits now root question → other ≠ root →
    part other (s.ask question w).2 = part other w

/-- The surroundings with one root only. -/
def Surroundings.only (s : Surroundings ω) (root : String) : Surroundings ω :=
  { s with roots := fun _ _ => [root] }

namespace Program

variable {α : Type} {p p' : Program α} {part : String → ω → σ}

/-- An answer to the first question leads on. -/
theorem Comes.cons {ledger : Ledger} {question : Question}
    {next : Ledger → question.Answer → Program α} {answer : question.Answer} {w : ω}
    (reply : (s.ask question w).1 = .answered answer)
    (h : (next ledger answer).Comes s log p')
    : (asking ledger question next).Comes s (⟨question, .answered answer⟩ :: log) p' := by
  induction h with
  | here => exact .answered .here reply
  | answered _ reply' ih => exact .answered ih reply'

variable {left : Ledger} {question : Question}

theorem run_answered {answer : question.Answer} (root : String) (ledger : Ledger)
    (next : Ledger → question.Answer → Program α)
    (asked : s.ask question w = (.answered answer, w'))
    : (asking ledger question next).run s root w = (next ledger answer).run s root w'
      ∧ (asking ledger question next).talk s w
          = ⟨question, .answered answer⟩ :: (next ledger answer).talk s w' := by
  rw [run, talk, asked]
  exact ⟨rfl, rfl⟩

theorem run_refused {reply : Reply question.Answer} {e : ReconcileError} (ledger : Ledger)
    (next : Ledger → question.Answer → Program α)
    (asked : s.ask question w = (reply, w')) (error : reply.error? root = some e)
    : (asking ledger question next).run s root w = ((.error e, ledger), w')
      ∧ (asking ledger question next).talk s w = [⟨question, reply⟩] := by
  rw [run, talk, asked]
  cases reply with
  | answered answer => cases error
  | failed e =>
      cases error
      exact ⟨rfl, rfl⟩
  | panicked =>
      cases error
      exact ⟨rfl, rfl⟩

/-- A reply either leads on or ends the work. -/
theorem answered_or_error {α : Type} (root : String) (reply : Reply α)
    : (∃ answer, reply = .answered answer) ∨ ∃ e, reply.error? root = some e := by
  cases reply with
  | answered answer => exact .inl ⟨answer, rfl⟩
  | failed e => exact .inr ⟨e, rfl⟩
  | panicked => exact .inr ⟨_, rfl⟩

/-- What a program does leaves a part of the world alone if each of its questions does. -/
theorem run_spares (p : Program α) {view : ω → σ}
    (spares : ∀ log ledger question next, p.Comes s log (.asking ledger question next) →
      ∀ w, view (s.ask question w).2 = view w)
    (w : ω)
    : view (p.run s root w).2 = view w := by
  induction p generalizing w with
  | finished ledger a => rfl
  | asking ledger question next ih =>
      have first := spares [] ledger question next .here w
      rcases asked : s.ask question w with ⟨reply, v⟩
      rw [asked] at first
      rcases answered_or_error root reply with ⟨answer, rfl⟩ | ⟨e, error⟩
      · have later := ih ledger answer (fun log l q n comes =>
          spares _ l q n (comes.cons (congrArg Prod.fst asked))) v
        rw [(run_answered root ledger next asked).1]
        exact later.trans first
      · rw [(run_refused ledger next asked error).1]
        exact first

-----------------------------------------------------------------------------------------
-- Exchanges that a part of the world explains
-----------------------------------------------------------------------------------------

/-- Each reply is one that is given where a part of the world is as the replies before left it. -/
def Explained (s : Surroundings ω) (view : ω → σ) : σ → List Exchange → σ → Prop
  | x, [], x' => x = x'
  | x, e :: rest, x' =>
      ∃ w, view w = x ∧ (s.ask e.question w).1 = e.reply
        ∧ Explained s view (view (s.ask e.question w).2) rest x'

theorem explained_snoc {view : ω → σ} {x : σ} {reply : Reply question.Answer}
    (h : Explained s view x log (view w)) (asked : s.ask question w = (reply, w'))
    : Explained s view x (log ++ [⟨question, reply⟩]) (view w') := by
  induction log generalizing x with
  | nil => exact ⟨w, h.symm, by rw [asked], by rw [asked]; rfl⟩
  | cons e rest ih =>
      obtain ⟨v, here, replied, later⟩ := h
      exact ⟨v, here, replied, ih later⟩

theorem explained_talk (s : Surroundings ω) (root : String) (view : ω → σ) (p : Program α) (w : ω)
    : Explained s view (view w) (p.talk s w) (view (p.run s root w).2) := by
  induction p generalizing w with
  | finished ledger a => rfl
  | asking ledger question next ih =>
      rcases asked : s.ask question w with ⟨reply, v⟩
      rcases answered_or_error root reply with ⟨answer, rfl⟩ | ⟨e, error⟩
      · obtain ⟨runs, talked⟩ := run_answered root ledger next asked
        rw [runs, talked]
        exact ⟨w, rfl, congrArg Prod.fst asked, by rw [asked]; exact ih ledger answer v⟩
      · obtain ⟨runs, talked⟩ := run_refused ledger next asked error
        rw [runs, talked]
        exact ⟨w, rfl, congrArg Prod.fst asked, by rw [asked]; rfl⟩

/-- Exchanges that a part of the world explains are those of the program where it runs alone, by
induction on the exchanges.
-/
theorem Plays.explained {view : ω → σ} {x : σ} {result : Except ReconcileError α}
    (h : p.Plays root log result left)
    (own : ∀ log ledger question next, p.Comes s log (.asking ledger question next) →
      ∀ w w', view w = view w' →
        (s.ask question w).1 = (s.ask question w').1
        ∧ view (s.ask question w).2 = view (s.ask question w').2)
    (explained : Explained s view (view w) log x)
    : (p.run s root w).1 = (result, left) ∧ p.talk s w = log ∧ view (p.run s root w).2 = x := by
  induction h generalizing w with
  | finished ledger a => exact ⟨rfl, rfl, explained⟩
  | @answered ledger left question next answer log result rest ih =>
      obtain ⟨v, here, replied, later⟩ := explained
      obtain ⟨reply, after⟩ := own [] ledger question next .here w v here.symm
      have answers := reply.trans replied
      rw [← after] at later
      obtain ⟨ended, talks, ends⟩ := ih
        (fun log l q n comes => own _ l q n (comes.cons answers)) later
      obtain ⟨runs, talked⟩ := run_answered root ledger next (Prod.ext answers rfl)
      rw [runs, talked]
      exact ⟨ended, congrArg _ talks, ends⟩
  | @refused ledger question next reply e error =>
      obtain ⟨v, here, replied, later⟩ := explained
      obtain ⟨same, after⟩ := own [] ledger question next .here w v here.symm
      rw [← after] at later
      obtain ⟨runs, talked⟩ := run_refused ledger next
        (Prod.ext (same.trans replied) rfl) error
      rw [runs, talked]
      exact ⟨rfl, rfl, later⟩

/-- A part of the world that answers a program tells all that comes of it. -/
theorem run_part (p : Program α) {view : ω → σ} (root : String)
    (own : ∀ log ledger question next, p.Comes s log (.asking ledger question next) →
      ∀ w w', view w = view w' →
        (s.ask question w).1 = (s.ask question w').1
        ∧ view (s.ask question w).2 = view (s.ask question w').2)
    (same : view w = view w')
    : (p.run s root w).1 = (p.run s root w').1 ∧ p.talk s w = p.talk s w'
      ∧ view (p.run s root w).2 = view (p.run s root w').2 :=
  (plays_run s root p w').explained own (same ▸ explained_talk s root view p w')

end Program

-----------------------------------------------------------------------------------------
-- Any order of steps
-----------------------------------------------------------------------------------------

namespace Underway

variable {part : String → ω → σ} {start : String → σ} {roots : List String} {r : Reconciler}
  {budget : String → Nat} {strides : List Stride} {u u' : Underway ω}

/-- What was asked for each root is explained by its part of the world. -/
def Clear (s : Surroundings ω) (part : String → ω → σ) (start : String → σ) (u : Underway ω)
    : Prop :=
  ∀ root, Program.Explained s (part root) (start root) (u.asked root) (part root u.world)

/-- Each step keeps all roots explained. -/
theorem Clear.step {stride : Stride} (h : Clear s part start u)
    (sound : Sound s now roots r budget u) (distinct : roots.Nodup)
    (separate : s.Separate r.config.trackerLimits now part)
    (step : u.step s now stride = some u')
    : Clear s part start u' := by
  intro other
  rcases step_log step with ⟨log, world⟩ | ⟨root, question, next, active, log, world⟩
  · rw [asked, log, world]
    exact h other
  · obtain ⟨-, p, does, comes, -⟩ := sound.working distinct active
    cases does
    rw [asked_of_log log, world]
    by_cases same : other = root
    · rw [same, if_pos rfl]
      exact Program.explained_snoc (h root) rfl
    · rw [if_neg same, separate.others root other question u.world ⟨_, _, _, _, comes⟩ same]
      exact h other

/-- So does every order of steps. -/
theorem Clear.run (h : Clear s part start u) (sound : Sound s now roots r budget u)
    (distinct : roots.Nodup) (separate : s.Separate r.config.trackerLimits now part)
    (run : Underway.run s now strides u = some u')
    : Clear s part start u' := by
  induction strides generalizing u budget with
  | nil =>
      cases run
      exact h
  | cons stride rest ih =>
      obtain ⟨middle, step, later⟩ := Option.bind_eq_some_iff.mp run
      obtain ⟨root, listed, n, fewer, after⟩ := sound.step distinct step
      exact ih (h.step sound distinct separate step) after later

/-- In any order of steps, each root comes to what the pass over it alone comes to. -/
theorem run_alone (separate : s.Separate r.config.trackerLimits now part)
    (configured : r.Configured) (distinct : (Reconciler.sharedRoots s w).Nodup)
    (run : run s now strides (begin s r w) = some u) (closed : u.Over)
    (listed : root ∈ Reconciler.sharedRoots s w)
    : u.results.lookup root = some ((r.program now root).run s root w).1.1
      ∧ u.reconciler.ledger root = ((r.program now root).run s root w).1.2
      ∧ u.asked root = (r.program now root).talk s w
      ∧ part root u.world = part root ((r.program now root).run s root w).2 := by
  obtain ⟨-, -, -, played, -⟩ := run_over configured distinct run closed
  obtain ⟨result, done, plays⟩ := played root listed
  have clear : Clear s part (fun root => part root w) u :=
    Clear.run (u := begin s r w) (fun _ => rfl) (sound_begin s now w configured) distinct separate
      run
  have own (log : List Exchange) (ledger : Ledger) (question : Question)
      (next : Ledger → question.Answer → Program RootOutcome)
      (comes : (r.program now root).Comes s log (.asking ledger question next)) (v v' : ω)
      (same : part root v = part root v') :=
    separate.own root question v v' ⟨_, _, _, _, comes⟩ same
  obtain ⟨ended, talks, ends⟩ := plays.explained own (clear root)
  exact ⟨done.trans (by rw [ended]), by rw [ended],
    talks.symm, ends.symm⟩

end Underway

-----------------------------------------------------------------------------------------
-- One root after the other
-----------------------------------------------------------------------------------------

namespace PassReport

variable {roots : List String} {result : String → Except ReconcileError RootOutcome}

theorem of_append (results results' : List (String × Except ReconcileError RootOutcome))
    : of (results ++ results')
      = ⟨(of results).outcomes ++ (of results').outcomes,
          (of results).errors ++ (of results').errors⟩ := by
  simp only [of, List.filterMap_append]

theorem of_cons (root : String) (roots : List String)
    (result : String → Except ReconcileError RootOutcome)
    : of ((root :: roots).map fun root => (root, result root))
      = ⟨(of [(root, result root)]).outcomes
            ++ (of (roots.map fun root => (root, result root))).outcomes,
          (of [(root, result root)]).errors
            ++ (of (roots.map fun root => (root, result root))).errors⟩ := by
  rw [List.map_cons, ← List.singleton_append, of_append]

/-- Each root is told of once, with its outcome or with its error. -/
theorem of_names
    (named : ∀ root ∈ roots, ∀ outcome, result root = .ok outcome → outcome.root = root)
    : (of (roots.map fun root => (root, result root))).outcomes.map RootOutcome.root
        = roots.filter (fun root => (result root).isOk)
      ∧ (of (roots.map fun root => (root, result root))).errors.map Prod.fst
        = roots.filter (fun root => !(result root).isOk) := by
  induction roots with
  | nil => exact ⟨rfl, rfl⟩
  | cons root rest ih =>
      obtain ⟨here, later⟩ := List.forall_mem_cons.mp named
      obtain ⟨outcomes, errors⟩ := ih later
      rw [of_cons, List.map_append, List.map_append, outcomes, errors]
      cases ended : result root with
      | ok outcome =>
          have this := here outcome ended
          simp [of, ended, Except.toOption, this, Except.isOk, Except.toBool]
      | error e => simp [of, ended, Except.toOption, Except.isOk, Except.toBool]

theorem of_filter_single (root : String) {name : String}
    (named : ∀ outcome, result name = .ok outcome → outcome.root = name)
    : (of [(name, result name)]).outcomes.filter (fun o => o.root = root)
        = (if name = root then (of [(name, result name)]).outcomes else [])
      ∧ (of [(name, result name)]).errors.filter (fun e => e.1 = root)
        = (if name = root then (of [(name, result name)]).errors else []) := by
  cases ended : result name with
  | ok outcome =>
      have this := named outcome ended
      by_cases same : name = root <;> simp [of, Except.toOption, this, same]
  | error e => by_cases same : name = root <;> simp [of, Except.toOption, same]

/-- What is told of one root is its own result. -/
theorem of_filter (distinct : roots.Nodup) (root : String)
    (named : ∀ root ∈ roots, ∀ outcome, result root = .ok outcome → outcome.root = root)
    : (of (roots.map fun root => (root, result root))).outcomes.filter (fun o => o.root = root)
        = (if root ∈ roots then (of [(root, result root)]).outcomes else [])
      ∧ (of (roots.map fun root => (root, result root))).errors.filter (fun e => e.1 = root)
        = (if root ∈ roots then (of [(root, result root)]).errors else []) := by
  induction roots with
  | nil => exact ⟨rfl, rfl⟩
  | cons first rest ih =>
      obtain ⟨absent, distinct⟩ := List.nodup_cons.mp distinct
      obtain ⟨here, later⟩ := List.forall_mem_cons.mp named
      obtain ⟨outcomes, errors⟩ := ih distinct later
      obtain ⟨own, ownErrors⟩ := of_filter_single root here
      rw [of_cons, List.filter_append, List.filter_append, outcomes, errors, own, ownErrors]
      by_cases same : first = root
      · subst same
        simp [absent]
      · have differs : root ≠ first := fun he => same he.symm
        simp [same, differs]

end PassReport

namespace Reconciler

variable {part : String → ω → σ} {r : Reconciler} {roots : List String} {report : PassReport}

theorem passRoot_eq (s : Surroundings ω) (now : Instant) (report : PassReport) (r : Reconciler)
    (w : ω) (root : String)
    : passRoot s now ((report, r), w) root
      = (({ outcomes := report.outcomes
              ++ (PassReport.of [(root, ((r.program now root).run s root w).1.1)]).outcomes
            errors := report.errors
              ++ (PassReport.of [(root, ((r.program now root).run s root w).1.1)]).errors },
          r.setLedger root ((r.program now root).run s root w).1.2),
        ((r.program now root).run s root w).2) := by
  rw [passRoot]
  dsimp only
  rw [← Reconciler.program]
  cases ((r.program now root).run s root w).1.1 with
  | ok outcome => simp [PassReport.of, Except.toOption]
  | error e => simp [PassReport.of, Except.toOption]

/-- What becomes of roots if each is worked on alone. -/
def alone (s : Surroundings ω) (now : Instant) (r : Reconciler) (w : ω) (roots : List String)
    : PassReport :=
  .of (roots.map fun root => (root, ((r.program now root).run s root w).1.1))

theorem alone_congr {r' : Reconciler}
    (h : ∀ root ∈ roots,
      ((r.program now root).run s root w).1 = ((r'.program now root).run s root w').1)
    : alone s now r w roots = alone s now r' w' roots := by
  rw [alone, alone, List.map_congr_left fun root hm => by rw [h root hm]]

theorem alone_cons
    : alone s now r w (root :: roots)
      = ⟨(alone s now r w [root]).outcomes ++ (alone s now r w roots).outcomes,
          (alone s now r w [root]).errors ++ (alone s now r w roots).errors⟩ := by
  rw [alone, List.map_cons, ← List.singleton_append, PassReport.of_append]
  rfl

/-- A pass that takes one root after the other comes to the same for each of them, by induction on
the roots: those before leave the part of the next one alone.
-/
theorem foldl_passRoot (separate : s.Separate r.config.trackerLimits now part)
    (distinct : roots.Nodup) (report : PassReport)
    : (roots.foldl (passRoot s now) ((report, r), w)).1.1
        = ⟨report.outcomes ++ (alone s now r w roots).outcomes,
            report.errors ++ (alone s now r w roots).errors⟩
      ∧ ∀ root, (roots.foldl (passRoot s now) ((report, r), w)).1.2.ledger root
          = if root ∈ roots then ((r.program now root).run s root w).1.2 else r.ledger root := by
  induction roots generalizing report r w with
  | nil => exact ⟨by simp [alone, PassReport.of], fun _ => rfl⟩
  | cons root rest ih =>
      obtain ⟨absent, distinct⟩ := List.nodup_cons.mp distinct
      rw [List.foldl_cons, passRoot_eq]
      generalize ended : (r.program now root).run s root w = result
      have spared (other : String) (differs : other ≠ root)
          : part other result.2 = part other w := by
        rw [← ended]
        exact Program.run_spares _ (fun log ledger question next comes v =>
          separate.others root other question v ⟨_, _, _, _, comes⟩ differs) w
      have same (other : String) (differs : other ≠ root)
          : (r.setLedger root result.1.2).program now other = r.program now other := by
        rw [program, ledger_setLedger, if_neg differs]
        rfl
      have alike (other : String) (differs : other ≠ root)
          : (((r.setLedger root result.1.2).program now other).run s other result.2).1
            = ((r.program now other).run s other w).1 := by
        rw [same other differs]
        exact (Program.run_part _ other (fun log ledger question next comes v v' same =>
          separate.own other question v v' ⟨_, _, _, _, comes⟩ same) (spared other differs)).1
      have apart {other : String} (later : other ∈ rest) : other ≠ root :=
        fun here => absent (here ▸ later)
      obtain ⟨told, ledgers⟩ := ih (r := r.setLedger root result.1.2) (w := result.2)
        separate distinct _
      constructor
      · rw [told, alone_cons, alone_congr fun other later => alike other (apart later)]
        simp [alone, ended]
      · intro other
        rw [ledgers other]
        by_cases here : other = root
        · rw [here, if_neg absent, if_pos List.mem_cons_self, ledger_setLedger, if_pos rfl, ended]
        · by_cases later : other ∈ rest
          · rw [if_pos later, if_pos (List.mem_cons_of_mem _ later), alike other here]
          · have unlisted : other ∉ root :: rest := fun listed =>
              (List.mem_cons.mp listed).elim here later
            rw [if_neg later, if_neg unlisted, ledger_setLedger, if_neg here]

theorem program_retainRoots (h : root ∈ roots)
    : (r.retainRoots roots).program now root = r.program now root := by
  rw [program, ledger_retainRoots, if_pos h]
  rfl

/-- A pass comes to the same for each root as if there were no other. -/
theorem pass_eq (separate : s.Separate r.config.trackerLimits now part)
    (distinct : (sharedRoots s w).Nodup)
    : (pass s now r w).1.1 = alone s now r w (sharedRoots s w)
      ∧ ∀ root ∈ sharedRoots s w,
          (pass s now r w).1.2.ledger root = ((r.program now root).run s root w).1.2 := by
  have separate : s.Separate (r.retainRoots (sharedRoots s w)).config.trackerLimits now part :=
    separate
  obtain ⟨told, ledgers⟩ := foldl_passRoot (w := w) separate distinct {}
  refine ⟨?_, fun root listed => ?_⟩
  · have same : alone s now (r.retainRoots (sharedRoots s w)) w (sharedRoots s w)
        = alone s now r w (sharedRoots s w) :=
      alone_congr fun root listed => by rw [program_retainRoots listed]
    rw [pass, told, same]
    rfl
  · rw [pass, ledgers, if_pos listed, program_retainRoots listed]

theorem run_only (name : String) (p : Program RootOutcome) (w : ω)
    : p.run (s.only name) root w = p.run s root w := by
  induction p generalizing w with
  | finished ledger a => rfl
  | asking ledger question next ih =>
      rcases asked : s.ask question w with ⟨reply, v⟩
      have asked' : (s.only name).ask question w = (reply, v) := asked
      rcases Program.answered_or_error root reply with ⟨answer, rfl⟩ | ⟨e, error⟩
      · rw [(Program.run_answered root ledger next asked).1,
          (Program.run_answered root ledger next asked').1, ih]
      · rw [(Program.run_refused ledger next asked error).1,
          (Program.run_refused ledger next asked' error).1]

/-- A pass where one root only is shared. -/
theorem pass_only (s : Surroundings ω) (now : Instant) (r : Reconciler) (w : ω) (root : String)
    : (pass (s.only root) now r w).1.1 = alone s now r w [root]
      ∧ (pass (s.only root) now r w).1.2.ledger root
          = ((r.program now root).run s root w).1.2 := by
  have shared : sharedRoots (s.only root) w = [root] := by
    rw [sharedRoots, Surroundings.only]
    simp
  have same : (r.retainRoots [root]).program now root = r.program now root :=
    program_retainRoots List.mem_cons_self
  rw [pass, shared, List.foldl_cons, List.foldl_nil, passRoot_eq, run_only, same,
    ledger_setLedger, if_pos rfl]
  exact ⟨rfl, rfl⟩

end Reconciler

-----------------------------------------------------------------------------------------
-- The report of a pass
-----------------------------------------------------------------------------------------

namespace Underway

variable {part : String → ω → σ} {r : Reconciler} {strides : List Stride} {u : Underway ω}

theorem nodup_of_ordered {roots : List String} (h : roots.Pairwise (· < ·)) : roots.Nodup := by
  refine h.imp fun less same => ?_
  subst same
  exact String.lt_irrefl _ less

/-- Sorted by their names, results are in the order of the roots. -/
theorem mergeSort_results {results : List (String × Except ReconcileError RootOutcome)}
    {roots : List String} {result : String → Except ReconcileError RootOutcome}
    (ordered : roots.Pairwise (· < ·)) (names : (results.map Prod.fst).Perm roots)
    (found : ∀ root ∈ roots, results.lookup root = some (result root))
    : results.mergeSort (fun a b => a.1 ≤ b.1) = roots.map fun root => (root, result root) := by
  have own (entry : String × Except ReconcileError RootOutcome) (hm : entry ∈ results)
      : entry = (entry.1, result entry.1) := by
    have distinct : (results.map Prod.fst).Nodup :=
      names.nodup_iff.mpr (nodup_of_ordered ordered)
    have listed : entry.1 ∈ roots := names.subset (List.mem_map_of_mem hm)
    have same := (lookup_of_mem distinct hm).symm.trans (found entry.1 listed)
    exact Prod.ext rfl (Option.some.inj same)
  have perm : (results.mergeSort fun a b => decide (a.1 ≤ b.1)).Perm
      (roots.map fun root => (root, result root)) := by
    have named : results = (results.map Prod.fst).map fun root => (root, result root) := by
      rw [List.map_map]
      exact (List.map_id results).symm.trans (List.map_congr_left own)
    refine (List.mergeSort_perm _ _).trans ?_
    rw [named]
    exact names.map _
  have trans (a b c : String × Except ReconcileError RootOutcome)
      (hab : decide (a.1 ≤ b.1) = true) (hbc : decide (b.1 ≤ c.1) = true)
      : decide (a.1 ≤ c.1) = true :=
    decide_eq_true (String.le_trans (of_decide_eq_true hab) (of_decide_eq_true hbc))
  have total (a b : String × Except ReconcileError RootOutcome)
      : (decide (a.1 ≤ b.1) || decide (b.1 ≤ a.1)) = true := by
    rw [Bool.or_eq_true, decide_eq_true_iff, decide_eq_true_iff]
    exact String.le_total a.1 b.1
  have sorted := List.pairwise_mergeSort trans total results
  have ascending : (roots.map fun root => (root, result root)).Pairwise
      fun a b => decide (a.1 ≤ b.1) = true :=
    List.pairwise_map.mpr (ordered.imp fun less =>
      decide_eq_true ((String.le_total _ _).resolve_right (String.not_le.mpr less)))
  refine perm.eq_of_pairwise (fun a b ha hb hab hba => ?_) sorted ascending
  have same := String.le_antisymm (of_decide_eq_true hab) (of_decide_eq_true hba)
  obtain ⟨root, -, rfl⟩ := List.mem_map.mp hb
  rw [own a ((List.mergeSort_perm _ _).mem_iff.mp ha), same]

/-- A root fares as in a pass over it alone. -/
structure Alone (s : Surroundings ω) (now : Instant) (r : Reconciler) (w : ω) (u : Underway ω)
    (root : String) : Prop where
  outcomes : u.report.outcomes.filter (fun outcome => outcome.root = root)
    = (Reconciler.pass (s.only root) now r w).1.1.outcomes
  errors : u.report.errors.filter (fun entry => entry.1 = root)
    = (Reconciler.pass (s.only root) now r w).1.1.errors
  ledger : u.reconciler.ledger root = (Reconciler.pass (s.only root) now r w).1.2.ledger root
  exchanges : u.asked root = (r.program now root).talk s w
  batches : (u.asked root).flatMap Exchange.batches
    = ((r.program now root).talk s w).flatMap Exchange.batches
  transitions : (RootPass.transitions (u.log.map Prod.snd)).filter (fun t => t.root = root)
    = RootPass.transitions ((r.program now root).talk s w)
  failures : ∀ x ∈ u.asked root, ∀ e, x.reply.error? root = some e →
    (root, e) ∈ u.report.errors

/-- What is reported for a root is what the work on that root reports. -/
theorem transitions_filter {log : List (String × Exchange)} (root : String)
    (named : ∀ name, ∀ t ∈ RootPass.transitions
      ((log.filter fun entry => entry.1 = name).map Prod.snd), t.root = name)
    : (RootPass.transitions (log.map Prod.snd)).filter (fun t => t.root = root)
      = RootPass.transitions ((log.filter fun entry => entry.1 = root).map Prod.snd) := by
  have own (entry : String × Exchange) (hm : entry ∈ log) (t : StatusTransition)
      (told : t ∈ entry.2.transitions)
      : t.root = entry.1 := by
    refine named entry.1 t (List.mem_flatMap.mpr ⟨entry.2, ?_, told⟩)
    exact List.mem_map_of_mem (List.mem_filter.mpr ⟨hm, decide_eq_true rfl⟩)
  clear named
  induction log with
  | nil => rfl
  | cons entry rest ih =>
      obtain ⟨here, later⟩ := List.forall_mem_cons.mp own
      have first : entry.2.transitions.filter (fun t => t.root = root)
          = if entry.1 = root then entry.2.transitions else [] := by
        split
        · rename_i same
          exact List.filter_eq_self.mpr fun t told => decide_eq_true ((here t told).trans same)
        · rename_i differs
          refine List.filter_eq_nil_iff.mpr fun t told => ?_
          rw [here t told]
          simpa using differs
      rw [List.map_cons, RootPass.transitions, List.flatMap_cons, List.filter_append, first]
      have rest := ih later
      rw [RootPass.transitions] at rest
      rw [rest, List.filter_cons]
      by_cases same : entry.1 = root
      · simp [same, RootPass.transitions]
      · simp [same]

/-- What becomes of a root is told under its name. -/
theorem root_of_ran {outcome : RootOutcome}
    (ended : ((r.program now root).run s root w).1.1 = .ok outcome)
    : outcome.root = root := by
  have plays : (r.program now root).Plays root _ ((r.program now root).run s root w).1.1 _ :=
    (r.program now root).plays_run s root w
  rw [ended] at plays
  exact (RootPass.course plays).root_eq

/-- All that is reported in the work on a root is about that root. -/
theorem root_of_told (configured : r.Configured) (distinct : (Reconciler.sharedRoots s w).Nodup)
    (run : run s now strides (begin s r w) = some u) (closed : u.Over) {name : String}
    {t : StatusTransition} (told : t ∈ RootPass.transitions (u.asked name))
    : t.root = name := by
  obtain ⟨-, -, -, played, strangers⟩ := run_over configured distinct run closed
  by_cases listed : name ∈ Reconciler.sharedRoots s w
  · obtain ⟨result, -, plays⟩ := played name listed
    exact (RootPass.course plays).root_of_transitions told
  · rw [(strangers name listed).2] at told
    cases told

/-- The report of a pass tells of each root what it comes to alone. -/
theorem report_eq (separate : s.Separate r.config.trackerLimits now part)
    (configured : r.Configured) (ordered : (Reconciler.sharedRoots s w).Pairwise (· < ·))
    (run : run s now strides (begin s r w) = some u) (closed : u.Over)
    : u.report = .of ((Reconciler.sharedRoots s w).map fun root =>
        (root, ((r.program now root).run s root w).1.1)) := by
  have distinct := nodup_of_ordered ordered
  obtain ⟨-, -, names, -⟩ := run_over configured distinct run closed
  rw [Underway.report, mergeSort_results ordered names fun root listed =>
    (run_alone separate configured distinct run closed listed).1]

/-- Each shared root fares as in a pass over it alone. -/
theorem alone_of_over (separate : s.Separate r.config.trackerLimits now part)
    (configured : r.Configured) (ordered : (Reconciler.sharedRoots s w).Pairwise (· < ·))
    (run : run s now strides (begin s r w) = some u) (closed : u.Over)
    (listed : root ∈ Reconciler.sharedRoots s w)
    : Alone s now r w u root := by
  have distinct := nodup_of_ordered ordered
  have report := report_eq separate configured ordered run closed
  obtain ⟨-, -, -, played, -⟩ := run_over configured distinct run closed
  obtain ⟨done, ledger, asked, -⟩ := run_alone separate configured distinct run closed listed
  obtain ⟨only, onlyLedger⟩ := Reconciler.pass_only s now r w root
  obtain ⟨outcomes, errors⟩ := PassReport.of_filter distinct root fun _ _ _ => root_of_ran
  rw [if_pos listed] at outcomes errors
  exact {
    outcomes := by
      rw [report, only, outcomes]
      rfl
    errors := by
      rw [report, only, errors]
      rfl
    ledger := ledger.trans onlyLedger.symm
    exchanges := asked
    batches := by rw [asked]
    transitions := by
      rw [transitions_filter root fun _ _ => root_of_told configured distinct run closed, ← asked,
        Underway.asked]
    failures := fun x hx e error => by
      obtain ⟨result, done', plays⟩ := played root listed
      cases done.symm.trans done'
      have ended : ((r.program now root).run s root w).1.1 = .error e :=
        plays.failed (asked ▸ hx) error
      have own : (root, e)
          ∈ (PassReport.of [(root, ((r.program now root).run s root w).1.1)]).errors := by
        rw [ended]
        exact List.mem_cons_self
      rw [report]
      exact List.mem_of_mem_filter (errors.symm ▸ own)
  }

/-- Roots are independent of each other in a pass. A pass is over after at most twelve steps per
root, and goes on until then. When it is over, each shared root is told of once, in order, and has
fared as in a pass over it alone, whatever the order of steps and whatever failed or broke down for
other roots.
-/
theorem roots_independent (separate : s.Separate r.config.trackerLimits now part)
    (configured : r.Configured) (ordered : (s.roots .desired w).Pairwise (· < ·))
    (run : run s now strides (begin s r w) = some u)
    : strides.length ≤ 12 * (Reconciler.sharedRoots s w).length
      ∧ (¬ u.Over → ∃ stride, (u.step s now stride).isSome)
      ∧ (u.Over →
          (u.report.outcomes.map RootOutcome.root ++ u.report.errors.map Prod.fst).Perm
            (Reconciler.sharedRoots s w)
          ∧ (u.report.outcomes.map RootOutcome.root).Pairwise (· < ·)
          ∧ (u.report.errors.map Prod.fst).Pairwise (· < ·)
          ∧ (u.report.errors ≠ [] → u.report.diverged = true)
          ∧ ∀ root ∈ Reconciler.sharedRoots s w, Alone s now r w u root) := by
  have ordered : (Reconciler.sharedRoots s w).Pairwise (· < ·) := ordered.filter _
  obtain ⟨bounded, goesOn⟩ := run_bounded configured (nodup_of_ordered ordered) run
  refine ⟨bounded, goesOn, fun closed => ?_⟩
  have report := report_eq separate configured ordered run closed
  obtain ⟨outcomes, errors⟩ :=
    PassReport.of_names fun root (_ : root ∈ Reconciler.sharedRoots s w) _ => root_of_ran
  refine ⟨?_, ?_, ?_, fun failed => ?_, fun root listed => ?_⟩
  · rw [report, outcomes, errors]
    exact List.filter_append_perm _ _
  · rw [report, outcomes]
    exact ordered.filter _
  · rw [report, errors]
    exact ordered.filter _
  · rw [PassReport.diverged, List.isEmpty_eq_false_iff.mpr failed]
    rfl
  · exact alone_of_over separate configured ordered run closed listed

end Underway

-----------------------------------------------------------------------------------------
-- A pass over three roots
-----------------------------------------------------------------------------------------

namespace Underway

/-- Surroundings that count by root what is asked of trees: `calm` has an object to create, the
views of `broken` fail, and the observed view of `down` breaks down.
-/
def counting : Surroundings (String → Nat) where
  roots _ _ := ["broken", "calm", "down"]
  ask
    | .tree side root, w =>
        (if root = "broken" then .failed (.viewFailed "observed" "read" "gone")
          else if root = "down" ∧ side = .observed then .panicked
          else if side = .desired then .answered ((∅ : HashTree).addAll [(⟨["calm"]⟩, ∅)]).1
          else .answered ∅,
          Function.update w root (w root + 1))
    | .reset _ root, w => (.answered (), Function.update w root (w root + 1))
    | .resources keys, w => (.answered (keys.map Resource.reference), w)
    | .resourcesForDelete keys, w => (.answered (keys.map Resource.reference), w)
    | .report _, w => (.answered (), w)
    | .push _, w => (.answered (), w)
  serve _ _ w := (.ok (), w)
  settle _ w := (.ok (), w)

theorem separate_counting (limits : TrackerLimits) (now : Instant)
    : counting.Separate limits now fun root w => w root where
  own root question w w' puts same := by
    have about := puts.about
    cases question with
    | tree side other =>
        cases about
        exact ⟨rfl, by simp [counting, same]⟩
    | reset side other =>
        cases about
        exact ⟨rfl, by simp [counting, same]⟩
    | resources _ => exact ⟨rfl, same⟩
    | resourcesForDelete _ => exact ⟨rfl, same⟩
    | report _ => exact ⟨rfl, same⟩
    | push _ => exact ⟨rfl, same⟩
  others root other question w puts differs := by
    have about := puts.about
    cases question with
    | tree side name =>
        cases about
        exact Function.update_of_ne differs _ _
    | reset side name =>
        cases about
        exact Function.update_of_ne differs _ _
    | resources _ => rfl
    | resourcesForDelete _ => rfl
    | report _ => rfl
    | push _ => rfl

/-- All three roots are worked on at once, and `down` is the first that is over. -/
def counted : Underway (String → Nat) :=
  (run counting ⟨0⟩
    ([.start, .start, .start] ++ List.replicate 2 (.work "down") ++ List.replicate 4 (.work "calm")
      ++ [.work "broken"] ++ List.replicate 5 (.work "calm"))
    (begin counting (.new {}) fun _ => 0)).get (by rfl)

theorem roots_independent_counted
    : counted.Over
      ∧ (counted.report.outcomes.map RootOutcome.root ++ counted.report.errors.map Prod.fst).Perm
          ["broken", "calm", "down"]
      ∧ ("broken", .viewFailed "observed" "read" "gone") ∈ counted.report.errors
      ∧ ("down", .rootPanicked "down") ∈ counted.report.errors
      ∧ Alone counting ⟨0⟩ (.new {}) (fun _ => 0) counted "calm"
      ∧ (counted.asked "calm").flatMap Exchange.batches = [⟨[Resource.reference ⟨["calm"]⟩], []⟩] := by
  have closed : counted.Over := ⟨by rfl, by rfl⟩
  have ordered : (counting.roots .desired fun _ => 0).Pairwise (· < ·) := by decide +kernel
  obtain ⟨-, -, ended⟩ := roots_independent (separate_counting _ ⟨0⟩)
    (Reconciler.configured_new {}) ordered (Option.some_get _).symm
  obtain ⟨names, -, -, -, alone⟩ := ended closed
  have shared : Reconciler.sharedRoots counting (fun _ => 0) = ["broken", "calm", "down"] := by
    decide +kernel
  rw [shared] at names alone
  have broken := alone "broken" (by decide)
  have down := alone "down" (by decide)
  refine ⟨closed, names, ?_, ?_, alone "calm" (by decide), by rfl⟩
  · exact broken.failures ⟨.tree .desired "broken", .failed (.viewFailed "observed" "read" "gone")⟩
      (by exact List.mem_cons_self) _ rfl
  · exact down.failures ⟨.tree .observed "down", .panicked⟩
      (by exact List.mem_cons_of_mem _ List.mem_cons_self) _ rfl

end Underway

end Concord
