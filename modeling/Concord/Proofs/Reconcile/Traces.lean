import Concord.Proofs.Reconcile.Sights

/-! What a pass has asked about one root, whatever else went on: both trees first, and then
nothing but what follows from their difference.
-/

namespace Concord

-----------------------------------------------------------------------------------------
-- Answers
-----------------------------------------------------------------------------------------

namespace Installation

variable {kind : TreeKind} {i : Installation}

theorem ask_fits {q : Question} {answer : q.Answer} (h : (ask kind q i).1 = .answered answer)
    : q.Fits answer := by
  cases q with
  | resourcesForDelete keys =>
      cases h
      exact Memory.keys_fetchForDelete kind keys
  | _ => trivial

theorem sink_waiting {α : Type} (side : Side) (waits : Bool) (f : Site Memory → α × Site Memory)
    : (i.waiting side waits f).2.sink = i.sink := by
  rw [waiting]
  dsimp only
  split
  · cases side <;> rfl
  · cases side <;> rfl

/-- No question opens the sink or shuts it. -/
theorem isOpen_ask (q : Question) : (ask kind q i).2.sink.isOpen = i.sink.isOpen := by
  cases q with
  | report transitions =>
      rw [ask, StatusSink.report]
      dsimp only
      split <;> rfl
  | push batch => rw [ask]
  | reset side root =>
      have same : (i.reset kind side root).2.sink = i.sink := sink_waiting side _ _
      rw [ask]
      cases result : i.reset kind side root
      rw [result] at same
      exact congrArg StatusSink.isOpen same
  | tree side root => rfl
  | resources keys => rfl
  | resourcesForDelete keys => rfl

/-- While the sink is open, only a reset may fail. -/
theorem ask_answers (kind : TreeKind) {q : Question} (isOpen : i.sink.isOpen = true)
    (goesOn : ∀ side root, q ≠ .reset side root)
    : ∃ answer, (ask kind q i).1 = .answered answer := by
  cases q with
  | report transitions =>
      refine ⟨(), ?_⟩
      rw [ask, StatusSink.report, isOpen]
      rfl
  | reset side root => exact absurd rfl (goesOn side root)
  | _ => exact ⟨_, rfl⟩

end Installation

-----------------------------------------------------------------------------------------
-- The questions about a root
-----------------------------------------------------------------------------------------

/-- The keys to be removed as two questions for trees have it. -/
def Asked.surplus (kind : TreeKind) (d q : Asked) : List Key :=
  ((d.desired kind).diff (q.observed kind)).remove

/-- What was asked about a root, in order, and the work that is left on it. `lucky` says that
nothing keeps the pass from trying each deletion.
-/
inductive Trace (kind : TreeKind) (limits : TrackerLimits) (now : Instant) (root : String)
    (lucky : Prop) : List Asked → Option (Program RootOutcome) → Prop
  | unread {left : Option (Program RootOutcome)}
    (start : ∀ p, left = some p → ∃ ledger : Ledger, (lucky → ledger.records = ∅)
      ∧ p = RootPass.program limits root now ledger)
    : Trace kind limits now root lucky [] left
  | half {d : Asked} {left : Option (Program RootOutcome)}
    (desired : d.question = .tree .desired root)
    (rest : ∀ p, left = some p → ∃ ledger : Ledger, (lucky → ledger.records = ∅)
      ∧ p = .asking ledger (.tree .observed root) fun ledger observed =>
          RootPass.compared limits root now (d.desired kind) observed ledger)
    : Trace kind limits now root lucky [d] left
  | read {d q : Asked} {later : List Asked} {left : Option (Program RootOutcome)}
    (desired : d.question = .tree .desired root) (observed : q.question = .tree .observed root)
    (quiet : ∀ a ∈ later, ∀ side r, a.question ≠ .tree side r)
    (within : ∀ a ∈ later, ∀ batch, a.question = .push batch →
      ∀ r ∈ batch.delete, r.key ∈ Asked.surplus kind d q)
    (rest : ∀ p, left = some p → p.Within (Asked.surplus kind d q))
    (deletes : lucky → Asked.surplus kind d q ≠ [] →
      (∃ a ∈ later, ∃ batch, a.question = .push batch
        ∧ ∀ k ∈ Asked.surplus kind d q, ∃ r ∈ batch.delete, r.key = k)
      ∨ ∃ p, left = some p ∧ p.Deletes (Asked.surplus kind d q))
    : Trace kind limits now root lucky (d :: q :: later) left

namespace Trace

variable {kind : TreeKind} {limits : TrackerLimits} {now : Instant} {root : String} {lucky : Prop}
  {asked : List Asked} {ledger found : Ledger} {question : Question}
  {next : Ledger → question.Answer → Program RootOutcome} {a : Asked}

/-- Work that is over leaves the questions as they are. -/
theorem finish {result : RootOutcome}
    (h : Trace kind limits now root lucky asked (some (.finished ledger result)))
    : Trace kind limits now root lucky asked none := by
  cases h with
  | unread start => exact .unread fun _ he => by cases he
  | half desired rest => exact .half desired fun _ he => by cases he
  | read desired observed quiet within rest deletes =>
      refine .read desired observed quiet within (fun _ he => by cases he) ?_
      intro fair nonempty
      rcases deletes fair nonempty with pushed | ⟨p, he, todo⟩
      · exact .inl pushed
      · cases he
        exact todo.elim

/-- A question that is answered takes the work on, by cases on what was asked before. -/
theorem answer {answer : question.Answer}
    (h : Trace kind limits now root lucky asked (some (.asking ledger question next)))
    (about : a.root = root) (asks : a.question = question)
    (reply : (Installation.ask kind question a.world).1 = .answered answer)
    (tolerant : lucky → 0 < limits.resetLimit.toNat)
    (untracked : lucky → ledger.records = ∅ → found.records = ∅)
    : Trace kind limits now root lucky (asked ++ [a]) (some (next found answer)) := by
  subst about
  cases h with
  | unread start =>
      obtain ⟨ledger', empty, eq⟩ := start _ rfl
      rw [RootPass.program_eq] at eq
      cases eq
      cases reply
      refine .half asks fun p he => ⟨found, fun fair => untracked fair (empty fair), ?_⟩
      cases he
      rfl
  | @half d _ desired rest =>
      obtain ⟨ledger', empty, eq⟩ := rest _ rfl
      cases eq
      cases reply
      refine .read desired asks ?_ ?_ ?_ ?_
      · intro _ hm
        cases hm
      · intro _ hm
        cases hm
      · intro p he
        cases he
        exact RootPass.within_compared
      · intro fair nonempty
        refine .inr ⟨_, rfl, ?_⟩
        exact RootPass.deletes_compared (tolerant fair) (untracked fair (empty fair)) nonempty
  | @read d q later _ desired observed quiet within rest deletes =>
      obtain ⟨noTree, here, after⟩ := rest _ rfl
      have fits := Installation.ask_fits reply
      refine .read desired observed ?_ ?_ ?_ ?_
      · intro b hm
        rcases List.mem_append.mp hm with hm | hm
        · exact quiet b hm
        · rw [List.mem_singleton.mp hm, asks]
          exact noTree
      · intro b hm
        rcases List.mem_append.mp hm with hm | hm
        · exact within b hm
        · rw [List.mem_singleton.mp hm, asks]
          exact here
      · intro p he
        cases he
        exact after found answer fits
      · intro fair nonempty
        rcases deletes fair nonempty with ⟨b, hm, pushed⟩ | ⟨p, he, todo⟩
        · exact .inl ⟨b, List.mem_append_left _ hm, pushed⟩
        · cases he
          rcases todo with ⟨batch, push, all⟩ | ⟨-, todo⟩
          · exact .inl ⟨a, List.mem_append_right _ List.mem_cons_self, batch,
              asks.trans push, all⟩
          · exact .inr ⟨_, rfl, todo found answer fits (untracked fair)⟩

/-- A question that fails ends the work. -/
theorem fail
    (h : Trace kind limits now root lucky asked (some (.asking ledger question next)))
    (about : a.root = root) (asks : a.question = question)
    (reply : ∀ answer, (Installation.ask kind question a.world).1 ≠ .answered answer)
    (isOpen : lucky → a.world.sink.isOpen = true)
    : Trace kind limits now root lucky (asked ++ [a]) none := by
  subst about
  cases h with
  | unread start =>
      obtain ⟨ledger', -, eq⟩ := start _ rfl
      rw [RootPass.program_eq] at eq
      cases eq
      exact absurd rfl (reply _)
  | half desired rest =>
      obtain ⟨ledger', -, eq⟩ := rest _ rfl
      cases eq
      exact absurd rfl (reply _)
  | read desired observed quiet within rest deletes =>
      obtain ⟨noTree, here, -⟩ := rest _ rfl
      refine .read desired observed ?_ ?_ (fun _ he => by cases he) ?_
      · intro b hm
        rcases List.mem_append.mp hm with hm | hm
        · exact quiet b hm
        · rw [List.mem_singleton.mp hm, asks]
          exact noTree
      · intro b hm
        rcases List.mem_append.mp hm with hm | hm
        · exact within b hm
        · rw [List.mem_singleton.mp hm, asks]
          exact here
      · intro fair nonempty
        rcases deletes fair nonempty with ⟨b, hm, pushed⟩ | ⟨p, he, todo⟩
        · exact .inl ⟨b, List.mem_append_left _ hm, pushed⟩
        · cases he
          rcases todo with ⟨batch, push, all⟩ | ⟨goesOn, -⟩
          · exact .inl ⟨a, List.mem_append_right _ List.mem_cons_self, batch,
              asks.trans push, all⟩
          · obtain ⟨answer, he⟩ := Installation.ask_answers kind (isOpen fair) goesOn
            exact absurd he (reply answer)

end Trace

end Concord
