import Concord.Proofs.Reconcile.Traces

/-! Every order of steps, of a pass, a change of the served roots and the workers, keeps one
invariant: each question was put to views in order, and about each root the right questions were
asked so far.
-/

namespace Concord

namespace Overlap

open Installation

variable {kind : TreeKind} {now : Instant} {roots : List String} {begun o o' : Overlap}
  {root : String}

-----------------------------------------------------------------------------------------
-- The invariant
-----------------------------------------------------------------------------------------

/-- Neither the pass nor the change of the served roots has begun. -/
structure Begins (o : Overlap) : Prop where
  reached : o.world.Reached
  serving : o.serving = .before
  passing : o.passing = .before
  asked : o.asked = []

/-- Nothing keeps the pass from trying each deletion in the root: the sink takes what is reported,
one attempt is tolerated, and nothing is tracked yet.
-/
structure Unhindered (o : Overlap) (root : String) : Prop where
  isOpen : o.world.sink.isOpen = true
  tolerant : 0 < o.reconciler.config.trackerLimits.resetLimit.toNat
  untracked : (o.reconciler.ledger root).records = ∅

/-- The pass works on no roots yet. -/
def Idle (o : Overlap) : Prop :=
  ∀ tasks, o.passing ≠ .working tasks

/-- The invariant. -/
structure Sound (kind : TreeKind) (now : Instant) (roots : List String) (begun o : Overlap)
    : Prop where
  sight : Sight kind roots begun.world.store.backend.objects o.serving o.world
  ready : ∀ root ∈ o.passing.roots, Ready kind roots o.serving o.world root
  isOpen : o.world.sink.isOpen = begun.world.sink.isOpen
  config : o.reconciler.config = begun.reconciler.config
  sights : ∀ a ∈ o.asked, Sight kind roots begun.world.store.backend.objects a.serving a.world
    ∧ Ready kind roots a.serving a.world a.root ∧ a.serving.rank ≤ o.serving.rank
  order : o.asked.Pairwise fun a b => a.serving.rank ≤ b.serving.rank
  traces : ∀ root, Trace kind begun.reconciler.config.trackerLimits now root
    (begun.Unhindered root) (o.asked.filter fun a => a.root = root) (o.passing.task? root)
  linked : ∀ root p, o.passing.task? root = some p →
    p.ledger.records = ∅ → (o.reconciler.ledger root).records = ∅
  untracked : ∀ root, begun.Unhindered root → o.Idle → (o.reconciler.ledger root).records = ∅
  idle : o.Idle → o.asked = []

theorem Begins.sound (h : o.Begins) (kind : TreeKind) (now : Instant) (roots : List String)
    : Sound kind now roots o o := by
  obtain ⟨reached, serving, passing, asked⟩ := h
  refine ⟨⟨reached.ordered, rfl, ?_, ?_⟩, ?_, rfl, rfl, ?_, ?_, ?_, ?_, ?_, ?_⟩
  · intro late
    rw [serving] at late
    simp [Serving.rank] at late
  · intro late
    rw [serving] at late
    simp [Serving.rank] at late
  · rw [passing]
    intro root listed
    cases listed
  · rw [asked]
    intro a hm
    cases hm
  · rw [asked]
    exact .nil
  · rw [asked, passing]
    intro root
    exact .unread fun p he => by cases he
  · rw [passing]
    intro root p he
    cases he
  · intro root lucky _
    exact lucky.untracked
  · intro _
    exact asked

/-- What changes the surroundings only keeps the invariant if the views stay in order. -/
theorem Sound.world {world : Installation} {serving : Serving} (h : Sound kind now roots begun o)
    (sight : Sight kind roots begun.world.store.backend.objects serving world)
    (ready : ∀ root, Ready kind roots o.serving o.world root → Ready kind roots serving world root)
    (isOpen : world.sink.isOpen = o.world.sink.isOpen) (later : o.serving.rank ≤ serving.rank)
    : Sound kind now roots begun { o with world, serving } where
  sight := sight
  ready := fun root listed => ready root (h.ready root listed)
  isOpen := isOpen.trans h.isOpen
  config := h.config
  sights := fun a hm => by
    obtain ⟨seen, served, earlier⟩ := h.sights a hm
    exact ⟨seen, served, Nat.le_trans earlier later⟩
  order := h.order
  traces := h.traces
  linked := h.linked
  untracked := h.untracked
  idle := h.idle

/-- So does what forgets some roots. -/
theorem Sound.retain (h : Sound kind now roots begun o) (kept : List String)
    : Sound kind now roots begun { o with reconciler := o.reconciler.retainRoots kept } where
  sight := h.sight
  ready := h.ready
  isOpen := h.isOpen
  config := h.config
  sights := h.sights
  order := h.order
  traces := h.traces
  linked := fun root p task empty => by
    rw [Reconciler.records_retainRoots]
    split
    · exact h.linked root p task empty
    · rfl
  untracked := fun root lucky idle => by
    rw [Reconciler.records_retainRoots]
    split
    · exact h.untracked root lucky idle
    · rfl
  idle := h.idle

/-- A turn of a worker keeps the invariant. -/
theorem Sound.turn {side : Side} {other : TreeKind} (h : Sound kind now roots begun o)
    (step : o.turn side other root = some o')
    : Sound kind now roots begun o' := by
  obtain ⟨slot, found, turned⟩ := Option.bind_eq_some_iff.mp step
  obtain ⟨⟨slot', backend⟩, taken, rfl⟩ := Option.map_eq_some_iff.mp turned
  have goes := goes_setSite h.sight.ordered
    (Relation.ReflTransGen.single (Site.Step.turn found taken))
  refine h.world (h.sight.goes goes) (fun root ready => ready.goes goes) ?_ (Nat.le_refl _)
  cases side <;> rfl

/-- Each step of the change of the served roots keeps it. -/
theorem Sound.serve (h : Sound kind now roots begun o) (distinct : roots.Nodup)
    (step : o.serve kind roots = some o')
    : Sound kind now roots begun o' := by
  have sink (side : Side)
      : (Installation.serve kind side roots o.world).2.sink.isOpen = o.world.sink.isOpen :=
    congrArg StatusSink.isOpen (sink_waiting side _ _)
  have ordered := h.sight.ordered
  rw [Overlap.serve] at step
  cases stage : o.serving with
  | before =>
      rw [stage] at step
      dsimp only at step
      rw [serveOn_eq] at step
      cases step
      have served := (serves ordered kind .desired distinct).2
      refine h.world ((stage ▸ h.sight).serveDesired served) ?_ (sink .desired) ?_
      · intro root ready
        rw [stage] at ready
        exact ready.serveDesired served
      · simp [stage, Serving.rank]
  | desired =>
      rw [stage] at step
      dsimp only at step
      rw [serveOn_eq] at step
      cases step
      have served := (serves ordered kind .observed distinct).2
      refine h.world ((stage ▸ h.sight).serveObserved served) ?_ (sink .observed) ?_
      · intro root ready
        rw [stage] at ready
        exact ready.serveObserved served
      · simp [stage, Serving.rank]
  | observed =>
      rw [stage] at step
      cases step
      have sight := h.sight
      rw [stage] at sight
      have late : Sight kind roots begun.world.store.backend.objects .after o.world :=
        ⟨sight.ordered, sight.objects, fun _ => sight.desired (by decide),
          fun _ => sight.observed (by decide)⟩
      refine (h.world late ?_ rfl (by simp [stage, Serving.rank])).retain roots
      intro root ready
      exact ready.imp_right fun gone => ⟨by decide, gone.2⟩
  | after =>
      rw [stage] at step
      cases step

/-- Listing roots keeps it: work on a root starts with nothing asked. -/
theorem Sound.list (h : Sound kind now roots begun o) (step : o.list kind now = some o')
    : Sound kind now roots begun o' := by
  rw [Overlap.list] at step
  cases stage : o.passing with
  | before =>
      rw [stage] at step
      cases step
      have idle : o.Idle := fun tasks he => by
        rw [stage] at he
        cases he
      have asked := h.idle idle
      refine { h with ready := ?_, traces := ?_, linked := ?_, untracked := ?_, idle := ?_ }
      · intro root listed
        exact .inl (ready_of_mem_roots h.sight.ordered listed)
      · intro root
        have before := h.traces root
        rw [stage] at before
        exact before
      · intro root p he
        cases he
      · intro root lucky _
        exact h.untracked root lucky idle
      · intro _
        exact asked
  | listed known =>
      rw [stage] at step
      cases step
      have idle : o.Idle := fun tasks he => by
        rw [stage] at he
        cases he
      have asked := h.idle idle
      have kept := h.retain (known.filter fun root =>
        ((Installation.surroundings kind).roots .observed o.world).contains root)
      refine { kept with ready := ?_, traces := ?_, linked := ?_, untracked := ?_, idle := ?_ }
      · intro root listed
        simp only [Passing.roots, List.map_map] at listed
        obtain ⟨name, hm, rfl⟩ := List.mem_map.mp listed
        refine h.ready name ?_
        rw [stage]
        exact List.mem_of_mem_filter hm
      · intro root
        simp only [asked, List.filter_nil, Passing.task?]
        rw [lookup_map_of_mem]
        refine .unread fun p he => ?_
        split at he
        · cases he
          refine ⟨_, fun lucky => kept.untracked root lucky idle, ?_⟩
          rw [← h.config]
          rfl
        · cases he
      · intro root p he empty
        simp only [Passing.task?] at he
        rw [lookup_map_of_mem] at he
        split at he
        · cases he
          exact empty
        · cases he
      · intro root _ working
        exact absurd rfl (working _)
      · intro working
        exact absurd rfl (working _)
  | working tasks =>
      rw [stage] at step
      cases step

/-- Work that is over keeps the invariant. -/
theorem Sound.finish {tasks left : List (String × Program RootOutcome)}
    (h : Sound kind now roots begun o) (stage : o.passing = .working tasks)
    (names : left.map Prod.fst ⊆ tasks.map Prod.fst)
    (others : ∀ other, other ≠ root → left.lookup other = tasks.lookup other)
    (gone : left.lookup root = none)
    (trace : Trace kind begun.reconciler.config.trackerLimits now root (begun.Unhindered root)
      (o.asked.filter fun a => a.root = root) none)
    : Sound kind now roots begun { o with passing := .working left } := by
  have ready := h.ready
  rw [stage] at ready
  refine { h with ready := ?_, traces := ?_, linked := ?_, untracked := ?_, idle := ?_ }
  · intro other hm
    exact ready other (names hm)
  · intro other
    simp only [Passing.task?]
    by_cases same : other = root
    · subst same
      rw [gone]
      exact trace
    · have before := h.traces other
      rw [stage] at before
      rw [others other same]
      exact before
  · intro other p task empty
    simp only [Passing.task?] at task
    by_cases same : other = root
    · rw [same, gone] at task
      cases task
    · refine h.linked other p ?_ empty
      rw [stage]
      exact (others other same).symm.trans task
  · intro other _ working
    exact absurd rfl (working left)
  · intro working
    exact absurd rfl (working left)

/-- A question is added to what was asked, about its root and no other. -/
theorem filter_asked (asked : List Asked) (a : Asked) (other : String)
    : (asked ++ [a]).filter (fun a => a.root = other)
      = if a.root = other then asked.filter (fun a => a.root = other) ++ [a]
        else asked.filter fun a => a.root = other := by
  rw [List.filter_append]
  split <;> simp_all

/-- The invariant after a question about a root, once it is known what is asked and left there. -/
theorem Sound.ask {tasks left : List (String × Program RootOutcome)} {question : Question}
    {reconciler : Reconciler} (h : Sound kind now roots begun o)
    (stage : o.passing = .working tasks) (listed : root ∈ tasks.map Prod.fst)
    (names : left.map Prod.fst ⊆ tasks.map Prod.fst)
    (others : ∀ other, other ≠ root → left.lookup other = tasks.lookup other)
    (config : reconciler.config = o.reconciler.config)
    (records : ∀ other, other ≠ root →
      (reconciler.ledger other).records = (o.reconciler.ledger other).records)
    (trace : Trace kind begun.reconciler.config.trackerLimits now root (begun.Unhindered root)
      (o.asked.filter (fun a => a.root = root) ++ [⟨root, o.serving, o.world, question⟩])
      (left.lookup root))
    (linked : ∀ p, left.lookup root = some p →
      p.ledger.records = ∅ → (reconciler.ledger root).records = ∅)
    : Sound kind now roots begun
        { o with
          world := (Installation.ask kind question o.world).2
          reconciler
          passing := .working left
          asked := o.asked ++ [⟨root, o.serving, o.world, question⟩] } := by
  have goes := goes_ask h.sight.ordered kind question
  have ready := h.ready
  rw [stage] at ready
  refine ⟨h.sight.goes goes, ?_, (isOpen_ask question).trans h.isOpen, config.trans h.config,
    ?_, ?_, ?_, ?_, ?_, ?_⟩
  · intro other hm
    exact (ready other (names hm)).goes goes
  · intro a hm
    rcases List.mem_append.mp hm with hm | hm
    · exact h.sights a hm
    · rw [List.mem_singleton.mp hm]
      exact ⟨h.sight, ready root listed, Nat.le_refl _⟩
  · refine List.pairwise_append.mpr ⟨h.order, List.pairwise_singleton _ _, ?_⟩
    intro a ha b hb
    rw [List.mem_singleton.mp hb]
    exact (h.sights a ha).2.2
  · intro other
    rw [filter_asked]
    by_cases same : root = other
    · subst same
      rw [if_pos rfl]
      exact trace
    · have before := h.traces other
      rw [stage] at before
      rw [if_neg same]
      have task := others other (Ne.symm same)
      simp only [Passing.task?] at before ⊢
      rwa [task]
  · intro other p task empty
    by_cases same : other = root
    · subst same
      exact linked p task empty
    · rw [records other same]
      refine h.linked other p ?_ empty
      rw [stage]
      exact (others other same).symm.trans task
  · intro other _ working
    exact absurd rfl (working left)
  · intro working
    exact absurd rfl (working left)

/-- Work on a root keeps the invariant, by cases on what comes next there. -/
theorem Sound.work (h : Sound kind now roots begun o) (step : o.work kind root = some o')
    : Sound kind now roots begun o' := by
  rw [Overlap.work] at step
  cases stage : o.passing with
  | before =>
      rw [stage] at step
      cases step
  | listed known =>
      rw [stage] at step
      cases step
  | working tasks =>
      rw [stage] at step
      dsimp only at step
      have before := h.traces root
      rw [stage] at before
      simp only [Passing.task?] at before
      cases found : tasks.lookup root with
      | none =>
          rw [found] at step
          cases step
      | some program =>
          rw [found] at step before
          have listed : root ∈ tasks.map Prod.fst := by
            obtain ⟨_, _, eq, -⟩ := List.lookup_eq_some_iff.mp found
            simp [eq]
          have fewer : (tasks.filter fun task => task.1 ≠ root).map Prod.fst ⊆ tasks.map Prod.fst :=
            List.map_subset _ (List.filter_subset_self tasks)
          have kept (other : String) (ne : other ≠ root)
              : (tasks.filter fun task => task.1 ≠ root).lookup other = tasks.lookup other := by
            rw [lookup_drop, if_neg ne]
          have gone : (tasks.filter fun task => task.1 ≠ root).lookup root = none := by
            rw [lookup_drop, if_pos rfl]
          cases program with
          | finished ledger result =>
              cases step
              exact h.finish stage fewer kept gone before.finish
          | asking ledger question next =>
              dsimp only at step
              have linked := h.linked root (.asking ledger question next) (by rw [stage]; exact found)
              have same : (Installation.surroundings kind).ask question o.world
                  = Installation.ask kind question o.world :=
                rfl
              rw [same] at step
              have failing
                  (reply : ∀ answer, (Installation.ask kind question o.world).1 ≠ .answered answer)
                  : Sound kind now roots begun
                      { o with
                        world := (Installation.ask kind question o.world).2
                        passing := .working (tasks.filter fun task => task.1 ≠ root)
                        asked := o.asked ++ [⟨root, o.serving, o.world, question⟩] } := by
                refine h.ask stage listed fewer kept rfl (fun _ _ => rfl) ?_ ?_
                · rw [gone]
                  refine before.fail rfl rfl reply fun lucky => ?_
                  exact h.isOpen.trans lucky.isOpen
                · intro p he
                  rw [gone] at he
                  cases he
              cases reply : Installation.ask kind question o.world with
              | mk outcome world =>
                  rw [reply] at step failing
                  cases outcome with
                  | answered answer =>
                      cases step
                      have after : world = (Installation.ask kind question o.world).2 := by
                        rw [reply]
                      have answered : (Installation.ask kind question o.world).1
                          = .answered answer := by
                        rw [reply]
                      have replaced (other : String) := lookup_replace tasks root other
                        (next (o.reconciler.ledger root) answer)
                      have here := replaced root
                      rw [if_pos rfl, found, Option.map_some] at here
                      rw [after]
                      refine h.ask stage listed ?_ (fun other ne => ?_) rfl (fun other ne => ?_) ?_ ?_
                      · rw [names_replace]
                        exact List.Subset.refl _
                      · rw [replaced, if_neg ne]
                      · rw [Reconciler.ledger_setLedger, if_neg ne]
                      · rw [here]
                        exact before.answer rfl rfl answered (fun lucky => lucky.tolerant)
                          fun _ => linked
                      · intro p he empty
                        rw [here] at he
                        cases he
                        rwa [Reconciler.ledger_setLedger, if_pos rfl]
                  | failed error =>
                      cases step
                      exact failing fun answer he => by cases he
                  | panicked =>
                      cases step
                      exact failing fun answer he => by cases he

/-- Every step keeps the invariant, by cases on who goes on. -/
theorem Sound.step {move : Move} (h : Sound kind now roots begun o) (distinct : roots.Nodup)
    (step : o.step kind now roots move = some o')
    : Sound kind now roots begun o' := by
  cases move with
  | turn side other root => exact h.turn step
  | serve => exact h.serve distinct step
  | list => exact h.list step
  | work root => exact h.work step

/-- And so does every order of steps, by induction on the steps. -/
theorem Sound.run {moves : List Move} (h : Sound kind now roots begun o) (distinct : roots.Nodup)
    (steps : Overlap.run kind now roots moves o = some o')
    : Sound kind now roots begun o' := by
  induction moves generalizing o with
  | nil =>
      cases steps
      exact h
  | cons move rest ih =>
      obtain ⟨next, step, steps⟩ := Option.bind_eq_some_iff.mp steps
      exact ih (h.step distinct step) steps

end Overlap

end Concord
