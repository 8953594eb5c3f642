import Concord.Proofs.Reconcile.Concurrency
import Concord.Proofs.Reconcile.Statuses

/-! A pass at any moment, be it over or not. What was asked for a root so far is the start of a pass
over it, and the ledger that a question finds is the one that the pass leaves if the question is its
last.
-/

namespace Concord

/-- Any program may be played: the first question breaks down, if there is one. -/
theorem Program.exists_plays {α : Type} (root : String) (p : Program α)
    : ∃ rest result left, p.Plays root rest result left := by
  cases p with
  | finished ledger a => exact ⟨_, _, _, .finished ledger a⟩
  | asking ledger question next => exact ⟨[⟨question, .panicked⟩], _, ledger, .refused rfl⟩

namespace Underway

variable {ω : Type} {s : Surroundings ω} {now : Instant} {r : Reconciler} {w : ω}
  {strides : List Stride} {u : Underway ω} {root : String} {rest : List Exchange}
  {result : Except ReconcileError RootOutcome} {left : Ledger}

/-- The work on a root is on its way through a pass that asks the rest after what it asked so far. A
question that it is about to put may be the last one, and nothing is left to ask of a root that has
its result.
-/
structure Midway (u : Underway ω) (r : Reconciler) (now : Instant) (root : String)
    (rest : List Exchange) (result : Except ReconcileError RootOutcome) (left : Ledger) : Prop where
  plays : (r.program now root).Plays root (u.asked root ++ rest) result left
  asking : ∀ question next, u.active.lookup root = some (.asking question next) →
    rest = [⟨question, .panicked⟩] ∧ left = u.reconciler.ledger root
  ended : ∀ told, u.results.lookup root = some told →
    rest = [] ∧ result = told ∧ left = u.reconciler.ledger root

theorem Midway.course (h : u.Midway r now root rest result left)
    : RootPass.Course r.config.trackerLimits root now (r.ledger root) (u.asked root ++ rest) result
        left :=
  RootPass.course h.plays

/-- At every moment of a pass, each shared root is on its way through one. -/
theorem exists_midway (configured : r.Configured)
    (distinct : (Reconciler.sharedRoots s w).Nodup) (shared : root ∈ Reconciler.sharedRoots s w)
    (run : run s now strides (begin s r w) = some u)
    : ∃ rest result left, u.Midway r now root rest result left := by
  obtain ⟨budget, sound, -⟩ := (sound_begin s now w configured).run distinct run
  have unique := sound.nodup_names distinct
  have kept : (r.retainRoots (Reconciler.sharedRoots s w)).ledger root = r.ledger root := by
    rw [Reconciler.ledger_retainRoots, if_pos shared]
  have stands := sound.stands root shared
  rw [kept] at stands
  cases stands with
  | waiting still silent =>
      have apart := List.nodup_append.mp unique
      have inactive : root ∉ u.active.map Prod.fst := fun active =>
        (List.nodup_append.mp apart.1).2.2 root still root active rfl
      have unended : root ∉ u.results.map Prod.fst := fun ended =>
        apart.2.2 root (List.mem_append_left _ still) root ended rfl
      obtain ⟨rest, result, left, plays⟩ := Program.exists_plays root (r.program now root)
      refine ⟨rest, result, left, by rwa [silent], fun _ _ active => ?_, fun _ ended => ?_⟩
      · exact absurd (mem_of_lookup active) inactive
      · exact absurd (mem_of_lookup ended) unended
  | @working task p active does comes =>
      have unended : root ∉ u.results.map Prod.fst := fun ended =>
        (List.nodup_append.mp unique).2.2 root (List.mem_append_right _ (mem_of_lookup active))
          root ended rfl
      cases does with
      | @asking _ question next follows answers =>
          have breaks : (Program.asking (u.reconciler.ledger root) question follows).Plays root
              [⟨question, .panicked⟩] (.error (.rootPanicked root)) (u.reconciler.ledger root) :=
            .refused rfl
          refine ⟨_, _, _, comes.plays breaks, fun _ _ active' => ?_,
            fun _ ended => absurd (mem_of_lookup ended) unended⟩
          cases active.symm.trans active'
          exact ⟨rfl, rfl⟩
      | _ =>
          obtain ⟨rest, result, left, plays⟩ := Program.exists_plays root _
          refine ⟨rest, result, left, comes.plays plays, fun _ _ active' => ?_,
            fun _ ended => absurd (mem_of_lookup ended) unended⟩
          cases active.symm.trans active'
  | @closed result done plays =>
      have inactive : root ∉ u.active.map Prod.fst := fun active =>
        (List.nodup_append.mp unique).2.2 root (List.mem_append_right _ active)
          root (mem_of_lookup done) rfl
      refine ⟨[], result, _, by rwa [List.append_nil], fun _ _ active => ?_, fun told ended => ?_⟩
      · exact absurd (mem_of_lookup active) inactive
      · cases done.symm.trans ended
        exact ⟨rfl, rfl, rfl⟩

end Underway

end Concord
