import Concord.Proofs.Reconcile.Interleavings

/-! Objects that are deleted though they are still desired. A root that stops being served reads
as an empty tree, first in the desired view and then in the observed one; a pass that reads both
of its trees in between takes all of its objects for surplus. Nothing else that happens at the
same time makes it delete what is desired, unless the desired view lags behind its backend.
-/

namespace Concord.Overlap

open Installation

variable {kind : TreeKind} {now : Instant} {roots : List String} {begun o : Overlap}
  {moves : List Move} {root : String} {d q : Asked} {k : Key}

-----------------------------------------------------------------------------------------
-- Statements about a pass
-----------------------------------------------------------------------------------------

/-- The store has an object at the key that trees of the kind show. -/
def Desires (o : Overlap) (kind : TreeKind) (k : Key) : Prop :=
  (o.world.store.backend.objects[k]?.bind (·.projection? kind)).isSome

/-- The pass has read the two trees of a root with these questions. -/
structure Reads (o : Overlap) (root : String) (d q : Asked) : Prop where
  desired : d ∈ o.asked
  observed : q ∈ o.asked
  roots : d.root = root ∧ q.root = root
  questions : d.question = .tree .desired root ∧ q.question = .tree .observed root

/-- The desired view had changes queued, and its tree lacked the key. -/
structure Stale (kind : TreeKind) (k : Key) (d : Asked) : Prop where
  behind : d.Behind kind
  lacks : (d.desired kind).live? k = none

/-- The root is to be served no more, and both of its trees were read while the desired view had
stopped serving it and the observed view had not.
-/
structure Torn (roots : List String) (root : String) (d q : Asked) : Prop where
  leaves : root ∉ roots
  desired : d.serving = .desired
  observed : q.serving = .desired

/-- A desired key that the reads of its root take for surplus: the observed view showed it, and the
desired view did not, as it was stale or the reads were torn.
-/
structure Lost (kind : TreeKind) (roots : List String) (root : String) (k : Key) (d q : Asked)
    : Prop where
  held : (q.observed kind).live? k ≠ none
  cause : Stale kind k d ∨ Torn roots root d q

/-- The trees of two reads have no flags, and the digest tells their nodes apart. -/
structure Comparable (kind : TreeKind) (d q : Asked) : Prop where
  desired : (d.desired kind).Unflagged
  observed : (q.observed kind).Unflagged
  distinguishable : d.desired kind ≠ ∅ → (d.desired kind).Distinguishable (q.observed kind)

-----------------------------------------------------------------------------------------
-- What the invariant says of both reads
-----------------------------------------------------------------------------------------

/-- A deletion goes back to both reads of its root, and to the difference of what they gave. -/
theorem Sound.reads_of_deletes (h : Sound kind now roots begun o) (deletes : o.Deletes k)
    : ∃ root d q, o.Reads root d q ∧ d.serving.rank ≤ q.serving.rank
        ∧ k ∈ Asked.surplus kind d q := by
  obtain ⟨a, ha, batch, push, r, hr, rfl⟩ := deletes
  have trace := h.traces a.root
  have about : a ∈ o.asked.filter fun b => b.root = a.root :=
    List.mem_filter.mpr ⟨ha, decide_eq_true rfl⟩
  have order : (o.asked.filter fun b => b.root = a.root).Pairwise
      fun a b => a.serving.rank ≤ b.serving.rank :=
    h.order.sublist List.filter_sublist
  have from_ {b : Asked} (hb : b ∈ o.asked.filter fun b => b.root = a.root)
      : b ∈ o.asked ∧ b.root = a.root := by
    obtain ⟨member, same⟩ := List.mem_filter.mp hb
    exact ⟨member, of_decide_eq_true same⟩
  generalize hl : (o.asked.filter fun b => b.root = a.root) = asked at trace about order from_
  cases trace with
  | unread start => cases about
  | half desired rest =>
      rw [List.mem_singleton.mp about, desired] at push
      cases push
  | @read d q later _ desired observed quiet within rest deletes =>
      rcases List.mem_cons.mp about with rfl | about
      · rw [desired] at push
        cases push
      · rcases List.mem_cons.mp about with rfl | about
        · rw [observed] at push
          cases push
        · obtain ⟨hd, rootD⟩ := from_ List.mem_cons_self
          obtain ⟨hq, rootQ⟩ := from_ (List.mem_cons_of_mem d List.mem_cons_self)
          exact ⟨a.root, d, q, ⟨hd, hq, ⟨rootD, rootQ⟩, ⟨desired, observed⟩⟩,
            List.rel_of_pairwise_cons order List.mem_cons_self, within a about batch push r hr⟩

/-- Two reads of a root are the first two questions about it. -/
theorem Sound.deletes_of_reads (h : Sound kind now roots begun o) (reads : o.Reads root d q)
    (ended : o.passing = .working []) (unhindered : begun.Unhindered root)
    (surplus : k ∈ Asked.surplus kind d q)
    : o.Deletes k := by
  obtain ⟨hd, hq, ⟨rootD, rootQ⟩, desired, observed⟩ := reads
  have trace := h.traces root
  have aboutD : d ∈ o.asked.filter fun b => b.root = root :=
    List.mem_filter.mpr ⟨hd, decide_eq_true rootD⟩
  have aboutQ : q ∈ o.asked.filter fun b => b.root = root :=
    List.mem_filter.mpr ⟨hq, decide_eq_true rootQ⟩
  have asked {b : Asked} (hb : b ∈ o.asked.filter fun b => b.root = root) : b ∈ o.asked :=
    List.mem_of_mem_filter hb
  rw [ended] at trace
  generalize hl : (o.asked.filter fun b => b.root = root) = about at trace aboutD aboutQ asked
  cases trace with
  | unread start => cases aboutD
  | half desired' rest =>
      rw [List.mem_singleton.mp aboutQ, desired'] at observed
      cases observed
  | @read d' q' later _ desired' observed' quiet within rest deletes =>
      have sameD : d = d' := by
        rcases List.mem_cons.mp aboutD with same | later
        · exact same
        · rcases List.mem_cons.mp later with rfl | later
          · rw [observed'] at desired
            cases desired
          · exact absurd desired (quiet d later _ _)
      have sameQ : q = q' := by
        rcases List.mem_cons.mp aboutQ with rfl | later
        · rw [desired'] at observed
          cases observed
        · rcases List.mem_cons.mp later with same | later
          · exact same
          · exact absurd observed (quiet q later _ _)
      subst sameD sameQ
      rcases deletes unhindered (List.ne_nil_of_mem surplus) with ⟨b, hb, batch, push, all⟩ | left
      · exact ⟨b, asked (List.mem_cons_of_mem _ (List.mem_cons_of_mem _ hb)), batch, push,
          all k surplus⟩
      · obtain ⟨p, he, -⟩ := left
        cases he

/-- A tree that the desired view shows lacks nothing that is desired, unless the view lags behind
or was told not to serve the root.
-/
theorem Sound.behind_or_gone (h : Sound kind now roots begun o) (hd : d ∈ o.asked)
    (here : k.root? = some d.root) (desires : begun.Desires kind k)
    (lacks : (d.desired kind).live? k = none)
    : d.Behind kind ∨ (1 ≤ d.serving.rank ∧ d.root ∉ roots) := by
  obtain ⟨sight, ready, -⟩ := h.sights d hd
  rcases ready with shows | gone
  · refine .inl ?_
    obtain ⟨t, shows⟩ := Option.isSome_iff_exists.mp shows
    have tree : d.desired kind = t := by
      rw [Asked.desired, Site.viewTree, shows]
      rfl
    obtain ⟨-, -, behind | exact_⟩ := (sight.ordered.consistent .desired).shown
      (sight.ordered.steady .desired) shows
    · exact behind
    · -- Nothing is queued, so the tree shows what the store has.
      have projected := exact_ k
      rw [← tree, lacks, Memory.projected, if_pos here] at projected
      have objects : (d.world.site .desired).backend.objects
          = begun.world.store.backend.objects := sight.objects
      rw [Desires, ← objects, ← projected] at desires
      cases desires
  · exact .inr gone

/-- A tree that the observed view shows is empty once the view was told not to serve the root. -/
theorem Sound.serving_of_held (h : Sound kind now roots begun o) (hq : q ∈ o.asked)
    (absent : q.root ∉ roots) (held : (q.observed kind).live? k ≠ none)
    : q.serving.rank ≤ 1 := by
  obtain ⟨sight, -, -⟩ := h.sights q hq
  by_contra late
  have none := sight.observed (Nat.lt_of_not_le late) q.root absent
  rw [Asked.observed, Site.viewTree, Site.snapshot?, none] at held
  exact held rfl

/-- Once the desired view was told not to serve the root, it shows an empty tree of it. -/
theorem Sound.desired_of_torn (h : Sound kind now roots begun o) (reads : o.Reads root d q)
    (torn : Torn roots root d q)
    : d.desired kind = ∅ := by
  obtain ⟨sight, -, -⟩ := h.sights d reads.desired
  have gone := sight.desired (by rw [torn.desired]; decide) root torn.leaves
  rw [Asked.desired, Site.viewTree, Site.snapshot?, reads.roots.1, gone]
  rfl

/-- The trees that were read were built by workers, of their root. -/
theorem Sound.formed (h : Sound kind now roots begun o) (reads : o.Reads root d q)
    : (d.desired kind).WellFormed ∧ (q.observed kind).WellFormed
      ∧ (q.observed kind).RootedAt root := by
  obtain ⟨sightD, -, -⟩ := h.sights d reads.desired
  obtain ⟨sightQ, -, -⟩ := h.sights q reads.observed
  have formedD := ((sightD.ordered.consistent .desired).viewTree
    (sightD.ordered.steady .desired) kind d.root).1
  obtain ⟨formedQ, rootedQ⟩ := (sightQ.ordered.consistent .observed).viewTree
    (sightQ.ordered.steady .observed) kind q.root
  have rooted : (q.observed kind).RootedAt q.root := rootedQ
  rw [reads.roots.2] at rooted
  exact ⟨formedD, formedQ, rooted⟩

/-- What is surplus is missing in the one tree and held by the other. -/
theorem Sound.live?_of_surplus (h : Sound kind now roots begun o) (reads : o.Reads root d q)
    (surplus : k ∈ Asked.surplus kind d q)
    : (d.desired kind).live? k = none ∧ (q.observed kind).live? k ≠ none
      ∧ k.root? = some root := by
  obtain ⟨formedD, formedQ, rooted⟩ := h.formed reads
  obtain ⟨lacks, held⟩ := HashTree.live?_of_mem_remove formedD formedQ surplus
  exact ⟨lacks, held, rooted.root?_of_live? held⟩

/-- And the other way round, if the trees can be compared. -/
theorem Sound.mem_surplus (h : Sound kind now roots begun o) (reads : o.Reads root d q)
    (comparable : Comparable kind d q) (lacks : (d.desired kind).live? k = none)
    (held : (q.observed kind).live? k ≠ none)
    : k ∈ Asked.surplus kind d q := by
  obtain ⟨formedD, formedQ, -⟩ := h.formed reads
  obtain ⟨unflaggedD, unflaggedQ, distinguishable⟩ := comparable
  rw [Asked.surplus]
  by_cases empty : d.desired kind = ∅
  · rw [empty]
    exact HashTree.mem_remove_of_empty formedQ unflaggedQ held
  · exact (HashTree.mem_diff_of_unflagged formedD formedQ (distinguishable empty) unflaggedD
      unflaggedQ k).2.mpr ⟨lacks, held⟩

-----------------------------------------------------------------------------------------
-- The condition
-----------------------------------------------------------------------------------------

/-- In every order of the steps of a pass, of a change of the served roots and of the workers, an
object that is still desired is deleted only if the desired view was stale when the pass read its
tree, or if the reads of its root were torn. If nothing hinders the pass, it is deleted then.
-/
theorem deletes_still_desired (begins : begun.Begins) (distinct : roots.Nodup)
    (steps : run kind now roots moves begun = some o) (here : k.root? = some root)
    (desires : begun.Desires kind k)
    : (o.Deletes k → ∃ d q, o.Reads root d q ∧ Lost kind roots root k d q)
      ∧ ∀ d q, o.Reads root d q → Lost kind roots root k d q → Comparable kind d q →
          begun.Unhindered root → o.passing = .working [] → o.Deletes k := by
  have sound := (begins.sound kind now roots).run distinct steps
  constructor
  · intro deletes
    obtain ⟨other, d, q, reads, order, surplus⟩ := sound.reads_of_deletes deletes
    obtain ⟨lacks, held, about⟩ := sound.live?_of_surplus reads surplus
    obtain rfl : other = root := Option.some.inj (about.symm.trans here)
    obtain ⟨rootD, rootQ⟩ := reads.roots
    refine ⟨d, q, reads, held, ?_⟩
    rcases sound.behind_or_gone reads.desired (rootD ▸ here) desires lacks with behind | gone
    · exact .inl ⟨behind, lacks⟩
    · obtain ⟨late, absent⟩ := gone
      rw [rootD] at absent
      have early := sound.serving_of_held reads.observed (rootQ ▸ absent) held
      have both : d.serving.rank = 1 ∧ q.serving.rank = 1 := by omega
      exact .inr ⟨absent, Serving.eq_desired both.1, Serving.eq_desired both.2⟩
  · intro d q reads lost comparable unhindered ended
    refine sound.deletes_of_reads reads ended unhindered ?_
    refine sound.mem_surplus reads comparable ?_ lost.held
    rcases lost.cause with stale | torn
    · exact stale.lacks
    · rw [sound.desired_of_torn reads torn]
      exact HashTree.live?_empty k

-----------------------------------------------------------------------------------------
-- A root that is to be served no more
-----------------------------------------------------------------------------------------

/-- Both views serve the root `r` and show what the store and the fabric have. -/
def watched (store fabric : Std.ExtTreeMap Key StoredObject) : Installation :=
  let idle : Installation :=
    { store := { backend := { name := "store", objects := store } }
      fabric := { backend := { name := "fabric", objects := fabric } } }
  let desired := (Installation.serve .config .desired ["r"] idle).2
  let both := (Installation.serve .config .observed ["r"] desired).2
  (both.restSide .desired).restSide .observed

theorem reached_watched (store fabric : Std.ExtTreeMap Key StoredObject)
    : (watched store fabric).Reached := by
  have idle : Reached
      { store := { backend := { name := "store", objects := store } }
        fabric := { backend := { name := "fabric", objects := fabric } } } :=
    .unserved (fun side => by cases side <;> rfl) fun side => by cases side <;> rfl
  have desired := idle.serve .config .desired (List.nodup_singleton "r")
  have both := desired.serve .config .observed (List.nodup_singleton "r")
  exact (both.restSide .desired).restSide .observed

/-- An object at the key `r`. -/
def one : Std.ExtTreeMap Key StoredObject :=
  {(⟨["r"]⟩, {})}

/-- The store and the fabric have the same object. -/
def mirrored : Overlap where
  world := watched one one
  reconciler := .new {}

theorem begins_mirrored : mirrored.Begins :=
  ⟨reached_watched one one, rfl, rfl, rfl⟩

/-- The work on the root from its first question to its end. -/
def through : List Move :=
  List.replicate 7 (.work "r")

/-- The desired view stops serving the root when a pass has listed it, and the observed view does
when the pass is over.
-/
def race : List Move :=
  [.list, .list, .serve] ++ through ++ [.serve, .serve]

/-- How the race ends. -/
def raced : Overlap :=
  (run .config ⟨0⟩ [] race mirrored).get (by rfl)

theorem run_race : run .config ⟨0⟩ [] race mirrored = some raced :=
  (Option.some_get _).symm

theorem raced_reads
    : ∃ d q, raced.Reads "r" d q ∧ Torn [] "r" d q ∧ d.desired .config = ∅
        ∧ q.observed .config = ((∅ : HashTree).addAll [(⟨["r"]⟩, ∅)]).1 := by
  have count : raced.asked.length = 6 := by rfl
  have first : 0 < raced.asked.length := by omega
  have second : 1 < raced.asked.length := by omega
  have empty : raced.asked[0].desired .config = ∅ := by rfl
  have full : raced.asked[1].observed .config
      = ((∅ : HashTree).addAll [(⟨["r"]⟩, ∅)]).1 := by rfl
  exact ⟨raced.asked[0], raced.asked[1], ⟨List.getElem_mem first, List.getElem_mem second,
    ⟨by rfl, by rfl⟩, ⟨by rfl, by rfl⟩⟩, ⟨List.not_mem_nil, by rfl, by rfl⟩, empty, full⟩

/-- The reads of the race are torn, so it deletes what the store has. -/
theorem deletes_still_desired_race
    : ∃ o, run .config ⟨0⟩ [] race mirrored = some o ∧ o.Deletes ⟨["r"]⟩
        ∧ ∃ d q, o.Reads "r" d q ∧ Lost .config [] "r" ⟨["r"]⟩ d q := by
  obtain ⟨d, q, reads, torn, empty, full⟩ := raced_reads
  have desires : mirrored.Desires .config ⟨["r"]⟩ := by rfl
  obtain ⟨only, surely⟩ := deletes_still_desired begins_mirrored List.nodup_nil run_race rfl
    desires
  have lost : Lost .config [] "r" ⟨["r"]⟩ d q := by
    refine ⟨?_, .inr torn⟩
    rw [full]
    decide +kernel
  have comparable : Comparable .config d q := by
    refine ⟨?_, ?_, fun nonempty => absurd empty nonempty⟩
    · rw [empty]
      intro k n hn
      rw [HashTree.find?_empty] at hn
      cases hn
    · rw [full]
      exact HashTree.unflagged_addAll _
  have unhindered : mirrored.Unhindered "r" := ⟨rfl, by decide +kernel, rfl⟩
  have deletes := surely d q reads lost comparable unhindered (by rfl)
  exact ⟨raced, run_race, deletes, only deletes⟩

/-- The store got its object after the workers came to rest. -/
def lagging : Overlap where
  world :=
    let before := watched ∅ one
    { before with
      store := { before.store with backend := before.store.backend.insert ⟨["r"]⟩ {} } }
  reconciler := .new {}

theorem begins_lagging : lagging.Begins :=
  ⟨(reached_watched ∅ one).mutate .desired (.insert ⟨["r"]⟩ {}), rfl, rfl, rfl⟩

/-- A pass, and then a change that keeps the root. -/
def lagged : Overlap :=
  (run .config ⟨0⟩ ["r"] ([.list, .list] ++ through ++ [.serve, .serve, .serve])
    lagging).get (by rfl)

/-- Both views have a tree of each root that they serve, and no object is flagged. -/
structure Hydrated (o : Overlap) : Prop where
  shows : ∀ side, ∀ slot ∈ (o.world.site side).slots, slot.worker.snapshot.isSome
  unflagged : ∀ side, (o.world.site side).backend.errors = ∅

/-- The pass deletes nothing that is still desired. -/
def Spares (begun : Overlap) (kind : TreeKind) (o : Overlap) : Prop :=
  ∀ k, o.Deletes k → ¬ begun.Desires kind k

theorem deletes_raced : raced.Deletes ⟨["r"]⟩ := by
  have count : raced.asked.length = 6 := by rfl
  have last : 5 < raced.asked.length := by omega
  exact ⟨raced.asked[5], List.getElem_mem last, _, by rfl, _, List.mem_cons_self, by rfl⟩

theorem deletes_lagged : lagged.Deletes ⟨["r"]⟩ := by
  have count : lagged.asked.length = 6 := by rfl
  have last : 5 < lagged.asked.length := by omega
  exact ⟨lagged.asked[5], List.getElem_mem last, _, by rfl, _, List.mem_cons_self, by rfl⟩

/-- Hydrated views do not make a pass spare what is desired: neither in the race, where nothing
was queued, nor before a change of the served roots that comes afterwards, if the desired view has
not taken a change.
-/
theorem not_spares
    : (mirrored.Begins ∧ mirrored.Hydrated
        ∧ (∀ side, ∀ slot ∈ (mirrored.world.site side).slots,
            slot.worker.queued (mirrored.world.site side).backend = 0)
        ∧ ¬ ∀ o, run .config ⟨0⟩ [] race mirrored = some o → mirrored.Spares .config o)
      ∧ lagging.Begins ∧ lagging.Hydrated
        ∧ ¬ ∀ o, run .config ⟨0⟩ ["r"] ([.list, .list] ++ through ++ [.serve, .serve, .serve])
            lagging = some o → lagging.Spares .config o := by
  refine ⟨⟨begins_mirrored, ⟨?_, ?_⟩, ?_, ?_⟩, begins_lagging, ⟨?_, ?_⟩, ?_⟩
  · intro side
    cases side <;> decide +kernel
  · intro side
    cases side <;> rfl
  · intro side
    cases side <;> decide +kernel
  · intro spares
    exact spares raced run_race ⟨["r"]⟩ deletes_raced (by rfl)
  · intro side
    cases side <;> decide +kernel
  · intro side
    cases side <;> rfl
  · intro spares
    exact spares lagged (Option.some_get _).symm ⟨["r"]⟩ deletes_lagged (by rfl)

end Concord.Overlap
