import Concord.Proofs.HashTree.Unflagged

/-! A difference that is carried out. Removals come parents first and leave tombstones behind, which
later removals prune, so what counts on the way is what the tree holds, not which dummies it has.
Main statement: no step fails, and the outcome agrees with the tree that was asked for.
-/

namespace Concord.HashTree

variable {t u source desired observed : HashTree} {root : String} {key k : Key} {keys : List Key}

/-- Takes back what stands at a key: cleared if anything is below it, taken out otherwise. -/
def withdraw (t : HashTree) (key : Key) : Except TreeError HashTree :=
  if (t.find? key).any fun n => !n.children.isEmpty then .ok (t.clear key)
  else (t.remove key).map Prod.fst

/-- Adds the attributes that `source` has at a key. -/
def supply (source t : HashTree) (key : Key) : Except TreeError HashTree :=
  match source.find? key with
  | some n => t.add key n.content.attributes
  | none => .error (.notFound key)

/-- Carries a difference out: all removals in order, then all additions from `source` in order. -/
def patch (t : HashTree) (delta : TreeDiff) (source : HashTree) : Except TreeError HashTree := do
  delta.add.foldlM (supply source) (← delta.remove.foldlM withdraw t)

-----------------------------------------------------------------------------------------
-- Removals
-----------------------------------------------------------------------------------------

/-- A key that holds something can be withdrawn, and either way comes to clearing it. -/
theorem withdraw_ok (held : t.live? key ≠ none) : t.withdraw key = .ok (t.clear key) := by
  cases here : t.find? key with
  | none => exact absurd (live?_eq_none_of_find? here) held
  | some n =>
      rw [withdraw, here, Option.any_some]
      cases leaf : n.children.isEmpty with
      | false => rfl
      | true =>
          obtain ⟨found, popped⟩ := clear_of_leaf here leaf
          rw [remove, popped]
          rfl

/-- Keys that differ and hold something are all withdrawn, by induction on them: no removal takes
away what a later one needs.
-/
theorem withdrawAll_ok (built : t.Built) (plain : t.Unflagged) (distinct : keys.Nodup)
    (held : ∀ k ∈ keys, t.live? k ≠ none)
    : ∃ u, keys.foldlM withdraw t = .ok u ∧ u.Built ∧ u.Unflagged
        ∧ ∀ k, u.live? k = if k ∈ keys then none else t.live? k := by
  induction keys generalizing t with
  | nil => exact ⟨t, rfl, built, plain, fun k => rfl⟩
  | cons key rest ih =>
      obtain ⟨absent, distinct⟩ := List.nodup_cons.mp distinct
      obtain ⟨here, later⟩ := List.forall_mem_cons.mp held
      have shaped := built.wellFormed.shaped
      have still (k : Key) (hk : k ∈ rest) : (t.clear key).live? k ≠ none := by
        rw [live?_clear shaped, if_neg (ne_of_mem_of_not_mem hk absent)]
        exact later k hk
      obtain ⟨u, done, built', plain', live⟩ :=
        ih (built.cleared key) (plain.clear shaped key) distinct still
      refine ⟨u, ?_, built', plain', fun k => ?_⟩
      · rw [List.foldlM_cons, withdraw_ok here]
        exact done
      · rw [live, live?_clear shaped]
        by_cases same : k = key <;> simp [same]

-----------------------------------------------------------------------------------------
-- Additions
-----------------------------------------------------------------------------------------

/-- A tree that holds keys of one root only is a tree of that root. -/
theorem rootedAt_of_live (shaped : t.Shaped) (h : ∀ k, t.live? k ≠ none → k.root? = some root)
    : t.RootedAt root := by
  rintro ⟨other, n⟩ hr
  obtain ⟨kept, below⟩ := shaped other n hr
  obtain ⟨path, held⟩ := Node.exists_live below kept
  obtain ⟨_⟩ := t
  subst hr
  have named := h ⟨other :: path⟩ (by rw [live?_root]; exact Option.isSome_iff_ne_none.mp held)
  exact Option.some.inj named

/-- Every key that `source` holds is supplied to a tree of its root, by induction on the keys. -/
theorem supplyAll_ok (built : t.Built) (plain : t.Unflagged) (rooted : t.RootedAt root)
    (held : ∀ k ∈ keys, source.live? k ≠ none ∧ k.root? = some root)
    : ∃ u, keys.foldlM (supply source) t = .ok u ∧ u.Built ∧ u.Unflagged
        ∧ ∀ k, u.live? k = if k ∈ keys then source.live? k else t.live? k := by
  induction keys generalizing t with
  | nil => exact ⟨t, rfl, built, plain, fun k => rfl⟩
  | cons key rest ih =>
      obtain ⟨⟨here, ofRoot⟩, later⟩ := List.forall_mem_cons.mp held
      obtain ⟨attributes, hv⟩ := Option.ne_none_iff_exists'.mp here
      obtain ⟨n, hn, own⟩ := Option.bind_eq_some_iff.mp hv
      have same : n.content.attributes = attributes := by
        rw [Content.own?] at own
        split at own
        · cases own
        · exact Option.some.inj own
      obtain ⟨v, added, rooted'⟩ := addWith_ok rooted ofRoot attributes ∅
      obtain ⟨u, done, built', plain', live⟩ :=
        ih (built.added added) (plain.addWith rooted ofRoot added) rooted' later
      refine ⟨u, ?_, built', plain', fun k => ?_⟩
      · rw [List.foldlM_cons, supply, hn]
        dsimp only
        rw [same, add, added]
        exact done
      · rw [live, live?_addWith (Key.segments_ne_nil ofRoot) added]
        by_cases this : k = key <;> simp [this, hv]

-----------------------------------------------------------------------------------------
-- The whole difference
-----------------------------------------------------------------------------------------

/-- Nothing is left to do between trees that agree. -/
theorem Agree.diff_eq (h : t.Agree u) : t.diff u = {} := by
  obtain ⟨_ | ⟨root, n⟩⟩ := t <;> obtain ⟨_ | ⟨other, m⟩⟩ := u
  · rfl
  · have here := h ⟨[other]⟩
    simp [find?] at here
  · have here := h ⟨[root]⟩
    simp [find?] at here
  · have here := h ⟨[root]⟩
    by_cases apart : root = other
    · obtain ⟨-, own, whole⟩ : n.content.compared = m.content.compared
          ∧ n.partialHash = m.partialHash ∧ n.fullHash = m.fullHash := by
        simpa [find?, apart] using here
      subst apart
      simp only [diff, if_true]
      rw [Node.diff_eq, Node.ownDiff, if_pos own, if_pos (by simp [whole])]
      rfl
    · simp [find?, apart] at here

/-- All keys of a tree have one root. -/
theorem exists_rootedAt (t : HashTree) : ∃ root, t.RootedAt root := by
  obtain ⟨_ | ⟨root, n⟩⟩ := t
  · exact ⟨"", rootedAt_empty ""⟩
  · exact ⟨root, fun r hr => by cases hr; rfl⟩

/-- Withdrawing what only theirs holds and supplying what mine holds otherwise gives mine. -/
theorem live?_carriedOut {delta : TreeDiff}
    (add : k ∈ delta.add
      ↔ ∃ attributes, desired.live? k = some attributes ∧ observed.live? k ≠ some attributes)
    (remove : k ∈ delta.remove ↔ desired.live? k = none ∧ observed.live? k ≠ none)
    : (if k ∈ delta.add then desired.live? k
        else if k ∈ delta.remove then none else observed.live? k)
      = desired.live? k := by
  split
  · rfl
  · rename_i kept
    split
    · rename_i gone
      exact (remove.mp gone).1.symm
    · rename_i stays
      cases want : desired.live? k with
      | none =>
          by_contra held
          exact stays (remove.mpr ⟨want, held⟩)
      | some attributes =>
          by_contra differs
          exact kept (add.mpr ⟨attributes, want, differs⟩)

/-- Carrying the difference of two unflagged trees out makes the one agree with the other, whatever
their roots: every removal finds its node and every addition its root, the outcome has the nodes
and hashes of the tree that was asked for, and nothing is left to do.
-/
theorem patch_converges (hd : desired.Built) (ho : observed.Built) (fd : desired.Unflagged)
    (fo : observed.Unflagged) (h : desired.Distinguishable observed)
    : ∃ u, observed.patch (desired.diff observed) desired = .ok u
        ∧ u.Agree desired ∧ u.same desired = true ∧ desired.diff u = {} := by
  have listed := mem_diff_of_unflagged hd.wellFormed ho.wellFormed h fd fo
  obtain ⟨-, -, -, -, distinct, -⟩ := diff_spec hd ho h
  obtain ⟨root, rooted⟩ := desired.exists_rootedAt
  obtain ⟨left, removed, builtLeft, plainLeft, liveLeft⟩ :=
    withdrawAll_ok ho fo distinct fun k hk => ((listed k).2.mp hk).2
  -- What stands after the removals is desired, so it has the root of what is desired.
  have desiredLeft (k : Key) (held : left.live? k ≠ none) : desired.live? k ≠ none := by
    rw [liveLeft] at held
    split at held
    · exact absurd rfl held
    · rename_i kept
      exact fun absent => kept ((listed k).2.mpr ⟨absent, held⟩)
  have rootedLeft : left.RootedAt root :=
    rootedAt_of_live builtLeft.wellFormed.shaped fun k held =>
      rooted.root?_of_live? (desiredLeft k held)
  have wanted (k : Key) (hk : k ∈ (desired.diff observed).add)
      : desired.live? k ≠ none ∧ k.root? = some root := by
    obtain ⟨attributes, held, -⟩ := (listed k).1.mp hk
    have held : desired.live? k ≠ none := by simp [held]
    exact ⟨held, rooted.root?_of_live? held⟩
  obtain ⟨u, added, built, plain, live⟩ := supplyAll_ok builtLeft plainLeft rootedLeft wanted
  have same (k : Key) : u.live? k = desired.live? k := by
    rw [live, liveLeft]
    exact live?_carriedOut (listed k).1 (listed k).2
  have agree : u.Agree desired := plain.agree fd built.wellFormed hd.wellFormed same
  refine ⟨u, ?_, agree, agree.same, Agree.diff_eq fun k => (agree k).symm⟩
  rw [patch, removed]
  exact added

/-- The tree that holds something at these keys, without attributes. -/
def holding (keys : List Key) : HashTree :=
  ((∅ : HashTree).addAll (keys.map fun k => (k, ∅))).1

theorem built_holding (keys : List Key) : (holding keys).Built :=
  Built.empty.included _

/-- The root is cleared and then goes with its child, which makes room for another root. -/
theorem patch_converges_nested
    : ((holding [⟨["s"]⟩]).diff (holding [⟨["r"]⟩, ⟨["r", "a"]⟩])).remove
        = [⟨["r"]⟩, ⟨["r", "a"]⟩]
      ∧ ∃ u, (holding [⟨["r"]⟩, ⟨["r", "a"]⟩]).patch
          ((holding [⟨["s"]⟩]).diff (holding [⟨["r"]⟩, ⟨["r", "a"]⟩])) (holding [⟨["s"]⟩]) = .ok u
        ∧ u.Agree (holding [⟨["s"]⟩]) ∧ u.same (holding [⟨["s"]⟩]) = true
        ∧ (holding [⟨["s"]⟩]).diff u = {} := by
  have apart : (holding [⟨["s"]⟩]).Distinguishable (holding [⟨["r"]⟩, ⟨["r", "a"]⟩]) :=
    (built_holding _).distinguishable (built_holding _) (by decide +kernel) (by decide +kernel)
  exact ⟨by decide +kernel, patch_converges (built_holding _) (built_holding _)
    (unflagged_addAll _) (unflagged_addAll _) apart⟩

end Concord.HashTree
