import Concord.Proofs.Backend.Announcements
import Concord.Proofs.HashTree.Unflagged

/-! Flags of trees that follow a stream. A change moves no flags but the one it names, and a flag
goes with its node; so the flags of a tree that has taken some changes follow from the flags it
had, the flags that were named, and from what still stands.
-/

namespace Concord

/-- What a change makes of the flag at a key, as long as there is a node. -/
def TreeEvent.flagAfter (k : Key) (flagged : Bool) : TreeEvent → Bool
  | .markError key error => if k = key then error else flagged
  | .upsert _ _ _ | .delete _ => flagged

/-- A change that is not one of a flag keeps all flags as long as there is a node. -/
theorem TreeEvent.flagAfter_of_plain {e : TreeEvent} (h : e.flags = false) (k : Key)
    (flagged : Bool)
    : e.flagAfter k flagged = flagged := by
  cases e with
  | upsert | delete => rfl
  | markError => cases h

namespace HashTree

variable {t u : HashTree} {root : String} {k : Key}

/-- There is a node at the key. -/
def Stands (t : HashTree) (k : Key) : Prop :=
  (t.find? k).isSome = true

theorem flagged_eq (t : HashTree) (k : Key)
    : t.flagged k = (t.content? k).any Content.error := by
  rw [flagged, content?, Option.any_map]
  rfl

theorem stands_iff_content : t.Stands k ↔ (t.content? k).isSome = true := by
  rw [Stands, content?, Option.isSome_map]

/-- Only nodes are flagged. -/
theorem stands_of_flagged (h : t.flagged k = true) : t.Stands k := by
  obtain ⟨n, hn, -⟩ := (Option.any_eq_true _ _).mp h
  rw [Stands, hn]
  rfl

/-- There is a node at a key of the root just when something is held there or below. -/
theorem stands_iff (ht : t.Shaped) (rooted : t.RootedAt root)
    : t.Stands k ↔ k.root? = some root ∧ ∃ path, (t.live? (k.below path)).isSome = true := by
  obtain ⟨_ | ⟨own, n⟩⟩ := t
  · simp [Stands, find?, live?]
  · obtain rfl : own = root := rooted _ rfl
    obtain ⟨kept, shaped⟩ := ht own n rfl
    induction k using Key.rootCases own with
    | foreign k hk => simp [Stands, find?_eq_none_of_root rfl hk, hk]
    | below path =>
        rw [Stands, find?_root, Node.isSome_descend?_iff shaped kept]
        simp [Key.below, Key.root?]

-----------------------------------------------------------------------------------------
-- Single operations
-----------------------------------------------------------------------------------------

/-- Adding flags nothing and unflags nothing. -/
theorem flagged_addWith (rooted : t.RootedAt root) (hk : k.root? = some root)
    {attributes : Attributes} {metadata : Metadata}
    (added : t.addWith k attributes metadata = .ok u) (j : Key)
    : u.flagged j = t.flagged j := by
  obtain ⟨v, hv, contents⟩ := content?_addWith rooted hk attributes metadata
  cases hv.symm.trans added
  rw [flagged_eq, flagged_eq, contents]
  split
  · rename_i here
    rw [here]
    cases t.content? k <;> rfl
  · split
    · cases t.content? j <;> rfl
    · rfl

/-- Clearing a key takes away the flags of the nodes that go with it, and no others. -/
theorem flagged_clear (ht : t.Shaped) (k j : Key)
    : (t.clear k).flagged j = true ↔ t.flagged j = true ∧ (t.clear k).Stands j := by
  have kept : (t.clear k).Stands j → (t.clear k).flagged j = t.flagged j := by
    intro stands
    rw [flagged_eq, flagged_eq]
    cases hn : t.find? k with
    | none => rw [clear_of_absent hn]
    | some n =>
        rw [stands_iff_content, content?_clear ht hn] at stands
        rw [content?_clear ht hn]
        split
        · rename_i leaf
          rw [if_pos leaf] at stands
          split
          · rename_i gone
            simp [gone] at stands
          · rfl
        · split
          · rename_i here
            rw [here, content?, hn]
            rfl
          · rfl
  constructor
  · intro flagged
    have stands := stands_of_flagged flagged
    exact ⟨kept stands ▸ flagged, stands⟩
  · rintro ⟨flagged, stands⟩
    rw [kept stands, flagged]

/-- Flags are set where there is a node. -/
theorem flagged_setError (ht : t.Shaped) {error : Bool} (h : t.setError k error = .ok u) (j : Key)
    : u.flagged j = if j = k then error else t.flagged j := by
  cases hn : t.find? k with
  | none =>
      have absent := t.isSome_change? (fun c => { c with error }) k
      rw [hn, Option.isSome_none, Option.isSome_eq_false_iff, Option.isNone_iff_eq_none] at absent
      rw [setError, absent] at h
      cases h
  | some n =>
      obtain ⟨v, hv, contents⟩ := content?_setError ht hn error
      cases hv.symm.trans h
      rw [flagged_eq, flagged_eq, contents]
      split <;> rfl

/-- Where no flag can be set there is no node. -/
theorem not_stands_of_setError (ht : t.Shaped) {error : Bool} {e : TreeError}
    (h : t.setError k error = .error e)
    : ¬ t.Stands k := by
  intro stands
  obtain ⟨n, hn⟩ := Option.isSome_iff_exists.mp stands
  obtain ⟨v, hv, -⟩ := content?_setError ht hn error
  cases hv.symm.trans h

-----------------------------------------------------------------------------------------
-- Changes from a stream
-----------------------------------------------------------------------------------------

/-- The tree after a change; one that does not fit is dropped. -/
def follow (t : HashTree) (e : TreeEvent) : HashTree :=
  (t.apply e).toOption.getD t

/-- The tree after some changes. -/
def play (t : HashTree) (queue : List TreeEvent) : HashTree :=
  queue.foldl follow t

theorem play_append (t : HashTree) (queue more : List TreeEvent)
    : t.play (queue ++ more) = (t.play queue).play more :=
  List.foldl_append

/-- What is asked of a tree that follows a stream of a root. -/
structure Follower (t : HashTree) (root : String) : Prop where
  formed : t.WellFormed
  rooted : t.RootedAt root

theorem Follower.shaped (h : t.Follower root) : t.Shaped :=
  h.formed.shaped

theorem Follower.follow {e : TreeEvent} (h : t.Follower root) (fits : e.Fits root)
    : (t.follow e).Follower root := by
  rw [HashTree.follow]
  cases ha : t.apply e with
  | error error => exact h
  | ok u => exact ⟨h.formed.apply Node.stable_intact ha, h.rooted.apply fits ha⟩

theorem Follower.play {queue : List TreeEvent} (h : t.Follower root)
    (fits : ∀ e ∈ queue, e.Fits root)
    : (t.play queue).Follower root := by
  induction queue generalizing t with
  | nil => exact h
  | cons e rest ih =>
      obtain ⟨first, later⟩ := List.forall_mem_cons.mp fits
      exact ih (h.follow first) later

theorem live?_follow {e : TreeEvent} (h : t.Follower root) (fits : e.Fits root) (k : Key)
    : (t.follow e).live? k = e.effect k (t.live? k) := by
  rw [follow]
  cases ha : t.apply e with
  | error error => exact (live?_apply_error h.rooted fits ha k (t.live? k)).symm
  | ok u => exact live?_apply h.shaped fits ha k

/-- A tree holds what its changes make of what it held, by list induction. -/
theorem live?_play {queue : List TreeEvent} (h : t.Follower root) (fits : ∀ e ∈ queue, e.Fits root)
    (k : Key)
    : (t.play queue).live? k = replay queue k (t.live? k) := by
  induction queue generalizing t with
  | nil => rfl
  | cons e rest ih =>
      obtain ⟨first, later⟩ := List.forall_mem_cons.mp fits
      rw [replay_cons, ← live?_follow h first]
      exact ih (h.follow first) later

/-- A node is flagged after a change just when it stands and was flagged before, or is now. -/
theorem flagged_follow {e : TreeEvent} (h : t.Follower root) (fits : e.Fits root) (k : Key)
    : (t.follow e).flagged k = true
      ↔ e.flagAfter k (t.flagged k) = true ∧ (t.follow e).Stands k := by
  have simple (flag : (t.follow e).flagged k = e.flagAfter k (t.flagged k))
      : (t.follow e).flagged k = true
        ↔ e.flagAfter k (t.flagged k) = true ∧ (t.follow e).Stands k := by
    rw [← flag]
    exact ⟨fun flagged => ⟨flagged, stands_of_flagged flagged⟩, And.left⟩
  cases e with
  | upsert key attributes metadata =>
      obtain ⟨u, added, -⟩ := addWith_ok h.rooted fits attributes metadata
      have followed : t.follow (.upsert key attributes metadata) = u := by
        rw [follow, apply, added]
        rfl
      refine simple ?_
      rw [followed]
      exact flagged_addWith h.rooted fits added k
  | delete key =>
      have followed : t.follow (.delete key) = t.clear key := by
        rw [follow, apply, discard_eq_clear]
        rfl
      rw [followed]
      exact flagged_clear h.shaped key k
  | markError key error =>
      cases set : t.setError key error with
      | ok u =>
          have followed : t.follow (.markError key error) = u := by
            rw [follow, apply, set]
            rfl
          refine simple ?_
          rw [followed]
          exact flagged_setError h.shaped set k
      | error e =>
          have followed : t.follow (.markError key error) = t := by
            rw [follow, apply, set]
            rfl
          have absent := not_stands_of_setError h.shaped set
          rw [followed, TreeEvent.flagAfter]
          split
          · rename_i here
            subst here
            exact ⟨fun flagged => absurd (stands_of_flagged flagged) absent,
              fun ⟨_, stands⟩ => absurd stands absent⟩
          · exact ⟨fun flagged => ⟨flagged, stands_of_flagged flagged⟩, And.left⟩

end HashTree

end Concord
