import Concord.Proofs.Backend.FlagNews

/-! Changes that carry flags. A tree that follows a stream goes on to have the flags of a load just
when each change carries them: what has a node afterwards is marked just when it was marked and had
a node before. More is asked while a load is still to come, since what is queued by then is played
on a tree that is ahead of it.
-/

namespace Concord

-----------------------------------------------------------------------------------------
-- Changes between two states of a backend
-----------------------------------------------------------------------------------------

/-- The tree flags what a load of the root and kind flags. -/
def HashTree.FlaggedAs (t : HashTree) (m : Memory) (root : String) (kind : TreeKind) : Prop :=
  ∀ k, t.flagged k = true ↔ m.Flags root kind k

/-- A change that is none of a flag only takes flags away, with their nodes. -/
theorem HashTree.flagged_play_plain {t : HashTree} {root : String} {change? : Option TreeEvent}
    (h : t.Follower root) (plain : ∀ e ∈ change?, e.flags = false ∧ e.Fits root) (k : Key)
    : (t.play change?.toList).flagged k = true
      ↔ t.flagged k = true ∧ (t.play change?.toList).Stands k := by
  cases change? with
  | none => exact ⟨fun flagged => ⟨flagged, stands_of_flagged flagged⟩, And.left⟩
  | some e =>
      obtain ⟨flagless, fits⟩ := plain e rfl
      have after := flagged_follow h fits k
      rwa [TreeEvent.flagAfter_of_plain flagless] at after

namespace Memory

variable {m m' : Memory} {id : Nat} {root : String} {kind : TreeKind} {k key : Key}
  {queue : List TreeEvent} {t : HashTree} {change? : Option TreeEvent} {error : Bool}

/-- The change carries the flags of the root and kind: what has a node afterwards is marked
afterwards just when it was marked and had a node before. -/
def Carries (root : String) (kind : TreeKind) (m m' : Memory) : Prop :=
  ∀ k, m'.Stands root kind k → (k ∈ m'.errors ↔ m.Flags root kind k)

/-- The change keeps the marks of the root: none comes or goes, and what is marked is shown before
and after, unless nothing that is shown changes. -/
def Keeps (root : String) (kind : TreeKind) (m m' : Memory) : Prop :=
  ∀ k, k.root? = some root →
    (k ∈ m'.errors ↔ k ∈ m.errors)
    ∧ (k ∈ m.errors →
        m.Shows root kind k ∧ m'.Shows root kind k
        ∨ ∀ j, m'.projected root kind j = m.projected root kind j)

/-- What keeps marks carries flags. -/
theorem Keeps.carries (h : Keeps root kind m m') : Carries root kind m m' := by
  intro k stands
  obtain ⟨marks, shown⟩ := h k stands.1
  refine ⟨fun marked' => ?_, fun flags => marks.mpr flags.1⟩
  have marked := marks.mp marked'
  rcases shown marked with ⟨before, -⟩ | same
  · exact ⟨marked, before.stands⟩
  · exact ⟨marked, (stands_congr same).mp stands⟩

theorem keeps_of_eq (ho : m'.objects = m.objects) (he : m'.errors = m.errors)
    : Keeps root kind m m' :=
  fun k _ => ⟨by rw [he], fun _ => .inr fun j => projected_congr ho⟩

theorem Listens.unique {root' : String} {kind' : TreeKind} {queue' : List TreeEvent}
    (h : m.Listens id root kind queue) (h' : m.Listens id root' kind' queue')
    : queue = queue' := by
  cases h.symm.trans h'
  rfl

-----------------------------------------------------------------------------------------
-- Trees that are up to date
-----------------------------------------------------------------------------------------

/-- After a change that is none of a flag the tree has the flags of a load just when the change
carries them. -/
theorem flaggedAs_plain_iff (told : t.FlaggedAs m root kind) (h : t.Follower root)
    (plain : ∀ e ∈ change?, e.flags = false ∧ e.Fits root)
    (live : ∀ k, (t.play change?.toList).live? k = m'.projected root kind k)
    : (t.play change?.toList).FlaggedAs m' root kind ↔ Carries root kind m m' := by
  have follower : (t.play change?.toList).Follower root :=
    h.play fun e he => (plain e (Option.mem_toList.mp he)).2
  have here (k : Key)
      : (t.play change?.toList).flagged k = true
        ↔ m.Flags root kind k ∧ m'.Stands root kind k := by
    rw [HashTree.flagged_play_plain h plain, told, stands_of_live follower live]
  constructor
  · intro told' k stands
    have same := (here k).symm.trans (told' k)
    exact ⟨fun marked => (same.mpr ⟨marked, stands⟩).1, fun flags => (same.mp ⟨flags, stands⟩).1⟩
  · intro carries k
    rw [here, Flags]
    exact and_congr_left fun stands => (carries k stands).symm

theorem shows_markError (m : Memory) (j : Key) (error : Bool)
    : (m.markError j error).Shows root kind k ↔ m.Shows root kind k :=
  shows_congr fun _ => projected_congr (objects_markError m j error)

theorem stands_markError (m : Memory) (j : Key) (error : Bool)
    : (m.markError j error).Stands root kind k ↔ m.Stands root kind k :=
  stands_congr fun _ => projected_congr (objects_markError m j error)

theorem Shows.there (h : m.Shows root kind k) : m.objects[k]?.isSome = true := by
  have own := h.own
  rw [Shows, projected, if_pos own] at h
  cases there : m.objects[k]? with
  | none => simp [there] at h
  | some o => rfl

/-- The tree has the flags of a load after it was told of a mark. -/
theorem flaggedAs_told_mark (told : t.FlaggedAs m root kind) (h : t.Follower root)
    (live : ∀ k, t.live? k = m.projected root kind k) (shows : m.Shows root kind key)
    : (t.play [.markError key error]).FlaggedAs (m.markError key error) root kind := by
  intro k
  have fits : (TreeEvent.markError key error).Fits root := trivial
  have after : (t.follow (.markError key error)).Stands k ↔ m.Stands root kind k :=
    stands_of_live (h.follow fits) fun k => by
      rw [HashTree.live?_follow h fits, TreeEvent.effect, live]
  refine (HashTree.flagged_follow h fits k).trans ?_
  rw [after, Flags, mem_errors_markError shows.there, stands_markError, TreeEvent.flagAfter]
  refine and_congr_left fun stands => ?_
  split
  · rfl
  · rw [told]
    exact and_iff_left stands

/-- A mark that a tree is not told of carries the flags just when the tree still has those of a
load. -/
theorem flaggedAs_untold_mark_iff (told : t.FlaggedAs m root kind)
    : t.FlaggedAs (m.markError key error) root kind
      ↔ Carries root kind m (m.markError key error) := by
  constructor
  · intro told' k stands
    rw [← told, told', Flags]
    exact (and_iff_left stands).symm
  · intro carries k
    rw [told, Flags]
    constructor
    · intro flags
      have stands := (stands_markError m key error).mpr flags.2
      exact ⟨(carries k stands).mpr flags, stands⟩
    · rintro ⟨marked, stands⟩
      exact (carries k stands).mp marked

-----------------------------------------------------------------------------------------
-- Streams that wait for a load
-----------------------------------------------------------------------------------------

/-- What the stream is told so far leaves the flags of any tree as they are marked now: flags of
marked objects stay, and no key that is not marked is flagged.
-/
def Primed (m : Memory) (root : String) (kind : TreeKind) (queue : List TreeEvent) : Prop :=
  ∀ (t : HashTree) (k : Key), t.Follower root →
    (k ∈ m.errors → (m.Shows root kind k → (t.live? k).isSome = true) → t.flagged k = true →
      (t.play queue).flagged k = true)
    ∧ (k ∉ m.errors → t.flagged k = false → (t.play queue).flagged k = false)

/-- The queue leads to what is shown at the key, or does not touch it. -/
def Reaches (m : Memory) (root : String) (kind : TreeKind) (queue : List TreeEvent) : Prop :=
  ∀ k, (∀ v, replay queue k v = v) ∨ ∀ v, replay queue k v = m.projected root kind k

theorem primed_nil (m : Memory) (root : String) (kind : TreeKind) : m.Primed root kind [] :=
  fun _ _ _ => ⟨fun _ _ flagged => flagged, fun _ unflagged => unflagged⟩

/-- A key that a tree holds and the backend shows is held after the queue as well. -/
theorem Reaches.stands (h : m.Reaches root kind queue) (ht : t.Follower root)
    (fits : ∀ e ∈ queue, e.Fits root) (shows : m.Shows root kind k)
    (live : (t.live? k).isSome = true)
    : (t.play queue).Stands k := by
  have follower := ht.play fits
  refine (HashTree.stands_iff follower.shaped follower.rooted).mpr ⟨shows.own, [], ?_⟩
  rw [Key.below_nil, HashTree.live?_play ht fits]
  rcases h k with same | leads
  · rw [same]
    exact live
  · rw [leads]
    exact shows

/-- A change that keeps the marks leaves the stream primed. -/
theorem Primed.plain (h : m.Primed root kind queue)
    (fits : ∀ e ∈ queue ++ change?.toList, e.Fits root)
    (plain : ∀ e ∈ change?, e.flags = false ∧ e.Fits root)
    (unmoved : (∀ k, m'.projected root kind k = m.projected root kind k) → change? = none)
    (reaches : m'.Reaches root kind (queue ++ change?.toList)) (keeps : Keeps root kind m m')
    : m'.Primed root kind (queue ++ change?.toList) := by
  intro t k ht
  have before : (t.play queue).Follower root :=
    ht.play fun e he => fits e (List.mem_append_left _ he)
  have after : (t.play (queue ++ change?.toList)).Follower root := ht.play fits
  have last := HashTree.flagged_play_plain before plain k
  rw [← HashTree.play_append] at last
  refine ⟨fun marked' live flagged => ?_, fun unmarked' unflagged => ?_⟩
  · have own : k.root? = some root :=
      ((HashTree.stands_iff ht.shaped ht.rooted).mp (HashTree.stands_of_flagged flagged)).1
    obtain ⟨marks, shown⟩ := keeps k own
    have marked := marks.mp marked'
    rcases shown marked with ⟨-, shows'⟩ | same
    · have held := live shows'
      have first := (h t k ht).1 marked (fun _ => held) flagged
      exact last.mpr ⟨first, reaches.stands ht fits shows' held⟩
    · cases unmoved same
      rw [Option.toList_none, List.append_nil]
      exact (h t k ht).1 marked (fun shows => live ((shows_congr same).mpr shows)) flagged
  · rw [Bool.eq_false_iff]
    intro flagged
    obtain ⟨first, stands⟩ := last.mp flagged
    have own := ((HashTree.stands_iff after.shaped after.rooted).mp stands).1
    have unmarked : k ∉ m.errors := mt (keeps k own).1.mpr unmarked'
    rw [(h t k ht).2 unmarked unflagged] at first
    cases first

/-- A mark of a shown object leaves the stream primed. -/
theorem Primed.told_mark (h : m.Primed root kind queue) (fits : ∀ e ∈ queue, e.Fits root)
    (reaches : m.Reaches root kind queue) (shows : m.Shows root kind key)
    : (m.markError key error).Primed root kind (queue ++ [.markError key error]) := by
  intro t k ht
  have before : (t.play queue).Follower root := ht.play fits
  have fit : (TreeEvent.markError key error).Fits root := trivial
  have last := HashTree.flagged_follow before fit k
  have nodes : ((t.play queue).follow (.markError key error)).Stands k
      ↔ (t.play queue).Stands k := by
    rw [HashTree.stands_iff (before.follow fit).shaped (before.follow fit).rooted,
      HashTree.stands_iff before.shaped before.rooted]
    simp only [HashTree.live?_follow before fit, TreeEvent.effect]
  rw [nodes, TreeEvent.flagAfter] at last
  rw [HashTree.play_append, mem_errors_markError shows.there, shows_markError]
  refine ⟨fun marked' live flagged => last.mpr ?_, fun unmarked' unflagged => ?_⟩
  · by_cases here : k = key
    · subst here
      rw [if_pos rfl] at marked' ⊢
      exact ⟨marked', reaches.stands ht fits shows (live shows)⟩
    · rw [if_neg here] at marked' ⊢
      have first := (h t k ht).1 marked' live flagged
      exact ⟨first, HashTree.stands_of_flagged first⟩
  · rw [Bool.eq_false_iff]
    intro flagged
    obtain ⟨flag, -⟩ := last.mp flagged
    by_cases here : k = key
    · rw [if_pos here] at unmarked' flag
      exact unmarked' flag
    · rw [if_neg here] at unmarked' flag
      rw [(h t k ht).2 unmarked' unflagged] at flag
      cases flag

/-- A mark that the stream's trees are not told of leaves it primed if it changes nothing. -/
theorem Primed.untold_mark {queue' : List TreeEvent} (h : m.Primed root kind queue)
    (fits : ∀ e ∈ queue, e.Fits root) (keeps : Keeps root kind m (m.markError key error))
    (silent : ∀ t : HashTree, t.Follower root → t.play queue' = t.play queue)
    : (m.markError key error).Primed root kind queue' := by
  intro t k ht
  have after : (t.play queue).Follower root := ht.play fits
  rw [shows_markError, silent t ht]
  refine ⟨fun marked' live flagged => ?_, fun unmarked' unflagged => ?_⟩
  · have own := ((HashTree.stands_iff ht.shaped ht.rooted).mp
      (HashTree.stands_of_flagged flagged)).1
    exact (h t k ht).1 ((keeps k own).1.mp marked') live flagged
  · rw [Bool.eq_false_iff]
    intro flagged
    have own := ((HashTree.stands_iff after.shaped after.rooted).mp
      (HashTree.stands_of_flagged flagged)).1
    rw [(h t k ht).2 (mt (keeps k own).1.mpr unmarked') unflagged] at flagged
    cases flagged

/-- A tree loaded from a primed stream's backend has the flags of a load once it has taken what is
queued. -/
theorem Primed.loaded (h : m.Primed root kind queue) (ht : t.Follower root)
    (fits : ∀ e ∈ queue, e.Fits root) (live : ∀ k, t.live? k = m.projected root kind k)
    (leads : ∀ k, (t.play queue).live? k = m.projected root kind k)
    (flags : ∀ k, t.flagged k = true ↔ m.Flags root kind k)
    : (t.play queue).FlaggedAs m root kind := by
  intro k
  constructor
  · intro flagged
    have stands := (stands_of_live (ht.play fits) leads).mp (HashTree.stands_of_flagged flagged)
    refine ⟨?_, stands⟩
    by_contra unmarked
    have unflagged : t.flagged k = false := by
      rw [Bool.eq_false_iff]
      intro flagged
      exact unmarked ((flags k).mp flagged).1
    rw [(h t k ht).2 unmarked unflagged] at flagged
    cases flagged
  · intro flags'
    refine (h t k ht).1 flags'.1 (fun shows => ?_) ((flags k).mpr flags')
    rw [live]
    exact shows

end Memory

end Concord
