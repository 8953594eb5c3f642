import Concord.Proofs.Backend.Flags

/-! Flags that a load sets, and what streams are told of them. A load flags what is marked and
stands. A stream is told of a mark only where the object is shown; so a tree that follows the stream
keeps the flags of a load just as long as every change carries them.
-/

namespace Concord

namespace Memory

variable {m m' : Memory} {id : Nat} {root : String} {kind : TreeKind} {k key : Key}
  {queue : List TreeEvent} {t : HashTree}

-----------------------------------------------------------------------------------------
-- What a load flags
-----------------------------------------------------------------------------------------

/-- The trees of the root and kind show an object at the key. -/
def Shows (m : Memory) (root : String) (kind : TreeKind) (k : Key) : Prop :=
  (m.projected root kind k).isSome = true

/-- The trees of the root and kind have a node at the key: they show an object there or below. -/
def Stands (m : Memory) (root : String) (kind : TreeKind) (k : Key) : Prop :=
  k.root? = some root ∧ ∃ path, m.Shows root kind (k.below path)

/-- A load of the root and kind flags the key: it is marked, and there is a node. -/
def Flags (m : Memory) (root : String) (kind : TreeKind) (k : Key) : Prop :=
  k ∈ m.errors ∧ m.Stands root kind k

theorem Shows.own (h : m.Shows root kind k) : k.root? = some root := by
  rw [Shows, projected] at h
  split at h
  · assumption
  · cases h

theorem Shows.stands (h : m.Shows root kind k) : m.Stands root kind k :=
  ⟨h.own, [], by rwa [Key.below_nil]⟩

theorem shows_congr (same : ∀ k, m'.projected root kind k = m.projected root kind k)
    : m'.Shows root kind k ↔ m.Shows root kind k := by
  rw [Shows, Shows, same]

theorem stands_congr (same : ∀ k, m'.projected root kind k = m.projected root kind k)
    : m'.Stands root kind k ↔ m.Stands root kind k := by
  simp only [Stands, shows_congr same]

/-- A tree that holds what is shown has nodes where the trees of the root and kind have them. -/
theorem stands_of_live (h : t.Follower root) (live : ∀ k, t.live? k = m.projected root kind k)
    : t.Stands k ↔ m.Stands root kind k := by
  rw [HashTree.stands_iff h.shaped h.rooted]
  simp only [live, Stands, Shows]

/-- Setting flags where that is possible is to follow the marks of these keys. -/
theorem flagAll_eq_play (keys : List Key) (t : HashTree)
    : flagAll root keys t
      = t.play ((keys.filter fun k => k.root? = some root).map fun k => .markError k true) := by
  induction keys generalizing t with
  | nil => rfl
  | cons key rest ih =>
      rw [flagAll, List.foldl_cons, List.filter_cons]
      by_cases own : key.root? = some root
      · simp only [own, if_true, decide_true, List.map_cons]
        refine (ih _).trans (congrArg (fun u : HashTree => u.play _) ?_)
        rw [HashTree.follow, HashTree.apply]
        cases t.setError key true <;> rfl
      · simp only [own, if_false, decide_false, Bool.false_eq_true]
        exact ih t

/-- Marks flag the keys that have nodes, by list induction. -/
theorem flagged_play_marks (h : t.Follower root) (keys : List Key)
    : (t.play (keys.map fun k => .markError k true)).flagged k = true
      ↔ t.flagged k = true ∨ k ∈ keys ∧ t.Stands k := by
  induction keys generalizing t with
  | nil => simp [HashTree.play]
  | cons key rest ih =>
      have fits : (TreeEvent.markError key true).Fits root := trivial
      have follower := h.follow fits
      have nodes : (t.follow (.markError key true)).Stands k ↔ t.Stands k := by
        rw [HashTree.stands_iff follower.shaped follower.rooted,
          HashTree.stands_iff h.shaped h.rooted]
        simp only [HashTree.live?_follow h fits, TreeEvent.effect]
      have here := HashTree.flagged_follow h fits k
      have before : t.flagged k = true → t.Stands k := HashTree.stands_of_flagged
      rw [List.map_cons, HashTree.play, List.foldl_cons]
      refine (ih follower).trans ?_
      rw [here, nodes, TreeEvent.flagAfter, List.mem_cons]
      by_cases same : k = key <;> simp only [same, if_true, if_false] <;> grind

/-- A load adds the objects that are shown, and then flags what is marked. -/
theorem load_eq_flagAll (m : Memory) (root : String) (kind : TreeKind)
    : m.load root kind
      = .ok (flagAll root m.errors.toList ((∅ : HashTree).addAll (m.projection root kind)).1) := by
  obtain ⟨t, ht, -⟩ :=
    HashTree.addAll_ok (HashTree.rootedAt_empty root)
      (fun item hi => root_of_mem_projection hi) (distinct_projection m root kind)
  have added : HashTree.empty.addAll (m.projection root kind) = _ := ht
  rw [load, added, ht]
  rfl

/-- A load succeeds, holds what is shown, and flags what is marked and has a node. -/
theorem load_flags (m : Memory) (root : String) (kind : TreeKind)
    : ∃ t, m.load root kind = .ok t ∧ t.Follower root
        ∧ (∀ k, t.live? k = m.projected root kind k)
        ∧ ∀ k, t.flagged k = true ↔ m.Flags root kind k := by
  obtain ⟨t, loaded, built, rooted, live⟩ := m.load_spec root kind
  have follower : t.Follower root := ⟨built.wellFormed, rooted⟩
  obtain ⟨bare, added, bareRooted, -⟩ :=
    HashTree.addAll_ok (HashTree.rootedAt_empty root)
      (fun item hi => root_of_mem_projection hi) (distinct_projection m root kind)
  have flags := load_eq_flagAll m root kind
  have plain := HashTree.unflagged_addAll (m.projection root kind)
  have bareBuilt := HashTree.Built.empty.included (m.projection root kind)
  rw [added] at flags plain bareBuilt
  have before : bare.Follower root := ⟨bareBuilt.wellFormed, bareRooted⟩
  have same := (flagAll_spec m.errors.toList bareBuilt bareRooted).2.2
  obtain rfl : t = flagAll root m.errors.toList bare := by
    rw [loaded] at flags
    exact Except.ok.inj flags
  refine ⟨_, loaded, follower, live, fun k => ?_⟩
  have unflagged : bare.flagged k = false := by
    rw [HashTree.flagged, Option.any_eq_false]
    intro n hn
    simp [plain k n hn]
  have nodes : bare.Stands k ↔ m.Stands root kind k :=
    stands_of_live before fun k => by rw [← same, live]
  rw [flagAll_eq_play, flagged_play_marks before, unflagged, nodes, Flags, List.mem_filter,
    Std.ExtTreeSet.mem_toList]
  simp only [Bool.false_eq_true, false_or, decide_eq_true_eq]
  constructor
  · rintro ⟨⟨marked, -⟩, stands⟩
    exact ⟨marked, stands⟩
  · rintro ⟨marked, stands⟩
    exact ⟨⟨marked, stands.1⟩, stands⟩

-----------------------------------------------------------------------------------------
-- What streams are told
-----------------------------------------------------------------------------------------

/-- From one state to another every stream was given at most one change, which is none of a flag,
and none at all where what the stream's trees show has stayed.
-/
structure Plain (m m' : Memory) : Prop where
  announces : m.Announces m'
  news : ∀ id root kind queue, m.Listens id root kind queue →
    ∃ change? : Option TreeEvent, m'.Listens id root kind (queue ++ change?.toList)
      ∧ (∀ e ∈ change?, e.flags = false ∧ e.Fits root)
      ∧ ((∀ k, m'.projected root kind k = m.projected root kind k) → change? = none)

theorem plain_of_eq (ho : m'.objects = m.objects) (hc : m'.channels = m.channels)
    : m.Plain m' where
  announces := announces_of_eq ho hc
  news := fun id root kind queue listens => by
    refine ⟨none, ?_, by simp, fun _ => rfl⟩
    rw [Option.toList_none, List.append_nil, Listens, hc]
    exact listens

theorem plain_write (m : Memory) (key : Key) (object : Option StoredObject)
    : m.Plain (m.write key object) where
  announces := m.announces_write key object
  news := fun id root kind queue listens => by
    by_cases own : key.root? = some root
    · refine ⟨change? key kind m.objects[key]? object, ?_, fun e he => ⟨?_, ?_⟩, fun same => ?_⟩
      · have channels : (m.write key object).channels
            = m.channels.announce root fun kind => change? key kind m.objects[key]? object := by
          simp only [write, notify, own]
          rfl
        rw [Listens, channels, Channels.get?_announce, listens]
        simp
      · rw [change?] at he
        split at he
        · split at he <;> cases he
          rfl
        · split at he <;> cases he
          rfl
      · exact (change?_spec key kind m.objects[key]? object).1 root own e he
      · have here := same key
        rw [projected_write, if_pos rfl, if_pos own, projected, if_pos own] at here
        rw [change?, here]
        split <;> simp_all
    · refine ⟨none, ?_, by simp, fun _ => rfl⟩
      have elsewhere : (m.write key object).channels.get? id = m.channels.get? id := by
        cases hr : key.root? with
        | none => simp [write, notify, hr]
        | some other =>
            have channels : (m.write key object).channels
                = m.channels.announce other fun kind =>
                    change? key kind m.objects[key]? object := by
              simp only [write, notify, hr]
              rfl
            have apart : root ≠ other := by
              rintro rfl
              exact own hr
            rw [channels, Channels.get?_announce, listens]
            simp [apart]
      rw [Option.toList_none, List.append_nil, Listens, elsewhere]
      exact listens

theorem plain_update {f : StoredObject → StoredObject} (h : m.update key f = .ok m')
    : m.Plain m' := by
  rw [update] at h
  split at h
  · cases h
    exact m.plain_write key _
  · cases h

theorem plain_applyDelete (kind : TreeKind) (m : Memory) (r : Resource)
    : m.Plain (applyDelete kind m r) := by
  rw [applyDelete]
  split
  · exact plain_of_eq rfl rfl
  · split
    · exact plain_of_eq rfl rfl
    · split
      · exact m.plain_write _ _
      · cases kind <;> exact m.plain_write _ _

theorem plain_applyCreate (kind : TreeKind) (m : Memory) (r : Resource)
    : m.Plain (applyCreate kind m r) := by
  rw [applyCreate]
  split
  · exact plain_of_eq rfl rfl
  · cases kind <;> exact m.plain_write _ _

/-- A mark below another root does nothing to a tree. -/
theorem follow_foreign_mark (rooted : t.RootedAt root) (foreign : key.root? ≠ some root)
    (error : Bool)
    : t.follow (.markError key error) = t := by
  have absent : t.find? key = none := by
    cases hn : t.find? key with
    | none => rfl
    | some n =>
        obtain ⟨own, r, path, shown, rfl, -⟩ := HashTree.find?_eq_some_iff.mp hn
        exact absurd (congrArg some (rooted _ shown)) foreign
  have unchanged := t.isSome_change? (fun c => { c with error }) key
  rw [absent, Option.isSome_none, Option.isSome_eq_false_iff, Option.isNone_iff_eq_none]
    at unchanged
  rw [HashTree.follow, HashTree.apply, HashTree.setError, unchanged]
  rfl

/-- A stream is told of a mark where its trees show the object, and otherwise of nothing that
matters to its trees. -/
theorem news_markError (listens : m.Listens id root kind queue) (error : Bool)
    : ∃ change? : Option TreeEvent,
        (m.markError key error).Listens id root kind (queue ++ change?.toList)
        ∧ (m.Shows root kind key → change? = some (.markError key error))
        ∧ (¬ m.Shows root kind key →
            ∀ t : HashTree, t.RootedAt root → t.play change?.toList = t) := by
  cases ho : m.objects[key]? with
  | none =>
      have unshown : ¬ m.Shows root kind key := by simp [Shows, projected, ho]
      refine ⟨none, ?_, fun shows => absurd shows unshown, fun _ _ _ => rfl⟩
      rw [markError, ho]
      simpa using listens
  | some o =>
      have channels : (m.markError key error).channels
          = m.channels.announce (key.root?.getD "") fun kind =>
              if (o.projection? kind).isSome then some (.markError key error) else none := by
        rw [markError, ho, Channels.announce]
        simp only
        congr 1
        funext c kind
        split <;> rfl
      have shown (own : key.root? = some root)
          : m.Shows root kind key ↔ (o.projection? kind).isSome = true := by
        simp [Shows, projected, ho, own]
      by_cases here : root = key.root?.getD ""
      · refine ⟨if (o.projection? kind).isSome then some (.markError key error) else none,
          ?_, ?_, ?_⟩
        · rw [Listens, channels, Channels.get?_announce, listens]
          simp [← here]
        · intro shows
          rw [if_pos ((shown shows.own).mp shows)]
        · intro unshown t rooted
          split
          · rename_i projected
            refine follow_foreign_mark rooted (fun own => ?_) error
            exact unshown ((shown own).mpr projected)
          · rfl
      · have foreign : key.root? ≠ some root := by
          intro own
          simp [own] at here
        refine ⟨none, ?_, fun shows => absurd shows.own foreign, fun _ _ _ => rfl⟩
        rw [Listens, channels, Channels.get?_announce, listens]
        simp [here]

theorem objects_markError (m : Memory) (key : Key) (error : Bool)
    : (m.markError key error).objects = m.objects := by
  rw [markError]
  split <;> rfl

/-- The marked keys after an object that is there was marked or unmarked. -/
theorem mem_errors_markError (there : m.objects[key]?.isSome = true) (error : Bool)
    : k ∈ (m.markError key error).errors ↔ if k = key then error = true else k ∈ m.errors := by
  obtain ⟨o, ho⟩ := Option.isSome_iff_exists.mp there
  rw [markError, ho]
  by_cases same : k = key
  · subst same
    cases error <;> simp [Std.ExtTreeSet.mem_erase]
  · have apart : compare key k ≠ .eq := fun he => same (Std.LawfulEqCmp.eq_of_compare he).symm
    cases error <;> simp [Std.ExtTreeSet.mem_erase, Std.ExtTreeSet.mem_insert, apart, same]

end Memory

end Concord
