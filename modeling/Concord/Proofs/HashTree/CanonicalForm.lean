import Mathlib.Data.List.Sort
import Concord.Proofs.HashTree.Changes
import Concord.Proofs.HashTree.Difference

/-! Trees leave no trace of how they were built. Which nodes there are follows from what is held,
since every leaf holds something, and hashes follow from the nodes. Main statement: trees that hold
the same under the same flags agree in all nodes and hashes, and trees with equal hashes hold the
same under the same flags, whatever the tags are.
-/

namespace Concord

-----------------------------------------------------------------------------------------
-- Nodes by what is held
-----------------------------------------------------------------------------------------

namespace Node

variable {n m : Node} {key : Key} {path : List String}

/-- Whether the path leads to a flagged node. -/
def flagged (n : Node) (path : List String) : Bool :=
  (n.descend? path).any isError

/-- At or below a node that is no childless dummy something is held, by induction on nodes. -/
theorem exists_live (h : n.Throughout (fun _ x => x.Shaped) key) (kept : n.isPrunable = false)
    : ∃ path, (n.live? path).isSome = true := by
  induction n using childInduction generalizing key with
  | step n ih =>
      cases dummy : n.isDummy with
      | false =>
          rw [isDummy] at dummy
          exact ⟨[], by simp [Content.own?, dummy]⟩
      | true =>
          cases listed : n.children with
          | nil => simp [isPrunable, dummy, listed, Forest.isEmpty] at kept
          | cons segment child rest =>
              have found : n.children.find? segment = some child := by simp [listed, Forest.find?]
              have mem := h.top.ordered.mem_toList.mpr found
              obtain ⟨path, held⟩ :=
                ih _ mem (h.child found) (h.top.pruned segment child found)
              refine ⟨segment :: path, ?_⟩
              rw [live?_cons, found]
              exact held

/-- A path leads to a node just when something is held at its end or below. -/
theorem isSome_descend?_iff (h : n.Throughout (fun _ x => x.Shaped) key)
    (kept : n.isPrunable = false)
    : (n.descend? path).isSome = true ↔ ∃ rest, (n.live? (path ++ rest)).isSome = true := by
  constructor
  · intro found
    obtain ⟨m, hm⟩ := Option.isSome_iff_exists.mp found
    obtain ⟨rest, held⟩ := exists_live (h.descend hm) (h.isPrunable_descend kept hm)
    refine ⟨rest, ?_⟩
    rw [live?, descend?_append, hm]
    exact held
  · rintro ⟨rest, held⟩
    rw [live?, descend?_append] at held
    cases found : n.descend? path with
    | none => simp [found] at held
    | some m => rfl

/-- Intact nodes that hold the same under the same flags are alike. -/
theorem alike_of_live (hn : n.Throughout Intact key) (hm : m.Throughout Intact key)
    (keptN : n.isPrunable = false) (keptM : m.isPrunable = false)
    (live : ∀ path, n.live? path = m.live? path)
    (flags : ∀ path, n.flagged path = m.flagged path)
    : n.Alike m := by
  intro path
  have nodes : (n.descend? path).isSome = (m.descend? path).isSome := by
    rw [Bool.eq_iff_iff, isSome_descend?_iff hn.shaped keptN, isSome_descend?_iff hm.shaped keptM]
    simp only [live]
  cases hx : n.descend? path with
  | none =>
      have none : m.descend? path = none := by simpa [hx] using nodes
      rw [none]
  | some x =>
      obtain ⟨y, hy⟩ := Option.isSome_iff_exists.mp (by rw [← nodes, hx]; rfl)
      have held := live path
      have flag := flags path
      simp only [Node.live?, flagged, hx, hy, Option.bind_some, Option.any_some, Content.own?]
        at held flag
      have bareX := (hn path x hx).bare
      have bareY := (hm path y hy).bare
      simp only [isDummy, isError] at bareX bareY flag
      rw [hy]
      cases dx : x.content.dummy <;> cases dy : y.content.dummy <;>
        simp_all [Content.compared]

end Node

-----------------------------------------------------------------------------------------
-- Hashes by nodes
-----------------------------------------------------------------------------------------

namespace Forest

/-- Ordered forests with the same segments list them alike. -/
theorem Ordered.segments_eq {f g : Forest} (hf : f.Ordered) (hg : g.Ordered)
    (h : ∀ s, (f.find? s).isSome = (g.find? s).isSome)
    : f.segments = g.segments := by
  have : Std.Irrefl fun a b : String => compare a b = .lt :=
    ⟨fun a ha => by simp [Std.ReflCmp.compare_self] at ha⟩
  have : Std.Antisymm fun a b : String => compare a b = .lt :=
    ⟨fun a b ha hb => by simp [Std.OrientedCmp.gt_of_lt ha] at hb⟩
  refine hf.eq_of_mem_iff hg fun s => ?_
  rw [← find?_isSome_iff, ← find?_isSome_iff, h]

/-- What is read off the children of an ordered forest is read off its segments. -/
theorem Ordered.map_toList {α : Type} {f : Forest} (h : f.Ordered) (g : Node → α)
    : f.toList.map (fun e => g e.2) = f.segments.filterMap fun s => (f.find? s).map g := by
  rw [segments, List.filterMap_map]
  symm
  rw [← List.filterMap_eq_map]
  refine List.filterMap_congr fun e he => ?_
  have found : f.find? e.1 = some e.2 := h.mem_toList.mp he
  simp [found]

/-- Ordered forests that agree on what is read off the child of each segment list it alike. -/
theorem Ordered.map_toList_congr {α : Type} {f f' : Forest} (h : f.Ordered) (h' : f'.Ordered)
    {g : Node → α} (same : ∀ s, (f.find? s).map g = (f'.find? s).map g)
    : f.toList.map (fun e => g e.2) = f'.toList.map fun e => g e.2 := by
  have segments : f.segments = f'.segments := by
    refine h.segments_eq h' fun s => ?_
    rw [← Option.isSome_map, same s, Option.isSome_map]
  rw [h.map_toList, h'.map_toList, segments]
  exact List.filterMap_congr fun s _ => same s

end Forest

namespace Node

variable {n m : Node} {key : Key} {path : List String}

theorem combine_congr {partialHash : String} {f g : Forest}
    (h : f.toList.map (fun e => e.2.fullHash) = g.toList.map fun e => e.2.fullHash)
    : combine partialHash f = combine partialHash g := by
  have empty : f.isEmpty = g.isEmpty := by
    cases f <;> cases g <;> simp_all [Forest.isEmpty, Forest.toList]
  rw [combine, combine, empty, h]

/-- What is alike stays alike along a path. -/
theorem Alike.descend (h : n.Alike m) {x y : Node} (hx : n.descend? path = some x)
    (hy : m.descend? path = some y)
    : x.Alike y := by
  intro rest
  have below := h (path ++ rest)
  rwa [descend?_append, descend?_append, hx, hy] at below

theorem Alike.isSome_descend? (h : n.Alike m) (path : List String)
    : (n.descend? path).isSome = (m.descend? path).isSome := by
  have same := congrArg Option.isSome (h path)
  rwa [Option.isSome_map, Option.isSome_map] at same

/-- Alike intact nodes at one key have the same hashes, by induction on nodes. -/
theorem Alike.hashes (h : n.Alike m) (hn : n.Throughout Intact key)
    (hm : m.Throughout Intact key)
    : n.partialHash = m.partialHash ∧ n.fullHash = m.fullHash := by
  induction n using childInduction generalizing m key with
  | step n ih =>
      have own : n.partialHash = m.partialHash := by
        have compared : n.content.compared = m.content.compared := by simpa using h []
        rw [hn.top.partialHash, hm.top.partialHash, Encoding.content_congr compared]
      have below : n.children.toList.map (fun e => e.2.fullHash)
          = m.children.toList.map fun e => e.2.fullHash := by
        refine hn.top.ordered.map_toList_congr hm.top.ordered fun s => ?_
        have present := h.isSome_descend? [s]
        rw [descend?_singleton, descend?_singleton] at present
        cases hx : n.children.find? s with
        | none =>
            rw [hx, Option.isSome_none, eq_comm, Option.isSome_eq_false_iff,
              Option.isNone_iff_eq_none] at present
            rw [present]
        | some x =>
            rw [hx, Option.isSome_some, eq_comm] at present
            obtain ⟨y, hy⟩ := Option.isSome_iff_exists.mp present
            have alike : x.Alike y :=
              h.descend ((descend?_singleton _ s).trans hx) ((descend?_singleton _ s).trans hy)
            have same :=
              ih (s, x) (hn.top.ordered.mem_toList.mpr hx) alike (hn.child hx) (hm.child hy)
            rw [hy, Option.map_some, Option.map_some, same.2]
      refine ⟨own, ?_⟩
      rw [hn.top.fullHash, hm.top.fullHash, own, combine_congr below]

end Node

-----------------------------------------------------------------------------------------
-- Trees that hold the same
-----------------------------------------------------------------------------------------

namespace HashTree

/-- Whether the node at the key is flagged. -/
def flagged (t : HashTree) (k : Key) : Bool :=
  (t.find? k).any Node.isError

/-- The trees have nodes at the same keys, with the same attributes, the same two flags and the
same two hashes.
-/
def Agree (t u : HashTree) : Prop :=
  ∀ k, (t.find? k).map (fun n => (n.content.compared, n.partialHash, n.fullHash))
    = (u.find? k).map fun n => (n.content.compared, n.partialHash, n.fullHash)

variable {t u : HashTree} {root : String} {n m : Node} {k : Key}

/-- Alike roots of one segment make agreeing trees. -/
theorem agree_of_alike (hn : n.Throughout Node.Intact ⟨[root]⟩)
    (hm : m.Throughout Node.Intact ⟨[root]⟩) (h : n.Alike m)
    : (⟨some (root, n)⟩ : HashTree).Agree ⟨some (root, m)⟩ := by
  intro k
  induction k using Key.rootCases root with
  | foreign k hk => rw [find?_eq_none_of_root rfl hk, find?_eq_none_of_root rfl hk]
  | below path =>
      rw [find?_root, find?_root]
      cases hx : n.descend? path with
      | none =>
          have none : m.descend? path = none := by simpa [hx] using h.isSome_descend? path
          rw [none]
      | some x =>
          obtain ⟨y, hy⟩ : ∃ y, m.descend? path = some y :=
            Option.isSome_iff_exists.mp (by rw [← h.isSome_descend? path, hx]; rfl)
          have alike : x.Alike y := h.descend hx hy
          obtain ⟨own, whole⟩ := alike.hashes (hn.descend hx) (hm.descend hy)
          have compared : x.content.compared = y.content.compared := by simpa using alike []
          rw [hy, Option.map_some, Option.map_some, own, whole, compared]

/-- Trees of which one is empty and the other holds nothing are both empty. -/
theorem root_eq_none_of_live (hu : u.Shaped) (h : ∀ k, u.live? k = none) : u.root = none := by
  cases hr : u.root with
  | none => rfl
  | some r =>
      obtain ⟨root, m⟩ := r
      obtain ⟨kept, shaped⟩ := hu root m hr
      obtain ⟨path, held⟩ := Node.exists_live shaped kept
      obtain ⟨_⟩ := u
      subst hr
      have none := h ⟨root :: path⟩
      rw [live?_root] at none
      simp [none] at held

/-- Agreeing trees have the same byte strings digested. -/
theorem Agree.digested (h : t.Agree u) (ht : t.WellFormed) (hu : u.WellFormed)
    : t.digested = u.digested := by
  have half {t u : HashTree} (h : t.Agree u) (ht : t.WellFormed) (hu : u.WellFormed)
      : t.digested ⊆ u.digested := by
    rintro bytes ⟨k, n, hn, listed⟩
    have here := h k
    rw [hn, Option.map_some] at here
    obtain ⟨m, hm, same⟩ := Option.map_eq_some_iff.mp here.symm
    obtain ⟨compared, own, -⟩ : m.content.compared = n.content.compared
        ∧ m.partialHash = n.partialHash ∧ m.fullHash = n.fullHash := by
      simpa using same
    -- The children stand under the same segments with the same hashes.
    have below : m.children.toList.map (fun e => e.2.fullHash)
        = n.children.toList.map fun e => e.2.fullHash := by
      refine (hu.find hm).ordered.map_toList_congr (ht.find hn).ordered fun s => ?_
      have children := congrArg (Option.map fun c => c.2.2) (h (k.child s))
      rw [find?_child_eq hn, find?_child_eq hm, Option.map_map, Option.map_map] at children
      exact children.symm
    have leaf : m.children.isEmpty = n.children.isEmpty := by
      cases hf : m.children <;> cases hg : n.children <;>
        simp_all [Forest.isEmpty, Forest.toList]
    refine ⟨k, m, hm, ?_⟩
    rwa [Node.digested, Encoding.content_congr compared, own, below, leaf]
  refine Set.Subset.antisymm (half h ht hu) (half (fun k => (h k).symm) hu ht)

/-- What can be told apart from two trees can be told apart from trees that agree with them. -/
theorem Distinguishable.congr {t' u' : HashTree} (h : t.Distinguishable u) (ht : t.WellFormed)
    (hu : u.WellFormed) (ht' : t'.WellFormed) (hu' : u'.WellFormed) (mine : t.Agree t')
    (theirs : u.Agree u')
    : t'.Distinguishable u' := by
  have storable {t u : HashTree} (h : t.Agree u) (ht : t.Storable) : u.Storable := by
    intro k m hm
    have here := h k
    rw [hm, Option.map_some] at here
    obtain ⟨n, hn, same⟩ := Option.map_eq_some_iff.mp here
    obtain ⟨segments, attributes⟩ := ht k n hn
    obtain ⟨compared, -⟩ := Prod.mk.inj same
    have same : n.content.attributes = m.content.attributes := congrArg Prod.fst compared
    exact ⟨segments, same ▸ attributes⟩
  refine ⟨⟨storable mine h.storable.1, storable theirs h.storable.2⟩, ?_⟩
  rw [← mine.digested ht ht', ← theirs.digested hu hu']
  exact h.injective

/-- Trees that hold the same under the same flags agree. -/
theorem agree_of_live (ht : t.WellFormed) (hu : u.WellFormed) (live : ∀ k, t.live? k = u.live? k)
    (flags : ∀ k, t.flagged k = u.flagged k)
    : t.Agree u := by
  obtain ⟨_ | ⟨root, n⟩⟩ := t
  · have none : u.root = none := root_eq_none_of_live hu.shaped fun k => (live k).symm
    obtain ⟨_⟩ := u
    cases none
    exact fun k => rfl
  · obtain ⟨keptN, intactN⟩ := ht root n rfl
    obtain ⟨path, held⟩ := Node.exists_live intactN.shaped keptN
    obtain ⟨_ | ⟨other, m⟩⟩ := u
    · have none := live ⟨root :: path⟩
      rw [live?_root] at none
      simp [none, live?, find?] at held
    · have same : other = root := by
        by_contra apart
        have none := live ⟨root :: path⟩
        rw [live?_root, live?_of_ne (by simpa [Key.root?] using Ne.symm apart)] at none
        simp [none] at held
      subst same
      obtain ⟨keptM, intactM⟩ := hu other m rfl
      refine agree_of_alike intactN intactM
        (Node.alike_of_live intactN intactM keptN keptM (fun path => ?_) fun path => ?_)
      · simpa using live ⟨other :: path⟩
      · simpa [flagged, Node.flagged, find?_root] using flags ⟨other :: path⟩

/-- Agreeing trees hold the same under the same flags. -/
theorem Agree.live (h : t.Agree u) (k : Key)
    : t.live? k = u.live? k ∧ t.flagged k = u.flagged k := by
  have here := h k
  rw [live?, live?, flagged, flagged]
  cases hn : t.find? k <;> cases hm : u.find? k <;>
    simp_all [Content.own?, Content.compared, Node.isError]

/-- Agreeing trees have equal roots, or none. -/
theorem Agree.same (h : t.Agree u) : t.same u = true := by
  obtain ⟨_ | ⟨root, n⟩⟩ := t <;> obtain ⟨_ | ⟨other, m⟩⟩ := u
  · rfl
  · have here := h ⟨[other]⟩
    simp [find?] at here
  · have here := h ⟨[root]⟩
    simp [find?] at here
  · have here := h ⟨[root]⟩
    by_cases apart : root = other <;> simp_all [find?, HashTree.same, rootHash?]

/-- Trees with equal hashes agree when the digest tells the byte strings of their nodes apart. -/
theorem agree_of_same (ht : t.WellFormed) (hu : u.WellFormed) (h : t.Distinguishable u)
    (same : t.same u = true)
    : t.Agree u := by
  have inj := h.injective
  generalize hs : t.digested ∪ u.digested = s at inj
  have left : t.digested ⊆ s := hs ▸ Set.subset_union_left
  have right : u.digested ⊆ s := hs ▸ Set.subset_union_right
  obtain ⟨_ | ⟨root, n⟩⟩ := t <;> obtain ⟨_ | ⟨other, m⟩⟩ := u
  · exact fun k => rfl
  · simp [HashTree.same, rootHash?] at same
  · simp [HashTree.same, rootHash?] at same
  · have hashes : n.fullHash = m.fullHash := by simpa [HashTree.same, rootHash?] using same
    obtain ⟨keys, alike⟩ := Node.Within.alike inj (ht.within h.storable.1 left rfl)
      (hu.within h.storable.2 right rfl) rfl hashes
    obtain rfl : root = other := by simpa using keys
    exact agree_of_alike (ht root n rfl).2 (hu root m rfl).2 alike

/-- What a tree holds and flags says everything about its nodes and hashes but their tags, however
the tree was built. Conversely its hash tells what it holds and flags, as long as the digest tells
the byte strings of the compared nodes apart.
-/
theorem history_independent (ht : t.Built) (hu : u.Built)
    : ((∀ k, t.live? k = u.live? k) → (∀ k, t.flagged k = u.flagged k) →
          t.Agree u ∧ t.same u = true)
      ∧ (t.Distinguishable u → t.same u = true →
          ∀ k, t.live? k = u.live? k ∧ t.flagged k = u.flagged k) := by
  constructor
  · intro live flags
    have agree := agree_of_live ht.wellFormed hu.wellFormed live flags
    exact ⟨agree, agree.same⟩
  · intro apart same k
    exact (agree_of_same ht.wellFormed hu.wellFormed apart same).live k

/-- The tree that holds something at `r` alone. -/
def straight : HashTree :=
  ((∅ : HashTree).addAll [(⟨["r"]⟩, ∅)]).1

/-- A tree that came to hold the same after `r` was a dummy above `r/a`. -/
def detour : HashTree :=
  ((∅ : HashTree).addAll [(⟨["r", "a"]⟩, ∅), (⟨["r"]⟩, ∅)]).1.clear ⟨["r", "a"]⟩

theorem built_straight : straight.Built :=
  Built.empty.included _

theorem built_detour : detour.Built :=
  (Built.empty.included _).cleared _

theorem live?_detour (k : Key) : straight.live? k = detour.live? k := by
  have shaped := (Built.empty.included [(⟨["r", "a"]⟩, ∅), (⟨["r"]⟩, ∅)]).wellFormed.shaped
  obtain ⟨_, one, -, here⟩ :=
    @addAll_ok ∅ "r" [(⟨["r"]⟩, ∅)] (rootedAt_empty _) (by simp [Key.root?]) (by simp)
  obtain ⟨_, two, -, there⟩ :=
    @addAll_ok ∅ "r" [(⟨["r", "a"]⟩, ∅), (⟨["r"]⟩, ∅)] (rootedAt_empty _)
      (by simp [Key.root?]) (by simp)
  rw [straight, detour, live?_clear shaped, one, two, here, there]
  by_cases below : k = ⟨["r", "a"]⟩ <;> simp [below, eq_comm]

/-- The detour leaves no trace, and the hashes alone say so. -/
theorem history_independent_detour
    : straight.Agree detour
      ∧ ∀ k, straight.live? k = detour.live? k ∧ straight.flagged k = detour.flagged k := by
  have unflagged {t : HashTree} (h : t.Built) (plain : ∀ e ∈ t.nodes, e.2.isError = false)
      (k : Key) : t.flagged k = false := by
    rw [flagged, Option.any_eq_false]
    intro n hn
    simp [plain (k, n) ((mem_nodes h.wellFormed).mpr hn)]
  have flags (k : Key) : straight.flagged k = detour.flagged k := by
    rw [unflagged built_straight (by decide +kernel) k,
      unflagged built_detour (by decide +kernel) k]
  have apart : straight.Distinguishable detour :=
    built_straight.distinguishable built_detour (by decide +kernel) (by decide +kernel)
  obtain ⟨forth, back⟩ := history_independent built_straight built_detour
  obtain ⟨agree, same⟩ := forth live?_detour flags
  exact ⟨agree, back apart same⟩

end HashTree

end Concord
