import Concord.Proofs.Backend.FlagNews

/-! What pushes of operational state do to the trees of the other kinds. They change what is
observed of objects and nothing else, as long as there are objects: where one is missing, a creation
puts one there that is managed here and has no attributes, and so it joins the configuration tree.
-/

namespace Concord

theorem Key.root?_below {k : Key} {root : String} {path : List String} (h : k.root? = some root)
    : (k.below path).root? = some root := by
  obtain ⟨_ | ⟨first, rest⟩⟩ := k
  · cases h
  · exact h

namespace Memory

variable {m m' m'' : Memory} {root : String} {kind : TreeKind} {k : Key}

-----------------------------------------------------------------------------------------
-- What is configured
-----------------------------------------------------------------------------------------

/-- What is configured at a key: who manages the object and its attributes. -/
def configuration (m : Memory) (k : Key) : Option (Owner × Attributes) :=
  (m.objects[k]?).map fun o => (o.owner, o.attributes)

/-- What trees of a kind show of a configured object. -/
def configured (kind : TreeKind) (c : Owner × Attributes) : Option Attributes :=
  match kind with
  | .config => if c.1 = .local then some c.2 else none
  | .monitored => if c.1 = .remote then some c.2 else none
  | .operational => none

/-- The configuration trees of both kinds show what is configured and nothing else. -/
theorem projected_eq_configured (m : Memory) (root : String) (k : Key)
    (configures : kind ≠ .operational)
    : m.projected root kind k
      = if k.root? = some root then (m.configuration k).bind (configured kind) else none := by
  rw [projected, configuration]
  cases kind with
  | operational => exact absurd rfl configures
  | config => cases m.objects[k]? <;> rfl
  | monitored => cases m.objects[k]? <;> rfl

-----------------------------------------------------------------------------------------
-- One resource after another
-----------------------------------------------------------------------------------------

/-- Only what is observed changes, and at some keys there is an object afterwards unless their
pushes are dropped.
-/
structure Observes (m : Memory) (keys : List Key) (m' : Memory) : Prop where
  errors : m'.errors = m.errors
  failing : m'.failing = m.failing
  configuration : ∀ k, m'.configuration k
    = if k ∈ keys ∧ m.failing.contains k = false then
        some ((m.configuration k).getD (.local, ∅))
      else m.configuration k

theorem Observes.refl (m : Memory) : m.Observes [] m where
  errors := rfl
  failing := rfl
  configuration := fun k => by simp

theorem Observes.trans {keys more : List Key} (h : m.Observes keys m')
    (h' : m'.Observes more m'')
    : m.Observes (keys ++ more) m'' where
  errors := h'.errors.trans h.errors
  failing := h'.failing.trans h.failing
  configuration := fun k => by
    rw [h'.configuration, h.configuration, h.failing]
    by_cases first : k ∈ keys <;> by_cases second : k ∈ more <;>
      cases m.failing.contains k <;> simp [first, second]

/-- A write at a key that leaves what is configured there as it is. -/
theorem configuration_insert (m : Memory) (key : Key) (o : StoredObject) (k : Key)
    : (m.insert key o).configuration k
      = if k = key then some (o.owner, o.attributes) else m.configuration k := by
  rw [configuration, configuration, insert, objects_write]
  split <;> rfl

theorem observes_applyDelete (m : Memory) {r : Resource} (ordinary : r.ownershipMarker = false)
    : m.Observes [] (applyDelete .operational m r) := by
  rw [applyDelete, ordinary]
  split
  · exact .refl m
  · split
    · exact .refl m
    · rename_i o held
      refine ⟨rfl, rfl, fun k => ?_⟩
      rw [if_neg Bool.false_ne_true, configuration_insert]
      simp only [List.not_mem_nil, false_and, if_false]
      split
      · rename_i here
        rw [configuration, here, held]
        rfl
      · rfl

theorem observes_applyCreate (m : Memory) (r : Resource)
    : m.Observes [r.key] (applyCreate .operational m r) := by
  rw [applyCreate]
  cases drops : m.failing.contains r.key with
  | true =>
      refine ⟨rfl, rfl, fun k => ?_⟩
      rw [if_pos rfl, if_neg]
      rintro ⟨here, passes⟩
      rw [List.mem_singleton.mp here, drops] at passes
      cases passes
  | false =>
      refine ⟨rfl, rfl, fun k => ?_⟩
      rw [if_neg Bool.false_ne_true, configuration_insert]
      by_cases here : k = r.key
      · rw [if_pos here, if_pos ⟨List.mem_singleton.mpr here, here ▸ drops⟩, configuration, here]
        cases m.objects[r.key]? <;> rfl
      · rw [if_neg here, if_neg fun both => here (List.mem_singleton.mp both.1)]

/-- A batch of operational state puts objects at the keys of its creations and changes only what is
observed of those that were there, by induction on both lists.
-/
theorem observes_push (m : Memory) {batch : ResourceBatch}
    (ordinary : ∀ r ∈ batch.delete, r.ownershipMarker = false)
    : m.Observes (batch.create.map Resource.key) (m.push .operational batch) := by
  have deletes {m : Memory} {l : List Resource} (ordinary : ∀ r ∈ l, r.ownershipMarker = false)
      : m.Observes [] (l.foldl (applyDelete .operational) m) := by
    induction l generalizing m with
    | nil => exact .refl m
    | cons r rest ih =>
        obtain ⟨first, later⟩ := List.forall_mem_cons.mp ordinary
        exact (observes_applyDelete m first).trans (ih later)
  have creates {m : Memory} {l : List Resource}
      : m.Observes (l.map Resource.key) (l.foldl (applyCreate .operational) m) := by
    induction l generalizing m with
    | nil => exact .refl m
    | cons r rest ih => exact (observes_applyCreate m r).trans ih
  have counted : m.Observes [] { m with pushes := m.pushes + 1 } :=
    ⟨rfl, rfl, fun k => by simp [configuration]⟩
  exact (counted.trans (deletes ordinary)).trans creates

-----------------------------------------------------------------------------------------
-- The trees of the other kinds
-----------------------------------------------------------------------------------------

/-- The batch creates an object at a key where there is none, and its pushes are not dropped. -/
def Joins (m : Memory) (batch : ResourceBatch) (k : Key) : Prop :=
  k ∈ batch.create.map Resource.key ∧ m.failing.contains k = false ∧ m.objects[k]? = none

instance (m : Memory) (batch : ResourceBatch) (k : Key) : Decidable (m.Joins batch k) :=
  inferInstanceAs (Decidable (_ ∧ _ ∧ _))

section

variable {batch : ResourceBatch}

theorem configuration_of_joins (ordinary : ∀ r ∈ batch.delete, r.ownershipMarker = false)
    (joins : m.Joins batch k)
    : (m.push .operational batch).configuration k = some (.local, ∅) := by
  obtain ⟨created, passes, missing⟩ := joins
  rw [(m.observes_push ordinary).configuration, if_pos ⟨created, passes⟩, configuration, missing]
  rfl

theorem configuration_of_not_joins (ordinary : ∀ r ∈ batch.delete, r.ownershipMarker = false)
    (stays : ¬ m.Joins batch k)
    : (m.push .operational batch).configuration k = m.configuration k := by
  rw [(m.observes_push ordinary).configuration]
  split
  · rename_i created
    cases held : m.objects[k]? with
    | none => exact absurd ⟨created.1, created.2, held⟩ stays
    | some o => simp [configuration, held]
  · rfl

theorem projected_of_joins (ordinary : ∀ r ∈ batch.delete, r.ownershipMarker = false)
    (joins : m.Joins batch k) (rooted : k.root? = some root) (configures : kind ≠ .operational)
    : m.projected root kind k = none
      ∧ (m.push .operational batch).projected root kind k = configured kind (.local, ∅) := by
  constructor
  · rw [projected, joins.2.2, if_pos rooted]
    rfl
  · rw [projected_eq_configured _ root k configures, configuration_of_joins ordinary joins,
      if_pos rooted]
    rfl

theorem projected_of_not_joins (ordinary : ∀ r ∈ batch.delete, r.ownershipMarker = false)
    (stays : ¬ (m.Joins batch k ∧ k.root? = some root)) (configures : kind ≠ .operational)
    : (m.push .operational batch).projected root kind k = m.projected root kind k := by
  rw [projected_eq_configured _ root k configures, projected_eq_configured m root k configures]
  by_cases rooted : k.root? = some root
  · rw [configuration_of_not_joins ordinary fun joins => stays ⟨joins, rooted⟩]
  · rw [if_neg rooted, if_neg rooted]

end

/-- What becomes of the configuration tree of a root: what joins it comes without attributes and all
else that it holds stays; nodes come where something joins and above, and none go; the flags that
there were stay, and of the nodes that come those are flagged that are marked.
-/
structure Gains (m : Memory) (batch : ResourceBatch) (root : String) (t t' : HashTree) : Prop where
  joined : ∀ k, m.Joins batch k → k.root? = some root → t'.live? k = some ∅
  kept : ∀ k, ¬ m.Joins batch k → t'.live? k = t.live? k
  nodes
    : ∀ k, t'.Stands k
        ↔ t.Stands k ∨ k.root? = some root ∧ ∃ path, m.Joins batch (k.below path)
  flags
    : ∀ k, t'.flagged k = true
        ↔ t.flagged k = true ∨ k ∈ m.errors ∧ t'.Stands k ∧ ¬ t.Stands k

/-- Configuration trees have nodes where they had some, where something joins, and above. -/
theorem stands_push_iff {batch : ResourceBatch}
    (ordinary : ∀ r ∈ batch.delete, r.ownershipMarker = false)
    : (m.push .operational batch).Stands root .config k
      ↔ m.Stands root .config k
        ∨ k.root? = some root ∧ ∃ path, m.Joins batch (k.below path) := by
  have config : TreeKind.config ≠ .operational := by decide
  constructor
  · rintro ⟨own, path, shows⟩
    by_cases joins : m.Joins batch (k.below path)
    · exact .inr ⟨own, path, joins⟩
    · rw [Shows, projected_of_not_joins ordinary (fun both => joins both.1) config] at shows
      exact .inl ⟨own, path, shows⟩
  · rintro (⟨own, path, shows⟩ | ⟨own, path, joins⟩)
    · refine ⟨own, path, ?_⟩
      rw [Shows, projected_of_not_joins ordinary ?_ config]
      · exact shows
      · rintro ⟨joins, -⟩
        rw [Shows, (projected_of_joins ordinary joins (Key.root?_below own) config).1] at shows
        cases shows
    · refine ⟨own, path, ?_⟩
      rw [Shows, (projected_of_joins ordinary joins (Key.root?_below own) config).2]
      rfl

/-- What a batch of operational state without ownership markers does outside the operational trees.
The monitored tree of every root stays as it is. The configuration tree of a root stays as it is
just when every object of the root that the batch creates is there before, or its pushes are
dropped; the others join it without attributes, under dummies where nodes are missing, and no other
node of it changes. Of all objects that are there before, no owner and no attributes change, and no
mark.
-/
theorem push_operational (m : Memory) (batch : ResourceBatch)
    (ordinary : ∀ r ∈ batch.delete, r.ownershipMarker = false)
    : let m' := m.push .operational batch
      (∀ root, m'.load root .monitored = m.load root .monitored)
        ∧ (∀ root, m'.load root .config = m.load root .config
            ↔ ∀ k, k.root? = some root → ¬ m.Joins batch k)
        ∧ (∀ root, ∃ t t' : HashTree, m.load root .config = .ok t ∧ m'.load root .config = .ok t'
            ∧ m.Gains batch root t t')
        ∧ (∀ k, m.Joins batch k → m'.configuration k = some (.local, ∅))
        ∧ (∀ k, ¬ m.Joins batch k → m'.configuration k = m.configuration k)
        ∧ m'.errors = m.errors := by
  intro m'
  have errors : m'.errors = m.errors := (m.observes_push ordinary).errors
  have monitored : TreeKind.monitored ≠ .operational := by decide
  have config : TreeKind.config ≠ .operational := by decide
  refine ⟨fun root => ?_, fun root => ?_, fun root => ?_,
    fun k => configuration_of_joins ordinary, fun k => configuration_of_not_joins ordinary, errors⟩
  · refine load_eq_of_shown errors fun k => ?_
    by_cases joins : m.Joins batch k ∧ k.root? = some root
    · obtain ⟨before, after⟩ := projected_of_joins ordinary joins.1 joins.2 monitored
      exact after.trans before.symm
    · exact projected_of_not_joins ordinary joins monitored
  · constructor
    · intro same k rooted joins
      obtain ⟨before, after⟩ := projected_of_joins ordinary joins rooted config
      cases (before.symm.trans (projected_of_load same k).symm).trans after
    · intro stay
      refine load_eq_of_shown errors fun k => ?_
      exact projected_of_not_joins ordinary (fun joins => stay k joins.2 joins.1) config
  · obtain ⟨t, ht, follower, live, flags⟩ := m.load_flags root .config
    obtain ⟨t', ht', follower', live', flags'⟩ := m'.load_flags root .config
    have stands {k : Key} : t.Stands k ↔ m.Stands root .config k := stands_of_live follower live
    have stands' {k : Key} : t'.Stands k ↔ m'.Stands root .config k :=
      stands_of_live follower' live'
    refine ⟨t, t', ht, ht', ?_, ?_, ?_, ?_⟩
    · intro k joins rooted
      exact (live' k).trans (projected_of_joins ordinary joins rooted config).2
    · intro k stays
      rw [live', live]
      exact projected_of_not_joins ordinary (fun joins => stays joins.1) config
    · intro k
      rw [stands', stands]
      exact stands_push_iff ordinary
    · intro k
      have stay : m.Stands root .config k → m'.Stands root .config k := fun before =>
        (stands_push_iff ordinary).mpr (.inl before)
      rw [flags', flags, stands', stands, Flags, Flags, errors]
      by_cases before : m.Stands root .config k
      · simp [before, stay before]
      · simp [before]

/-- A batch that deletes an object and creates it again, together with one that is missing below it
and one whose pushes are dropped. The object is managed elsewhere and marked, so a flagged dummy
comes into the configuration tree in its place.
-/
theorem push_operational_again
    : let a : Key := ⟨["t1", "a"]⟩
      let b : Key := ⟨["t1", "a", "b"]⟩
      let c : Key := ⟨["t1", "c"]⟩
      let m : Memory :=
        ((({ name := "memory" } : Memory).insert a { owner := .remote, observed := ∅ }).markError a
          true).failKey c
      let batch : ResourceBatch :=
        ⟨[Resource.ofKey a ∅, Resource.ofKey b ∅, Resource.ofKey c ∅], [.reference a]⟩
      let m' := m.push .operational batch
      m'.load "t1" .monitored = m.load "t1" .monitored
        ∧ m'.load "t1" .config ≠ m.load "t1" .config
        ∧ m'.load "t2" .config = m.load "t2" .config
        ∧ (∃ t' : HashTree, m'.load "t1" .config = .ok t' ∧ t'.live? b = some ∅
            ∧ t'.live? a = none ∧ t'.flagged a = true)
        ∧ m'.configuration a = some (.remote, ∅) ∧ m'.configuration b = some (.local, ∅)
        ∧ m'.configuration c = none := by
  intro a b c m batch m'
  obtain ⟨monitored, config, changes, joined, kept, -⟩ :=
    push_operational m batch (by decide +kernel)
  have joins : m.Joins batch b := by decide +kernel
  have stays : ¬ m.Joins batch a := by decide +kernel
  have elsewhere (k : Key) (rooted : k.root? = some "t2") : ¬ m.Joins batch k := by
    intro joins
    have roots : ∀ k ∈ batch.create.map Resource.key, k.root? = some "t1" := by decide +kernel
    exact absurd ((roots k joins.1).symm.trans rooted) (by decide)
  refine ⟨monitored "t1", fun same => ?_, (config "t2").mpr elsewhere, ?_, ?_, joined b joins, ?_⟩
  · exact (config "t1").mp same b rfl joins
  · obtain ⟨t, t', before, after, gains⟩ := changes "t1"
    obtain rfl : t = ∅ := by
      have empty : m.load "t1" .config = .ok ∅ := by decide +kernel
      rw [before, Except.ok.injEq] at empty
      exact empty
    refine ⟨t', after, gains.joined b joins rfl, gains.kept a stays, ?_⟩
    have absent : ¬ (∅ : HashTree).Stands a := by simp [HashTree.Stands]
    refine (gains.flags a).mpr (.inr ⟨by decide +kernel, (gains.nodes a).mpr ?_, absent⟩)
    exact .inr ⟨rfl, ["b"], joins⟩
  · exact (kept a stays).trans (by decide +kernel)
  · exact (kept c (by decide +kernel)).trans (by decide +kernel)

/-- A creation of operational state without an object leaks into the configuration tree. -/
theorem push_operational_leaks
    : ¬ ∀ (m : Memory) (batch : ResourceBatch),
        (∀ r ∈ batch.delete, r.ownershipMarker = false) →
        ∀ root, (m.push .operational batch).load root .config = m.load root .config := by
  intro always
  let key : Key := ⟨["t1", "a"]⟩
  have same := always { name := "memory" } ⟨[Resource.ofKey key ∅], []⟩ (by decide +kernel) "t1"
  have shown := projected_of_load same key
  revert shown
  decide +kernel

end Memory

end Concord
