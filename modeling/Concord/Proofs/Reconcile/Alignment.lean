import Concord.Proofs.Backend.Batches
import Concord.Proofs.HashTree.Drift

/-! One batch of one kind, computed from the difference of two loaded trees. Main statement: it
brings the fabric's tree of that kind into line with the store's, and beyond that touches only the
objects it names.
-/

namespace Concord.Memory

variable {store fabric m : Memory} {root : String} {kind : TreeKind} {k : Key}

-----------------------------------------------------------------------------------------
-- The batch of a root and kind
-----------------------------------------------------------------------------------------

/-- The tree of a root and kind. -/
def tree (m : Memory) (root : String) (kind : TreeKind) : HashTree :=
  ((m.load root kind).toOption).getD ∅

/-- What is pushed to a fabric whose tree differs from that of the store: the objects to create
come from the store, and the fabric says how the others are deleted.
-/
def batchFor (store fabric : Memory) (root : String) (kind : TreeKind) : ResourceBatch :=
  let delta := (store.tree root kind).diff (fabric.tree root kind)
  ⟨store.fetch kind delta.add, fetchForDelete kind delta.remove⟩

/-- Store and fabric without flags and without keys whose pushes are dropped, whose trees of a root
and kind are told apart by their hashes.
-/
structure Alignable (store : Memory) (root : String) (kind : TreeKind) (fabric : Memory)
    : Prop where
  unflagged : store.errors = ∅
  calm : fabric.Calm
  distinguishable : (store.tree root kind).Distinguishable (fabric.tree root kind)

theorem tree_spec (h : m.errors = ∅) (root : String) (kind : TreeKind)
    : (m.tree root kind).Built ∧ (m.tree root kind).Unflagged
      ∧ ∀ k, (m.tree root kind).live? k = m.projected root kind k := by
  obtain ⟨t, ht, built, -, live⟩ := m.load_spec root kind
  have same : m.tree root kind = t := by
    rw [tree, ht]
    rfl
  have added := @load_of_no_errors m root kind h
  rw [ht, Except.ok.injEq] at added
  rw [same]
  exact ⟨built, added ▸ HashTree.unflagged_addAll _, live⟩

/-- Which keys the difference lists, by what both sides show. -/
theorem mem_delta (h : store.Alignable root kind fabric) (k : Key)
    : (k ∈ ((store.tree root kind).diff (fabric.tree root kind)).add
          ↔ ∃ attributes, store.projected root kind k = some attributes
              ∧ fabric.projected root kind k ≠ some attributes)
      ∧ (k ∈ ((store.tree root kind).diff (fabric.tree root kind)).remove
          ↔ store.projected root kind k = none ∧ fabric.projected root kind k ≠ none) := by
  obtain ⟨mine, open_, live⟩ := tree_spec h.unflagged root kind
  obtain ⟨theirs, open', live'⟩ := tree_spec h.calm.errors root kind
  have mem := HashTree.mem_diff_of_unflagged mine.wellFormed theirs.wellFormed h.distinguishable
    open_ open' k
  rwa [live, live'] at mem

/-- What a batch leaves of the object at a key of its root: `s` and `f` are what store and fabric
had there when the batch was computed, `o` is what the fabric has when it is pushed.
-/
def outcome (kind : TreeKind) (s f o : Option StoredObject) : Option StoredObject :=
  match s.bind (·.projection? kind) with
  | some attributes =>
      if f.bind (·.projection? kind) = some attributes then o
      else some (created kind attributes (o.getD {}))
  | none =>
      if (f.bind (·.projection? kind)).isSome then o.bind (deleted kind (marks kind)) else o

/-- What is created and deleted at a key comes to the outcome there. -/
theorem after_eq_outcome {adds removes : List Key} (hr : k.root? = some root)
    (add : k ∈ adds ↔ ∃ attributes, store.projected root kind k = some attributes
      ∧ fabric.projected root kind k ≠ some attributes)
    (remove : k ∈ removes ↔ store.projected root kind k = none
      ∧ fabric.projected root kind k ≠ none)
    (o : Option StoredObject)
    : afterCreate store kind adds k (afterDelete kind removes k o)
      = outcome kind store.objects[k]? fabric.objects[k]? o := by
  rw [projected, projected, if_pos hr, if_pos hr] at add remove
  rw [outcome]
  cases hs : (store.objects[k]?).bind (·.projection? kind) with
  | none =>
      rw [hs] at add remove
      have stays : k ∉ adds := by simp [add]
      rw [afterCreate, if_neg stays, afterDelete]
      cases hf : (fabric.objects[k]?).bind (·.projection? kind) with
      | none =>
          rw [hf] at remove
          have kept : k ∉ removes := by simp [remove]
          simp [kept]
      | some other =>
          rw [hf] at remove
          have gone : k ∈ removes := by simp [remove]
          simp [gone]
  | some attributes =>
      rw [hs] at add remove
      have kept : k ∉ removes := by simp [remove]
      rw [afterDelete, if_neg kept, afterCreate, hs]
      by_cases hf : (fabric.objects[k]?).bind (·.projection? kind) = some attributes
      · have stays : k ∉ adds := by simp [add, hf]
        simp [stays, hf]
      · have comes : k ∈ adds := by simp [add, hf]
        simp [comes, hf]

/-- A batch acts key by key, and on keys of its root alone. -/
theorem push_batchFor (h : store.Alignable root kind fabric) (hm : m.Calm)
    : (m.push kind (store.batchFor fabric root kind)).Calm
      ∧ ∀ k : Key, (m.push kind (store.batchFor fabric root kind)).objects[k]?
          = if k.root? = some root then
              outcome kind store.objects[k]? fabric.objects[k]? m.objects[k]?
            else m.objects[k]? := by
  let delta := (store.tree root kind).diff (fabric.tree root kind)
  obtain ⟨calm, objects⟩ := @push_fetched m kind store hm delta.add delta.remove
  refine ⟨calm, fun k => (objects k).trans ?_⟩
  obtain ⟨add, remove⟩ := mem_delta h k
  by_cases hr : k.root? = some root
  · rw [if_pos hr, after_eq_outcome hr add remove]
  · rw [projected, projected, if_neg hr, if_neg hr] at add remove
    have stays : k ∉ delta.add := by simp [delta, add]
    have kept : k ∉ delta.remove := by simp [delta, remove]
    rw [if_neg hr, afterCreate, if_neg stays, afterDelete, if_neg kept]

-----------------------------------------------------------------------------------------
-- The fabric after its batch
-----------------------------------------------------------------------------------------

/-- The fabric after the batch of a root and kind. -/
def aligned (store fabric : Memory) (root : String) (kind : TreeKind) : Memory :=
  fabric.push kind (store.batchFor fabric root kind)

theorem objects_aligned (h : store.Alignable root kind fabric) (k : Key)
    : (store.aligned fabric root kind).objects[k]?
      = if k.root? = some root then
          outcome kind store.objects[k]? fabric.objects[k]? fabric.objects[k]?
        else fabric.objects[k]? :=
  (push_batchFor h h.calm).2 k

/-- The batch creates what the store shows and the fabric does not show so. -/
theorem mem_create (h : store.Alignable root kind fabric)
    : k ∈ (store.batchFor fabric root kind).create.map Resource.key
      ↔ k.root? = some root ∧ ∃ attributes,
          (store.objects[k]?).bind (·.projection? kind) = some attributes
          ∧ (fabric.objects[k]?).bind (·.projection? kind) ≠ some attributes := by
  rw [batchFor, mem_keys_fetch, (mem_delta h k).1, projected, projected]
  by_cases hr : k.root? = some root
  · simp only [hr, if_true, true_and]
    constructor
    · rintro ⟨here, -⟩
      exact here
    · rintro ⟨attributes, shown, differs⟩
      exact ⟨⟨attributes, shown, differs⟩, by rw [shown]; rfl⟩
  · simp [hr]

/-- The batch deletes what only the fabric shows. -/
theorem mem_delete (h : store.Alignable root kind fabric)
    : k ∈ (store.batchFor fabric root kind).delete.map Resource.key
      ↔ k.root? = some root ∧ (store.objects[k]?).bind (·.projection? kind) = none
        ∧ (fabric.objects[k]?).bind (·.projection? kind) ≠ none := by
  rw [batchFor, keys_fetchForDelete, (mem_delta h k).2, projected, projected]
  by_cases hr : k.root? = some root <;> simp [hr]

theorem aligned_of_mem_create (h : store.Alignable root kind fabric)
    (hk : k ∈ (store.batchFor fabric root kind).create.map Resource.key)
    : ∃ attributes, (store.aligned fabric root kind).objects[k]?
        = some (created kind attributes ((fabric.objects[k]?).getD {})) := by
  obtain ⟨hr, attributes, shown, differs⟩ := (mem_create h).mp hk
  refine ⟨attributes, ?_⟩
  rw [objects_aligned h, if_pos hr, outcome, shown]
  exact if_neg differs

theorem aligned_of_mem_delete (h : store.Alignable root kind fabric)
    (hk : k ∈ (store.batchFor fabric root kind).delete.map Resource.key)
    : ∃ o, fabric.objects[k]? = some o
        ∧ (store.aligned fabric root kind).objects[k]? = deleted kind (marks kind) o := by
  obtain ⟨hr, absent, shown⟩ := (mem_delete h).mp hk
  obtain ⟨attributes, shown⟩ := Option.ne_none_iff_exists'.mp shown
  obtain ⟨o, ho, -⟩ := Option.bind_eq_some_iff.mp shown
  refine ⟨o, ho, ?_⟩
  rw [objects_aligned h, if_pos hr, outcome, absent, shown, ho]
  rfl

/-- Objects that the batch does not name are left alone. -/
theorem aligned_of_not_mem (h : store.Alignable root kind fabric)
    (hc : k ∉ (store.batchFor fabric root kind).create.map Resource.key)
    (hd : k ∉ (store.batchFor fabric root kind).delete.map Resource.key)
    : (store.aligned fabric root kind).objects[k]? = fabric.objects[k]? := by
  rw [objects_aligned h]
  rw [mem_create h] at hc
  rw [mem_delete h] at hd
  by_cases hr : k.root? = some root
  · rw [if_pos hr, outcome]
    cases hs : (store.objects[k]?).bind (·.projection? kind) with
    | none =>
        have hidden : (fabric.objects[k]?).bind (·.projection? kind) = none := by simp_all
        simp [hidden]
    | some attributes =>
        have same : (fabric.objects[k]?).bind (·.projection? kind) = some attributes := by
          simp_all
        simp [same]
  · rw [if_neg hr]

/-- What a deletion leaves is not shown any more. -/
theorem projection_deleted (kind : TreeKind) (o : StoredObject)
    : (deleted kind (marks kind) o).bind (·.projection? kind) = none := by
  cases kind <;> simp [deleted, marks, StoredObject.projection?]

/-- What was shown of one object is shown of the object created from it. -/
theorem projection_created {attributes : Attributes} {s : StoredObject}
    (h : s.projection? kind = some attributes) (o : StoredObject)
    : (created kind attributes o).projection? kind = some attributes := by
  cases kind with
  | config => simp [created, StoredObject.projection?]
  | monitored => simp [created, StoredObject.projection?]
  | operational =>
      -- Nothing observed would not be shown, and it was.
      rw [StoredObject.projection?] at h
      split at h
      · cases h
      · rename_i observed
        cases h
        simp [created, StoredObject.projection?, observed]

/-- What a creation for a configuration tree writes leaves the observed attributes alone. -/
theorem observed_created (hk : kind ≠ .operational) (attributes : Attributes) (o : StoredObject)
    : (created kind attributes o).observed = o.observed := by
  cases kind with
  | config => rfl
  | monitored => rfl
  | operational => exact absurd rfl hk

/-- What a batch leaves of an object shows what the store shows. -/
theorem projection_outcome (kind : TreeKind) (s f : Option StoredObject)
    : (outcome kind s f f).bind (·.projection? kind) = s.bind (·.projection? kind) := by
  rw [outcome]
  cases hs : s.bind (·.projection? kind) with
  | none =>
      cases hf : f.bind (·.projection? kind) with
      | none => simpa using hf
      | some attributes =>
          obtain ⟨o, rfl, -⟩ := Option.bind_eq_some_iff.mp hf
          exact projection_deleted kind o
  | some attributes =>
      obtain ⟨o, -, shown⟩ := Option.bind_eq_some_iff.mp hs
      dsimp only
      split
      · assumption
      · exact projection_created shown _

/-- The fabric shows what the store shows. -/
theorem projected_aligned (h : store.Alignable root kind fabric) (k : Key)
    : (store.aligned fabric root kind).projected root kind k = store.projected root kind k := by
  rw [projected, projected, objects_aligned h]
  by_cases hr : k.root? = some root
  · simp only [hr, if_true, projection_outcome]
  · simp only [hr, if_false]

theorem load_tree (m : Memory) (root : String) (kind : TreeKind)
    : m.load root kind = .ok (m.tree root kind) := by
  obtain ⟨t, ht, -⟩ := m.load_spec root kind
  rw [tree, ht]
  rfl

/-- After the batch that comes from comparing the loaded trees of a kind, the fabric loads what the
store loads, and comparing again finds nothing to do. Objects that the batch does not name are as
they were; in the configuration trees an object that is created over another one keeps what was
observed, and one that is deleted from the monitored tree stays as it was, but released.
-/
theorem load_aligned (h : store.Alignable root kind fabric)
    : (store.load root kind = .ok (store.tree root kind)
        ∧ fabric.load root kind = .ok (fabric.tree root kind)
        ∧ (store.aligned fabric root kind).load root kind = .ok (store.tree root kind))
      ∧ (store.tree root kind).diff ((store.aligned fabric root kind).tree root kind) = {}
      ∧ (∀ k, k ∉ (store.batchFor fabric root kind).create.map Resource.key →
          k ∉ (store.batchFor fabric root kind).delete.map Resource.key →
          (store.aligned fabric root kind).objects[k]? = fabric.objects[k]?)
      ∧ (kind ≠ .operational →
          ∀ k ∈ (store.batchFor fabric root kind).create.map Resource.key,
            ∀ o, fabric.objects[k]? = some o →
              ∃ new, (store.aligned fabric root kind).objects[k]? = some new
                ∧ new.observed = o.observed)
      ∧ (kind = .monitored →
          ∀ k ∈ (store.batchFor fabric root kind).delete.map Resource.key,
            ∃ o, fabric.objects[k]? = some o
              ∧ (store.aligned fabric root kind).objects[k]?
                = some { o with owner := .released }) := by
  have calm : (store.aligned fabric root kind).Calm := (push_batchFor h h.calm).1
  have same : (store.aligned fabric root kind).load root kind = .ok (store.tree root kind) := by
    rw [load_congr h.unflagged calm.errors (projected_aligned h), load_tree]
  refine ⟨⟨store.load_tree root kind, fabric.load_tree root kind, same⟩, ?_, ?_, ?_, ?_⟩
  · have trees : (store.aligned fabric root kind).tree root kind = store.tree root kind := by
      rw [tree, same]
      rfl
    rw [trees, HashTree.diff_self]
  · exact fun k hc hd => aligned_of_not_mem h hc hd
  · intro reconciled k hk o ho
    obtain ⟨attributes, new⟩ := aligned_of_mem_create h hk
    rw [ho, Option.getD_some] at new
    exact ⟨_, new, observed_created reconciled attributes o⟩
  · rintro rfl k hk
    exact aligned_of_mem_delete h hk

/-- A store with an object whose parent is missing. -/
def orphaned : Memory :=
  ({ name := "store" } : Memory).insert ⟨["r", "a"]⟩
    { owner := .remote, attributes := {("a", .null)} }

/-- A fabric with both objects, the lower one with other attributes and something observed of it. -/
def parented : Memory :=
  (({ name := "fabric" } : Memory).insert ⟨["r"]⟩ { owner := .remote }).insert ⟨["r", "a"]⟩
    { owner := .remote, observed := {("b", .null)} }

theorem alignable_orphaned : orphaned.Alignable "r" .monitored parented where
  unflagged := rfl
  calm := ⟨rfl, rfl⟩
  distinguishable :=
    (tree_spec rfl "r" .monitored).1.distinguishable (tree_spec rfl "r" .monitored).1
      (by decide +kernel) (by decide +kernel)

/-- The parent is released where it is, and the object below it stays and takes the attributes of
the store.
-/
theorem load_aligned_taken
    : (orphaned.aligned parented "r" .monitored).load "r" .monitored
        = orphaned.load "r" .monitored
      ∧ (orphaned.aligned parented "r" .monitored).objects[(⟨["r"]⟩ : Key)]?
        = some { owner := .released }
      ∧ ∃ new, (orphaned.aligned parented "r" .monitored).objects[(⟨["r", "a"]⟩ : Key)]? = some new
          ∧ new.observed = {("b", .null)} := by
  have parent : parented.objects[(⟨["r"]⟩ : Key)]? = some { owner := .remote } := by decide +kernel
  have child : parented.objects[(⟨["r", "a"]⟩ : Key)]?
      = some { owner := .remote, observed := {("b", .null)} } := by decide +kernel
  have alignable := alignable_orphaned
  obtain ⟨⟨mine, -, same⟩, -, -, keeps, released⟩ := load_aligned alignable
  refine ⟨same.trans mine.symm, ?_, ?_⟩
  · have removed := (mem_delete (k := ⟨["r"]⟩) alignable).mpr (by decide +kernel)
    obtain ⟨o, held, after⟩ := released rfl _ removed
    rw [parent] at held
    cases held
    exact after
  · have changed := (mem_create (k := ⟨["r", "a"]⟩) alignable).mpr
      ⟨rfl, {("a", .null)}, by decide +kernel, by decide +kernel⟩
    exact keeps (by decide) _ changed _ child

end Concord.Memory
